import PiBridge.Durable.Cascade

/-!
# `Durable.Correctness.OwnershipIndex` — the index lists exactly the tree around live work

`Mirrors` is what the memory is to the published records: it holds the live ones, what it knows of ended tasks and of
conversations is what is stored, and `below` lists a node exactly while it is needed and what it hangs from is known
(`Exact`). A change of one node's liveness leaves the listing exact but for that node (`ExactBut`); `relist` mends it,
node by node upward, as identities grow downward (`relist_exact`). Every publication, load and sweep keeps the mirror.
-/

namespace PiBridge.Durable

open Lib Option Assoc TaskScheduler OrderedSet

variable {V : Type}

/-! ## Well-formed records -/

/-- Records stand under their own identity, below records with smaller ones. -/
structure Tables.Ranked (t : Tables V) : Prop where
  named : ∀ {id record}, Assoc.get? t.tasks id = some record → record.id = id
  task : ∀ {id record}, Assoc.get? t.tasks id = some record → (parentNode record.toTaskNode).id < id
  conversation : ∀ {id owner}, Assoc.get? t.conversations id = some (some owner) → owner < id

/-- What a node of stored records hangs from. -/
def Tables.parent? (t : Tables V) : Node → Option (Option Node)
  | .task id => (Assoc.get? t.tasks id).map fun record => some (parentNode record.toTaskNode)
  | .conversation id => (Assoc.get? t.conversations id).map fun owner => owner.map .task

theorem Tables.Ranked.descends {t : Tables V} {n p : Node} (hr : t.Ranked) (hpar : t.parent? n = some (some p)) : p.id < n.id := by
  cases n with
  | task id =>
    obtain ⟨record, hrec, hat⟩ := map_eq_some_iff.mp hpar
    cases hat
    exact hr.task hrec
  | conversation id =>
    obtain ⟨own, hedge, hat⟩ := map_eq_some_iff.mp hpar
    obtain ⟨task, rfl, rfl⟩ := map_eq_some_iff.mp hat
    exact hr.conversation hedge

/-- A record that may be stored next. -/
structure Tables.Accepts (t : Tables V) (record : AnyTaskRecord V) : Prop where
  replaced : ∀ old, Assoc.get? t.tasks record.id = some old → old.isLive = true ∧ record.toTaskNode = old.toTaskNode
  created : Assoc.get? t.tasks record.id = none → (parentNode record.toTaskNode).id < record.id

/-- The records with one more. -/
def Tables.store (t : Tables V) (record : AnyTaskRecord V) : Tables V := { t with tasks := Assoc.set t.tasks record.id record }

theorem Tables.Ranked.store {t : Tables V} (hr : t.Ranked) {record : AnyTaskRecord V} (hok : t.Accepts record) : (t.store record).Ranked := by
  have hget (id : TaskId) : get? (t.store record).tasks id = if record.id = id then some record else get? t.tasks id := get?_set ..
  refine ⟨fun {id fnd} hfnd => ?_, fun {id fnd} hfnd => ?_, hr.conversation⟩
  · rw [hget] at hfnd
    split at hfnd
    · rename_i heq
      exact some.inj hfnd ▸ heq
    · exact hr.named hfnd
  · rw [hget] at hfnd
    split at hfnd
    · rename_i heq
      cases hfnd
      subst heq
      cases hold : get? t.tasks record.id with
      | some old => exact (hok.replaced old hold).2 ▸ hr.task hold
      | none => exact hok.created hold
    · exact hr.task hfnd

namespace TaskScheduler

variable {s s' : TaskScheduler V} {t : Tables V} {node par n p : Node} {id : TaskId}

/-! ## What the operations leave alone -/

theorem relist_eq (fuel : Nat) (node : Node) (s : TaskScheduler V) :
    relist fuel node s = { s with below := (relist fuel node s).below, dropQueue := (relist fuel node s).dropQueue } := by
  induction fuel generalizing node s with
  | zero => rfl
  | succ fuel ih =>
    unfold relist
    split
    · rename_i par _
      split
      · rfl
      · split
        · dsimp only
          split
          · rw [ih]
            rfl
          · rfl
        · dsimp only
          split
          · rw [ih, dropIfUnneeded]
            split <;> rfl
          · rfl
    · rfl

theorem relistFrom_eq (node : Node) (s : TaskScheduler V) :
    s.relistFrom node = { s with below := (s.relistFrom node).below, dropQueue := (s.relistFrom node).dropQueue } :=
  relist_eq _ _ _

theorem dropIfUnneeded_eq (node : Node) (s : TaskScheduler V) :
    s.dropIfUnneeded node = { s with dropQueue := (s.dropIfUnneeded node).dropQueue } := by
  unfold dropIfUnneeded
  split <;> rfl

theorem release_eq (node : TaskNode) (s : TaskScheduler V) :
    s.release node = { s with finalizeChecks := (s.release node).finalizeChecks, runnable := (s.release node).runnable } := by
  unfold release
  split
  · rfl
  · split
    · rfl
    · split <;> rfl

theorem setWaiters_eq (st : TaskState V) (id : TaskId) (on : Bool) (s : TaskScheduler V) :
    s.setWaiters st id on = { s with waiters := (s.setWaiters st id on).waiters } := by
  unfold setWaiters
  split <;> rfl

/-! ## Exact listing -/

/-- `below` lists a node exactly while it is needed, under the parent it is known to have. -/
def Exact (s : TaskScheduler V) : Prop := ∀ p n, n ∈ s.below p ↔ s.parent? .none n = some (some p) ∧ s.needed n = true

/-- The listing is exact, except that `node` may be missing under its parent or be listed there needlessly. -/
structure ExactBut (s : TaskScheduler V) (node : Node) : Prop where
  others : ∀ p n, n ≠ node → (n ∈ s.below p ↔ s.parent? .none n = some (some p) ∧ s.needed n = true)
  placed : ∀ p, node ∈ s.below p → s.parent? .none node = some (some p)

/-- Where the node is listed exactly too, the listing is exact. -/
theorem ExactBut.exact (h : ExactBut s node) (hnode : ∀ p, s.parent? .none node = some (some p) → (node ∈ s.below p ↔ s.needed node = true)) :
    Exact s := by
  intro p n
  by_cases hn : n = node
  · subst hn
    exact ⟨fun hp => ⟨h.placed p hp, (hnode p (h.placed p hp)).mp hp⟩, fun ⟨hp, hneed⟩ => (hnode p hp).mpr hneed⟩
  · exact h.others p n hn

/-- Two memories with the same tree. -/
structure SameTree (s s' : TaskScheduler V) : Prop where
  live : s'.live = s.live
  settled : s'.settled = s.settled
  edges : s'.edges = s.edges
  below : s'.below = s.below
  intent : s'.intent = s.intent

theorem SameTree.parent? (h : SameTree s s') (n : Node) : s'.parent? .none n = s.parent? .none n := by
  cases n <;> simp only [TaskScheduler.parent?, node?, edge, task?, h.live, h.settled, h.edges]

theorem SameTree.needed (h : SameTree s s') (n : Node) : s'.needed n = s.needed n := by
  cases n <;> simp only [TaskScheduler.needed, isLiveNode, task?, h.live, h.below]

theorem Exact.same (h : Exact s) (hsame : SameTree s s') : Exact s' := by
  intro p n
  rw [hsame.below, hsame.parent?, hsame.needed]
  exact h p n

theorem ExactBut.same (h : ExactBut s node) (hsame : SameTree s s') : ExactBut s' node := by
  constructor
  · intro p n hn
    rw [hsame.below, hsame.parent?, hsame.needed]
    exact h.others p n hn
  · intro p hp
    rw [hsame.parent?]
    exact h.placed p (hsame.below ▸ hp)

variable (listed : Bool)

@[simp] theorem setListed_parent? (n : Node) : (s.setListed p node listed).parent? .none n = s.parent? .none n := by
  cases n <;> rfl

theorem setListed_below (q : Node) :
    (s.setListed p node listed).below q = if q = p then OrderedSet.toggle (s.below p) node listed else s.below q :=
  Function.update_apply ..

@[simp] theorem setListed_isLiveNode (n : Node) : (s.setListed p node listed).isLiveNode n = s.isLiveNode n := by
  cases n <;> rfl

/-- Listing a node changes only whether its parent is needed. -/
theorem setListed_needed (hn : n ≠ p) : (s.setListed p node listed).needed n = s.needed n := by
  simp only [needed, setListed_isLiveNode, setListed_below, if_neg hn]

/-- Once a node is listed as it should be, only its parent may not be. -/
theorem ExactBut.setListed (h : ExactBut s node) (hpar : s.parent? .none node = some (some p)) (hne : node ≠ p) :
    ExactBut (s.setListed p node (s.needed node)) p := by
  have hlist : ∀ q n, n ∈ (s.setListed p node (s.needed node)).below q ↔
      if q = p ∧ n = node then s.needed node = true else n ∈ s.below q := by
    intro q n
    rw [setListed_below]
    by_cases hq : q = p
    · subst hq
      by_cases hn : n = node <;> simp [hn]
    · simp [hq]
  constructor
  · intro q n hn
    rw [hlist, setListed_parent?, setListed_needed _ hn]
    by_cases heq : n = node
    · subst heq
      by_cases hq : q = p
      · subst hq
        simp [hpar]
      · -- Nowhere else: what it hangs from is `p`.
        rw [if_neg (fun hand => hq hand.1)]
        constructor
        · intro hin
          exact absurd (some.inj (some.inj (hpar.symm.trans (h.placed q hin)))).symm hq
        · intro ⟨hat, _⟩
          exact absurd (some.inj (some.inj (hpar.symm.trans hat))).symm hq
    · rw [if_neg (fun hand => heq hand.2)]
      exact h.others q n heq
  · intro q hin
    rw [hlist, if_neg (fun hand => hne hand.2.symm)] at hin
    exact ((h.others q p hne.symm).mp hin).1

/-- Where the parent stays needed or stays unneeded, it is listed as before. -/
theorem ExactBut.settled (h : ExactBut s node) (hpar : s.parent? .none node = some (some p)) (hne : node ≠ p)
    (hemp : ((s.setListed p node (s.needed node)).below p).isEmpty = (s.below p).isEmpty) :
    Exact (s.setListed p node (s.needed node)) := by
  refine (h.setListed hpar hne).exact fun q hq => ?_
  have hneed : (s.setListed p node (s.needed node)).needed p = s.needed p := by
    show ((s.setListed p node (s.needed node)).isLiveNode p || !((s.setListed p node (s.needed node)).below p).isEmpty) = _
    rw [hemp, setListed_isLiveNode]
    rfl
  rw [hneed, setListed_below, ← and_iff_right (a := s.parent? .none p = some (some q)) hq (b := s.needed p = true), ← h.others q p hne.symm]
  by_cases hqp : q = p
  · subst hqp
    simp [hne.symm]
  · rw [if_neg hqp]

theorem SameTree.dropIfUnneeded (s : TaskScheduler V) (node : Node) : SameTree s (s.dropIfUnneeded node) := by
  rw [dropIfUnneeded_eq]
  exact ⟨rfl, rfl, rfl, rfl, rfl⟩

/-- What a node is known to hang from has a smaller identity. -/
def Descends (s : TaskScheduler V) : Prop := ∀ n p, s.parent? .none n = some (some p) → p.id < n.id

theorem Descends.same (h : Descends s) (hsame : ∀ n, s'.parent? .none n = s.parent? .none n) : Descends s' :=
  fun n p hn => h n p (hsame n ▸ hn)

/-- **Relisting mends the listing**, from the node whose need changed upward. -/
theorem relist_exact {fuel : Nat} (hdesc : Descends s) (h : ExactBut s node) (hfuel : node.id < fuel) : Exact (relist fuel node s) := by
  induction fuel generalizing node s with
  | zero => exact absurd hfuel (Nat.not_lt_zero _)
  | succ fuel ih =>
    unfold relist
    split
    · rename_i par hpar
      have hlt := hdesc node par hpar
      have hne : node ≠ par := fun heq => absurd (heq ▸ hlt) (Nat.lt_irrefl _)
      have hup := h.setListed hpar hne
      have hdesc' : Descends (s.setListed par node (s.needed node)) := hdesc.same fun n => setListed_parent? _ n
      have hroom : par.id < fuel := by omega
      have hbel : (s.setListed par node (s.needed node)).below par = toggle (s.below par) node (s.needed node) := by
        rw [setListed_below, if_pos rfl]
      split
      · rename_i hsame
        refine h.exact fun q hq => ?_
        cases some.inj (hpar.symm.trans hq)
        rw [← hsame, decide_eq_true_eq]
      · rename_i hdiff
        split
        · rename_i hneed
          rw [hneed] at hup hdesc' hbel hdiff
          split
          · exact ih hdesc' hup hroom
          · rename_i hfull
            -- The parent had something listed below it before, so it was needed and still is.
            have hdone := h.settled hpar hne
            rw [hneed] at hdone
            refine hdone ?_
            rw [hbel, Bool.eq_false_iff.mpr hfull]
            exact List.isEmpty_eq_false_iff.mpr add_ne_nil
        · rename_i hunneeded
          rw [Bool.not_eq_true] at hunneeded
          rw [hunneeded] at hup hdesc' hbel hdiff
          dsimp only
          split
          · have hsame := SameTree.dropIfUnneeded (s.setListed par node false) par
            exact ih (hdesc'.same hsame.parent?) (hup.same hsame) hroom
          · rename_i hfull
            have hdone := h.settled hpar hne
            rw [hunneeded] at hdone
            refine hdone ?_
            rw [Bool.eq_false_iff.mpr hfull]
            refine (List.isEmpty_eq_false_iff.mpr fun hnil => ?_).symm
            rw [Bool.not_eq_true, hbel, hnil] at hfull
            cases hfull
    · rename_i hroot
      exact h.exact fun q hq => absurd hq (hroot q)

theorem relistFrom_exact (hdesc : Descends s) (h : ExactBut s node) : Exact (s.relistFrom node) := relist_exact hdesc h (Nat.lt_succ_self _)

/-! ## The mirror -/

/-- What the memory holds is what is stored. -/
structure Holds (s : TaskScheduler V) (t : Tables V) : Prop where
  live : ∀ id record, s.task? id = some record ↔ Assoc.get? t.tasks id = some record ∧ record.isLive = true
  settled : ∀ id node, s.settled id = some node →
    ∃ record, Assoc.get? t.tasks id = some record ∧ record.isLive = false ∧ record.toTaskNode = node
  edges : ∀ id owner, s.edges id = some owner → Assoc.get? t.conversations id = some owner
  intent : ∀ id, id ∈ s.intent ↔ ∃ record, s.task? id = some record ∧ cancellationIntent record = true

/-- **The memory mirrors the published records**, and lists the tree around live work. -/
structure Mirrors (s : TaskScheduler V) (t : Tables V) : Prop extends Holds s t where
  listed : Exact s

theorem node?_none (id : TaskId) : s.node? .none id = ((s.task? id).map (·.toTaskNode)).or (s.settled id) := rfl

/-- What is known of a task is what is stored of it. -/
theorem Holds.node? (h : Holds s t) {kn : TaskNode} (hnode : s.node? .none id = some kn) :
    ∃ record, Assoc.get? t.tasks id = some record ∧ record.toTaskNode = kn := by
  rw [node?_none] at hnode
  cases hlive : s.task? id with
  | some record =>
    rw [hlive] at hnode
    exact ⟨record, ((h.live id record).mp hlive).1, some.inj hnode⟩
  | none =>
    rw [hlive] at hnode
    obtain ⟨record, hrec, -, hat⟩ := h.settled id kn hnode
    exact ⟨record, hrec, hat⟩

/-- What a known node hangs from is what it hangs from in the records. -/
theorem Holds.parent? (h : Holds s t) {at' : Option Node} (hpar : s.parent? .none n = some at') : t.parent? n = some at' := by
  cases n with
  | task id =>
    obtain ⟨kn, hnode, hat⟩ := map_eq_some_iff.mp hpar
    obtain ⟨record, hrec, rfl⟩ := h.node? hnode
    simp only [Tables.parent?, hrec, map_some, hat]
  | conversation id =>
    obtain ⟨own, hedge, hat⟩ := map_eq_some_iff.mp hpar
    simp only [Tables.parent?, h.edges id own hedge, map_some, hat]

theorem Holds.descends (h : Holds s t) (hr : t.Ranked) : Descends s := fun _ _ hpar => hr.descends (h.parent? hpar)

theorem Holds.same (h : Holds s t) (hsame : SameTree s s') : Holds s' t where
  live id record := by simpa only [task?, hsame.live] using h.live id record
  settled id node hnode := h.settled id node (hsame.settled ▸ hnode)
  edges id owner hedge := h.edges id owner (hsame.edges ▸ hedge)
  intent id := by simpa only [task?, hsame.live, hsame.intent] using h.intent id

theorem Mirrors.same (h : Mirrors s t) (hsame : SameTree s s') : Mirrors s' t := ⟨h.toHolds.same hsame, h.listed.same hsame⟩

/-- A memory that holds the records is a mirror of them once the node whose need changed is listed anew. -/
theorem Holds.relisted (h : Holds s t) (hr : t.Ranked) (hbut : ExactBut s node) : Mirrors ((s.relistFrom node).dropIfUnneeded node) t := by
  have hsame := SameTree.dropIfUnneeded (s.relistFrom node) node
  have hexact : Exact (s.relistFrom node) := relistFrom_exact (h.descends hr) hbut
  have hholds : Holds (s.relistFrom node) t := by
    rw [relistFrom_eq]
    exact { h with }
  exact ⟨hholds.same hsame, hexact.same hsame⟩

/-! ## What each operation does to the mirror -/

/-- A conversation's owner, as stored, becomes known. -/
theorem Mirrors.setEdge (h : Mirrors s t) (hr : t.Ranked) {c : ConversationId} {own : Option TaskId}
    (hsto : Assoc.get? t.conversations c = some own) : Mirrors (s.setEdge c own) t := by
  let linked : TaskScheduler V := { s with edges := Function.update s.edges c (some own) }
  have hholds : Holds linked t := by
    refine ⟨h.live, h.settled, fun id kn hedge => ?_, h.intent⟩
    rw [show linked.edges id = if id = c then some own else s.edges id from Function.update_apply ..] at hedge
    split at hedge
    · rename_i heq
      exact heq ▸ hsto.trans hedge
    · exact h.edges id kn hedge
  have hothers (n : Node) (hn : n ≠ .conversation c) : linked.parent? .none n = s.parent? .none n := by
    cases n with
    | task id => rfl
    | conversation id =>
      have hne : id ≠ c := fun heq => hn (heq ▸ rfl)
      simp only [parent?, edge]
      rw [show linked.edges id = s.edges id from Function.update_of_ne hne _ _]
  have hneed (n : Node) : linked.needed n = s.needed n := by cases n <;> rfl
  have hbut : ExactBut linked (.conversation c) := by
    constructor
    · intro p n hn
      rw [hothers n hn, hneed]
      exact h.listed p n
    · intro p hp
      -- Listed before, so known before, and what was known is what is stored.
      have hpar := h.toHolds.parent? ((h.listed p _).mp hp).1
      simp only [Tables.parent?, hsto] at hpar
      simp only [parent?, edge]
      rw [show linked.edges c = some own from Function.update_self ..]
      exact hpar
  exact hholds.relisted hr hbut

theorem SameTree.refl (s : TaskScheduler V) : SameTree s s := ⟨rfl, rfl, rfl, rfl, rfl⟩

theorem SameTree.trans {s'' : TaskScheduler V} (h : SameTree s s') (h' : SameTree s' s'') : SameTree s s'' :=
  ⟨h'.live.trans h.live, h'.settled.trans h.settled, h'.edges.trans h.edges, h'.below.trans h.below, h'.intent.trans h.intent⟩

theorem SameTree.setWaiters (s : TaskScheduler V) (st : TaskState V) (id : TaskId) (on : Bool) :
    SameTree s (s.setWaiters st id on) := by
  rw [setWaiters_eq]
  exact ⟨rfl, rfl, rfl, rfl, rfl⟩

theorem SameTree.release (s : TaskScheduler V) (node : TaskNode) : SameTree s (s.release node) := by
  rw [release_eq]
  exact ⟨rfl, rfl, rfl, rfl, rfl⟩

theorem Holds.task?_none (h : Holds s t) (hid : Assoc.get? t.tasks id = none) : s.task? id = none ∧ s.settled id = none := by
  constructor
  · rw [eq_none_iff_forall_not_mem]
    intro record hrec
    exact absurd (hid ▸ ((h.live id record).mp hrec).1) (by simp)
  · rw [eq_none_iff_forall_not_mem]
    intro node hnode
    obtain ⟨record, hrec, -⟩ := h.settled id node hnode
    exact absurd (hid ▸ hrec) (by simp)

variable {rec : AnyTaskRecord V}

/-- A record is the one the task had, or of a task that was not known. -/
theorem Mirrors.previous (h : Mirrors s t) (hok : t.Accepts rec) :
    (∃ old, s.task? rec.id = some old ∧ rec.toTaskNode = old.toTaskNode) ∨
      (s.task? rec.id = none ∧ s.settled rec.id = none ∧ Assoc.get? t.tasks rec.id = none) := by
  cases hold : get? t.tasks rec.id with
  | some old =>
    obtain ⟨hlive, hsame⟩ := hok.replaced old hold
    exact .inl ⟨old, (h.live _ _).mpr ⟨hold, hlive⟩, hsame⟩
  | none => exact .inr ⟨(h.task?_none hold).1, (h.task?_none hold).2, rfl⟩

section

variable (h : Mirrors s t) (hr : t.Ranked) (hok : t.Accepts rec)

include h hr hok

/-- The memory of a task's record, which ends it: everything but the listing. -/
theorem Mirrors.trackEnded
    (hend : rec.isLive = false) : Mirrors (s.trackEnded rec) (t.store rec) := by
  have hget (id : TaskId) : get? (t.store rec).tasks id = if rec.id = id then some rec else get? t.tasks id := get?_set ..
  let ended : TaskScheduler V := { s with
    live := erase s.live rec.id
    sleeping := delete s.sleeping rec.id
    intent := delete s.intent rec.id
    runnable := delete s.runnable rec.id
    finalizeChecks := delete s.finalizeChecks rec.id
    settled := Function.update s.settled rec.id (some rec.toTaskNode) }
  have htask (id : TaskId) : ended.task? id = if rec.id = id then none else s.task? id := by
    by_cases heq : rec.id = id
    · rw [if_pos heq, ← heq]
      exact get?_erase_self ..
    · rw [if_neg heq]
      exact get?_erase_ne _ heq
  have hsett (id : TaskId) : ended.settled id = if id = rec.id then some rec.toTaskNode else s.settled id := Function.update_apply ..
  have hholds : Holds ended (t.store rec) := by
    constructor
    · intro id fnd
      rw [htask, hget]
      split
      · constructor
        · intro hnone
          cases hnone
        · rintro ⟨hsome, hlive⟩
          rw [← some.inj hsome, hend] at hlive
          cases hlive
      · exact h.live id fnd
    · intro id node hnode
      rw [hsett] at hnode
      rw [hget]
      split at hnode
      · rename_i heq
        rw [if_pos heq.symm]
        exact ⟨rec, rfl, hend, some.inj hnode⟩
      · rename_i hne
        rw [if_neg (Ne.symm hne)]
        exact h.settled id node hnode
    · exact h.edges
    · intro id
      rw [show ended.intent = delete s.intent rec.id from rfl, mem_delete, h.intent, htask]
      by_cases heq : rec.id = id
      · simp [heq]
      · simp [heq, Ne.symm heq]
  have hbut : ExactBut ended (.task rec.id) := by
    have hothers (n : Node) (hn : n ≠ .task rec.id) : ended.parent? .none n = s.parent? .none n ∧ ended.needed n = s.needed n := by
      cases n with
      | task id =>
        have hne : rec.id ≠ id := fun heq => hn (heq ▸ rfl)
        constructor
        · simp only [parent?, node?_none, htask, hsett, if_neg hne, if_neg (Ne.symm hne)]
        · simp only [needed, isLiveNode, htask, if_neg hne]
          rfl
      | conversation id => exact ⟨rfl, rfl⟩
    constructor
    · intro p n hn
      rw [(hothers n hn).1, (hothers n hn).2]
      exact h.listed p n
    · intro p hp
      have hpar := ((h.listed p _).mp hp).1
      simp only [parent?, node?_none, htask, hsett, if_true] at hpar ⊢
      obtain ⟨old, hold, hsame⟩ | ⟨hnone, hunsettled, -⟩ := h.previous hok
      · rw [hold] at hpar
        rw [hsame]
        exact hpar
      · rw [hnone, hunsettled] at hpar
        cases hpar
  -- What the end frees changes candidate sets only.
  have hsame : SameTree ended { ended.release rec.toTaskNode with
      runnable := ((ended.release rec.toTaskNode).waiters rec.id).foldl add (ended.release rec.toTaskNode).runnable } :=
    (SameTree.release ended rec.toTaskNode).trans ⟨rfl, rfl, rfl, rfl, rfl⟩
  exact (hholds.same hsame).relisted (hr.store hok) (hbut.same hsame)

/-- What a live task's record leaves of the tree: it stands in `live`, and it is listed where it hangs. -/
theorem Mirrors.placed : Exact (s.place (s.task? rec.id) rec) ∧
      (s.place (s.task? rec.id) rec).live = Assoc.set s.live rec.id rec ∧
      (s.place (s.task? rec.id) rec).settled = s.settled ∧ (s.place (s.task? rec.id) rec).edges = s.edges ∧
      (s.place (s.task? rec.id) rec).intent = s.intent := by
  generalize hunloaded : (if ({ s with live := set s.live rec.id rec } : TaskScheduler V).known (parentNode rec.toTaskNode)
    then s.unloaded else add s.unloaded rec.id) = unloaded
  let sto : TaskScheduler V := { s with live := set s.live rec.id rec, unloaded }
  have hplac : s.place (s.task? rec.id) rec =
      if (s.task? rec.id).isNone then sto.relistFrom (.task rec.id)
      else { s with live := set s.live rec.id rec } := by
    rw [place, hunloaded]
  have htask (id : TaskId) : sto.task? id = if rec.id = id then some rec else s.task? id := get?_set ..
  have hneed (n : Node) (hn : n ≠ .task rec.id) : sto.needed n = s.needed n := by
    cases n with
    | task id =>
      have hne : rec.id ≠ id := fun heq => hn (heq ▸ rfl)
      simp only [needed, isLiveNode, htask, if_neg hne]
      rfl
    | conversation id => rfl
  have hpar (n : Node) (hn : n ≠ .task rec.id) : sto.parent? .none n = s.parent? .none n := by
    cases n with
    | task id =>
      have hne : rec.id ≠ id := fun heq => hn (heq ▸ rfl)
      simp only [parent?, node?_none, htask, if_neg hne]
      rfl
    | conversation id => rfl
  obtain ⟨old, hold, hsame⟩ | ⟨hnone, hunsettled, -⟩ := h.previous hok
  · -- A live task stays where it is.
    rw [hplac, if_neg (by rw [hold]; simp)]
    refine ⟨fun p n => ?_, rfl, rfl, rfl, rfl⟩
    show n ∈ s.below p ↔ sto.parent? .none n = some (some p) ∧ sto.needed n = true
    by_cases hn : n = .task rec.id
    · subst hn
      rw [h.listed p]
      simp only [parent?, needed, isLiveNode, node?_none, htask, if_true, hold, hsame, map_some, isSome_some, Bool.true_or]
      exact Iff.rfl
    · rw [hpar n hn, hneed n hn]
      exact h.listed p n
  · rw [hplac, if_pos (by rw [hnone]; rfl)]
    have hholds : Descends sto := by
      intro n p hat
      by_cases hn : n = .task rec.id
      · subst hn
        simp only [parent?, node?_none, htask, if_true] at hat
        cases some.inj hat
        exact hok.created (by
          cases hold : get? t.tasks rec.id with
          | none => rfl
          | some old => rw [(h.live _ _).mpr ⟨hold, (hok.replaced old hold).1⟩] at hnone; cases hnone)
      · exact h.toHolds.descends hr n p (hpar n hn ▸ hat)
    have hbut : ExactBut sto (.task rec.id) := by
      constructor
      · intro p n hn
        rw [hpar n hn, hneed n hn]
        exact h.listed p n
      · intro p hp
        have hkn := ((h.listed p _).mp hp).1
        simp only [parent?, node?_none, hnone, hunsettled] at hkn
        cases hkn
    have hexact := relistFrom_exact hholds hbut
    refine ⟨hexact, ?_, ?_, ?_, ?_⟩ <;> rw [relistFrom_eq]

/-- The memory of a live task's record. -/
theorem Mirrors.trackLive
    (hlive : rec.isLive = true) {prev : Option (AnyTaskRecord V)} (hprev : s.task? rec.id = prev) :
    Mirrors (s.trackLive prev rec) (t.store rec) := by
  have hget (id : TaskId) : get? (t.store rec).tasks id = if rec.id = id then some rec else get? t.tasks id := get?_set ..
  unfold TaskScheduler.trackLive
  rw [setWaiters_eq]
  obtain ⟨hexact, hset, hsett, hedges, hintent⟩ := h.placed hr hok
  rw [hprev] at hexact hset hsett hedges hintent
  have htask (id : TaskId) : get? (set s.live rec.id rec) id = if rec.id = id then some rec else s.task? id := get?_set ..
  refine ⟨⟨fun id fnd => ?_, fun id node hnode => ?_, fun id own hedge => ?_, fun id => ?_⟩, hexact⟩
  · simp only [task?, hset]
    rw [htask, hget]
    split
    · rename_i heq
      constructor
      · intro hfnd
        exact ⟨hfnd, some.inj hfnd ▸ hlive⟩
      · exact And.left
    · exact h.live id fnd
  · have hnode' : s.settled id = some node := hsett ▸ hnode
    obtain ⟨fnd, hfnd, hend, hat⟩ := h.settled id node hnode'
    rw [hget]
    split
    · rename_i heq
      -- The task of the rec is not one that ended.
      subst heq
      obtain ⟨hwas, -⟩ := hok.replaced fnd hfnd
      rw [hend] at hwas
      cases hwas
    · exact ⟨fnd, hfnd, hend, hat⟩
  · exact h.edges id own (hedges ▸ hedge)
  · simp only [task?, hset, mem_toggle]
    rw [htask]
    by_cases heq : rec.id = id
    · simp [heq]
    · rw [if_neg (Ne.symm heq), if_neg heq, hintent]
      exact h.intent id

/-- **A task of a publication** keeps the mirror. -/
theorem Mirrors.observeTask :
    Mirrors (s.observeTask rec) (t.store rec) := by
  -- First the waits of the record it replaces are taken back.
  have hunwaited : SameTree s ((s.task? rec.id).elim s fun prev => s.setWaiters prev.state rec.id false) := by
    cases s.task? rec.id with
    | none => exact SameTree.refl s
    | some prev => exact SameTree.setWaiters ..
  have htracked : Mirrors (s.track (s.task? rec.id) rec) (t.store rec) := by
    have hbef := h.same hunwaited
    unfold track
    split
    · rename_i hterm
      exact hbef.trackEnded hr hok (by simp [AnyTaskRecord.isLive, hterm])
    · rename_i hlive
      refine hbef.trackLive hr hok (by simp [AnyTaskRecord.isLive, hlive]) ?_
      rw [task?, hunwaited.live, task?]
  unfold TaskScheduler.observeTask
  dsimp only
  split
  · exact htracked.same ⟨rfl, rfl, rfl, rfl, rfl⟩
  · split
    · exact htracked.same ⟨rfl, rfl, rfl, rfl, rfl⟩
    · exact htracked

end

/-- A node that is not needed is forgotten. -/
theorem Mirrors.sweepNode (h : Mirrors s t) (node : Node) : Mirrors (s.sweepNode node) t := by
  unfold TaskScheduler.sweepNode
  split
  · exact h
  · rename_i hdrop
    rw [Bool.or_eq_true, not_or, Bool.not_eq_true, Bool.not_eq_false'] at hdrop
    cases node with
    | conversation id =>
      let drp : TaskScheduler V := { s with edges := Function.update s.edges id none }
      show Mirrors drp t
      have hedges (c : ConversationId) : drp.edges c = if c = id then none else s.edges c := Function.update_apply ..
      refine ⟨⟨h.live, h.settled, fun c own hedge => ?_, h.intent⟩, fun p n => ?_⟩
      · rw [hedges] at hedge
        split at hedge
        · cases hedge
        · exact h.edges c own hedge
      · have hneed : drp.needed n = s.needed n := by cases n <;> rfl
        rw [hneed, show drp.below p = s.below p from rfl, h.listed p n]
        cases n with
        | task _ => exact Iff.rfl
        | conversation c =>
          simp only [parent?, edge, hedges]
          by_cases heq : c = id
          · subst heq
            -- Nothing hangs from it, so it was listed nowhere.
            have hunneeded : s.needed (.conversation c) = false := by
              simp [needed, isLiveNode, hdrop.1]
            simp [hunneeded]
          · rw [if_neg heq]
    | task id =>
      dsimp only
      split
      · exact h
      · rename_i hdead
        let drp : TaskScheduler V := { s with settled := Function.update s.settled id none, unloaded := delete s.unloaded id }
        show Mirrors drp t
        have hsett (c : TaskId) : drp.settled c = if c = id then none else s.settled c := Function.update_apply ..
        refine ⟨⟨h.live, fun c node hnode => ?_, h.edges, h.intent⟩, fun p n => ?_⟩
        · rw [hsett] at hnode
          split at hnode
          · cases hnode
          · exact h.settled c node hnode
        · have hneed : drp.needed n = s.needed n := by cases n <;> rfl
          rw [hneed, show drp.below p = s.below p from rfl, h.listed p n]
          cases n with
          | conversation _ => exact Iff.rfl
          | task c =>
            simp only [parent?, node?_none, hsett]
            rw [show drp.task? c = s.task? c from rfl]
            by_cases heq : c = id
            · subst heq
              have hunneeded : s.needed (.task c) = false := by
                simp [needed, hdead, hdrop.1]
              simp [hunneeded]
            · rw [if_neg heq]

theorem Mirrors.sweep (h : Mirrors s t) : Mirrors s.sweep t := by
  have hdrop : ∀ (q : List Node) (s : TaskScheduler V), Mirrors s t → Mirrors (q.foldl TaskScheduler.sweepNode s) t := by
    intro q
    induction q with
    | nil => exact fun _ h => h
    | cons node q ih => exact fun s h => ih _ (h.sweepNode node)
  exact (hdrop s.dropQueue s h).same ⟨rfl, rfl, rfl, rfl, rfl⟩

end TaskScheduler

end PiBridge.Durable
