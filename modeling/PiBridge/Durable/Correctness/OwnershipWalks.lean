import PiBridge.Durable.Correctness.OwnershipRuns

/-!
# `Durable.Correctness.OwnershipWalks` — what walks reach

Over a memory that mirrors the published records, a walk down from a node visits exactly the live tasks that hang below
it through nodes it enters (`mem_walkDown`), and the walk up from a task finds the nearest owner with intent above it
(`cancellingOwner_eq`): both ways see the same pairs, as both read the one forest `up`.
-/

namespace PiBridge.Durable

open Lib List Option

variable {V : Type}

namespace TaskScheduler

variable {s : TaskScheduler V} {t : Tables V} {n p x top : Node} {pass : Node → Prop}

/-- What a node is known to hang from. -/
def up (s : TaskScheduler V) (n : Node) : Option Node := (s.parent? .none n).join

theorem up_eq_some : s.up n = some p ↔ s.parent? .none n = some (some p) := join_eq_some_iff

variable {id : TaskId} {rec : AnyTaskRecord V}

theorem up_task : s.up (.task id) = (s.node? .none id).map parentNode := by
  simp only [up, parent?]
  cases s.node? .none id <;> rfl

theorem up_conversation {id : ConversationId} : s.up (.conversation id) = (s.edges id).join.map .task := by
  simp only [up, parent?, edge, Overlay.none, Assoc.get?_nil, none_or]
  cases s.edges id <;> rfl

theorem Descends.up (h : Descends s) (hup : s.up n = some p) : p.id < n.id := h n p (up_eq_some.1 hup)

theorem Exact.mem_below (h : Exact s) : n ∈ s.below p ↔ s.up n = some p ∧ s.needed n = true := by
  rw [up_eq_some]
  exact h p n

theorem needed_of_mem_below (h : n ∈ s.below p) : s.needed p = true := by
  have hne : (s.below p).isEmpty = false := isEmpty_eq_false_iff.mpr (ne_nil_of_mem h)
  rw [needed, hne, Bool.not_false, Bool.or_true]

/-- What a needed node hangs below is needed. -/
theorem Exact.needed_above (h : Exact s) (hunder : Under s.up pass top x) (hx : s.needed x = true) : s.needed top = true := by
  induction hunder with
  | child hup => exact needed_of_mem_below (h.mem_below.mpr ⟨hup, hx⟩)
  | step hup _ _ ih => exact ih (needed_of_mem_below (h.mem_below.mpr ⟨hup, hx⟩))

/-! ## Walks down -/

theorem children_none (s : TaskScheduler V) : s.children (s.links .none) = s.below := by
  funext node
  exact append_nil _

/-- No live task's identity is beyond the depth of a walk. -/
theorem lt_depth (h : s.task? id = some rec) (overlay : Overlay V) : id < s.depth overlay := by
  have hmem : id ∈ s.live.map Prod.fst ++ overlay.tasks.map Prod.fst := mem_append_left _ (mem_map.mpr ⟨_, Assoc.mem_of_get? h, rfl⟩)
  have hle : ∀ {ids : List Nat}, id ∈ ids → id ≤ ids.foldr max 0 := by
    intro ids
    induction ids with
    | nil => exact nofun
    | cons first ids ih =>
      intro h
      obtain rfl | h := mem_cons.mp h
      · exact Nat.le_max_left ..
      · exact Nat.le_trans (ih h) (Nat.le_max_right ..)
  exact Nat.lt_succ_of_le (hle hmem)

variable {cross : Bool} {enter : TaskId → Bool} {start : Node}

/-- The way a walk down takes: through the nodes it enters. -/
def Reaches (s : TaskScheduler V) (crossBackground : Bool) (enter : TaskId → Bool) : Node → Node → Prop :=
  Under s.up fun node => s.enters .none crossBackground enter node = true

theorem reaches_of_mem_expanded (h : Exact s) (hmem : n ∈ s.expanded .none cross enter start) :
    n = start ∨ s.enters .none cross enter n = true ∧ s.Reaches cross enter start n := by
  unfold expanded at hmem
  rw [children_none] at hmem
  exact under_of_mem_walk (fun p c hc => (h.mem_below.mp hc).1) hmem

/-- What a walk expands on the way to a live task. -/
theorem mem_expanded (h : Exact s) (hdesc : Descends s) (hlive : s.task? id = some rec)
    (hup : s.up (.task id) = some n) (hreach : s.Reaches cross enter start (.task id)) :
    n ∈ s.expanded .none cross enter start := by
  have hneed : s.needed (.task id) = true := by
    rw [needed, isLiveNode, hlive]
    rfl
  have hroom : n.id < id := hdesc.up hup
  have hdepth := lt_depth hlive .none
  unfold expanded
  rw [children_none]
  obtain rfl | ⟨henter, hn⟩ := hreach.of_parent hup
  · obtain ⟨depth, heq⟩ : ∃ depth, s.depth .none = depth + 1 := ⟨_, rfl⟩
    exact mem_walk_succ.mpr (.inl rfl)
  · have hrank : ∀ p c, c ∈ s.below p → p.id < c.id := fun p c hc => hdesc.up (h.mem_below.mp hc).1
    refine mem_walk hrank (fun z p hz hp => ?_) hn henter
      (Nat.lt_of_lt_of_le (Nat.lt_trans hroom hdepth) (Nat.le_add_left ..))
    have hneededn : s.needed n = true := needed_of_mem_below (h.mem_below.mpr ⟨hup, hneed⟩)
    refine h.mem_below.mpr ⟨hp, ?_⟩
    obtain rfl | hz := hz
    · exact hneededn
    · exact h.needed_above hz hneededn

/-- **A walk down** visits the live tasks that hang below its start through what it enters. -/
theorem mem_walkDown (h : Exact s) (hdesc : Descends s) (hlive : s.task? id = some rec) :
    (∃ visit ∈ s.walkDown .none cross enter start, visit.id = id) ↔ s.Reaches cross enter start (.task id) := by
  constructor
  · rintro ⟨visit, hvisit, rfl⟩
    obtain ⟨node, hnode, hin⟩ := mem_flatMap.mp hvisit
    rw [children_none] at hin
    obtain ⟨ch, hch, hat⟩ := mem_filterMap.mp hin
    obtain rfl : ch = .task visit.id := by
      cases ch with
      | conversation => cases hat
      | task id =>
        obtain ⟨flds, -, rfl⟩ := map_eq_some_iff.mp hat
        rfl
    have hup := (h.mem_below.mp hch).1
    obtain rfl | ⟨henter, hreach⟩ := reaches_of_mem_expanded h hnode
    · exact .child hup
    · exact .step hup henter hreach
  · intro hreach
    have hnode : s.node? .none id = some rec.toTaskNode := by
      rw [node?_none, hlive]
      rfl
    have hup : s.up (.task id) = some (parentNode rec.toTaskNode) := by
      rw [up_task, hnode]
      rfl
    have hneed : s.needed (.task id) = true := by
      rw [needed, isLiveNode, hlive]
      rfl
    refine ⟨⟨id, rec.toTaskNode, (s.task? id).filter (·.isLive)⟩, ?_, rfl⟩
    refine mem_flatMap.mpr ⟨_, mem_expanded h hdesc hlive hup hreach, ?_⟩
    rw [children_none]
    refine mem_filterMap.mpr ⟨.task id, h.mem_below.mpr ⟨hup, hneed⟩, ?_⟩
    simp only [visit, hnode, map_some]
    rfl

/-- What a visit says of its task. -/
theorem visit_eq {overlay : Overlay V} {visit : Visit V} (h : visit ∈ s.walkDown overlay cross enter start) :
    s.node? overlay visit.id = some visit.node ∧
      visit.live = ((Assoc.get? overlay.tasks visit.id).or (s.task? visit.id)).filter (·.isLive) := by
  obtain ⟨node, -, hin⟩ := mem_flatMap.mp h
  obtain ⟨ch, -, hat⟩ := mem_filterMap.mp hin
  cases ch with
  | conversation => cases hat
  | task id =>
    obtain ⟨flds, hflds, rfl⟩ := map_eq_some_iff.mp hat
    exact ⟨hflds, rfl⟩

/-! ## Walks up -/

/-- The nodes between an owner and what its intent reaches: no background task, and no owner with intent of its own. -/
def Between (s : TaskScheduler V) (n : Node) : Prop := s.enters .none false (fun below => !decide (below ∈ s.intent)) n = true

theorem between_task : s.Between (.task id) ↔ ∃ node, s.node? .none id = some node ∧ node.background = false ∧ id ∉ s.intent := by
  unfold Between enters
  rw [Option.any_eq_true]
  refine exists_congr fun node => and_congr_right fun _ => ?_
  simp

/-- **The walk up** finds the nearest owner with intent. -/
theorem firstCancelling_above (h : Holds s t) (hdesc : Descends s) {fuel : Nat} (hup : s.up x = some n) (hfuel : n.id < fuel) :
    s.firstCancelling (s.above .none fuel n) = some rec ↔
      ∃ id, s.task? id = some rec ∧ id ∈ s.intent ∧ Under s.up s.Between (.task id) x := by
  induction fuel generalizing n x with
  | zero => exact absurd hfuel (Nat.not_lt_zero _)
  | succ fuel ih =>
    have hmem {id : TaskId} {rec : AnyTaskRecord V} (hlive : s.task? id = some rec) : id ∈ s.intent ↔ cancellationIntent rec = true := by
      rw [h.intent, hlive]
      simp
    cases n with
    | task id =>
      unfold above
      cases hnode : s.node? .none id with
      | none =>
        -- The chain ends here: nothing is known above it, nor of the task.
        simp only [firstCancelling, reduceCtorEq, false_iff]
        rintro ⟨own, hown, -, hunder⟩
        obtain heq | ⟨hbtw, -⟩ := hunder.of_parent hup
        · cases heq
          rw [node?_none, hown] at hnode
          cases hnode
        · obtain ⟨node, hnode', -⟩ := between_task.1 hbtw
          rw [hnode] at hnode'
          cases hnode'
      | some node =>
        have hupn : s.up (.task id) = some (parentNode node) := by
          rw [up_task, hnode]
          rfl
        have hlt : (parentNode node).id < fuel := Nat.lt_of_lt_of_le (hdesc.up hupn) (Nat.le_of_lt_succ hfuel)
        simp only [firstCancelling]
        by_cases hintent : id ∈ s.intent
        · obtain ⟨own, hown, hcanc⟩ := (h.intent id).mp hintent
          rw [hown, filter_some_pos hcanc]
          constructor
          · rintro ⟨rfl⟩
            exact ⟨id, hown, hintent, .child hup⟩
          · rintro ⟨oth, hoth, -, hunder⟩
            obtain heq | ⟨hbtw, -⟩ := hunder.of_parent hup
            · cases heq
              exact hown.symm.trans hoth
            · obtain ⟨_, -, -, hnot⟩ := between_task.1 hbtw
              exact absurd hintent hnot
        · have hfilter : (s.task? id).filter cancellationIntent = none := by
            rw [filter_eq_none_iff]
            intro fnd hfnd hcanc
            exact hintent ((hmem hfnd).mpr hcanc)
          rw [hfilter]
          dsimp only
          split
          · rename_i hback
            simp only [reduceCtorEq, false_iff]
            rintro ⟨oth, hoth, hin, hunder⟩
            obtain heq | ⟨hbtw, -⟩ := hunder.of_parent hup
            · cases heq
              exact hintent hin
            · obtain ⟨flds, hflds, hfore, -⟩ := between_task.1 hbtw
              rw [hnode] at hflds
              rw [some.inj hflds, hfore] at hback
              cases hback
          · rename_i hforeground
            rw [Bool.not_eq_true] at hforeground
            have hbtw : s.Between (.task id) := between_task.2 ⟨node, hnode, hforeground, hintent⟩
            rw [ih hupn hlt]
            refine exists_congr fun oth => and_congr_right fun _ => and_congr_right fun hin => ⟨fun hunder => .step hup hbtw hunder, fun hunder => ?_⟩
            obtain heq | ⟨-, hunder⟩ := hunder.of_parent hup
            · cases heq
              exact absurd hin hintent
            · exact hunder
    | conversation id =>
      unfold above
      have hnot (rec : AnyTaskRecord V) : (∃ own, s.task? own = some rec ∧ own ∈ s.intent ∧ Under s.up s.Between (.task own) x) ↔
          ∃ own, s.task? own = some rec ∧ own ∈ s.intent ∧ Under s.up s.Between (.task own) (.conversation id) := by
        refine exists_congr fun own => and_congr_right fun _ => and_congr_right fun _ => ⟨fun hunder => ?_, fun hunder => .step hup rfl hunder⟩
        obtain heq | ⟨-, hunder⟩ := hunder.of_parent hup
        · cases heq
        · exact hunder
      rw [hnot]
      have hedge : s.edge .none id = s.edges id := rfl
      rw [hedge]
      have hroot (hnone : s.up (.conversation id) = none) :
          ¬∃ own, s.task? own = some rec ∧ own ∈ s.intent ∧ Under s.up s.Between (.task own) (.conversation id) := by
        rintro ⟨own, -, -, hunder⟩
        cases hunder with
        | child hat | step hat => rw [hnone] at hat; cases hat
      cases hedges : s.edges id with
      | none =>
        simp only [firstCancelling, reduceCtorEq, false_iff]
        exact hroot (by rw [up_conversation, hedges]; rfl)
      | some own =>
        cases own with
        | none =>
          simp only [firstCancelling, reduceCtorEq, false_iff]
          exact hroot (by rw [up_conversation, hedges]; rfl)
        | some own =>
          have hupn : s.up (.conversation id) = some (.task own) := by
            rw [up_conversation, hedges]
            rfl
          exact ih hupn (Nat.lt_of_lt_of_le (hdesc.up hupn) (Nat.le_of_lt_succ hfuel))

/-- **The nearest cancelling owner**, at or above what a node hangs from. -/
theorem cancellingOwner_eq (h : Holds s t) (hdesc : Descends s) (hup : s.up x = some n) :
    s.cancellingOwner n = some rec ↔ ∃ id, s.task? id = some rec ∧ id ∈ s.intent ∧ Under s.up s.Between (.task id) x := by
  unfold cancellingOwner
  split
  · rename_i hemp
    rw [List.isEmpty_iff] at hemp
    simp [hemp]
  · exact firstCancelling_above h hdesc hup (Nat.lt_succ_self _)

end TaskScheduler

end PiBridge.Durable
