import PiBridge.Durable.Correctness.OwnershipIndex
import Mathlib.Data.List.Nodup

/-!
# `Durable.Correctness.OwnershipRuns` — the memory mirrors the published records all along

Every way the memory changes keeps the mirror: the scan that opens it, the publication of a valid commit, chain loads,
and sweeps. What is pending is valid in its turn and registers the intents it changes (`Sound`), in every run.
-/

namespace PiBridge.Durable

open Lib List Assoc Function TaskScheduler Tables

variable {V : Type}

namespace TaskScheduler

variable {s : TaskScheduler V} {t : Tables V}

/-! ## Chain loads -/

theorem SameTree.pin (s : TaskScheduler V) (node : Node) : SameTree s (s.pin node) := ⟨rfl, rfl, rfl, rfl, rfl⟩

theorem SameTree.unpin (s : TaskScheduler V) (node : Node) : SameTree s (s.unpin node) := by
  unfold TaskScheduler.unpin
  split
  · have hunpinned : SameTree s { s with pins := update s.pins node (s.pins node - 1) } := ⟨rfl, rfl, rfl, rfl, rfl⟩
    exact hunpinned.trans (SameTree.dropIfUnneeded _ node)
  · exact ⟨rfl, rfl, rfl, rfl, rfl⟩

variable {record : AnyTaskRecord V}

/-- A task that ended, as stored, becomes known. -/
theorem Mirrors.settle (h : Mirrors s t) (hr : t.Ranked) {id : TaskId}
    (hsto : Assoc.get? t.tasks id = some record) (hend : record.isLive = false) : Mirrors (s.settle id record.toTaskNode) t := by
  let settled : TaskScheduler V := { s with
    settled := update s.settled id (some record.toTaskNode)
    unloaded := OrderedSet.add s.unloaded id }
  have hsett (c : TaskId) : settled.settled c = if c = id then some record.toTaskNode else s.settled c := update_apply ..
  have hholds : Holds settled t := by
    refine ⟨h.live, fun c node hnode => ?_, h.edges, h.intent⟩
    rw [hsett] at hnode
    split at hnode
    · rename_i heq
      exact ⟨record, heq ▸ hsto, hend, Option.some.inj hnode⟩
    · exact h.settled c node hnode
  have hothers (n : Node) (hn : n ≠ .task id) : settled.parent? .none n = s.parent? .none n := by
    cases n with
    | task c =>
      have hne : c ≠ id := fun heq => hn (heq ▸ rfl)
      simp only [parent?, node?_none, hsett, if_neg hne]
      rfl
    | conversation c => rfl
  have hneed (n : Node) : settled.needed n = s.needed n := by cases n <;> rfl
  have hbut : ExactBut settled (.task id) := by
    constructor
    · intro p n hn
      rw [hothers n hn, hneed]
      exact h.listed p n
    · intro p hp
      have hpar := h.toHolds.parent? ((h.listed p _).mp hp).1
      have hunlive : settled.task? id = none := by
        rw [Option.eq_none_iff_forall_not_mem]
        intro fnd hfnd
        obtain ⟨hsame, hlive⟩ := (h.live id fnd).mp hfnd
        rw [hsto] at hsame
        rw [← Option.some.inj hsame, hend] at hlive
        cases hlive
      simp only [Tables.parent?, hsto] at hpar
      simp only [parent?, node?_none, hunlive, hsett, if_true]
      exact hpar
  exact hholds.relisted hr hbut

/-- A turn of a chain load installs what is stored. -/
theorem Mirrors.loadNext (h : Mirrors s t) (hr : t.Ranked) {overlay : Overlay V} {load : ChainLoad}
    (hsto : ∀ c, load.next = some (.conversation c) → s.edge overlay c = none → (Assoc.get? t.conversations c).isSome) :
    Mirrors (s.loadNext t overlay load).1 t := by
  unfold TaskScheduler.loadNext
  split
  · exact h
  · split
    · split <;> exact h
    · split
      · exact h
      · split
        · exact h
        · rename_i record hrec
          split
          · exact h
          · rename_i hend
            rw [Bool.not_eq_true] at hend
            exact (h.settle hr hrec hend).same (SameTree.pin ..)
  · rename_i c hnext
    split
    · exact h
    · rename_i hedge
      obtain ⟨own, hown⟩ := Option.isSome_iff_exists.mp (hsto c hnext hedge)
      rw [hown]
      exact (h.setEdge hr hown).same (SameTree.pin ..)

/-! ## Publications -/

theorem SameTree.checkWaiters (s : TaskScheduler V) (fd : TaskId) : SameTree s (s.checkWaiters fd) := by
  unfold TaskScheduler.checkWaiters
  induction s.waiters fd generalizing s with
  | nil => exact SameTree.refl s
  | cons wt waiters ih =>
    refine SameTree.trans ?_ (ih _)
    dsimp only
    split
    · exact ⟨rfl, rfl, rfl, rfl, rfl⟩
    · exact SameTree.refl s

theorem SameTree.foldl_checkWaiters (fd : List TaskId) (s : TaskScheduler V) : SameTree s (fd.foldl TaskScheduler.checkWaiters s) := by
  induction fd generalizing s with
  | nil => exact SameTree.refl s
  | cons id fd ih => exact (SameTree.checkWaiters s id).trans (ih _)

end TaskScheduler

/-- The records with one conversation more. -/
def Tables.link (t : Tables V) (c : ConversationId × Option TaskId) : Tables V :=
  { t with conversations := Assoc.set t.conversations c.1 c.2 }

theorem Tables.foldl_link (cs : List (ConversationId × Option TaskId)) (t : Tables V) : cs.foldl Tables.link t =
      { t with conversations := cs.foldl (fun convs c => Assoc.set convs c.1 c.2) t.conversations } := by
  induction cs generalizing t with
  | nil => rfl
  | cons c cs ih => exact ih _

theorem Tables.foldl_store (recs : List (AnyTaskRecord V)) (t : Tables V) :
    recs.foldl Tables.store t = { t with tasks := recs.foldl (fun tasks record => Assoc.set tasks record.id record) t.tasks } := by
  induction recs generalizing t with
  | nil => rfl
  | cons record recs ih => exact ih _

theorem Tables.apply_eq (t : Tables V) (com : Commit V) :
    t.apply com = com.tasks.foldl Tables.store (com.conversations.foldl Tables.link t) := by
  rw [foldl_link, foldl_store]
  rfl

variable {recs : List (AnyTaskRecord V)}

theorem Tables.get?_foldl_store {u : Tables V} (hdist : (recs.map (·.id)).Nodup) (id : TaskId) :
    Assoc.get? (recs.foldl Tables.store u).tasks id = (recs.find? (·.id = id)).or (Assoc.get? u.tasks id) := by
  induction recs generalizing u with
  | nil => rfl
  | cons record recs ih =>
    rw [map_cons, nodup_cons] at hdist
    rw [foldl_cons, ih hdist.2, store, get?_set, find?_cons]
    by_cases heq : record.id = id
    · subst heq
      have hnone : recs.find? (·.id = record.id) = none := by
        rw [find?_eq_none]
        intro oth hoth hat
        rw [decide_eq_true_eq] at hat
        exact hdist.1 (hat ▸ mem_map_of_mem hoth)
      simp [hnone]
    · simp [heq]

variable {com : Commit V} {t : Tables V}

/-- The task records after a commit. -/
theorem Tables.get?_apply (t : Tables V) (hdist : (com.tasks.map (·.id)).Nodup) (id : TaskId) :
    Assoc.get? (t.apply com).tasks id = (com.tasks.find? (·.id = id)).or (Assoc.get? t.tasks id) := by
  rw [apply_eq, get?_foldl_store hdist, foldl_link]

/-- A commit writes the tasks it lists and no others. -/
theorem Tables.get?_apply_ne (hdist : (com.tasks.map (·.id)).Nodup) {id : TaskId}
    (hid : ∀ record ∈ com.tasks, record.id ≠ id) : Assoc.get? (t.apply com).tasks id = Assoc.get? t.tasks id := by
  have hnone : com.tasks.find? (·.id = id) = none := find?_eq_none.mpr fun record hrec => by simpa using hid record hrec
  rw [get?_apply t hdist, hnone, Option.none_or]

theorem Tables.get?_apply_self (hdist : (com.tasks.map (·.id)).Nodup)
    (hrec : record ∈ com.tasks) : Assoc.get? (t.apply com).tasks record.id = some record := by
  rw [get?_apply t hdist]
  cases hfnd : com.tasks.find? (·.id = record.id) with
  | none => exact absurd (decide_eq_true rfl) (find?_eq_none.mp hfnd record hrec)
  | some fnd =>
    have hat := find?_some hfnd
    rw [decide_eq_true_eq] at hat
    rw [inj_on_of_nodup_map hdist (mem_of_find?_eq_some hfnd) hrec hat, Option.some_or]

namespace TaskScheduler

variable {s : TaskScheduler V} {t : Tables V}

section

variable (h : Mirrors s t) (hr : t.Ranked)

include h hr

/-- A new conversation of a publication. -/
theorem Mirrors.link {c : ConversationId × Option TaskId}
    (hnew : Assoc.get? t.conversations c.1 = none) (hown : ∀ own, c.2 = some own → own < c.1) :
    Mirrors (if (s.edges c.1).isNone then s.setEdge c.1 c.2 else s) (t.link c) ∧ (t.link c).Ranked := by
  have hget (id : ConversationId) : get? (t.link c).conversations id = if c.1 = id then some c.2 else get? t.conversations id := get?_set ..
  have hr' : (t.link c).Ranked := by
    refine ⟨hr.named, hr.task, fun {id own} hat => ?_⟩
    rw [hget] at hat
    split at hat
    · rename_i heq
      exact heq ▸ hown own (Option.some.inj hat)
    · exact hr.conversation hat
  have hholds : Mirrors s (t.link c) := by
    refine ⟨⟨h.live, h.settled, fun id own hedge => ?_, h.intent⟩, h.listed⟩
    have hsto := h.edges id own hedge
    rw [hget, if_neg (by rintro rfl; rw [hnew] at hsto; cases hsto)]
    exact hsto
  refine ⟨?_, hr'⟩
  split
  · exact hholds.setEdge hr' (by rw [hget, if_pos rfl])
  · exact hholds

/-- The conversations of a publication. -/
theorem Mirrors.links {cs : List (ConversationId × Option TaskId)} (hdist : (cs.map Prod.fst).Nodup)
    (hnew : ∀ c ∈ cs, Assoc.get? t.conversations c.1 = none) (hown : ∀ c ∈ cs, ∀ own, c.2 = some own → own < c.1) :
    Mirrors (cs.foldl (fun s c => if (s.edges c.1).isNone then s.setEdge c.1 c.2 else s) s) (cs.foldl Tables.link t) ∧
      (cs.foldl Tables.link t).Ranked := by
  induction cs generalizing s t with
  | nil => exact ⟨h, hr⟩
  | cons c cs ih =>
    rw [map_cons, nodup_cons] at hdist
    obtain ⟨hlinked, hranked⟩ := h.link hr (hnew c (.head _)) (hown c (.head _))
    refine ih hlinked hranked hdist.2 (fun d hd => ?_) fun d hd => hown d (.tail _ hd)
    rw [Tables.link, get?_set, if_neg ?_]
    · exact hnew d (.tail _ hd)
    · intro heq
      exact hdist.1 (heq ▸ mem_map_of_mem hd)

theorem Mirrors.observeTasks (hdist : (recs.map (·.id)).Nodup) (hok : ∀ record ∈ recs, t.Accepts record) :
    Mirrors (recs.foldl TaskScheduler.observeTask s) (recs.foldl Tables.store t) ∧ (recs.foldl Tables.store t).Ranked := by
  induction recs generalizing s t with
  | nil => exact ⟨h, hr⟩
  | cons record recs ih =>
    rw [map_cons, nodup_cons] at hdist
    have hfst := hok record (.head _)
    refine ih (h.observeTask hr hfst) (hr.store hfst) hdist.2 fun oth hoth => ?_
    have hsame : get? (t.store record).tasks oth.id = get? t.tasks oth.id := by
      rw [store, get?_set, if_neg]
      intro heq
      exact hdist.1 (heq ▸ mem_map_of_mem hoth)
    have hlat := hok oth (.tail _ hoth)
    exact ⟨hsame ▸ hlat.replaced, hsame ▸ hlat.created⟩

end

end TaskScheduler

/-- What a valid commit stores one task after another. -/
theorem Commit.Valid.accepts (hvald : com.Valid t)
    (hrec : record ∈ com.tasks) : (com.conversations.foldl Tables.link t).Accepts record := by
  have htasks : (com.conversations.foldl link t).tasks = t.tasks := by rw [foldl_link]
  constructor
  · rw [htasks]
    exact hvald.replaced record hrec
  · rw [htasks]
    exact fun hnew => (hvald.created record hrec hnew).1

namespace TaskScheduler

variable {s : TaskScheduler V} {t : Tables V}

/-- **A publication** keeps the mirror. -/
theorem Mirrors.observe (h : Mirrors s t) (hr : t.Ranked) {com : Commit V} (hvald : com.Valid t) :
    Mirrors (s.observe com) (t.apply com) ∧ (t.apply com).Ranked := by
  rw [apply_eq]
  obtain ⟨hlinked, hranked⟩ := h.links hr hvald.linked hvald.unlinked fun c hc own hown => (hvald.owned c hc own hown).1
  obtain ⟨htracked, hranked'⟩ := hlinked.observeTasks hranked hvald.distinct fun record hrec => hvald.accepts hrec
  refine ⟨?_, hranked'⟩
  unfold TaskScheduler.observe
  refine Mirrors.sweep (htracked.same ?_)
  exact SameTree.foldl_checkWaiters ..

/-! ## Opening -/

theorem mirrors_empty : Mirrors (.empty : TaskScheduler V) ⟨[], []⟩ := by
  refine ⟨⟨fun id record => ?_, fun id node hnode => ?_, fun id own hedge => ?_, fun id => ?_⟩, fun p n => ?_⟩
  · simp [task?, empty]
  · cases hnode
  · cases hedge
  · simp [task?, empty]
  · cases n <;> simp [parent?, node?, edge, task?, empty, Overlay.none]

end TaskScheduler

/-- Stored records, each once. -/
structure Tables.WellFormed (t : Tables V) : Prop extends t.Ranked where
  keys : (t.tasks.map Prod.fst).Nodup

namespace Schedule

open TaskScheduler

variable {t : Tables V} {record : AnyTaskRecord V}

theorem liveStatuses_lt (st : TaskState V) : (∃ status, liveStatuses st = some status ∧ status < 5) ↔ st.isTerminal = false := by
  cases st <;> simp [liveStatuses, TaskState.isTerminal]

/-- The scan of the live tasks finds each once. -/
theorem mem_liveTasks (hw : t.WellFormed) : record ∈ liveTasks t ↔ Assoc.get? t.tasks record.id = some record ∧ record.isLive = true := by
  have hsto : (∃ p ∈ t.tasks, p.2 = record) ↔ get? t.tasks record.id = some record := by
    constructor
    · rintro ⟨⟨id, fnd⟩, hp, rfl⟩
      have hget := get?_of_mem hw.keys hp
      rw [hw.named hget]
      exact hget
    · exact fun hget => ⟨_, mem_of_get? hget, rfl⟩
  have hlive : (∃ status ∈ range 5, liveStatuses record.state = some status) ↔ record.isLive = true := by
    rw [AnyTaskRecord.isLive, Bool.not_eq_true', ← liveStatuses_lt]
    refine exists_congr fun status => ?_
    rw [mem_range, and_comm]
  simp only [liveTasks, mem_flatMap, mem_filter, mem_map, decide_eq_true_eq, ← hlive, ← hsto]
  constructor
  · rintro ⟨status, hlt, hfnd, hat⟩
    exact ⟨hfnd, status, hlt, hat⟩
  · rintro ⟨hfnd, status, hlt, hat⟩
    exact ⟨status, hlt, hfnd, hat⟩

theorem nodup_liveTasks (hw : t.WellFormed) : ((liveTasks t).map (·.id)).Nodup := by
  have hids : ((t.tasks.map Prod.snd).map (·.id)).Nodup := by
    have heq : (t.tasks.map Prod.snd).map (·.id) = t.tasks.map Prod.fst := by
      rw [map_map]
      exact map_congr_left fun p hp => hw.named (get?_of_mem hw.keys hp)
    rw [heq]
    exact hw.keys
  have hinj := inj_on_of_nodup_map hids
  unfold liveTasks
  rw [map_flatMap]
  refine nodup_flatMap.mpr ⟨fun status _ => hids.sublist (filter_sublist.map _), ?_⟩
  refine nodup_range.imp fun {a b} hne => ?_
  -- A task has one status.
  refine disjoint_left.mpr fun id ha hb => ?_
  obtain ⟨left, hleft, rfl⟩ := mem_map.mp ha
  obtain ⟨right, hright, hat⟩ := mem_map.mp hb
  rw [mem_filter, decide_eq_true_eq] at hleft hright
  obtain rfl := hinj hright.1 hleft.1 hat
  exact hne (Option.some.inj (hleft.2.symm.trans hright.2))

/-- The memory of live records scanned so far mirrors these alone. -/
theorem mirrors_scanned {s : TaskScheduler V} {u : Tables V} (h : Mirrors s u) (hr : u.Ranked)
    (hdist : (recs.map (·.id)).Nodup) (hnew : ∀ record ∈ recs, Assoc.get? u.tasks record.id = none)
    (hrank : ∀ record ∈ recs, (parentNode record.toTaskNode).id < record.id) (hlive : ∀ record ∈ recs, record.isLive = true) :
    Mirrors (recs.foldl
      (fun mem record =>
        let tracked := mem.track none record
        if waitsFailFast record then { tracked with failFastChecks := OrderedSet.add tracked.failFastChecks record.id } else tracked)
      s) (recs.foldl Tables.store u) := by
  induction recs generalizing s u with
  | nil => exact h
  | cons record recs ih =>
    rw [map_cons, nodup_cons] at hdist
    have hok : u.Accepts record := by
      refine ⟨fun old hold => ?_, fun _ => hrank record (.head _)⟩
      rw [hnew record (.head _)] at hold
      cases hold
    have hrec := hlive record (.head _)
    have htracked : Mirrors (s.track none record) (u.store record) := by
      unfold track
      rw [if_neg (by simpa [AnyTaskRecord.isLive] using hrec)]
      exact h.trackLive hr hok hrec (h.toHolds.task?_none (hnew record (.head _))).1
    refine ih ?_ (hr.store hok) hdist.2 (fun oth hoth => ?_) (fun oth hoth => hrank oth (.tail _ hoth))
      fun oth hoth => hlive oth (.tail _ hoth)
    · dsimp only
      split
      · exact htracked.same ⟨rfl, rfl, rfl, rfl, rfl⟩
      · exact htracked
    · rw [store, get?_set, if_neg]
      · exact hnew oth (.tail _ hoth)
      · intro heq
        exact hdist.1 (heq ▸ mem_map_of_mem hoth)

/-- **A scheduler that opens** mirrors what is stored. -/
theorem mirrors_opened (hw : t.WellFormed) : Mirrors (opened t).mem t := by
  have hscanned : Mirrors (opened t).mem ((liveTasks t).foldl store ⟨[], []⟩) := by
    refine mirrors_scanned mirrors_empty ⟨?_, ?_, ?_⟩ (nodup_liveTasks hw) (fun _ _ => rfl) ?_ ?_
    · intro id record hnone
      cases hnone
    · intro id record hnone
      cases hnone
    · intro id own hnone
      cases hnone
    · exact fun record hrec => hw.task ((mem_liveTasks hw).mp hrec).1
    · exact fun record hrec => ((mem_liveTasks hw).mp hrec).2
  have hget (id : TaskId) (record : AnyTaskRecord V) : get? ((liveTasks t).foldl store ⟨[], []⟩).tasks id = some record ↔
      get? t.tasks id = some record ∧ record.isLive = true := by
    rw [get?_foldl_store (nodup_liveTasks hw), get?_nil, Option.or_none]
    constructor
    · intro hfnd
      have hat := find?_some hfnd
      rw [decide_eq_true_eq] at hat
      exact hat ▸ (mem_liveTasks hw).mp (mem_of_find?_eq_some hfnd)
    · intro ⟨hsto, hlive⟩
      have hid := hw.named hsto
      have hmem := (mem_liveTasks hw).mpr (show get? t.tasks record.id = some record ∧ _ from ⟨hid ▸ hsto, hlive⟩)
      cases hfnd : (liveTasks t).find? (·.id = id) with
      | none => exact absurd (decide_eq_true hid) (find?_eq_none.mp hfnd record hmem)
      | some fnd =>
        have hat := find?_some hfnd
        rw [decide_eq_true_eq] at hat
        rw [inj_on_of_nodup_map (nodup_liveTasks hw) (mem_of_find?_eq_some hfnd) hmem (hat.trans hid.symm)]
  refine ⟨⟨fun id record => ?_, fun id node hnode => ?_, fun id own hedge => ?_, hscanned.intent⟩, hscanned.listed⟩
  · rw [hscanned.live, hget]
    tauto
  · obtain ⟨record, hsto, hend, -⟩ := hscanned.settled id node hnode
    rw [((hget id record).mp hsto).2] at hend
    cases hend
  · have hsto := hscanned.edges id own hedge
    rw [foldl_store] at hsto
    cases hsto

/-! ## Runs -/

/-- Each commit is valid in its turn. -/
def ValidFrom : Tables V → List (Admitted V) → Prop
  | _, [] => True
  | t, admitted :: rest => admitted.commit.Valid t ∧ ValidFrom (t.apply admitted.commit) rest

theorem validFrom_append {pnd : List (Admitted V)} {adm : Admitted V} : ValidFrom t (pnd ++ [adm]) ↔
      ValidFrom t pnd ∧ adm.commit.Valid (pnd.foldl (fun tbls adm => tbls.apply adm.commit) t) := by
  induction pnd generalizing t with
  | nil => simp [ValidFrom]
  | cons fst pnd ih => simp only [cons_append, ValidFrom, ih, foldl_cons, and_assoc]

/-- What a pending commit registers of the tasks it writes, where `t` is what is published. -/
structure Registered (t : Tables V) (admitted : Admitted V) : Prop where
  written : ∀ record ∈ admitted.commit.tasks, Key.task record.id ∈ admitted.keys
  intent : Key.intent ∉ admitted.keys →
    ∀ record ∈ admitted.commit.tasks, intentChanges ((Assoc.get? t.tasks record.id).filter (·.isLive)) record = false

/-- **What holds of a schedule all along.** -/
structure Sound (sys : Schedule V) : Prop where
  mirrors : sys.mem.Mirrors sys.published
  ranked : sys.published.Ranked
  valid : ValidFrom sys.published sys.pending
  registered : ∀ admitted ∈ sys.pending, Registered sys.published admitted
  /-- A task has one unpublished writer. -/
  single : sys.pending.Pairwise fun earlier later => ∀ record ∈ later.commit.tasks, Key.task record.id ∉ earlier.keys

theorem sound_opened (hw : t.WellFormed) : Sound (opened t) where
  mirrors := mirrors_opened hw
  ranked := hw.toRanked
  valid := trivial
  registered := by
    intro adm hadm
    cases hadm
  single := Pairwise.nil

variable {sys sys' : Schedule V} {label : SchedulerLabel V}

/-- What the memory holds of a task is its published record while that is live. -/
theorem Sound.task? (h : Sound sys) (id : TaskId) : sys.mem.task? id = (Assoc.get? sys.published.tasks id).filter (·.isLive) := by
  ext record
  rw [Option.filter_eq_some_iff]
  exact h.mirrors.live id record

/-- **One step** keeps it. -/
theorem Sound.step (h : Sound sys) (hstep : Step sys label sys') : Sound sys' := by
  cases hstep with
  | @admitted com hvald hreadable =>
    refine ⟨h.mirrors, h.ranked, validFrom_append.2 ⟨h.valid, hvald⟩, fun adm hadm => ?_, ?_⟩
    · obtain hold | rfl := mem_snoc.mp hadm
      · exact h.registered adm hold
      · constructor
        · intro record hrec
          refine mem_append_left _ (mem_append_right _ ?_)
          exact mem_map_of_mem (f := fun record : AnyTaskRecord V => Key.task record.id) hrec
        · intro hintent record hrec
          rw [← h.task?, Bool.eq_false_iff]
          intro hchgs
          refine hintent (mem_append_right _ (mem_append_left _ ?_))
          exact mem_flatMap.mpr ⟨record, hrec, mem_append_left _ (by rw [if_pos hchgs]; exact .head _)⟩
    · refine pairwise_append.mpr ⟨h.single, pairwise_singleton .., fun earl hearl lat hlat record hrec => ?_⟩
      obtain rfl := mem_singleton.mp hlat
      exact hreadable record hrec _ (.head _) earl hearl
  | @published adm rest hpend =>
    have hvald := h.valid
    have hsingle := h.single
    rw [hpend] at hvald hsingle
    obtain ⟨hmirrors, hranked⟩ := h.mirrors.observe h.ranked hvald.1
    obtain ⟨hfst, hrest⟩ := pairwise_cons.mp hsingle
    refine ⟨hmirrors, hranked, hvald.2, fun lat hlat => ?_, hrest⟩
    have hreg := h.registered lat (hpend ▸ .tail _ hlat)
    refine ⟨hreg.written, fun hintent record hrec => ?_⟩
    rw [get?_apply_ne hvald.1.distinct]
    · exact hreg.intent hintent record hrec
    · -- The commit published does not write a task that a later one writes.
      intro oth hoth heq
      exact hfst lat hlat record hrec (heq ▸ (h.registered adm (hpend ▸ .head _)).written oth hoth)
  | @load overlay load hread =>
    refine ⟨h.mirrors.loadNext h.ranked fun c hnext hedge => ?_, h.ranked, h.valid, h.registered, h.single⟩
    rw [hnext] at hread
    exact (hread hedge).2
  | loaded | candidates => exact ⟨h.mirrors.same ⟨rfl, rfl, rfl, rfl, rfl⟩, h.ranked, h.valid, h.registered, h.single⟩
  | unpin => exact ⟨h.mirrors.same (SameTree.unpin ..), h.ranked, h.valid, h.registered, h.single⟩
  | sweep => exact ⟨h.mirrors.sweep, h.ranked, h.valid, h.registered, h.single⟩

/-- **Every run** keeps it. -/
theorem sound_of_steps (hw : t.WellFormed) {labs : List (SchedulerLabel V)} (hrun : Steps Step (opened t) labs sys) : Sound sys :=
  hrun.invariant (fun h hstep => h.step hstep) (sound_opened hw)

end Schedule

end PiBridge.Durable
