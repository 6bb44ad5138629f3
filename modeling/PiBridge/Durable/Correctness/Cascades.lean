import PiBridge.Durable.Correctness.CascadeMarks

/-!
# `Durable.Correctness.Cascades` — a second pass, and the step before a phase

Once a pass's marks are published, a second pass has only what the first one itself started: below a task it marked as the
member of a failed wait, or whose `restart` mark it replaced by a request (`second_pass`). The step before a phase does
not wait for any pass: where its reads stand, no intent reaches the task, in what is admitted either (`step_fenced`).
-/

namespace PiBridge.Durable

open Lib List Assoc TaskScheduler Tables
open TaskScheduler (Mark)

variable {V : Type} {t : Tables V} {id owner : TaskId}

/-! ## A second pass -/

/-- The commit of a pass's marks. -/
def markCommit (marks : Assoc TaskId (Mark V)) : Commit V := ⟨[], marks.map fun m => withAbortMark m.2.record m.2.reason⟩

section SecondPass

variable {marks : Assoc TaskId (Mark V)} {checks : List TaskId}

/-- Marks that are the ones the records imply. -/
structure Marking (t : Tables V) (checks : List TaskId) (marks : Assoc TaskId (Mark V)) : Prop where
  keys : (marks.map Prod.fst).Nodup
  implied : ∀ id mark, Assoc.get? marks id = some mark ↔ t.Implies checks id mark.record mark.reason

section

variable (h : Marking t checks marks) (hr : t.Ranked)

include h hr

theorem Marking.named {id : TaskId} {mark : Mark V} (hmark : Assoc.get? marks id = some mark) :
    mark.record.id = id := hr.named ((h.implied id mark).mp hmark).1

/-- Once published, a marked task has its mark, and every other one its record. -/
theorem Marking.get? (id : TaskId) : Assoc.get? (t.apply (markCommit marks)).tasks id =
      ((Assoc.get? marks id).map fun mark => withAbortMark mark.record mark.reason).or (Assoc.get? t.tasks id) := by
  have hids : (markCommit marks).tasks.map (·.id) = marks.map Prod.fst := by
    rw [markCommit, map_map]
    exact map_congr_left fun m hm => h.named hr (get?_of_mem h.keys hm)
  have hdist : ((markCommit marks).tasks.map (·.id)).Nodup := hids ▸ h.keys
  cases hmark : Assoc.get? marks id with
  | some mark =>
    have hmem : withAbortMark mark.record mark.reason ∈ (markCommit marks).tasks := mem_map.mpr ⟨(id, mark), mem_of_get? hmark, rfl⟩
    have hget := get?_apply_self (t := t) hdist hmem
    have hid : (withAbortMark mark.record mark.reason).id = id := h.named hr hmark
    rw [hid] at hget
    exact hget
  | none =>
    refine get?_apply_ne hdist fun record hrec heq => ?_
    have hkey : id ∈ marks.map Prod.fst := hids ▸ heq ▸ mem_map_of_mem hrec
    exact get?_eq_none_iff.mp hmark hkey

/-- A mark changes neither where a task hangs nor whether it is a background task. -/
theorem Marking.node (id : TaskId) :
    (Assoc.get? (t.apply (markCommit marks)).tasks id).map (·.toTaskNode) = (Assoc.get? t.tasks id).map (·.toTaskNode) := by
  rw [h.get? hr]
  cases hmark : Assoc.get? marks id with
  | some mark =>
    rw [((h.implied id mark).mp hmark).1]
    rfl
  | none => rfl

theorem Marking.up : (t.apply (markCommit marks)).up = t.up := by
  funext n
  unfold Tables.up
  congr 1
  cases n with
  | conversation id => rfl
  | task id =>
    have hnode := congrArg (Option.map fun node => some (parentNode node)) (h.node hr id)
    rw [Option.map_map, Option.map_map] at hnode
    exact hnode

end

variable {record : AnyTaskRecord V}

theorem withAbortMark_cancels (hlive : record.isLive = true) (rsn : Option AbortReason) :
    cancellationIntent (withAbortMark record rsn) = true := by
  have hstill : (withAbortMark record rsn).isLive = true := hlive
  rw [cancellationIntent, hstill]
  rfl

theorem Marking.cancels (h : Marking t checks marks) (hr : t.Ranked) (hcanc : t.Cancels id) : (t.apply (markCommit marks)).Cancels id := by
  obtain ⟨record, hrec, hcanc⟩ := hcanc
  cases hmark : Assoc.get? marks id with
  | some mark =>
    refine ⟨withAbortMark mark.record mark.reason, ?_, withAbortMark_cancels ((h.implied id mark).mp hmark).2.1 _⟩
    rw [h.get? hr, hmark]
    rfl
  | none =>
    refine ⟨record, ?_, hcanc⟩
    rw [h.get? hr, hmark]
    exact hrec

/-- What is plain after the marks was plain before. -/
theorem Marking.plain (h : Marking t checks marks) (hr : t.Ranked) {n : Node} (hplain : (t.apply (markCommit marks)).Plain n) : t.Plain n := by
  cases n with
  | conversation => trivial
  | task id =>
    refine ⟨fun record hrec => ?_, fun hcanc => hplain.2 (h.cancels hr hcanc)⟩
    have hnode := h.node hr id
    rw [hrec] at hnode
    obtain ⟨aft, haft, heq⟩ := Option.map_eq_some_iff.mp hnode
    rw [← hplain.1 aft haft]
    exact congrArg TaskNode.background heq.symm

theorem Marking.under (h : Marking t checks marks) (hr : t.Ranked)
    (hunder : Under (t.apply (markCommit marks)).up (t.apply (markCommit marks)).Plain (.task owner) (.task id)) :
    Under t.up t.Plain (.task owner) (.task id) := by
  rw [h.up hr] at hunder
  exact hunder.mono fun _ => h.plain hr

/-- Intent without a mark is a held outcome that failed. -/
theorem failed_of_cancels (hcanc : cancellationIntent record = true) (hunmarked : record.abortRequested = false) :
    failedOutcome record = true := by
  rw [cancellationIntent, Bool.and_eq_true, hunmarked, Bool.false_or] at hcanc
  exact hcanc.2

section

variable (h : Marking t checks marks)

include h

/-- What a task's new mark passes on cascaded to the work below it already, unless it is the mark of a failed wait, or
    replaces a `restart` mark. -/
theorem Marking.cascaded {mark : Mark V} (hmark : Assoc.get? marks owner = some mark)
    (hwait : ¬t.FailFast checks owner) (hupgrade : mark.record.abortReason ≠ some .restart)
    (hunder : Under t.up t.Plain (.task owner) (.task id)) {task : AnyTaskRecord V} (htask : Assoc.get? t.tasks id = some task)
    (hforeground : task.background = false) :
    t.Cascades id (TaskScheduler.passedReason (withAbortMark mark.record mark.reason)) := by
  obtain ⟨hrec, hlive, hwhy⟩ := (h.implied owner mark).mp hmark
  have hpassed : passedReason (withAbortMark mark.record mark.reason) =
      if mark.reason = some .restart ∧ failedOutcome mark.record = false then some .restart else none := by
    have hfail : failedOutcome (withAbortMark mark.record mark.reason) = failedOutcome mark.record := rfl
    have hreason : (withAbortMark mark.record mark.reason).abortReason = mark.reason := rfl
    unfold passedReason
    rw [hfail, hreason]
    simp
  rw [hpassed]
  by_cases hcanc : cancellationIntent mark.record = true
  · -- It was an owner with intent before, which passed a request on.
    refine ⟨owner, mark.record, task, ⟨⟨_, hrec, hcanc⟩, hunder⟩, hrec, htask, hforeground, ?_⟩
    have hbef : passedReason mark.record = none := by simp [passedReason, hupgrade]
    rw [hbef, eq_comm, if_neg]
    rintro ⟨hreason, hunf⟩
    obtain ⟨hnone, -⟩ | ⟨-, -, -, hunmarked⟩ := hwhy
    · rw [hnone] at hreason
      cases hreason
    · rw [failed_of_cancels hcanc hunmarked] at hunf
      cases hunf
  · -- It was none, so its own nearest owner is the nearest one of the work below it.
    have hunf : failedOutcome mark.record = false := by
      rw [cancellationIntent, hlive, Bool.true_and, Bool.or_eq_true, not_or, Bool.not_eq_true, Bool.not_eq_true] at hcanc
      exact hcanc.2
    have hcascade : t.Cascades owner mark.reason := by
      obtain ⟨hreason, hwhy, -⟩ | ⟨hreason, hcascade, -⟩ := hwhy
      · rw [hreason]
        exact hwhy.resolve_left hwait
      · rw [hreason]
        exact hcascade
    obtain ⟨above, fnd, middle, ⟨habv, hway⟩, hfnd, hmiddle, hfore, hreason⟩ := hcascade
    rw [hrec] at hmiddle
    cases hmiddle
    have hplain : t.Plain (.task owner) := by
      constructor
      · intro same hsame
        rw [hrec] at hsame
        exact Option.some.inj hsame ▸ hfore
      · rintro ⟨same, hsame, hintent⟩
        rw [hrec] at hsame
        exact hcanc (Option.some.inj hsame ▸ hintent)
    refine ⟨above, fnd, task, ⟨habv, hway.trans hplain hunder⟩, hfnd, htask, hforeground, hreason.trans ?_⟩
    obtain ⟨hnone, -⟩ | ⟨hrestart, -⟩ := hwhy
    · simp [hnone]
    · simp [hrestart, hunf]

/-- **A second pass** marks only below a task that the first one marked as the member of a failed wait, or whose `restart`
    mark it replaced by a request. -/
theorem Marking.second (hr : t.Ranked) {rsn : Option AbortReason}
    (himplied : (t.apply (markCommit marks)).Implies [] id record rsn) :
    ∃ owner mark, (t.apply (markCommit marks)).Nearest owner id ∧ Assoc.get? marks owner = some mark ∧
      (t.FailFast checks owner ∨ mark.record.abortReason = some .restart) := by
  obtain ⟨hrec, hlive, hwhy⟩ := himplied
  have hcascade : (t.apply (markCommit marks)).Cascades id rsn := by
    obtain ⟨hreason, hwait | hcascade, -⟩ | ⟨hreason, hcascade, -⟩ := hwhy
    · obtain ⟨wt, hwaiter, -⟩ := hwait
      cases hwaiter
    · exact hreason ▸ hcascade
    · exact hreason ▸ hcascade
  obtain ⟨owner, fnd, task, hnear, hfnd, htask, hforeground, hpassed⟩ := hcascade
  by_contra hnone
  rw [hrec] at htask
  cases htask
  -- Where the task hangs, and that it is no background task, is as before.
  have hnode := h.node hr id
  rw [hrec] at hnode
  obtain ⟨bef, hbef, heq⟩ := Option.map_eq_some_iff.mp hnode.symm
  have hfore : bef.background = false := hforeground ▸ congrArg TaskNode.background heq
  have hunder := h.under hr hnear.2
  have hcascaded : t.Cascades id rsn := by
    have hget := h.get? hr owner
    rw [hfnd] at hget
    cases hmark : Assoc.get? marks owner with
    | none =>
      rw [hmark] at hget
      have hsame : Assoc.get? t.tasks owner = some fnd := hget.symm
      obtain ⟨same, hsame', hcanc⟩ := hnear.1
      rw [hfnd] at hsame'
      cases hsame'
      exact ⟨owner, _, bef, ⟨⟨_, hsame, hcanc⟩, hunder⟩, hsame, hbef, hfore, hpassed⟩
    | some mark =>
      rw [hmark] at hget
      cases hget
      rw [← hpassed]
      exact h.cascaded hmark (fun hwait => hnone ⟨owner, mark, hnear, hmark, .inl hwait⟩)
        (fun hupgrade => hnone ⟨owner, mark, hnear, hmark, .inr hupgrade⟩) hunder hbef hfore
  have hget := h.get? hr id
  rw [hrec] at hget
  cases hmark : Assoc.get? marks id with
  | some mark =>
    rw [hmark] at hget
    cases hget
    obtain ⟨-, -, hfst⟩ := (h.implied id mark).mp hmark
    obtain ⟨rfl, -, hask⟩ | ⟨-, -, -, hunmarked⟩ := hwhy
    · obtain ⟨hreason, -⟩ | ⟨hreason, hrestart, -⟩ := hfst
      · exact hask ⟨rfl, hreason⟩
      · cases hcascaded.unique hrestart
    · cases hunmarked
  | none =>
    rw [hmark] at hget
    have hsame : Assoc.get? t.tasks id = some record := hget.symm
    have hunmarked : ∀ rsn, ¬t.Implies checks id record rsn := by
      intro rsn hin
      rw [(h.implied id ⟨record, rsn⟩).mpr hin] at hmark
      cases hmark
    obtain ⟨rfl, -, hask⟩ | ⟨rfl, -, -, habort⟩ := hwhy
    · exact hunmarked none ⟨hsame, hlive, .inl ⟨rfl, .inr hcascaded, hask⟩⟩
    · by_cases hwait : t.FailFast checks id
      · refine hunmarked none ⟨hsame, hlive, .inl ⟨rfl, .inl hwait, fun hask => ?_⟩⟩
        rw [hask.1] at habort
        cases habort
      · exact hunmarked (some .restart) ⟨hsame, hlive, .inr ⟨rfl, hcascaded, hwait, habort⟩⟩

/-- The marks replace the records of live tasks. -/
theorem Marking.replaces {s : TaskScheduler V} (hholds : s.Holds t) (hr : t.Ranked) :
    ∀ record ∈ (markCommit marks).tasks, ∃ old, s.task? record.id = some old ∧ record.isLive = true ∧
      record.toTaskNode = old.toTaskNode ∧ record.state = old.state := by
  intro record hrec
  obtain ⟨⟨id, mark⟩, hmem, rfl⟩ := mem_map.mp hrec
  have hmark := get?_of_mem h.keys hmem
  obtain ⟨hsto, hlive, -⟩ := (h.implied id mark).mp hmark
  have hid : (withAbortMark mark.record mark.reason).id = id := h.named hr hmark
  exact ⟨mark.record, by rw [hid]; exact (hholds.live id mark.record).mpr ⟨hsto, hlive⟩, hlive, rfl, rfl⟩

end

end SecondPass

/-! ## What the publication of the marks leaves -/

namespace TaskScheduler

variable {s s' : TaskScheduler V}

/-- The same tree, live tasks and checks. -/
structure SameShape (s s' : TaskScheduler V) : Prop where
  parent? : ∀ n, s'.parent? .none n = s.parent? .none n
  below : s'.below = s.below
  live : ∀ id, (s'.task? id).isSome = (s.task? id).isSome
  failFastChecks : s'.failFastChecks = s.failFastChecks

theorem SameShape.trans {s'' : TaskScheduler V} (h : SameShape s s') (h' : SameShape s' s'') : SameShape s s'' where
  parent? n := (h'.parent? n).trans (h.parent? n)
  below := h'.below.trans h.below
  live id := (h'.live id).trans (h.live id)
  failFastChecks := h'.failFastChecks.trans h.failFastChecks

theorem waits_of_waitsFailFast {record : AnyTaskRecord V} (h : waitsFailFast record = true) : isWaiting record = true := by
  unfold waitsFailFast at h
  unfold isWaiting
  split at h
  · rename_i hst
    rw [hst]
  · cases h

/-- A live task's record that keeps its place and its state. -/
theorem SameShape.observeTask {old record : AnyTaskRecord V} (hold : s.task? record.id = some old) (hlive : record.isLive = true)
    (hplace : record.toTaskNode = old.toTaskNode) (hst : record.state = old.state) :
    SameShape s (s.observeTask record) ∧ (s.observeTask record).live = Assoc.set s.live record.id record := by
  have hnot : record.state.isTerminal = false := by simpa [AnyTaskRecord.isLive] using hlive
  have hchecks : (waitsFailFast record && !(some old).any isWaiting) = false := by
    rw [Bool.eq_false_iff]
    intro hboth
    rw [Bool.and_eq_true, Bool.not_eq_true', Option.any_some] at hboth
    have hwaits := waits_of_waitsFailFast hboth.1
    have hsame : isWaiting record = isWaiting old := by rw [isWaiting, isWaiting, hst]
    rw [hsame, hboth.2] at hwaits
    cases hwaits
  have htracked : ∃ intent runnable finalizeChecks sleeping waiters, s.observeTask record =
      { s with live := set s.live record.id record, intent, runnable, finalizeChecks, sleeping, waiters } := by
    unfold TaskScheduler.observeTask
    dsimp only
    rw [hold, hnot, hchecks]
    unfold track
    rw [hnot]
    simp only [Bool.false_eq_true, if_false, Option.elim_some]
    unfold trackLive place
    rw [setWaiters_eq, setWaiters_eq]
    exact ⟨_, _, _, _, _, rfl⟩
  obtain ⟨intent, runnable, finalizeChecks, sleeping, waiters, heq⟩ := htracked
  rw [heq]
  have htask (id : TaskId) : get? (set s.live record.id record) id = if record.id = id then some record else s.task? id := get?_set ..
  refine ⟨⟨fun n => ?_, rfl, fun id => ?_, rfl⟩, rfl⟩
  · cases n with
    | conversation id => rfl
    | task id =>
      simp only [TaskScheduler.parent?, node?_none]
      simp only [task?]
      rw [htask]
      split
      · rename_i hid
        have hold' : get? s.live id = some old := hid ▸ hold
        rw [hold', Option.map_some, Option.map_some, hplace]
      · rfl
  · simp only [task?]
    rw [htask]
    split
    · rename_i hid
      have hold' : get? s.live id = some old := hid ▸ hold
      rw [hold']
      rfl
    · rfl

/-- Records that replace live ones, and keep their places and states. -/
def Replaces (s : TaskScheduler V) (records : List (AnyTaskRecord V)) : Prop :=
  ∀ record ∈ records, ∃ old, s.task? record.id = some old ∧ record.isLive = true ∧ record.toTaskNode = old.toTaskNode ∧
    record.state = old.state

variable {recs : List (AnyTaskRecord V)}

theorem SameShape.observeTasks (hdist : (recs.map (·.id)).Nodup) (h : s.Replaces recs) :
    SameShape s (recs.foldl TaskScheduler.observeTask s) ∧ s.newlyFailed recs = [] := by
  induction recs generalizing s with
  | nil => exact ⟨⟨fun _ => rfl, rfl, fun _ => rfl, rfl⟩, rfl⟩
  | cons record recs ih =>
    rw [map_cons, nodup_cons] at hdist
    obtain ⟨old, hold, hlive, hplace, hst⟩ := h record (.head _)
    obtain ⟨hfst, hset⟩ := SameShape.observeTask hold hlive hplace hst
    have hrest : (s.observeTask record).Replaces recs := by
      intro oth hoth
      obtain ⟨old', hold', hkeep⟩ := h oth (.tail _ hoth)
      refine ⟨old', ?_, hkeep⟩
      rw [task?, hset, get?_set_ne]
      · exact hold'
      · intro heq
        exact hdist.1 (heq ▸ mem_map_of_mem hoth)
    obtain ⟨hlat, hnone⟩ := ih hdist.2 hrest
    refine ⟨hfst.trans hlat, ?_⟩
    have hfail : failedOutcome record = failedOutcome old := by rw [failedOutcome, failedOutcome, hst]
    rw [newlyFailed, hnone, hold, Option.any_some, hfail]
    simp

/-- The sweep forgets nothing that a node it keeps needs. -/
theorem sweepNode_keeps (node : Node) : (s.sweepNode node).live = s.live ∧ (s.sweepNode node).below = s.below ∧
    (s.sweepNode node).failFastChecks = s.failFastChecks ∧
    ∀ n, s.needed n = true → (s.sweepNode node).parent? .none n = s.parent? .none n := by
  unfold sweepNode
  split
  · exact ⟨rfl, rfl, rfl, fun _ _ => rfl⟩
  · rename_i hdrop
    rw [Bool.or_eq_true, not_or, Bool.not_eq_true, Bool.not_eq_false'] at hdrop
    cases node with
    | conversation id =>
      refine ⟨rfl, rfl, rfl, fun n hn => ?_⟩
      cases n with
      | task _ => rfl
      | conversation c =>
        have hne : c ≠ id := by
          rintro rfl
          simp [needed, isLiveNode, hdrop.1] at hn
        simp only [parent?, edge]
        rw [Function.update_of_ne hne]
    | task id =>
      dsimp only
      split
      · exact ⟨rfl, rfl, rfl, fun _ _ => rfl⟩
      · rename_i hdead
        refine ⟨rfl, rfl, rfl, fun n hn => ?_⟩
        cases n with
        | conversation _ => rfl
        | task c =>
          have hne : c ≠ id := by
            rintro rfl
            simp [needed, hdead, hdrop.1] at hn
          simp only [parent?, node?_none]
          rw [Function.update_of_ne hne]
          rfl

theorem sweep_keeps (s : TaskScheduler V) : s.sweep.live = s.live ∧ s.sweep.below = s.below ∧ s.sweep.failFastChecks = s.failFastChecks ∧
    ∀ n, s.needed n = true → s.sweep.parent? .none n = s.parent? .none n := by
  have hfold : ∀ (q : List Node) (s : TaskScheduler V),
      (q.foldl sweepNode s).live = s.live ∧ (q.foldl sweepNode s).below = s.below ∧
        (q.foldl sweepNode s).failFastChecks = s.failFastChecks ∧
        ∀ n, s.needed n = true → (q.foldl sweepNode s).parent? .none n = s.parent? .none n := by
    intro q
    induction q with
    | nil => exact fun s => ⟨rfl, rfl, rfl, fun _ _ => rfl⟩
    | cons node q ih =>
      intro s
      obtain ⟨hlive, hbel, hchecks, hpar⟩ := sweepNode_keeps (s := s) node
      obtain ⟨hlive', hbel', hchecks', hpar'⟩ := ih (s.sweepNode node)
      refine ⟨hlive'.trans hlive, hbel'.trans hbel, hchecks'.trans hchecks, fun n hn => (hpar' n ?_).trans (hpar n hn)⟩
      have hneed : (s.sweepNode node).needed n = s.needed n := by
        cases n <;> simp only [needed, isLiveNode, task?, hlive, hbel]
      rw [hneed, hn]
  obtain ⟨hlive, hbel, hchecks, hpar⟩ := hfold s.dropQueue s
  refine ⟨hlive, hbel, hchecks, fun n hn => ?_⟩
  rw [← hpar n hn]
  cases n <;> rfl

/-- A loaded chain above a node that is needed stays loaded. -/
theorem Loaded.sweep {n : Node} (h : Loaded s n) (hexact : Exact s) (hneed : s.needed n = true) : Loaded s.sweep n := by
  obtain ⟨-, -, -, hpar⟩ := sweep_keeps s
  induction h with
  | root hat => exact .root ((hpar _ hneed).trans hat)
  | @above n p hat _ ih =>
    have hlist : n ∈ s.below p := (hexact p n).mpr ⟨hat, hneed⟩
    exact .above ((hpar _ hneed).trans hat) (ih (needed_of_mem_below hlist))

theorem Loaded.same {n : Node} (h : Loaded s n) (hsame : ∀ n, s'.parent? .none n = s.parent? .none n) : Loaded s' n := by
  induction h with
  | root hat => exact .root ((hsame _).trans hat)
  | above hat _ ih => exact .above ((hsame _).trans hat) ih

/-- **The publication of marks** leaves the chains loaded, and adds no check. -/
theorem observe_marks (hdist : (recs.map (·.id)).Nodup) (h : s.Replaces recs)
    (hexact : Exact (recs.foldl TaskScheduler.observeTask s)) (hload : ChainsLoaded s) :
    ChainsLoaded (s.observe ⟨[], recs⟩) ∧ (s.observe ⟨[], recs⟩).failFastChecks = s.failFastChecks := by
  obtain ⟨hshape, hnone⟩ := SameShape.observeTasks hdist h
  have heq : s.observe ⟨[], recs⟩ = (recs.foldl observeTask s).sweep := by
    unfold observe
    dsimp only [foldl_nil]
    rw [hnone]
    rfl
  rw [heq]
  obtain ⟨hlive, -, hchecks, -⟩ := sweep_keeps (recs.foldl observeTask s)
  refine ⟨fun id record hrec => ?_, hchecks.trans hshape.failFastChecks⟩
  have hrec' : (recs.foldl observeTask s).task? id = some record := by rw [task?, ← hlive]; exact hrec
  have hwas : (s.task? id).isSome = true := by rw [← hshape.live, hrec']; rfl
  obtain ⟨old, hold⟩ := Option.isSome_iff_exists.mp hwas
  refine ((hload id old hold).same hshape.parent?).sweep hexact ?_
  rw [needed, isLiveNode, hrec']
  rfl

end TaskScheduler

/-! ## The step before a phase -/

namespace Schedule

variable {sys : Schedule V} {record : AnyTaskRecord V}

/-- What a valid commit leaves of a stored task: its place. -/
theorem apply_node {com : Commit V} (hvald : com.Valid t) (hrec : Assoc.get? t.tasks id = some record) :
    ∃ aft, Assoc.get? (t.apply com).tasks id = some aft ∧ aft.toTaskNode = record.toTaskNode := by
  rw [get?_apply t hvald.distinct]
  cases hfnd : com.tasks.find? (·.id = id) with
  | none => exact ⟨record, hrec, rfl⟩
  | some aft =>
    have hat := find?_some hfnd
    rw [decide_eq_true_eq] at hat
    exact ⟨aft, rfl, (hvald.replaced aft (mem_of_find?_eq_some hfnd) record (hat ▸ hrec)).2⟩

theorem apply_conversation {com : Commit V} (hvald : com.Valid t) {c : ConversationId} {owner : Option TaskId}
    (hsto : Assoc.get? t.conversations c = some owner) : Assoc.get? (t.apply com).conversations c = some owner := by
  have hfold : ∀ (cs : List (ConversationId × Option TaskId)) (sto : Assoc ConversationId (Option TaskId)), (∀ d ∈ cs, d.1 ≠ c) →
      Assoc.get? (cs.foldl (fun convs d => Assoc.set convs d.1 d.2) sto) c = Assoc.get? sto c := by
    intro cs
    induction cs with
    | nil => exact fun _ _ => rfl
    | cons d cs ih =>
      intro sto hne
      rw [foldl_cons, ih _ fun e he => hne e (.tail _ he), get?_set_ne _ _ (hne d (.head _))]
  refine (hfold _ _ fun d hd heq => ?_).trans hsto
  have hnew := hvald.unlinked d hd
  rw [heq, hsto] at hnew
  cases hnew

/-- The records that valid commits leave keep every place. -/
structure Follows (t u : Tables V) : Prop where
  task : ∀ {id record}, Assoc.get? t.tasks id = some record →
    ∃ after, Assoc.get? u.tasks id = some after ∧ after.toTaskNode = record.toTaskNode
  conversation : ∀ {c owner}, Assoc.get? t.conversations c = some owner → Assoc.get? u.conversations c = some owner

theorem follows_of_validFrom {pnd : List (Admitted V)} (h : ValidFrom t pnd) :
    Follows t (pnd.foldl (fun tbls adm => tbls.apply adm.commit) t) := by
  induction pnd generalizing t with
  | nil => exact ⟨fun h => ⟨_, h, rfl⟩, fun h => h⟩
  | cons adm rest ih =>
    have hlat := ih h.2
    constructor
    · intro id record hrec
      obtain ⟨middle, hmiddle, heq⟩ := apply_node h.1 hrec
      obtain ⟨aft, haft, heq'⟩ := hlat.task hmiddle
      exact ⟨aft, haft, heq'.trans heq⟩
    · exact fun hsto => hlat.conversation (apply_conversation h.1 hsto)

/-- A record that is admitted is published, or a pending commit writes it. -/
theorem durable_task {pnd : List (Admitted V)} (h : ValidFrom t pnd)
    (hrec : Assoc.get? (pnd.foldl (fun tbls adm => tbls.apply adm.commit) t).tasks id = some record) :
    Assoc.get? t.tasks id = some record ∨ ∃ adm ∈ pnd, record ∈ adm.commit.tasks ∧ record.id = id := by
  induction pnd generalizing t with
  | nil => exact .inl hrec
  | cons adm rest ih =>
    obtain hfst | ⟨lat, hlat, hmem⟩ := ih h.2 hrec
    · rw [get?_apply t h.1.distinct] at hfst
      cases hfnd : adm.commit.tasks.find? (·.id = id) with
      | none =>
        rw [hfnd, Option.none_or] at hfst
        exact .inl hfst
      | some fnd =>
        rw [hfnd, Option.some_or] at hfst
        cases hfst
        have hat := find?_some hfnd
        rw [decide_eq_true_eq] at hat
        exact .inr ⟨adm, .head _, mem_of_find?_eq_some hfnd, hat⟩
    · exact .inr ⟨lat, .tail _ hlat, hmem⟩

/-- While no pending commit changes intents, an owner with intent in what is admitted is one in what is published. -/
theorem Sound.cancels (h : Sound sys) (hstands : sys.stands [Key.intent]) (hcanc : sys.durable.Cancels id) : sys.published.Cancels id := by
  obtain ⟨record, hrec, hcanc⟩ := hcanc
  obtain hpub | ⟨adm, hadm, hmem, rfl⟩ := durable_task h.valid hrec
  · exact ⟨record, hpub, hcanc⟩
  · have hsame := (h.registered adm hadm).intent (hstands _ (.head _) adm hadm) record hmem
    simp only [intentChanges, Bool.or_eq_false_iff, decide_eq_false_iff_not, ne_eq, not_not] at hsame
    have hbef := hsame.2
    rw [hcanc] at hbef
    cases hfiltered : (get? sys.published.tasks record.id).filter (·.isLive) with
    | none =>
      rw [hfiltered] at hbef
      cases hbef
    | some old =>
      rw [hfiltered] at hbef
      exact ⟨old, (Option.filter_eq_some_iff.mp hfiltered).1, hbef⟩

/-- A way down to a task with a loaded chain is there in what is published. -/
theorem Sound.under (h : Sound sys) (hstands : sys.stands [Key.intent]) {n : Node} {top : Node} (hload : TaskScheduler.Loaded sys.mem n)
    (hunder : Under sys.durable.up sys.durable.Passes top n) : Under sys.published.up sys.published.Passes top n := by
  have hfollows : Follows sys.published sys.durable := follows_of_validFrom h.valid
  have hholds := h.mirrors.toHolds
  have hup {n p : Node} (hload : Loaded sys.mem n) (hup : sys.durable.up n = some p) : sys.published.up n = some p := by
    obtain ⟨at', hat⟩ := hload.known
    have hsto := hholds.parent? hat
    have hsame : sys.durable.parent? n = some at' := by
      cases n with
      | task id =>
        obtain ⟨record, hrec, rfl⟩ := Option.map_eq_some_iff.mp hsto
        obtain ⟨aft, haft, heq⟩ := hfollows.task hrec
        simp only [Tables.parent?, haft, Option.map_some, heq]
      | conversation id =>
        obtain ⟨owner, hown, rfl⟩ := Option.map_eq_some_iff.mp hsto
        simp only [Tables.parent?, hfollows.conversation hown, Option.map_some]
    rw [Tables.up, hsame] at hup
    rw [Tables.up, hsto, hup]
  have hpasses {n : Node} (hpass : sys.durable.Passes n) : sys.published.Passes n := by
    cases n with
    | conversation => trivial
    | task id =>
      intro record hrec hback
      obtain ⟨aft, haft, heq⟩ := hfollows.task hrec
      exact h.cancels hstands (hpass aft haft ((congrArg TaskNode.background heq).trans hback))
  induction hunder with
  | child hat => exact .child (hup hload hat)
  | step hat hpass _ ih =>
    have hat' := hup hload hat
    obtain ⟨-, habv⟩ := hload.up hholds hat'
    exact .step hat' (hpasses hpass) (ih habv)

/-- **The step before a phase.** Where it goes on with a foreground task with a loaded chain, and its reads stand, no
    intent reaches the task in what is admitted, whether or not any pass has marked it. -/
theorem Sound.step_fenced [DecidableEq V] (h : Sound sys) {id : TaskId} {closing : Bool} {prev : Option (TaskScheduler.PhaseResult V)}
    (hplan : sys.mem.stepPlan id closing prev = .continue ∨ sys.mem.stepPlan id closing prev = .progress)
    (hstands : sys.stands (sys.mem.stepKeys id closing)) (hload : TaskScheduler.Loaded sys.mem (.task id))
    (hrec : Assoc.get? sys.durable.tasks id = some record) (hforeground : record.background = false) :
    ¬∃ owner, sys.durable.IntentReaches owner id := by
  rintro ⟨owner, hcanc, hunder⟩
  cases htask : sys.mem.task? id with
  | none =>
    unfold stepPlan at hplan
    rw [htask] at hplan
    simp at hplan
  | some cur =>
    have hpub := ((h.mirrors.live id cur).mp htask).1
    obtain ⟨aft, haft, hplace⟩ := (follows_of_validFrom h.valid).task hpub
    have haft' : some record = some aft := hrec.symm.trans haft
    cases haft'
    have hfore : cur.background = false := (congrArg TaskNode.background hplace).symm.trans hforeground
    unfold stepPlan at hplan
    unfold stepKeys at hstands
    rw [htask] at hplan hstands
    dsimp only at hplan hstands
    cases hst : cur.state with
    | running cp =>
      rw [hst] at hplan hstands
      cases hclosing : closing with
      | true => simp [hclosing] at hplan
      | false =>
        rw [hclosing] at hplan hstands
        unfold rules at hplan
        cases hmark : cur.abortRequested with
        | true => simp [hmark] at hplan
        | false =>
          rw [hmark, hfore] at hplan hstands
          have hintent : sys.stands [Key.intent] := by
            intro key hkey adm hadm
            obtain rfl := mem_singleton.mp hkey
            exact hstands _ (.tail _ (.head _)) adm hadm
          obtain ⟨near, hnear⟩ := IntentReaches.nearest ⟨h.cancels hintent hcanc, h.under hintent hload hunder⟩
          obtain ⟨fnd, hfnd, -⟩ := hnear.1
          have hbel : sys.mem.belowCancelled (parentNode cur.toTaskNode) = true := by
            rw [belowCancelled, (h.mirrors.toHolds.cancellingOwner h.ranked hload htask).mpr ⟨near, hfnd, hnear⟩]
            rfl
          rw [hbel] at hplan
          simp at hplan
    | _ =>
      rw [hst] at hplan
      simp at hplan

end Schedule

/-! ## The claims of a pass and of a step -/

namespace Schedule

open TaskScheduler

/-- **Cascades.** In every run, once everything is published and the chains of live tasks are loaded, a pass marks what the
    records imply: never less than what a task is marked with, and never a request as an abandonment. Once its marks are
    published a second pass marks only below a task that the first one marked as the member of a failed wait, or whose
    `restart` mark it replaced by a request. And no step goes on with a foreground task that an intent reaches. -/
theorem cascades [DecidableEq V] {tables : Tables V} (hw : tables.WellFormed) {labels : List (SchedulerLabel V)} {sys : Schedule V}
    (hrun : Steps Step (opened tables) labels sys) :
    (sys.pending = [] → sys.mem.ChainsLoaded → ∀ turns, ∃ marks,
      sys.mem.marks sys.published (turns + 1) (fun _ => none) = .decided marks sys.mem.failFastChecks ∧
      (∀ id mark, Assoc.get? marks id = some mark ↔ sys.published.Implies sys.mem.failFastChecks id mark.record mark.reason) ∧
      (∀ id mark, Assoc.get? marks id = some mark → mark.record.abortRequested = true →
        mark.record.abortReason = some .restart ∧ mark.reason = none) ∧
      ∀ runnable finalizeChecks drained pending second, Step sys (.candidates runnable finalizeChecks []) drained →
        Step drained (.admitted (markCommit marks)) pending → Step pending .published second →
        second.mem.ChainsLoaded ∧ ∃ again, second.mem.marks second.published (turns + 1) (fun _ => none) = .decided again [] ∧
          ∀ id mark, Assoc.get? again id = some mark → ∃ owner first, second.published.Nearest owner id ∧
            Assoc.get? marks owner = some first ∧
            (sys.published.FailFast sys.mem.failFastChecks owner ∨ first.record.abortReason = some .restart)) ∧
    ∀ id closing previous, (sys.mem.stepPlan id closing previous = .continue ∨ sys.mem.stepPlan id closing previous = .progress) →
      sys.stands (sys.mem.stepKeys id closing) → Loaded sys.mem (.task id) →
      ∀ record, Assoc.get? sys.durable.tasks id = some record → record.background = false →
        ¬∃ owner, sys.durable.IntentReaches owner id := by
  have hsound := sound_of_steps hw hrun
  constructor
  · intro hpending hloaded turns
    obtain ⟨marks, hdecided, hkeys, himplied⟩ := marks_implies hsound.mirrors hsound.ranked hloaded turns
    have hmarking : Marking sys.published sys.mem.failFastChecks marks := ⟨hkeys, himplied⟩
    refine ⟨marks, hdecided, himplied, fun id mark hmark hasked => ?_, fun runnable finalizeChecks drained pending second hdrain hadmit hpublish => ?_⟩
    · obtain ⟨-, -, ⟨hreason, -, hnot⟩ | ⟨-, -, -, hunmarked⟩⟩ := (himplied id mark).mp hmark
      · refine ⟨?_, hreason⟩
        rcases hwas : mark.record.abortReason with _ | ⟨⟩
        · exact absurd ⟨hasked, hwas⟩ hnot
        · rfl
      · rw [hunmarked] at hasked
        cases hasked
    · have hsound' := ((hsound.step hdrain).step hadmit).step hpublish
      have hbefore := (hsound.step hdrain).step hadmit
      cases hdrain
      cases hadmit
      cases hpublish with
      | @published admitted rest hqueue =>
        rw [hpending, nil_append] at hqueue
        cases hqueue
        have hvalid : (markCommit marks).Valid sys.published := by
          have hvalid := hbefore.valid
          rw [hpending] at hvalid
          exact hvalid.1
        have hdrained : Mirrors { sys.mem with runnable, finalizeChecks, failFastChecks := [] } sys.published :=
          hsound.mirrors.same ⟨rfl, rfl, rfl, rfl, rfl⟩
        have hreplaces := hmarking.replaces hdrained.toHolds hsound.ranked
        have hexact := (hdrained.observeTasks hsound.ranked hvalid.distinct fun record hrecord => hvalid.accepts hrecord).1.listed
        obtain ⟨hstill, hchecks⟩ := observe_marks hvalid.distinct hreplaces hexact fun id record hrecord =>
          (hloaded id record hrecord).same fun n => by cases n <;> rfl
        refine ⟨hstill, ?_⟩
        obtain ⟨again, hagain, -, himplied'⟩ := marks_implies hsound'.mirrors hsound'.ranked hstill turns
        have hnone : (TaskScheduler.observe { sys.mem with runnable, finalizeChecks, failFastChecks := [] } (markCommit marks)).failFastChecks = [] :=
          hchecks
        rw [hnone] at hagain himplied'
        exact ⟨again, hagain, fun id mark hmark => hmarking.second hsound.ranked ((himplied' id mark).mp hmark)⟩
  · intro id closing previous hplan hstands hloaded record hrecord hforeground
    exact hsound.step_fenced hplan hstands hloaded hrecord hforeground

/-! ## A request above an abandonment

Three tasks own one another. The middle one is abandoned after a restart; then an abort of the outermost one is requested.
The request reaches the innermost one, whose nearest owner with intent is the abandoned one. -/

section Chain

/-- A pending task of conversation 1. -/
def chainTask (id : TaskId) (owner : Option TaskId) (abortRequested : Bool) (abortReason : Option AbortReason) : AnyTaskRecord Unit where
  conversationId := 1
  owner := owner
  background := false
  id := id
  abortRequested := abortRequested
  abortReason := abortReason
  restarts := none
  memos := []
  state := .pending ()
  rest := ()

/-- The tasks are created, the middle one is abandoned, and the outermost one's abort is requested. -/
def chainCommits : List (Commit Unit) :=
  [⟨[(1, none)], [chainTask 2 none false none, chainTask 3 (some 2) false none, chainTask 4 (some 3) false none]⟩,
    ⟨[], [chainTask 3 (some 2) true (some .restart)]⟩, ⟨[], [chainTask 2 none true none]⟩]

/-- A commit is admitted and published. -/
def committed (sys : Schedule Unit) (commit : Commit Unit) : Schedule Unit := ⟨sys.published.apply commit, sys.mem.observe commit, []⟩

def chained : Schedule Unit := chainCommits.foldl committed (opened ⟨[], []⟩)

/-- With nothing pending, a valid commit is admitted and published. -/
theorem step_committed {sys : Schedule Unit} {com : Commit Unit} (hpend : sys.pending = []) (hvald : com.Valid sys.published) :
    ∃ mid, Step sys (.admitted com) mid ∧ Step mid .published (committed sys com) := by
  have hdur : sys.durable = sys.published := by rw [durable, hpend]; rfl
  have hreadable : sys.Readable com := by
    intro record _ key _ adm hadm
    rw [hpend] at hadm
    cases hadm
  refine ⟨_, .admitted (hdur ▸ hvald) hreadable, ?_⟩
  exact @Step.published Unit _ ⟨com, _⟩ [] (by dsimp only; rw [hpend]; rfl)

theorem steps_committed {sys : Schedule Unit} {com : Commit Unit} (hpend : sys.pending = []) (hvald : com.Valid sys.published) :
    Steps Step sys [SchedulerLabel.admitted com, .published] (committed sys com) := by
  obtain ⟨mid, hadmit, hpublish⟩ := step_committed hpend hvald
  exact .head hadmit (.single hpublish)

/-- A commit that replaces live tasks in their places is valid. -/
theorem valid_of_replaces {tbls : Tables V} (hdist : (recs.map (·.id)).Nodup)
    (h : ∀ record ∈ recs, ∃ old, Assoc.get? tbls.tasks record.id = some old ∧ old.isLive = true ∧ record.toTaskNode = old.toTaskNode) :
    Commit.Valid tbls ⟨[], recs⟩ := by
  constructor
  · exact nodup_nil
  · exact nofun
  · exact nofun
  · exact hdist
  · intro record hrec old hold
    obtain ⟨same, hsame, hlive, hplace⟩ := h record hrec
    rw [hold] at hsame
    cases hsame
    exact ⟨hlive, hplace⟩
  · intro record hrec hnew
    obtain ⟨same, hsame, -⟩ := h record hrec
    rw [hnew] at hsame
    cases hsame

theorem steps_chained : ∃ labs, Steps Step (opened (⟨[], []⟩ : Tables Unit)) labs chained := by
  refine ⟨_, (steps_committed rfl ?_).trans ((steps_committed rfl ?_).trans (steps_committed rfl ?_))⟩
  · constructor
    · decide
    · simp [opened]
    · simp
    · decide
    · simp [opened]
    · intro record hrec _
      simp only [mem_cons, not_mem_nil, or_false] at hrec
      obtain rfl | rfl | rfl := hrec <;> exact ⟨by decide, rfl⟩
  · refine valid_of_replaces (by decide) fun record hrec => ?_
    obtain rfl := mem_singleton.mp hrec
    exact ⟨chainTask 3 (some 2) false none, rfl, rfl, rfl⟩
  · refine valid_of_replaces (by decide) fun record hrec => ?_
    obtain rfl := mem_singleton.mp hrec
    exact ⟨chainTask 2 none false none, rfl, rfl, rfl⟩

theorem chained_loaded : chained.mem.ChainsLoaded := by
  have htwo : Loaded chained.mem (.task 2) := .above (p := .conversation 1) rfl (.root rfl)
  have hthree : Loaded chained.mem (.task 3) := .above rfl htwo
  have hfour : Loaded chained.mem (.task 4) := .above rfl hthree
  intro id record hrec
  have hmem : id ∈ chained.mem.live.map Prod.fst := mem_map.mpr ⟨_, mem_of_get? hrec, rfl⟩
  have hids : chained.mem.live.map Prod.fst = [2, 3, 4] := by decide
  rw [hids] at hmem
  simp only [mem_cons, not_mem_nil, or_false] at hmem
  obtain rfl | rfl | rfl := hmem
  · exact htwo
  · exact hthree
  · exact hfour

/-- The marks of the pass after the request. -/
def chainMarks : Assoc TaskId (TaskScheduler.Mark Unit) :=
  [(4, ⟨chainTask 4 (some 3) false none, some .restart⟩), (3, ⟨chainTask 3 (some 2) true (some .restart), none⟩)]

/-- **What a pass marks is not what every intent decides.** The innermost task is marked as abandoned, though a request
    reaches it; and a second pass, right after the marks are published, replaces that mark. -/
theorem request_above_abandonment : ∃ labels, Steps Step (opened (⟨[], []⟩ : Tables Unit)) labels chained ∧ chained.pending = [] ∧
    chained.mem.ChainsLoaded ∧ chained.mem.marks chained.published 1 (fun _ => none) = .decided chainMarks [] ∧
    (Assoc.get? chainMarks 4).map (·.reason) = some (some .restart) ∧ chained.published.IntentReaches 2 4 ∧
    (Assoc.get? chained.published.tasks 2).map passedReason = some none ∧
    (∃ labels, Steps Step chained labels (committed chained (markCommit chainMarks))) ∧
    (committed chained (markCommit chainMarks)).mem.marks (committed chained (markCommit chainMarks)).published 1 (fun _ => none) =
      .decided [(4, ⟨chainTask 4 (some 3) true (some .restart), none⟩)] [] := by
  obtain ⟨labels, hrun⟩ := steps_chained
  refine ⟨labels, hrun, rfl, chained_loaded, by rfl, rfl, ⟨⟨_, rfl, rfl⟩, ?_⟩, rfl, ⟨_, steps_committed rfl ?_⟩, by rfl⟩
  · refine .step (y := .task 3) rfl ?_ (.child rfl)
    intro record hrecord hbackground
    cases hrecord
    cases hbackground
  · refine valid_of_replaces (by decide) fun record hrecord => ?_
    simp only [chainMarks, map_cons, map_nil, mem_cons, not_mem_nil, or_false] at hrecord
    obtain rfl | rfl := hrecord
    · exact ⟨chainTask 4 (some 3) false none, rfl, rfl, rfl⟩
    · exact ⟨chainTask 3 (some 2) true (some .restart), rfl, rfl, rfl⟩

/-- One running task. -/
def oneRunning : Schedule Unit := committed (opened ⟨[], []⟩) ⟨[(1, none)], [{ chainTask 2 none false none with state := .running () }]⟩

theorem steps_oneRunning : Steps Step (opened (⟨[], []⟩ : Tables Unit))
    [SchedulerLabel.admitted ⟨[(1, none)], [{ chainTask 2 none false none with state := .running () }]⟩, .published] oneRunning := by
  refine steps_committed rfl ?_
  constructor
  · decide
  · simp [opened]
  · simp
  · decide
  · simp [opened]
  · intro record hrec _
    obtain rfl := mem_singleton.mp hrec
    exact ⟨by decide, rfl⟩

theorem wellFormed_empty : (⟨[], []⟩ : Tables Unit).WellFormed where
  named h := by cases h
  task h := by cases h
  conversation h := by cases h
  keys := nodup_nil

/-- The pass after the request marks what the records imply, and a task that runs below no intent goes on. -/
theorem cascades_chained : (∃ marks, chained.mem.marks chained.published 1 (fun _ => none) = .decided marks [] ∧
      ∀ id mark, Assoc.get? marks id = some mark ↔ chained.published.Implies [] id mark.record mark.reason) ∧
    oneRunning.mem.stepPlan 2 false none = .continue ∧ ¬∃ owner, oneRunning.durable.IntentReaches owner 2 := by
  obtain ⟨labels, hrun⟩ := steps_chained
  obtain ⟨marks, hdecided, himplied, -⟩ := (cascades wellFormed_empty hrun).1 rfl chained_loaded 0
  refine ⟨⟨marks, hdecided, himplied⟩, rfl, ?_⟩
  refine (cascades wellFormed_empty steps_oneRunning).2 2 false none (.inl rfl) ?_ (.above (p := .conversation 1) rfl (.root rfl)) _ rfl rfl
  intro key _ admitted hadmitted
  cases hadmitted

/-- **The memory mirrors what is published** in every run: the live tasks, those with an intent, the owners that it knows, and
    the tree around live work, which it lists exactly. -/
theorem memory_mirrors {tables : Tables V} (hw : tables.WellFormed) {labels : List (SchedulerLabel V)} {sys : Schedule V}
    (hrun : Steps Step (opened tables) labels sys) :
    (∀ id record, sys.mem.task? id = some record ↔ Assoc.get? sys.published.tasks id = some record ∧ record.isLive = true) ∧
    (∀ id, id ∈ sys.mem.intent ↔ ∃ record, sys.mem.task? id = some record ∧ cancellationIntent record = true) ∧
    (∀ node owner, sys.mem.parent? .none node = some owner → sys.published.parent? node = some owner) ∧
    ∀ owner node, node ∈ sys.mem.below owner ↔ sys.mem.parent? .none node = some (some owner) ∧ sys.mem.needed node = true := by
  have h := (sound_of_steps hw hrun).mirrors
  exact ⟨h.live, h.intent, fun _ _ hpar => h.toHolds.parent? hpar, h.listed⟩

/-- The innermost task is listed below its owner. -/
theorem memory_mirrors_chained : Node.task 4 ∈ chained.mem.below (.task 3) := by
  obtain ⟨labels, hrun⟩ := steps_chained
  obtain ⟨-, -, -, hlisted⟩ := memory_mirrors wellFormed_empty hrun
  exact (hlisted (.task 3) (.task 4)).mpr ⟨rfl, rfl⟩

end Chain

end Schedule

end PiBridge.Durable
