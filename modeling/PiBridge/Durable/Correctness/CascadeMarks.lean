import PiBridge.Durable.Correctness.CascadeReach
import Mathlib.Data.List.Induction

/-!
# `Durable.Correctness.CascadeMarks` — the marks of a pass are the ones the records imply

A pass stages its marks one request after another (`requests`); whatever their order, each task gets the strongest one it
is not marked with already (`get?_staged`). Over loaded chains the requests are what the records imply: each foreground
task takes the reason of its nearest owner with intent (`Cascades`), and each live member of a checked wait with a failed
one a request (`FailFast`).
-/

namespace PiBridge.Durable

open Lib List Option Assoc Bool

variable {V : Type}

/-! ## What the records imply -/

namespace Tables

variable (t : Tables V)

/-- The nearest owner with intent passes `reason` on to the foreground task. -/
def Cascades (id : TaskId) (reason : Option AbortReason) : Prop :=
  ∃ owner record task, t.Nearest owner id ∧ Assoc.get? t.tasks owner = some record ∧ Assoc.get? t.tasks id = some task ∧
    task.background = false ∧ TaskScheduler.passedReason record = reason

/-- The task has not failed, and another member of a checked wait it is a member of has. -/
def FailFast (checks : List TaskId) (id : TaskId) : Prop := ∃ waiter ∈ checks, ∃ record checkpoint on policy,
    Assoc.get? t.tasks waiter = some record ∧ record.state = .waiting checkpoint on policy ∧ id ∈ on ∧
      (∀ task, Assoc.get? t.tasks id = some task → failedOutcome task = false) ∧
      ∃ failed ∈ on, ∃ member, Assoc.get? t.tasks failed = some member ∧ failedOutcome member = true

/-- The task is marked by a request. -/
def Asked (record : AnyTaskRecord V) : Prop := record.abortRequested = true ∧ record.abortReason = none

/-- The mark the records imply for a task: a request where its nearest owner with intent passes one on, or a wait asks for
    it, unless it is marked by one; `restart` where that is all its nearest owner passes on, unless it is marked. -/
def Implies (checks : List TaskId) (id : TaskId) (record : AnyTaskRecord V) (reason : Option AbortReason) : Prop :=
  Assoc.get? t.tasks id = some record ∧ record.isLive = true ∧
    (reason = none ∧ (t.FailFast checks id ∨ t.Cascades id none) ∧ ¬Asked record ∨
      reason = some .restart ∧ t.Cascades id (some .restart) ∧ ¬t.FailFast checks id ∧ record.abortRequested = false)

theorem Cascades.unique {t : Tables V} {id : TaskId} {rsn rsn' : Option AbortReason} (h : t.Cascades id rsn)
    (h' : t.Cascades id rsn') : rsn = rsn' := by
  obtain ⟨own, record, _, hnear, hrec, -, -, rfl⟩ := h
  obtain ⟨own', record', _, hnear', hrec', -, -, rfl⟩ := h'
  obtain rfl := hnear.unique hnear'
  rw [hrec] at hrec'
  rw [some.inj hrec']

end Tables

namespace TaskScheduler

variable {s : TaskScheduler V} {t : Tables V} {id : TaskId}

/-! ## Staging -/

/-- Stage one request after another. -/
def staged (s : TaskScheduler V) (requests : List (TaskId × Option AbortReason)) : Assoc TaskId (Mark V) :=
  requests.foldl (fun marks request => s.stageMark marks request.1 request.2) []

/-- The mark of a task that is asked for by a request, or by an abandonment. -/
def strongest (record : AnyTaskRecord V) (request restart : Bool) : Option (Mark V) :=
  if request && !(record.abortRequested && record.abortReason.isNone) then some ⟨record, none⟩
  else if restart && !record.abortRequested then some ⟨record, some .restart⟩
  else none

section

variable (requests : List (TaskId × Option AbortReason))

include requests

/-- A task gets the strongest of the marks it is asked for. -/
theorem get?_staged_eq (id : TaskId) : Assoc.get? (s.staged requests) id =
      (s.task? id).bind fun record => strongest record (decide ((id, none) ∈ requests)) (decide ((id, some .restart) ∈ requests)) := by
  induction requests using reverseRecOn with
  | nil => cases s.task? id <;> simp [staged, strongest]
  | append_singleton requests req ih =>
    obtain ⟨fnd, rsn⟩ := req
    have hstage : s.staged (requests ++ [(fnd, rsn)]) = s.stageMark (s.staged requests) fnd rsn := by
      rw [staged, foldl_append]
      rfl
    rw [hstage, stageMark]
    by_cases heq : fnd = id
    · subst heq
      cases htask : s.task? fnd with
      | none =>
        rw [htask] at ih
        exact ih
      | some record =>
        rw [htask, bind_some] at ih
        -- What is staged, what is asked for now, and the mark the record has decide.
        rcases rsn with _ | ⟨⟩ <;> rcases hask : record.abortReason with _ | ⟨⟩ <;>
          cases hmark : record.abortRequested <;> by_cases hreq : (fnd, none) ∈ requests <;>
          by_cases hrestart : (fnd, some AbortReason.restart) ∈ requests <;>
          simp [strongest, hask, hmark, hreq, hrestart, ih]
    · have hoth (rsn' : Option AbortReason) : (id, rsn') ∈ requests ++ [(fnd, rsn)] ↔ (id, rsn') ∈ requests := by
        simp [Ne.symm heq]
      simp only [hoth]
      rw [← ih]
      split
      · rfl
      · split
        · rfl
        · split
          · rfl
          · exact get?_set_ne _ _ heq

/-- A task is marked as it is asked for: by a request it is not marked with already, or else, unmarked, as abandoned. -/
theorem get?_staged (id : TaskId) (mark : Mark V) :
    Assoc.get? (s.staged requests) id = some mark ↔ s.task? id = some mark.record ∧
        (mark.reason = none ∧ (id, none) ∈ requests ∧ ¬Tables.Asked mark.record ∨
          mark.reason = some .restart ∧ (id, some .restart) ∈ requests ∧ (id, none) ∉ requests ∧ mark.record.abortRequested = false) := by
  rw [get?_staged_eq]
  obtain ⟨record, rsn⟩ := mark
  cases htask : s.task? id with
  | none => simp
  | some fnd =>
    rw [bind_some, some.injEq]
    constructor
    · intro hmark
      unfold strongest at hmark
      split at hmark
      · rename_i hreq
        obtain ⟨rfl, rfl⟩ := hmark
        rw [and_eq_true, decide_eq_true_eq, not_eq_true', and_eq_false_iff] at hreq
        refine ⟨rfl, .inl ⟨rfl, hreq.1, fun hask => ?_⟩⟩
        obtain hunmarked | hreason := hreq.2
        · rw [hask.1] at hunmarked
          cases hunmarked
        · rw [hask.2] at hreason
          cases hreason
      · split at hmark
        · rename_i hnot hrestart
          obtain ⟨rfl, rfl⟩ := hmark
          rw [and_eq_true, decide_eq_true_eq, not_eq_true'] at hrestart
          refine ⟨rfl, .inr ⟨rfl, hrestart.1, fun hreq => hnot ?_, hrestart.2⟩⟩
          simp [hreq, hrestart.2]
        · cases hmark
    · rintro ⟨rfl, ⟨rfl, hreq, hask⟩ | ⟨rfl, hrestart, hnot, hunmarked⟩⟩
      · have hunasked : (fnd.abortRequested && fnd.abortReason.isNone) = false := by
          rw [eq_false_iff]
          intro hboth
          rw [and_eq_true, isNone_iff_eq_none] at hboth
          exact hask hboth
        simp [strongest, hreq, hunasked]
      · have hunmarked' : fnd.abortRequested = false := hunmarked
        simp [strongest, hrestart, hnot, hunmarked']

theorem nodup_staged : ((s.staged requests).map Prod.fst).Nodup := by
  induction requests using reverseRecOn with
  | nil => exact nodup_nil
  | append_singleton requests req ih =>
    have hstage : s.staged (requests ++ [req]) = s.stageMark (s.staged requests) req.1 req.2 := by
      rw [staged, foldl_append]
      rfl
    rw [hstage]
    unfold stageMark
    split
    · exact ih
    · split
      · exact ih
      · split
        · exact ih
        · exact nodup_keys_set ih _ _

end

/-! ## The requests of a pass -/

/-- What the walk down from an owner asks for. -/
def ownerRequests (s : TaskScheduler V) (id : TaskId) : List (TaskId × Option AbortReason) :=
  match s.task? id with
  | none => []
  | some owner =>
    ((s.walkDown .none false (fun below => !decide (below ∈ s.intent)) (.task id)).filter
      fun visit => visit.live.isSome && !visit.node.background).map fun visit => (visit.id, passedReason owner)

/-- What a checked wait asks for. -/
def waitRequests (s : TaskScheduler V) (ended : TaskId → Option (Option (AnyTaskRecord V))) (waiter : TaskId) :
    List (TaskId × Option AbortReason) :=
  if (s.checkedMembers waiter).any fun m => (s.member? ended m).join.any failedOutcome then
    ((s.checkedMembers waiter).filter fun m => (s.task? m).any fun record => !failedOutcome record).map fun m => (m, none)
  else []

def requests (s : TaskScheduler V) (ended : TaskId → Option (Option (AnyTaskRecord V))) : List (TaskId × Option AbortReason) :=
  s.intent.flatMap s.ownerRequests ++ s.failFastChecks.flatMap (s.waitRequests ended)

/-- **A marks decision** stages the requests, once no member is missing. -/
theorem planMarks_eq (ended : TaskId → Option (Option (AnyTaskRecord V))) : s.planMarks ended =
      if ((s.failFastChecks.flatMap s.checkedMembers).filter fun m => (s.member? ended m).isNone).isEmpty then
        .decided (s.staged (s.requests ended)) s.failFastChecks
      else .missing ((s.failFastChecks.flatMap s.checkedMembers).filter fun m => (s.member? ended m).isNone) := by
  have hbel : s.markBelow = fun marks id => (s.ownerRequests id).foldl (fun marks req => s.stageMark marks req.1 req.2) marks := by
    funext marks id
    unfold markBelow ownerRequests
    cases s.task? id with
    | none => rfl
    | some own => simp only [foldl_map, foldl_filter]
  have hmems : s.markMembers ended =
      fun marks wt => (s.waitRequests ended wt).foldl (fun marks req => s.stageMark marks req.1 req.2) marks := by
    funext marks wt
    unfold markMembers waitRequests
    dsimp only
    split
    · simp only [foldl_map, foldl_filter]
    · rfl
  unfold planMarks
  rw [hbel, hmems, staged, requests, foldl_append, foldl_flatMap, foldl_flatMap]

/-! ## The requests are what the records imply -/

/-- What a pass knows of ended members is what is stored of them. -/
def Reads (t : Tables V) (ended : TaskId → Option (Option (AnyTaskRecord V))) : Prop :=
  ∀ id found, ended id = some found → found = Assoc.get? t.tasks id

theorem member?_reads (h : Holds s t) {ended : TaskId → Option (Option (AnyTaskRecord V))} (hread : Reads t ended)
    (hkn : (s.member? ended id).isSome) : (s.member? ended id).join = Assoc.get? t.tasks id := by
  unfold member? at hkn ⊢
  cases htask : s.task? id with
  | some record => exact ((h.live id record).mp htask).1.symm
  | none =>
    rw [htask, map_none, none_or] at hkn
    obtain ⟨fnd, hfnd⟩ := isSome_iff_exists.mp hkn
    rw [map_none, none_or, hfnd, hread id fnd hfnd]
    rfl

theorem checkedMembers_waiting (h : Holds s t) {wt : TaskId} {record : AnyTaskRecord V} {cp : V} {on : List TaskId}
    {policy : JoinPolicy} (hrec : Assoc.get? t.tasks wt = some record) (hst : record.state = .waiting cp on policy) :
    s.checkedMembers wt = on := by
  have hlive : record.isLive = true := by
    rw [AnyTaskRecord.isLive, hst]
    rfl
  unfold checkedMembers
  rw [(h.live wt record).mpr ⟨hrec, hlive⟩]
  dsimp only
  rw [hst]

/-- Only a wait has members to check. -/
theorem waiting_of_checked (h : Holds s t) {wt m : TaskId} (hm : m ∈ s.checkedMembers wt) :
    ∃ record cp on policy, Assoc.get? t.tasks wt = some record ∧ record.state = .waiting cp on policy := by
  unfold checkedMembers at hm
  cases htask : s.task? wt with
  | none =>
    rw [htask] at hm
    cases hm
  | some record =>
    rw [htask] at hm
    dsimp only at hm
    cases hst : record.state with
    | waiting cp on policy => exact ⟨record, cp, on, policy, ((h.live wt record).mp htask).1, hst⟩
    | _ =>
      rw [hst] at hm
      cases hm

variable {record : AnyTaskRecord V} {ended : TaskId → Option (Option (AnyTaskRecord V))}

/-- The walks down ask for what cascades. -/
theorem mem_ownerRequests (h : Mirrors s t) (hr : t.Ranked) (hrec : s.task? id = some record) (hload : Loaded s (.task id))
    {rsn : Option AbortReason} : (id, rsn) ∈ s.intent.flatMap s.ownerRequests ↔ t.Cascades id rsn := by
  have hsto := ((h.live id record).mp hrec).1
  rw [mem_flatMap]
  constructor
  · rintro ⟨own, hown, hreq⟩
    obtain ⟨fnd, hfnd, hcanc⟩ := (h.intent own).mp hown
    rw [ownerRequests, hfnd] at hreq
    obtain ⟨visit, hvisit, heq⟩ := mem_map.mp hreq
    cases heq
    rw [mem_filter, and_eq_true, not_eq_true'] at hvisit
    obtain ⟨hin, -, hfore⟩ := hvisit
    have hunder := (h.mem_walkDown hr hload hrec).mp ⟨visit, hin, rfl⟩
    have hnode := (visit_eq hin).1
    rw [node?_none, hrec] at hnode
    have hflds : record.toTaskNode = visit.node := some.inj hnode
    refine ⟨own, fnd, record, ⟨h.mem_intent.mp hown, hunder⟩, ((h.live own fnd).mp hfnd).1, hsto, ?_, rfl⟩
    rw [← hfore, ← hflds]
  · rintro ⟨own, fnd, task, ⟨hcanc, hunder⟩, hfnd, htask, hfore, rfl⟩
    rw [hsto] at htask
    cases htask
    have hin := h.mem_intent.mpr hcanc
    obtain ⟨same, hsame, -⟩ := (h.intent own).mp hin
    have hsto' := ((h.live own same).mp hsame).1
    rw [hfnd] at hsto'
    cases hsto'
    refine ⟨own, hin, ?_⟩
    rw [ownerRequests, hsame]
    obtain ⟨visit, hvisit, rfl⟩ := (h.mem_walkDown hr hload hrec).mpr hunder
    obtain ⟨hnode, hlive⟩ := visit_eq hvisit
    rw [node?_none, hrec] at hnode
    have hflds : record.toTaskNode = visit.node := some.inj hnode
    refine mem_map.mpr ⟨visit, mem_filter.mpr ⟨hvisit, ?_⟩, rfl⟩
    rw [hlive, ← hflds, hfore]
    have hrec' : (get? (Overlay.none : Overlay V).tasks visit.id).or (s.task? visit.id) = some record := hrec
    rw [hrec', filter_some_pos ((h.live visit.id record).mp hrec).2]
    rfl

/-- The checked waits ask for what failed waits imply. -/
theorem mem_waitRequests (h : Holds s t) (hread : Reads t ended) (hrec : s.task? id = some record)
    (hkn : ∀ wt ∈ s.failFastChecks, ∀ m ∈ s.checkedMembers wt, (s.member? ended m).isSome) {rsn : Option AbortReason} :
    (id, rsn) ∈ s.failFastChecks.flatMap (s.waitRequests ended) ↔ rsn = none ∧ t.FailFast s.failFastChecks id := by
  have hsto := ((h.live id record).mp hrec).1
  have hfails (wt : TaskId) (hwaiter : wt ∈ s.failFastChecks) (m : TaskId) (hm : m ∈ s.checkedMembers wt) :
      (s.member? ended m).join.any failedOutcome = true ↔ ∃ member, get? t.tasks m = some member ∧ failedOutcome member = true := by
    rw [member?_reads h hread (hkn wt hwaiter m hm), Option.any_eq_true]
  rw [mem_flatMap]
  constructor
  · rintro ⟨wt, hwaiter, hreq⟩
    unfold waitRequests at hreq
    split at hreq
    · rename_i hany
      obtain ⟨m, hm, heq⟩ := mem_map.mp hreq
      cases heq
      rw [mem_filter, hrec] at hm
      obtain ⟨wait, cp, on, policy, hwait, hst⟩ := waiting_of_checked h hm.1
      have hon := checkedMembers_waiting h hwait hst
      obtain ⟨fd, hfail, hany⟩ := any_eq_true.mp hany
      refine ⟨rfl, wt, hwaiter, wait, cp, on, policy, hwait, hst, hon ▸ hm.1, fun task htask => ?_, fd, hon ▸ hfail,
        (hfails wt hwaiter fd hfail).mp hany⟩
      rw [hsto] at htask
      simpa [some.inj htask] using hm.2
    · cases hreq
  · rintro ⟨rfl, wt, hwaiter, wait, cp, on, policy, hwait, hst, hm, hunf, fd, hfail, hmember⟩
    have hon := checkedMembers_waiting h hwait hst
    subst hon
    refine ⟨wt, hwaiter, ?_⟩
    unfold waitRequests
    rw [if_pos (any_eq_true.mpr ⟨fd, hfail, (hfails wt hwaiter fd hfail).mpr hmember⟩)]
    refine mem_map.mpr ⟨id, mem_filter.mpr ⟨hm, ?_⟩, rfl⟩
    rw [hrec]
    simp [hunf record hsto]

/-- **The marks of a decided pass** are the ones the records imply. -/
theorem staged_implies (h : Mirrors s t) (hr : t.Ranked) (hload : ChainsLoaded s) (hread : Reads t ended)
    (hkn : ∀ wt ∈ s.failFastChecks, ∀ m ∈ s.checkedMembers wt, (s.member? ended m).isSome) (id : TaskId) (mark : Mark V) :
    Assoc.get? (s.staged (s.requests ended)) id = some mark ↔ t.Implies s.failFastChecks id mark.record mark.reason := by
  have hmem (rsn : Option AbortReason) (hrec : s.task? id = some mark.record) :
      (id, rsn) ∈ s.requests ended ↔ t.Cascades id rsn ∨ rsn = none ∧ t.FailFast s.failFastChecks id := by
    rw [requests, mem_append, mem_ownerRequests h hr hrec (hload id mark.record hrec), mem_waitRequests h.toHolds hread hrec hkn]
  rw [get?_staged, Tables.Implies]
  refine Iff.trans ?_ and_assoc
  rw [← h.live]
  refine and_congr_right fun hrec => ?_
  rw [hmem none hrec, hmem (some .restart) hrec]
  constructor
  · rintro (⟨hreason, hreq, hask⟩ | ⟨hreason, hrestart, hnot, hunmarked⟩)
    · refine .inl ⟨hreason, ?_, hask⟩
      obtain hcascade | ⟨-, hwait⟩ := hreq
      · exact .inr hcascade
      · exact .inl hwait
    · obtain hcascade | ⟨hnone, -⟩ := hrestart
      · exact .inr ⟨hreason, hcascade, fun hwait => hnot (.inr ⟨rfl, hwait⟩), hunmarked⟩
      · cases hnone
  · rintro (⟨hreason, hreq, hask⟩ | ⟨hreason, hrestart, hnot, hunmarked⟩)
    · refine .inl ⟨hreason, ?_, hask⟩
      obtain hwait | hcascade := hreq
      · exact .inr ⟨rfl, hwait⟩
      · exact .inl hcascade
    · refine .inr ⟨hreason, .inl hrestart, ?_, hunmarked⟩
      rintro (hcascade | ⟨-, hwait⟩)
      · cases hcascade.unique hrestart
      · exact hnot hwait

/-- **A pass decides**, reading the members it misses once, and marks what the records imply. -/
theorem marks_implies (h : Mirrors s t) (hr : t.Ranked) (hload : ChainsLoaded s) (turns : Nat) :
    ∃ marks, s.marks t (turns + 1) (fun _ => none) = .decided marks s.failFastChecks ∧ (marks.map Prod.fst).Nodup ∧
      ∀ id mark, Assoc.get? marks id = some mark ↔ t.Implies s.failFastChecks id mark.record mark.reason := by
  have hdecided (ended : TaskId → Option (Option (AnyTaskRecord V))) (hread : Reads t ended)
      (hnone : ((s.failFastChecks.flatMap s.checkedMembers).filter fun m => (s.member? ended m).isNone).isEmpty = true) (turns : Nat) :
      s.marks t turns ended = .decided (s.staged (s.requests ended)) s.failFastChecks ∧
        ∀ id mark, get? (s.staged (s.requests ended)) id = some mark ↔ t.Implies s.failFastChecks id mark.record mark.reason := by
    constructor
    · cases turns <;> simp only [marks, planMarks_eq, if_pos hnone]
    · refine staged_implies h hr hload hread fun wt hwaiter m hm => ?_
      rw [List.isEmpty_iff, List.filter_eq_nil_iff] at hnone
      simpa [isSome_iff_ne_none] using hnone m (mem_flatMap.mpr ⟨wt, hwaiter, hm⟩)
  by_cases hnone : ((s.failFastChecks.flatMap s.checkedMembers).filter fun m => (s.member? (fun _ => none) m).isNone).isEmpty = true
  · have hdone := hdecided _ (by intro id fnd hfnd; cases hfnd) hnone (turns + 1)
    exact ⟨_, hdone.1, nodup_staged _, hdone.2⟩
  · -- The members it misses are read, and none is missing then.
    generalize hids : (s.failFastChecks.flatMap s.checkedMembers).filter (fun m => (s.member? (fun _ => none) m).isNone) = ids at hnone
    let read : TaskId → Option (Option (AnyTaskRecord V)) := fun id => if id ∈ ids then some (get? t.tasks id) else none
    have hread : Reads t read := by
      intro id fnd hfnd
      simp only [read] at hfnd
      split at hfnd
      · exact (some.inj hfnd).symm
      · cases hfnd
    have hfull : ((s.failFastChecks.flatMap s.checkedMembers).filter fun m => (s.member? read m).isNone).isEmpty = true := by
      rw [List.isEmpty_iff, List.filter_eq_nil_iff]
      intro m hm hmiss
      have hmem : m ∈ ids := by
        rw [← hids]
        refine mem_filter.mpr ⟨hm, ?_⟩
        rw [isNone_iff_eq_none] at hmiss ⊢
        rw [member?, or_eq_none_iff] at hmiss ⊢
        exact ⟨hmiss.1, rfl⟩
      rw [member?, isNone_iff_eq_none, or_eq_none_iff] at hmiss
      simp [read, hmem] at hmiss
    refine ⟨s.staged (s.requests read), ?_, nodup_staged _, (hdecided read hread hfull turns).2⟩
    rw [marks, planMarks_eq, hids, if_neg hnone]
    exact (hdecided read hread hfull turns).1

end TaskScheduler

end PiBridge.Durable
