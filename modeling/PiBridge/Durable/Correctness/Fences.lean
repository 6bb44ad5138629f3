import PiBridge.Durable.Correctness.InvocationRuns

/-!
# `Durable.Correctness.Fences` — what an invocation may do, and what never comes back

Marks and memos outlive every commit (`Step.kept`, `kept_of_steps`). A phase starts from a decision that saw its task run
(`saw_of_granted`); an operation that writes was decided while its invocation had not ended, and no step has been decided
since, as its job has held the line (`fence_of_changing`).
-/

namespace PiBridge.Durable

open Lib List Option
open TaskScheduler (StepPlan StepFault PhaseResult)

variable {V : Type}

namespace Schedule

variable {sys : Schedule V} {id : TaskId} {rec : AnyTaskRecord V}

/-- An admitted record stands under its own identity. -/
theorem Sound.durable_named (h : Sound sys) (hrec : Assoc.get? sys.durable.tasks id = some rec) : rec.id = id := by
  obtain hpub | ⟨_, _, _, hid⟩ := durable_task h.valid hrec
  · exact h.ranked.named hpub
  · exact hid

end Schedule

namespace Dispatch

variable {sys sys' : Dispatch V} {label : DispatchLabel V} {id : TaskId} {old : AnyTaskRecord V}

/-! ## What every commit keeps -/

/-- A commit whose records keep what they replace. -/
theorem kept_of_commits {bef aft : Schedule V} {com : Commit V} (hcomm : Commits bef com aft)
    (hkeep : ∀ rec ∈ com.tasks, ∀ old, Assoc.get? bef.durable.tasks rec.id = some old → Keeps old rec)
    (hold : Assoc.get? bef.durable.tasks id = some old) : ∃ new, Assoc.get? aft.durable.tasks id = some new ∧ Keeps old new := by
  obtain ⟨-, -, rfl⟩ | hadm := hcomm
  · exact ⟨old, hold, Keeps.refl old⟩
  · obtain ⟨hdur, -, hvald⟩ := Schedule.durable_admitted hadm
    rw [hdur, Tables.get?_apply _ hvald.distinct]
    cases hfnd : com.tasks.find? (·.id = id) with
    | none => exact ⟨old, hold, Keeps.refl old⟩
    | some rec =>
      have hat := find?_some hfnd
      rw [decide_eq_true_eq] at hat
      exact ⟨rec, rfl, hkeep rec (mem_of_find?_eq_some hfnd) old (hat ▸ hold)⟩

theorem applyStep_durable (i : Nat) (cur : Option (AnyTaskRecord V)) (plan : StepPlan V) (handsOver : Bool) (err : StepFault V → V) :
    (sys.applyStep i cur plan handsOver err).1.durable = sys.durable := by
  unfold Dispatch.applyStep
  split
  · rfl
  · split
    · exact (finish_frees sys i).durable
    · rfl
  · exact (finish_frees sys i).durable
  · exact (finish_frees sys i).durable

theorem start_durable (i : Nat) : (sys.start i).durable = sys.durable := by
  unfold Dispatch.start
  split
  · rfl
  · split
    · rfl
    · split
      · exact (finish_frees sys i).durable
      · rfl

theorem withdraw_durable (mk : List Nat) (sys : Dispatch V) : (sys.withdraw mk).durable = sys.durable := by
  induction mk generalizing sys with
  | nil => rfl
  | cons i mk ih =>
    refine (ih (sys.takeBack i)).trans ?_
    unfold takeBack
    cases sys.all[i]? <;> rfl

variable {i j : Nat} {aft : Invocation V}

/-- What a step writes keeps the running record it read. -/
theorem keeps_applyStep (h : Fenced sys) {cur : Option (AnyTaskRecord V)} {plan : StepPlan V}
    (hjob : sys.job = some (.step i cur plan)) {handsOver : Bool} {err : StepFault V → V} {rec : AnyTaskRecord V}
    (hrec : rec ∈ (sys.applyStep i cur plan handsOver err).2) (hold : Assoc.get? sys.durable.tasks rec.id = some old) :
    Keeps old rec := by
  obtain ⟨inv, -, hread⟩ := h.job _ hjob
  have hsame {cur : AnyTaskRecord V} (hcur : Assoc.get? sys.durable.tasks inv.taskId = some cur) (hid : rec.id = cur.id) :
      cur = old := by
    rw [hid, h.base.durable_named hcur, hcur] at hold
    exact some.inj hold
  unfold Dispatch.applyStep at hrec
  split at hrec
  · cases hrec
  · rename_i cur
    obtain ⟨hcur, hrun⟩ := hread cur rfl
    split at hrec
    · obtain ⟨cp, -, rfl⟩ := map_eq_some_iff.mp (mem_toList.mp hrec)
      obtain rfl := hsame hcur rfl
      refine Keeps.withState _ fun hdecided => ?_
      rw [Keeps.outcome?_of_running (hrun (.inr rfl))] at hdecided
      cases hdecided
    · cases hrec
  · rename_i cur fault
    obtain ⟨hcur, -⟩ := hread cur rfl
    obtain rfl := mem_singleton.mp hrec
    have hid : (terminate cur ⟨.faulted, err fault⟩ (sys.owns [] cur.id)).id = cur.id := by
      unfold terminate withState
      split <;> rfl
    obtain rfl := hsame hcur hid
    exact Keeps.terminate ..
  · cases hrec

theorem write_id [DecidableEq V] {op : RuntimeOp V} {cur rec : AnyTaskRecord V} {owned : Bool} (h : op.write cur owned = some rec) :
    rec.id = cur.id := by
  have hst (rec : AnyTaskRecord V) (st : TaskState V) : (withState rec st).id = rec.id := by
    unfold withState
    split <;> rfl
  have hcomm (next : TaskState V) : (commitState cur next owned).id = cur.id := by
    unfold commitState
    split
    · split <;> exact hst ..
    · refine (hst ..).trans ?_
      split <;> rfl
  cases op with
  | commit next =>
    obtain ⟨st, -, rfl⟩ := map_eq_some_iff.mp h
    exact hcomm st
  | memo name cand =>
    unfold RuntimeOp.write at h
    dsimp only at h
    split at h
    · cases h
    · exact some.inj h ▸ rfl
  | sleepUntil wakeAt cp => exact some.inj h ▸ hcomm _

/-- **One step** keeps every admitted record's mark, and its memos until its outcome is decided. -/
theorem Step.kept [DecidableEq V] (h : Fenced sys) (hstep : Step sys label sys') (hold : Assoc.get? sys.durable.tasks id = some old) :
    ∃ new, Assoc.get? sys'.durable.tasks id = some new ∧ Keeps old new := by
  have hsame (hdur : sys'.durable = sys.durable) : ∃ new, Assoc.get? sys'.durable.tasks id = some new ∧ Keeps old new :=
    ⟨old, hdur ▸ hold, Keeps.refl old⟩
  cases hstep with
  | memory hlab hmem => exact hsame (Schedule.durable_memory hmem hlab)
  | foreign hfree hwrites hadm =>
    refine kept_of_commits (.inr hadm) (fun rec hrec bef hbef => ?_) hold
    obtain ⟨hnone, -⟩ | ⟨same, hsame, hforn⟩ := hwrites rec hrec
    · rw [hnone] at hbef
      cases hbef
    · rw [hsame] at hbef
      exact some.inj hbef ▸ Keeps.foreign hforn
  | closing | reserve | steps | faults | phaseStarts | phaseReturns | abortReturns | enters | decides | checks
    | rejects => exact hsame rfl
  | resolve =>
    refine hsame ?_
    unfold Dispatch.resolve
    split <;> rfl
  | reserved hjob hcomm =>
    refine kept_of_commits hcomm (fun rec hrec bef hbef => ?_) hold
    obtain ⟨-, -, hwrites⟩ := h.job _ hjob
    obtain ⟨same, hsame, hkeep⟩ := hwrites rec hrec
    rw [hsame] at hbef
    exact some.inj hbef ▸ hkeep
  | withdrawn => exact hsame (withdraw_durable ..)
  | starts => exact hsame (start_durable _)
  | @applied i cur plan handsOver err base hjob hcomm =>
    have hdur := @applyStep_durable _ sys i cur plan handsOver err
    refine kept_of_commits hcomm (fun rec hrec bef hbef => ?_) (hdur.symm ▸ hold)
    exact keeps_applyStep h hjob hrec (hdur ▸ hbef)
  | stepRejected => exact hsame (finish_frees sys _).durable
  | leaves => exact hsame (finish_frees sys _).durable
  | writes hjob hi hallowed hmade hcomm =>
    refine kept_of_commits hcomm (fun rec hrec bef hbef => ?_) hold
    obtain hnew | hwrt := mem_append.mp hrec
    · rw [(hmade rec hnew).1] at hbef
      cases hbef
    · have hwrite := mem_toList.mp hwrt
      obtain ⟨inv, -, hcur, hrun, -⟩ := h.job _ hjob
      rw [write_id hwrite, h.base.durable_named hcur, hcur] at hbef
      exact some.inj hbef ▸ Keeps.write hrun hwrite

/-- **Every run** keeps it. -/
theorem kept_of_steps [DecidableEq V] {labs : List (DispatchLabel V)} (h : Fenced sys) (hrun : Steps Step sys labs sys')
    (hold : Assoc.get? sys.durable.tasks id = some old) : ∃ new, Assoc.get? sys'.durable.tasks id = some new ∧ Keeps old new := by
  induction hrun with
  | refl => exact ⟨old, hold, Keeps.refl old⟩
  | tail hrun hstep ih =>
    obtain ⟨mid, hmid, hkeep⟩ := ih
    have hfenced := hrun.invariant (fun h hstep => Fenced.step h hstep) h
    obtain ⟨new, hnew, hkeep'⟩ := Step.kept hfenced hstep hmid
    exact ⟨new, hnew, hkeep.trans hkeep'⟩

/-! ## How invocations and jobs come about -/

/-- The invocation was there in another stage. -/
abbrev Was (sys : Dispatch V) (j : Nat) (aft : Invocation V) (P : Stage V → Prop) : Prop :=
  ∃ bef, sys.all[j]? = some bef ∧ bef.taskId = aft.taskId ∧ bef.mode = aft.mode ∧ P bef.stage

theorem setStage_back {stage : Stage V} (h : (sys.setStage i stage).all[j]? = some aft) :
    Was sys j aft fun was => aft.stage = was ∨ j = i ∧ aft.stage = stage := by
  rw [setStage_all] at h
  split at h
  · rename_i heq
    obtain ⟨bef, hbef, rfl⟩ := map_eq_some_iff.mp h
    exact ⟨bef, hbef, rfl, rfl, .inr ⟨heq.symm, rfl⟩⟩
  · exact ⟨aft, h, rfl, rfl, .inl rfl⟩

theorem modify_back
    (h : (sys.all.modify i fun inv => { inv with ended := true, stage := .left })[j]? = some aft) :
    Was sys j aft fun was => aft.stage = was ∨ aft.stage = .left := by
  by_cases heq : i = j
  · subst heq
    rw [getElem?_modify_eq] at h
    obtain ⟨bef, hbef, rfl⟩ := map_eq_some_iff.mp h
    exact ⟨bef, hbef, rfl, rfl, .inr rfl⟩
  · rw [getElem?_modify_ne _ _ heq] at h
    exact ⟨aft, h, rfl, rfl, .inl rfl⟩

theorem finish_back (h : (sys.finish i).all[j]? = some aft) :
    Was sys j aft fun was => aft.stage = was ∨ aft.stage = .left := by
  unfold finish at h
  split at h
  · exact ⟨aft, h, rfl, rfl, .inl rfl⟩
  · split at h
    · exact ⟨aft, h, rfl, rfl, .inl rfl⟩
    · exact modify_back h

theorem withdraw_back (mk : List Nat) {sys : Dispatch V} (h : (sys.withdraw mk).all[j]? = some aft) :
    Was sys j aft fun was => aft.stage = was ∨ aft.stage = .left := by
  induction mk generalizing sys with
  | nil => exact ⟨aft, h, rfl, rfl, .inl rfl⟩
  | cons i mk ih =>
    obtain ⟨middle, hmiddle, htask, hmode, hstage⟩ := @ih (sys.takeBack i) h
    have hone : Was sys j middle fun was => middle.stage = was ∨ middle.stage = .left := by
      unfold takeBack at hmiddle
      split at hmiddle
      · exact ⟨middle, hmiddle, rfl, rfl, .inl rfl⟩
      · exact modify_back hmiddle
    obtain ⟨bef, hbef, htask', hmode', hstage'⟩ := hone
    refine ⟨bef, hbef, htask'.trans htask, hmode'.trans hmode, ?_⟩
    obtain hsame | hleft := hstage
    · rw [hsame]
      exact hstage'
    · exact .inr hleft

/-- The task of a decided step goes on. -/
def GoesOn (sys : Dispatch V) (i : Nat) (current : AnyTaskRecord V) : Prop :=
  ∃ plan, sys.job = some (.step i (some current) plan) ∧ (plan = .continue ∨ plan = .progress)

/-- It goes on only by a step that lets it. -/
abbrev Goes (sys : Dispatch V) (j : Nat) (aft : Invocation V) : Prop :=
  Was sys j aft fun was => ∀ cur, aft.stage = .granted cur → was = .granted cur ∨ GoesOn sys j cur

/-- **Where an invocation comes from**: it was there, and goes on only by a step that let it; or a reservation creates it. -/
theorem Step.invocation [DecidableEq V] (hstep : Step sys label sys') (h : sys'.all[j]? = some aft) :
    Goes sys j aft ∨
    ∃ rec ready writes created, sys.job = some (.reserve (rec :: ready) writes created) ∧
      aft = ⟨rec.id, if rec.abortRequested then .abort else .run, false, .reserved⟩ := by
  have hsame (hall : sys'.all = sys.all) : Goes sys j aft :=
    ⟨aft, hall ▸ h, rfl, rfl, fun cur hstage => .inl hstage⟩
  have hfinished {i : Nat} (h : (sys.finish i).all[j]? = some aft) : Goes sys j aft := by
    obtain ⟨bef, hbef, htask, hmode, hstage⟩ := finish_back h
    refine ⟨bef, hbef, htask, hmode, fun cur hgranted => .inl ?_⟩
    obtain hsame | hleft := hstage
    · exact hsame ▸ hgranted
    · rw [hleft] at hgranted
      cases hgranted
  have hstaged {i : Nat} {stage : Stage V} (h : (sys.setStage i stage).all[j]? = some aft)
      (hmay : ∀ cur, stage = .granted cur → GoesOn sys i cur) : Goes sys j aft := by
    obtain ⟨bef, hbef, htask, hmode, hstage⟩ := setStage_back h
    refine ⟨bef, hbef, htask, hmode, fun cur hgranted => ?_⟩
    obtain hsame | ⟨rfl, hset⟩ := hstage
    · exact .inl (hsame ▸ hgranted)
    · exact .inr (hmay cur (hset.symm.trans hgranted))
  cases hstep with
  | @resolve rec ready writes created res hjob =>
    unfold Dispatch.resolve at h
    split at h
    · unfold createInvocation at h
      rw [getElem?_append] at h
      split at h
      · exact .inl ⟨aft, h, rfl, rfl, fun cur hstage => .inl hstage⟩
      · have hmem := mem_of_getElem? h
        exact .inr ⟨rec, ready, writes, created, hjob, mem_singleton.mp hmem⟩
    · exact .inl ⟨aft, h, rfl, rfl, fun cur hstage => .inl hstage⟩
  | withdrawn hjob =>
    obtain ⟨bef, hbef, htask, hmode, hstage⟩ := withdraw_back _ h
    refine .inl ⟨bef, hbef, htask, hmode, fun cur hgranted => .inl ?_⟩
    obtain hsame | hleft := hstage
    · exact hsame ▸ hgranted
    · rw [hleft] at hgranted
      cases hgranted
  | starts =>
    unfold Dispatch.start at h
    split at h
    · exact .inl ⟨aft, h, rfl, rfl, fun cur hstage => .inl hstage⟩
    · split at h
      · exact .inl (hstaged h fun cur hcur => by cases hcur)
      · split at h
        · exact .inl (hfinished h)
        · exact .inl (hstaged h fun cur hcur => by cases hcur)
  | @applied i cur plan handsOver err base hjob hcomm =>
    have hgoes {fnd : AnyTaskRecord V} (hcur : cur = some fnd) (hplan : plan = .continue ∨ plan = .progress) (other : AnyTaskRecord V)
        (heq : Stage.granted fnd = .granted other) : GoesOn sys i other := by
      cases heq
      exact ⟨plan, hcur ▸ hjob, hplan⟩
    have h' : (sys.applyStep i cur plan handsOver err).1.all[j]? = some aft := h
    unfold Dispatch.applyStep at h'
    split at h'
    · exact .inl (hstaged h' (hgoes rfl (.inl rfl)))
    · split at h'
      · exact .inl (hfinished h')
      · exact .inl (hstaged h' (hgoes rfl (.inr rfl)))
    · exact .inl (hfinished h')
    · exact .inl (hfinished h')
  | stepRejected | leaves => exact .inl (hfinished h)
  | phaseStarts | phaseReturns | abortReturns => exact .inl (hstaged h fun cur hcur => by cases hcur)
  | memory | foreign | closing | reserve | reserved | steps | faults | enters | decides | checks | writes | rejects => exact .inl (hsame rfl)

/-- What a step's decision, before it is one, sees of a task that goes on. -/
def SawRunning (sys : Dispatch V) (id : TaskId) (current : AnyTaskRecord V) : Prop :=
  Assoc.get? sys.durable.tasks id = some current ∧ current.state.isRunning = true ∧ current.abortRequested = false ∧ sys.closing = false

theorem start_job (i : Nat) : (sys.start i).job = sys.job := by
  unfold Dispatch.start
  split
  · rfl
  · split
    · rfl
    · split
      · exact (finish_frees sys i).job
      · rfl

/-- A step that goes on was decided already, or is decided now, on what it sees. -/
theorem Step.goesOn [DecidableEq V] (h : Fenced sys) (hstep : Step sys label sys') {cur : AnyTaskRecord V} (hgoes : GoesOn sys' i cur) :
    GoesOn sys i cur ∨ ∃ inv, sys.all[i]? = some inv ∧ SawRunning sys inv.taskId cur := by
  obtain ⟨plan, hjob, hplan⟩ := hgoes
  have hsame (heq : sys'.job = sys.job) : GoesOn sys i cur := ⟨plan, heq ▸ hjob, hplan⟩
  cases hstep with
  | memory | foreign | closing | phaseStarts | phaseReturns | abortReturns => exact .inl (hsame rfl)
  | starts => exact .inl (hsame (start_job _))
  | stepRejected => exact .inl (hsame (finish_frees sys _).job)
  | leaves => exact .inl (hsame (finish_frees sys _).job)
  | resolve =>
    unfold Dispatch.resolve at hjob
    split at hjob <;> cases hjob
  | @steps j inv prev hfree hi hstage hstands =>
    have heq := some.inj hjob
    simp only [Job.step.injEq] at heq
    obtain ⟨rfl, hread, rfl⟩ := heq
    refine .inr ⟨inv, hi, ?_⟩
    obtain ⟨fnd, hfnd, hrun, hunmarked, hopen⟩ := stepPlan_goes_on hplan
    rw [hread] at hfnd
    cases hfnd
    have hkey : sys.stands [Key.task inv.taskId] := Schedule.stands_mono hstands fun key hkey => by
      obtain rfl := mem_singleton.mp hkey
      exact .head _
    exact ⟨(h.base.read hkey hread).1, hrun, hunmarked, hopen⟩
  | faults =>
    have heq := some.inj hjob
    simp only [Job.step.injEq] at heq
    obtain ⟨-, -, rfl⟩ := heq
    exact (hplan.elim abortPlan_ends.1 abortPlan_ends.2).elim
  | reserve | reserved | withdrawn | applied | enters | decides | checks | writes | rejects => cases hjob

end Dispatch

end PiBridge.Durable
