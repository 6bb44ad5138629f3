import PiBridge.Durable.Correctness.Cascades
import PiBridge.Durable.Invocations

/-!
# `Durable.Correctness.InvocationRuns` — what holds of invocations all along

A job holds the line from its decision to its commit, so what its decision region saw of a task is still the task's
admitted record when it writes (`Dispatch.Sound.job`). Whatever a job makes of a record, a mark stays, and what is memoized
stays until the outcome is decided (`Keeps`). An invocation that has not ended is the one its task has.
-/

namespace PiBridge.Durable

open Lib List Option Assoc Function TaskScheduler
open TaskScheduler (StepPlan StepFault)

variable {V : Type}

namespace Schedule

variable {sys sys' : Schedule V} {label : SchedulerLabel V} {id : TaskId} {record : AnyTaskRecord V}

/-! ## What is admitted -/

theorem durable_admitted {com : Commit V} (h : Step sys (.admitted com) sys') :
    sys'.durable = sys.durable.apply com ∧ sys'.mem = sys.mem ∧ com.Valid sys.durable := by
  cases h with
  | admitted hvald hreadable => exact ⟨by simp [durable, foldl_append], rfl, hvald⟩

theorem durable_memory (h : Step sys label sys') (hlab : ∀ com, label ≠ .admitted com) : sys'.durable = sys.durable := by
  cases h with
  | admitted => exact absurd rfl (hlab _)
  | published hpend => simp [durable, hpend]
  | load | loaded | unpin | sweep | candidates => rfl

/-- While nothing pending writes a task, what is published of it is what is admitted. -/
theorem Sound.durable_eq (h : Sound sys) (hstands : sys.stands [Key.task id]) :
    Assoc.get? sys.durable.tasks id = Assoc.get? sys.published.tasks id := by
  have hunwritten : ∀ admitted ∈ sys.pending, ∀ record ∈ admitted.commit.tasks, record.id ≠ id := by
    intro admitted hadm record hrec heq
    exact hstands _ (.head _) admitted hadm (heq ▸ (h.registered admitted hadm).written record hrec)
  have hfold : ∀ (pending : List (Admitted V)) (t : Tables V), ValidFrom t pending →
      (∀ admitted ∈ pending, ∀ record ∈ admitted.commit.tasks, record.id ≠ id) →
      get? (pending.foldl (fun tbls admitted => tbls.apply admitted.commit) t).tasks id = get? t.tasks id := by
    intro pending
    induction pending with
    | nil => exact fun _ _ _ => rfl
    | cons admitted rest ih =>
      intro t hvald hne
      rw [foldl_cons, ih _ hvald.2 fun later hlat => hne later (.tail _ hlat)]
      exact Tables.get?_apply_ne hvald.1.distinct (hne admitted (.head _))
  exact hfold sys.pending sys.published h.valid hunwritten

/-- A live task's record, read by a decision that stands, is the admitted one. -/
theorem Sound.read (h : Sound sys) (hstands : sys.stands [Key.task id]) (hrec : sys.mem.task? id = some record) :
    Assoc.get? sys.durable.tasks id = some record ∧ record.isLive = true := by
  rw [h.durable_eq hstands]
  exact (h.mirrors.live id record).mp hrec

theorem stands_mono {keys keys' : List Key} (h : sys.stands keys) (hsub : ∀ key ∈ keys', key ∈ keys) : sys.stands keys' :=
  fun key hkey => h key (hsub key hkey)

end Schedule

/-! ## What is kept of a record -/

/-- A mark stays; an outcome stays decided; until then every memo keeps its value. -/
structure Keeps (old new : AnyTaskRecord V) : Prop where
  marked : old.abortRequested = true → new.abortRequested = true
  decided : old.state.outcome?.isSome = true → new.state.outcome?.isSome = true
  memos : new.state.outcome? = none → ∀ name value, Assoc.get? old.memos name = some value → Assoc.get? new.memos name = some value

namespace Keeps

variable {old mid new record current : AnyTaskRecord V}

section

variable (record)

theorem refl : Keeps record record := ⟨id, id, fun _ _ _ h => h⟩

theorem trans (h : Keeps old mid) (h' : Keeps mid new) : Keeps old new where
  marked hmark := h'.marked (h.marked hmark)
  decided hdecided := h'.decided (h.decided hdecided)
  memos hnone name value hval := by
    have hmid : mid.state.outcome? = none := by
      cases houtcome : mid.state.outcome? with
      | none => rfl
      | some outcome =>
        have hdecided := h'.decided (by rw [houtcome]; rfl)
        rw [hnone] at hdecided
        cases hdecided
    exact h'.memos hnone name value (h.memos hmid name value hval)

theorem withAbortMark (reason : Option AbortReason) : Keeps record (withAbortMark record reason) :=
  ⟨fun _ => rfl, id, fun _ _ _ h => h⟩

theorem withState {state : TaskState V} (hdecided : record.state.outcome?.isSome = true → state.outcome?.isSome = true) :
    Keeps record (withState record state) := by
  unfold Durable.withState
  cases houtcome : state.outcome? with
  | none =>
    rw [houtcome] at hdecided
    refine ⟨id, fun h => ?_, fun _ _ _ h => h⟩
    cases hdecided h
  | some outcome =>
    refine ⟨id, fun _ => ?_, fun hnone => ?_⟩
    · show state.outcome?.isSome = true
      rw [houtcome]
      rfl
    · have hnone' : state.outcome? = none := hnone
      rw [houtcome] at hnone'
      cases hnone'

theorem progressed : Keeps record (progressed record) := ⟨id, id, fun _ _ _ h => h⟩

theorem terminate (outcome : TaskOutcome V) (owned : Bool) : Keeps record (terminate record outcome owned) := by
  refine withState record fun _ => ?_
  cases owned <;> rfl

end

/-- Whatever the other jobs make of a record. -/
theorem foreign {closing : Bool} (h : Foreign closing old record) : Keeps old record := by
  induction h with
  | same => exact refl old
  | marked reason _ ih => exact ih.trans (withAbortMark _ reason)
  | ended outcome owned _ ih => exact ih.trans (terminate _ outcome owned)
  | stopped _ _ hrun ih =>
    refine ih.trans (withState _ fun hdecided => ?_)
    rw [hrun] at hdecided
    cases hdecided

theorem outcome?_of_running (h : current.state.isRunning = true) : current.state.outcome? = none := by
  cases hst : current.state with
  | running => rfl
  | _ => rw [hst] at h; cases h

theorem write [DecidableEq V] {op : RuntimeOp V} {owned : Bool} (hrun : current.state.isRunning = true)
    (h : op.write current owned = some record) : Keeps current record := by
  have hundecided {state : TaskState V} : current.state.outcome?.isSome = true → state.outcome?.isSome = true := by
    rw [outcome?_of_running hrun]
    exact fun h => absurd h (by simp)
  have hcomm (next : TaskState V) : Keeps current (commitState current next owned) := by
    unfold commitState
    split
    · split
      · exact (progressed current).trans (withState _ hundecided)
      · exact (progressed current).trans (withState _ hundecided)
    · split
      · exact withState _ hundecided
      · exact (progressed current).trans (withState _ hundecided)
  cases op with
  | commit next =>
    obtain ⟨state, -, rfl⟩ := map_eq_some_iff.mp h
    exact hcomm state
  | memo name cand =>
    unfold RuntimeOp.write at h
    dsimp only at h
    split at h
    · cases h
    · rename_i hnew
      cases h
      refine ⟨id, id, fun _ other v hval => ?_⟩
      rw [get?_set_ne]
      · exact hval
      · rintro rfl
        exact hnew (by rw [hval]; rfl)
  | sleepUntil wakeAt checkpoint => exact some.inj h ▸ hcomm _

/-- Whatever a reservation writes of a record that holds no outcome. -/
theorem resolution {resolution : Resolution V} {owned : Bool} (hundecided : old.state.outcome? = none)
    (h : resolution.write old owned = some record) : Keeps old record := by
  have hnever {state : TaskState V} : old.state.outcome?.isSome = true → state.outcome?.isSome = true := by
    rw [hundecided]
    exact fun h => absurd h (by simp)
  cases resolution with
  | cutOff error => exact some.inj h ▸ terminate old _ owned
  | blocked reason =>
    unfold Resolution.write at h
    dsimp only at h
    split at h
    · exact some.inj h ▸ terminate old _ owned
    · cases h
  | ready migrated =>
    cases migrated with
    | none =>
      unfold Resolution.write at h
      dsimp only at h
      split at h
      · cases h
      · obtain ⟨checkpoint, -, rfl⟩ := map_eq_some_iff.mp h
        exact withState old hnever
    | some migrated =>
      obtain ⟨rest, checkpoint⟩ := migrated
      have hrest : Keeps old { old with rest } := ⟨id, id, fun _ _ _ h => h⟩
      exact some.inj h ▸ hrest.trans (withState _ hnever)

end Keeps

namespace Schedule

theorem Sound.same {sys : Schedule V} (h : Sound sys) {mem : TaskScheduler V} (hsame : TaskScheduler.SameTree sys.mem mem) :
    Sound { sys with mem } :=
  ⟨h.mirrors.same hsame, h.ranked, h.valid, h.registered, h.single⟩

end Schedule

namespace Dispatch

variable {sys sys' : Dispatch V}

/-! ## The parts of a step -/

theorem setStage_all (i : Nat) (stage : Stage V) (j : Nat) :
    (sys.setStage i stage).all[j]? = if i = j then sys.all[j]?.map fun invocation => { invocation with stage } else sys.all[j]? := by
  unfold setStage
  split
  · rename_i heq
    subst heq
    exact getElem?_modify_eq ..
  · rename_i hne
    exact getElem?_modify_ne _ _ hne

/-- What the end of an invocation leaves: what is admitted, every other invocation, and whom each invocation is of. -/
structure Frees (sys : Dispatch V) (i : Nat) (sys' : Dispatch V) : Prop where
  published : sys'.published = sys.published
  pending : sys'.pending = sys.pending
  tree : TaskScheduler.SameTree sys.mem sys'.mem
  closing : sys'.closing = sys.closing
  job : sys'.job = sys.job
  others : ∀ j, j ≠ i → sys'.all[j]? = sys.all[j]?
  self : ∀ invocation, sys.all[i]? = some invocation → ∃ after, sys'.all[i]? = some after ∧ after.taskId = invocation.taskId ∧
    after.mode = invocation.mode ∧ after.ended = true
  freed : ∀ id, sys'.invocations id = sys.invocations id ∨ sys'.invocations id = none
  kept : ∀ id, sys'.invocations id ≠ sys.invocations id → sys.invocations id = some i
  unlisted : ∀ invocation, sys.all[i]? = some invocation → invocation.ended = false →
    sys.invocations invocation.taskId = some i → sys'.invocations invocation.taskId = none
  length : sys'.all.length = sys.all.length

theorem finish_frees (sys : Dispatch V) (i : Nat) : Frees sys i (sys.finish i) := by
  unfold finish
  cases hi : sys.all[i]? with
  | none =>
    exact ⟨rfl, rfl, SameTree.refl _, rfl, rfl, fun _ _ => rfl, fun _ h => (by rw [hi] at h; cases h), fun _ => .inl rfl,
      fun _ h => absurd rfl h, fun _ h => (by rw [hi] at h; cases h), rfl⟩
  | some invocation =>
    dsimp only
    split
    · rename_i hend
      refine ⟨rfl, rfl, SameTree.refl _, rfl, rfl, fun _ _ => rfl, fun other h => ?_, fun _ => .inl rfl,
        fun _ h => absurd rfl h, fun other h hunended => ?_, rfl⟩
      · rw [hi] at h
        cases h
        exact ⟨_, hi, rfl, rfl, hend⟩
      · rw [hi] at h
        cases h
        rw [hend] at hunended
        cases hunended
    · refine ⟨rfl, rfl, ?_, rfl, rfl, fun j hj => ?_, fun other h => ?_, fun id => ?_, fun id hne => ?_, fun other h _ hlist => ?_, ?_⟩
      · dsimp only
        split
        · exact ⟨rfl, rfl, rfl, rfl, rfl⟩
        · exact SameTree.refl _
      · exact getElem?_modify_ne _ _ (Ne.symm hj)
      · rw [hi] at h
        cases h
        refine ⟨{ invocation with ended := true, stage := .left }, ?_, rfl, rfl, rfl⟩
        rw [getElem?_modify_eq, hi]
        rfl
      · dsimp only
        split
        · rw [update_apply]
          split
          · exact .inr rfl
          · exact .inl rfl
        · exact .inl rfl
      · dsimp only at hne
        split at hne
        · rename_i hlist
          rw [update_apply] at hne
          split at hne
          · rename_i heq
            exact heq ▸ hlist
          · exact absurd rfl hne
        · exact absurd rfl hne
      · rw [hi] at h
        cases h
        dsimp only
        rw [if_pos hlist]
        exact update_self ..
      · exact length_modify ..

/-! ## The invariant -/

/-- The invocations the job on the line created. -/
def createdBy (sys : Dispatch V) : List Nat :=
  match sys.job with
  | some (.reserve _ _ created) => created
  | _ => []

/-- What a job that holds the line knows of the tasks it is about. -/
def JobSound (sys : Dispatch V) : Job V → Prop
  | .reserve ready writes _ =>
    (∀ record ∈ ready, sys.invocations record.id = none ∧ Assoc.get? sys.durable.tasks record.id = some record ∧
      record.state.outcome? = none) ∧
    (ready.map (·.id)).Nodup ∧ ∀ record ∈ writes, ∃ old, Assoc.get? sys.durable.tasks record.id = some old ∧ Keeps old record
  | .step i current plan => ∃ invocation, sys.all[i]? = some invocation ∧ ∀ record, current = some record →
      Assoc.get? sys.durable.tasks invocation.taskId = some record ∧ (plan = .continue ∨ plan = .progress → record.state.isRunning = true)
  | .entered _ _ => True
  | .decided i _ current | .changing i _ current => ∃ invocation, sys.all[i]? = some invocation ∧
      Assoc.get? sys.durable.tasks invocation.taskId = some current ∧ current.state.isRunning = true ∧
      (invocation.mode = .run → current.abortRequested = false)

/-- **What holds of a dispatch all along.** -/
structure Fenced (sys : Dispatch V) : Prop where
  base : sys.toSchedule.Sound
  registered : ∀ i invocation, sys.all[i]? = some invocation → invocation.ended = false → sys.invocations invocation.taskId = some i
  indexed : ∀ id i, sys.invocations id = some i → ∃ invocation, sys.all[i]? = some invocation ∧ invocation.taskId = id ∧ invocation.ended = false
  created : ∀ i ∈ sys.createdBy, ∃ invocation, sys.all[i]? = some invocation ∧ invocation.ended = false ∧ invocation.stage = .reserved
  distinct : sys.createdBy.Nodup
  job : ∀ job, sys.job = some job → JobSound sys job

variable {i : Nat} {rec : AnyTaskRecord V} {inv : Invocation V} {id : TaskId}

/-- **At most one invocation** of a task that has not ended. -/
theorem Fenced.unique (h : Fenced sys) {j : Nat} {a b : Invocation V} (ha : sys.all[i]? = some a) (hb : sys.all[j]? = some b)
    (haended : a.ended = false) (hbended : b.ended = false) (htask : a.taskId = b.taskId) : i = j := by
  have hi := h.registered i a ha haended
  have hj := h.registered j b hb hbended
  rw [htask, hj] at hi
  exact (some.inj hi).symm

/-- What the job on the line knows survives what happens off it. -/
theorem JobSound.advance {job : Job V} (h : JobSound sys job) (hdur : sys'.durable = sys.durable)
    (hsame : ∀ (i : Nat) (inv : Invocation V), sys.all[i]? = some inv → ∃ aft, sys'.all[i]? = some aft ∧
      aft.taskId = inv.taskId ∧ aft.mode = inv.mode)
    (hfreed : ∀ id, sys.invocations id = none → sys'.invocations id = none) : JobSound sys' job := by
  cases job with
  | reserve ready writes created =>
    obtain ⟨hready, hnd, hwrites⟩ := h
    refine ⟨fun rec hrec => ?_, hnd, hdur ▸ hwrites⟩
    obtain ⟨hnone, hrest⟩ := hready rec hrec
    exact ⟨hfreed _ hnone, hdur ▸ hrest⟩
  | step i current plan =>
    obtain ⟨inv, hi, hread⟩ := h
    obtain ⟨aft, haft, htask, -⟩ := hsame i inv hi
    exact ⟨aft, haft, by rw [hdur, htask]; exact hread⟩
  | entered i op => trivial
  | decided i op current | changing i op current =>
    obtain ⟨inv, hi, hread⟩ := h
    obtain ⟨aft, haft, htask, hmode⟩ := hsame i inv hi
    exact ⟨aft, haft, by rw [hdur, htask, hmode]; exact hread⟩

theorem Frees.durable (h : Frees sys i sys') : sys'.durable = sys.durable := by
  rw [Schedule.durable, Schedule.durable, h.pending, h.published]

section

variable (h : Fenced sys)

include h

/-- The end of an invocation that no reservation on the line created. -/
theorem Fenced.free (hfrees : Frees sys i sys') (hi : i ∉ sys.createdBy) : Fenced sys' := by
  have hmade : sys'.createdBy = sys.createdBy := by rw [createdBy, createdBy, hfrees.job]
  refine ⟨?_, fun j inv hj hend => ?_, fun id j hid => ?_, fun j hj => ?_, hmade ▸ h.distinct, fun job hjob => ?_⟩
  · have hsound := h.base.same hfrees.tree
    have heq : sys'.toSchedule = { sys.toSchedule with mem := sys'.mem } := by
      have hpub := hfrees.published
      have hpend := hfrees.pending
      cases hsys : sys'.toSchedule with
      | mk published mem pending =>
        have hpub' : sys'.toSchedule.published = sys.toSchedule.published := hpub
        have hpend' : sys'.toSchedule.pending = sys.toSchedule.pending := hpend
        rw [hsys] at hpub' hpend'
        dsimp only at hpub' hpend'
        rw [hpub', hpend']
    rw [heq]
    exact hsound
  · by_cases heq : j = i
    · subst heq
      cases hwas : sys.all[j]? with
      | none =>
        have hlt : j < sys'.all.length := (List.getElem?_eq_some_iff.mp hj).1
        rw [hfrees.length] at hlt
        rw [getElem?_eq_getElem hlt] at hwas
        cases hwas
      | some bef =>
        obtain ⟨aft, haft, -, -, hafterended⟩ := hfrees.self bef hwas
        rw [hj] at haft
        cases haft
        rw [hend] at hafterended
        cases hafterended
    · have hj' : sys.all[j]? = some inv := (hfrees.others j heq).symm.trans hj
      have hreg := h.registered j inv hj' hend
      by_cases hsame : sys'.invocations inv.taskId = sys.invocations inv.taskId
      · exact hsame.trans hreg
      · -- The task freed is the one of the invocation that ended, and this one is the task's.
        exfalso
        have hoth := hfrees.kept _ hsame
        rw [hreg] at hoth
        exact heq (some.inj hoth)
  · obtain hkeep | hnone := hfrees.freed id
    · rw [hkeep] at hid
      obtain ⟨inv, hj, htask, hend⟩ := h.indexed id j hid
      by_cases heq : j = i
      · subst heq
        have hnone := hfrees.unlisted inv hj hend (h.registered j inv hj hend)
        rw [htask, hkeep, hid] at hnone
        cases hnone
      · exact ⟨inv, (hfrees.others j heq).trans hj, htask, hend⟩
    · rw [hnone] at hid
      cases hid
  · rw [hmade] at hj
    obtain ⟨inv, hj', hrest⟩ := h.created j hj
    exact ⟨inv, (hfrees.others j fun heq => hi (heq ▸ hj)).trans hj', hrest⟩
  · rw [hfrees.job] at hjob
    refine JobSound.advance (h.job job hjob) hfrees.durable (fun j inv hj => ?_) fun id hnone => ?_
    · by_cases heq : j = i
      · subst heq
        obtain ⟨aft, haft, htask, hmode, -⟩ := hfrees.self inv hj
        exact ⟨aft, haft, htask, hmode⟩
      · exact ⟨inv, (hfrees.others j heq).trans hj, rfl, rfl⟩
    · obtain hkeep | hfree := hfrees.freed id
      · exact hkeep.trans hnone
      · exact hfree

theorem Fenced.setStage (stage : Stage V) (hi : i ∉ sys.createdBy) : Fenced (sys.setStage i stage) := by
  have hback {j : Nat} {aft : Invocation V} (hj : (sys.setStage i stage).all[j]? = some aft) :
      ∃ inv, sys.all[j]? = some inv ∧ aft.taskId = inv.taskId ∧ aft.ended = inv.ended := by
    rw [setStage_all] at hj
    split at hj
    · obtain ⟨inv, hinv, rfl⟩ := map_eq_some_iff.mp hj
      exact ⟨inv, hinv, rfl, rfl⟩
    · exact ⟨aft, hj, rfl, rfl⟩
  have hforth {j : Nat} {inv : Invocation V} (hj : sys.all[j]? = some inv) :
      ∃ aft, (sys.setStage i stage).all[j]? = some aft ∧ aft.taskId = inv.taskId ∧ aft.mode = inv.mode ∧
        aft.ended = inv.ended := by
    rw [setStage_all, hj]
    split
    · exact ⟨_, rfl, rfl, rfl, rfl⟩
    · exact ⟨_, rfl, rfl, rfl, rfl⟩
  refine ⟨h.base, fun j aft hj hend => ?_, fun id j hid => ?_, fun j hj => ?_, h.distinct, fun job hjob => ?_⟩
  · obtain ⟨inv, hinv, htask, hsame⟩ := hback hj
    rw [htask]
    exact h.registered j inv hinv (hsame ▸ hend)
  · obtain ⟨inv, hj, htask, hend⟩ := h.indexed id j hid
    obtain ⟨aft, haft, htask', -, hend'⟩ := hforth hj
    exact ⟨aft, haft, htask'.trans htask, hend'.trans hend⟩
  · obtain ⟨inv, hinv, hrest⟩ := h.created j hj
    refine ⟨inv, ?_, hrest⟩
    rw [setStage_all, if_neg]
    · exact hinv
    · rintro rfl
      exact hi hj
  · refine JobSound.advance (h.job job hjob) rfl (fun j inv hj => ?_) fun id hnone => hnone
    obtain ⟨aft, haft, htask, hmode, -⟩ := hforth hj
    exact ⟨aft, haft, htask, hmode⟩

/-- A job takes the line, or another part of its work. -/
theorem Fenced.hold (job : Option (Job V)) (hjob : ∀ next, job = some next → JobSound sys next)
    (hmade : createdBy { sys with job } = []) : Fenced { sys with job } := by
  refine ⟨h.base, h.registered, h.indexed, ?_, hmade ▸ nodup_nil, fun next hnext => ?_⟩
  · rw [hmade]
    exact nofun
  · have hsound := hjob next hnext
    cases next with
    | reserve | step | entered | decided | changing => exact hsound

/-- Publications, loads and sweeps change nothing admitted. -/
theorem Fenced.rebase {base : Schedule V} (hbase : base.Sound) (hdur : base.durable = sys.durable) :
    Fenced { sys with toSchedule := base } := by
  refine ⟨hbase, h.registered, h.indexed, h.created, h.distinct, fun job hjob => ?_⟩
  exact JobSound.advance (h.job job hjob) hdur (fun _ inv hi => ⟨inv, hi, rfl, rfl⟩) fun _ hnone => hnone

/-- A job leaves the line with its commit. -/
theorem Fenced.commit {com : Commit V} {base : Schedule V} (hcomm : Commits sys.toSchedule com base) :
    Fenced { sys with toSchedule := base, job := none } := by
  have hbase : base.Sound := by
    obtain ⟨-, -, rfl⟩ | hadm := hcomm
    · exact h.base
    · exact h.base.step hadm
  exact ⟨hbase, h.registered, h.indexed, forall_mem_nil _, nodup_nil, fun job hjob => by cases hjob⟩

end

/-- The record of a resolution is the task's. -/
theorem resolution_id {resolution : Resolution V} {wrtn : AnyTaskRecord V} {owned : Bool}
    (h : resolution.write rec owned = some wrtn) : wrtn.id = rec.id := by
  have hst (rec : AnyTaskRecord V) (state : TaskState V) : (withState rec state).id = rec.id := by
    unfold withState
    split <;> rfl
  cases resolution with
  | cutOff error => exact some.inj h ▸ hst ..
  | blocked reason =>
    unfold Resolution.write at h
    dsimp only at h
    split at h
    · exact some.inj h ▸ hst ..
    · cases h
  | ready migrated =>
    cases migrated with
    | none =>
      unfold Resolution.write at h
      dsimp only at h
      split at h
      · cases h
      · obtain ⟨checkpoint, -, rfl⟩ := map_eq_some_iff.mp h
        exact hst ..
    | some migrated => exact some.inj h ▸ hst ..

/-- A reservation takes its next record, or writes its outcome. -/
theorem Fenced.resolve (h : Fenced sys) {rec : AnyTaskRecord V} {ready writes : List (AnyTaskRecord V)} {created : List Nat}
    (hjob : sys.job = some (.reserve (rec :: ready) writes created)) (resolution : Resolution V) :
    Fenced (sys.resolve rec ready writes created resolution) := by
  obtain ⟨hready, hnd, hwrites⟩ := h.job _ hjob
  obtain ⟨hnone, hrec, hundecided⟩ := hready rec (.head _)
  rw [map_cons, nodup_cons] at hnd
  have hcreatedBy : sys.createdBy = created := by rw [createdBy, hjob]
  have hwrt : ∀ wrtn ∈ writes ++ (resolution.write rec (sys.owns writes rec.id)).toList,
      ∃ old, get? sys.durable.tasks wrtn.id = some old ∧ Keeps old wrtn := by
    intro wrtn hmem
    obtain hold | hnew := mem_append.mp hmem
    · exact hwrites wrtn hold
    · have hwrite := mem_toList.mp hnew
      exact ⟨rec, by rw [resolution_id hwrite]; exact hrec, Keeps.resolution hundecided hwrite⟩
  have hrest : ∀ other ∈ ready, other.id ≠ rec.id := fun other hoth heq => hnd.1 (heq ▸ mem_map_of_mem hoth)
  unfold Dispatch.resolve
  split
  · have hdur : ({ sys with mem := { sys.mem with runnable := OrderedSet.delete sys.mem.runnable rec.id } } : Dispatch V).durable = sys.durable :=
      rfl
    have hnew (j : Nat) {inv : Invocation V} (hj : (sys.all ++ [⟨rec.id, if rec.abortRequested then Mode.abort else .run, false, .reserved⟩])[j]? = some inv) :
        sys.all[j]? = some inv ∧ j ≠ sys.all.length ∨
          j = sys.all.length ∧ inv = ⟨rec.id, if rec.abortRequested then Mode.abort else .run, false, .reserved⟩ := by
      rw [getElem?_append] at hj
      split at hj
      · rename_i hlt
        exact .inl ⟨hj, Nat.ne_of_lt hlt⟩
      · rename_i hge
        obtain ⟨hlt, heq⟩ := List.getElem?_eq_some_iff.mp hj
        have hzero : j - sys.all.length = 0 := Nat.lt_one_iff.mp hlt
        refine .inr ⟨by omega, ?_⟩
        simp only [hzero, getElem_cons_zero] at heq
        exact heq.symm
    have hold {j : Nat} {inv : Invocation V} (hj : sys.all[j]? = some inv) :
        (sys.all ++ [⟨rec.id, if rec.abortRequested then Mode.abort else .run, false, .reserved⟩])[j]? = some inv := by
      rw [List.getElem?_append_left (List.getElem?_eq_some_iff.mp hj).1]
      exact hj
    have hlast : (sys.all ++ [⟨rec.id, if rec.abortRequested then Mode.abort else .run, false, .reserved⟩])[sys.all.length]? =
        some ⟨rec.id, if rec.abortRequested then Mode.abort else .run, false, .reserved⟩ := getElem?_concat_length ..
    unfold createInvocation
    refine ⟨h.base.same ⟨rfl, rfl, rfl, rfl, rfl⟩, fun j inv hj hend => ?_, fun id j hid => ?_, fun j hj => ?_, ?_,
      fun job hjob' => ?_⟩
    · dsimp only
      obtain ⟨hwas, hne⟩ | ⟨rfl, rfl⟩ := hnew j hj
      · have hreg := h.registered j inv hwas hend
        rw [update_of_ne]
        · exact hreg
        · intro heq
          rw [heq, hnone] at hreg
          cases hreg
      · exact update_self ..
    · dsimp only at hid ⊢
      rw [update_apply] at hid
      split at hid
      · rename_i heq
        cases hid
        exact ⟨_, hlast, heq.symm, rfl⟩
      · obtain ⟨inv, hj, hrest⟩ := h.indexed id j hid
        exact ⟨inv, hold hj, hrest⟩
    · obtain hwas | rfl := mem_snoc.mp hj
      · obtain ⟨inv, hj', hrest⟩ := h.created j (hcreatedBy ▸ hwas)
        exact ⟨inv, hold hj', hrest⟩
      · exact ⟨_, hlast, rfl, rfl⟩
    · refine nodup_append.mpr ⟨hcreatedBy ▸ h.distinct, nodup_singleton _, fun j hj k hk heq => ?_⟩
      obtain rfl := mem_singleton.mp hk
      obtain ⟨inv, hj', -⟩ := h.created j (hcreatedBy ▸ hj)
      have hlt := (List.getElem?_eq_some_iff.mp hj').1
      exact absurd (heq ▸ hlt) (Nat.lt_irrefl _)
    · cases hjob'
      refine ⟨fun other hoth => ?_, hnd.2, hwrt⟩
      obtain ⟨hoth', hrest'⟩ := hready other (.tail _ hoth)
      refine ⟨?_, hrest'⟩
      dsimp only
      rw [update_of_ne (hrest other hoth)]
      exact hoth'
  · refine ⟨h.base, h.registered, h.indexed, fun j hj => h.created j (hcreatedBy ▸ hj), hcreatedBy ▸ h.distinct, fun job hjob' => ?_⟩
    cases hjob'
    exact ⟨fun other hoth => hready other (.tail _ hoth), hnd.2, hwrt⟩

theorem takeBack_frees (h : Fenced sys) (hi : sys.all[i]? = some inv)
    (hend : inv.ended = false) : Frees sys i (sys.takeBack i) := by
  have hreg := h.registered i inv hi hend
  unfold takeBack
  rw [hi]
  refine ⟨rfl, rfl, ⟨rfl, rfl, rfl, rfl, rfl⟩, rfl, rfl, fun j hj => ?_, fun other hoth => ?_, fun id => ?_, fun id hne => ?_,
    fun other hoth _ _ => ?_, length_modify ..⟩
  · exact getElem?_modify_ne _ _ (Ne.symm hj)
  · rw [hi] at hoth
    cases hoth
    refine ⟨{ inv with ended := true, stage := .left }, ?_, rfl, rfl, rfl⟩
    rw [getElem?_modify_eq, hi]
    rfl
  · dsimp only
    rw [update_apply]
    split
    · exact .inr rfl
    · exact .inl rfl
  · dsimp only at hne
    rw [update_apply] at hne
    split at hne
    · rename_i heq
      exact heq ▸ hreg
    · exact absurd rfl hne
  · rw [hi] at hoth
    cases hoth
    exact update_self ..

theorem withdraw_job (created : List Nat) (sys : Dispatch V) (job : Option (Job V)) :
    ({ sys.withdraw created with job } : Dispatch V) = ({ sys with job } : Dispatch V).withdraw created := by
  induction created generalizing sys with
  | nil => rfl
  | cons i created ih =>
    have hone : ({ sys with job } : Dispatch V).takeBack i = { sys.takeBack i with job } := by
      unfold takeBack
      cases sys.all[i]? <;> rfl
    have hrest := ih (sys.takeBack i)
    rw [← hone] at hrest
    exact hrest

theorem Fenced.withdraw {created : List Nat} (h : Fenced sys) (hjob : sys.job = none) (hnd : created.Nodup)
    (hunended : ∀ i ∈ created, ∃ inv, sys.all[i]? = some inv ∧ inv.ended = false) :
    Fenced (sys.withdraw created) := by
  induction created generalizing sys with
  | nil => exact h
  | cons i created ih =>
    obtain ⟨inv, hi, hend⟩ := hunended i (.head _)
    rw [nodup_cons] at hnd
    have hfrees := takeBack_frees h hi hend
    have hnone : sys.createdBy = [] := by rw [createdBy, hjob]
    refine ih (h.free hfrees (hnone ▸ not_mem_nil)) (hfrees.job.trans hjob) hnd.2 fun j hj => ?_
    obtain ⟨other, hoth, hrest⟩ := hunended j (.tail _ hj)
    refine ⟨other, (hfrees.others j ?_).trans hoth, hrest⟩
    rintro rfl
    exact hnd.1 hj

/-! ## Every step -/

/-- A candidate that is ready is live, holds no outcome, and has no invocation. -/
theorem candidate_ready {s : TaskScheduler V} {now : Nat} {invoked : TaskId → Bool}
    (h : (s.candidate now invoked id).record? = some rec) :
    s.task? id = some rec ∧ invoked id = false ∧ rec.state.isCompleting = false := by
  unfold candidate at h
  split at h
  · cases h
  · rename_i hinvoked
    rw [Bool.not_eq_true] at hinvoked
    split at h
    · cases h
    · rename_i found hfnd
      split at h
      · cases h
      · rename_i hready
        split at h
        · cases h
        · cases h
          rw [Bool.or_eq_true, Bool.or_eq_true, not_or, not_or, Bool.not_eq_true] at hready
          exact ⟨hfnd, hinvoked, hready.1.1⟩

theorem undecided_of_live (hlive : rec.isLive = true) (hnot : rec.state.isCompleting = false) : rec.state.outcome? = none := by
  cases hst : rec.state with
  | completing outcome =>
    rw [hst] at hnot
    cases hnot
  | terminal outcome =>
    rw [AnyTaskRecord.isLive, hst] at hlive
    cases hlive
  | _ => rfl

/-- A reservation pass takes the line. -/
theorem Fenced.reserve (h : Fenced sys) (now : Nat)
    (hstands : sys.stands (sys.mem.reservationKeys fun id => (sys.invocations id).isSome)) :
    Fenced { sys with job := some (.reserve (sys.mem.planReservation now fun id => (sys.invocations id).isSome) [] []) } := by
  refine h.hold _ (fun next hnext => ?_) rfl
  cases hnext
  have hread {rec : AnyTaskRecord V} (hrec : rec ∈ sys.mem.planReservation now fun id => (sys.invocations id).isSome) :
      ∃ id ∈ sys.mem.runnable, rec.id = id ∧ sys.invocations id = none ∧ get? sys.durable.tasks id = some rec ∧
        rec.state.outcome? = none := by
    obtain ⟨id, hid, hcand⟩ := mem_filterMap.mp hrec
    obtain ⟨hlive, hfree, hnot⟩ := candidate_ready hcand
    have hnone : sys.invocations id = none := by
      cases hinv : sys.invocations id with
      | none => rfl
      | some i => rw [hinv] at hfree; cases hfree
    have hkey : sys.stands [Key.task id] := by
      refine Schedule.stands_mono hstands fun key hkey => ?_
      obtain rfl := mem_singleton.mp hkey
      exact mem_map.mpr ⟨id, mem_filter.mpr ⟨mem_dedup.mp hid, by simp [hnone]⟩, rfl⟩
    obtain ⟨hdur, halive⟩ := h.base.read hkey hlive
    have hnamed := h.base.ranked.named ((h.base.mirrors.live id rec).mp hlive).1
    exact ⟨id, mem_dedup.mp hid, hnamed, hnone, hdur, undecided_of_live halive hnot⟩
  refine ⟨fun rec hrec => ?_, ?_, forall_mem_nil _⟩
  · obtain ⟨id, -, rfl, hnone, hdur, hundecided⟩ := hread hrec
    exact ⟨hnone, hdur, hundecided⟩
  · -- Each candidate stands under its own identity.
    have hsub : ((sys.mem.planReservation now fun id => (sys.invocations id).isSome).map (·.id)).Sublist sys.mem.runnable.dedup := by
      unfold planReservation
      generalize sys.mem.runnable.dedup = ids
      induction ids with
      | nil => exact Sublist.slnil
      | cons id ids ih =>
        rw [filterMap_cons]
        split
        · exact ih.cons _
        · rename_i rec hcand
          rw [map_cons]
          have hid : rec.id = id := h.base.ranked.named ((h.base.mirrors.live id rec).mp (candidate_ready hcand).1).1
          rw [hid]
          exact ih.cons_cons _
    exact hsub.nodup (nodup_dedup _)

/-- A step that goes on saw the task running and unmarked, and the Harness open. -/
theorem stepPlan_goes_on [DecidableEq V] {s : TaskScheduler V} {closing : Bool} {prev : Option (TaskScheduler.PhaseResult V)}
    (h : s.stepPlan id closing prev = .continue ∨ s.stepPlan id closing prev = .progress) :
    ∃ current, s.task? id = some current ∧ current.state.isRunning = true ∧ current.abortRequested = false ∧ closing = false := by
  unfold stepPlan at h
  cases htask : s.task? id with
  | none =>
    rw [htask] at h
    simp at h
  | some current =>
    rw [htask] at h
    dsimp only at h
    cases hst : current.state with
    | running checkpoint =>
      rw [hst] at h
      cases closing with
      | true => simp at h
      | false =>
        unfold rules at h
        refine ⟨current, rfl, by rw [hst]; rfl, ?_, rfl⟩
        cases hmark : current.abortRequested with
        | false => rfl
        | true => simp [hmark] at h
    | _ =>
      rw [hst] at h
      simp at h

theorem abortPlan_ends {error : V} : sys.abortPlan id error ≠ .continue ∧ sys.abortPlan id error ≠ .progress := by
  unfold abortPlan
  split <;> constructor <;> intro h <;> cases h

/-- A decided step holds the line. -/
theorem Fenced.decideStep (h : Fenced sys) (hi : sys.all[i]? = some inv)
    (hstands : sys.stands [Key.task inv.taskId]) {plan : StepPlan V}
    (hplan : plan = .continue ∨ plan = .progress → ∃ current, sys.mem.task? inv.taskId = some current ∧ current.state.isRunning = true) :
    Fenced { sys with job := some (.step i (sys.mem.task? inv.taskId) plan) } := by
  refine h.hold _ (fun next hnext => ?_) rfl
  cases hnext
  refine ⟨inv, hi, fun rec hrec => ⟨(h.base.read hstands hrec).1, fun hgoes => ?_⟩⟩
  obtain ⟨current, hcur, hrun⟩ := hplan hgoes
  rw [hrec] at hcur
  exact some.inj hcur ▸ hrun

/-- An invocation that starts, once its reservation is delivered. -/
theorem Fenced.start (h : Fenced sys) (hi : i ∉ sys.createdBy) : Fenced (sys.start i) := by
  unfold Dispatch.start
  split
  · exact h
  · split
    · exact h.setStage _ hi
    · split
      · exact h.free (finish_frees sys i) hi
      · exact h.setStage _ hi

theorem Fenced.applyStep (h : Fenced sys) {current : Option (AnyTaskRecord V)} {plan : StepPlan V}
    (hjob : sys.job = some (.step i current plan)) (handsOver : Bool) (error : StepFault V → V) :
    Fenced (sys.applyStep i current plan handsOver error).1 := by
  have hi : i ∉ sys.createdBy := by
    rw [createdBy, hjob]
    exact not_mem_nil
  unfold Dispatch.applyStep
  split
  · exact h.setStage _ hi
  · split
    · exact h.free (finish_frees sys i) hi
    · exact h.setStage _ hi
  · exact h.free (finish_frees sys i) hi
  · exact h.free (finish_frees sys i) hi

/-- An invocation that is past its reservation is none the job on the line created. -/
theorem Fenced.not_created (h : Fenced sys) (hi : sys.all[i]? = some inv)
    (hstage : inv.stage ≠ .reserved) : i ∉ sys.createdBy := by
  intro hmem
  obtain ⟨same, hsame, -, hresv⟩ := h.created i hmem
  rw [hi] at hsame
  exact hstage (some.inj hsame ▸ hresv)

/-- **One step** keeps the invariant. -/
theorem Fenced.step [DecidableEq V] {label : DispatchLabel V} (h : Fenced sys) (hstep : Step sys label sys') : Fenced sys' := by
  cases hstep with
  | memory hlab hmem => exact h.rebase (h.base.step hmem) (Schedule.durable_memory hmem hlab)
  | foreign hfree hwrites hadm =>
    have hcommitted := h.commit (.inr hadm)
    exact hfree ▸ hcommitted
  | closing =>
    refine ⟨h.base, h.registered, h.indexed, h.created, h.distinct, fun job hjob => ?_⟩
    exact JobSound.advance (h.job job hjob) rfl (fun _ inv hi => ⟨inv, hi, rfl, rfl⟩) fun _ hnone => hnone
  | reserve hfree hopen hstands => exact h.reserve _ hstands
  | resolve hjob => exact h.resolve hjob _
  | reserved hjob hcomm => exact h.commit hcomm
  | @withdrawn ready writes created hjob =>
    have hmade : sys.createdBy = created := by rw [createdBy, hjob]
    rw [withdraw_job]
    refine (h.hold none (fun _ hnext => by cases hnext) rfl).withdraw rfl (hmade ▸ h.distinct) fun i hi => ?_
    obtain ⟨inv, hinv, hend, -⟩ := h.created i (hmade ▸ hi)
    exact ⟨inv, hinv, hend⟩
  | @starts i inv hi hstage hdelivered =>
    refine h.start fun hmem => ?_
    unfold createdBy at hmem
    split at hmem
    · rename_i ready writes created hjob
      exact hdelivered ready writes created hjob hmem
    · cases hmem
  | steps hfree hi hstage hstands =>
    refine h.decideStep hi (Schedule.stands_mono hstands fun key hkey => ?_) fun hgoes => ?_
    · obtain rfl := mem_singleton.mp hkey
      exact .head _
    · obtain ⟨current, hcur, hrun, -⟩ := stepPlan_goes_on hgoes
      exact ⟨current, hcur, hrun⟩
  | faults hfree hi hstage hstands =>
    refine h.decideStep hi hstands fun hgoes => ?_
    exact (hgoes.elim abortPlan_ends.1 abortPlan_ends.2).elim
  | applied hjob hcomm => exact (h.applyStep hjob _ _).commit hcomm
  | @stepRejected i inv hi hstage hclosing hjob =>
    refine h.free (finish_frees sys i) (h.not_created hi ?_)
    obtain ⟨prev, hprev⟩ | ⟨error, herr⟩ := hstage
    · rw [hprev]
      exact fun h => by cases h
    · rw [herr]
      exact fun h => by cases h
  | phaseStarts hi hstage hopen hrun | phaseReturns hi hstage
    | abortReturns hi hstage => exact h.setStage _ (h.not_created hi (by rw [hstage]; exact fun h => by cases h))
  | leaves hi hstage hclosing => exact h.free (finish_frees sys _) (h.not_created hi (by rw [hstage]; exact fun h => by cases h))
  | enters hfree hi hend hopen => exact h.hold _ (fun next hnext => some.inj hnext ▸ trivial) rfl
  | @decides i inv op current hjob hi hlive hrun hunmarked hstands =>
    refine h.hold _ (fun next hnext => ?_) rfl
    cases hnext
    exact ⟨inv, hi, (h.base.read hstands hlive).1, hrun, hunmarked⟩
  | checks hjob hi hend =>
    refine h.hold _ (fun next hnext => ?_) rfl
    cases hnext
    have hdecided := h.job _ hjob
    exact hdecided
  | writes hjob hi hallowed hmade hcomm => exact h.commit hcomm
  | rejects hjob => exact h.hold none (fun _ hnext => by cases hnext) rfl

theorem fenced_opened {tbls : Tables V} (hw : tbls.WellFormed) : Fenced (opened tbls) := by
  refine ⟨Schedule.sound_opened hw, fun i inv hi => ?_, fun id i hid => ?_, fun i hi => ?_, nodup_nil, fun job hjob => ?_⟩
  · cases hi
  · cases hid
  · cases hi
  · cases hjob

theorem fenced_of_steps [DecidableEq V] {tbls : Tables V} (hw : tbls.WellFormed) {labs : List (DispatchLabel V)}
    (hrun : Steps Step (opened tbls) labs sys) : Fenced sys :=
  hrun.invariant (fun h hstep => h.step hstep) (fenced_opened hw)

end Dispatch

end PiBridge.Durable
