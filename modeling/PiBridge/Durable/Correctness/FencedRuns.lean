import PiBridge.Durable.Correctness.Fences

/-!
# `Durable.Correctness.FencedRuns` — what a run of invocations looks back on

Each thing an invocation does rests on a step of the past (`Steps.origin`): a phase on a step that saw its task run, an
operation that writes on a check made while its invocation had not ended, a decision that is applied on the state it was
decided in. The job that checks or decides holds the line, so nothing on the line came in between (`offLine`).
-/

namespace PiBridge.Durable

open Lib List
open TaskScheduler (StepPlan StepFault PhaseResult)

variable {V : Type}

/-- What happens while a job holds the line: not another job. -/
def DispatchLabel.offLine : DispatchLabel V → Bool
  | .memory _ | .closing | .starts _ | .stepRejected _ | .phaseStarts _ _ | .phaseReturns _ _ | .abortReturns _ _ | .leaves _ => true
  | _ => false

namespace Dispatch

variable [DecidableEq V] {sys sys' : Dispatch V} {label : DispatchLabel V} {id : TaskId} {tables : Tables V}
  {labels : List (DispatchLabel V)}

/-! ## Decided steps -/

/-- The decision of a step, where it is one. -/
def Decides (sys : Dispatch V) (i : Nat) (current : Option (AnyTaskRecord V)) (plan : StepPlan V) : Prop :=
  ∃ invocation, sys.all[i]? = some invocation ∧ current = sys.mem.task? invocation.taskId ∧ sys.stands [Key.task invocation.taskId] ∧
    ((∃ previous, invocation.stage = .stepping previous ∧ plan = sys.mem.stepPlan invocation.taskId sys.closing previous) ∨
      ∃ error, invocation.stage = .faulting error ∧ plan = sys.abortPlan invocation.taskId error)

/-- A job with the line keeps it through whatever happens off the line. -/
theorem Step.held (hstep : Step sys label sys') (hoff : label.offLine = true) : sys'.job = sys.job := by
  cases hstep with
  | memory | closing | phaseStarts | phaseReturns | abortReturns => rfl
  | starts => exact start_job _
  | stepRejected | leaves => exact (finish_frees sys _).job
  | foreign | reserve | resolve | reserved | withdrawn | steps | faults | applied | enters | decides | checks | writes | rejects => cases hoff

variable {i : Nat} {current : Option (AnyTaskRecord V)} {plan : StepPlan V} {op : RuntimeOp V}

theorem Step.decided (hstep : Step sys label sys') (hjob : sys'.job = some (.step i current plan)) :
    sys.job = some (.step i current plan) ∧ label.offLine = true ∨ label = .steps i ∧ sys.Decides i current plan := by
  by_cases hoff : label.offLine = true
  · exact .inl ⟨hstep.held hoff ▸ hjob, hoff⟩
  · cases hstep with
    | memory | closing | phaseStarts | phaseReturns | abortReturns | starts | stepRejected | leaves => exact absurd rfl hoff
    | foreign hfree => rw [hfree] at hjob; cases hjob
    | resolve =>
      unfold Dispatch.resolve at hjob
      split at hjob <;> cases hjob
    | @steps j inv prev hfree hi hstage hstands =>
      have heq := Option.some.inj hjob
      obtain ⟨rfl, rfl, rfl⟩ := heq
      have hkey : sys.stands [Key.task inv.taskId] := Schedule.stands_mono hstands fun key hkey => by
        obtain rfl := mem_singleton.mp hkey
        exact .head _
      exact .inr ⟨rfl, inv, hi, rfl, hkey, .inl ⟨prev, hstage, rfl⟩⟩
    | @faults j inv err hfree hi hstage hstands =>
      have heq := Option.some.inj hjob
      simp only [Job.step.injEq] at heq
      obtain ⟨rfl, rfl, rfl⟩ := heq
      exact .inr ⟨rfl, inv, hi, rfl, hstands, .inr ⟨err, hstage, rfl⟩⟩
    | reserve | reserved | withdrawn | applied | enters | decides | checks | writes | rejects => cases hjob

variable (hw : tables.WellFormed) (hrun : Steps Step (opened tables) labels sys)

include hw hrun in
/-- A decision that is to be applied was made by a step that has held the line since. -/
theorem decided_of_steps
    (hjob : sys.job = some (.step i current plan)) : Steps.Passed Step (opened tables) labels sys fun mid label aft =>
      (label = .steps i ∧ mid.Decides i current plan) ∧ ∀ oth ∈ aft, oth.offLine = true := by
  refine hrun.origin (I := fun sys => sys.job = some (.step i current plan)) (J := Fenced) (fun h hstep => h.step hstep)
    (fun _ hstep hnow => hstep.decided hnow) (fenced_opened hw) ?_ hjob
  intro hnone
  cases hnone

/-! ## Phases -/

/-- An invocation that goes on, or is about to. -/
def GoingOn (i : Nat) (id : TaskId) (current : AnyTaskRecord V) (sys : Dispatch V) : Prop :=
  ∃ invocation, sys.all[i]? = some invocation ∧ invocation.taskId = id ∧ (invocation.stage = .granted current ∨ GoesOn sys i current)

include hw hrun in
/-- **A phase starts only after a step that saw its task running, unmarked, and the Harness open.** -/
theorem saw_of_granted {inv : Invocation V}
    {current : AnyTaskRecord V} (hi : sys.all[i]? = some inv) (hstage : inv.stage = .granted current) :
    Steps.Passed Step (opened tables) labels sys fun mid label _ => label = .steps i ∧ SawRunning mid inv.taskId current := by
  refine Steps.Passed.imp (hrun.origin (I := GoingOn i inv.taskId current) (J := Fenced)
    (P := fun mid label => label = .steps i ∧ SawRunning mid inv.taskId current) (Q := fun _ => True)
    (fun h hstep => h.step hstep) (fun {t label u} hfenced hstep hgoing => ?_) (fenced_opened hw) ?_ ⟨inv, hi, rfl, .inl hstage⟩)
    fun _ _ _ h => h.1
  · obtain ⟨aft, haft, htask, hstill⟩ := hgoing
    have hdecided : GoesOn u i current → GoesOn t i current ∨ label = .steps i ∧ ∃ bef, t.all[i]? = some bef ∧
        SawRunning t bef.taskId current := by
      rintro ⟨plan, hjob, hplan⟩
      obtain ⟨hwas, -⟩ | ⟨rfl, -⟩ := hstep.decided hjob
      · exact .inl ⟨plan, hwas, hplan⟩
      · obtain hwas | hsaw := Step.goesOn hfenced hstep ⟨plan, hjob, hplan⟩
        · exact .inl hwas
        · exact .inr ⟨rfl, hsaw⟩
    obtain ⟨bef, hbef, hsame, -, hgranted⟩ | ⟨rec, ready, ws, mk, hjob, rfl⟩ := Step.invocation hstep haft
    · have hkeep (hgoes : t.all[i]? = some bef → bef.stage = .granted current ∨ GoesOn t i current) : GoingOn i inv.taskId current t :=
        ⟨bef, hbef, hsame.trans htask, hgoes hbef⟩
      obtain hstage | hgoes := hstill
      · exact .inl ⟨hkeep fun _ => hgranted current hstage, trivial⟩
      · obtain hwas | ⟨rfl, saw, hsaw, hrunning⟩ := hdecided hgoes
        · exact .inl ⟨hkeep fun _ => .inr hwas, trivial⟩
        · rw [hbef] at hsaw
          cases hsaw
          exact .inr ⟨rfl, by rw [← htask, ← hsame]; exact hrunning⟩
    · -- A new invocation waits for the delivery of its reservation, which holds the line.
      obtain hstage | hgoes := hstill
      · cases hstage
      · obtain ⟨plan, hwas, -⟩ | ⟨rfl, -⟩ := hdecided hgoes
        · rw [hjob] at hwas
          cases hwas
        · cases hstep with
          | steps hfree | faults hfree => rw [hfree] at hjob; cases hjob
  · rintro ⟨_, hnone, -⟩
    cases hnone

/-- A reservation on the line that has yet to take a task it saw marked, or the abort invocation it made of it. -/
def Aborting (i : Nat) (id : TaskId) (sys : Dispatch V) : Prop :=
  (∃ invocation, sys.all[i]? = some invocation ∧ invocation.taskId = id ∧ invocation.mode = .abort) ∨
    ∃ ready writes created record, sys.job = some (.reserve ready writes created) ∧ record ∈ ready ∧ record.id = id ∧ record.abortRequested = true

/-- What a reservation that takes a task into its abort handler saw. -/
def SawMarked (sys : Dispatch V) (id : TaskId) : Prop :=
  ∃ record, Assoc.get? sys.durable.tasks id = some record ∧ record.abortRequested = true ∧ sys.closing = false

theorem Step.reserving (hstep : Step sys label sys') {ready writes : List (AnyTaskRecord V)} {created : List Nat}
    (hjob : sys'.job = some (.reserve ready writes created)) :
    (∃ ready' writes' created', sys.job = some (.reserve ready' writes' created') ∧ ∀ rec ∈ ready, rec ∈ ready') ∨
      (∃ now, label = .reserve now) ∧ sys.closing = false := by
  by_cases hoff : label.offLine = true
  · exact .inl ⟨ready, writes, created, hstep.held hoff ▸ hjob, fun _ hrec => hrec⟩
  · cases hstep with
    | memory | closing | phaseStarts | phaseReturns | abortReturns | starts | stepRejected | leaves => exact absurd rfl hoff
    | foreign hfree => rw [hfree] at hjob; cases hjob
    | @resolve rec rest writes' created' res hwas =>
      refine .inl ⟨_, _, _, hwas, ?_⟩
      unfold Dispatch.resolve at hjob
      split at hjob
      · cases hjob
        exact fun oth hoth => .tail _ hoth
      · cases hjob
        exact fun oth hoth => .tail _ hoth
    | reserve hfree hopen => exact .inr ⟨⟨_, rfl⟩, hopen⟩
    | steps | faults | reserved | withdrawn | applied | enters | decides | checks | writes | rejects => cases hjob

include hw hrun in
/-- **An abort handler runs only for a task that a reservation saw marked, with the Harness open.** -/
theorem saw_of_aborting {inv : Invocation V}
    (hi : sys.all[i]? = some inv) (hmode : inv.mode = .abort) :
    Steps.Passed Step (opened tables) labels sys fun mid label _ => (∃ now, label = .reserve now) ∧ SawMarked mid inv.taskId := by
  refine Steps.Passed.imp (hrun.origin (I := Aborting i inv.taskId) (J := Fenced)
    (P := fun mid label => (∃ now, label = .reserve now) ∧ SawMarked mid inv.taskId) (Q := fun _ => True)
    (fun h hstep => h.step hstep) (fun {t label u} hfenced hstep hgoing => ?_) (fenced_opened hw) ?_ (.inl ⟨inv, hi, rfl, hmode⟩))
    fun _ _ _ h => h.1
  · obtain ⟨aft, haft, htask, hmode⟩ | ⟨ready, ws, mk, rec, hjob, hrec, hid, hmark⟩ := hgoing
    · obtain ⟨bef, hbef, hsame, hmodes, -⟩ | ⟨rec, ready, ws, mk, hjob, rfl⟩ := Step.invocation hstep haft
      · exact .inl ⟨.inl ⟨bef, hbef, hsame.trans htask, hmodes.trans hmode⟩, trivial⟩
      · have hmark : rec.abortRequested = true := by
          cases hmark : rec.abortRequested with
          | true => rfl
          | false => simp [hmark] at hmode
        exact .inl ⟨.inr ⟨_, _, _, rec, hjob, .head _, htask, hmark⟩, trivial⟩
    · obtain ⟨ready', ws', mk', hwas, hsub⟩ | ⟨⟨now, rfl⟩, hopen⟩ := hstep.reserving hjob
      · exact .inl ⟨.inr ⟨ready', ws', mk', rec, hwas, hsub rec hrec, hid, hmark⟩, trivial⟩
      · obtain ⟨hready, -, -⟩ := (hfenced.step hstep).job _ hjob
        obtain ⟨-, hdur, -⟩ := hready rec hrec
        refine .inr ⟨⟨now, rfl⟩, rec, ?_, hmark, hopen⟩
        cases hstep with
        | reserve => exact hid ▸ hdur
  · rintro (⟨_, hnone, -⟩ | ⟨_, _, _, _, hnone, -⟩) <;> cases hnone

/-! ## Operations -/

/-- An operation's last check: its invocation has not ended. -/
def Checks (sys : Dispatch V) (i : Nat) : Prop := ∃ invocation, sys.all[i]? = some invocation ∧ invocation.ended = false

theorem Step.changing (hstep : Step sys label sys') {current : AnyTaskRecord V}
    (hjob : sys'.job = some (.changing i op current)) :
    sys.job = some (.changing i op current) ∧ label.offLine = true ∨ label = .checks i ∧ sys.Checks i := by
  by_cases hoff : label.offLine = true
  · exact .inl ⟨hstep.held hoff ▸ hjob, hoff⟩
  · cases hstep with
    | memory | closing | phaseStarts | phaseReturns | abortReturns | starts | stepRejected | leaves => exact absurd rfl hoff
    | foreign hfree => rw [hfree] at hjob; cases hjob
    | resolve =>
      unfold Dispatch.resolve at hjob
      split at hjob <;> cases hjob
    | checks hwas hi hend =>
      cases hjob
      exact .inr ⟨rfl, _, hi, hend⟩
    | steps | faults | reserve | reserved | withdrawn | applied | enters | decides | writes | rejects => cases hjob

include hw hrun in
/-- **An operation that writes was checked before any step that ends its invocation.** Its job has held the line since. -/
theorem fence_of_changing
    {current : AnyTaskRecord V} (hjob : sys.job = some (.changing i op current)) :
    Steps.Passed Step (opened tables) labels sys fun mid label aft =>
      (label = .checks i ∧ mid.Checks i) ∧ ∀ oth ∈ aft, oth.offLine = true := by
  refine hrun.origin (I := fun sys => sys.job = some (.changing i op current)) (J := Fenced) (fun h hstep => h.step hstep)
    (fun _ hstep hnow => hstep.changing hnow) (fenced_opened hw) ?_ hjob
  intro hnone
  cases hnone

/-- What an operation makes of its task's record. -/
theorem written (h : Fenced sys) {owned : Bool} {mk : Commit V}
    (hstep : Step sys (.writes i op owned mk) sys') : ∃ inv current, sys.all[i]? = some inv ∧
      sys.job = some (.changing i op current) ∧ Assoc.get? sys.durable.tasks inv.taskId = some current ∧
      current.state.isRunning = true ∧ (inv.mode = .run → current.abortRequested = false) ∧
      Assoc.get? sys'.durable.tasks inv.taskId = some ((op.write current owned).getD current) := by
  cases hstep with
  | @writes i inv op current owned mk base hjob hi hallowed hmade hcomm =>
    obtain ⟨same, hsame, hcur, hrun, hunmarked⟩ := h.job _ hjob
    rw [hi] at hsame
    cases hsame
    refine ⟨inv, current, hi, hjob, hcur, hrun, hunmarked, ?_⟩
    show Assoc.get? base.durable.tasks inv.taskId = _
    obtain ⟨-, hemp, rfl⟩ | hadm := hcomm
    · -- Nothing was written at all.
      have hnone : op.write current owned = none := by
        cases hwrite : op.write current owned with
        | none => rfl
        | some rec => rw [hwrite] at hemp; simp at hemp
      rw [hnone]
      exact hcur
    · obtain ⟨hdur, -, hvald⟩ := Schedule.durable_admitted hadm
      rw [hdur]
      have hnamed := h.base.durable_named hcur
      cases hwrite : op.write current owned with
      | none =>
        rw [hwrite] at hvald
        rw [Tables.get?_apply_ne hvald.distinct]
        · exact hcur
        · intro rec hrec heq
          obtain hnew | hnoth := mem_append.mp hrec
          · have hfresh := (hmade rec hnew).1
            rw [heq, hcur] at hfresh
            cases hfresh
          · cases hnoth
      | some rec =>
        rw [hwrite] at hvald
        have hmem : rec ∈ mk.tasks ++ (some rec).toList := mem_append_right _ (.head _)
        have hself := Tables.get?_apply_self (t := sys.toSchedule.durable) hvald.distinct hmem
        rw [write_id hwrite, hnamed] at hself
        exact hself

/-! ## Progress -/

/-- A phase returned, and its task's committed checkpoint is the one it started from. -/
def Returned (sys : Dispatch V) (i : Nat) (record : AnyTaskRecord V) : Prop :=
  ∃ invocation checkpoint, sys.all[i]? = some invocation ∧ invocation.stage = .stepping (some ⟨checkpoint, none⟩) ∧
    Assoc.get? sys.durable.tasks invocation.taskId = some record ∧ record.state = .running checkpoint

/-- Neither the Harness nor a cancellation ends the task's invocation first. -/
def Unhindered (sys : Dispatch V) (record : AnyTaskRecord V) : Prop := record.abortRequested = false ∧ sys.closing = false ∧
    (record.background = true ∨ sys.mem.belowCancelled (parentNode record.toTaskNode) = false)

/-- Without progress a step ends the invocation: as faulted, unless something ends it first. -/
theorem stepPlan_returned {s : TaskScheduler V} {closing : Bool} {rec : AnyTaskRecord V} {cp : V} (hlive : s.task? id = some rec)
    (hrun : rec.state = .running cp) :
    (s.stepPlan id closing (some ⟨cp, none⟩) = .fault .noProgress ∨ s.stepPlan id closing (some ⟨cp, none⟩) = .end ∨
      s.stepPlan id closing (some ⟨cp, none⟩) = .cascade) ∧
    (rec.abortRequested = false → closing = false → rec.background = true ∨ s.belowCancelled (parentNode rec.toTaskNode) = false →
      s.stepPlan id closing (some ⟨cp, none⟩) = .fault .noProgress) := by
  unfold TaskScheduler.stepPlan
  rw [hlive]
  dsimp only
  rw [hrun]
  dsimp only
  unfold TaskScheduler.rules
  constructor
  · split
    · exact .inr (.inl rfl)
    · split
      · exact .inr (.inl rfl)
      · split
        · exact .inr (.inr rfl)
        · dsimp only
          rw [if_pos rfl]
          exact .inl rfl
  · intro hunmarked hopen hfree
    have hbel : ¬(!rec.background && s.belowCancelled (parentNode rec.toTaskNode)) = true := by
      obtain hback | hfree := hfree
      · rw [hback]
        exact Bool.false_ne_true
      · rw [hfree, Bool.and_false]
        exact Bool.false_ne_true
    rw [hopen, if_neg Bool.false_ne_true, hunmarked, if_neg Bool.false_ne_true, if_neg hbel]
    dsimp only
    rw [if_pos rfl]

omit [DecidableEq V] in
/-- A step that does not go on ends its invocation. -/
theorem applyStep_ends {handsOver : Bool} {err : StepFault V → V}
    (hcontinue : plan ≠ .continue) (hprogress : plan ≠ .progress) : (sys.applyStep i current plan handsOver err).1 = sys.finish i := by
  unfold applyStep
  split
  · exact absurd rfl hcontinue
  · exact absurd rfl hprogress
  · rfl
  · rfl

include hw hrun in
/-- **A task whose phase returned without progress does not go on**, and ends faulted where nothing ends its invocation
    first. -/
theorem judged {handsOver : Bool}
    {err : StepFault V → V} (hstep : Step sys (.applied i handsOver err) sys') :
    Steps.Passed Step (opened tables) labels sys fun mid label aft => (label = .steps i ∧ ∀ rec, mid.Returned i rec →
        (∃ inv, sys'.all[i]? = some inv ∧ inv.ended = true) ∧
        (mid.Unhindered rec → ∃ owned, Assoc.get? sys'.durable.tasks rec.id = some (terminate rec ⟨.faulted, err .noProgress⟩ owned))) ∧
      ∀ oth ∈ aft, oth.offLine = true := by
  have hfenced := fenced_of_steps hw hrun
  cases hstep with
  | @applied i current plan handsOver err base hjob hcomm =>
    obtain ⟨bef, label, aft, mid, next, hlabs, hbef, hmid, haft, ⟨hlab, inv, hi, hread, hstands, hstage⟩, hoff⟩ :=
      decided_of_steps hw hrun hjob
    refine ⟨bef, label, aft, mid, next, hlabs, hbef, hmid, haft, ⟨hlab, ?_⟩, hoff⟩
    rintro rec ⟨same, cp, hsame, hreturned, hrec, hrunning⟩
    rw [hi] at hsame
    cases hsame
    have hbase := (fenced_of_steps hw hbef).base
    have hlive : mid.mem.task? inv.taskId = some rec := by
      refine (hbase.mirrors.live inv.taskId rec).mpr ⟨hbase.durable_eq hstands ▸ hrec, ?_⟩
      rw [AnyTaskRecord.isLive, hrunning]
      rfl
    have hplan : plan = mid.mem.stepPlan inv.taskId mid.closing (some ⟨cp, none⟩) := by
      obtain ⟨prev, hstage, hplan⟩ | ⟨oth, hstage, -⟩ := hstage
      · rw [hreturned] at hstage
        cases hstage
        exact hplan
      · rw [hreturned] at hstage
        cases hstage
    obtain ⟨hends, hfaults⟩ := @stepPlan_returned V _ inv.taskId _ mid.closing _ _ hlive hrunning
    rw [← hplan] at hends hfaults
    have hcur : current = some rec := hread.trans hlive
    have hcontinue : plan ≠ .continue := by
      rintro rfl
      obtain h | h | h := hends <;> cases h
    have hprogress : plan ≠ .progress := by
      rintro rfl
      obtain h | h | h := hends <;> cases h
    obtain ⟨now, hnow, hkn⟩ := hfenced.job _ hjob
    constructor
    · have hfinished : (sys.applyStep i current plan handsOver err).1 = sys.finish i := applyStep_ends hcontinue hprogress
      obtain ⟨ended, hend, -, -, hover⟩ := (finish_frees sys i).self now hnow
      refine ⟨ended, ?_, hover⟩
      rw [hfinished]
      exact hend
    · intro hunhindered
      obtain rfl : plan = .fault .noProgress := hfaults hunhindered.1 hunhindered.2.1 hunhindered.2.2
      subst hcur
      refine ⟨sys.owns [] rec.id, ?_⟩
      show Assoc.get? base.durable.tasks rec.id = _
      obtain ⟨-, hemp, -⟩ | hadm := hcomm
      · cases hemp
      · obtain ⟨heq, -, hvald⟩ := Schedule.durable_admitted hadm
        have hmem : terminate rec ⟨.faulted, err .noProgress⟩ (sys.owns [] rec.id) ∈
            [terminate rec ⟨.faulted, err .noProgress⟩ (sys.owns [] rec.id)] := .head _
        have hself := Tables.get?_apply_self (t := (sys.applyStep i (some rec) (.fault .noProgress) handsOver err).1.durable) hvald.distinct hmem
        have hid : (terminate rec ⟨.faulted, err .noProgress⟩ (sys.owns [] rec.id)).id = rec.id := by
          unfold terminate withState
          split <;> rfl
        rw [hid] at hself
        rw [heq]
        exact hself

/-! ## Every run -/

/-- **Invocations are fenced.** -/
theorem fenced (hw : tables.WellFormed) (hrun : Steps Step (opened tables) labels sys) :
    -- At most one invocation of a task at any moment.
    (∀ (i j : Nat) (a b : Invocation V), sys.all[i]? = some a → sys.all[j]? = some b → a.ended = false → b.ended = false → a.taskId = b.taskId → i = j) ∧
    -- A phase starts only after a step, an abort handler only after a reservation, that saw the task so.
    (∀ (i : Nat) (current : AnyTaskRecord V) (sys' : Dispatch V), Step sys (.phaseStarts i current) sys' → ∃ invocation, sys.all[i]? = some invocation ∧
      Steps.Passed Step (opened tables) labels sys fun mid label _ => label = .steps i ∧ SawRunning mid invocation.taskId current) ∧
    (∀ (i : Nat) (invocation : Invocation V), sys.all[i]? = some invocation → invocation.mode = .abort →
      Steps.Passed Step (opened tables) labels sys fun mid label _ => (∃ now, label = .reserve now) ∧ SawMarked mid invocation.taskId) ∧
    -- An operation is decided before the step that ends its invocation, against the running record, or writes nothing; and
    -- once a mark is admitted no operation of a run writes.
    (∀ (i : Nat) (op : RuntimeOp V) (owned : Bool) (created : Commit V) (sys' : Dispatch V),
      Step sys (.writes i op owned created) sys' → ∃ invocation current, sys.all[i]? = some invocation ∧
      Steps.Passed Step (opened tables) labels sys (fun mid label after =>
        (label = .checks i ∧ mid.Checks i) ∧ ∀ other ∈ after, other.offLine = true) ∧
      Assoc.get? sys.durable.tasks invocation.taskId = some current ∧ current.state.isRunning = true ∧
      (invocation.mode = .run → current.abortRequested = false) ∧
      Assoc.get? sys'.durable.tasks invocation.taskId = some ((op.write current owned).getD current)) ∧
    (∀ (i : Nat) (sys' : Dispatch V), Step sys (.rejects i) sys' → sys'.toSchedule = sys.toSchedule) ∧
    (∀ (id : TaskId) (old : AnyTaskRecord V), Assoc.get? sys.durable.tasks id = some old → old.abortRequested = true →
      ∀ (later : List (DispatchLabel V)) (after : Dispatch V) (i : Nat) (op : RuntimeOp V) (owned : Bool) (created : Commit V)
        (sys' : Dispatch V) (invocation : Invocation V), Steps Step sys later after → Step after (.writes i op owned created) sys' →
        after.all[i]? = some invocation → invocation.taskId = id → invocation.mode ≠ .run) ∧
    -- A memo keeps the first value stored for it until the outcome is decided.
    (∀ (id : TaskId) (old : AnyTaskRecord V), Assoc.get? sys.durable.tasks id = some old →
      ∀ (later : List (DispatchLabel V)) (after : Dispatch V), Steps Step sys later after →
      ∃ new, Assoc.get? after.durable.tasks id = some new ∧ (new.state.outcome? = none → ∀ name value,
        Assoc.get? old.memos name = some value → Assoc.get? new.memos name = some value)) ∧
    -- A task whose phase returned without progress does not go on, and ends faulted unless something ends its invocation first.
    ∀ (i : Nat) (handsOver : Bool) (error : StepFault V → V) (sys' : Dispatch V), Step sys (.applied i handsOver error) sys' →
      Steps.Passed Step (opened tables) labels sys fun mid label after =>
        (label = .steps i ∧ ∀ record, mid.Returned i record →
          (∃ invocation, sys'.all[i]? = some invocation ∧ invocation.ended = true) ∧
          (mid.Unhindered record → ∃ owned, Assoc.get? sys'.durable.tasks record.id = some (terminate record ⟨.faulted, error .noProgress⟩ owned))) ∧
        ∀ other ∈ after, other.offLine = true := by
  have hfenced := fenced_of_steps hw hrun
  refine ⟨?_, ?_, ?_, ?_, ?_, ?_, ?_, ?_⟩
  · exact fun i j a b ha hb haended hbended htask => hfenced.unique ha hb haended hbended htask
  · intro i current sys' hstep
    cases hstep with
    | phaseStarts hi hstage => exact ⟨_, hi, saw_of_granted hw hrun hi hstage⟩
  · exact fun i invocation hi hmode => saw_of_aborting hw hrun hi hmode
  · intro i op owned created sys' hstep
    obtain ⟨invocation, current, hi, hjob, hrest⟩ := written hfenced hstep
    exact ⟨invocation, current, hi, fence_of_changing hw hrun hjob, hrest⟩
  · intro i sys' hstep
    cases hstep with
    | rejects => rfl
  · intro id old hold hmarked later after i op owned created sys' invocation hlater hstep hi htask hmode
    have hafter := hlater.invariant (fun h hstep => Fenced.step h hstep) hfenced
    obtain ⟨same, current, hsame, -, hcurrent, -, hunmarked, -⟩ := written hafter hstep
    rw [hi] at hsame
    cases hsame
    obtain ⟨new, hnew, hkeeps⟩ := kept_of_steps hfenced hlater hold
    rw [htask, hnew] at hcurrent
    cases hcurrent
    have hstill := hkeeps.marked hmarked
    rw [hunmarked hmode] at hstill
    cases hstill
  · intro id old hold later after hlater
    obtain ⟨new, hnew, hkeeps⟩ := kept_of_steps hfenced hlater hold
    exact ⟨new, hnew, hkeeps.memos⟩
  · exact fun i handsOver error sys' hstep => judged hw hrun hstep

/-- **What is admitted stays**: no task vanishes, no mark is taken back, no outcome becomes undecided. An invocation that has not
    ended is the one its task is registered with. -/
theorem records_stay (hw : tables.WellFormed) (hrun : Steps Step (opened tables) labels sys) :
    (∀ (id : TaskId) (old : AnyTaskRecord V), Assoc.get? sys.durable.tasks id = some old →
      ∀ (later : List (DispatchLabel V)) (after : Dispatch V), Steps Step sys later after →
      ∃ new, Assoc.get? after.durable.tasks id = some new ∧ (old.abortRequested = true → new.abortRequested = true) ∧
        (old.state.outcome?.isSome = true → new.state.outcome?.isSome = true)) ∧
    ∀ (id : TaskId) (i : Nat), sys.invocations id = some i ↔
      ∃ invocation, sys.all[i]? = some invocation ∧ invocation.taskId = id ∧ invocation.ended = false := by
  have hfenced := fenced_of_steps hw hrun
  refine ⟨fun id old hold later after hlater => ?_, fun id i => ⟨hfenced.indexed id i, ?_⟩⟩
  · obtain ⟨new, hnew, hkeeps⟩ := kept_of_steps hfenced hlater hold
    exact ⟨new, hnew, hkeeps.marked, hkeeps.decided⟩
  · rintro ⟨invocation, hi, rfl, hend⟩
    exact hfenced.registered i invocation hi hend

/-! ## One task

A pending task is created, reserved, and let go on; its phase starts, is abort-marked while it runs, and returns without a
commit. The step that follows finds the mark first. -/

section OneTask

open Schedule (committed chainTask)

def firstCommit : Commit Unit := ⟨[(1, none)], [chainTask 2 none false none]⟩

def runningTask : AnyTaskRecord Unit := { chainTask 2 none false none with state := .running () }

def markedTask : AnyTaskRecord Unit := withAbortMark runningTask none

/-- The task is there. -/
def createdTask : Dispatch Unit := { opened ⟨[], []⟩ with toSchedule := committed (opened ⟨[], []⟩).toSchedule firstCommit }

/-- A reservation has taken it. -/
def reservedTask : Dispatch Unit :=
  let taken := { createdTask with job := some (.reserve [chainTask 2 none false none] [] []) }.resolve (chainTask 2 none false none) [] [] [] (.ready none)
  { taken with toSchedule := committed taken.toSchedule ⟨[], [runningTask]⟩, job := none }

/-- Its first step has let it go on. -/
def grantedTask : Dispatch Unit := (reservedTask.start 0).setStage 0 (.granted runningTask)

/-- Its phase has returned, and it has been marked meanwhile. -/
def returnedTask : Dispatch Unit :=
  let marked := { grantedTask.setStage 0 (.phase ()) with toSchedule := committed grantedTask.toSchedule ⟨[], [markedTask]⟩ }
  marked.setStage 0 (.stepping (some ⟨(), none⟩))

/-- Another job's commit is admitted and published. -/
theorem steps_foreign {sys : Dispatch Unit} {com : Commit Unit} (hfree : sys.job = none) (hpend : sys.pending = [])
    (hvald : com.Valid sys.published) (hwrites : ∀ rec ∈ com.tasks, Assoc.get? sys.durable.tasks rec.id = none ∧ rec.Fresh ∨
      ∃ old, Assoc.get? sys.durable.tasks rec.id = some old ∧ Foreign sys.closing old rec) :
    Steps Step sys [DispatchLabel.foreign com, .memory .published] { sys with toSchedule := committed sys.toSchedule com } := by
  obtain ⟨mid, hadm, hpublish⟩ := Schedule.step_committed hpend hvald
  refine .head (.foreign hfree hwrites hadm) (.single ?_)
  exact @Step.memory Unit _ { sys with toSchedule := mid } _ _ (fun com hcomm => by cases hcomm) hpublish

theorem steps_created : Steps Step (opened (⟨[], []⟩ : Tables Unit)) [DispatchLabel.foreign firstCommit, .memory .published] createdTask := by
  refine steps_foreign rfl rfl ?_ fun rec hrec => ?_
  · constructor
    · decide
    · simp [opened, Schedule.opened]
    · simp [firstCommit]
    · decide
    · simp [opened, Schedule.opened]
    · intro rec hrec _
      obtain rfl := mem_singleton.mp hrec
      exact ⟨by decide, rfl⟩
  · obtain rfl := mem_singleton.mp hrec
    exact .inl ⟨rfl, rfl, rfl, (), rfl⟩

/-- No unpublished commit stands against any decision. -/
theorem stands_idle {sys : Schedule Unit} (hpend : sys.pending = []) (keys : List Key) : sys.stands keys := by
  intro key _ adm hadm
  rw [hpend] at hadm
  cases hadm

theorem steps_reserved : Steps Step createdTask
    [DispatchLabel.reserve 0, .resolve (.ready none), .reserved, .memory .published] reservedTask := by
  obtain ⟨mid, hadm, hpublish⟩ := @Schedule.step_committed
    ({ createdTask with job := some (.reserve [chainTask 2 none false none] [] []) }.resolve (chainTask 2 none false none) [] [] [] (.ready none)).toSchedule
    ⟨[], [runningTask]⟩ rfl (Schedule.valid_of_replaces (by decide) fun rec hrec => by
      obtain rfl := mem_singleton.mp hrec
      exact ⟨chainTask 2 none false none, rfl, rfl, rfl⟩)
  refine .head (.reserve rfl rfl (stands_idle rfl _)) (.head (.resolve rfl) (.head (.reserved rfl (.inr hadm)) (.single ?_)))
  exact .memory (fun com hcomm => by cases hcomm) hpublish

theorem steps_granted : Steps Step reservedTask [DispatchLabel.starts 0, .steps 0, .applied 0 false fun _ => ()] grantedTask := by
  refine .head (.starts rfl rfl fun ready ws mk hjob => by cases hjob) (.head (.steps rfl rfl rfl (stands_idle rfl _)) (.single ?_))
  exact @Step.applied Unit _ _ 0 (some runningTask) .continue false _ _ rfl (.inl ⟨rfl, rfl, rfl⟩)

theorem steps_returned : Steps Step grantedTask
    [DispatchLabel.phaseStarts 0 runningTask, .foreign ⟨[], [markedTask]⟩, .memory .published, .phaseReturns 0 none] returnedTask := by
  refine .head (.phaseStarts rfl rfl rfl rfl) (.trans (steps_foreign rfl rfl ?_ fun rec hrec => ?_) (.single ?_))
  · refine Schedule.valid_of_replaces (by decide) fun rec hrec => ?_
    obtain rfl := mem_singleton.mp hrec
    exact ⟨runningTask, rfl, rfl, rfl⟩
  · obtain rfl := mem_singleton.mp hrec
    exact .inr ⟨runningTask, rfl, .marked none .same⟩
  · exact .phaseReturns rfl rfl

/-- **A phase that made no progress does not always fault its task**: its invocation ends, without a write, when the mark
    is there first. -/
theorem unfaulted_without_progress : ∃ (labels : List (DispatchLabel Unit)) (decided left : Dispatch Unit),
    Steps Step (opened ⟨[], []⟩) labels returnedTask ∧ returnedTask.Returned 0 markedTask ∧ Step returnedTask (.steps 0) decided ∧
    Step decided (.applied 0 false fun _ => ()) left ∧ (left.all[0]?.map (·.ended)) = some true ∧
    (Assoc.get? left.durable.tasks 2).map (·.state) = some (.running ()) := by
  refine ⟨_, _, _, steps_created.trans (steps_reserved.trans (steps_granted.trans steps_returned)), ?_, .steps rfl rfl rfl (stands_idle rfl _),
    @Step.applied Unit _ _ 0 (some markedTask) .end false _ _ rfl (.inl ⟨rfl, rfl, rfl⟩), rfl, rfl⟩
  exact ⟨_, (), rfl, rfl, rfl, rfl⟩

/-- The phase starts after the step that saw its task run. -/
theorem fenced_granted : ∃ labels, Steps.Passed Step (opened (⟨[], []⟩ : Tables Unit)) labels grantedTask fun mid label _ =>
    label = .steps 0 ∧ SawRunning mid 2 runningTask := by
  have hrun := steps_created.trans (steps_reserved.trans steps_granted)
  obtain ⟨-, hphase, -⟩ := fenced Schedule.wellFormed_empty hrun
  obtain ⟨invocation, hi, hpassed⟩ := hphase 0 runningTask _ (.phaseStarts rfl rfl rfl rfl)
  cases hi
  exact ⟨_, hpassed⟩

/-- The granted task is registered with its invocation. -/
theorem records_stay_granted : grantedTask.invocations 2 = some 0 :=
  ((records_stay Schedule.wellFormed_empty (steps_created.trans (steps_reserved.trans steps_granted))).2 2 0).mpr ⟨_, rfl, rfl, rfl⟩

end OneTask

end Dispatch

end PiBridge.Durable
