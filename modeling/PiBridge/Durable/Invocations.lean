import PiBridge.Durable.Cascade
import Mathlib.Data.List.Dedup

/-!
# `Durable.Invocations` — reservations, steps, and the operations of handlers

A reservation pass takes runnable tasks into invocations. Before each phase a step decides on the line whether the
invocation goes on; handlers run off the line, and what they commit goes through a gate (`gated`) that checks the
invocation before its job is queued, when it holds the line, and again once its decision region stands. One job holds the
line at a time, while publications, loads and the end of the Harness come whenever they like.

What a registry resolves, what a clock shows and what a handler does are not the scheduler's: the labels carry them.
-/

namespace PiBridge.Durable

open Lib

variable {V : Type}

namespace TaskScheduler

variable (s : TaskScheduler V)

/-- The live ordinary owned work of `owner`. The walk does not enter tasks that are done. -/
def ownedLive (overlay : Overlay V) (done : TaskId → Bool) (owner : TaskId) : List TaskId :=
  ((s.walkDown overlay false (fun id => !done id) (.task owner)).filter fun visit => visit.live.isSome && !visit.node.background).map (·.id)

def hasOwnedLive (overlay : Overlay V) (done : TaskId → Bool) (owner : TaskId) : Bool := !(s.ownedLive overlay done owner).isEmpty

/-- Live tasks a task waits for before its next invocation: its live ordinary owned work when abort-marked, since abort runs
    bottom-up, otherwise the live part of the `on` of a wait. -/
def waitingOn (record : AnyTaskRecord V) : List TaskId :=
  if record.abortRequested then s.ownedLive .none (fun _ => false) record.id
  else
    match record.state with
    | .waiting _ on _ => on.filter fun id => (s.task? id).isSome
    | _ => []

/-- A sleep whose time the clock has not reached; an abort mark ends a sleep. -/
def notDue (now : Nat) (record : AnyTaskRecord V) : Bool :=
  match record.state with
  | .sleeping _ wakeAt => !record.abortRequested && decide (now < wakeAt)
  | _ => false

/-- What a reservation pass finds of a candidate. -/
inductive Candidate (V : Type) where
  | dropped
  | cascade
  | ready (record : AnyTaskRecord V)

/-- A candidate with an invocation, and one that is gone, holds its outcome, waits or sleeps, is dropped; one below an owner
    with cancellation intent waits for its mark. -/
def candidate (now : Nat) (invoked : TaskId → Bool) (id : TaskId) : Candidate V :=
  if invoked id then .dropped
  else
    match s.task? id with
    | none => .dropped
    | some record =>
      if record.state.isCompleting || !(s.waitingOn record).isEmpty || notDue now record then .dropped
      else if !record.abortRequested && !record.background && s.belowCancelled (parentNode record.toTaskNode) then .cascade
      else .ready record

def Candidate.record? : Candidate V → Option (AnyTaskRecord V)
  | .ready record => some record
  | _ => none

/-- A reservation pass's decision: the runnable records to resolve. `runnable` is a set. -/
def planReservation (now : Nat) (invoked : TaskId → Bool) : List (AnyTaskRecord V) :=
  s.runnable.dedup.filterMap fun id => (s.candidate now invoked id).record?

/-- The record keys a reservation pass reads. -/
def reservationKeys (invoked : TaskId → Bool) : List Key := (s.runnable.filter fun id => !invoked id).map .task

end TaskScheduler

open TaskScheduler (PhaseResult StepPlan StepFault)

/-! ## What is written -/

/-- The record without its restart count, as after a state the task committed. -/
def progressed (record : AnyTaskRecord V) : AnyTaskRecord V := { record with restarts := none }

/-- An outcome, held as `completing` while the task's ordinary owned work is live. -/
def outcomeState (outcome : TaskOutcome V) (owned : Bool) : TaskState V := if owned then .completing outcome else .terminal outcome

/-- Write an outcome the scheduler decided. -/
def terminate (record : AnyTaskRecord V) (outcome : TaskOutcome V) (owned : Bool) : AnyTaskRecord V :=
  withState record (outcomeState outcome owned)

/-- Replace a running task's state with what it committed. A state that differs from the current one is progress. -/
def commitState [DecidableEq V] (current : AnyTaskRecord V) (next : TaskState V) (owned : Bool) : AnyTaskRecord V :=
  match next with
  | .terminal outcome =>
    if owned then withState (progressed current) (.completing outcome) else withState (progressed current) next
  | _ => withState (if current.state = next then current else progressed current) next

/-- What a handler has its invocation commit. -/
inductive RuntimeOp (V : Type) where
  | commit (next : Option (TaskState V))
  | memo (name : String) (candidate : V)
  | sleepUntil (wakeAt : Nat) (checkpoint : V)

/-- The task's record an operation writes over the running one, if it writes any. -/
def RuntimeOp.write [DecidableEq V] (op : RuntimeOp V) (current : AnyTaskRecord V) (owned : Bool) : Option (AnyTaskRecord V) :=
  match op with
  | .commit next => next.map fun next => commitState current next owned
  -- The first value stored wins.
  | .memo name candidate =>
    if (Assoc.get? current.memos name).isSome then none else some { current with memos := Assoc.set current.memos name candidate }
  | .sleepUntil wakeAt checkpoint => some (commitState current (.sleeping checkpoint wakeAt) owned)

/-- What the other jobs of the Session make of a task's record, one after another in a commit: abort marks, outcomes held
    and ended, and, at close, a running task pending again. -/
inductive Foreign (closing : Bool) (old : AnyTaskRecord V) : AnyTaskRecord V → Prop where
  | same : Foreign closing old old
  | marked {record : AnyTaskRecord V} (reason : Option AbortReason) :
      Foreign closing old record → Foreign closing old (withAbortMark record reason)
  | ended {record : AnyTaskRecord V} (outcome : TaskOutcome V) (owned : Bool) :
      Foreign closing old record → Foreign closing old (terminate record outcome owned)
  | stopped {record : AnyTaskRecord V} {checkpoint : V} : Foreign closing old record → closing = true →
      record.state = .running checkpoint → Foreign closing old (withState record (.pending checkpoint))

/-- The record of a task a commit creates. -/
def AnyTaskRecord.Fresh (record : AnyTaskRecord V) : Prop :=
  record.abortRequested = false ∧ record.memos = [] ∧ ∃ checkpoint, record.state = .pending checkpoint

/-! ## Invocations -/

/-- Whether an invocation runs phases, or the abort handler. -/
inductive Mode where
  | run
  | abort
deriving DecidableEq

/-- Where an invocation is. -/
inductive Stage (V : Type) where
  /-- Taken by a reservation that is not delivered yet. -/
  | reserved
  /-- It waits for the step after a phase, the first one after none. -/
  | stepping (previous : Option (PhaseResult V))
  /-- A step let it go on. -/
  | granted (current : AnyTaskRecord V)
  /-- A phase handler runs. -/
  | phase (checkpoint : V)
  /-- The abort handler runs. -/
  | aborting
  /-- It waits for the step that faults an abort handler without an outcome. -/
  | faulting (error : V)
  | left

structure Invocation (V : Type) where
  taskId : TaskId
  mode : Mode
  ended : Bool
  stage : Stage V

/-- The job that holds the line. -/
inductive Job (V : Type) where
  /-- A reservation pass, with the records it has not taken yet, what it writes, and the invocations it created. -/
  | reserve (ready writes : List (AnyTaskRecord V)) (created : List Nat)
  /-- A step whose decision stands. -/
  | step (i : Nat) (current : Option (AnyTaskRecord V)) (plan : StepPlan V)
  /-- An operation that holds the line. -/
  | entered (i : Nat) (op : RuntimeOp V)
  /-- Its decision region stands. -/
  | decided (i : Nat) (op : RuntimeOp V) (current : AnyTaskRecord V)
  /-- It passed its last check. -/
  | changing (i : Nat) (op : RuntimeOp V) (current : AnyTaskRecord V)

structure Dispatch (V : Type) extends Schedule V where
  closing : Bool
  /-- The invocation of each task that has one. -/
  invocations : TaskId → Option Nat
  /-- Every invocation created, by its identity. -/
  all : List (Invocation V)
  job : Option (Job V)

namespace Dispatch

variable (sys : Dispatch V)

/-- A Harness that opens over stored records. -/
def opened (tables : Tables V) : Dispatch V where
  toSchedule := Schedule.opened tables
  closing := false
  invocations := fun _ => none
  all := []
  job := none

def setStage (i : Nat) (stage : Stage V) : Dispatch V := { sys with all := sys.all.modify i fun invocation => { invocation with stage } }

/-- End an invocation: its runtime operations reject from now on, and its task is free. -/
def finish (i : Nat) : Dispatch V :=
  match sys.all[i]? with
  | none => sys
  | some invocation =>
    if invocation.ended then sys
    else
      let freed := sys.invocations invocation.taskId = some i
      { sys with
        all := sys.all.modify i fun invocation => { invocation with ended := true, stage := .left }
        invocations := if freed then Function.update sys.invocations invocation.taskId none else sys.invocations
        mem := if freed && (sys.mem.task? invocation.taskId).isSome then
            { sys.mem with runnable := OrderedSet.add sys.mem.runnable invocation.taskId }
          else sys.mem }

/-- Take a task into a new invocation, whose record a reservation writes as running. -/
def createInvocation (taskId : TaskId) (mode : Mode) : Dispatch V :=
  { sys with
    invocations := Function.update sys.invocations taskId (some sys.all.length)
    all := sys.all ++ [⟨taskId, mode, false, .reserved⟩]
    mem := { sys.mem with runnable := OrderedSet.delete sys.mem.runnable taskId } }

/-- Take back an invocation that never started. -/
def takeBack (i : Nat) : Dispatch V :=
  match sys.all[i]? with
  | none => sys
  | some invocation =>
    { sys with
      all := sys.all.modify i fun invocation => { invocation with ended := true, stage := .left }
      invocations := Function.update sys.invocations invocation.taskId none
      mem := { sys.mem with runnable := OrderedSet.add sys.mem.runnable invocation.taskId } }

/-- Take a reservation's invocations back: its commit failed. -/
def withdraw (created : List Nat) : Dispatch V := created.foldl takeBack sys

end Dispatch

/-- What a registry makes of a record to reserve. -/
inductive Resolution (V : Type) where
  /-- Cut off too often: it ends `faulted`. -/
  | cutOff (error : V)
  /-- No definition can take it: an abort request ends it `orphaned`. -/
  | blocked (reason : V)
  /-- A definition takes it, after a migration of its other fields and its checkpoint where it is newer. -/
  | ready (migrated : Option (V × V))

/-- The checkpoint of a state a task can run from. -/
def TaskState.checkpoint? : TaskState V → Option V
  | .pending checkpoint | .running checkpoint | .waiting checkpoint _ _ | .sleeping checkpoint _ => some checkpoint
  | .completing _ | .terminal _ => none

def TaskState.isRunning : TaskState V → Bool
  | .running _ => true
  | _ => false

/-- What a reservation writes of a record. -/
def Resolution.write (resolution : Resolution V) (record : AnyTaskRecord V) (owned : Bool) : Option (AnyTaskRecord V) :=
  match resolution with
  | .cutOff error => some (terminate record ⟨.faulted, error⟩ owned)
  | .blocked reason =>
    -- An abandoned task waits for its definition, so its abort handler can clean up.
    if record.abortRequested && record.abortReason.isNone then some (terminate record ⟨.orphaned, reason⟩ owned) else none
  | .ready (some (rest, checkpoint)) => some (withState { record with rest } (.running checkpoint))
  | .ready none =>
    if record.state.isRunning then none else record.state.checkpoint?.map fun checkpoint => withState record (.running checkpoint)

def Resolution.takes : Resolution V → Bool
  | .ready _ => true
  | _ => false

/-- An abort handler can neither wait nor sleep, and no handler holds an outcome itself. -/
def RuntimeOp.allowed (mode : Mode) : RuntimeOp V → Bool
  | .commit none | .memo _ _ => true
  | .commit (some (.running _)) | .commit (some (.terminal _)) => true
  | .commit (some (.waiting _ _ _)) | .commit (some (.sleeping _ _)) | .sleepUntil _ _ => mode = .run
  | .commit (some (.pending _)) | .commit (some (.completing _)) => false

/-- The candidates a job staged. -/
def Overlay.ofWrites (records : List (AnyTaskRecord V)) : Overlay V := ⟨records.map fun record => (record.id, record), []⟩

namespace Dispatch

variable (sys : Dispatch V)

/-- Whether a task the job writes an outcome of has live ordinary owned work. -/
def owns (writes : List (AnyTaskRecord V)) (id : TaskId) : Bool := sys.mem.hasOwnedLive (.ofWrites writes) (fun _ => false) id

/-- A reservation resolves its next record. -/
def resolve (record : AnyTaskRecord V) (ready writes : List (AnyTaskRecord V)) (created : List Nat) (resolution : Resolution V) : Dispatch V :=
  let writes' := writes ++ (resolution.write record (sys.owns writes record.id)).toList
  if resolution.takes then
    { sys.createInvocation record.id (if record.abortRequested then .abort else .run) with
      job := some (.reserve ready writes' (created ++ [sys.all.length])) }
  else { sys with job := some (.reserve ready writes' created) }

/-- A delivered reservation starts: a run with its first step, an abort handler at once. -/
def start (i : Nat) : Dispatch V :=
  match sys.all[i]? with
  | none => sys
  | some invocation =>
    match invocation.mode with
    | .run => sys.setStage i (.stepping none)
    | .abort => if (sys.mem.task? invocation.taskId).isNone || sys.closing then sys.finish i else sys.setStage i .aborting

/-- The step that faults an abort handler which returned without an outcome. -/
def abortPlan (id : TaskId) (error : V) : StepPlan V :=
  if (sys.mem.task? id).any (·.state.isRunning) && !sys.closing then .fault (.threw error) else .end

/-- Apply a step's decision: the invocation goes on or ends, with what the step commits. -/
def applyStep (i : Nat) (current : Option (AnyTaskRecord V)) (plan : StepPlan V) (handsOver : Bool) (error : StepFault V → V) :
    Dispatch V × List (AnyTaskRecord V) :=
  match current, plan with
  | some current, .continue => (sys.setStage i (.granted current), [])
  | some current, .progress =>
    if handsOver then
      -- A replacement definition takes the task, as pending.
      (sys.finish i, (current.state.checkpoint?.map fun checkpoint => withState current (.pending checkpoint)).toList)
    else (sys.setStage i (.granted current), [])
  | some current, .fault fault => (sys.finish i, [terminate current ⟨.faulted, error fault⟩ (sys.owns [] current.id)])
  | _, _ => (sys.finish i, [])

end Dispatch

/-- What happens on and off the line. -/
inductive DispatchLabel (V : Type) where
  /-- Publications, loads and sweeps. -/
  | memory (label : SchedulerLabel V)
  /-- Any other job's commit. -/
  | foreign (commit : Commit V)
  | closing
  | reserve (now : Nat)
  /-- A reservation pass resolves its next record. -/
  | resolve (resolution : Resolution V)
  | reserved
  | withdrawn
  | starts (i : Nat)
  /-- A step's decision stands. -/
  | steps (i : Nat)
  /-- A step's decision is applied; `handsOver`: a replacement definition takes the task. -/
  | applied (i : Nat) (handsOver : Bool) (error : StepFault V → V)
  | stepRejected (i : Nat)
  | phaseStarts (i : Nat) (current : AnyTaskRecord V)
  | phaseReturns (i : Nat) (failure : Option V)
  | abortReturns (i : Nat) (error : V)
  /-- The loop of an invocation ends, as the Harness closes. -/
  | leaves (i : Nat)
  | enters (i : Nat) (op : RuntimeOp V)
  | decides (i : Nat) (current : AnyTaskRecord V)
  | checks (i : Nat)
  /-- An operation's commit is admitted, with the tasks and conversations its callback created. -/
  | writes (i : Nat) (op : RuntimeOp V) (owned : Bool) (created : Commit V)
  | rejects (i : Nat)

namespace Dispatch

/-- A job ends with its commit admitted, if it has one. -/
def Commits (before : Schedule V) (commit : Commit V) (after : Schedule V) : Prop :=
  commit.conversations = [] ∧ commit.tasks = [] ∧ after = before ∨ Schedule.Step before (.admitted commit) after

/-- One step. -/
inductive Step [DecidableEq V] : Dispatch V → DispatchLabel V → Dispatch V → Prop where
  | memory {sys : Dispatch V} {label : SchedulerLabel V} {base : Schedule V} (hlabel : ∀ commit, label ≠ .admitted commit)
      (hstep : Schedule.Step sys.toSchedule label base) : Step sys (.memory label) { sys with toSchedule := base }
  | foreign {sys : Dispatch V} {commit : Commit V} {base : Schedule V} (hfree : sys.job = none)
      (hwrites : ∀ record ∈ commit.tasks, Assoc.get? sys.durable.tasks record.id = none ∧ record.Fresh ∨
        ∃ old, Assoc.get? sys.durable.tasks record.id = some old ∧ Foreign sys.closing old record)
      (hadmitted : Schedule.Step sys.toSchedule (.admitted commit) base) : Step sys (.foreign commit) { sys with toSchedule := base }
  | closing {sys : Dispatch V} : Step sys .closing { sys with closing := true }
  | reserve {sys : Dispatch V} {now : Nat} (hfree : sys.job = none) (hopen : sys.closing = false)
      (hstands : sys.stands (sys.mem.reservationKeys fun id => (sys.invocations id).isSome)) :
      Step sys (.reserve now) { sys with job := some (.reserve (sys.mem.planReservation now fun id => (sys.invocations id).isSome) [] []) }
  | resolve {sys : Dispatch V} {record : AnyTaskRecord V} {ready writes : List (AnyTaskRecord V)} {created : List Nat}
      {resolution : Resolution V} (hjob : sys.job = some (.reserve (record :: ready) writes created)) :
      Step sys (.resolve resolution) (sys.resolve record ready writes created resolution)
  | reserved {sys : Dispatch V} {writes : List (AnyTaskRecord V)} {created : List Nat} {base : Schedule V}
      (hjob : sys.job = some (.reserve [] writes created)) (hcommit : Commits sys.toSchedule ⟨[], writes⟩ base) :
      Step sys .reserved { sys with toSchedule := base, job := none }
  | withdrawn {sys : Dispatch V} {ready writes : List (AnyTaskRecord V)} {created : List Nat}
      (hjob : sys.job = some (.reserve ready writes created)) : Step sys .withdrawn { sys.withdraw created with job := none }
  | starts {sys : Dispatch V} {i : Nat} {invocation : Invocation V} (hi : sys.all[i]? = some invocation) (hstage : invocation.stage = .reserved)
      (hdelivered : ∀ ready writes created, sys.job = some (.reserve ready writes created) → i ∉ created) : Step sys (.starts i) (sys.start i)
  | steps {sys : Dispatch V} {i : Nat} {invocation : Invocation V} {previous : Option (PhaseResult V)} (hfree : sys.job = none)
      (hi : sys.all[i]? = some invocation) (hstage : invocation.stage = .stepping previous)
      (hstands : sys.stands (sys.mem.stepKeys invocation.taskId sys.closing)) :
      Step sys (.steps i) { sys with
        job := some (.step i (sys.mem.task? invocation.taskId) (sys.mem.stepPlan invocation.taskId sys.closing previous)) }
  | faults {sys : Dispatch V} {i : Nat} {invocation : Invocation V} {error : V} (hfree : sys.job = none)
      (hi : sys.all[i]? = some invocation) (hstage : invocation.stage = .faulting error) (hstands : sys.stands [.task invocation.taskId]) :
      Step sys (.steps i) { sys with
        job := some (.step i (sys.mem.task? invocation.taskId) (sys.abortPlan invocation.taskId error)) }
  | applied {sys : Dispatch V} {i : Nat} {current : Option (AnyTaskRecord V)} {plan : StepPlan V} {handsOver : Bool}
      {error : StepFault V → V} {base : Schedule V} (hjob : sys.job = some (.step i current plan))
      (hcommit : Commits (sys.applyStep i current plan handsOver error).1.toSchedule ⟨[], (sys.applyStep i current plan handsOver error).2⟩ base) :
      Step sys (.applied i handsOver error) { (sys.applyStep i current plan handsOver error).1 with toSchedule := base, job := none }
  | stepRejected {sys : Dispatch V} {i : Nat} {invocation : Invocation V} (hi : sys.all[i]? = some invocation)
      (hstage : (∃ previous, invocation.stage = .stepping previous) ∨ ∃ error, invocation.stage = .faulting error)
      (hclosing : sys.closing = true) (hjob : ∀ current plan, sys.job ≠ some (.step i current plan)) :
      Step sys (.stepRejected i) (sys.finish i)
  | phaseStarts {sys : Dispatch V} {i : Nat} {invocation : Invocation V} {current : AnyTaskRecord V} {checkpoint : V}
      (hi : sys.all[i]? = some invocation) (hstage : invocation.stage = .granted current) (hopen : sys.closing = false)
      (hrunning : current.state = .running checkpoint) : Step sys (.phaseStarts i current) (sys.setStage i (.phase checkpoint))
  | leaves {sys : Dispatch V} {i : Nat} {invocation : Invocation V} {current : AnyTaskRecord V} (hi : sys.all[i]? = some invocation)
      (hstage : invocation.stage = .granted current) (hclosing : sys.closing = true) : Step sys (.leaves i) (sys.finish i)
  | phaseReturns {sys : Dispatch V} {i : Nat} {invocation : Invocation V} {checkpoint : V} {failure : Option V}
      (hi : sys.all[i]? = some invocation) (hstage : invocation.stage = .phase checkpoint) :
      Step sys (.phaseReturns i failure) (sys.setStage i (.stepping (some ⟨checkpoint, failure⟩)))
  | abortReturns {sys : Dispatch V} {i : Nat} {invocation : Invocation V} {error : V} (hi : sys.all[i]? = some invocation)
      (hstage : invocation.stage = .aborting) : Step sys (.abortReturns i error) (sys.setStage i (.faulting error))
  | enters {sys : Dispatch V} {i : Nat} {invocation : Invocation V} {op : RuntimeOp V} (hfree : sys.job = none)
      (hi : sys.all[i]? = some invocation) (hended : invocation.ended = false) (hopen : sys.closing = false) :
      Step sys (.enters i op) { sys with job := some (.entered i op) }
  | decides {sys : Dispatch V} {i : Nat} {invocation : Invocation V} {op : RuntimeOp V} {current : AnyTaskRecord V}
      (hjob : sys.job = some (.entered i op)) (hi : sys.all[i]? = some invocation) (hlive : sys.mem.task? invocation.taskId = some current)
      (hrunning : current.state.isRunning = true) (hunmarked : invocation.mode = .run → current.abortRequested = false)
      (hstands : sys.stands [.task invocation.taskId]) : Step sys (.decides i current) { sys with job := some (.decided i op current) }
  | checks {sys : Dispatch V} {i : Nat} {invocation : Invocation V} {op : RuntimeOp V} {current : AnyTaskRecord V}
      (hjob : sys.job = some (.decided i op current)) (hi : sys.all[i]? = some invocation) (hended : invocation.ended = false) :
      Step sys (.checks i) { sys with job := some (.changing i op current) }
  | writes {sys : Dispatch V} {i : Nat} {invocation : Invocation V} {op : RuntimeOp V} {current : AnyTaskRecord V} {owned : Bool}
      {created : Commit V} {base : Schedule V} (hjob : sys.job = some (.changing i op current)) (hi : sys.all[i]? = some invocation)
      (hallowed : op.allowed invocation.mode = true)
      (hcreated : ∀ record ∈ created.tasks, Assoc.get? sys.durable.tasks record.id = none ∧ record.Fresh)
      (hcommit : Commits sys.toSchedule ⟨created.conversations, created.tasks ++ (op.write current owned).toList⟩ base) :
      Step sys (.writes i op owned created) { sys with toSchedule := base, job := none }
  | rejects {sys : Dispatch V} {i : Nat} {op : RuntimeOp V} {current : AnyTaskRecord V}
      (hjob : sys.job = some (.entered i op) ∨ sys.job = some (.decided i op current) ∨ sys.job = some (.changing i op current)) :
      Step sys (.rejects i) { sys with job := none }

end Dispatch

end PiBridge.Durable
