import PiBridge.Durable.Ownership
import PiBridge.Lib.Steps

/-!
# `Durable.Cascade` — abort marks, and the commits a scheduler's memory follows

A reconcile pass marks what committed records imply: the tasks below an owner with cancellation intent, and the other
members of a `failFast` wait one of whose members failed (`planMarks`). The step before a phase asks the other way,
upward, whether such an intent reaches the task (`rules`). Both are decision regions: they read the memory and record
the keys they read, and what they decide stands only while none of these keys has an unpublished writer (`stands`).

`Schedule` is the life of the memory: commits are admitted on the line with the keys they write and published later, in
order, while chain loads, sweeps and the passes' candidate sets go their own ways.
-/

namespace PiBridge.Durable

open Lib

variable {V : Type}

/-! ## Keys -/

inductive Key where
  | task (id : TaskId)
  | conversation (id : ConversationId)
  /-- The live work listed below a node. -/
  | owned (node : Node)
  | roots
  | intent

namespace TaskScheduler

variable (s : TaskScheduler V)

/-- The memberships from a node up to and including the nearest live task, or the root conversation, and whether the walk
    ended at a root. -/
def chainKeys (overlay : Overlay V) : Nat → Node → List Key × Bool
  | 0, _ => ([], false)
  | fuel + 1, node =>
    let key := Key.owned node
    let on (above : Option Node) : List Key × Bool :=
      match above with
      | some above => (key :: (chainKeys overlay fuel above).1, (chainKeys overlay fuel above).2)
      | none => ([key], false)
    match node with
    | .conversation id =>
      match s.edge overlay id with
      | some none => ([key], true)
      | owner => on (owner.join.map .task)
    | .task id =>
      match (Assoc.get? overlay.tasks id).or (s.task? id) with
      | some record => if record.isLive then ([key], false) else on (some (parentNode record.toTaskNode))
      | none => on ((s.settled id).map parentNode)

/-- The ownership memberships a commit's task and conversation changes write, at its admission. -/
def membershipKeys (created : TaskId → Bool) (commit : Commit V) : List Key :=
  let overlay : Overlay V := ⟨commit.tasks.map fun record => (record.id, record), commit.conversations⟩
  (commit.tasks.flatMap fun record =>
    (if intentChanges (s.task? record.id) record then [.intent] else []) ++
      if created record.id || record.state.isTerminal then
        let start := parentNode record.toTaskNode
        let chain := s.chainKeys overlay (start.id + 1) start
        if chain.2 then chain.1 ++ [.roots] else chain.1
      else []) ++
  commit.conversations.flatMap fun c => c.2.elim [] fun owner => (s.chainKeys overlay (owner + 1) (.task owner)).1

/-- Everything a commit writes, as far as the scheduler reads it. -/
def commitKeys (created : TaskId → Bool) (commit : Commit V) : List Key :=
  commit.conversations.map (fun c => .conversation c.1) ++ commit.tasks.map (fun record => .task record.id) ++
    s.membershipKeys created commit

/-! ## Marks -/

/-- A mark a pass stages: the record it copies, and its reason. -/
structure Mark (V : Type) where
  record : AnyTaskRecord V
  reason : Option AbortReason

/-- Stage a mark: a request wins over a `restart` mark of the same pass and replaces a committed one. -/
def stageMark (marks : Assoc TaskId (Mark V)) (found : TaskId) (reason : Option AbortReason) : Assoc TaskId (Mark V) :=
  match s.task? found with
  | none => marks
  | some record =>
    if (Assoc.get? marks found).any (fun staged => staged.reason.isNone) then marks
    else if record.abortRequested && (record.abortReason.isNone || reason.isSome) then marks
    else Assoc.set marks found ⟨record, reason⟩

/-- Only an owner abandoned after a restart, and nothing else, passes its reason on. -/
def passedReason (owner : AnyTaskRecord V) : Option AbortReason :=
  if owner.abortReason = some .restart && !failedOutcome owner then some .restart else none

/-- The marks of the work below one owner with intent. The walk does not enter another such owner, whose own covers what
    is below it. -/
def markBelow (marks : Assoc TaskId (Mark V)) (id : TaskId) : Assoc TaskId (Mark V) :=
  match s.task? id with
  | none => marks
  | some owner =>
    (s.walkDown .none false (fun below => !decide (below ∈ s.intent)) (.task id)).foldl
      (fun marks visit => if visit.live.isSome && !visit.node.background then s.stageMark marks visit.id (passedReason owner) else marks)
      marks

/-- The members of a checked wait, while it is one. -/
def checkedMembers (waiter : TaskId) : List TaskId :=
  match s.task? waiter with
  | some record =>
    match record.state with
    | .waiting _ on _ => on
    | _ => []
  | none => []

/-- What is known of a member: `none` while it has to be read from Storage, `some none` when it is missing there. -/
def member? (ended : TaskId → Option (Option (AnyTaskRecord V))) (id : TaskId) : Option (Option (AnyTaskRecord V)) :=
  ((s.task? id).map some).or (ended id)

/-- The marks of one checked `failFast` wait: of every other live task, once one failed. -/
def markMembers (ended : TaskId → Option (Option (AnyTaskRecord V))) (marks : Assoc TaskId (Mark V)) (waiter : TaskId) :
    Assoc TaskId (Mark V) :=
  let on := s.checkedMembers waiter
  if on.any fun m => (s.member? ended m).join.any failedOutcome then
    on.foldl (fun marks m => if (s.task? m).any fun record => !failedOutcome record then s.stageMark marks m none else marks) marks
  else marks

/-- A marks decision: the `failFast` members it needs from Storage first, or the marks and the checks they settle. -/
inductive MarkPlan (V : Type) where
  | missing (ids : List TaskId)
  | decided (marks : Assoc TaskId (Mark V)) (checked : List TaskId)

/-- The abort marks committed records imply. -/
def planMarks (ended : TaskId → Option (Option (AnyTaskRecord V))) : MarkPlan V :=
  let missing := (s.failFastChecks.flatMap s.checkedMembers).filter fun m => (s.member? ended m).isNone
  if missing.isEmpty then
    .decided (s.failFastChecks.foldl (s.markMembers ended) (s.intent.foldl s.markBelow [])) s.failFastChecks
  else .missing missing

/-- `planMarks`, with the members it misses read from Storage as often as it asks. -/
def marks (tables : Tables V) : Nat → (TaskId → Option (Option (AnyTaskRecord V))) → MarkPlan V
  | 0, ended => s.planMarks ended
  | turns + 1, ended =>
    match s.planMarks ended with
    | .missing ids => marks tables turns fun id => if id ∈ ids then some (Assoc.get? tables.tasks id) else ended id
    | plan => plan

/-! ## Steps -/

/-- Outcome of the phase that just returned, judged by the next step. -/
structure PhaseResult (V : Type) where
  checkpoint : V
  failure : Option V

/-- Why a step writes `faulted`. -/
inductive StepFault (V : Type) where
  | threw (error : V)
  | noProgress

/-- Step decision: continue with the next phase, end the invocation, or end it by writing `faulted`. -/
inductive StepPlan (V : Type) where
  | continue
  | progress
  | end
  | cascade
  | fault (error : StepFault V)

/-- Precedence rules for a run invocation of a running task. -/
def rules [DecidableEq V] (current : AnyTaskRecord V) (checkpoint : V) (previous : Option (PhaseResult V)) : StepPlan V :=
  if current.abortRequested then .end
  -- An owner's cancellation intent ends it too, before its cascade marks it.
  else if !current.background && s.belowCancelled (parentNode current.toTaskNode) then .cascade
  else
    match previous with
    | none => .continue
    | some previous =>
      match previous.failure with
      | some error => .fault (.threw error)
      | none => if checkpoint = previous.checkpoint then .fault .noProgress else .progress

/-- The step before a phase: it reads the task's record, and ends the invocation of a task that is no longer running. -/
def stepPlan [DecidableEq V] (id : TaskId) (closing : Bool) (previous : Option (PhaseResult V)) : StepPlan V :=
  match s.task? id with
  | some current =>
    match current.state with
    | .running checkpoint => if closing then .end else s.rules current checkpoint previous
    | _ => .end
  | none => .end

/-- The conversations a walk up to a cancelling owner reads the edges of. -/
def cancellingReads : List UpStep → List Key
  | .task id node :: rest => if (s.task? id).any cancellationIntent || node.background then [] else cancellingReads rest
  | .conversation id :: rest => .conversation id :: cancellingReads rest
  | _ => []

/-- The keys `stepPlan` reads. -/
def stepKeys (id : TaskId) (closing : Bool) : List Key := .task id ::
    match s.task? id with
    | some current =>
      match current.state with
      | .running _ =>
        if closing || current.abortRequested || current.background then []
        else
          .intent :: if s.intent.isEmpty then [] else s.cancellingReads (s.stepsAbove .none (parentNode current.toTaskNode))
      | _ => []
    | none => []

end TaskScheduler

/-! ## Runs -/

/-- What the validation of a commit leaves through: new conversations and tasks under fresh identities, below records
    that exist, and replacements of live tasks that keep their place. -/
structure Commit.Valid (tables : Tables V) (commit : Commit V) : Prop where
  linked : (commit.conversations.map Prod.fst).Nodup
  unlinked : ∀ c ∈ commit.conversations, Assoc.get? tables.conversations c.1 = none
  owned : ∀ c ∈ commit.conversations, ∀ owner, c.2 = some owner → owner < c.1 ∧ (Assoc.get? (tables.apply commit).tasks owner).isSome
  distinct : (commit.tasks.map (·.id)).Nodup
  replaced : ∀ record ∈ commit.tasks, ∀ old, Assoc.get? tables.tasks record.id = some old →
    old.isLive = true ∧ record.toTaskNode = old.toTaskNode
  created : ∀ record ∈ commit.tasks, Assoc.get? tables.tasks record.id = none → (parentNode record.toTaskNode).id < record.id ∧
      match parentNode record.toTaskNode with
      | .task owner => (Assoc.get? (tables.apply commit).tasks owner).isSome
      | .conversation id => (Assoc.get? (tables.apply commit).conversations id).isSome

/-- An admitted commit, with the keys it writes. -/
structure Admitted (V : Type) where
  commit : Commit V
  keys : List Key

/-- Storage's published records, the memory, and the commits admitted and not published yet, oldest first. -/
structure Schedule (V : Type) where
  published : Tables V
  mem : TaskScheduler V
  pending : List (Admitted V)

namespace Schedule

variable (sys : Schedule V)

/-- The records once everything admitted is published. -/
def durable : Tables V := sys.pending.foldl (fun tables admitted => tables.apply admitted.commit) sys.published

/-- None of these keys has an unpublished writer: a decision that read them stands. -/
def stands (keys : List Key) : Prop := ∀ key ∈ keys, ∀ admitted ∈ sys.pending, key ∉ admitted.keys

/-- Statuses in the order a scheduler loads them when it opens. -/
def liveStatuses (state : TaskState V) : Option Nat :=
  match state with
  | .pending _ => some 0
  | .running _ => some 1
  | .waiting _ _ _ => some 2
  | .sleeping _ _ => some 3
  | .completing _ => some 4
  | .terminal _ => none

/-- The live tasks of Storage, status by status. -/
def liveTasks (tables : Tables V) : List (AnyTaskRecord V) :=
  (List.range 5).flatMap fun status => (tables.tasks.map Prod.snd).filter fun record => liveStatuses record.state = some status

/-- A scheduler that opens over stored records. -/
def opened (tables : Tables V) : Schedule V where
  published := tables
  mem := (liveTasks tables).foldl
    (fun mem record =>
      let tracked := mem.track none record
      if TaskScheduler.waitsFailFast record then { tracked with failFastChecks := OrderedSet.add tracked.failFastChecks record.id } else tracked)
    .empty
  pending := []

end Schedule

/-- What happens to the memory and the commits it follows. -/
inductive SchedulerLabel (V : Type) where
  | admitted (commit : Commit V)
  | published
  /-- One turn of a chain load, over the candidates of the job that loads. -/
  | load (overlay : Overlay V) (load : TaskScheduler.ChainLoad)
  | loaded (passed : List TaskId)
  | unpin (node : Node)
  | sweep
  /-- Passes took candidates, or put them back. -/
  | candidates (runnable finalizeChecks failFastChecks : List TaskId)

namespace Schedule

/-- A task whose record the line reads, to replace it, has no unpublished writer. -/
def Readable (sys : Schedule V) (commit : Commit V) : Prop := ∀ record ∈ commit.tasks, sys.stands [.task record.id]

/-- A chain load reads a node that is not known, once no admitted commit that writes it is left to publish. The validation
    of a task has found the conversation it hangs from. -/
def Loads (sys : Schedule V) (overlay : Overlay V) : Option Node → Prop
  | some (.task id) => sys.mem.node? .none id = none → Assoc.get? overlay.tasks id = none → sys.stands [.task id]
  | some (.conversation id) =>
    sys.mem.edge overlay id = none → sys.stands [.conversation id] ∧ (Assoc.get? sys.published.conversations id).isSome
  | none => True

/-- One step. -/
inductive Step : Schedule V → SchedulerLabel V → Schedule V → Prop where
  | admitted {sys : Schedule V} {commit : Commit V} (hvalid : commit.Valid sys.durable) (hreadable : sys.Readable commit) :
      Step sys (.admitted commit)
        { sys with
          pending := sys.pending ++ [⟨commit, sys.mem.commitKeys (fun id => (Assoc.get? sys.durable.tasks id).isNone) commit⟩] }
  | published {sys : Schedule V} {admitted : Admitted V} {rest : List (Admitted V)} (hpending : sys.pending = admitted :: rest) :
      Step sys .published ⟨sys.published.apply admitted.commit, sys.mem.observe admitted.commit, rest⟩
  | load {sys : Schedule V} {overlay : Overlay V} {load : TaskScheduler.ChainLoad} (hreads : sys.Loads overlay load.next) :
      Step sys (.load overlay load) { sys with mem := (sys.mem.loadNext sys.published overlay load).1 }
  | loaded {sys : Schedule V} {passed : List TaskId} : Step sys (.loaded passed) { sys with mem := sys.mem.loaded passed }
  | unpin {sys : Schedule V} {node : Node} : Step sys (.unpin node) { sys with mem := sys.mem.unpin node }
  | sweep {sys : Schedule V} : Step sys .sweep { sys with mem := sys.mem.sweep }
  | candidates {sys : Schedule V} {runnable finalizeChecks failFastChecks : List TaskId} :
      Step sys (.candidates runnable finalizeChecks failFastChecks)
        { sys with mem := { sys.mem with runnable, finalizeChecks, failFastChecks } }

end Schedule

end PiBridge.Durable
