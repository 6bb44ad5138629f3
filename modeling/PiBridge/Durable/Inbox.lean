import PiBridge.Durable.Transaction
import PiBridge.Lib.Positions
import PiBridge.Lib.Steps

/-!
# `Durable.Inbox` — submissions, the queue of a conversation, and the boundaries that place what is queued

A submission is admitted in one commit (`admitSubmission`): it is placed at once, or it is queued in its conversation's
`pi.inbox` and waits for a boundary of the run (`applyBoundary`). The inbox is a document, the submissions are records of
their own whose changes a commit resolves at its end, and the run lists the submissions it settles; what each of the
commits below does to the three is all that keeps them together.

What the commits of a run append besides, their hooks and their settings are arguments of the labels.
-/

namespace PiBridge.Durable

open Lib
open Transaction (foldSubmissions)

variable {V O : Type}

/-! ## Drafts and items -/

/-- The entry a draft's head names, for an entry `own`. -/
def headEntry (own : EntryId) : EntryId ⊕ Unit → EntryId
  | .inl entry => entry
  | .inr () => own

/-- An entry to write. `model` and `edits` say whether it carries these parts, which `rest` holds with the others. -/
structure WriteDraft (V : Type) extends EntryDraft V where
  model : Bool
  edits : Bool

/-- Kind and data of the entry an input is placed as. -/
structure InputEntry (V : Type) where
  kind : String
  data : Option V

inductive UserMode where
  | steer
  | followUp
deriving DecidableEq

/-- A queued submission: user input for a run, or an entry write. -/
inductive InboxItem (V : Type) where
  | user (id : SubmissionId) (mode : UserMode) (content : V) (entry : Option (InputEntry V))
  | write (id : SubmissionId) (entry : WriteDraft V)

namespace InboxItem

def id : InboxItem V → SubmissionId
  | user id _ _ _ | write id _ => id

def isMode (mode : UserMode) : InboxItem V → Bool
  | user _ mode' _ _ => mode' = mode
  | write _ _ => false

def isWrite : InboxItem V → Bool
  | user _ _ _ _ => false
  | write _ _ => true

/-- A `head: "self"` write. -/
def isReset : InboxItem V → Bool
  | user _ _ _ _ => false
  | write _ entry => entry.head.any Sum.isRight

/-- The type of the submission an item queues. -/
def type : InboxItem V → SubmissionType
  | user _ _ _ _ => .input
  | write _ _ => .write

end InboxItem

inductive QueueMode where
  | all
  | oneAtATime
deriving DecidableEq

/-- The settings a boundary reads. -/
structure QueueModes where
  steeringMode : QueueMode
  followUpMode : QueueMode

/-- A reset is queued. -/
def hasQueuedReset (items : List (InboxItem V)) : Bool := items.any InboxItem.isReset

/-- A write changes nothing the model sees. -/
def isDisplayOnly (entry : WriteDraft V) : Bool := !entry.model && entry.head.isNone && !entry.edits

/-- A head write targets an entry before the active range, so placing it would bring back cut history. -/
def isStale (head : Option EntryId) (entry : EntryDraft V) : Bool :=
  match entry.head, head with
  | some (.inl target), some start => decide (target < start)
  | _, _ => false

/-! ## Runs -/

/-- Run control: present exactly while a conversation is busy. -/
structure LiveRun where
  taskId : TaskId
  /-- The run's placed inputs, settled when it ends. -/
  inputs : List SubmissionId
  first : Option EntryId
  /-- The run answered, and waits for the tasks its hooks asked for. -/
  afterRun : Bool

/-- The newest run that ended without an answer. -/
structure RunFailure (V : Type) where
  taskId : TaskId
  inputs : List SubmissionId
  reason : String
  detail : Option V
  first : Option EntryId

structure LiveState (V : Type) where
  run : Option LiveRun
  runFailure : Option (RunFailure V)

/-- How a run ends. -/
inductive RunEnd (V : Type) where
  | done (answer : EntryId)
  /-- `settlement`: what its inputs settle with, when not the reason and the detail. -/
  | unanswered (reason : String) (detail : Option V) (settlement : Option (String × Option V))

/-! ## The head of the active range -/

/-- The `head` of the newest entry of a conversation that has one, up to a bound. -/
def newestHead (entries : List (EntryRecord V × CommitSeq)) (id : ConversationId) (upper : Option EntryId) : Option EntryId :=
  ((entries.filter fun e => e.1.conversationId = id && e.1.head.isSome && upper.all fun bound => decide (e.1.id ≤ bound)).getLast?).bind (·.1.head)

/-- The start of the active range of a conversation: its newest head marker, its own or that of an ancestor up to where it
    was forked. -/
def Storage.latestHead (s : Storage V O) : Nat → ConversationId → Option EntryId → Option EntryId
  | 0, _, _ => none
  | fuel + 1, id, upper =>
    (newestHead s.entries id upper).or
      (match s.conversation id with
      | some { parent := some parent, .. } => latestHead s fuel parent.conversationId (some ((upper.map (min parent.entry)).getD parent.entry))
      | _ => none)

/-- The known submission of a request. -/
def Storage.submissionByRequest (s : Storage V O) (id : ConversationId) (requestId : String) : Option (SubmissionRecord V) :=
  (s.submissions.find? fun p => p.2.conversationId = id && p.2.requestId = some requestId).map Prod.snd

/-! ## Commits -/

/-- What the Storage holds, and the current inbox and live document of each conversation. -/
structure Conversations (V O : Type) where
  storage : Storage V O
  inbox : ConversationId → List (InboxItem V)
  live : ConversationId → LiveState V

/-- A commit: what it read, the documents as it leaves them, and what it stages. -/
structure InboxTx (V O : Type) extends Conversations V O where
  /-- The task whose invocation commits. -/
  scope : Option TaskId
  entries : List (EntryRecord V)
  submissions : Assoc SubmissionId (SubmissionRecord V)
  submissionChanges : List (SubmissionId × SubmissionChange V)
  nextId : Nat

namespace InboxTx

variable (tx : InboxTx V O)

def start (conversations : Conversations V O) (scope : Option TaskId) : InboxTx V O where
  toConversations := conversations
  scope := scope
  entries := []
  submissions := []
  submissionChanges := []
  nextId := conversations.storage.nextId

def mintId : InboxTx V O × Nat := ({ tx with nextId := tx.nextId + 1 }, tx.nextId)

def appendEntry (conversationId : ConversationId) (draft : EntryDraft V) : InboxTx V O × EntryRecord V :=
  let entry : EntryRecord V := {
    id := tx.nextId
    conversationId
    head := draft.head.map (headEntry tx.nextId)
    byTaskId := tx.scope
    rest := draft.rest }
  ({ tx with entries := tx.entries ++ [entry], nextId := tx.nextId + 1 }, entry)

def createSubmission (create : SubmissionCreate V) : InboxTx V O × SubmissionId :=
  ({ tx with submissions := Assoc.set tx.submissions tx.nextId { create with id := tx.nextId }, nextId := tx.nextId + 1 }, tx.nextId)

def changeSubmission (id : SubmissionId) (change : SubmissionChange V) : InboxTx V O :=
  { tx with submissionChanges := tx.submissionChanges ++ [(id, change)] }

def setItems (id : ConversationId) (items : List (InboxItem V)) : InboxTx V O := { tx with inbox := Function.update tx.inbox id items }

def setLive (id : ConversationId) (live : LiveState V) : InboxTx V O := { tx with live := Function.update tx.live id live }

/-- The start of a conversation's active range, ranges this commit starts included. -/
def activeStart (id : ConversationId) : Option EntryId :=
  { tx.storage with entries := tx.storage.entries ++ tx.entries.map fun entry => (entry, tx.storage.nextSeq) }.latestHead (id + 1) id none

/-- The batch of a commit. -/
def writes (submissions : Assoc SubmissionId (SubmissionRecord V)) : List (StorageWrite V O) :=
  tx.entries.map .entry ++ submissions.map fun p => .submission p.2

/-- Settle the commit: resolve the staged changes, and store the batch. -/
def commit : Except String (Conversations V O) := do
  let submissions ← foldSubmissions tx.storage tx.submissionChanges tx.submissions
  let stored := (tx.writes submissions).foldl (fun s write => s.apply s.nextSeq write) tx.storage
  return { storage := { stored with nextId := tx.nextId, nextSeq := stored.nextSeq + 1 }, inbox := tx.inbox, live := tx.live }

end InboxTx

/-! ## Boundaries -/

/-- What a boundary reads before the commit's first table write, and the newest head it has seen so far. -/
structure Boundary where
  conversationId : ConversationId
  steeringMode : QueueMode
  followUpMode : QueueMode
  head : Option EntryId

inductive BoundaryAt where
  | postTools
  | final
deriving DecidableEq

structure BoundaryResult where
  users : List SubmissionId
  first : Option EntryId
  reset : Bool

namespace InboxTx

variable (input : V → Option (InputEntry V) → Nat → V) (tx : InboxTx V O)

def prepareBoundary (id : ConversationId) (modes : QueueModes) : Boundary :=
  ⟨id, modes.steeringMode, modes.followUpMode, tx.storage.latestHead (id + 1) id none⟩

/-- Append the entry an input is placed as. -/
def appendInput (id : ConversationId) (content : V) (entry : Option (InputEntry V)) (now : Nat) : InboxTx V O × EntryRecord V :=
  tx.appendEntry id ⟨none, input content entry now⟩

/-- The positions of the items of a mode a boundary selects. -/
def pick (items : List (InboxItem V)) (mode : UserMode) (queueMode : QueueMode) : List Nat :=
  let indexes := positions (InboxItem.isMode mode) items
  if queueMode = .all then indexes else indexes.take 1

/-- The positions of the user items a boundary selects, in order. -/
def selectUsers (items : List (InboxItem V)) (boundary : Boundary) (final : Bool) : List Nat :=
  (pick items .steer boundary.steeringMode ++ if final then pick items .followUp boundary.followUpMode else []).mergeSort

/-- Place a queued write, or settle it as stale: the commit, the newest head, and the first entry placed. -/
def placeWrite (id : ConversationId) (state : InboxTx V O × Option EntryId × Option EntryId) (item : InboxItem V) :
    InboxTx V O × Option EntryId × Option EntryId :=
  match item with
  | .user _ _ _ _ => state
  | .write submission draft =>
    let (tx, head, first) := state
    if isStale head draft.toEntryDraft then (tx.changeSubmission submission (.unanswered "stale" none), head, first)
    else
      let (tx, entry) := tx.appendEntry id draft.toEntryDraft
      (tx.changeSubmission submission (.placed entry.id), (draft.head.map (headEntry entry.id)).or head, first.or (some entry.id))

/-- Place a selected user item. -/
def placeUser (id : ConversationId) (now : Nat) (state : InboxTx V O × Option EntryId) (item : InboxItem V) : InboxTx V O × Option EntryId :=
  match item with
  | .write _ _ => state
  | .user submission _ content entry =>
    let (tx, first) := state
    let (tx, placed) := tx.appendInput input id content entry now
    (tx.changeSubmission submission (.placed placed.id), first.or (some placed.id))

/-- Place the queued items a boundary selects: every write, the first or all steers, and at `final`, or with a queued
    reset, the first or all follow-ups. -/
def applyBoundary (boundary : Boundary) (at_ : BoundaryAt) (now : Nat) : InboxTx V O × BoundaryResult :=
  let id := boundary.conversationId
  let items := tx.inbox id
  let reset := hasQueuedReset items
  let final := at_ = .final || reset
  let writes := positions InboxItem.isWrite items
  let users := selectUsers items boundary final
  let (tx, _, first) := (atPositions items writes).foldl (placeWrite id) (tx, boundary.head, none)
  let (tx, first) := (atPositions items users).foldl (placeUser input id now) (tx, first)
  let removed := (writes ++ users).mergeSort (· ≥ ·)
  (tx.setItems id (eraseAt items removed), ⟨(atPositions items users).map (·.id), first, reset⟩)

/-- Remove a withdrawn submission's item. -/
def removeInboxItem (id : ConversationId) (submission : SubmissionId) : InboxTx V O :=
  match (tx.inbox id).findIdx? (·.id = submission) with
  | some index => tx.setItems id ((tx.inbox id).eraseIdx index)
  | none => tx

/-- One turn of `withdrawQueuedInputs`: from the last item to the first. -/
def withdrawItems (id : ConversationId) (reason : String) : Nat → InboxTx V O → InboxTx V O
  | 0, tx => tx
  | index + 1, tx =>
    match (tx.inbox id)[index]? with
    | some (.user submission _ _ _) =>
      withdrawItems id reason index
        ((tx.changeSubmission submission (.unanswered reason none)).setItems id ((tx.inbox id).eraseIdx index))
    | _ => withdrawItems id reason index tx

/-- Withdraw every queued input of a conversation; queued writes stay. -/
def withdrawQueuedInputs (id : ConversationId) (reason : String) : InboxTx V O := withdrawItems id reason (tx.inbox id).length tx

/-! ## The run -/

/-- Start a run for placed submissions. -/
def startRun (id : ConversationId) (inputs : List SubmissionId) (first : Option EntryId) (keepFailure : Bool) : InboxTx V O :=
  let (tx, taskId) := tx.mintId
  tx.setLive id { tx.live id with
    run := some ⟨taskId, inputs, first, false⟩
    runFailure := if keepFailure then (tx.live id).runFailure else none }

/-- Settle submissions alike. -/
def settleAll (ids : List SubmissionId) (change : SubmissionChange V) : InboxTx V O := ids.foldl (fun tx id => tx.changeSubmission id change) tx

/-- End the run a task owns. -/
def endRun (id : ConversationId) (taskId : TaskId) (end_ : RunEnd V) : InboxTx V O :=
  match (tx.live id).run with
  | none => tx
  | some run =>
    if run.taskId = taskId then
      match end_ with
      | .done answer => (tx.settleAll run.inputs (.done answer)).setLive id { tx.live id with run := none }
      | .unanswered reason detail settlement =>
        if run.afterRun then tx.setLive id { tx.live id with run := none }
        else
          let settled := settlement.getD (reason, detail)
          (tx.settleAll run.inputs (.unanswered settled.1 settled.2)).setLive id
            ⟨none, some ⟨taskId, run.inputs, reason, detail, run.first⟩⟩
    else tx

/-- Hand a run from a generation to its successor. -/
def handOver (id : ConversationId) (source target : TaskId) : InboxTx V O :=
  match (tx.live id).run with
  | none => tx
  | some run => if run.taskId = source then tx.setLive id { tx.live id with run := some { run with taskId := target } } else tx

/-- A run that answered keeps the conversation busy for its after-run tasks. -/
def holdRun (id : ConversationId) (taskId : TaskId) (answer : EntryId) : Option (InboxTx V O) :=
  match (tx.live id).run with
  | none => none
  | some run =>
    if run.taskId = taskId then
      some ((tx.settleAll run.inputs (.done answer)).setLive id { tx.live id with run := some { run with inputs := [], afterRun := true } })
    else none

/-- Selected user items start a run. -/
def startFor (id : ConversationId) (result : BoundaryResult) (keepFailure : Bool) : InboxTx V O :=
  if result.users.isEmpty then tx else tx.startRun id result.users result.first keepFailure

end InboxTx

/-! ## Admission -/

inductive WhenBusy where
  | steer
  | followUp
  | reject
deriving DecidableEq

inductive SubmissionBody (V : Type) where
  | input (content : V) (whenBusy : Option WhenBusy) (rejectIdle : Bool) (entry : Option (InputEntry V))
  | write (entry : WriteDraft V)
  | continue

structure SubmissionDraft (V : Type) where
  requestId : Option String
  body : SubmissionBody V

def SubmissionBody.type : SubmissionBody V → SubmissionType
  | .input _ _ _ _ => .input
  | .write _ => .write
  | .continue => .continue

def SubmissionType.name : SubmissionType → String
  | .input => "input"
  | .write => "write"
  | .continue => "continue"

/-- Why an admission writes nothing. -/
inductive AdmissionError where
  | typeError (message : String)
  | request (message : String)
  | conversationBusy (id : ConversationId)
  | conversationIdle (id : ConversationId)

/-- An input entry's kind: not empty, and outside the `pi.` prefix. -/
def checkInputEntry (entry : InputEntry V) : Option AdmissionError :=
  if entry.kind.length = 0 || entry.kind.startsWith "pi." then
    some (.typeError ("An input entry's kind must be a non-empty string not starting with \"pi.\", got " ++ entry.kind))
  else none

namespace InboxTx

variable (input : V → Option (InputEntry V) → Nat → V) (tx : InboxTx V O)

/-- The fields of a new submission. -/
def fields (id : ConversationId) (draft : SubmissionDraft V) (status : SubmissionStatus) : SubmissionCreate V where
  conversationId := id
  requestId := draft.requestId
  type := draft.body.type
  status := status
  entry := none
  answer := none
  reason := none
  detail := none

/-- A write that is appended and settled at once. -/
def writeNow (id : ConversationId) (draft : SubmissionDraft V) (entry : WriteDraft V) : InboxTx V O × SubmissionId :=
  let (tx, placed) := tx.appendEntry id entry.toEntryDraft
  tx.createSubmission { fields id draft .done with entry := some placed.id }

/-- A submission that queues: its record, and its item at the end of the inbox. -/
def queue (id : ConversationId) (draft : SubmissionDraft V) : InboxTx V O × SubmissionId :=
  let (tx, submission) := tx.createSubmission (fields id draft .queued)
  match draft.body with
  | .input content whenBusy _ entry =>
    let mode := if whenBusy = some .steer then UserMode.steer else .followUp
    (tx.setItems id (tx.inbox id ++ [InboxItem.user submission mode content entry]), submission)
  | .write entry => (tx.setItems id (tx.inbox id ++ [InboxItem.write submission entry]), submission)
  | .continue => (tx, submission)

/-- A continue: it places what is queued, and starts a run with it and itself. -/
def admitContinue (id : ConversationId) (draft : SubmissionDraft V) (now : Nat) (modes : QueueModes) : InboxTx V O × SubmissionId :=
  let boundary := tx.prepareBoundary id modes
  let (tx, submission) := tx.createSubmission (fields id draft .placed)
  let (tx, result) := tx.applyBoundary input boundary .final now
  let failed := (tx.live id).runFailure.bind (·.first)
  (tx.startRun id (result.users ++ [submission]) (failed.or result.first) false, submission)

/-- An idle submission behind queued ones: it queues, and a final boundary runs. -/
def admitBehind (id : ConversationId) (draft : SubmissionDraft V) (now : Nat) (modes : QueueModes) : InboxTx V O × SubmissionId :=
  let boundary := tx.prepareBoundary id modes
  let (tx, submission) := tx.queue id draft
  let (tx, result) := tx.applyBoundary input boundary .final now
  (tx.startFor id result false, submission)

/-- An idle submission with nothing queued. -/
def admitIdle (id : ConversationId) (draft : SubmissionDraft V) (now : Nat) (modes : QueueModes) : InboxTx V O × SubmissionId :=
  match draft.body with
  | .input content _ _ entry =>
    let (tx, placed) := tx.appendInput input id content entry now
    let (tx, submission) := tx.createSubmission { fields id draft .placed with entry := some placed.id }
    (tx.startRun id [submission] (some placed.id) false, submission)
  | .write entry =>
    if isStale (tx.prepareBoundary id modes).head entry.toEntryDraft then
      tx.createSubmission { fields id draft .unanswered with reason := some "stale" }
    else tx.writeNow id draft entry
  | .continue => tx.admitContinue input id draft now modes

/-- What an input is rejected for, before anything is written. -/
def rejects (busy : Bool) (id : ConversationId) : SubmissionBody V → Option AdmissionError
  | .input _ whenBusy rejectIdle _ =>
    if busy && decide (whenBusy = some .reject) then some (.conversationBusy id)
    else if !busy && rejectIdle then some (.conversationIdle id)
    else none
  | .write _ => none
  | .continue => if busy then some (.conversationBusy id) else none

/-- Admit a new submission that does not overtake the queue. -/
def admitInTurn (id : ConversationId) (draft : SubmissionDraft V) (now : Nat) (modes : QueueModes) :
    Except AdmissionError (InboxTx V O × SubmissionId) :=
  let busy := (tx.live id).run.isSome
  match rejects busy id draft.body with
  | some error => .error error
  | none =>
    if draft.body.type = .continue then .ok (tx.admitContinue input id draft now modes)
    else if busy then .ok (tx.queue id draft)
    else if (tx.inbox id).isEmpty then .ok (tx.admitIdle input id draft now modes)
    else .ok (tx.admitBehind input id draft now modes)

/-- Admit a new submission. -/
def admitNew (id : ConversationId) (draft : SubmissionDraft V) (now : Nat) (modes : QueueModes) :
    Except AdmissionError (InboxTx V O × SubmissionId) :=
  match draft.body with
  | .write entry =>
    if isDisplayOnly entry && !hasQueuedReset (tx.inbox id) then .ok (tx.writeNow id draft entry)
    else tx.admitInTurn input id draft now modes
  | _ => tx.admitInTurn input id draft now modes

/-- The check of an input's entry. -/
def SubmissionBody.check : SubmissionBody V → Option AdmissionError
  | .input _ _ _ (some entry) => checkInputEntry entry
  | _ => none

/-- Admit a submission inside a commit. A known request returns its existing submission without writing. -/
def admitSubmission (id : ConversationId) (draft : SubmissionDraft V) (now : Nat) (modes : QueueModes) :
    Except AdmissionError (InboxTx V O × SubmissionId) :=
  match SubmissionBody.check draft.body with
  | some error => .error error
  | none =>
    match draft.requestId.bind fun requestId => tx.storage.submissionByRequest id requestId with
    | some existing =>
      if existing.type = draft.body.type then .ok (tx, existing.id)
      else .error (.request ("Request " ++ draft.requestId.getD "" ++ " already identifies a submission of type " ++ existing.type.name))
    | none => tx.admitNew input id draft now modes

/-- Withdraw a queued submission; others are only reported. -/
def abortSubmission (id : SubmissionId) (conversationId : Option ConversationId) : InboxTx V O :=
  match tx.storage.submission id with
  | none => tx
  | some record =>
    if conversationId.any fun expected => decide (record.conversationId ≠ expected) then tx
    else if record.status = .queued then
      (tx.changeSubmission id (.unanswered "aborted" none)).removeInboxItem record.conversationId id
    else tx

end InboxTx

/-! ## The commits of a run -/

/-- What becomes of the inputs queued behind a failed run. -/
inductive AfterFailedRun where
  | keep
  | continue
  | withdraw

/-- The commits of the task that owns a run, as far as submissions go. Entries they append first are `before`. -/
inductive RunCommit (V : Type) where
  /-- A final answer; `continuation`: the user message a hook goes on with; `afterRun`: hooks ask for tasks at its end. -/
  | answer (message : V) (continuation : Option V) (afterRun : Bool)
  /-- The after-run tasks are done. -/
  | endAnswered (answer : EntryId)
  | endFailed (before : List V) (policy : AfterFailedRun) (end_ : RunEnd V)
  /-- A tool round is over. `handoff`: the message of a reset that precedes every queued item. -/
  | afterTools (assistant : EntryId) (handoff : Option V) (terminate afterRun : Bool) (turnLimit : Option (AfterFailedRun × RunEnd V))
  /-- The run ends without a boundary. -/
  | ends (before : List V) (end_ : RunEnd V)

namespace InboxTx

variable (input : V → Option (InputEntry V) → Nat → V) (tx : InboxTx V O) (id : ConversationId) (taskId : TaskId) (now : Nat) (modes : QueueModes)

/-- Append entries that say something to the model. -/
def appendAll (messages : List V) : InboxTx V O := messages.foldl (fun tx message => (tx.appendEntry id ⟨none, message⟩).1) tx

/-- Whether a run goes on with a hook's message: nothing that would start the next run, or cut this one, is queued. -/
def takesContinuation (items : List (InboxItem V)) : Bool := !items.any (fun item => !item.isWrite) && !hasQueuedReset items

/-- A boundary at the end of a run that answered, and the next run. -/
def endDone (boundary : Boundary) (answer : EntryId) : InboxTx V O :=
  let (tx, result) := tx.applyBoundary input boundary .final now
  (tx.endRun id taskId (.done answer)).startFor id result false

def answer (message : V) (continuation : Option V) (afterRun : Bool) : InboxTx V O :=
  let boundary := tx.prepareBoundary id modes
  let (tx, entry) := tx.appendEntry id ⟨none, message⟩
  match if takesContinuation (tx.inbox id) then continuation else none with
  | some content =>
    let (tx, _) := tx.applyBoundary input boundary .final now
    let (tx, successor) := (tx.appendInput input id content none now).1.mintId
    tx.handOver id taskId successor
  | none =>
    match if afterRun then tx.holdRun id taskId entry.id else none with
    | some held => held
    | none => tx.endDone input id taskId now boundary entry.id

/-- End a failed run, and do with the inputs queued behind it what the policy says. -/
def endFailedRun (boundary : Boundary) (policy : AfterFailedRun) (end_ : RunEnd V) : InboxTx V O :=
  let tx := tx.endRun id taskId end_
  match policy with
  | .keep => tx
  | .withdraw => tx.withdrawQueuedInputs id "run_failed"
  | .continue =>
    let (tx, result) := tx.applyBoundary input boundary .final now
    tx.startFor id result true

/-- Selected user items join the run a task owns. -/
def joinRun (users : List SubmissionId) : InboxTx V O :=
  match (tx.live id).run with
  | none => tx
  | some run => if run.taskId = taskId then tx.setLive id { tx.live id with run := some { run with inputs := run.inputs ++ users } } else tx

/-- The reset of a handoff precedes every queued item. -/
def handedOff (handoff : Option V) : InboxTx V O × Boundary :=
  match handoff with
  | none => (tx, tx.prepareBoundary id modes)
  | some message =>
    let (tx', entry) := tx.appendEntry id ⟨some (.inr ()), message⟩
    (tx', { tx.prepareBoundary id modes with head := some entry.id })

/-- The end of a tool round, past the reset of a handoff. -/
def roundOver (boundary : Boundary) (assistant : EntryId) (terminate afterRun : Bool) (turnLimit : Option (AfterFailedRun × RunEnd V)) :
    InboxTx V O :=
  match if terminate && afterRun then tx.holdRun id taskId assistant else none with
  | some held => held
  | none =>
    if terminate then tx.endDone input id taskId now boundary assistant
    else
      match turnLimit with
      | some (policy, end_) => tx.endFailedRun input id taskId now boundary policy end_
      | none =>
        let (tx, result) := tx.applyBoundary input boundary .postTools now
        if result.reset then (tx.endRun id taskId (.unanswered "reset" none none)).startFor id result true
        else
          let (tx, successor) := (tx.joinRun id taskId result.users).mintId
          tx.handOver id taskId successor

def afterTools (assistant : EntryId) (handoff : Option V) (terminate afterRun : Bool) (turnLimit : Option (AfterFailedRun × RunEnd V)) :
    InboxTx V O :=
  let (tx, boundary) := tx.handedOff id modes handoff
  tx.roundOver input id taskId now boundary assistant terminate afterRun turnLimit

def runCommit : RunCommit V → InboxTx V O
  | .answer message continuation afterRun => tx.answer input id taskId now modes message continuation afterRun
  | .endAnswered answer => tx.endDone input id taskId now (tx.prepareBoundary id modes) answer
  | .endFailed before policy end_ =>
    let boundary := tx.prepareBoundary id modes
    (tx.appendAll id before).endFailedRun input id taskId now boundary policy end_
  | .afterTools assistant handoff terminate afterRun turnLimit =>
    tx.afterTools input id taskId now modes assistant handoff terminate afterRun turnLimit
  | .ends before end_ => (tx.appendAll id before).endRun id taskId end_

end InboxTx

/-! ## Runs -/

/-- What happens to the conversations of a Session. -/
inductive InboxLabel (V : Type) where
  /-- An admission, and the submission it returns. -/
  | submit (scope : Option TaskId) (id : ConversationId) (draft : SubmissionDraft V) (now : Nat) (modes : QueueModes) (submission : SubmissionId)
  | abort (id : SubmissionId) (conversationId : Option ConversationId)
  /-- A conversation abort, or an abort cascade. -/
  | withdraw (ids : List ConversationId) (reason : String)
  | run (id : ConversationId) (taskId : TaskId) (now : Nat) (modes : QueueModes) (commit : RunCommit V)
  /-- Another commit appends entries without a head, or one of a known head. -/
  | appends (scope : Option TaskId) (id : ConversationId) (draft : EntryDraft V)
  | conversation (record : ConversationRecord)
  /-- Others take identities; a commit that fails has taken its own. -/
  | mints (count : Nat)

namespace Conversations

variable (input : V → Option (InputEntry V) → Nat → V)

/-- A Session before its first submission. -/
def opened (conversations : List ConversationRecord) (nextId : Nat) : Conversations V O where
  storage := { Storage.empty with conversations, nextId }
  inbox := fun _ => []
  live := fun _ => ⟨none, none⟩

/-- One step: a commit that is stored. -/
inductive Step : Conversations V O → InboxLabel V → Conversations V O → Prop where
  | submit {sys sys' : Conversations V O} {scope : Option TaskId} {id : ConversationId} {draft : SubmissionDraft V} {now : Nat}
      {modes : QueueModes} {tx : InboxTx V O} {submission : SubmissionId}
      (hadmitted : (InboxTx.start sys scope).admitSubmission input id draft now modes = .ok (tx, submission)) (hcommit : tx.commit = .ok sys') :
      Step sys (.submit scope id draft now modes submission) sys'
  | abort {sys sys' : Conversations V O} {id : SubmissionId} {conversationId : Option ConversationId}
      (hcommit : ((InboxTx.start sys none).abortSubmission id conversationId).commit = .ok sys') : Step sys (.abort id conversationId) sys'
  | withdraw {sys sys' : Conversations V O} {ids : List ConversationId} {reason : String}
      (hcommit : (ids.foldl (fun tx id => tx.withdrawQueuedInputs id reason) (InboxTx.start sys none)).commit = .ok sys') :
      Step sys (.withdraw ids reason) sys'
  | run {sys sys' : Conversations V O} {id : ConversationId} {taskId : TaskId} {now : Nat} {modes : QueueModes} {commit : RunCommit V}
      (hcommit : ((InboxTx.start sys (some taskId)).runCommit input id taskId now modes commit).commit = .ok sys') :
      Step sys (.run id taskId now modes commit) sys'
  | appends {sys sys' : Conversations V O} {scope : Option TaskId} {id : ConversationId} {draft : EntryDraft V}
      (hcommit : ((InboxTx.start sys scope).appendEntry id draft).1.commit = .ok sys') : Step sys (.appends scope id draft) sys'
  | conversation {sys : Conversations V O} {record : ConversationRecord} (hid : sys.storage.nextId ≤ record.id) :
      Step sys (.conversation record) { sys with storage := sys.storage.apply sys.storage.nextSeq (.conversation record) }
  | mints {sys : Conversations V O} {count : Nat} :
      Step sys (.mints count) { sys with storage := { sys.storage with nextId := sys.storage.nextId + count } }

end Conversations

end PiBridge.Durable
