import Mathlib.Data.List.Basic

/-!
# `Durable.Records` — the records of a Session, and the writes of an atomic commit

Identities share one numeric namespace. `V` stands for JSON values and `O` for the operations of a document delta. A
record keeps the fields that settlement reads or that it hands on as a whole: what an entry says, the kind, version,
input and checkpoint of a task and the trace carriers are one value (`rest`) or are left out.
-/

namespace PiBridge.Durable

abbrev ConversationId := Nat
abbrev EntryId := Nat
abbrev TaskId := Nat
abbrev SubmissionId := Nat
abbrev DocumentId := Nat

/-- The sequence of a commit. -/
abbrev CommitSeq := Nat

/-- The reserved identity of the root conversation. -/
def rootConversationId : ConversationId := 1

/-! ## Table records -/

/-- Fork source, and inclusive parent entry through which history is inherited. -/
structure ForkParent where
  conversationId : ConversationId
  entry : EntryId

/-- Creator edge of a conversation. -/
structure ConversationOwner where
  conversationId : ConversationId
  taskId : TaskId

structure ConversationRecord where
  id : ConversationId
  parent : Option ForkParent
  owner : Option ConversationOwner

structure EntryRecord (V : Type) where
  id : EntryId
  conversationId : ConversationId
  /-- First entry in the active context selected by this entry. -/
  head : Option EntryId
  byTaskId : Option TaskId
  rest : V

inductive TaskStatus where
  | pending
  | running
  | waiting
  | sleeping
  | completing
  | terminal

structure TaskRecord (V : Type) where
  id : TaskId
  conversationId : ConversationId
  /-- Owning task of a child task. -/
  owner : Option TaskId
  background : Bool
  abortRequested : Bool
  abandonOnRestart : Bool
  status : TaskStatus
  startedAt : Option Nat
  endedAt : Option Nat
  rest : V

inductive SubmissionType where
  | input
  | write
  | continue
deriving DecidableEq

inductive SubmissionStatus where
  | queued
  | placed
  | done
  | unanswered
deriving DecidableEq

/-- Submission fields supplied before the Session assigns an identity. -/
structure SubmissionCreate (V : Type) where
  conversationId : ConversationId
  requestId : Option String
  type : SubmissionType
  status : SubmissionStatus
  entry : Option EntryId
  answer : Option EntryId
  reason : Option String
  detail : Option V

structure SubmissionRecord (V : Type) extends SubmissionCreate V where
  id : SubmissionId

/-! ## Documents -/

inductive DocumentScope where
  | session
  | conversation (id : ConversationId)
  | task (id : TaskId)

inductive ScopeKind where
  | session
  | conversation
  | task
deriving DecidableEq

def DocumentScope.kind : DocumentScope → ScopeKind
  | .session => .session
  | .conversation _ => .conversation
  | .task _ => .task

inductive History where
  | latest
  | rewindable
deriving DecidableEq

inductive ForkPolicy where
  | asOf
  | current
  | initial

/-- Logical identity of a singleton or of one member of a family; it stands for its own string (`addressId`). -/
structure DocumentAddress where
  kind : String
  scope : DocumentScope
  /-- Absent selects the singleton. -/
  key : Option String

/-- Fields supplied when Storage creates and stamps a document record. -/
structure DocumentCreate extends DocumentAddress where
  id : DocumentId
  /-- Only a conversation document has a history and a fork policy. -/
  history : Option History
  fork : Option ForkPolicy

/-- Lifecycle record of one create-to-retire document incarnation. -/
structure DocumentRecord extends DocumentCreate where
  createdAt : CommitSeq
  retiredAt : Option CommitSeq

/-- Current state, or one historical commit. -/
inductive DocumentPoint where
  | current
  | seq (seq : CommitSeq)

inductive DocumentContent (V O : Type) where
  | base (version : Nat) (value : V)
  | delta (version : Nat) (ops : List O)

structure DocumentCopySource where
  id : DocumentId
  point : DocumentPoint

/-- One record or document mutation of an atomic commit. A creation's content is always a base. -/
inductive StorageWrite (V O : Type) where
  | conversation (value : ConversationRecord)
  | entry (value : EntryRecord V)
  | task (value : TaskRecord V)
  | submission (value : SubmissionRecord V)
  | create (record : DocumentCreate) (version : Nat) (value : V)
  | copy (record : DocumentCreate) (source : DocumentCopySource)
  | change (id : DocumentId) (content : DocumentContent V O)
  | retire (id : DocumentId)

end PiBridge.Durable
