import PiBridge.Durable.Context
import PiBridge.Lib.Steps

/-!
# `Durable.ContextReads` — context reads of the tasks of a Session

The scheduler keeps a range for each conversation. A read takes bounds on the line, scans off it, and keeps its range when
no newer one is kept by then; a published commit advances the kept ranges. Between any two steps of a read other reads and
commits may run. `previous` of a read is any range that some read of the conversation returned, or the kept one: what the
scheduler hands on is one of them.

The newest entry and head marker of a conversation are what the Session's commits say (`ConversationTails`); whether the
newest entry is known when it is asked for without a read is part of a label.
-/

namespace PiBridge.Durable

open Lib

variable {V O : Type}

inductive ContextRead (V : Type) where
  | started (id : ConversationId) (cutoff : Option EntryId) (previous : Option (ContextRange V))
  | captured (id : ConversationId) (cutoff : Option EntryId) (previous : Option (ContextRange V))
      (bounds : Option (ContextBounds V))
  | returned (id : ConversationId) (range : ContextRange V)

structure ContextSystem (V O : Type) where
  storage : Storage (EntryContent V) O
  kept : ConversationId → Option (ContextRange V)
  /-- Every range a read returned. -/
  ranges : List (ConversationId × ContextRange V)
  reads : List (ContextRead V)

inductive ContextLabel (V O : Type) where
  | commit (writes : List (StorageWrite (EntryContent V) O))
  | start (id : ConversationId) (cutoff : Option EntryId) (previous : Option (ContextRange V))
  | capture (read : Nat)
  | finish (read : Nat) (known : Bool)
  | install (read : Nat) (known : Bool)
  /-- The read failed, or its invocation ended. -/
  | abandon (read : Nat)
  /-- The kept range is past its retention. -/
  | drop (id : ConversationId)

/-- The entries of a batch that are appended to a conversation. -/
def appendedTo (id : ConversationId) (writes : List (StorageWrite V O)) : List (EntryRecord V) :=
  writes.filterMap fun
    | .entry record => if record.conversationId = id then some record else none
    | _ => none

namespace Storage

variable (s : Storage (EntryContent V) O)

/-- What a Session promises of a write to the history: an entry is newer than every entry, and its head is an identity
    that was minted by then; a fork's source is there. -/
def WriteOk : StorageWrite (EntryContent V) O → Prop
  | .conversation record =>
    s.conversation record.id = none ∧ ∀ parent, record.parent = some parent →
      (s.conversation parent.conversationId).isSome ∧ parent.conversationId < record.id ∧
        ∃ entry ∈ s.visibleEntries parent.conversationId, entry.id = parent.entry
  | .entry record =>
    (s.conversation record.conversationId).isSome ∧ (∀ entry ∈ s.entries, entry.1.id < record.id) ∧
      ∀ head, record.head = some head → head ≤ record.id
  | _ => True

/-- The state after a batch, write after write. -/
def applyAll (writes : List (StorageWrite (EntryContent V) O)) : Storage (EntryContent V) O :=
  writes.foldl (fun s write => s.apply s.nextSeq write) s

/-- Every write of a batch is what a Session promises. -/
def BatchOk : Storage (EntryContent V) O → List (StorageWrite (EntryContent V) O) → Prop
  | _, [] => True
  | s, write :: rest => s.WriteOk write ∧ BatchOk (s.apply s.nextSeq write) rest

end Storage

namespace ContextSystem

/-- A Session over an empty Storage. -/
def empty : ContextSystem V O := ⟨Storage.empty, fun _ => none, [], []⟩

variable (sys : ContextSystem V O)

/-- The newest entry of a conversation, where it is known. -/
def knownLatestEntryId (id : ConversationId) (known : Bool) : Option EntryId := if known then sys.storage.latestEntryId id else none

/-- Whether a read may start from a range. -/
def Earlier (id : ConversationId) (previous : ContextRange V) : Prop := (id, previous) ∈ sys.ranges ∨ sys.kept id = some previous

/-- What may happen: a batch keeps the promises of a Session, a read is of a conversation that exists. -/
def Allowed : ContextLabel V O → Prop
  | .commit writes => sys.storage.BatchOk writes
  | .start id _ previous => (sys.storage.conversation id).isSome ∧ ∀ range, previous = some range → sys.Earlier id range
  | _ => True

/-- A commit is published: kept ranges are advanced by the entries of their conversations. -/
def publish (writes : List (StorageWrite (EntryContent V) O)) : ContextSystem V O :=
  { sys with
    storage := sys.storage.applyAll writes
    kept := fun id => (sys.kept id).bind fun range => advanceRange range (appendedTo id writes) }

/-- The range of a read that is installed, with what was published since. -/
def rechecked (id : ConversationId) (range : ContextRange V) (known : Bool) : ContextRange V :=
  if range.current && sys.knownLatestEntryId id known ≠ some range.bounds.tail then { range with current := false } else range

def step : ContextLabel V O → ContextSystem V O
  | .commit writes => sys.publish writes
  | .start id cutoff previous => { sys with reads := sys.reads ++ [.started id cutoff previous] }
  | .capture k =>
    match sys.reads[k]? with
    | some (.started id cutoff previous) =>
      let visible := match cutoff, previous with
        | some entry, some range => rangeHas range entry
        | _, _ => false
      match sys.storage.captureContextBounds id cutoff visible with
      | .ok bounds => { sys with reads := sys.reads.set k (.captured id cutoff previous bounds) }
      | .error _ => { sys with reads := sys.reads.eraseIdx k }
    | _ => sys
  | .finish k known =>
    match sys.reads[k]? with
    | some (.captured id cutoff previous bounds) =>
      match (readContextFrom sys.storage id cutoff previous bounds (sys.knownLatestEntryId id known)).2 with
      | some range => { sys with reads := sys.reads.set k (.returned id range), ranges := sys.ranges ++ [(id, range)] }
      | none => { sys with reads := sys.reads.eraseIdx k }
    | _ => sys
  | .install k known =>
    match sys.reads[k]? with
    | some (.returned id range) =>
      let sys := { sys with reads := sys.reads.eraseIdx k }
      let range := sys.rechecked id range known
      -- A concurrent read may have kept a newer range.
      if (sys.kept id).all fun kept => decide (kept.bounds.tail ≤ range.bounds.tail) then
        { sys with kept := fun other => if other = id then some range else sys.kept other }
      else sys
    | _ => sys
  | .abandon k => { sys with reads := sys.reads.eraseIdx k }
  | .drop id => { sys with kept := fun other => if other = id then none else sys.kept other }

end ContextSystem

end PiBridge.Durable
