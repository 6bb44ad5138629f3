import PiBridge.Durable.Records
import PiBridge.Lib.Assoc

/-!
# `Durable.Storage` — the state behind `Storage`, and what an atomic batch makes of it

The reference implementation's state, with lookups and scans as the Session uses them. The checks by which a Storage
refuses a batch are left out: `Storage.commit` is the state a batch leads to where it is stored.

`fold` materializes deltas: what a base is after the operations of one batch.
-/

namespace PiBridge.Durable

open Lib

variable {V O : Type}

structure DocumentRevision (V O : Type) where
  seq : CommitSeq
  content : DocumentContent V O

/-- A document incarnation, with the content it retains, oldest first. -/
structure StoredDocument (V O : Type) where
  record : DocumentRecord
  revisions : List (DocumentRevision V O)

structure Storage (V O : Type) where
  conversations : List ConversationRecord
  /-- Each entry with the commit that stored it. -/
  entries : List (EntryRecord V × CommitSeq)
  tasks : Assoc TaskId (TaskRecord V)
  submissions : Assoc SubmissionId (SubmissionRecord V)
  documents : List (StoredDocument V O)
  /-- The next identity `mintId` gives. -/
  nextId : Nat
  nextSeq : CommitSeq

namespace Storage

/-- A Storage without records. The root's identity is reserved. -/
def empty : Storage V O := ⟨[], [], [], [], [], rootConversationId + 1, 1⟩

variable (s : Storage V O)

/-! ## Lookups -/

def conversation (id : ConversationId) : Option ConversationRecord := s.conversations.find? (·.id = id)

def submission (id : SubmissionId) : Option (SubmissionRecord V) := Assoc.get? s.submissions id

/-- Whether an entry is visible through a conversation's ancestry: its own, or an ancestor's up to where it was forked.
    An ancestor is older, so the identities along the walk fall and `fuel` of the conversation's own is enough. -/
def visible (entry : EntryRecord V) : Nat → ConversationId → Bool
  | 0, _ => false
  | fuel + 1, id =>
    if entry.conversationId = id then true
    else match s.conversation id with
      | some { parent := some parent, .. } => entry.id ≤ parent.entry && visible entry fuel parent.conversationId
      | _ => false

end Storage

/-- Whether only the current content of a document is retained. -/
def DocumentCreate.isCurrentOnly (record : DocumentCreate) : Bool := record.scope.kind ≠ .conversation || record.history = some .latest

/-- A document's revisions after one more content. -/
def StoredDocument.store (d : StoredDocument V O) (seq : CommitSeq) (content : DocumentContent V O) : StoredDocument V O :=
  match content with
  | .base _ _ => { d with revisions := if d.record.isCurrentOnly then [⟨seq, content⟩] else d.revisions ++ [⟨seq, content⟩] }
  | .delta _ _ => { d with revisions := d.revisions ++ [⟨seq, content⟩] }

/-- A document retired by a commit. -/
def StoredDocument.retire (d : StoredDocument V O) (seq : CommitSeq) : StoredDocument V O where
  record := { d.record with retiredAt := some seq }
  revisions := if d.record.isCurrentOnly then [] else d.revisions

namespace Storage

variable (s : Storage V O)

/-! ## Content -/

/-! ## Commits -/

/-- Change the incarnation of an identity. -/
def modify (id : DocumentId) (f : StoredDocument V O → StoredDocument V O) : Storage V O :=
  { s with documents := s.documents.map fun d => if d.record.id = id then f d else d }

/-- A new identity was stored: `mintId` stays above it. -/
def claim (id : Nat) : Storage V O := { s with nextId := max s.nextId (id + 1) }

/-- One write of a stored batch. A copy has its content by then. -/
def apply (seq : CommitSeq) : StorageWrite V O → Storage V O
  | .conversation value => { s with conversations := s.conversations ++ [value] }.claim value.id
  | .entry value => { s with entries := s.entries ++ [(value, seq)] }.claim value.id
  | .task value => { s with tasks := Assoc.set s.tasks value.id value }.claim value.id
  | .submission value => { s with submissions := Assoc.set s.submissions value.id value }.claim value.id
  | .create record version value =>
    let stored : StoredDocument V O := ⟨{ record with createdAt := seq, retiredAt := none }, [⟨seq, .base version value⟩]⟩
    { s with documents := s.documents ++ [stored] }.claim record.id
  | .copy _ _ => s
  | .change id content => s.modify id (·.store seq content)
  | .retire id => s.modify id (·.retire seq)

end Storage

end PiBridge.Durable
