import PiBridge.Lib.Rows
import PiBridge.Lib.Steps
import PiBridge.Chord.Delta.Apply
import PiBridge.Chord.Store.Text

/-!
# `Chord.Store.Engine` — documents as bases and deltas

One record for each incarnation of an address, revisions made of bases and deltas, and a history rule for each
record. A write is a few statements of two tables: one that a constraint or its own count refuses gives `none`, and
the whole commit with it.

The text of a revision is kept here as the value it parses to.
-/

namespace PiBridge.Chord.Store

open Lib

/-- `Number.MAX_SAFE_INTEGER` -/
def maxSafeInteger : Nat := 2 ^ 53 - 1

/-- A singleton has no key. -/
structure DocumentAddress where
  owner : Text
  ns : Text
  kind : Text
  key : Option Text

/-- What a record keeps at a new base and once retired. -/
inductive DocumentHistory where
  | none
  | latest
  | rewindable
deriving DecidableEq

structure DocumentRecord extends DocumentAddress where
  id : Nat
  history : DocumentHistory
  createdAt : Nat
  retiredAt : Option Nat
  metaText : Option Text
  revision : Nat
  version : Nat
  fingerprint : Text

structure DocumentBase where
  version : Nat
  fingerprint : Text
  value : Json

inductive DocumentContent where
  | base (base : DocumentBase)
  | delta (version : Nat) (ops : List Op)

/-- A row of `chord_documents`. -/
structure DocumentRow where
  id : Nat
  owner : Text
  ns : Text
  kind : Text
  key : Text
  history : DocumentHistory
  createdAt : Nat
  retiredAt : Option Nat
  metaText : Option Text
  revision : Nat
  version : Nat
  fingerprint : Text

/-- The kind and the content of a revision. -/
inductive RevisionContent where
  | base (value : Json)
  | delta (ops : List Op)

def RevisionContent.isBase : RevisionContent → Bool
  | .base _ => true
  | .delta _ => false

/-- A row of `chord_revisions`. -/
structure RevisionRow where
  documentId : Nat
  seq : Nat
  version : Nat
  content : RevisionContent

/-- The documents engine's writes as the outbox records them. -/
inductive DocumentWrite where
  | create (record : DocumentRecord) (base : DocumentBase)
  | change (id revision : Nat) (content : DocumentContent)
  | retire (id revision : Nat)

structure DocumentTables where
  documents : List DocumentRow
  revisions : List RevisionRow

namespace DocumentContent

def version : DocumentContent → Nat
  | base b => b.version
  | delta version _ => version

/-- What is stored of it. -/
def stored : DocumentContent → RevisionContent
  | base b => .base b.value
  | delta _ ops => .delta ops

end DocumentContent

namespace DocumentRow

/-- The row of a record, as it is inserted. -/
def ofRecord (record : DocumentRecord) : DocumentRow where
  id := record.id
  owner := toWellFormed record.owner
  ns := toWellFormed record.ns
  kind := toWellFormed record.kind
  key := toWellFormed (record.key.getD [])
  history := record.history
  createdAt := record.createdAt
  retiredAt := record.retiredAt
  metaText := record.metaText.map toWellFormed
  revision := record.revision
  version := record.version
  fingerprint := toWellFormed record.fingerprint

/-- `recordOf` -/
def recordOf (row : DocumentRow) : DocumentRecord where
  owner := row.owner
  ns := row.ns
  kind := row.kind
  key := if row.key = [] then none else some row.key
  id := row.id
  history := row.history
  createdAt := row.createdAt
  retiredAt := row.retiredAt
  metaText := row.metaText
  revision := row.revision
  version := row.version
  fingerprint := row.fingerprint

def address (row : DocumentRow) : Text × Text × Text × Text := (row.owner, row.ns, row.kind, row.key)

/-- The primary key, and the unique index on the addresses of live records. -/
def clashes (row row' : DocumentRow) : Bool :=
  row.id = row'.id || (row.retiredAt.isNone && row'.retiredAt.isNone && row.address = row'.address)

end DocumentRow

namespace DocumentTables

variable (t : DocumentTables)

def insertRevision (id seq version : Nat) (content : RevisionContent) : Option DocumentTables :=
  (Rows.insert (fun r r' => r.documentId = r'.documentId && r.seq = r'.seq) t.revisions ⟨id, seq, version, content⟩).map
    fun revisions => { t with revisions }

/-- `dropRetired` -/
def dropRetired (id : Nat) : DocumentHistory → DocumentTables
  | .rewindable => t
  | .latest => { t with revisions := Rows.delete (·.documentId = id) t.revisions }
  | .none =>
    { documents := Rows.delete (·.id = id) t.documents, revisions := Rows.delete (·.documentId = id) t.revisions }

/-- `insertDocument`, with its base. -/
def insertDocument (record : DocumentRecord) (base : DocumentBase) : Option DocumentTables :=
  match Rows.insert DocumentRow.clashes t.documents (.ofRecord record) with
  | none => none
  | some documents =>
    (({ t with documents } : DocumentTables).insertRevision record.id record.createdAt record.version (.base base.value)).map fun t =>
      if record.retiredAt.isSome then t.dropRetired record.id record.history else t

/-- The record that a change prepared on a revision changes. -/
def changes (id revision : Nat) : DocumentContent → DocumentRow → Bool
  | .base _, row => row.id = id && row.revision = revision && row.retiredAt.isNone
  | .delta version _, row => row.id = id && row.revision = revision && row.version = version && row.retiredAt.isNone

def changed : DocumentContent → DocumentRow → DocumentRow
  | .base b, row =>
    { row with revision := row.revision + 1, version := b.version, fingerprint := toWellFormed b.fingerprint }
  | .delta _ _, row => { row with revision := row.revision + 1 }

/-- `writeContent` -/
def writeContent (seq id : Nat) (history : DocumentHistory) (revision : Nat) (content : DocumentContent) : Option DocumentTables :=
  if revision ≥ maxSafeInteger then none
  else
    match t.insertRevision id seq content.version content.stored with
    | none => none
    | some t =>
      if t.documents.countP (changes id revision content) = 1 then
        let t := { t with documents := Rows.update (changes id revision content) (changed content) t.documents }
        if content.stored.isBase ∧ history ≠ .rewindable then
          some { t with revisions := Rows.delete (fun r => r.documentId = id && r.seq < seq) t.revisions }
        else some t
      else none

/-- The apply of `retireDocument`. -/
def retireDocument (id revision : Nat) : Option DocumentTables :=
  let live : DocumentRow → Bool := fun row => row.id = id && row.revision = revision && row.retiredAt.isNone
  if t.documents.countP live = 1 then
    some { documents := Rows.delete live t.documents, revisions := Rows.delete (·.documentId = id) t.revisions }
  else none

/-- `retireRecord` -/
def retireRecord (seq id : Nat) (history : DocumentHistory) : DocumentTables := let t : DocumentTables :=
    if history ≠ .none then
      { t with documents := Rows.update (·.id = id) (fun row => { row with retiredAt := some seq }) t.documents }
    else t
  t.dropRetired id history

/-- `readDocument` -/
def readDocument (id : Nat) : Option DocumentRecord := (t.documents.find? (·.id = id)).map (·.recordOf)

/-- The record that is live at a revision. -/
def liveAt (id revision : Nat) : Option DocumentRecord :=
  (t.readDocument id).filter fun record => record.retiredAt.isNone && record.revision = revision

end DocumentTables

/-! ## Commits -/

/-- A creation by an adapter, with an id of its own; one that is also retired has an empty lifetime. -/
structure Creation where
  id : Nat
  address : DocumentAddress
  history : DocumentHistory
  metaText : Option Text
  base : DocumentBase
  retired : Bool

/-- What an adapter's write does, in its own order: as Durable's commits and replayed batches. -/
inductive AdapterWrite where
  | create (creation : Creation)
  | change (id revision : Nat) (content : DocumentContent)
  | retire (id revision : Nat)

inductive WriteOrder where
  | retire
  | create
  | write
deriving DecidableEq

inductive StagedWrite where
  /-- `createDocument` -/
  | create (address : DocumentAddress) (base : DocumentBase)
  /-- `changeDocument` -/
  | change (id revision : Nat) (content : DocumentContent)
  /-- `retireDocument` -/
  | retire (id revision : Nat)
  | adapter (writes : List AdapterWrite)

def StagedWrite.order : StagedWrite → WriteOrder
  | create _ _ => .create
  | change _ _ _ => .write
  | retire _ _ => .retire
  | adapter _ => .write

/-- The state of a commit step: the tables, the allocator and the writes it recorded. -/
structure CommitStep where
  tables : DocumentTables
  nextId : Nat
  recorded : List DocumentWrite

/-- The record of a Chord document. -/
def chordRecord (seq id : Nat) (address : DocumentAddress) (base : DocumentBase) : DocumentRecord where
  toDocumentAddress := address
  id := id
  history := .none
  createdAt := seq
  retiredAt := none
  metaText := none
  revision := 1
  version := base.version
  fingerprint := base.fingerprint

def Creation.record (seq : Nat) (c : Creation) : DocumentRecord where
  toDocumentAddress := c.address
  id := c.id
  history := c.history
  createdAt := seq
  retiredAt := if c.retired then some seq else none
  metaText := c.metaText
  revision := 1
  version := c.base.version
  fingerprint := c.base.fingerprint

namespace CommitStep

/-- The tables after a write, and the write. -/
def record (s : CommitStep) (write : DocumentWrite) (tables : Option DocumentTables) : Option CommitStep :=
  tables.map fun tables => { s with tables, recorded := s.recorded ++ [write] }

def applyAdapter (seq : Nat) (s : CommitStep) : AdapterWrite → Option CommitStep
  | .create c => s.record (.create (c.record seq) c.base) (s.tables.insertDocument (c.record seq) c.base)
  | .change id revision content =>
    match s.tables.liveAt id revision with
    | none => none
    | some record => s.record (.change id revision content) (s.tables.writeContent seq id record.history revision content)
  | .retire id revision =>
    match s.tables.liveAt id revision with
    | none => none
    | some record => s.record (.retire id revision) (some (s.tables.retireRecord seq id record.history))

def apply (seq : Nat) (s : CommitStep) : StagedWrite → Option CommitStep
  | .create address base =>
    if s.nextId ≥ maxSafeInteger then none
    else
      let record := chordRecord seq s.nextId address base
      ({ s with nextId := s.nextId + 1 } : CommitStep).record (.create record base) (s.tables.insertDocument record base)
  | .change id revision content =>
    s.record (.change id revision content) (s.tables.writeContent seq id .none revision content)
  | .retire id revision => s.record (.retire id revision) (s.tables.retireDocument id revision)
  | .adapter writes => writes.foldlM (applyAdapter seq) s

/-- `#write`: retirements, creations, the rest, each in staging order. -/
def write (seq : Nat) (s : CommitStep) (writes : List StagedWrite) : Option CommitStep :=
  [WriteOrder.retire, .create, .write].foldlM (fun s order => (writes.filter (·.order = order)).foldlM (apply seq) s) s

end CommitStep

/-- The durable state of the documents engine. -/
structure DocumentStore where
  tables : DocumentTables
  lastSeq : Nat
  nextId : Nat

namespace DocumentStore

/-- A commit that is stored, with the writes it recorded; an empty one takes no seq. -/
def commit (s : DocumentStore) (writes : List StagedWrite) : Option (DocumentStore × List DocumentWrite) :=
  if writes = [] then some (s, [])
  else if s.lastSeq + 1 > maxSafeInteger then none
  else
    (CommitStep.write (s.lastSeq + 1) ⟨s.tables, s.nextId, []⟩ writes).map fun step =>
      (⟨step.tables, s.lastSeq + 1, step.nextId⟩, step.recorded)

/-- `raise`, for an id an adapter wrote. -/
def raise (s : DocumentStore) (id : Nat) : DocumentStore := if id ≥ s.nextId then { s with nextId := min (id + 1) maxSafeInteger } else s

end DocumentStore

/-! ## Reads -/

inductive DocumentPoint where
  | current
  | at (seq : Nat)

structure DocumentScope where
  owner : Text
  ns : Text
  kind : Option Text

/-- A loaded document, without its record. -/
structure Loaded where
  value : Json
  version : Nat
  deltasSinceBase : Nat

inductive LoadError where
  | noBase
  /-- A delta crosses a version. -/
  | crosses
  /-- A delta does not apply. -/
  | refused

namespace DocumentRow

/-- The row's lifetime has the point. -/
def livesAt (row : DocumentRow) : DocumentPoint → Bool
  | .current => row.retiredAt.isNone
  | .at seq => row.createdAt ≤ seq && row.retiredAt.all (seq < ·)

/-- The row is the address's. -/
def hasAddress (row : DocumentRow) (address : DocumentAddress) : Bool :=
  row.address = (toWellFormed address.owner, toWellFormed address.ns, toWellFormed address.kind, toWellFormed (address.key.getD []))

def inScope (row : DocumentRow) (scope : DocumentScope) : Bool :=
  row.owner = toWellFormed scope.owner && row.ns = toWellFormed scope.ns && scope.kind.all (row.kind = toWellFormed ·)

end DocumentRow

namespace DocumentTables

variable (t : DocumentTables)

def findDocument (address : DocumentAddress) (point : DocumentPoint) : Option DocumentRecord :=
  let rows := t.documents.filter fun row => row.hasAddress address && row.livesAt point
  match point with
  | .current => rows.head?.map (·.recordOf)
  -- `ORDER BY created_at DESC LIMIT 1`
  | .at _ => (Rows.orderBy (·.createdAt) rows).getLast?.map (·.recordOf)

/-- `max(seq)` of the bases up to a seq. -/
def newestBase (id upper : Nat) : Option Nat :=
  ((t.revisions.filter fun r => r.documentId = id && r.content.isBase && r.seq ≤ upper).map (·.seq)).max?

/-- `LOAD` -/
def loadRows (id upper : Nat) : List RevisionRow :=
  match t.newestBase id upper with
  | none => []
  | some newest =>
    Rows.orderBy (·.seq) (t.revisions.filter fun r => r.documentId = id && r.seq ≤ upper && newest ≤ r.seq)

/-- A delta, applied to the value so far. -/
def applyDelta (version : Nat) (value : Json) (delta : RevisionRow) : Except LoadError Json :=
  if delta.version ≠ version then .error .crosses
  else
    match delta.content with
    | .delta ops =>
      match applyImmutable value ops with
      | none => .error .refused
      | some value => .ok value
    | .base _ => .error .refused

/-- The newest base and the deltas after it. -/
def loaded : List RevisionRow → Except LoadError Loaded
  | ⟨_, _, version, .base value⟩ :: deltas =>
    (deltas.foldlM (applyDelta version) value).map fun value => ⟨value, version, deltas.length⟩
  | _ => .error .noBase

def loadContent (id : Nat) (point : DocumentPoint) : Except LoadError Loaded :=
  loaded (t.loadRows id (match point with
    | .current => maxSafeInteger
    | .at seq => seq))

def listDocuments (scope : DocumentScope) (point : DocumentPoint) (after limit : Nat) : List DocumentRecord :=
  ((Rows.orderBy (·.id) (t.documents.filter fun row => row.inScope scope && after < row.id && row.livesAt point)).take limit).map
    (·.recordOf)

end DocumentTables

end PiBridge.Chord.Store
