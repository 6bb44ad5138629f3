import PiBridge.Js.Slash
import PiBridge.Js.Value

/-!
# `Core.Types` — the bridge data model

The document a session is mirrored as (`Document`: a status object and an entry map), the patch operations
that change it (`PatchOp`), the entries pi persists (`SessionEntry`) and the ids that name them
(`EntryId`).

Entries and status stay dynamically typed (`Value`, `Obj`): the bridge reads and writes them by key and by
path, and stores a stored entry's fields as it finds them. An `EntryId` carries what pi's id generator
promises (not empty, no `/`, no `~`), so an id can be spliced into a path and read back.
-/

namespace PiBridge

open Js Js.Value

/-- An entry id: a non-empty string that needs no escaping inside a path. -/
structure EntryId where
  /-- The id as it is written. -/
  val : String
  nonempty : val ≠ ""
  noSlash : NoSlash val
  noTilde : '~' ∉ val.toList

namespace EntryId

instance : DecidableEq EntryId := fun a b =>
  decidable_of_iff (a.val = b.val) (by cases a; cases b; simp)

instance : Coe EntryId String := ⟨EntryId.val⟩

@[ext] theorem ext {a b : EntryId} (h : a.val = b.val) : a = b := by cases a; cases b; simpa using h

/-- Is this string an entry id? -/
def Valid (s : String) : Prop := s ≠ "" ∧ NoSlash s ∧ '~' ∉ s.toList

instance (s : String) : Decidable (Valid s) := by unfold Valid; infer_instance

theorem valid (a : EntryId) : Valid a.val := ⟨a.nonempty, a.noSlash, a.noTilde⟩

end EntryId

/-- A persisted entry of pi's list: a record whose `id` is an entry id. -/
structure SessionEntry where
  /-- The record's fields. -/
  fields : Obj
  id : EntryId
  id_eq : at_ fields "id" = .str id

namespace SessionEntry

/-- `entry[k]`. -/
def field (entry : SessionEntry) (k : String) : Value := at_ entry.fields k

/-- `entry.type`. -/
def type (entry : SessionEntry) : Value := entry.field "type"

/-- `entry.parentId`, which the types promise to be a string or `null`. -/
def parentId (entry : SessionEntry) : Option String := (entry.field "parentId").asStr?

end SessionEntry

/-- One patch operation. An `append` may be marked `lazy`. -/
inductive PatchOp where
  | add (path : String) (value : Value)
  | remove (path : String)
  | replace (path : String) (value : Value)
  | move («from» path : String)
  | append (path value : String) (isLazy : Bool)
deriving DecidableEq

/-- A patch: operations to apply in order. -/
abbrev Patch := List PatchOp

/-- The mirrored document. -/
structure Document where
  status : Obj
  entries : Obj
deriving DecidableEq

namespace Document

/-- The document as the value paths address. -/
def toValue (doc : Document) : Value := .obj [("status", .obj doc.status), ("entries", .obj doc.entries)]

/-- Read a value back as a document. -/
def ofValue (v : Value) : Document := ⟨(get v "status").asObj, (get v "entries").asObj⟩

@[simp] theorem ofValue_toValue (doc : Document) : ofValue doc.toValue = doc := rfl

/-- Documents are structurally equal when both their maps are. -/
theorem same_toValue {a b : Document} (hstat : SameObj a.status b.status) (hents : SameObj a.entries b.entries) :
    Same a.toValue b.toValue := by
  rw [toValue, toValue, same_obj_iff, sameObj_iff]
  intro k
  by_cases hs : "status" = k
  · subst hs
    exact same_obj_iff.mpr hstat
  · by_cases he : "entries" = k
    · subst he
      exact same_obj_iff.mpr hents
    · simp [at_, Props.get?_cons, hs, he, Same.refl]

/-- `document.status.leafId ?? null`. -/
def leafId (doc : Document) : Option String := (at_ doc.status "leafId").asStr?

/-- `document.entries[id]`. -/
def entry? (doc : Document) (id : String) : Option Value := doc.entries.get? id

end Document

/-- `isEntrySealed`: `isSealed` is the only seal authority. -/
def isEntrySealed (entry : Value) : Bool := get entry "isSealed" ≠ .bool false

/-- `entry.parentId`, which the types promise to be a string or `null`. -/
def parentIdOf (entry : Value) : Option String := (get entry "parentId").asStr?

/-- A nullable string as a value. -/
def nullable : Option String → Value
  | none => .null
  | some s => .str s

@[simp] theorem asStr?_nullable (s : Option String) : (nullable s).asStr? = s := by cases s <;> rfl

end PiBridge
