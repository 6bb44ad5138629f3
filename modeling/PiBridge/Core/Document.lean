import PiBridge.Core.Types

/-!
# `Core.Document` — paths, and applying a patch

`applyPatch` walks a slash-separated path from the document's root. The walk is over untyped values, as in
the source: an object key, an array index, or — where there is nothing to walk into — a container created
on the way, whose kind is guessed from the next key.

Every operation the bridge emits addresses something *inside* `status` or `entries` (`Scoped`), and for
those the walk never leaves the shape of a document: `applyOp_toValue` computes the new document directly,
as an update of one property of one of the two maps.
-/

namespace PiBridge

open Js Js.Value List

/-! ## Paths -/

/-- `` `${base}/${key}` ``. -/
def sub (base key : String) : String := base ++ "/" ++ key

/-- Replace every `~code` by `sub`, left to right. -/
def replaceEscape (code sub : Char) : List Char → List Char
  | '~' :: c :: cs => if c = code then sub :: replaceEscape code sub cs else '~' :: replaceEscape code sub (c :: cs)
  | c :: cs => c :: replaceEscape code sub cs
  | [] => []

/-- `s.replace(/~1/g, "/").replace(/~0/g, "~")`. -/
def unescape (s : String) : String := String.ofList (replaceEscape '0' '~' (replaceEscape '1' '/' s.toList))

/-- The keys a path walks through. -/
def parsePath (path : String) : List String :=
  if path = "" ∨ path = "/" then [] else
    let rest := match path.toList with
      | '/' :: cs => String.ofList cs
      | cs => String.ofList cs
    (segments rest).map unescape

/-- `Number(head)` as an array position: plain decimal digits, or the empty string, which is zero.
    Other spellings of a number are not positions here. -/
def number? (head : String) : Option Nat := if head = "" then some 0 else decimal? head.toList

/-- `/^\d+$/.test(s)`. -/
def isDigits (s : String) : Bool := (decimal? s.toList).isSome

/-! ## Reading and writing through values -/

/-- `cur[key]` for a value that is neither `null` nor `undefined`. -/
def prop (cur : Value) (key : String) : Value :=
  match cur with
  | .obj m => at_ m key
  | .arr xs =>
    if key = "length" then .num xs.length else
      match indexKey? key with
      | some i => xs.getD i .undefined
      | none => .undefined
  | .str s =>
    if key = "length" then .num s.length else
      match (indexKey? key).bind (s.toList[·]?) with
      | some c => .str (String.singleton c)
      | none => .undefined
  | _ => .undefined

/-- `getAtPath` on parsed keys. -/
def getAt (cur : Value) : List String → Value
  | [] => cur
  | key :: keys => if cur.isNullish then .undefined else getAt (prop cur key) keys

/-- `getAtPath`. -/
def getAtPath (obj : Value) (path : String) : Value := getAt obj (parsePath path)

/-- `clone[idx] = value`: assigning past the end leaves holes, and an assignment that names no array
    position leaves the elements alone. -/
def setElem (xs : List Value) (idx : Option Nat) (value : Value) : List Value :=
  match idx with
  | none => xs
  | some i =>
    if 4294967295 ≤ i then xs
    else if i < xs.length then xs.set i value
    else xs ++ List.replicate (i - xs.length) .undefined ++ [value]

/-- The element an assignment would overwrite. -/
def elemAt (xs : List Value) (idx : Option Nat) : Value := (idx.bind (xs[·]?)).getD .undefined

/-- Guess whether the next key wants an array or an object. -/
def autoCreate : List String → Value
  | [] => .obj []
  | key :: _ => if isDigits key then .arr [] else .obj []

/-- `cloneSet`: copy every container along the keys and set the value at the last one. No keys left means
    the value itself. -/
def cloneSet (obj : Value) : List String → Value → Value
  | [], value => value
  | head :: tail, value =>
    match obj with
    | .arr xs => .arr (setElem xs (number? head) (cloneSet (elemAt xs (number? head)) tail value))
    | .obj m => .obj (Props.set m head (cloneSet ((at_ m head).orElse (autoCreate tail)) tail value))
    | _ => .obj [(head, cloneSet (autoCreate tail) tail value)]

/-- `setAtPath` on a value. -/
def setAtPath (root : Value) (path : String) (value : Value) : Value := cloneSet root (parsePath path) value

/-- `cloneRemove`; no keys leave the value as it is. -/
def cloneRemove (obj : Value) : List String → Value
  | [] => obj
  | [last] =>
    match obj with
    | .arr xs => .arr (xs.eraseIdx ((number? last).getD 0))
    | .obj m => .obj (Props.erase m last)
    | v => v
  | head :: next :: tail =>
    match obj with
    | .arr xs => .arr (setElem xs (number? head) (cloneRemove (elemAt xs (number? head)) (next :: tail)))
    | .obj m =>
      if Props.has m head then .obj (Props.set m head (cloneRemove (at_ m head) (next :: tail))) else .obj m
    | v => v

/-- `removeAtPath` on a value. -/
def removeAtPath (root : Value) (path : String) : Value := cloneRemove root (parsePath path)

/-- `moveAtPath` on a value. -/
def moveAtPath (root : Value) («from» «to» : String) : Value := setAtPath (removeAtPath root «from») «to» (getAtPath root «from»)

/-- `appendAtPath` on a value. -/
def appendAtPath (root : Value) (path value : String) : Value :=
  match getAtPath root path with
  | .str existing => setAtPath root path (.str (existing ++ value))
  | _ => setAtPath root path (.str value)

/-- `applyOp` on a value. -/
def applyOp (root : Value) : PatchOp → Value
  | .add path value => setAtPath root path value
  | .replace path value => setAtPath root path value
  | .remove path => removeAtPath root path
  | .move «from» path => moveAtPath root «from» path
  | .append path value _ => appendAtPath root path value

/-- `applyPatch`. -/
def applyPatch (root : Document) (ops : Patch) : Document := Document.ofValue (ops.foldl applyOp root.toValue)

/-! ## The keys of assembled paths -/

/-- A key that a path carries as it is. -/
def Plain (key : String) : Prop := NoSlash key ∧ '~' ∉ key.toList

instance (key : String) : Decidable (Plain key) := by unfold Plain; infer_instance

/-- The path starts with a slash and goes on. -/
def Rooted (path : String) : Prop := ∃ cs, path.toList = '/' :: cs ∧ cs ≠ []

variable {base : String} {op : PatchOp} {rest : List String} {ops : Patch}

theorem rooted_sub (h : Rooted base) (key : String) : Rooted (sub base key) := by
  obtain ⟨cs, hcs, -⟩ := h
  refine ⟨cs ++ '/' :: key.toList, ?_, by simp⟩
  simp [sub, hcs]

theorem replaceEscape_of_noTilde (code sub : Char) {cs : List Char} (h : '~' ∉ cs) : replaceEscape code sub cs = cs := by
  induction cs with
  | nil => rfl
  | cons c cs ih =>
    obtain ⟨hc, hcs⟩ := not_or.mp (mem_cons.not.mp h)
    rw [replaceEscape, ih hcs]
    rintro c' cs' rfl -
    exact hc rfl

theorem unescape_of_noTilde {s : String} (h : '~' ∉ s.toList) : unescape s = s := by
  rw [unescape, replaceEscape_of_noTilde _ _ h, replaceEscape_of_noTilde _ _ h, String.ofList_toList]

theorem parsePath_of_rooted {path : String} (h : Rooted path) : parsePath path = (segments path).tail.map unescape := by
  obtain ⟨cs, hcs, hne⟩ := h
  have hemp : path ≠ "" := by rintro rfl; simp at hcs
  have hslash : path ≠ "/" := by
    rintro rfl
    have : "/".toList = ['/'] := by decide
    rw [this] at hcs
    exact hne (cons.inj hcs).2.symm
  have hseg : segments path = "" :: segments (String.ofList cs) := by
    have : path = "" ++ "/" ++ String.ofList cs := by
      apply String.toList_injective
      simp [hcs]
    rw [this, segments_slash, segments_of_noSlash (by decide)]; rfl
  rw [parsePath, if_neg (by simp [hemp, hslash]), hcs, hseg]; rfl

/-- **A path under a base walks the base's keys, then those of the last part.** -/
theorem parsePath_sub (h : Rooted base) (key : String) : parsePath (sub base key) = parsePath base ++ (segments key).map unescape := by
  rw [parsePath_of_rooted (rooted_sub h key), parsePath_of_rooted h, sub, segments_slash]
  obtain ⟨seg, segs, hsegs⟩ := exists_cons_of_ne_nil (segments_ne_nil base)
  simp [hsegs]

theorem parsePath_sub_plain {key : String} (h : Rooted base) (hkey : Plain key) : parsePath (sub base key) = parsePath base ++ [key] := by
  rw [parsePath_sub h, segments_of_noSlash hkey.1]
  simp [unescape_of_noTilde hkey.2]

theorem EntryId.plain (id : EntryId) : Plain id.val := ⟨id.noSlash, id.noTilde⟩

theorem plain_toString (n : Nat) : Plain (toString n) := by
  refine ⟨noSlash_toString n, fun h => ?_⟩
  rw [Nat.toString_eq_repr, Nat.toList_repr] at h
  have := Nat.isDigit_of_mem_toDigits (by decide) (by decide) h
  revert this; decide

/-- `` `/entries/${id}` ``. -/
def entryPath (id : String) : String := sub "/entries" id

/-- `` `/status/${key}` ``. -/
def statusPath (key : String) : String := sub "/status" key

theorem rooted_entries : Rooted "/entries" := ⟨"entries".toList, by decide, by decide⟩
theorem rooted_status : Rooted "/status" := ⟨"status".toList, by decide, by decide⟩
theorem rooted_entryPath (id : String) : Rooted (entryPath id) := rooted_sub rooted_entries id

theorem parsePath_entries : parsePath "/entries" = ["entries"] := by decide
theorem parsePath_status : parsePath "/status" = ["status"] := by decide

theorem parsePath_entryPath {id : String} (h : Plain id) : parsePath (entryPath id) = ["entries", id] := by
  rw [entryPath, parsePath_sub_plain rooted_entries h, parsePath_entries]; rfl

theorem parsePath_statusPath {key : String} (h : Plain key) : parsePath (statusPath key) = ["status", key] := by
  rw [statusPath, parsePath_sub_plain rooted_status h, parsePath_status]; rfl

/-! ## Operations inside a document -/

/-- `cloneSet` on an object, at a first key and the rest. -/
def setIn (m : Obj) (key : String) (rest : List String) (value : Value) : Obj :=
  m.set key (cloneSet ((at_ m key).orElse (autoCreate rest)) rest value)

/-- `cloneRemove` on an object, at a first key and the rest. -/
def removeIn (m : Obj) (key : String) : List String → Obj
  | [] => m.erase key
  | next :: tail => if m.has key then m.set key (cloneRemove (at_ m key) (next :: tail)) else m

theorem cloneRemove_obj (m : Obj) (key : String) (rest : List String) :
    cloneRemove (.obj m) (key :: rest) = .obj (removeIn m key rest) := by
  cases rest with
  | nil => rfl
  | cons next tail => rw [cloneRemove, removeIn]; split <;> rfl

/-- One of the two maps of a document. -/
inductive Part where
  | status
  | entries

namespace Part

/-- The key of the map in the document. -/
def key : Part → String
  | .status => "status"
  | .entries => "entries"

/-- The map itself. -/
def of (doc : Document) : Part → Obj
  | .status => doc.status
  | .entries => doc.entries

/-- The document with the map replaced. -/
def put (doc : Document) : Part → Obj → Document
  | .status, m => { doc with status := m }
  | .entries, m => { doc with entries := m }

end Part

variable (doc : Document) (part : Part)

theorem cloneSet_toValue (key : String) (rest : List String) (v : Value) : cloneSet doc.toValue (part.key :: key :: rest) v
      = (part.put doc (setIn (part.of doc) key rest v)).toValue := by
  cases part <;> rfl

theorem cloneRemove_toValue (key : String) (rest : List String) : cloneRemove doc.toValue (part.key :: key :: rest)
      = (part.put doc (removeIn (part.of doc) key rest)).toValue := by
  rw [Document.toValue, cloneRemove_obj]
  cases part <;> simp only [removeIn, Part.key, Part.put, Part.of]
  · show Value.obj [_, _] = _
    rw [show at_ [("status", Value.obj doc.status), ("entries", Value.obj doc.entries)] "status"
      = .obj doc.status from rfl, cloneRemove_obj]; rfl
  · show Value.obj [_, _] = _
    rw [show at_ [("status", Value.obj doc.status), ("entries", Value.obj doc.entries)] "entries"
      = .obj doc.entries from rfl, cloneRemove_obj]; rfl

theorem getAt_toValue (key : String) (rest : List String) :
    getAt doc.toValue (part.key :: key :: rest) = getAt (at_ (part.of doc) key) rest := by
  cases part <;> rfl

/-- The path an operation changes. -/
def PatchOp.path : PatchOp → String
  | .add path _ | .remove path | .replace path _ | .move _ path | .append path _ _ => path

/-- The operation changes what is at `key` and then `rest` in one part of a document, and reads nothing
    from elsewhere. -/
def Addresses (op : PatchOp) (part : Part) (key : String) (rest : List String) : Prop :=
  parsePath op.path = part.key :: key :: rest ∧ ∀ «from» path, op ≠ .move «from» path

/-- What an operation does to an object, given the keys it walks there. -/
def opIn (m : Obj) (key : String) (rest : List String) : PatchOp → Obj
  | .add _ value | .replace _ value => setIn m key rest value
  | .remove _ => removeIn m key rest
  | .append _ value _ =>
    match getAt (at_ m key) rest with
    | .str existing => setIn m key rest (.str (existing ++ value))
    | _ => setIn m key rest (.str value)
  | .move _ _ => m

/-- **An operation inside a document updates one key of one of its maps.** -/
theorem applyOp_toValue {part : Part} {key : String} (h : Addresses op part key rest) (doc : Document) :
    applyOp doc.toValue op = (part.put doc (opIn (part.of doc) key rest op)).toValue := by
  obtain ⟨hpath, hmove⟩ := h
  cases op with
  | add path v | replace path v =>
    have hp : parsePath path = part.key :: key :: rest := hpath
    rw [applyOp, setAtPath, hp, cloneSet_toValue]; rfl
  | remove path =>
    have hp : parsePath path = part.key :: key :: rest := hpath
    rw [applyOp, removeAtPath, hp, cloneRemove_toValue]; rfl
  | move «from» path => exact absurd rfl (hmove «from» path)
  | append path v isLazy =>
    have hp : parsePath path = part.key :: key :: rest := hpath
    rw [applyOp, appendAtPath, getAtPath, hp, getAt_toValue, opIn]
    cases getAt (at_ (part.of doc) key) rest <;>
      simp only [setAtPath, hp, cloneSet_toValue]

/-- An operation that changes a key of `status` or of `entries`. -/
def Scoped (op : PatchOp) : Prop := ∃ part key rest, Addresses op part key rest

/-- `applyOp` on a document. -/
def Document.applyOp (doc : Document) (op : PatchOp) : Document := .ofValue (PiBridge.applyOp doc.toValue op)

@[simp] theorem applyPatch_nil : applyPatch doc [] = doc := rfl

theorem foldl_applyOp_toValue (h : ∀ op ∈ ops, Scoped op) (doc : Document) :
    ops.foldl applyOp doc.toValue = (applyPatch doc ops).toValue := by
  induction ops generalizing doc with
  | nil => rfl
  | cons op ops ih =>
    obtain ⟨part, key, rest, haddr⟩ := h op (by simp)
    have hops : ∀ o ∈ ops, Scoped o := fun o ho => h o (by simp [ho])
    rw [applyPatch, foldl_cons, applyOp_toValue haddr, ih hops, Document.ofValue_toValue]

/-- A patch is applied operation by operation. -/
theorem applyPatch_append (h : ∀ op ∈ ops, Scoped op) (ops' : Patch) (doc : Document) :
    applyPatch doc (ops ++ ops') = applyPatch (applyPatch doc ops) ops' := by
  rw [applyPatch, foldl_append, foldl_applyOp_toValue h]; rfl

theorem applyPatch_cons {part : Part} {key : String} (h : Addresses op part key rest) (ops : Patch) (doc : Document) :
    applyPatch doc (op :: ops) = applyPatch (part.put doc (opIn (part.of doc) key rest op)) ops := by
  rw [applyPatch, foldl_cons, applyOp_toValue h]; rfl

/-- Nothing but the addressed key changes. -/
theorem get?_opIn_ne (m : Obj) {key k : String} (rest : List String) (op : PatchOp) (h : key ≠ k) :
    (opIn m key rest op).get? k = m.get? k := by
  have hset : ∀ v, (setIn m key rest v).get? k = m.get? k := fun v => Props.get?_set_ne m _ h
  cases op with
  | add _ _ | replace _ _ => exact hset _
  | move _ _ => rfl
  | append _ val _ => rw [opIn]; split <;> exact hset _
  | remove _ =>
    rw [opIn]
    cases rest with
    | nil => exact Props.get?_erase_ne m h
    | cons next tail =>
      rw [removeIn]
      split
      · exact Props.get?_set_ne m _ h
      · rfl

/-- An operation below an object changes that object. -/
theorem opIn_below {m em : Obj} {key : String} (he : m.get? key = some (.obj em)) (next : String)
    (rest : List String) (op : PatchOp) (hmove : ∀ «from» path, op ≠ .move «from» path) :
    opIn m key (next :: rest) op = m.set key (.obj (opIn em next rest op)) := by
  have hat : at_ m key = .obj em := at_of_get? he
  have hset : ∀ v, setIn m key (next :: rest) v = m.set key (.obj (setIn em next rest v)) := by
    intro v; rw [setIn, hat]; rfl
  cases op with
  | add _ _ | replace _ _ => exact hset _
  | move «from» path => exact absurd rfl (hmove «from» path)
  | append _ val _ =>
    rw [opIn, hat, show getAt (.obj em) (next :: rest) = getAt (at_ em next) rest from rfl, opIn]
    cases getAt (at_ em next) rest <;> exact hset _
  | remove _ =>
    have hhas : m.has key = true := by rw [← Props.get?_isSome, he]; rfl
    rw [opIn, removeIn, if_pos hhas, hat, cloneRemove_obj]; rfl

/-- **Patch induction.** What each operation of a patch preserves, the patch preserves. -/
theorem applyPatch_induction (P : Document → Prop) (hstep : ∀ op ∈ ops, ∃ part key rest, Addresses op part key rest ∧
      ∀ doc, P doc → P (part.put doc (opIn (part.of doc) key rest op))) {doc : Document} (h : P doc) : P (applyPatch doc ops) := by
  induction ops generalizing doc with
  | nil => exact h
  | cons op ops ih =>
    obtain ⟨part, key, rest, haddr, hpres⟩ := hstep op (by simp)
    rw [applyPatch_cons haddr]
    exact ih (fun o ho => hstep o (by simp [ho])) (hpres doc h)

/-- An operation below a key removes no key. -/
theorem has_opIn_below {m : Obj} {key k next : String} (h : m.has k = true) : (opIn m key (next :: rest) op).has k = true := by
  have hset : ∀ v, (Props.set m key v).has k = true := by
    intro v
    rw [Props.has_set, h, Bool.or_true]
  cases op with
  | add _ _ | replace _ _ => exact hset _
  | move _ _ => exact h
  | append _ val _ => rw [opIn]; split <;> exact hset _
  | remove _ =>
    rw [opIn, removeIn]
    split
    · exact hset _
    · exact h

end PiBridge
