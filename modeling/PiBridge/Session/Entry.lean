import PiBridge.Chord.Utf

/-!
# `Session.Entry` — the records of a session, and their index

A session is a list of records: its header, then entries that form a tree by their parents. A record is the object its
line of the file is written from, so a property that is `undefined` is one it does not have.
-/

namespace PiBridge.Session

open Chord Lib List Option Assoc Bool

/-! ## Properties -/

/-- An object literal; `none` is a property that is `undefined`. -/
def record (fields : List (String × Option Json)) : Json := .obj (fields.filterMap fun field => field.2.map fun x => (text field.1, x))

/-- A property of a value. -/
def field (key : String) : Json → Option Json
  | .obj m => Assoc.get? m (text key)
  | _ => none

/-- A property, where it is a string. -/
def textField (key : String) (entry : Json) : Option Text :=
  match field key entry with
  | some (.str s) => some s
  | _ => none

/-- `{ ...entry, key: x }` -/
def withField (key : String) (x : Json) : Json → Json
  | .obj m => .obj (Assoc.set m (text key) x)
  | entry => entry

/-- `string | null` -/
def nullable : Option Text → Json
  | none => .null
  | some s => .str s

section Fields

variable (entry : Json)

def entryType : Option Text := textField "type" entry

/-- The types promise a string. -/
def entryId : Text := (textField "id" entry).getD []

def parentId : Option Text := textField "parentId" entry

def entryTimestamp : Text := (textField "timestamp" entry).getD []

def targetId : Text := (textField "targetId" entry).getD []

/-- The label, where it is not empty. -/
def entryLabel : Option Text := (textField "label" entry).filter fun label => !label.isEmpty

/-- The role of a message entry's message. -/
def messageRole : Option Text := (field "message" entry).bind (textField "role")

/-- The header is no entry. -/
def isHeader : Bool := decide (entryType entry = some (text "session"))

def isLabel : Bool := decide (entryType entry = some (text "label"))

def isConversation : Bool :=
  decide (entryType entry = some (text "message")) &&
    (decide (messageRole entry = some (text "user")) || decide (messageRole entry = some (text "assistant")))

end Fields

/-! ## The index -/

/-- What is collected of the records: entries by ID, the labels in force, and the last entry. -/
structure Index where
  byId : Assoc Text Json
  labelsById : Assoc Text Text
  labelTimestampsById : Assoc Text Text
  leafId : Option Text

namespace Index

variable (index : Index)

def empty : Index := ⟨[], [], [], none⟩

/-- Set or clear the label of an entry. -/
def relabel (target : Text) (label : Option Text) (timestamp : Text) : Index :=
  match label with
  | some label =>
    { index with
      labelsById := Assoc.set index.labelsById target label
      labelTimestampsById := Assoc.set index.labelTimestampsById target timestamp }
  | none =>
    { index with
      labelsById := Assoc.erase index.labelsById target
      labelTimestampsById := Assoc.erase index.labelTimestampsById target }

/-- An entry joins, as the leaf. -/
def add (entry : Json) : Index := { index with byId := Assoc.set index.byId (entryId entry) entry, leafId := some (entryId entry) }

/-- The same index, but for where its leaf is. -/
def SameEntries (index index' : Index) : Prop :=
  index.byId = index'.byId ∧ index.labelsById = index'.labelsById ∧ index.labelTimestampsById = index'.labelTimestampsById

end Index

/-- One turn of `_buildIndex`. -/
def indexEntry (index : Index) (entry : Json) : Index :=
  if isHeader entry then index
  else if isLabel entry then (index.add entry).relabel (targetId entry) (entryLabel entry) (entryTimestamp entry)
  else index.add entry

/-- `_buildIndex` -/
def buildIndex (entries : List Json) : Index := entries.foldl indexEntry .empty

/-- The header is left out. -/
def entriesOf (records : List Json) : List Json := records.filter fun entry => !isHeader entry

/-! ## Literals -/

section Literals

theorem text_inj {s t : String} : text s = text t ↔ s = t := by
  constructor
  · intro h
    have hchars : chars (utf16 s.toList) = chars (utf16 t.toList) := congrArg chars h
    rw [chars_utf16, chars_utf16] at hchars
    exact String.toList_inj.mp hchars
  · exact congrArg text

@[simp] theorem field_record_nil (key : String) : field key (record []) = none := rfl

@[simp] theorem field_record_cons (key name : String) (x : Option Json) (flds : List (String × Option Json)) :
    field key (record ((name, x) :: flds)) = if name = key then x.or (field key (record flds)) else field key (record flds) := by
  cases x with
  | none =>
    rw [none_or, ite_self]
    rfl
  | some x =>
    show (if text name = text key then some x else field key (record flds)) = _
    simp only [text_inj, some_or]

theorem field_withField_self {key : String} {x : Json} {m : List (Text × Json)} : field key (withField key x (.obj m)) = some x :=
  get?_set_self m (text key) x

theorem field_withField_ne {key name : String} (x entry : Json) (hne : name ≠ key) :
    field key (withField name x entry) = field key entry := by
  cases entry with
  | obj m => exact get?_set_ne m x fun heq => hne (text_inj.1 heq)
  | null | bool _ | num _ | str _ | arr _ => rfl

end Literals

/-! ## Records as JSON -/

/-- A record can be written and read back: its properties have names, and their values can. -/
inductive Record (numbers : Numbers) : Json → Prop
  | obj {m : List (Text × Json)} (hkeys : (m.map Prod.fst).Nodup) (hnames : ∀ p ∈ m, arrayIndex? p.1 = none)
      (hplain : ∀ p ∈ m, Chord.Plain numbers p.2) : Record numbers (.obj m)

/-- The name of a property is no array index: some character of it is no digit. -/
def IsName (key : Text) : Prop := ∃ c ∈ key, isDigit c = false

instance (key : Text) : Decidable (IsName key) := List.decidableBEx (fun c => isDigit c = false) key

theorem IsName.arrayIndex {key : Text} (h : IsName key) : arrayIndex? key = none := by
  obtain ⟨c, hc, hdig⟩ := h
  unfold arrayIndex?
  refine if_neg fun hidx => ?_
  rw [← hidx.1] at hc
  exact false_ne_true (hdig.symm.trans (isDigit_decimal hc))

namespace Record

variable {numbers : Numbers} {entry x : Json}

theorem plain (h : Record numbers entry) : Chord.Plain numbers entry := by
  cases h with
  | @obj m hkeys hnams hplain =>
    refine .obj hkeys ?_ hplain
    have hnone : m.filter (fun property => (arrayIndex? property.1).isSome) = [] :=
      filter_eq_nil_iff.mpr fun p hp => by rw [hnams p hp]; exact false_ne_true
    have hall : m.filter (fun property => (arrayIndex? property.1).isNone) = m := filter_eq_self.mpr fun p hp => by rw [hnams p hp]; rfl
    rw [enumerate, hnone, hall, mergeSort_nil, nil_append]

/-- A literal with distinct names is a record. -/
theorem literal {flds : List (String × Option Json)} (names : List String) (hflds : flds.map Prod.fst = names) (hkeys : names.Nodup)
    (hnams : ∀ name ∈ names, IsName (text name)) (hplain : ∀ name x, (name, some x) ∈ flds → Chord.Plain numbers x) :
    Record numbers (record flds) := by
  subst hflds
  have hmem : ∀ p ∈ flds.filterMap fun fld => fld.2.map fun x => (text fld.1, x), ∃ name x, (name, some x) ∈ flds ∧ p = (text name, x) := by
    intro p hp
    obtain ⟨⟨name, x⟩, hfield, hx⟩ := mem_filterMap.mp hp
    obtain ⟨x, rfl, rfl⟩ := map_eq_some_iff.mp hx
    exact ⟨name, x, hfield, rfl⟩
  refine .obj ?_ ?_ ?_
  · have hsub : ((flds.filterMap fun fld => fld.2.map fun x => (text fld.1, x)).map Prod.fst).Sublist
        ((flds.map Prod.fst).map text) := by
      clear hmem hkeys hnams hplain
      induction flds with
      | nil => exact Sublist.refl _
      | cons fld flds ih =>
        obtain ⟨name, x⟩ := fld
        cases x with
        | none => exact ih.cons _
        | some x => exact ih.cons_cons _
    exact hsub.nodup (hkeys.map fun _ _ heq => text_inj.1 heq)
  · intro p hp
    obtain ⟨name, x, hfield, rfl⟩ := hmem p hp
    exact (hnams name (mem_map.mpr ⟨_, hfield, rfl⟩)).arrayIndex
  · intro p hp
    obtain ⟨name, x, hfield, rfl⟩ := hmem p hp
    exact hplain name x hfield

theorem withField (h : Record numbers entry) {key : String} (hname : IsName (text key)) (hx : Chord.Plain numbers x) :
    Record numbers (withField key x entry) := by
  cases h with
  | @obj m hkeys hnams hplain =>
    have hmem : ∀ p ∈ set m (text key) x, p ∈ m ∨ p = (text key, x) := by
      intro p hp
      clear hkeys hnams hplain
      induction m with
      | nil => exact .inr (mem_singleton.mp hp)
      | cons q m ih =>
        unfold Assoc.set at hp
        split at hp
        · rename_i hkey
          rcases mem_cons.mp hp with rfl | hp
          · rw [hkey]
            exact .inr rfl
          · exact .inl (mem_cons_of_mem _ hp)
        · rcases mem_cons.mp hp with rfl | hp
          · exact .inl mem_cons_self
          · exact (ih hp).imp_left (mem_cons_of_mem _)
    refine .obj (nodup_keys_set hkeys _ _) ?_ ?_
    · intro p hp
      rcases hmem p hp with hp | rfl
      · exact hnams p hp
      · exact hname.arrayIndex
    · intro p hp
      rcases hmem p hp with hp | rfl
      · exact hplain p hp
      · exact hx

end Record

/-! ## Growth of the index -/

section Growth

variable {entry : Json} {index : Index}

variable (recs : List Json)

theorem buildIndex_concat (entry : Json) : buildIndex (recs ++ [entry]) = indexEntry (buildIndex recs) entry :=
  foldl_concat indexEntry Index.empty entry recs

theorem indexEntry_header (h : isHeader entry = true) : indexEntry index entry = index := if_pos h

theorem entriesOf_append (recs' : List Json) : entriesOf (recs ++ recs') = entriesOf recs ++ entriesOf recs' := filter_append recs recs'

theorem entriesOf_concat (h : isHeader entry = false) (recs : List Json) : entriesOf (recs ++ [entry]) = entriesOf recs ++ [entry] := by
  rw [entriesOf_append, entriesOf, entriesOf, filter_singleton, h]
  rfl

theorem entriesOf_header (h : isHeader entry = true) (recs : List Json) : entriesOf (recs ++ [entry]) = entriesOf recs := by
  rw [entriesOf_append, entriesOf, entriesOf, filter_singleton, h]
  exact append_nil _

theorem relabel_byId (tgt : Text) (lab : Option Text) (ts : Text) : (index.relabel tgt lab ts).byId = index.byId := by
  cases lab <;> rfl

theorem relabel_leafId (tgt : Text) (lab : Option Text) (ts : Text) : (index.relabel tgt lab ts).leafId = index.leafId := by
  cases lab <;> rfl

theorem indexEntry_byId (h : isHeader entry = false) (index : Index) :
    (indexEntry index entry).byId = Assoc.set index.byId (entryId entry) entry := by
  unfold indexEntry
  rw [if_neg (eq_false_iff.mp h)]
  split
  · rw [relabel_byId]
    rfl
  · rfl

theorem indexEntry_leafId (h : isHeader entry = false) (index : Index) : (indexEntry index entry).leafId = some (entryId entry) := by
  unfold indexEntry
  rw [if_neg (eq_false_iff.mp h)]
  split
  · rw [relabel_leafId]
    rfl
  · rfl

/-- The index knows the IDs of the entries. -/
theorem mem_buildIndex (id : Text) : id ∈ (buildIndex recs).byId.map Prod.fst ↔ id ∈ (entriesOf recs).map entryId := by
  induction recs using reverseRecOn with
  | nil => exact Iff.rfl
  | append_singleton recs entry ih =>
    rw [buildIndex_concat]
    cases h : isHeader entry with
    | true => rw [indexEntry_header h, entriesOf_header h, ih]
    | false =>
      rw [indexEntry_byId h, entriesOf_concat h, keys_set, map_append, mem_append, ← ih, map_singleton, mem_singleton]
      split
      · rename_i hmem
        constructor
        · exact .inl
        · rintro (hid | rfl)
          · exact hid
          · exact hmem
      · rw [mem_append, mem_singleton]

/-- What the index knows by an ID is the entry of the ID. -/
theorem of_get_buildIndex {recs : List Json} {id : Text} (h : Assoc.get? (buildIndex recs).byId id = some entry) :
    entry ∈ entriesOf recs ∧ entryId entry = id := by
  induction recs using reverseRecOn with
  | nil => exact nomatch h
  | append_singleton recs last ih =>
    rw [buildIndex_concat] at h
    cases hlast : isHeader last with
    | true =>
      rw [indexEntry_header hlast] at h
      rw [entriesOf_header hlast]
      exact ih h
    | false =>
      rw [indexEntry_byId hlast, get?_set] at h
      rw [entriesOf_concat hlast, mem_append, mem_singleton]
      split at h
      · rename_i hid
        cases h
        exact ⟨.inr rfl, hid⟩
      · exact ⟨.inl (ih h).1, (ih h).2⟩

/-- The leaf of the index is its last entry. -/
theorem buildIndex_leafId : (buildIndex recs).leafId = (entriesOf recs).getLast?.map entryId := by
  induction recs using reverseRecOn with
  | nil => rfl
  | append_singleton recs entry ih =>
    rw [buildIndex_concat]
    cases h : isHeader entry with
    | true => rw [indexEntry_header h, entriesOf_header h, ih]
    | false => rw [indexEntry_leafId h, entriesOf_concat h, getLast?_concat, map_some]

end Growth

end PiBridge.Session
