import PiBridge.Chord.Delta.PathKey
import PiBridge.Lib.Assoc

/-!
# `Chord.Delta.Apply` — applying operations to a value

`applyImmutable` leaves the value it starts from as it is, so a value is a tree and an operation maps it to
another. `none` is a throw: a path that does not resolve, a segment of the wrong kind, an index past the end.

Every operation descends along a path of own properties and changes what it finds there; `Json.descend` does
so, for any change. A number names a property of an object as well as an element: `accepts` says which segments
the applier takes at a container, `suits` which of them are of the container's kind.
-/

namespace PiBridge.Chord

open Lib List Option

/-- The property a segment names. -/
def Seg.name : Seg → Text
  | .key s => s
  | .index n => decimal n

namespace Json

/-- `!isObj(value)` -/
def isPrimitive : Json → Bool
  | arr _ | obj _ => false
  | _ => true

/-- The own property of a container; an array's are its elements. -/
def child? : Json → Seg → Option Json
  | arr xs, .index n => xs[n]?
  | obj m, seg => Assoc.get? m seg.name
  | _, _ => none

/-- The applier takes the segment at this container: an array takes a number at most one past its end. -/
def accepts : Json → Seg → Bool
  | arr xs, .index n => n ≤ xs.length
  | obj _, _ => true
  | _, _ => false

/-- The segment is of the container's kind: a number at an array, a string at an object. -/
def suits : Json → Seg → Bool
  | arr xs, .index n => n ≤ xs.length
  | obj _, .key _ => true
  | _, _ => false

/-- `Object.defineProperty` with a plain value. -/
def put : Json → Seg → Json → Json
  | arr xs, .index n, v => if n < xs.length then arr (xs.set n v) else arr (xs ++ [v])
  | obj m, seg, v => obj (Assoc.set m seg.name v)
  | node, _, _ => node

/-- Descend along `path` and change what is there; nothing is there for an absent property. -/
def descend (takes : Json → Seg → Bool) : Path → (Option Json → Option Json) → Option Json → Option Json
  | [], change, found => change found
  | _ :: _, _, none => none
  | seg :: path, change, some node =>
    if takes node seg then (descend takes path change (node.child? seg)).map (node.put seg) else none

attribute [local simp] child? put suits descend

section Put

variable {node : Json} {seg seg' : Seg}

theorem accepts_of_suits (h : node.suits seg = true) : node.accepts seg = true := by
  cases node <;> cases seg <;> first | exact h | rfl

theorem suits_of_isPrimitive (h : node.isPrimitive = true) (seg : Seg) : node.suits seg = false := by
  cases node <;> first | rfl | exact nomatch h

@[simp] theorem put_index_of_lt {xs : List Json} {n : Nat} (h : n < xs.length) (v : Json) :
    put (.arr xs) (.index n) v = .arr (xs.set n v) := by
  simp [put, h]

@[simp] theorem put_index_length (xs : List Json) (v : Json) : put (.arr xs) (.index xs.length) v = .arr (xs ++ [v]) := by
  simp [put]

@[simp] theorem put_obj (m : List (Text × Json)) (seg : Seg) (v : Json) : put (.obj m) seg v = .obj (Assoc.set m seg.name v) := rfl

/-- A number an array takes is in range or one past the end. -/
theorem lt_or_eq_of_suits {xs : List Json} {n : Nat} (h : suits (.arr xs) (.index n) = true) :
    n < xs.length ∨ n = xs.length := Nat.lt_or_eq_of_le (of_decide_eq_true h)

section

variable (h : node.suits seg = true)

include h

@[simp] theorem child?_put_self (v : Json) : (node.put seg v).child? seg = some v := by
  cases node with
  | arr xs =>
    cases seg with
    | key _ => simp [suits] at h
    | index n =>
      rcases lt_or_eq_of_suits h with hlt | rfl
      · simp [child?, hlt]
      · simp [child?]
  | obj m => simp [child?]
  | null | bool _ | num _ | str _ => simp [suits] at h

theorem child?_put_ne (h' : node.suits seg' = true) (hne : seg ≠ seg') (v : Json) :
    (node.put seg v).child? seg' = node.child? seg' := by
  cases node with
  | arr xs =>
    cases seg with
    | key _ => simp [suits] at h
    | index n =>
      cases seg' with
      | key _ => simp [suits] at h'
      | index n' =>
        have hnn : n ≠ n' := fun heq => hne (by rw [heq])
        rcases lt_or_eq_of_suits h with hlt | rfl
        · simp [child?, hlt, hnn]
        · have hlt' : n' < xs.length := by
            have := lt_or_eq_of_suits h'
            omega
          simp [child?, getElem?_append_left hlt']
  | obj m =>
    cases seg with
    | index _ => simp [suits] at h
    | key k =>
      cases seg' with
      | index _ => simp [suits] at h'
      | key k' =>
        have hkk : k ≠ k' := fun heq => hne (by rw [heq])
        simp [child?, Seg.name, Assoc.get?_set_ne _ _ hkk]
  | null | bool _ | num _ | str _ => simp [suits] at h

theorem suits_put (v : Json) (h' : node.suits seg' = true) : (node.put seg v).suits seg' = true := by
  cases node with
  | arr xs =>
    cases seg with
    | key _ => exact nomatch h
    | index n =>
      cases seg' with
      | key _ => exact nomatch h'
      | index n' =>
        have hn' : n' ≤ xs.length := of_decide_eq_true h'
        rcases lt_or_eq_of_suits h with hlt | rfl
        · simpa [hlt, suits] using hn'
        · simp only [put_index_length, suits, length_append, decide_eq_true_eq]
          omega
  | obj m => cases seg' <;> first | rfl | exact nomatch h'
  | null | bool _ | num _ | str _ => exact nomatch h

theorem put_put (v w : Json) : (node.put seg v).put seg w = node.put seg w := by
  cases node with
  | arr xs =>
    cases seg with
    | key _ => exact nomatch h
    | index n =>
      rcases lt_or_eq_of_suits h with hlt | rfl
      · simp [hlt]
      · have hlt : xs.length < (xs ++ [v]).length := by simp
        simp [put_index_of_lt hlt]
  | obj m => simp
  | null | bool _ | num _ | str _ => exact nomatch h

/-- Writing a property that is there leaves the others where they are. -/
theorem put_comm (h' : node.suits seg' = true) (hne : seg ≠ seg')
    (hch : node.child? seg ≠ none) (v w : Json) :
    (node.put seg v).put seg' w = (node.put seg' w).put seg v := by
  cases node with
  | arr xs =>
    cases seg with
    | key _ => exact nomatch h
    | index n =>
      cases seg' with
      | key _ => exact nomatch h'
      | index n' =>
        have hnn : n ≠ n' := fun heq => hne (by rw [heq])
        have hlt : n < xs.length := by
          by_contra hge
          exact hch (getElem?_eq_none (by omega))
        rcases lt_or_eq_of_suits h' with hlt' | rfl
        · simp [hlt, hlt', set_comm _ _ hnn]
        · have hset : (xs.set n v).length = xs.length := length_set
          have hlt'' : n < (xs ++ [w]).length := by simp; omega
          rw [put_index_of_lt hlt, put_index_length, put_index_of_lt hlt'', ← hset, put_index_length, set_append_left _ _ hlt]
  | obj m =>
    cases seg with
    | index _ => exact nomatch h
    | key k =>
      cases seg' with
      | index _ => exact nomatch h'
      | key k' =>
        have hkk : k ≠ k' := fun heq => hne (by rw [heq])
        simp only [put_obj, Seg.name, Assoc.set_comm m v w hkk hch]
  | null | bool _ | num _ | str _ => exact nomatch h

end

end Put

section Descend

variable {path : Path} {change change' : Option Json → Option Json} {found : Option Json} {v w : Json}

/-- A descent that succeeds passes through a container that takes the segment. -/
theorem descend_cons {takes : Json → Seg → Bool} {seg : Seg} (h : descend takes (seg :: path) change found = some v) :
    ∃ node ch, found = some node ∧ takes node seg = true ∧
      descend takes path change (node.child? seg) = some ch ∧ v = node.put seg ch := by
  cases found with
  | none => exact nomatch h
  | some node =>
    unfold descend at h
    split at h
    · rename_i htakes
      obtain ⟨ch, hch, rfl⟩ := map_eq_some_iff.mp h
      exact ⟨node, ch, rfl, htakes, hch, rfl⟩
    · exact nomatch h

theorem descend_some {takes : Json → Seg → Bool} {seg : Seg} {node ch : Json} (htakes : takes node seg = true)
    (h : descend takes path change (node.child? seg) = some ch) :
    descend takes (seg :: path) change (some node) = some (node.put seg ch) := by
  simp only [descend, if_pos htakes, h, map_some]

theorem descend_accepts (h : descend suits path change found = some v) : descend accepts path change found = some v := by
  induction path generalizing found v with
  | nil => exact h
  | cons seg path ih =>
    obtain ⟨node, ch, rfl, hsuit, hch, rfl⟩ := descend_cons h
    exact descend_some (accepts_of_suits hsuit) (ih hch)

/-- Two changes in one place are one. -/
theorem descend_descend (h : descend suits path change found = some v) (h' : descend suits path change' (some v) = some w) :
    descend suits path (fun found => (change found).bind fun v => change' (some v)) found = some w := by
  induction path generalizing found v w with
  | nil =>
    have hchg : change found = some v := h
    simp only [descend, hchg, bind_some]
    exact h'
  | cons seg path ih =>
    obtain ⟨node, ch, rfl, hsuit, hch, rfl⟩ := descend_cons h
    obtain ⟨_, ch', ⟨⟩, -, hch', rfl⟩ := descend_cons h'
    rw [child?_put_self hsuit] at hch'
    rw [put_put hsuit]
    exact descend_some hsuit (ih hch hch')

end Descend

end Json

namespace Op

open Json

/-- `s` -/
def assign (value : Json) : Option Json → Option Json := fun _ => some value

/-- `a` -/
def append (suffix : Text) : Option Json → Option Json
  | some (.str cs) => some (.str (cs ++ suffix))
  | _ => none

/-- `t` -/
def trim (count : Nat) : Option Json → Option Json
  | some (.str cs) => some (.str (cs.drop count))
  | _ => none

/-- `d`, at the parent. -/
def delete (key : Seg) : Option Json → Option Json
  | some (.arr xs) =>
    match key with
    | .index n => if n < xs.length then some (.arr (xs.eraseIdx n)) else none
    | .key _ => none
  | some (.obj ps) => some (.obj (Assoc.erase ps key.name))
  | _ => none

/-- `p` -/
def splice (index remove : Nat) (items : List Json) : Option Json → Option Json
  | some (.arr xs) => some (.arr (xs.take index ++ items ++ xs.drop (index + remove)))
  | _ => none

/-- `m` -/
def reorder (permutation : List Nat) : Option Json → Option Json
  | some (.arr xs) =>
    if xs.length = permutation.length then some (.arr (permutation.filterMap fun i => xs[i]?)) else none
  | _ => none

/-- What an operation does to a value, with the segments `takes` allows. -/
def effect (takes : Json → Seg → Bool) (op : Op) (root : Json) : Option Json :=
  match op with
  | r value => some value
  | s path value => descend takes path (assign value) (some root)
  | d path =>
    match path.getLast? with
    | some key => descend takes path.dropLast (delete key) (some root)
    | none => none
  | a path suffix => descend takes path (append suffix) (some root)
  | t path count => descend takes path (trim count) (some root)
  | p path index remove items => descend takes path (splice index remove items) (some root)
  | m path permutation => descend takes path (reorder permutation) (some root)

/-- One operation, checked by `assertValidOp` first. -/
def applyWith (takes : Json → Seg → Bool) (op : Op) (root : Json) : Option Json := if op.isValid then op.effect takes root else none

end Op

/-- `applyImmutable` -/
def applyImmutable (root : Json) (ops : List Op) : Option Json := ops.foldlM (fun value op => op.applyWith Json.accepts value) root

/-- `applyImmutable`, of operations whose paths use numbers for array elements and strings for object keys. -/
def applyTyped (root : Json) (ops : List Op) : Option Json := ops.foldlM (fun value op => op.applyWith Json.suits value) root

variable {root v : Json}

theorem Op.effect_accepts {op : Op} (h : op.effect Json.suits root = some v) : op.effect Json.accepts root = some v := by
  cases op with
  | r val => exact h
  | s _ _ | a _ _ | t _ _ | p _ _ _ _ | m _ _ => exact Json.descend_accepts h
  | d path =>
    unfold Op.effect at h ⊢
    cases hlast : path.getLast? with
    | none => simp [hlast] at h
    | some key =>
      simp only [hlast] at h ⊢
      exact Json.descend_accepts h

theorem Op.applyWith_accepts {op : Op} (h : op.applyWith Json.suits root = some v) : op.applyWith Json.accepts root = some v := by
  unfold Op.applyWith at h ⊢
  split at h
  · rename_i hvald
    rw [if_pos hvald]
    exact Op.effect_accepts h
  · exact nomatch h

theorem applyImmutable_of_applyTyped {ops : List Op} (h : applyTyped root ops = some v) : applyImmutable root ops = some v := by
  induction ops generalizing root with
  | nil => exact h
  | cons op ops ih =>
    obtain ⟨w, hw, hrest⟩ := bind_eq_some_iff.mp h
    exact bind_eq_some_iff.mpr ⟨w, Op.applyWith_accepts hw, ih hrest⟩

theorem applyTyped_append (root : Json) (ops ops' : List Op) :
    applyTyped root (ops ++ ops') = (applyTyped root ops).bind fun v => applyTyped v ops' := by
  unfold applyTyped
  rw [foldlM_append]
  rfl

end PiBridge.Chord
