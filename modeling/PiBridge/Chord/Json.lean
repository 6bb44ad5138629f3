import Mathlib.Data.Rat.Defs
import Mathlib.Data.List.Basic

/-!
# `Chord.Json` — strict JSON values, with strings as JavaScript has them

Chord measures, cuts and compares strings by UTF-16 code unit, so a `Text` is the list of its code units; it
need not be well-formed Unicode. Numbers are the finite ones, kept exactly. An object is its own properties
in enumeration order, one per key.
-/

namespace PiBridge.Chord

/-- A JavaScript string: its UTF-16 code units. -/
abbrev Text := List UInt16

instance : LawfulBEq Text := inferInstanceAs (LawfulBEq (List UInt16))

/-- The code units of a character. -/
def codeUnits (c : Char) : Text :=
  let n := c.toNat
  if n < 0x10000 then [UInt16.ofNat n]
  else [UInt16.ofNat (0xD800 + (n - 0x10000) / 0x400), UInt16.ofNat (0xDC00 + (n - 0x10000) % 0x400)]

/-- A string literal of the source. -/
def text (s : String) : Text := s.toList.flatMap codeUnits

inductive Json where
  | null
  | bool (b : Bool)
  | num (q : Rat)
  | str (s : Text)
  | arr (xs : List Json)
  | obj (m : List (Text × Json))

namespace Json

/-! ## Decidable equality -/

mutual
/-- Equality of values is decidable, by recursion on the first. -/
def decEq : (a b : Json) → Decidable (a = b)
  | .null, b => by cases b <;> first | exact isTrue rfl | exact isFalse (by simp)
  | .bool x, b => match b with
    | .bool y => decidable_of_iff (x = y) (by simp)
    | .null | .num _ | .str _ | .arr _ | .obj _ => isFalse (by simp)
  | .num x, b => match b with
    | .num y => decidable_of_iff (x = y) (by simp)
    | .null | .bool _ | .str _ | .arr _ | .obj _ => isFalse (by simp)
  | .str x, b => match b with
    | .str y => decidable_of_iff (x = y) (by simp)
    | .null | .bool _ | .num _ | .arr _ | .obj _ => isFalse (by simp)
  | .arr x, b => match b with
    | .arr y => @decidable_of_iff _ (x = y) (by simp) (decEqArr x y)
    | .null | .bool _ | .num _ | .str _ | .obj _ => isFalse (by simp)
  | .obj x, b => match b with
    | .obj y => @decidable_of_iff _ (x = y) (by simp) (decEqObj x y)
    | .null | .bool _ | .num _ | .str _ | .arr _ => isFalse (by simp)

/-- `decEq` on array elements. -/
def decEqArr : (a b : List Json) → Decidable (a = b)
  | [], b => match b with
    | [] => isTrue rfl
    | _ :: _ => isFalse (by simp)
  | x :: xs, b => match b with
    | [] => isFalse (by simp)
    | y :: ys => @decidable_of_iff _ (x = y ∧ xs = ys) (by simp)
        (@instDecidableAnd _ _ (decEq x y) (decEqArr xs ys))

/-- `decEq` on object properties. -/
def decEqObj : (a b : List (Text × Json)) → Decidable (a = b)
  | [], b => match b with
    | [] => isTrue rfl
    | _ :: _ => isFalse (by simp)
  | (k, x) :: xs, b => match b with
    | [] => isFalse (by simp)
    | (l, y) :: ys => @decidable_of_iff _ (k = l ∧ x = y ∧ xs = ys) (by simp [and_assoc])
        (@instDecidableAnd _ _ _ (@instDecidableAnd _ _ (decEq x y) (decEqObj xs ys)))
end

instance : DecidableEq Json := decEq

end Json

end PiBridge.Chord
