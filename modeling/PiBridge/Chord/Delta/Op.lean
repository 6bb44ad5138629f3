import PiBridge.Chord.Json

/-!
# `Chord.Delta.Op` — operations on a JSON value

An `Op` is a decoded operation: verb, path and payload. `Op.isValid` is what `assertValidOp` checks beyond
the types: that `s`, `d`, `a` and `t` do not target the root, that no segment reaches the prototype chain,
and that a permutation is one.
-/

namespace PiBridge.Chord

/-- A string names a property, a number an array element. -/
inductive Seg where
  | key (s : Text)
  | index (n : Nat)
deriving DecidableEq

abbrev Path := List Seg

/-- A decoded operation. -/
inductive Op where
  /-- Replace the whole value. -/
  | r (value : Json)
  | s (path : Path) (value : Json)
  | d (path : Path)
  /-- Append to a string. -/
  | a (path : Path) (suffix : Text)
  /-- Drop the first code units of a string. -/
  | t (path : Path) (count : Nat)
  /-- Splice an array. -/
  | p (path : Path) (index remove : Nat) (items : List Json)
  /-- Reorder an array: `new[i] = old[permutation[i]]`. -/
  | m (path : Path) (permutation : List Nat)
deriving DecidableEq

/-- `RESERVED_SEGMENTS` -/
def reservedSegments : List Text := [text "__proto__", text "constructor", text "prototype"]

/-- `assertSafePath` accepts the segment. -/
def Seg.isSafe : Seg → Bool
  | .key s => !reservedSegments.contains s
  | .index _ => true

def Path.isSafe (path : Path) : Bool := path.all Seg.isSafe

/-- `assertPermutation` accepts the list. -/
def isPermutation (permutation : List Nat) : Bool := permutation.all (· < permutation.length) && decide permutation.Nodup

namespace Op

/-- The path of an operation that has one. -/
def path? : Op → Option Path
  | r _ => none
  | s path _ | d path | a path _ | t path _ | p path _ _ _ | m path _ => some path

/-- `isReplace` -/
def isReplace : Op → Bool
  | r _ => true
  | _ => false

/-- `assertValidOp` accepts the operation. -/
def isValid : Op → Bool
  | r _ => true
  | s path _ | d path | a path _ | t path _ => !path.isEmpty && path.isSafe
  | p path _ _ _ => path.isSafe
  | m path permutation => path.isSafe && isPermutation permutation

end Op

/-- `isBase` -/
def isBase : List Op → Bool
  | op :: _ => op.isReplace
  | [] => false

end PiBridge.Chord
