import PiBridge.Chord.JsonText

/-!
# `Chord.Link.Payload` — values with byte leaves

The value of a payload part is JSON with `Uint8Array` leaves. A leaf is written as `{"$bytes": i}`, and its bytes stand in
segment `i`; the key `$bytes` is reserved. A subclass with a `toJSON`, such as Node's `Buffer`, is written as any leaf: the
replacer looks at the holder's own value.

Reading replaces every reference by its segment. The source does so in place, in a value that nothing else holds.
-/

namespace PiBridge.Chord.Link

open Lib

/-- A value that crosses a link. -/
inductive LinkValue
  | null
  | bool (b : Bool)
  | num (q : Rat)
  | str (s : Text)
  | bytes (leaf : List UInt8)
  | arr (xs : List LinkValue)
  | obj (m : List (Text × LinkValue))

namespace LinkValue

@[elab_as_elim, induction_eliminator]
theorem induct {P : LinkValue → Prop} (null : P null) (bool : ∀ b, P (bool b)) (num : ∀ q, P (num q)) (str : ∀ s, P (str s))
    (bytes : ∀ leaf, P (bytes leaf)) (arr : ∀ xs, (∀ x ∈ xs, P x) → P (arr xs)) (obj : ∀ m, (∀ p ∈ m, P p.2) → P (obj m))
    (v : LinkValue) : P v :=
  match v with
  | .null => null
  | .bool b => bool b
  | .num q => num q
  | .str s => str s
  | .bytes leaf => bytes leaf
  | .arr xs => arr xs (elements xs)
  | .obj m => obj m (members m)
where
  elements (xs : List LinkValue) : ∀ x ∈ xs, P x := match xs with
    | [] => nofun
    | first :: rest => fun x h =>
      (List.mem_cons.mp h).elim (fun heq => heq ▸ induct null bool num str bytes arr obj first) (elements rest x)
  members (m : List (Text × LinkValue)) : ∀ p ∈ m, P p.2 := match m with
    | [] => nofun
    | (key, first) :: rest => fun p h =>
      (List.mem_cons.mp h).elim (fun heq => heq ▸ induct null bool num str bytes arr obj first) (members rest p)

end LinkValue

/-- The reserved key. -/
def bytesKey : Text := text "$bytes"

def reservedMessage : Text := text "\"$bytes\" is reserved in values crossing a link"

/-! ## Writing -/

/-- The reference to a segment. -/
def reference (index : Nat) : Json := .obj [(bytesKey, .num index)]

/-- What `JSON.stringify` writes of a value with the replacer of `payloadPart`, and the segments so far; an object with the
    reserved key fails. -/
def replaced : LinkValue → List (List UInt8) → Except Text (Json × List (List UInt8))
  | .null, segments => .ok (.null, segments)
  | .bool b, segments => .ok (.bool b, segments)
  | .num q, segments => .ok (.num q, segments)
  | .str s, segments => .ok (.str s, segments)
  | .bytes leaf, segments => .ok (reference segments.length, segments ++ [leaf])
  | .arr xs, segments => (elements xs segments).map fun written => (.arr written.1, written.2)
  | .obj m, segments =>
    if Assoc.get? m bytesKey ≠ none then .error reservedMessage
    else (members m segments).map fun written => (.obj written.1, written.2)
where
  elements : List LinkValue → List (List UInt8) → Except Text (List Json × List (List UInt8))
    | [], segments => .ok ([], segments)
    | x :: xs, segments =>
      (replaced x segments).bind fun first => (elements xs first.2).map fun rest => (first.1 :: rest.1, rest.2)
  members : List (Text × LinkValue) → List (List UInt8) → Except Text (List (Text × Json) × List (List UInt8))
    | [], segments => .ok ([], segments)
    | (key, x) :: m, segments =>
      (replaced x segments).bind fun first => (members m first.2).map fun rest => ((key, first.1) :: rest.1, rest.2)

/-- What plain `JSON.stringify` writes of a value: a `Uint8Array` is an object of its elements. -/
def plainJson : LinkValue → Json
  | .null => .null
  | .bool b => .bool b
  | .num q => .num q
  | .str s => .str s
  | .bytes leaf => .obj (leaf.zipIdx.map fun item => (decimal item.2, .num item.1.toNat))
  | .arr xs => .arr (elements xs)
  | .obj m => .obj (members m)
where
  elements : List LinkValue → List Json
    | [] => []
    | x :: xs => plainJson x :: elements xs
  members : List (Text × LinkValue) → List (Text × Json)
    | [] => []
    | (key, x) :: m => (key, plainJson x) :: members m

section

variable (numbers : Numbers)

/-- A payload part at its origin; `undefined` is `null`. -/
def payloadPart (value : Option LinkValue) (bytes : Bool) : Except Text (Text × Option (List (List UInt8))) :=
  match value with
  | none => .ok (text "null", if bytes then some [] else none)
  | some value =>
    if bytes then (replaced value []).map fun written => (stringify numbers written.1, some written.2)
    else .ok (stringify numbers (plainJson value), none)

/-! ## Reading -/

/-- `segments[index]` -/
def segmentAt (segments : List (List UInt8)) (index : Rat) : Option (List UInt8) :=
  if index.den = 1 ∧ 0 ≤ index.num then segments[index.num.toNat]? else none

/-- Every reference replaced by its segment; none on a malformed one. -/
def resolveSegments (segments : List (List UInt8)) : Json → Option LinkValue
  | .null => some .null
  | .bool b => some (.bool b)
  | .num q => some (.num q)
  | .str s => some (.str s)
  | .arr xs => (elements xs).map .arr
  | .obj m =>
    match Assoc.get? m bytesKey with
    | some (.num index) => if m.length ≠ 1 then none else (segmentAt segments index).map .bytes
    | some _ => none
    | none => (members m).map .obj
where
  elements : List Json → Option (List LinkValue)
    | [] => some []
    | x :: xs => (resolveSegments segments x).bind fun first => (elements xs).map fun rest => first :: rest
  members : List (Text × Json) → Option (List (Text × LinkValue))
    | [] => some []
    | (key, x) :: m => (resolveSegments segments x).bind fun first => (members m).map fun rest => (key, first) :: rest

/-- A value as it was parsed. -/
def ofJson : Json → LinkValue
  | .null => .null
  | .bool b => .bool b
  | .num q => .num q
  | .str s => .str s
  | .arr xs => .arr (elements xs)
  | .obj m => .obj (members m)
where
  elements : List Json → List LinkValue
    | [] => []
    | x :: xs => ofJson x :: elements xs
  members : List (Text × Json) → List (Text × LinkValue)
    | [] => []
    | (key, x) :: m => (key, ofJson x) :: members m

/-- Parses a payload part's JSON, its references resolved when there are segments; none when it is malformed. -/
def parsePayload (json : Text) (segments : Option (List (List UInt8))) : Option LinkValue :=
  (parse numbers json).bind fun value =>
    match segments with
    | none => some (ofJson value)
    | some segments => resolveSegments segments value

end

end PiBridge.Chord.Link
