import PiBridge.Chord.Delta.PathKey

/-!
# `Chord.Delta.Codec` — path ids and omitted paths

Between a producer and a boundary a path is written in one of three ways: inline, as an id that an earlier
`["#", id, path]` defined, or not at all when it is the path of the operation before. What crosses is a plain
tuple, and only its arity says whether it holds a path, so a `Tuple` is a list of JSON values and the decoder
reads it as it would anything it receives (`assertValidWireOp`).

The encoder's dictionary is keyed by `pathKey`; the decoder's by id. Both outlive a batch. The previous path
does not.
-/

namespace PiBridge.Chord

/-- What crosses a boundary, verb first. -/
abbrev Tuple := List Json

def verb (name : String) : Json := .str (text name)

/-- `Number.isInteger(value) && value >= 0` -/
def nat? : Json → Option Nat
  | .num q => if q.den = 1 ∧ 0 ≤ q.num then some q.num.toNat else none
  | _ => none

def natJson (n : Nat) : Json := .num n

namespace Seg

def toJson : Seg → Json
  | .key s => .str s
  | .index n => natJson n

def ofJson? : Json → Option Seg
  | .str s => some (.key s)
  | v => (nat? v).map .index

end Seg

namespace Path

def toJson (path : Path) : Json := .arr (path.map Seg.toJson)

/-- A path that is an array and that `assertSafePath` accepts. -/
def ofJson? : Json → Option Path
  | .arr xs => (xs.mapM Seg.ofJson?).bind fun path => if isSafe path then some path else none
  | _ => none

end Path

/-- A permutation that `assertPermutation` accepts. -/
def permutation? : Json → Option (List Nat)
  | .arr xs => (xs.mapM nat?).bind fun ns => if isPermutation ns then some ns else none
  | _ => none

/-- `okRef` -/
def okRef (ref : Json) : Bool :=
  match ref with
  | .num _ => (nat? ref).isSome
  | _ => (Path.ofJson? ref).isSome

namespace Op

def verbOf : Op → Json
  | r _ => verb "r"
  | s _ _ => verb "s"
  | d _ => verb "d"
  | a _ _ => verb "a"
  | t _ _ => verb "t"
  | p _ _ _ _ => verb "p"
  | m _ _ => verb "m"

/-- What the tuple holds beside the verb and the path. -/
def payload : Op → List Json
  | r value | s _ value => [value]
  | d _ => []
  | a _ suffix => [.str suffix]
  | t _ count => [natJson count]
  | p _ index remove items => [natJson index, natJson remove, .arr items]
  | m _ permutation => [.arr (permutation.map natJson)]

/-- The tuple of an operation, with what stands for its path. -/
def tuple (op : Op) (ref : Option Json) : Tuple := op.verbOf :: (ref.toList ++ op.payload)

end Op

/-! ## The encoder -/

structure Encoder where
  /-- The keys of the paths written inline. -/
  seen : Text → Bool
  ids : Text → Option Nat
  nextId : Nat

def Encoder.start : Encoder := { seen := fun _ => false, ids := fun _ => none, nextId := 0 }

/-- One operation of a batch, after an operation whose path has key `previous`. -/
def encodeOp (enc : Encoder) (previous : Option Text) (op : Op) : Encoder × Option Text × List Tuple :=
  match op.path? with
  -- What follows a replacement must not refer to what came before it.
  | none => (Encoder.start, none, [op.tuple none])
  | some path =>
    let key := pathKey path
    if previous = some key then (enc, previous, [op.tuple none])
    else
      match enc.ids key with
      | some id => (enc, some key, [op.tuple (some (natJson id))])
      | none =>
        if enc.seen key then
          ({ enc with ids := Function.update enc.ids key (some enc.nextId), nextId := enc.nextId + 1 }, some key,
            [[verb "#", natJson enc.nextId, path.toJson], op.tuple (some (natJson enc.nextId))])
        else
          ({ enc with seen := Function.update enc.seen key true }, some key, [op.tuple (some path.toJson)])

/-- The loop of `encode`. -/
def encodeFrom (enc : Encoder) (previous : Option Text) : List Op → Encoder × Option Text × List Tuple
  | [] => (enc, previous, [])
  | op :: ops =>
    let (enc', previous', out) := encodeOp enc previous op
    let (enc'', previous'', rest) := encodeFrom enc' previous' ops
    (enc'', previous'', out ++ rest)

/-- `encode` -/
def Encoder.encode (enc : Encoder) (ops : List Op) : Encoder × List Tuple :=
  let (enc', _, out) := encodeFrom enc none ops
  (enc', out)

/-! ## The decoder -/

/-- `assertValidWireOp` accepts the tuple. -/
def assertValidWireOp : Tuple → Bool
  | [] => false
  | name :: args =>
    if name = verb "r" then args.length = 1
    else if name = verb "s" then
      match args with
      | [ref, _] => okRef ref
      | [_] => true
      | _ => false
    else if name = verb "d" then
      match args with
      | [ref] => okRef ref
      | [] => true
      | _ => false
    else if name = verb "a" then
      match args with
      | [ref, .str _] => okRef ref
      | [.str _] => true
      | _ => false
    else if name = verb "t" then
      match args with
      | [ref, count] => okRef ref && (nat? count).isSome
      | [count] => (nat? count).isSome
      | _ => false
    else if name = verb "p" then
      match args with
      | [ref, index, remove, .arr _] => okRef ref && (nat? index).isSome && (nat? remove).isSome
      | [index, remove, .arr _] => (nat? index).isSome && (nat? remove).isSome
      | _ => false
    else if name = verb "m" then
      match args with
      | [ref, permutation] => okRef ref && (permutation? permutation).isSome
      | [permutation] => (permutation? permutation).isSome
      | _ => false
    else if name = verb "#" then
      match args with
      | [id, path] => (nat? id).isSome && (Path.ofJson? path).isSome
      | _ => false
    else false

structure Decoder where
  paths : Nat → Option Path

def Decoder.start : Decoder := { paths := fun _ => none }

/-- The tuple omits its path. -/
def isShort (name : Json) (args : List Json) : Bool :=
  if name = verb "d" then args.length = 0
  else if name = verb "p" then args.length = 3
  else args.length = 1

/-- The path that stands in a tuple. -/
def Decoder.resolveRef (dec : Decoder) (ref : Json) : Option Path :=
  match ref with
  | .num _ => (nat? ref).bind dec.paths
  | _ => Path.ofJson? ref

/-- The operation of a verb, a path and a payload; `s`, `d`, `a` and `t` do not target the root. -/
def readOp (name : Json) (path : Path) (payload : List Json) : Option Op :=
  if name ≠ verb "p" ∧ name ≠ verb "m" ∧ path = [] then none
  else if name = verb "s" then
    match payload with
    | [value] => some (.s path value)
    | _ => none
  else if name = verb "d" then some (.d path)
  else if name = verb "a" then
    match payload with
    | [.str suffix] => some (.a path suffix)
    | _ => none
  else if name = verb "t" then
    match payload with
    | [count] => (nat? count).map (.t path)
    | _ => none
  else if name = verb "p" then
    match payload with
    | [index, remove, .arr items] =>
      (nat? index).bind fun index => (nat? remove).map fun remove => .p path index remove items
    | _ => none
  else
    match payload with
    | [permutation] => (permutation? permutation).map (.m path)
    | _ => none

/-- One tuple of a batch, after an operation on the path `previous`; `none` when it throws. -/
def decodeOp (dec : Decoder) (previous : Option Path) (op : Tuple) : Option (Decoder × Option Path × List Op) :=
  if assertValidWireOp op then
    match op with
    | [] => none
    | name :: args =>
      if name = verb "#" then
        match args with
        | [id, path] =>
          (nat? id).bind fun id => (Path.ofJson? path).map fun path =>
            ({ paths := Function.update dec.paths id (some path) }, previous, [])
        | _ => none
      else if name = verb "r" then
        match args with
        | [value] => some (Decoder.start, none, [.r value])
        | _ => none
      else if isShort name args then
        previous.bind fun path => (readOp name path args).map fun op => (dec, some path, [op])
      else
        match args with
        | ref :: payload =>
          (dec.resolveRef ref).bind fun path =>
            (readOp name path payload).map fun op => (dec, some path, [op])
        | [] => none
  else none

/-- The loop of `decode`. -/
def decodeFrom (dec : Decoder) (previous : Option Path) : List Tuple → Option (Decoder × Option Path × List Op)
  | [] => some (dec, previous, [])
  | op :: wire =>
    (decodeOp dec previous op).bind fun (dec', previous', out) =>
      (decodeFrom dec' previous' wire).map fun (dec'', previous'', rest) => (dec'', previous'', out ++ rest)

/-- `decode` -/
def Decoder.decode (dec : Decoder) (wire : List Tuple) : Option (Decoder × List Op) :=
  (decodeFrom dec none wire).map fun (dec', _, out) => (dec', out)

/-! ## A stream of batches -/

/-- The batches that one encoder writes. -/
def encodeAll (enc : Encoder) : List (List Op) → List (List Tuple)
  | [] => []
  | ops :: batches => (enc.encode ops).2 :: encodeAll (enc.encode ops).1 batches

/-- The encoder after the batches. -/
def encoderAfter (enc : Encoder) (batches : List (List Op)) : Encoder := batches.foldl (fun enc ops => (enc.encode ops).1) enc

/-- The batches that one decoder reads. -/
def decodeAll (dec : Decoder) : List (List Tuple) → Option (List (List Op))
  | [] => some []
  | wire :: wires =>
    (dec.decode wire).bind fun (dec', ops) => (decodeAll dec' wires).map fun batches => ops :: batches

end PiBridge.Chord
