import PiBridge.Chord.Delta.Apply
import PiBridge.Chord.Delta.Match
import PiBridge.Chord.Delta.Revision

/-!
# `Chord.Delta.Diff` — a batch from two revisions

`diffRevisions` walks both revisions at once and emits operations into a batch of bounded size. Array regions
are cut at pairs of elements (`Chord.Delta.Match`) into smaller regions, which are differed in turn. Every
function takes the batch and gives it back; one that overflowed takes nothing more, and is replaced by `r` at
the end, as is one that costs more than the value.

Recursion into elements and properties is by `fuel`, one level of nesting each; recursion into regions has its
own, and each is enough (`Chord.Correctness.DiffExact`). How long a number's text is, is a parameter of the
costs.
-/

namespace PiBridge.Chord

open Lib

/-- `DEFAULT_OVERLAP_SCAN` -/
def defaultOverlapScan : Nat := 65536

/-- `MAX_DELTA_OPERATIONS` -/
def maxDeltaOperations : Nat := 4096

/-! ## The batch -/

/-- The operations, and whether the batch is among `overflowedBatches`. -/
structure Batch where
  operations : List Op
  overflowed : Bool

namespace Batch

def start : Batch := { operations := [], overflowed := false }

/-- `emitOperation` -/
def emit (operation : Op) (batch : Batch) : Batch :=
  if batch.overflowed then batch
  else if batch.operations.length ≥ maxDeltaOperations then { batch with overflowed := true }
  else { batch with operations := batch.operations ++ [operation] }

/-- `emitSet` -/
def emitSet (path : Path) (value : Json) (batch : Batch) : Batch := batch.emit (if path.isEmpty then .r value else .s path value)

end Batch

/-! ## Strings -/

/-- `text.indexOf(head, from)` -/
def indexOf (text head : Text) (from_ : Nat) : Option Nat := firstFrom (fun k => head.isPrefixOf (text.drop k)) from_ (text.length + 1)

/-- The candidates of one probe of `overlap`. -/
def probeOverlap (tail b head : Text) : Nat → Nat → Option Nat
  | 0, _ => none
  | tries + 1, from_ =>
    (indexOf tail head from_).bind fun k =>
      let n := tail.length - k
      if n ≤ b.length ∧ tail.drop k = b.take n then some n else probeOverlap tail b head tries (k + 1)

/-- `overlap`, with its defaults of 64 characters to probe with and 8 candidates. -/
def overlap (a b : Text) (scan : Nat) : Nat :=
  if a.isEmpty || b.isEmpty || scan == 0 then 0
  else
    let tail := if a.length > scan then a.drop (a.length - scan) else a
    let h := min 64 b.length
    match probeOverlap tail b (b.take h) 8 0 with
    | some n => n
    | none => if h = 1 then 0 else (probeOverlap tail b (b.take 1) 8 0).getD 0

/-- `emitString` -/
def emitString (before after : Text) (path : Path) (batch : Batch) : Batch :=
  if before = after then batch
  else if after.length > before.length ∧ after.take before.length = before then
    batch.emit (.a path (after.drop before.length))
  else
    let shared := overlap before after defaultOverlapScan
    if shared = 0 then batch.emit (.s path (.str after))
    else
      let trimmed := batch.emit (.t path (before.length - shared))
      if after.length > shared then trimmed.emit (.a path (after.drop shared)) else trimmed

/-! ## Arrays -/

namespace Revision

/-- `isContainer` -/
def isContainer : Revision → Bool
  | .arr _ _ | .obj _ _ => true
  | _ => false

/-- The same container. -/
def sameContainer (left right : Revision) : Bool := left.isContainer && identical left right

/-- `semanticallyAligned` -/
def semanticallyAligned (left right : Revision) : Bool :=
  sameValue left right ||
    match left, right with
    | .arr _ xs, .arr _ ys => xs.length == ys.length && (xs.zip ys).any fun pair => sameContainer pair.1 pair.2
    | .obj _ m, .obj _ m' =>
      m.any fun property => (Assoc.get? m' property.1).any fun other => sameContainer property.2 other
    | _, _ => false

end Revision

open Revision

/-- `xs.slice(start, end)` -/
def slice {α : Type} (xs : List α) (start stop : Nat) : List α := (xs.take stop).drop start

/-- A region of both arrays, and where its result starts. -/
structure Region where
  beforeStart : Nat
  beforeEnd : Nat
  afterStart : Nat
  afterEnd : Nat
  outputStart : Nat

namespace Region

def beforeCount (region : Region) : Nat := region.beforeEnd - region.beforeStart

def afterCount (region : Region) : Nat := region.afterEnd - region.afterStart

section Pairs

variable (before after : List Revision) (region : Region)

/-- The equal elements at its start are skipped. -/
def skipStart : Region :=
  let skipped := countWhile
    (fun offset => sameAt sameValue before after (region.beforeStart + offset) (region.afterStart + offset))
    (min region.beforeCount region.afterCount)
  { region with
    beforeStart := region.beforeStart + skipped
    afterStart := region.afterStart + skipped
    outputStart := region.outputStart + skipped }

/-- The equal elements at its end are skipped. -/
def skipEnd : Region :=
  let skipped := countWhile
    (fun offset => sameAt sameValue before after (region.beforeEnd - 1 - offset) (region.afterEnd - 1 - offset))
    (min region.beforeCount region.afterCount)
  { region with beforeEnd := region.beforeEnd - skipped, afterEnd := region.afterEnd - skipped }

/-- The positional pairs, of a region of one length on both sides. -/
def positional : List ArrayMatch :=
  if region.beforeCount = region.afterCount then
    ((List.range' 0 region.beforeCount).filter fun offset =>
      sameAt sameValue before after (region.beforeStart + offset) (region.afterStart + offset)).map fun offset =>
        (region.beforeStart + offset, region.afterStart + offset)
  else []

/-- The pairs of `lcsMatches`, at their positions in the arrays. -/
def semantic : List ArrayMatch :=
  ((lcsMatches semanticallyAligned (slice before region.beforeStart region.beforeEnd)
    (slice after region.afterStart region.afterEnd) maxSemanticCells).getD []).map fun pair =>
      (region.beforeStart + pair.1, region.afterStart + pair.2)

/-- The pairs a region is cut at: those of the first strategy that finds any. -/
def pairs : List ArrayMatch :=
  let byPosition := region.positional before after
  let bySubsequence := (identitySubsequence identical before after region.beforeStart region.beforeEnd
    region.afterStart region.afterEnd).getD []
  let byIdentity := identityAnchors identical before after region.beforeStart region.beforeEnd region.afterStart
    region.afterEnd
  if !byPosition.isEmpty then byPosition
  else if !bySubsequence.isEmpty then bySubsequence
  else if !byIdentity.isEmpty then byIdentity
  else region.semantic before after

end Pairs

end Region

section Arrays

variable (value : Revision → Revision → Path → Batch → Option Batch) (before after : List Revision) (path : Path)

/-- `processArrayMatches`; `differ` is `diffArrayRegion`. -/
def processArrayMatches (differ : Region → Batch → Option Batch) : Region → List ArrayMatch → Batch → Option Batch
  | region, [], batch => if batch.overflowed then some batch else differ region batch
  | region, (beforeMatch, afterMatch) :: rest, batch =>
    if batch.overflowed then some batch
    else
      let outputAt := region.outputStart + (afterMatch - region.afterStart)
      (differ { region with beforeEnd := beforeMatch, afterEnd := afterMatch } batch).bind fun batch =>
        (if sameAt sameValue before after beforeMatch afterMatch then some batch
          else value (before.getD beforeMatch .null) (after.getD afterMatch .null) (path ++ [Seg.index outputAt])
            batch).bind fun batch =>
          processArrayMatches differ
            { region with beforeStart := beforeMatch + 1, afterStart := afterMatch + 1, outputStart := outputAt + 1 }
            rest batch

/-- `diffArrayRegion` -/
def diffArrayRegion : Nat → Region → Batch → Option Batch
  | 0, _, _ => none
  | fuel + 1, region, batch =>
    if batch.overflowed then some batch
    else
      let region := (region.skipStart before after).skipEnd before after
      let splice : Op := .p path region.outputStart region.beforeCount
        ((slice after region.afterStart region.afterEnd).map json)
      if region.beforeCount = 0 ∧ region.afterCount = 0 then some batch
      else if region.beforeCount = 0 ∨ region.afterCount = 0 then some (batch.emit splice)
      else if !(region.pairs before after).isEmpty then
        processArrayMatches value before after path (diffArrayRegion fuel) region (region.pairs before after) batch
      else if region.beforeCount = 1 ∧ region.afterCount = 1 then
        value (before.getD region.beforeStart .null) (after.getD region.afterStart .null)
          (path ++ [Seg.index region.outputStart]) batch
      else some (batch.emit splice)

/-- `diffArray`, of arrays that differ. -/
def diffArray (batch : Batch) : Option Batch := let whole : Region :=
    { beforeStart := 0, beforeEnd := before.length, afterStart := 0, afterEnd := after.length, outputStart := 0 }
  let order := if before.length = after.length ∧ before.length > 1 ∧ sameAt sameValue before after 0 0 = false ∧
        sameAt sameValue before after (before.length - 1) (after.length - 1) = false then
      permutation identical before after
    else none
  match order with
  | some order => some (batch.emit (.m path order))
  | none => diffArrayRegion value before after path (before.length + after.length + 1) whole batch

end Arrays

/-! ## Objects and values -/

section Objects

variable (value : Revision → Revision → Path → Batch → Option Batch) (before after : List (Text × Revision)) (path : Path)

/-- The loop over the keys of `after`. -/
def diffProperties : List (Text × Revision) → Batch → Option Batch
  | [], batch => some batch
  | (key, right) :: rest, batch =>
    if batch.overflowed then some batch
    else
      (match Assoc.get? before key with
        | some left => value left right (path ++ [Seg.key key]) batch
        | none => some (batch.emitSet (path ++ [Seg.key key]) right.json)).bind fun batch =>
        diffProperties rest batch

/-- The loop over the keys of `before`. -/
def deleteProperties : List (Text × Revision) → Batch → Batch
  | [], batch => batch
  | (key, _) :: rest, batch =>
    if batch.overflowed then batch
    else deleteProperties rest (if (Assoc.get? after key).isSome then batch else batch.emit (.d (path ++ [Seg.key key])))

/-- `diffObject`; `same` is whether the two are equal. -/
def diffObject (same : Bool) (batch : Batch) : Option Batch :=
  if (before ++ after).any fun property => reservedSegments.contains property.1 then
    some (if same then batch else batch.emitSet path (.obj (jsonObj after)))
  else
    (diffProperties value before path after batch).map fun batch => deleteProperties after path before batch

end Objects

/-- `diffValue` -/
def diffValue : Nat → Revision → Revision → Path → Batch → Option Batch
  | 0, _, _, _, _ => none
  | fuel + 1, before, after, path, batch =>
    if identical before after || batch.overflowed then some batch
    else
      match before, after with
      | .str s, .str s' =>
        some (if path.isEmpty then batch.emitSet path (.str s') else emitString s s' path batch)
      | .arr _ xs, .arr _ ys =>
        if equalJson before after then some batch else diffArray (diffValue fuel) xs ys path batch
      | .obj _ m, .obj _ m' => diffObject (diffValue fuel) m m' path (equalJson before after) batch
      | _, _ => some (batch.emitSet path after.json)

/-! ## Costs -/

section Costs

variable (numberLength : Rat → Nat)

mutual
/-- `jsonCost` -/
def jsonCost : Json → Nat
  | .null => 4
  | .str s => s.length + 2
  | .num q => numberLength q
  | .bool b => if b then 4 else 5
  | .arr xs => 2 + elementsCost true xs
  | .obj m => 2 + propertiesCost true m

def elementsCost (first : Bool) : List Json → Nat
  | [] => 0
  | x :: xs => jsonCost x + (if first then 0 else 1) + elementsCost false xs

def propertiesCost (first : Bool) : List (Text × Json) → Nat
  | [] => 0
  | (key, x) :: m => key.length + 3 + jsonCost x + (if first then 0 else 1) + propertiesCost false m
end

/-- A segment in `pathCost`. -/
def segCost : Seg → Nat
  | .key s => s.length + 2
  | .index n => (decimal n).length

/-- `pathCost` -/
def pathCost (path : Path) : Nat := 2 + (path.map segCost).sum + (path.length - 1)

/-- `operationCost` -/
def operationCost : Op → Nat
  | .r value => 6 + jsonCost numberLength value
  | .s path value => 7 + pathCost path + jsonCost numberLength value
  | .d path => 6 + pathCost path
  | .a path suffix => 7 + pathCost path + suffix.length + 2
  | .t path count => 7 + pathCost path + (decimal count).length
  | .p path index remove items =>
    10 + pathCost path + (decimal index).length + (decimal remove).length + jsonCost numberLength (.arr items)
  | .m path permutation =>
    7 + pathCost path + jsonCost numberLength (.arr (permutation.map fun i => .num i))

/-- `diffRevisions` -/
def diffRevisions (before after : Revision) : Option (List Op) :=
  (diffValue (before.depth + 1) before after [] Batch.start).map fun batch =>
    if batch.overflowed then [.r after.json]
    else if batch.operations.isEmpty || isBase batch.operations then batch.operations
    else
      let deltaCost := 2 + (batch.operations.map fun operation => operationCost numberLength operation + 1).sum
      if deltaCost < 65536 then batch.operations
      else if deltaCost ≥ jsonCost numberLength after.json + 6 then [.r after.json]
      else batch.operations

end Costs

end PiBridge.Chord
