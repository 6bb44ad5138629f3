import Mathlib

/-!
# `Chord.Delta.ArrayPlan` — the operations that turn an array into its pieces

An array overlay is a list of pieces: runs of the base array's elements, and of elements that were inserted. `buildArrayPlan`
makes operations of it: runs of the base to remove, from the end backwards, then a permutation of what is left, then runs of
pieces to insert, from the start on. `orderedArrayPlan` does so from the pieces alone when the base elements keep their order.

A run goes up or down from its start; the elements of an inserted run are read from its source.
-/

namespace PiBridge.Chord

variable {α : Type}

/-- `step`: 1 or -1. -/
inductive Step where
  | up
  | down
deriving DecidableEq

/-- `start + step * offset`, which is never below 0. -/
def Step.at (step : Step) (start offset : Nat) : Nat :=
  match step with
  | up => start + offset
  | down => start - offset

inductive Piece (α : Type) where
  | base (start length : Nat) (step : Step)
  | insert (source : Nat → α) (start length : Nat) (step : Step)

namespace Piece

def isBase : Piece α → Bool
  | base .. => true
  | insert .. => false

def length : Piece α → Nat
  | base _ length _ | insert _ _ length _ => length

/-- The base elements of a piece, by index. -/
def baseIndices : Piece α → List Nat
  | base start length step => (List.range length).map (step.at start)
  | insert .. => []

/-- The elements of a piece of a base array. -/
def elements (xs : List α) : Piece α → List α
  | base start length step => (List.range length).filterMap fun offset => xs[step.at start offset]?
  | insert source start length step => (List.range length).map fun offset => source (step.at start offset)

end Piece

/-- Runs of elements: `start, length`; runs of pieces: `logical index, first piece, end piece`. -/
structure ArrayPlan where
  removeRuns : List (Nat × Nat)
  permutation : Option (List Nat)
  insertRuns : List (Nat × Nat × Nat)

def rangeLength (pieces : List (Piece α)) : Nat := (pieces.map Piece.length).sum

/-- `insertRunsOf`, from a piece on. -/
def insertRunsOf (logicalIndex pieceIndex : Nat) : List (Piece α) → List (Nat × Nat × Nat)
  | [] => []
  | piece :: pieces =>
    if piece.isBase then insertRunsOf (logicalIndex + piece.length) (pieceIndex + 1) pieces
    else
      let run := piece :: pieces.takeWhile (!·.isBase)
      let next := logicalIndex + rangeLength run
      (next - rangeLength run, pieceIndex, pieceIndex + run.length) ::
        insertRunsOf next (pieceIndex + run.length) (pieces.dropWhile (!·.isBase))
termination_by pieces => pieces.length
decreasing_by
  · simp
  · exact Nat.lt_succ_of_le (List.dropWhile_sublist _).length_le

/-! ## The plan of ordered pieces -/

/-- The ranges of base elements, each `first, last`; `none` when one goes down or does not lie behind the range before it. -/
def orderedRanges (previous : Option Nat) : List (Piece α) → Option (List (Nat × Nat))
  | [] => some []
  | .insert .. :: pieces => orderedRanges previous pieces
  | .base start length step :: pieces =>
    if length = 0 then orderedRanges previous pieces
    else if step ≠ .up ∧ 1 < length then none
    else if previous.any (start ≤ ·) then none
    else (orderedRanges (some (start + length - 1)) pieces).map ((start, start + length - 1) :: ·)

/-- The runs before `stop` that the ranges leave out; the ranges are listed backwards. -/
def gapRuns (stop : Nat) : List (Nat × Nat) → List (Nat × Nat)
  | [] => if 0 < stop then [(0, stop)] else []
  | (first, last) :: ranges => (if last + 1 < stop then [(last + 1, stop - (last + 1))] else []) ++ gapRuns first ranges

def orderedArrayPlan (baseLength : Nat) (pieces : List (Piece α)) : Option ArrayPlan :=
  (orderedRanges none pieces).map fun ranges => ⟨gapRuns baseLength ranges.reverse, none, insertRunsOf 0 0 pieces⟩

/-! ## The plan of any pieces -/

/-- Where the run of removed elements before `stop` starts. -/
def runStart (retained : Nat → Bool) : Nat → Nat
  | 0 => 0
  | stop + 1 => if retained stop then stop + 1 else runStart retained stop

theorem runStart_le (retained : Nat → Bool) (stop : Nat) : runStart retained stop ≤ stop := by
  induction stop with
  | zero => exact Nat.le_refl 0
  | succ stop ih =>
    unfold runStart
    split
    · exact Nat.le_refl _
    · exact Nat.le_succ_of_le ih

/-- The runs before `stop` of elements that are not retained. -/
def removeRuns (retained : Nat → Bool) : Nat → List (Nat × Nat)
  | 0 => []
  | stop + 1 =>
    if retained stop then removeRuns retained stop
    else (runStart retained stop, stop + 1 - runStart retained stop) :: removeRuns retained (runStart retained stop)
decreasing_by
  · exact Nat.lt_succ_self stop
  · exact Nat.lt_succ_of_le (runStart_le retained stop)

/-- The indices of the base elements, in the order of the pieces. -/
def targetBase (pieces : List (Piece α)) : List Nat := pieces.flatMap Piece.baseIndices

theorem targetBase_cons (pc : Piece α) (pieces : List (Piece α)) :
    targetBase (pc :: pieces) = pc.baseIndices ++ targetBase pieces := List.flatMap_cons

def elementArrayPlan (baseLength : Nat) (pieces : List (Piece α)) : ArrayPlan :=
  let targetBase := targetBase pieces
  let retained := fun index => targetBase.contains index
  let retainedBase := (List.range baseLength).filter retained
  { removeRuns := removeRuns retained baseLength
    permutation := if targetBase.zipIdx.any fun value => retainedBase[value.2]? ≠ some value.1 then
      some (targetBase.map retainedBase.idxOf) else none
    insertRuns := insertRunsOf 0 0 pieces }

def buildArrayPlan (baseLength : Nat) (pieces : List (Piece α)) : ArrayPlan :=
  (orderedArrayPlan baseLength pieces).getD (elementArrayPlan baseLength pieces)

/-! ## The operations -/

/-- `xs.splice(start, remove, ...items)` -/
def spliceAt (xs : List α) (start remove : Nat) (items : List α) : List α := xs.take start ++ items ++ xs.drop (start + remove)

/-- `new[i] = old[permutation[i]]`; the lengths must agree. -/
def permute (xs : List α) (permutation : List Nat) : Option (List α) :=
  if xs.length = permutation.length then some (permutation.filterMap (xs[·]?)) else none

/-- What the operations of `emitArrayOperations` do to an array. -/
def ArrayPlan.apply (plan : ArrayPlan) (pieces : List (Piece α)) (xs : List α) : Option (List α) := do
  let kept := plan.removeRuns.foldl (fun ys run => spliceAt ys run.1 run.2 []) xs
  let permuted ← plan.permutation.elim (some kept) (permute kept)
  return plan.insertRuns.foldl (fun ys run =>
    spliceAt ys run.1 0 (((pieces.take run.2.2).drop run.2.1).flatMap (Piece.elements xs))) permuted

end PiBridge.Chord
