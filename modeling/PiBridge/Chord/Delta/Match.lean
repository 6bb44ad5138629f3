import Mathlib.Algebra.GroupWithZero.Nat
import Mathlib.Data.List.Basic

/-!
# `Chord.Delta.Match` — pairing the elements of two arrays

The elements of a region of `before` are paired with those of a region of `after`, in increasing positions on
both sides. There are several ways to find pairs; what the diff relies on is `Increasing`, which each of them
gives. Which pairs are found decides how small the result is, never whether it is right.

Identity is a parameter: `same` is `===`, and a `Map` keyed by values is the lists of positions of each.
-/

namespace PiBridge.Chord

variable {α : Type}

/-- `ArrayMatch`: a position in `before` and one in `after`. -/
abbrev ArrayMatch := Nat × Nat

/-- `MAX_IDENTITY_CANDIDATES` -/
def maxIdentityCandidates : Nat := 200000

/-- `MAX_SEMANTIC_CELLS` -/
def maxSemanticCells : Nat := 65536

/-- The pairs increase on both sides, within the two regions. -/
def Increasing (beforeEnd afterEnd : Nat) : Nat → Nat → List ArrayMatch → Prop
  | beforeAt, afterAt, [] => beforeAt ≤ beforeEnd ∧ afterAt ≤ afterEnd
  | beforeAt, afterAt, (b, a) :: rest =>
    beforeAt ≤ b ∧ b < beforeEnd ∧ afterAt ≤ a ∧ a < afterEnd ∧ Increasing beforeEnd afterEnd (b + 1) (a + 1) rest

/-! ## Searching -/

/-- `lowerBound`, the loop. -/
def lowerBoundFrom (values : List Nat) (value : Nat) : Nat → Nat → Nat → Nat
  | 0, low, _ => low
  | fuel + 1, low, high =>
    if low < high then
      let middle := (low + high) / 2
      if values.getD middle 0 < value then lowerBoundFrom values value fuel (middle + 1) high
      else lowerBoundFrom values value fuel low middle
    else low

/-- `lowerBound` -/
def lowerBound (values : List Nat) (value : Nat) : Nat := lowerBoundFrom values value values.length 0 values.length

/-- The first position from `start` on, below `stop`, that `p` holds of. -/
def firstFrom (p : Nat → Bool) (start stop : Nat) : Option Nat := (List.range' start (stop - start)).find? p

/-- How far `p` holds from 0 on, below `limit`. -/
def countWhile (p : Nat → Bool) (limit : Nat) : Nat := ((List.range limit).takeWhile p).length

/-! ## Identity -/

section Identity

variable (same : α → α → Bool) (before after : List α)

/-- The elements at the two positions are the same. -/
def sameAt (beforeIndex afterIndex : Nat) : Bool :=
  match before[beforeIndex]?, after[afterIndex]? with
  | some left, some right => same left right
  | _, _ => false

/-- The positions of a value in a region, ascending. -/
def positions (start stop : Nat) (value : α) : List Nat :=
  (List.range' start (stop - start)).filter fun index => before[index]?.any (same · value)

/-- `permutation`, from `seen` on: the `n`th occurrence of a value in `after` is its `n`th in `before`. -/
def permutationFrom (seen : List α) : List α → Option (List Nat)
  | [] => some []
  | value :: rest =>
    (positions same before 0 before.length value)[seen.countP (same · value)]?.bind fun index =>
      (permutationFrom (seen ++ [value]) rest).map (index :: ·)

/-- `permutation` -/
def permutation : Option (List Nat) := if before.length = after.length then permutationFrom same before [] after else none

/-- The loop of `identitySubsequence`: each position of the shorter region is found in the longer, from where the
    last one was on. -/
def subsequence (p : Nat → Nat → Bool) (longEnd : Nat) : Nat → List Nat → Option (List (Nat × Nat))
  | _, [] => some []
  | longAt, index :: rest =>
    (firstFrom (p · index) longAt longEnd).bind fun found =>
      (subsequence p longEnd (found + 1) rest).map ((found, index) :: ·)

/-- `identitySubsequence` -/
def identitySubsequence (beforeStart beforeEnd afterStart afterEnd : Nat) : Option (List ArrayMatch) :=
  let beforeCount := beforeEnd - beforeStart
  let afterCount := afterEnd - afterStart
  if afterCount < beforeCount then
    subsequence (sameAt same before after) beforeEnd beforeStart (List.range' afterStart afterCount)
  else if beforeCount < afterCount then
    (subsequence (fun a b => sameAt same before after b a) afterEnd afterStart
      (List.range' beforeStart beforeCount)).map (List.map Prod.swap)
  else none

/-- The positions in `before` of the element of `after`. -/
def candidatesOf (beforeStart beforeEnd afterIndex : Nat) : List Nat :=
  match after[afterIndex]? with
  | some value => positions same before beforeStart beforeEnd value
  | none => []

/-- `greedyIdentityAnchors`; `from_` is one past the position matched last. -/
def greedyIdentityAnchors (beforeStart beforeEnd : Nat) : Nat → List Nat → List ArrayMatch
  | _, [] => []
  | from_, afterIndex :: rest =>
    let candidates := candidatesOf same before after beforeStart beforeEnd afterIndex
    match candidates[lowerBound candidates from_]? with
    | none => greedyIdentityAnchors beforeStart beforeEnd from_ rest
    | some beforeIndex => (beforeIndex, afterIndex) :: greedyIdentityAnchors beforeStart beforeEnd (beforeIndex + 1) rest

end Identity

/-! ## A longest increasing chain of identical elements -/

/-- `MatchCandidate`; `previous` is a position in the list of candidates. -/
structure MatchCandidate where
  before : Nat
  after : Nat
  previous : Option Nat

/-- `candidates`, `tails` and `tailValues` of `identityAnchors`. -/
structure Piles where
  candidates : List MatchCandidate
  tails : List Nat
  tailValues : List Nat

/-- `xs[index] = value`, for an index at most one past the end. -/
def assignAt (xs : List Nat) (index value : Nat) : List Nat := if index < xs.length then xs.set index value else xs ++ [value]

namespace Piles

def start : Piles := { candidates := [], tails := [], tailValues := [] }

/-- One candidate goes on its pile. -/
def add (piles : Piles) (beforeIndex afterIndex : Nat) : Piles :=
  let at_ := lowerBound piles.tailValues beforeIndex
  { candidates := piles.candidates ++
      [{ before := beforeIndex, after := afterIndex, previous := if at_ = 0 then none else piles.tails[at_ - 1]? }]
    tails := assignAt piles.tails at_ piles.candidates.length
    tailValues := assignAt piles.tailValues at_ beforeIndex }

/-- The chain that ends in a candidate, last first. -/
def chain (candidates : List MatchCandidate) : Nat → Option Nat → List ArrayMatch
  | fuel + 1, some index =>
    match candidates[index]? with
    | some candidate => (candidate.before, candidate.after) :: chain candidates fuel candidate.previous
    | none => []
  | _, _ => []

/-- The chain of the last pile. -/
def longest (piles : Piles) : List ArrayMatch := (chain piles.candidates piles.candidates.length piles.tails.getLast?).reverse

end Piles

/-- `identityAnchors` -/
def identityAnchors (same : α → α → Bool) (before after : List α)
    (beforeStart beforeEnd afterStart afterEnd : Nat) : List ArrayMatch :=
  let indices := List.range' afterStart (afterEnd - afterStart)
  let candidates := candidatesOf same before after beforeStart beforeEnd
  if (indices.map fun index => (candidates index).length).sum > maxIdentityCandidates then
    greedyIdentityAnchors same before after beforeStart beforeEnd 0 indices
  else
    (indices.foldl (fun piles afterIndex =>
      (candidates afterIndex).reverse.foldl (fun piles beforeIndex => piles.add beforeIndex afterIndex) piles)
      Piles.start).longest

/-! ## A longest common subsequence -/

section Lcs

variable (equal : α → α → Bool)

/-- A row of `lengths`, from the row below it. -/
def lcsRow (left : α) : List α → List Nat → List Nat
  | right :: after, below =>
    let rest := lcsRow left after below.tail
    (if equal left right then below.tail.headD 0 + 1 else max (below.headD 0) (rest.headD 0)) :: rest
  | [], _ => [0]

/-- `lengths`, the row of each suffix of `before`. -/
def lcsLengths (after : List α) : List α → List (List Nat)
  | [] => [List.replicate (after.length + 1) 0]
  | left :: before =>
    let rest := lcsLengths after before
    lcsRow equal left after (rest.headD []) :: rest

/-- `lengths[left * width + right]` -/
def lengthAt (lengths : List (List Nat)) (left right : Nat) : Nat := (lengths.getD left []).getD right 0

/-- The walk of `lcsMatches` through `lengths`. -/
def lcsWalk (before after : List α) (lengths : List (List Nat)) : Nat → Nat → Nat → List ArrayMatch
  | 0, _, _ => []
  | fuel + 1, left, right =>
    if left < before.length ∧ right < after.length then
      if sameAt equal before after left right &&
          lengthAt lengths left right == lengthAt lengths (left + 1) (right + 1) + 1 then
        (left, right) :: lcsWalk before after lengths fuel (left + 1) (right + 1)
      else if lengthAt lengths (left + 1) right ≥ lengthAt lengths left (right + 1) then
        lcsWalk before after lengths fuel (left + 1) right
      else lcsWalk before after lengths fuel left (right + 1)
    else []

/-- `lcsMatches` -/
def lcsMatches (before after : List α) (maxCells : Nat) : Option (List ArrayMatch) :=
  if before.length * after.length > maxCells then none
  else some (lcsWalk equal before after (lcsLengths equal after before) (before.length + after.length) 0 0)

end Lcs

end PiBridge.Chord
