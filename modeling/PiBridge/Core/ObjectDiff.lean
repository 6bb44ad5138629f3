import PiBridge.Core.Document

/-!
# `Core.ObjectDiff` — granular operations between two partial objects

`computeObjectDiff` turns one partial arguments object into the next by operations on sub-paths: an
`append` where a string grew by a suffix, recursion into objects and arrays, `add` and `remove` for keys
and elements that come and go.

The recursion is over the old value. What matters to a reader of the operations is only where they point:
every one of them is below the base path (`path_computeObjectDiff`).
-/

namespace PiBridge

open Js Js.Value List

/-- `new.slice(old.length)` when `new` starts with `old`. -/
def suffix? (old new : String) : Option String :=
  if old.toList.isPrefixOf new.toList then some (String.ofList (new.toList.drop old.toList.length)) else none

/-- The string branch of `diffValue`. -/
def diffString (old new path : String) : Patch :=
  match suffix? old new with
  | some suffix => if old.length < new.length then [.append path suffix false] else [.replace path (.str new)]
  | none => [.replace path (.str new)]

/-- The keys of `new` that `old` does not have, added below `path`. -/
def addedProps (old new : Obj) (path : String) : Patch := (new.filter fun p => !old.has p.1).map fun p => .add (sub path p.1) p.2

/-- Removals for a shrunk tail, high to low, then additions for a grown one. -/
def resizeOps (oldLen : Nat) (new : List Value) (path : String) : Patch :=
  ((List.range oldLen).reverse.filter (new.length ≤ ·)).map (fun i => PatchOp.remove (sub path (toString i)))
    ++ ((List.range new.length).filter (oldLen ≤ ·)).map fun i => PatchOp.add (sub path (toString i)) (new.getD i .undefined)

mutual
/-- `diffValue`. -/
def diffValue : Value → Value → String → Patch
  | old, new, path =>
    if old = new then [] else
      match old, new with
      | .str a, .str b => diffString a b path
      | .arr xs, .arr ys => diffElems xs ys 0 path ++ resizeOps xs.length ys path
      | .obj m, .obj m' => diffProps m m' path ++ addedProps m m' path
      | _, new => [.replace path new]

/-- The shared indices of `diffArray`, from index `i` on. -/
def diffElems : List Value → List Value → Nat → String → Patch
  | x :: xs, y :: ys, i, path => diffValue x y (sub path (toString i)) ++ diffElems xs ys (i + 1) path
  | _, _, _, _ => []

/-- The keys of the old object in `computeObjectDiff`. -/
def diffProps : List (String × Value) → List (String × Value) → String → Patch
  | [], _, _ => []
  | (key, oldVal) :: m, new, path =>
    (match Props.get? new key with
      | none => [.remove (sub path key)]
      | some newVal => diffValue oldVal newVal (sub path key)) ++ diffProps m new path
end

/-- `computeObjectDiff`: the old object's keys, then the new ones. -/
def computeObjectDiff (old new : Obj) (basePath : String) : Patch := diffProps old new basePath ++ addedProps old new basePath

/-! ## Where the operations point -/

/-- `path` is `base` or lies below it. -/
def AtOrBelow (base path : String) : Prop := path = base ∨ ∃ t, path = sub base t

variable {base : String}

theorem atOrBelow_sub {key path : String} (h : AtOrBelow (sub base key) path) : ∃ t, path = sub base t := by
  rcases h with rfl | ⟨t, rfl⟩
  · exact ⟨key, rfl⟩
  · refine ⟨key ++ "/" ++ t, ?_⟩
    simp [sub, String.append_assoc]

/-- An operation that points below `base` and moves nothing. -/
def PointsBelow (base : String) (op : PatchOp) : Prop := (∃ t, op.path = sub base t) ∧ ∀ «from» path, op ≠ .move «from» path

/-- An operation that points at or below `base` and moves nothing. -/
def PointsAt (base : String) (op : PatchOp) : Prop := AtOrBelow base op.path ∧ ∀ «from» path, op ≠ .move «from» path

theorem PointsBelow.pointsAt {op : PatchOp} (h : PointsBelow base op) : PointsAt base op := ⟨Or.inr h.1, h.2⟩

theorem pointsBelow_of_sub {key : String} {op : PatchOp} (h : PointsAt (sub base key) op) : PointsBelow base op := ⟨atOrBelow_sub h.1, h.2⟩

theorem pointsAt_diffString (old new path : String) : ∀ op ∈ diffString old new path, PointsAt path op := by
  intro op hop
  unfold diffString at hop
  split at hop <;> try split at hop
  all_goals
    obtain rfl := mem_singleton.mp hop
    exact ⟨Or.inl rfl, by simp⟩

theorem pointsBelow_addedProps (old new : Obj) (path : String) : ∀ op ∈ addedProps old new path, PointsBelow path op := by
  intro op hop
  obtain ⟨p, -, rfl⟩ := mem_map.mp hop
  exact ⟨⟨p.1, rfl⟩, by simp⟩

theorem pointsBelow_resizeOps (oldLen : Nat) (new : List Value) (path : String) :
    ∀ op ∈ resizeOps oldLen new path, PointsBelow path op := by
  intro op hop
  rcases mem_append.mp hop with hop | hop <;>
  · obtain ⟨i, -, rfl⟩ := mem_map.mp hop
    exact ⟨⟨toString i, rfl⟩, by simp⟩

mutual
theorem pointsAt_diffValue (old new : Value) (path : String) : ∀ op ∈ diffValue old new path, PointsAt path op := by
  intro op hop
  have hop_else : ∀ {p : Prop} [Decidable p], op ∈ (if p then [] else [PatchOp.replace path new]) → PointsAt path op := by
    intro p _ hop
    split at hop
    · simp at hop
    · obtain rfl := mem_singleton.mp hop
      exact ⟨Or.inl rfl, by simp⟩
  cases old with
  | str a => cases new with
    | str b =>
      rw [diffValue] at hop
      split at hop
      · simp at hop
      · exact pointsAt_diffString _ _ _ op hop
    | _ => simp only [diffValue] at hop; exact hop_else hop
  | arr xs => cases new with
    | arr ys =>
      rw [diffValue] at hop
      split at hop
      · simp at hop
      · rcases mem_append.mp hop with hop | hop
        · exact (pointsBelow_diffElems xs ys 0 path op hop).pointsAt
        · exact (pointsBelow_resizeOps _ _ _ op hop).pointsAt
    | _ => simp only [diffValue] at hop; exact hop_else hop
  | obj m => cases new with
    | obj m' =>
      rw [diffValue] at hop
      split at hop
      · simp at hop
      · rcases mem_append.mp hop with hop | hop
        · exact (pointsBelow_diffProps m m' path op hop).pointsAt
        · exact (pointsBelow_addedProps _ _ _ op hop).pointsAt
    | _ => simp only [diffValue] at hop; exact hop_else hop
  | _ => simp only [diffValue] at hop; exact hop_else hop

theorem pointsBelow_diffElems (old new : List Value) (i : Nat) (path : String) : ∀ op ∈ diffElems old new i path, PointsBelow path op := by
  intro op hop
  cases old with
  | nil => simp [diffElems] at hop
  | cons x xs => cases new with
    | nil => simp [diffElems] at hop
    | cons y ys =>
      rw [diffElems] at hop
      rcases mem_append.mp hop with hop | hop
      · exact pointsBelow_of_sub (pointsAt_diffValue x y _ op hop)
      · exact pointsBelow_diffElems xs ys _ path op hop

theorem pointsBelow_diffProps (old new : List (String × Value)) (path : String) : ∀ op ∈ diffProps old new path, PointsBelow path op := by
  intro op hop
  cases old with
  | nil => simp [diffProps] at hop
  | cons p m =>
    rw [diffProps] at hop
    rcases mem_append.mp hop with hop | hop
    · split at hop
      · obtain rfl := mem_singleton.mp hop
        exact ⟨⟨p.1, rfl⟩, by simp⟩
      · exact pointsBelow_of_sub (pointsAt_diffValue p.2 _ _ op hop)
    · exact pointsBelow_diffProps m new path op hop
end

/-- **Every operation of an object diff points below the base path.** -/
theorem pointsBelow_computeObjectDiff (old new : Obj) (basePath : String) :
    ∀ op ∈ computeObjectDiff old new basePath, PointsBelow basePath op := by
  intro op hop
  rcases mem_append.mp hop with hop | hop
  · exact pointsBelow_diffProps old new basePath op hop
  · exact pointsBelow_addedProps old new basePath op hop

end PiBridge
