import Mathlib.Logic.Function.Basic

/-!
# `Lib.Memo` — results kept over an acyclic graph

A cell computes its result from sources and from cells before it, left to right up to the first failure. A table
keeps some results; it is `Sound` when each of them follows from what it keeps of the cell's inputs. Then every
result it keeps is the cell's value (`Sound.eval`). A result may be stored when its inputs are there
(`Sound.store`), and results may be forgotten when those computed from them are forgotten too (`Sound.forget`).
-/

namespace Lib.Memo

open Option Function

/-- What a cell reads. -/
inductive Input where
  | source (s : Nat)
  | cell (d : Nat)
deriving DecidableEq

/-- The inputs and the function of each cell, over the types of source values, results and errors. -/
structure Graph (X V ε : Type) where
  inputs : Nat → List Input
  compute : Nat → List (X ⊕ V) → Except ε V
  earlier : ∀ d e, .cell e ∈ inputs d → e < d

variable {X V ε : Type}

/-- The results that are kept. -/
abbrev Table (V ε : Type) := Nat → Option (Except ε V)

/-- The arguments of a cell as the table has them, up to the first failure. -/
def peek (sources : Nat → X) (known : Table V ε) : List Input → Option (Except ε (List (X ⊕ V)))
  | [] => some (.ok [])
  | .source s :: rest => (peek sources known rest).map fun args => args.map (.inl (sources s) :: ·)
  | .cell d :: rest =>
    match known d with
    | none => none
    | some (.error e) => some (.error e)
    | some (.ok v) => (peek sources known rest).map fun args => args.map (.inr v :: ·)

/-- The result of a cell whose arguments are known. -/
def result (g : Graph X V ε) (d : Nat) (args : Except ε (List (X ⊕ V))) : Except ε V := args.bind (g.compute d)

/-- The values of the cells before `n`. -/
def evalBelow (g : Graph X V ε) (sources : Nat → X) : Nat → Table V ε
  | 0 => fun _ => none
  | n + 1 => Function.update (evalBelow g sources n) n ((peek sources (evalBelow g sources n) (g.inputs n)).map (result g n))

/-- The value of a cell, of the sources' values. -/
def eval (g : Graph X V ε) (sources : Nat → X) (d : Nat) : Option (Except ε V) := evalBelow g sources (d + 1) d

/-- Each result follows from what is kept of the cell's inputs. -/
def Sound (g : Graph X V ε) (sources : Nat → X) (known : Table V ε) : Prop :=
  ∀ d r, known d = some r → (peek sources known (g.inputs d)).map (result g d) = some r

variable {g : Graph X V ε} {sources sources' : Nat → X} {known known' : Table V ε}

/-- The arguments depend on the inputs' results only. -/
theorem peek_mono {inputs : List Input} {args : Except ε (List (X ⊕ V))}
    (hsources : ∀ s, .source s ∈ inputs → sources' s = sources s)
    (hcell : ∀ d r, .cell d ∈ inputs → known d = some r → known' d = some r)
    (h : peek sources known inputs = some args) : peek sources' known' inputs = some args := by
  induction inputs generalizing args with
  | nil => exact h
  | cons inp rest ih =>
    have hrest : ∀ {args}, peek sources known rest = some args → peek sources' known' rest = some args :=
      ih (fun s hs => hsources s (List.mem_cons_of_mem _ hs)) (fun d r hd => hcell d r (List.mem_cons_of_mem _ hd))
    cases inp with
    | source s =>
      obtain ⟨args', hargs, rfl⟩ := map_eq_some_iff.mp h
      rw [peek, hsources s List.mem_cons_self, hrest hargs]
      rfl
    | cell d =>
      rw [peek] at h ⊢
      cases hd : known d with
      | none =>
        rw [hd] at h
        cases h
      | some r =>
        rw [hd] at h
        rw [hcell d r List.mem_cons_self hd]
        cases r with
        | error e => exact h
        | ok v =>
          obtain ⟨args', hargs, rfl⟩ := map_eq_some_iff.mp h
          dsimp only
          rw [hrest hargs]
          rfl

variable {d : Nat}

theorem evalBelow_of_lt {n : Nat} (h : d < n) : evalBelow g sources n d = eval g sources d := by
  induction n with
  | zero => exact absurd h (Nat.not_lt_zero d)
  | succ n ih =>
    rcases Nat.lt_succ_iff_lt_or_eq.mp h with hlt | rfl
    · rw [evalBelow, update_of_ne (Nat.ne_of_lt hlt), ih hlt]
    · rfl

theorem eval_eq (g : Graph X V ε) (sources : Nat → X) (d : Nat) :
    eval g sources d = (peek sources (evalBelow g sources d) (g.inputs d)).map (result g d) := by
  rw [eval, evalBelow, update_self]

/-- **What is kept is what is computed.** -/
theorem Sound.eval (h : Sound g sources known) {r : Except ε V} (hd : known d = some r) : eval g sources d = some r := by
  induction d using Nat.strongRecOn generalizing r with
  | ind d ih =>
    obtain ⟨args, hargs, hr⟩ := map_eq_some_iff.mp (h d r hd)
    have hpeek : peek sources (evalBelow g sources d) (g.inputs d) = some args := by
      refine peek_mono (fun _ _ => rfl) (fun e r' he hr' => ?_) hargs
      have hlt := g.earlier d e he
      rw [evalBelow_of_lt hlt]
      exact ih e hlt hr'
    rw [eval_eq, hpeek, map_some, hr]

/-- A result whose inputs are there may be stored. -/
theorem Sound.store (h : Sound g sources known) {args : Except ε (List (X ⊕ V))} (hnone : known d = none)
    (hargs : peek sources known (g.inputs d) = some args) : Sound g sources (Function.update known d (some (result g d args))) := by
  have hkeep : ∀ e r, known e = some r → update known d (some (result g d args)) e = some r := by
    intro e r he
    have hne : e ≠ d := by
      rintro rfl
      rw [hnone] at he
      cases he
    rw [update_of_ne hne, he]
  intro e r he
  by_cases hed : e = d
  · subst hed
    rw [update_self] at he
    rw [peek_mono (fun _ _ => rfl) (fun e' r' _ => hkeep e' r') hargs, map_some]
    exact he
  · rw [update_of_ne hed] at he
    obtain ⟨args', hargs', hr⟩ := map_eq_some_iff.mp (h e r he)
    rw [peek_mono (fun _ _ => rfl) (fun e' r' _ => hkeep e' r') hargs', map_some, hr]

/-- **Results may be forgotten** when those computed from them, or from a source that changed, are forgotten too. -/
theorem Sound.forget (h : Sound g sources known) (hsub : ∀ d r, known' d = some r → known d = some r)
    (hcell : ∀ d e r, known' d ≠ none → .cell e ∈ g.inputs d → known e = some r → known' e = some r)
    (hsources : ∀ d s, known' d ≠ none → .source s ∈ g.inputs d → sources' s = sources s) :
    Sound g sources' known' := by
  intro d r hd
  have hne : known' d ≠ none := by
    rw [hd]
    exact some_ne_none r
  obtain ⟨args, hargs, hr⟩ := map_eq_some_iff.mp (h d r (hsub d r hd))
  rw [peek_mono (fun s hs => hsources d s hne hs) (fun e r' he => hcell d e r' hne he) hargs, map_some, hr]

end Lib.Memo
