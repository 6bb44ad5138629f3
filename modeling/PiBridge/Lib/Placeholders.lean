import Mathlib.Data.List.Basic

/-!
# `Lib.Placeholders` — statements rendered with parameters

A piece of a statement is rendered while its parameters are pushed to a list, and evaluated taking the next parameter
at each placeholder. A piece `Means` a value when it takes just what was pushed with it, whatever stands around; the
rules are those of the ways to put pieces together, in the order of the text.
-/

namespace Lib

open List

variable {π γ δ ε ζ α β κ ν : Type}

/-- Pushes the parameters of a piece. -/
abbrev Render (π γ : Type) := StateM (List π) γ

/-- Takes the parameters of a piece; it fails where there are none left. -/
abbrev Taking (π α : Type) := StateT (List π) Option α

/-- A parameter for the next placeholder. -/
def push (p : π) : Render π PUnit := fun ps => (⟨⟩, ps ++ [p])

/-- The parameter of a placeholder. -/
def takeParam : Taking π π
  | [] => none
  | p :: ps => some (p, ps)

@[simp] theorem takeParam_cons (p : π) (ps : List π) : takeParam (p :: ps) = some (p, ps) := rfl

/-- What is rendered has the value, with the parameters pushed with it. -/
def Means (render : Render π γ) (eval : γ → Taking π α) (value : α) : Prop :=
  ∃ piece pushed, (∀ ps, render ps = (piece, ps ++ pushed)) ∧ ∀ rest, eval piece (pushed ++ rest) = some (value, rest)

namespace Means

variable {render : Render π γ} {render' : Render π δ} {render'' : Render π ε}
  {eval : γ → Taking π α} {eval' : δ → Taking π β} {eval'' : ε → Taking π κ} {a : α} {b : β} {c : κ}

theorem pure {pc : γ} (h : ∀ ps, eval pc ps = some (a, ps)) : Means (Pure.pure pc) eval a :=
  ⟨pc, [], fun ps => congrArg (pc, ·) (append_nil ps).symm, fun rest => h rest⟩

variable {evalTo : ζ → Taking π ν}

theorem map {f : γ → ζ} {g : α → ν} (h : Means render eval a) (heval : ∀ pc, evalTo (f pc) = do return g (← eval pc)) :
    Means (do return f (← render)) evalTo (g a) := by
  obtain ⟨pc, psh, hrender, htakes⟩ := h
  refine ⟨f pc, psh, fun ps => ?_, fun rest => ?_⟩
  · show (f (render ps).1, (render ps).2) = _
    rw [hrender]
  · rw [heval]
    show (eval pc (psh ++ rest)).bind _ = _
    rw [htakes]
    rfl

theorem map₂ {f : γ → δ → ζ} {g : α → β → ν} (h : Means render eval a) (h' : Means render' eval' b)
    (heval : ∀ pc pc', evalTo (f pc pc') = do return g (← eval pc) (← eval' pc')) :
    Means (do return f (← render) (← render')) evalTo (g a b) := by
  obtain ⟨pc, psh, hrender, htakes⟩ := h
  obtain ⟨pc', psh', hrender', htakes'⟩ := h'
  refine ⟨f pc pc', psh ++ psh', fun ps => ?_, fun rest => ?_⟩
  · show (f (render ps).1 (render' (render ps).2).1, (render' (render ps).2).2) = _
    rw [hrender, hrender', append_assoc]
  · rw [heval]
    show (eval pc (psh ++ psh' ++ rest)).bind _ = _
    rw [append_assoc, htakes]
    show (eval' pc' (psh' ++ rest)).bind _ = _
    rw [htakes']
    rfl

theorem map₃ {f : γ → δ → ε → ζ} {g : α → β → κ → ν} (h : Means render eval a)
    (h' : Means render' eval' b) (h'' : Means render'' eval'' c) (heval : ∀ pc pc' pc'',
      evalTo (f pc pc' pc'') = do return g (← eval pc) (← eval' pc') (← eval'' pc'')) :
    Means (do return f (← render) (← render') (← render'')) evalTo (g a b c) := by
  obtain ⟨pc, psh, hrender, htakes⟩ := h
  obtain ⟨pc', psh', hrender', htakes'⟩ := h'
  obtain ⟨pc'', psh'', hrender'', htakes''⟩ := h''
  refine ⟨f pc pc' pc'', psh ++ psh' ++ psh'', fun ps => ?_, fun rest => ?_⟩
  · show (f (render ps).1 (render' (render ps).2).1 (render'' (render' (render ps).2).2).1, (render'' (render' (render ps).2).2).2) = _
    rw [hrender, hrender', hrender'', append_assoc, append_assoc, append_assoc]
  · rw [heval]
    show (eval pc (psh ++ psh' ++ psh'' ++ rest)).bind _ = _
    rw [append_assoc, append_assoc, htakes]
    show (eval' pc' (psh' ++ (psh'' ++ rest))).bind _ = _
    rw [htakes']
    show (eval'' pc'' (psh'' ++ rest)).bind _ = _
    rw [htakes'']
    rfl

end Means

end Lib
