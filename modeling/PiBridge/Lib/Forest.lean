import Mathlib.Data.List.Basic

/-!
# `Lib.Forest` — nodes that hang from one another

`parent` says what a node hangs from. `Under parent pass top x` holds when `x` hangs somewhere below `top` and every
node on the way, neither end included, passes; the way is unique, as a node has one parent.

`walk` goes down a listing of children, entering the nodes that `enter` admits, last listed first. Where the listing
is one of `parent` it stays below its start (`under_of_mem_walk`), and what is listed all the way up it reaches
(`mem_walk`), given a depth that the ranks of the nodes bound.
-/

namespace Lib

variable {α : Type}

/-- `x` hangs below `top`, through nodes that pass. -/
inductive Under (parent : α → Option α) (pass : α → Prop) (top : α) : α → Prop where
  | child {x : α} : parent x = some top → Under parent pass top x
  | step {x y : α} : parent x = some y → pass y → Under parent pass top y → Under parent pass top x

namespace Under

variable {parent parent' : α → Option α} {pass pass' : α → Prop} {rank : α → Nat} {top mid a b x y : α}

theorem mono (hpass : ∀ y, pass y → pass' y) (h : Under parent pass top x) : Under parent pass' top x := by
  induction h with
  | child h => exact .child h
  | step h hy _ ih => exact .step h (hpass _ hy) ih

/-- What hangs below a node that passes hangs below everything that node hangs below. -/
theorem trans (h : Under parent pass top mid) (hmid : pass mid) (h' : Under parent pass mid x) : Under parent pass top x := by
  induction h' with
  | child hx => exact .step hx hmid h
  | step hx hy _ ih => exact .step hx hy ih

/-- What a node hangs below, its parent does or is. -/
theorem of_parent (h : Under parent pass top x) (hx : parent x = some y) : y = top ∨ pass y ∧ Under parent pass top y := by
  cases h with
  | child h => exact .inl (Option.some.inj (hx.symm.trans h))
  | step h hy h' =>
    cases hx.symm.trans h
    exact .inr ⟨hy, h'⟩

/-- Of two nodes above a third, one is above the other. -/
theorem compare (h : Under parent pass a x) (h' : Under parent pass' b x) :
    a = b ∨ (pass b ∧ Under parent pass a b) ∨ (pass' a ∧ Under parent pass' b a) := by
  induction h with
  | child hx =>
    obtain rfl | ⟨ha, hb⟩ := h'.of_parent hx
    · exact .inl rfl
    · exact .inr (.inr ⟨ha, hb⟩)
  | @step x y hx hy hup ih =>
    obtain rfl | ⟨_, hb⟩ := h'.of_parent hx
    · exact .inr (.inl ⟨hy, hup⟩)
    · exact ih hb

/-- **The nearest.** Below a node that stops there is, on the way to `x`, a last one that does. -/
theorem nearest (stop : α → Prop) (h : Under parent pass top x) (htop : stop top) :
    ∃ a, stop a ∧ (a = top ∨ pass a ∧ Under parent pass top a) ∧ Under parent (fun y => pass y ∧ ¬stop y) a x := by
  induction h with
  | child h => exact ⟨top, htop, .inl rfl, .child h⟩
  | @step x y h hy hup ih =>
    by_cases hstop : stop y
    · exact ⟨y, hstop, .inr ⟨hy, hup⟩, .child h⟩
    · obtain ⟨a, ha, hat, hnear⟩ := ih
      exact ⟨a, ha, hat, .step h ⟨hy, hstop⟩ hnear⟩

end Under

/-- The nodes a walk down expands, in order: the start, and what each child entered leads to. -/
def walk (children : α → List α) (enter : α → Bool) : Nat → α → List α
  | 0, _ => []
  | depth + 1, start => start :: ((children start).filter enter).reverse.flatMap (walk children enter depth)

section Walk

variable {children : α → List α} {enter : α → Bool} {parent : α → Option α} {rank : α → Nat} {depth : Nat} {start x y : α}

theorem mem_walk_succ : y ∈ walk children enter (depth + 1) start ↔
    y = start ∨ ∃ c ∈ children start, enter c = true ∧ y ∈ walk children enter depth c := by
  simp only [walk, List.mem_cons, List.mem_flatMap, List.mem_reverse, List.mem_filter, and_assoc]

theorem under_of_mem_walk (hlist : ∀ p c, c ∈ children p → parent c = some p) (h : y ∈ walk children enter depth start) :
    y = start ∨ enter y = true ∧ Under parent (fun z => enter z = true) start y := by
  induction depth generalizing start with
  | zero => cases h
  | succ depth ih =>
    obtain rfl | ⟨c, hc, henter, hy⟩ := mem_walk_succ.1 h
    · exact .inl rfl
    · have hch : Under parent (fun z => enter z = true) start c := .child (hlist _ _ hc)
      obtain rfl | ⟨hin, hunder⟩ := ih hy
      · exact .inr ⟨henter, hch⟩
      · exact .inr ⟨hin, hch.trans henter hunder⟩

/-- A walk deep enough goes on to the children of what it expands. -/
theorem mem_walk_child (hrank : ∀ p c, c ∈ children p → rank p < rank c) (h : y ∈ walk children enter depth start)
    (hx : x ∈ children y) (henter : enter x = true) (hdepth : rank x < rank start + depth) :
    x ∈ walk children enter depth start := by
  induction depth generalizing start with
  | zero => cases h
  | succ depth ih =>
    rw [mem_walk_succ] at h ⊢
    right
    obtain rfl | ⟨c, hc, hin, hy⟩ := h
    · -- The child is the start of a walk of its own, which is not empty: the ranks leave room for one node more.
      refine ⟨x, hx, henter, ?_⟩
      have hlt := hrank _ _ hx
      obtain ⟨room, rfl⟩ : ∃ room, depth = room + 1 := ⟨depth - 1, by omega⟩
      exact mem_walk_succ.2 (.inl rfl)
    · have hlt := hrank _ _ hc
      exact ⟨c, hc, hin, ih hy (by omega)⟩

/-- **A walk reaches** what hangs below its start, where each node on the way is entered and listed by its parent. -/
theorem mem_walk (hrank : ∀ p c, c ∈ children p → rank p < rank c)
    (hlist : ∀ z p, (z = x ∨ Under parent (fun _ => True) z x) → parent z = some p → z ∈ children p)
    (h : Under parent (fun z => enter z = true) start x) (henter : enter x = true) (hdepth : rank x < rank start + depth) :
    x ∈ walk children enter depth start := by
  induction h with
  | child hx =>
    have hin := hlist _ _ (.inl rfl) hx
    have hlt := hrank _ _ hin
    obtain ⟨room, rfl⟩ : ∃ room, depth = room + 1 := ⟨depth - 1, by omega⟩
    exact mem_walk_child hrank (mem_walk_succ.2 (.inl rfl)) hin henter hdepth
  | @step x y hx hy hup ih =>
    have hin := hlist _ _ (.inl rfl) hx
    have hlt := hrank _ _ hin
    refine mem_walk_child hrank (ih ?_ hy (by omega)) hin henter hdepth
    intro z p hz hp
    refine hlist z p (.inr ?_) hp
    obtain rfl | hz := hz
    · exact .child hx
    · exact .step hx trivial hz

end Walk

end Lib
