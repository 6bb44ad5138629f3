import Mathlib.Data.List.Count
import Mathlib.Data.List.Perm.Basic

/-!
# `Lib.Heap` — trees in a heap, changed in place or copied on write

A heap is the list of its cells. A cell holds values, and a value is an atom or a reference to a cell:
`Holds` says which tree a value stands for, and which cells it is made of. Two values may share cells, and one
tree may hold a cell twice.

A program may change a cell only if the cell is its own (`O`) and the tree holds it once (`Unique`). What lies
below a cell that is not its own is not its own either (`closed`), so such parts stay as they are. `Change` is
what a program did to one tree: the tree, and cells of its own. Changes compose (`Change.trans`), and a change
to a part is a change to the whole (`Change.lift`): that is how a change at the end of a path reaches the root.
-/

namespace Lib

open List Option

/-- Containers of values: what they hold, and the parts that segments name. -/
class Container (F : Type → Type) (σ : outParam Type) [Functor F] where
  elems {α : Type} : F α → List α
  child? {α : Type} : F α → σ → Option α
  put {α : Type} : F α → σ → α → F α
  elems_map {α β : Type} (f : α → β) (n : F α) : elems (f <$> n) = (elems n).map f
  child?_map {α β : Type} (f : α → β) (n : F α) (s : σ) : child? (f <$> n) s = (child? n s).map f
  put_map {α β : Type} (f : α → β) (n : F α) (s : σ) (a : α) : put (f <$> n) s (f a) = f <$> put n s a
  child?_put {α : Type} {n : F α} {s : σ} {a : α} (b : α) : child? n s = some a → child? (put n s b) s = some b
  put_child {α : Type} {n : F α} {s : σ} {a : α} : child? n s = some a → put n s a = n
  elems_put {α : Type} {n : F α} {s : σ} {a : α} : child? n s = some a →
    ∃ rest, (elems n).Perm (a :: rest) ∧ ∀ b, (elems (put n s b)).Perm (b :: rest)

/-- Trees of containers, with atoms at the leaves. -/
class Trees (F : Type → Type) (P T : outParam Type) where
  atom : P → T
  node : F T → T

namespace Heap

export Container (elems child? put)

/-- What a variable or a cell holds. -/
inductive Val (P : Type) where
  | atom (a : P)
  | ref (r : Nat)

/-- A part of a cell: its value, the tree it stands for, and the cells of that tree. -/
structure Kid (P T : Type) where
  val : Val P
  tree : T
  refs : List Nat

variable {F : Type → Type} {σ P T : Type} [Functor F] [Container F σ] [Trees F P T]

omit [Trees F P T] in
theorem mem_elems_of_child? {α : Type} {n : F α} {s : σ} {a : α} (h : child? n s = some a) : a ∈ elems n := by
  obtain ⟨_, hperm, -⟩ := Container.elems_put h
  exact hperm.symm.subset mem_cons_self

/-- The cells below a cell. -/
def refsOf (n : F (Kid P T)) : List Nat := (elems n).flatMap Kid.refs

/-- The value stands for the tree, which is made of the cells `refs`; nothing below a cell that is not in `O` is
    in `O`. -/
inductive Holds (O : Nat → Prop) (heap : List (F (Val P))) : Val P → T → List Nat → Prop
  | atom (a : P) : Holds O heap (.atom a) (Trees.atom F a) []
  | node (r : Nat) (n : F (Kid P T)) (cell : heap[r]? = some (Kid.val <$> n))
      (closed : ¬O r → ∀ x ∈ refsOf n, ¬O x) (kids : ∀ k ∈ elems n, Holds O heap k.val k.tree k.refs) :
      Holds O heap (.ref r) (Trees.node (Kid.tree <$> n)) (r :: refsOf n)

/-- No cell of the program's own occurs twice. -/
def Unique (O : Nat → Prop) (refs : List Nat) : Prop := ∀ r, O r → refs.count r ≤ 1

section Holds

variable {O O' : Nat → Prop} {heap heap' : List (F (Val P))} {v : Val P} {t : T} {refs : List Nat}

omit [Trees F P T] in
theorem mem_refsOf {n : F (Kid P T)} {r : Nat} : r ∈ refsOf n ↔ ∃ k ∈ elems n, r ∈ k.refs := mem_flatMap

/-- The cells of a tree are in the heap. -/
theorem Holds.lt_length (h : Holds O heap v t refs) : ∀ r ∈ refs, r < heap.length := by
  induction h with
  | atom a => simp
  | node r n cell closed kids ih =>
    intro x hx
    rcases mem_cons.mp hx with rfl | hx
    · exact (List.getElem?_eq_some_iff.mp cell).1
    · obtain ⟨k, hk, hxk⟩ := mem_refsOf.1 hx
      exact ih k hk x hxk

/-- **Frame rule.** A tree depends only on its cells, and on which of them are the program's own. -/
theorem Holds.frame (h : Holds O heap v t refs) (hcell : ∀ r ∈ refs, heap'[r]? = heap[r]?)
    (hown : ∀ r ∈ refs, (O' r ↔ O r)) : Holds O' heap' v t refs := by
  induction h with
  | atom a => exact Holds.atom a
  | node r n cell closed kids ih =>
    have hbel : ∀ k ∈ elems n, ∀ x ∈ k.refs, x ∈ r :: refsOf n := fun k hk x hx => mem_cons_of_mem _ (mem_refsOf.2 ⟨k, hk, hx⟩)
    refine Holds.node r n ((hcell r mem_cons_self).trans cell) ?_ ?_
    · intro hr x hx hOx
      have hxmem : x ∈ r :: refsOf n := mem_cons_of_mem _ hx
      exact closed (fun hO => hr ((hown r mem_cons_self).mpr hO)) x hx ((hown x hxmem).mp hOx)
    · intro k hk
      exact ih k hk (fun x hx => hcell x (hbel k hk x hx)) (fun x hx => hown x (hbel k hk x hx))

/-- New cells at the end of the heap change nothing. -/
theorem Holds.append (h : Holds O heap v t refs) (cells : List (F (Val P))) : Holds O (heap ++ cells) v t refs :=
  h.frame (fun r hr => getElem?_append_left (h.lt_length r hr)) fun _ _ => Iff.rfl

/-- The value of a tree with a cell at its root. -/
theorem Holds.node_inv {r : Nat} (h : Holds O heap (.ref r) t refs) :
    ∃ n : F (Kid P T), heap[r]? = some (Kid.val <$> n) ∧ t = Trees.node (Kid.tree <$> n) ∧ refs = r :: refsOf n ∧
      (¬O r → ∀ x ∈ refsOf n, ¬O x) ∧ ∀ k ∈ elems n, Holds O heap k.val k.tree k.refs := by
  cases h with
  | node _ n cell closed kids => exact ⟨n, cell, rfl, rfl, closed, kids⟩

end Holds

/-! ## Changes -/

/-- What a program did to a tree made of the cells `refs`: the value `v` now stands for `t'`. Of the cells `K` that
    were known before only those of the tree that are the program's own may have changed, and these are in the tree
    no more often than they were. -/
structure Change (K O O' : Nat → Prop) (heap heap' : List (F (Val P))) (refs : List Nat) (v : Val P) (t' : T)
    (refs' : List Nat) : Prop where
  holds : Holds O' heap' v t' refs'
  unique : Unique O' refs'
  keeps : ∀ r, K r → ¬O r ∨ r ∉ refs → heap'[r]? = heap[r]?
  owns : ∀ r, K r → (O' r ↔ O r)
  count : ∀ r, K r → O r → refs'.count r ≤ refs.count r

section Change

variable {K K₁ O O₁ O₂ : Nat → Prop} {heap heap₁ heap₂ : List (F (Val P))} {v v₁ v₂ : Val P} {t t₁ t₂ : T}
  {refs refs₁ refs₂ : List Nat}

theorem Change.refl (h : Holds O heap v t refs) (hu : Unique O refs) : Change K O O heap heap refs v t refs where
  holds := h
  unique := hu
  keeps _ _ _ := rfl
  owns _ _ := Iff.rfl
  count _ _ _ := Nat.le_refl _

/-- A cell of the program's own that is in the tree afterwards was in it before. -/
theorem Change.mem (h : Change K O O₁ heap heap₁ refs v t refs₁) {r : Nat} (hr : K r) (hO : O r) (hmem : r ∈ refs₁) : r ∈ refs := by
  have := h.count r hr hO
  have := count_pos_iff.mpr hmem
  exact count_pos_iff.mp (by omega)

theorem Change.trans (h : Change K O O₁ heap heap₁ refs v₁ t₁ refs₁) (h' : Change K₁ O₁ O₂ heap₁ heap₂ refs₁ v₂ t₂ refs₂)
    (hK : ∀ r, K r → K₁ r) : Change K O O₂ heap heap₂ refs v₂ t₂ refs₂ where
  holds := h'.holds
  unique := h'.unique
  keeps r hr hout := by
    have hout' : ¬O₁ r ∨ r ∉ refs₁ := by
      by_cases hO : O r
      · exact Or.inr fun hmem => hout.elim (fun hnot => hnot hO) (fun hnot => hnot (h.mem hr hO hmem))
      · exact Or.inl fun hO₁ => hO ((h.owns r hr).mp hO₁)
    rw [h'.keeps r (hK r hr) hout', h.keeps r hr hout]
  owns r hr := (h'.owns r (hK r hr)).trans (h.owns r hr)
  count r hr hO := Nat.le_trans (h'.count r (hK r hr) ((h.owns r hr).mpr hO)) (h.count r hr hO)

variable {d : Nat} {n : F (Kid P T)} {s : σ} {k : Kid P T}

omit [Trees F P T] in
/-- The cells of a container, with one of its parts apart from the others. -/
theorem count_refsOf_put (hk : child? n s = some k) : ∃ rest : List (Kid P T), (∀ k' ∈ rest, k' ∈ elems n) ∧
      (∀ r, (refsOf n).count r = k.refs.count r + (rest.flatMap Kid.refs).count r) ∧
      ∀ k' : Kid P T, (∀ r, (refsOf (put n s k')).count r = k'.refs.count r + (rest.flatMap Kid.refs).count r) ∧
        ∀ k₂ ∈ elems (put n s k'), k₂ = k' ∨ k₂ ∈ rest := by
  obtain ⟨rest, hperm, hput⟩ := Container.elems_put hk
  refine ⟨rest, fun k' hk' => hperm.symm.subset (mem_cons_of_mem _ hk'), fun r => ?_, fun k' => ⟨fun r => ?_, ?_⟩⟩
  · rw [refsOf, (hperm.flatMap_right Kid.refs).count_eq, flatMap_cons, count_append]
  · rw [refsOf, ((hput k').flatMap_right Kid.refs).count_eq, flatMap_cons, count_append]
  · intro k₂ hk₂
    exact mem_cons.mp ((hput k').subset hk₂)

omit [Trees F P T] in
theorem Unique.kid (hu : Unique O (d :: refsOf n)) (hk : child? n s = some k) : Unique O k.refs := by
  intro r hr
  obtain ⟨rest, -, hcnt, -⟩ := count_refsOf_put hk
  have := hu r hr
  rw [count_cons, hcnt] at this
  omega

omit [Trees F P T] in
/-- A part with the same value leaves the cell as it is. -/
theorem val_put (hk : child? n s = some k) (t' : T) (refs' : List Nat) : Kid.val <$> put n s ⟨k.val, t', refs'⟩ = Kid.val <$> n := by
  rw [← Container.put_map]
  refine Container.put_child ?_
  rw [Container.child?_map, hk]
  rfl

omit [Trees F P T] in
/-- A cell of the program's own is not below itself. -/
theorem not_mem_kid (hd : O d) (hu : Unique O (d :: refsOf n)) (hk : k ∈ elems n) : d ∉ k.refs := by
  intro hmem
  have hone := hu d hd
  have := count_pos_iff.mpr (mem_refsOf.2 ⟨k, hk, hmem⟩)
  rw [count_cons_self] at hone
  omega

/-- **A change to a part is a change to the whole**, if the whole is the program's own. -/
theorem Change.lift (hd : O d) (hu : Unique O (d :: refsOf n)) (hK : ∀ r ∈ d :: refsOf n, K r)
    (hcell : heap[d]? = some (Kid.val <$> n)) (hkids : ∀ k ∈ elems n, Holds O heap k.val k.tree k.refs)
    (hk : child? n s = some k) (h : Change K O O₁ heap heap₁ k.refs k.val t₁ refs₁) :
    Change K O O₁ heap heap₁ (d :: refsOf n) (.ref d) (Trees.node (Kid.tree <$> put n s ⟨k.val, t₁, refs₁⟩))
      (d :: refsOf (put n s ⟨k.val, t₁, refs₁⟩)) := by
  obtain ⟨rest, hrest, hcnt, hput⟩ := count_refsOf_put hk
  obtain ⟨hcnt₁, helems⟩ := hput ⟨k.val, t₁, refs₁⟩
  dsimp only at hcnt₁
  have hdK : K d := hK d mem_cons_self
  have hone : ∀ r, O r → (if d = r then 1 else 0) + (k.refs.count r + (rest.flatMap Kid.refs).count r) ≤ 1 := by
    intro r hr
    have := hu r hr
    rw [count_cons, hcnt] at this
    simp only [beq_iff_eq] at this
    omega
  have hdk : d ∉ k.refs := not_mem_kid hd hu (mem_elems_of_child? hk)
  have hrestK : ∀ r ∈ rest.flatMap Kid.refs, K r := by
    intro r hr
    obtain ⟨k', hk', hrk'⟩ := mem_flatMap.mp hr
    exact hK r (mem_cons_of_mem _ (mem_refsOf.2 ⟨k', hrest k' hk', hrk'⟩))
  -- an owned cell of a sibling is not a cell of the part
  have hapart : ∀ r ∈ rest.flatMap Kid.refs, ¬O r ∨ r ∉ k.refs := by
    intro r hr
    by_cases hO : O r
    · refine Or.inr fun hmem => ?_
      have := hone r hO
      have := count_pos_iff.mpr hmem
      have := count_pos_iff.mpr hr
      omega
    · exact Or.inl hO
  constructor
  case holds =>
    refine Holds.node d _ ?_ (fun hnot => absurd ((h.owns d hdK).mpr hd) hnot) fun k' hk' => ?_
    · rw [h.keeps d hdK (Or.inr hdk), hcell, val_put hk]
    · rcases helems k' hk' with rfl | hk'
      · exact h.holds
      · have hmem : ∀ x ∈ k'.refs, x ∈ rest.flatMap Kid.refs := fun x hx => mem_flatMap.mpr ⟨k', hk', hx⟩
        exact (hkids k' (hrest k' hk')).frame (fun x hx => h.keeps x (hrestK x (hmem x hx)) (hapart x (hmem x hx)))
          fun x hx => h.owns x (hrestK x (hmem x hx))
  case unique =>
    intro r hr
    rw [count_cons, hcnt₁]
    simp only [beq_iff_eq]
    by_cases hrK : K r
    · have hO := (h.owns r hrK).mp hr
      have := hone r hO
      have := h.count r hrK hO
      omega
    · -- a new cell is in the part only
      have hrest0 : (rest.flatMap Kid.refs).count r = 0 := count_eq_zero.mpr fun hmem => hrK (hrestK r hmem)
      have hne : d ≠ r := fun heq => hrK (heq ▸ hdK)
      have := h.unique r hr
      rw [hrest0, if_neg hne]
      omega
  case keeps =>
    intro r hr hout
    refine h.keeps r hr (hout.imp_right fun hnot hmem => hnot (mem_cons_of_mem _ ?_))
    exact mem_refsOf.2 ⟨k, mem_elems_of_child? hk, hmem⟩
  case owns => exact h.owns
  case count =>
    intro r hr hO
    have := h.count r hr hO
    rw [count_cons, count_cons, hcnt, hcnt₁]
    omega

/-- **A cell of the program's own is written.** Its new parts are in the heap, in cells that were there below it
    or in new ones. -/
theorem Change.write {cells : List (F (Val P))} {n' : F (Kid P T)} (hd : O d) (hu : Unique O (d :: refsOf n))
    (hdK : K d) (hKlen : ∀ r, K r → r < heap.length) (howns : ∀ r, K r → (O₁ r ↔ O r))
    (hkids : ∀ k ∈ elems n', Holds O₁ (heap ++ cells) k.val k.tree k.refs)
    (hcnt : ∀ r, K r → O r → (refsOf n').count r ≤ (refsOf n).count r)
    (hnew : ∀ r, ¬K r → O₁ r → (refsOf n').count r ≤ 1) :
    Change K O O₁ heap ((heap ++ cells).set d (Kid.val <$> n')) (d :: refsOf n) (.ref d)
      (Trees.node (Kid.tree <$> n')) (d :: refsOf n') := by
  have hdn' : d ∉ refsOf n' := by
    intro hmem
    have hone := hu d hd
    have hle := hcnt d hdK hd
    have := count_pos_iff.mpr hmem
    rw [count_cons_self] at hone
    omega
  have hcell : ∀ r, r ≠ d → ((heap ++ cells).set d (Kid.val <$> n'))[r]? = (heap ++ cells)[r]? := by
    intro r hr
    rw [getElem?_set_ne hr.symm]
  constructor
  case holds =>
    refine Holds.node d n' ?_ (fun hnot => absurd ((howns d hdK).mpr hd) hnot) fun k hk => ?_
    · have := hKlen d hdK
      rw [getElem?_set_self (by rw [length_append]; omega)]
    · refine (hkids k hk).frame (fun r hr => hcell r ?_) fun _ _ => Iff.rfl
      rintro rfl
      exact hdn' (mem_refsOf.2 ⟨k, hk, hr⟩)
  case unique =>
    intro r hr
    by_cases hrK : K r
    · have hO := (howns r hrK).mp hr
      have hone := hu r hO
      have hle := hcnt r hrK hO
      rw [count_cons] at hone ⊢
      omega
    · have hne : d ≠ r := fun heq => hrK (heq ▸ hdK)
      rw [count_cons_of_ne hne]
      exact hnew r hrK hr
  case keeps =>
    intro r hr hout
    have hne : r ≠ d := by
      rintro rfl
      exact hout.elim (fun hnot => hnot hd) (fun hnot => hnot mem_cons_self)
    rw [hcell r hne, getElem?_append_left (hKlen r hr)]
  case owns => exact howns
  case count =>
    intro r hr hO
    have := hcnt r hr hO
    rw [count_cons, count_cons]
    omega

/-- A cell is copied to the end of the heap, and the copy is the program's own. -/
theorem Holds.copy {r : Nat} {c : F (Val P)} (h : Holds O heap (.ref r) t refs) (hr : ¬O r)
    (hcell : heap[r]? = some c) (hO₁ : ∀ x, O₁ x ↔ x = heap.length ∨ O x) (hKlen : ∀ x, K x → x < heap.length) :
    ∃ refs', Change K O O₁ heap (heap ++ [c]) refs (.ref heap.length) t refs' := by
  obtain ⟨n, hcell', rfl, rfl, closed, kids⟩ := h.node_inv
  obtain rfl : Kid.val <$> n = c := some.inj (hcell'.symm.trans hcell)
  have hbel : ∀ x ∈ refsOf n, x < heap.length := fun x hx => h.lt_length x (mem_cons_of_mem _ hx)
  have howns : ∀ x < heap.length, (O₁ x ↔ O x) := by
    intro x hx
    rw [hO₁, or_iff_right]
    rintro rfl
    exact absurd hx (Nat.lt_irrefl _)
  have hforn : ∀ x, O₁ x → (refsOf n).count x = 0 := by
    intro x hx
    refine count_eq_zero.mpr fun hmem => ?_
    exact closed hr x hmem ((howns x (hbel x hmem)).mp hx)
  refine ⟨heap.length :: refsOf n, ?_⟩
  constructor
  case holds =>
    refine Holds.node heap.length n (by simp) (fun hnot => absurd ((hO₁ _).mpr (Or.inl rfl)) hnot) fun k hk => ?_
    refine (kids k hk).frame (fun x hx => ?_) fun x hx => ?_
    · exact getElem?_append_left (hbel x (mem_refsOf.2 ⟨k, hk, hx⟩))
    · exact howns x (hbel x (mem_refsOf.2 ⟨k, hk, hx⟩))
  case unique =>
    intro x hx
    rw [count_cons, hforn x hx]
    split <;> omega
  case keeps => exact fun x hx _ => getElem?_append_left (hKlen x hx)
  case owns => exact fun x hx => howns x (hKlen x hx)
  case count =>
    intro x hx _
    have hne : heap.length ≠ x := fun heq => Nat.lt_irrefl _ (heq ▸ hKlen x hx)
    rw [count_cons_of_ne hne]
    exact count_le_count_cons

/-- A part is replaced by a value in new cells. -/
theorem Change.link {cells : List (F (Val P))} (hd : O d) (hu : Unique O (d :: refsOf n)) (hK : ∀ r ∈ d :: refsOf n, K r)
    (hKlen : ∀ r, K r → r < heap.length) (hkids : ∀ k ∈ elems n, Holds O heap k.val k.tree k.refs)
    (hk : child? n s = some k) (h : Change K O O₁ heap (heap ++ cells) k.refs v₁ t₁ refs₁) :
    Change K O O₁ heap ((heap ++ cells).set d (Kid.val <$> put n s ⟨v₁, t₁, refs₁⟩)) (d :: refsOf n) (.ref d)
      (Trees.node (Kid.tree <$> put n s ⟨v₁, t₁, refs₁⟩)) (d :: refsOf (put n s ⟨v₁, t₁, refs₁⟩)) := by
  obtain ⟨rest, hrest, hcnt, hput⟩ := count_refsOf_put hk
  obtain ⟨hcnt₁, helems⟩ := hput ⟨v₁, t₁, refs₁⟩
  dsimp only at hcnt₁
  have hrestK : ∀ k' ∈ rest, ∀ r ∈ k'.refs, K r := fun k' hk' r hr =>
    hK r (mem_cons_of_mem _ (mem_refsOf.2 ⟨k', hrest k' hk', hr⟩))
  refine Change.write hd hu (hK d mem_cons_self) hKlen h.owns ?_ ?_ ?_
  · intro k' hk'
    rcases helems k' hk' with rfl | hk'
    · exact h.holds
    · exact ((hkids k' (hrest k' hk')).append cells).frame (fun _ _ => rfl) fun r hr => h.owns r (hrestK k' hk' r hr)
  · intro r hr hO
    have := h.count r hr hO
    rw [hcnt, hcnt₁]
    omega
  · intro r hr hO
    have hzero : (rest.flatMap Kid.refs).count r = 0 := by
      refine count_eq_zero.mpr fun hmem => ?_
      obtain ⟨k', hk', hrk'⟩ := mem_flatMap.mp hmem
      exact hr (hrestK k' hk' r hrk')
    rw [hcnt₁, hzero]
    exact h.unique r hO

end Change

/-! ## Paths -/

/-- The path leads from the value to the cell `x`, through cells of the program's own. -/
inductive Reaches (O : Nat → Prop) (heap : List (F (Val P))) : Val P → List σ → Nat → Prop
  | here {x : Nat} : O x → Reaches O heap (.ref x) [] x
  | down {r x : Nat} {c : F (Val P)} {s : σ} {w : Val P} {path : List σ} : O r → heap[r]? = some c →
      child? c s = some w → Reaches O heap w path x → Reaches O heap (.ref r) (s :: path) x

/-- The path leads to the subtree `sub`; with another in its place the tree is `rebuild` of it. -/
inductive Focus : List σ → T → T → (T → T) → Prop
  | here (t : T) : Focus [] t t fun x => x
  | down {n : F T} {s : σ} {t sub : T} {path : List σ} {rebuild : T → T} : child? n s = some t →
      Focus path t sub rebuild → Focus (s :: path) (Trees.node n) sub fun x => Trees.node (put n s (rebuild x))

/-- **A change at the end of a path is a change to the whole tree.** -/
theorem Holds.along {K O : Nat → Prop} {heap : List (F (Val P))} {v : Val P} {t : T} {refs : List Nat} {path : List σ}
    {x : Nat} (h : Holds O heap v t refs) (hu : Unique O refs) (hK : ∀ r ∈ refs, K r) (hpath : Reaches O heap v path x) :
    ∃ (n : F (Kid P T)) (rebuild : T → T), heap[x]? = some (Kid.val <$> n) ∧ O x ∧
      (∀ k ∈ elems n, Holds O heap k.val k.tree k.refs) ∧ Unique O (x :: refsOf n) ∧ (∀ r ∈ x :: refsOf n, K r) ∧
      Focus (F := F) path t (Trees.node (Kid.tree <$> n)) rebuild ∧
      ∀ O' heap' t' refs', Change K O O' heap heap' (x :: refsOf n) (.ref x) t' refs' →
        ∃ refs'', Change K O O' heap heap' refs v (rebuild t') refs'' := by
  induction hpath generalizing t refs with
  | here hO =>
    obtain ⟨n, hcell, rfl, rfl, -, hkids⟩ := h.node_inv
    exact ⟨n, fun x => x, hcell, hO, hkids, hu, hK, Focus.here _, fun O' heap' t' refs' hchg => ⟨refs', hchg⟩⟩
  | @down r x c s w path hO hcell hch hpath ih =>
    obtain ⟨m, hcell', rfl, rfl, -, hkids⟩ := h.node_inv
    obtain rfl : Kid.val <$> m = c := some.inj (hcell'.symm.trans hcell)
    rw [Container.child?_map] at hch
    obtain ⟨k, hk, rfl⟩ := map_eq_some_iff.mp hch
    have hmem : k ∈ elems m := mem_elems_of_child? hk
    have hKk : ∀ y ∈ k.refs, K y := fun y hy => hK y (mem_cons_of_mem _ (mem_refsOf.2 ⟨k, hmem, hy⟩))
    have huk : Unique O k.refs := hu.kid hk
    obtain ⟨n, rebuild, hcelln, hOx, hkidsn, hun, hKn, hfoc, hlift⟩ := ih (hkids k hmem) huk hKk
    refine ⟨n, fun x => Trees.node (put (Kid.tree <$> m) s (rebuild x)), hcelln, hOx, hkidsn, hun, hKn,
      Focus.down (by rw [Container.child?_map, hk]; rfl) hfoc, fun O' heap' t' refs' hchg => ?_⟩
    obtain ⟨refs₁, hchg₁⟩ := hlift O' heap' t' refs' hchg
    have hlifted := Change.lift hO hu hK hcell hkids hk hchg₁
    rw [← Container.put_map] at hlifted
    exact ⟨_, hlifted⟩

end Heap

end Lib
