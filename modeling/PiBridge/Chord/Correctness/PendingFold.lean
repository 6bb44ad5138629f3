import PiBridge.Chord.Delta.Pending
import PiBridge.Lib.Steps

/-!
# `Chord.Correctness.PendingFold` — folding loses no write

A leaf operation merges into an earlier one on its path, so it moves back past the leaf operations between
them. It commutes with each (`descend_comm`): one that writes above the path makes the path unwritable, for
good, and one that writes below it finds a leaf there.

`Folded` is the invariant of the index: from an indexed position on, only leaf operations on other paths
follow. `Pends` says what is pending leads from the value at the last take to the current one, and
`feed_exact` that a consumer that takes has the current value.
-/

namespace PiBridge.Chord

open Lib List Option Bool

namespace Json

variable {p q : Path} {f g : Option Json → Option Json} {found : Option Json} {v w : Json}

/-! ## Leaves and what is above them -/

/-- A primitive is at the end of the path. -/
def leafAt : Path → Option Json → Bool
  | _, none => false
  | [], some value => value.isPrimitive
  | seg :: path, some node => node.suits seg && leafAt path (node.child? seg)

/-- A primitive is above the end of the path. -/
def blocked : Path → Option Json → Bool
  | [], _ | _, none => false
  | seg :: path, some node => node.isPrimitive || (node.suits seg && blocked path (node.child? seg))

attribute [local simp] leafAt blocked descend

/-- The change makes primitives only. -/
def MakesLeaf (f : Option Json → Option Json) : Prop := ∀ found v, f found = some v → v.isPrimitive = true

theorem leafAt_descend (hf : MakesLeaf f) (h : descend suits p f found = some v) : leafAt p (some v) = true := by
  induction p generalizing found v with
  | nil => exact hf found v h
  | cons a p ih =>
    obtain ⟨node, ch, rfl, hsuit, hch, rfl⟩ := descend_cons h
    simp only [leafAt, child?_put_self hsuit, suits_put hsuit ch hsuit, ih hch, Bool.and_self]

/-- Nothing is written below a primitive. -/
theorem descend_blocked (h : blocked p found = true) : descend suits p f found = none := by
  induction p generalizing found with
  | nil => exact nomatch h
  | cons a p ih =>
    cases found with
    | none => rfl
    | some node =>
      simp only [blocked, or_eq_true, and_eq_true] at h
      rcases h with hprim | ⟨hsuit, hrest⟩
      · simp [descend, suits_of_isPrimitive hprim]
      · simp [descend, hsuit, ih hrest]

theorem blocked_descend (hg : MakesLeaf g) (hb : blocked p found = true) (h : descend suits q g found = some v) :
    blocked p (some v) = true := by
  induction p generalizing found v q with
  | nil => exact nomatch hb
  | cons a p ih =>
    cases q with
    | nil => simp [blocked, hg found v h]
    | cons b q =>
      obtain ⟨node, ch, rfl, hsuit, hch, rfl⟩ := descend_cons h
      simp only [blocked, or_eq_true, and_eq_true] at hb ⊢
      rcases hb with hprim | ⟨hsuit', hrest⟩
      · exact nomatch (suits_of_isPrimitive hprim b).symm.trans hsuit
      · right
        refine ⟨suits_put hsuit ch hsuit', ?_⟩
        by_cases hab : b = a
        · subst hab
          rw [child?_put_self hsuit]
          exact ih hrest hch
        · rw [child?_put_ne hsuit hsuit' hab]
          exact hrest

/-- A write elsewhere leaves a leaf where it is, or puts a primitive above it. -/
theorem leafAt_or_blocked (hg : MakesLeaf g) (hp : leafAt p found = true) (h : descend suits q g found = some v)
    (hne : p ≠ q) : leafAt p (some v) = true ∨ blocked p (some v) = true := by
  induction p generalizing found v q with
  | nil =>
    cases q with
    | nil => exact absurd rfl hne
    | cons b q =>
      obtain ⟨node, ch, rfl, hsuit, hch, rfl⟩ := descend_cons h
      exact nomatch (suits_of_isPrimitive hp b).symm.trans hsuit
  | cons a p ih =>
    cases q with
    | nil => exact Or.inr (by simp [blocked, hg found v h])
    | cons b q =>
      obtain ⟨node, ch, rfl, hsuit, hch, rfl⟩ := descend_cons h
      simp only [leafAt, and_eq_true] at hp
      obtain ⟨hsuit', hrest⟩ := hp
      by_cases hab : b = a
      · subst hab
        have hpq : p ≠ q := fun heq => hne (by rw [heq])
        simp only [leafAt, blocked, child?_put_self hsuit, suits_put hsuit ch hsuit, Bool.true_and, or_eq_true]
        exact (ih hrest hch hpq).imp id Or.inr
      · left
        simp only [leafAt, suits_put hsuit ch hsuit', child?_put_ne hsuit hsuit' hab, hrest, Bool.and_self]

theorem descend_mono {takes : Json → Seg → Bool} (hfg : ∀ found y, f found = some y → g found = some y)
    (h : descend takes p f found = some v) : descend takes p g found = some v := by
  induction p generalizing found v with
  | nil => exact hfg found v h
  | cons a p ih =>
    obtain ⟨node, ch, rfl, htakes, hch, rfl⟩ := descend_cons h
    exact descend_some htakes (ih hch)

theorem descend_comm (hp : leafAt p found = true) (h : descend suits q g found = some v) (hne : p ≠ q)
    (hg : MakesLeaf g) (h' : descend suits p f (some v) = some w) :
    ∃ u, descend suits p f found = some u ∧ descend suits q g (some u) = some w := by
  induction p generalizing found v w q with
  | nil =>
    cases q with
    | nil => exact absurd rfl hne
    | cons b q =>
      obtain ⟨node, ch, rfl, hsuit, -, -⟩ := descend_cons h
      exact nomatch (suits_of_isPrimitive hp b).symm.trans hsuit
  | cons a p ih =>
    cases q with
    | nil =>
      obtain ⟨node, ch, ⟨⟩, hsuit, -, -⟩ := descend_cons h'
      exact nomatch (suits_of_isPrimitive (hg found v h) a).symm.trans hsuit
    | cons b q =>
      obtain ⟨node, x, rfl, hb, hx, rfl⟩ := descend_cons h
      obtain ⟨_, y, ⟨⟩, -, hy, rfl⟩ := descend_cons h'
      simp only [leafAt, and_eq_true] at hp
      obtain ⟨ha, hrest⟩ := hp
      by_cases hab : b = a
      · subst hab
        have hpq : p ≠ q := fun heq => hne (by rw [heq])
        rw [child?_put_self hb] at hy
        obtain ⟨u, hu, hu'⟩ := ih hrest hx hpq hy
        refine ⟨node.put b u, descend_some ha hu, ?_⟩
        rw [put_put hb, ← put_put hb u y]
        apply descend_some (suits_put hb u hb)
        rw [child?_put_self hb]
        exact hu'
      · rw [child?_put_ne hb ha hab] at hy
        refine ⟨node.put a y, descend_some ha hy, ?_⟩
        have hthere : node.child? a ≠ none := by
          intro hnone
          rw [hnone] at hrest
          cases p <;> exact nomatch hrest
        rw [← put_comm ha hb (Ne.symm hab) hthere]
        apply descend_some (suits_put ha y hb)
        rw [child?_put_ne ha hb (Ne.symm hab)]
        exact hx

end Json

open Json

variable {p q : Path} {f g : Option Json → Option Json} {v v' w : Json}

/-! ## Leaf operations -/

/-- The operation makes the change at a leaf. -/
inductive IsLeaf : Op → Path → (Option Json → Option Json) → Prop where
  | s {path : Path} {value : Json} (h : value.isPrimitive = true) : IsLeaf (.s path value) path (Op.assign value)
  | a {path : Path} {suffix : Text} : IsLeaf (.a path suffix) path (Op.append suffix)

variable {op : Op} {ops : List Op} {v₀ : Json} {pend : PendingOps}

theorem IsLeaf.makesLeaf (h : IsLeaf op p f) : MakesLeaf f := by
  intro found v hv
  cases h with
  | s hprim =>
    cases hv
    exact hprim
  | a =>
    unfold Op.append at hv
    split at hv
    · cases hv
      rfl
    · exact nomatch hv

theorem IsLeaf.path_unique (h : IsLeaf op p f) (h' : IsLeaf op q g) : p = q := by
  cases h <;> cases h' <;> rfl

theorem IsLeaf.applyWith_iff (h : IsLeaf op p f) :
    op.applyWith suits v = some v' ↔ op.isValid = true ∧ descend suits p f (some v) = some v' := by
  cases h <;> simp [Op.applyWith, Op.effect]

/-- Leaf operations on other paths than `p`. -/
def Others (p : Path) (ops : List Op) : Prop := ∀ op ∈ ops, ∃ q g, IsLeaf op q g ∧ p ≠ q

theorem blocked_run (hothers : Others p ops) (hb : blocked p (some w) = true)
    (hrun : applyTyped w ops = some v) : blocked p (some v) = true := by
  induction ops generalizing w with
  | nil =>
    cases hrun
    exact hb
  | cons op ops ih =>
    obtain ⟨u, hu, hrest⟩ := bind_eq_some_iff.mp hrun
    obtain ⟨q, g, hleaf, -⟩ := hothers op (by simp)
    exact ih (fun op' hop' => hothers op' (by simp [hop'])) (blocked_descend hleaf.makesLeaf hb (hleaf.applyWith_iff.mp hu).2)
      hrest

/-- A write to a leaf moves back past leaf operations on other paths. -/
theorem move_back (hothers : Others p ops) (hleaf : leafAt p (some w) = true)
    (hrun : applyTyped w ops = some v) (hlast : descend suits p f (some v) = some v') :
    ∃ u, descend suits p f (some w) = some u ∧ applyTyped u ops = some v' := by
  induction ops generalizing w with
  | nil =>
    cases hrun
    exact ⟨v', hlast, rfl⟩
  | cons op ops ih =>
    obtain ⟨u, hu, hrest⟩ := bind_eq_some_iff.mp hrun
    obtain ⟨q, g, hop, hne⟩ := hothers op (by simp)
    have hothers' : Others p ops := fun op' hop' => hothers op' (by simp [hop'])
    obtain ⟨hvald, hdescend⟩ := hop.applyWith_iff.mp hu
    rcases leafAt_or_blocked hop.makesLeaf hleaf hdescend hne with hstill | hblocked
    · obtain ⟨x, hx, hx'⟩ := ih hothers' hstill hrest
      obtain ⟨y, hy, hy'⟩ := descend_comm hleaf hdescend hne hop.makesLeaf hx
      exact ⟨y, hy, bind_eq_some_iff.mpr ⟨x, hop.applyWith_iff.mpr ⟨hvald, hy'⟩, hx'⟩⟩
    · rw [descend_blocked (blocked_run hothers' hblocked hrest)] at hlast
      exact nomatch hlast

/-- `merge` is one operation for two on a path. -/
theorem merge_leaf {prev next merged : Op} (hprev : IsLeaf prev p f) (hnext : IsLeaf next p g)
    (h : merge prev next = some merged) :
    (∃ k, IsLeaf merged p k ∧ ∀ found x y, f found = some x → g (some x) = some y → k found = some y) ∧
    (next.isValid = true → merged.isValid = true) := by
  cases hnext with
  | s hprim =>
    cases h
    exact ⟨⟨_, IsLeaf.s hprim, fun _ _ _ _ hy => hy⟩, id⟩
  | @a _ sfx' =>
    cases hprev with
    | a =>
      cases h
      refine ⟨⟨_, IsLeaf.a, ?_⟩, id⟩
      intro found x y hx hy
      unfold Op.append at hx
      split at hx
      · cases hx
        simpa [Op.append] using hy
      · exact nomatch hx
    | @s _ val hprim =>
      cases val with
      | str cs =>
        cases h
        refine ⟨⟨_, IsLeaf.s rfl, ?_⟩, id⟩
        intro found x y hx hy
        cases hx
        exact hy
      | null | bool _ | num _ | arr _ | obj _ => exact nomatch h

/-! ## The folded operations -/

/-- What is folded leads from `v₀` to `v`, and from an indexed position on only leaf operations on other
    paths follow. -/
structure Folded (v₀ v : Json) (fold : Folding) : Prop where
  run : applyTyped v₀ fold.ops = some v
  leaves : ∀ p i, fold.leaves (pathKey p) = some i → ∃ op g, fold.ops[i]? = some op ∧ IsLeaf op p g ∧
    ∀ j op', i < j → fold.ops[j]? = some op' → ∃ q g', IsLeaf op' q g' ∧ p ≠ q

theorem Folded.start (v₀ : Json) : Folded v₀ v₀ Folding.start := ⟨rfl, nofun⟩

/-- An operation is pushed, and the index cleared. -/
theorem Folded.cleared {fold : Folding} (h : Folded v₀ v fold)
    (hstep : op.applyWith suits v = some v') : Folded v₀ v' { ops := fold.ops ++ [op], leaves := fun _ => none } := by
  refine ⟨?_, nofun⟩
  rw [applyTyped_append, h.run]
  simpa [applyTyped] using hstep

/-- A leaf operation is pushed and indexed. -/
theorem Folded.pushed {fold : Folding} (h : Folded v₀ v fold) (hop : IsLeaf op p f) (hstep : op.applyWith suits v = some v') :
    Folded v₀ v' { ops := fold.ops ++ [op], leaves := Function.update fold.leaves (pathKey p) (some fold.ops.length) } := by
  refine ⟨(h.cleared hstep).run, ?_⟩
  intro p' i hi
  dsimp only at hi ⊢
  by_cases hkey : pathKey p' = pathKey p
  · rw [hkey, Function.update_self] at hi
    cases hi
    obtain rfl := pathKey_injective hkey
    refine ⟨op, f, by simp, hop, ?_⟩
    intro j op' hj hop'
    have hlt := (List.getElem?_eq_some_iff.mp hop').1
    simp only [length_append, length_singleton] at hlt
    omega
  · rw [Function.update_of_ne hkey] at hi
    obtain ⟨op₀, g, hop₀, hleaf, hrest⟩ := h.leaves p' i hi
    have hlt := (List.getElem?_eq_some_iff.mp hop₀).1
    refine ⟨op₀, g, by rw [getElem?_append_left hlt]; exact hop₀, hleaf, ?_⟩
    intro j op' hj hop'
    by_cases hjl : j < fold.ops.length
    · rw [getElem?_append_left hjl] at hop'
      exact hrest j op' hj hop'
    · have hjl' := (List.getElem?_eq_some_iff.mp hop').1
      simp only [length_append, length_singleton] at hjl'
      obtain rfl : j = fold.ops.length := by omega
      rw [getElem?_concat_length] at hop'
      cases hop'
      exact ⟨p, f, hop, fun heq => hkey (by rw [heq])⟩

/-- A leaf operation merges into the one the index points at. -/
theorem Folded.merged {fold : Folding} (h : Folded v₀ v fold) {prev merged : Op} {i : Nat}
    (hop : IsLeaf op p f) (hstep : op.applyWith suits v = some v') (hi : fold.leaves (pathKey p) = some i)
    (hprevious : fold.ops[i]? = some prev) (hmerge : merge prev op = some merged) :
    Folded v₀ v' { fold with ops := fold.ops.set i merged } := by
  obtain ⟨_, g, hat, hleaf, hothers⟩ := h.leaves p i hi
  cases hprevious.symm.trans hat
  obtain ⟨⟨k, hk, hcmp⟩, hvald⟩ := merge_leaf hleaf hop hmerge
  obtain ⟨hlt, hget⟩ := List.getElem?_eq_some_iff.mp hprevious
  obtain ⟨hopvalid, hlast⟩ := hop.applyWith_iff.mp hstep
  constructor
  · have hsplit : fold.ops = fold.ops.take i ++ prev :: fold.ops.drop (i + 1) := by
      rw [← hget, getElem_cons_drop, take_append_drop]
    have hset : fold.ops.set i merged = fold.ops.take i ++ merged :: fold.ops.drop (i + 1) :=
      set_eq_take_append_cons_drop.trans (if_pos hlt)
    have hrun := h.run
    rw [hsplit, applyTyped_append] at hrun
    obtain ⟨w, hw, hrun⟩ := bind_eq_some_iff.mp hrun
    obtain ⟨w₁, hw₁, hrest⟩ := bind_eq_some_iff.mp hrun
    have hprev := (hleaf.applyWith_iff.mp hw₁).2
    have hothers' : Others p (fold.ops.drop (i + 1)) := by
      intro op' hop'
      obtain ⟨j, hj⟩ := mem_iff_getElem?.mp hop'
      rw [getElem?_drop] at hj
      exact hothers _ op' (by omega) hj
    obtain ⟨u, hu, hend⟩ := move_back hothers' (leafAt_descend hleaf.makesLeaf hprev) hrest hlast
    show applyTyped v₀ (fold.ops.set i merged) = some v'
    rw [hset, applyTyped_append, hw]
    show applyTyped w (merged :: fold.ops.drop (i + 1)) = some v'
    have hmerged : descend suits p k (some w) = some u := by
      apply descend_mono _ (descend_descend hprev hu)
      intro found y hy
      obtain ⟨x, hx, hxy⟩ := bind_eq_some_iff.mp hy
      exact hcmp found x y hx hxy
    exact bind_eq_some_iff.mpr ⟨u, hk.applyWith_iff.mpr ⟨hvald hopvalid, hmerged⟩, hend⟩
  · intro p' i' hi'
    obtain ⟨op₀, g₀, hop₀, hleaf₀, hrest₀⟩ := h.leaves p' i' hi'
    have hset : (fold.ops.set i merged)[i]? = some merged := getElem?_set_self hlt
    have hothers₀ : ∀ j op', i' < j → (fold.ops.set i merged)[j]? = some op' → ∃ q g', IsLeaf op' q g' ∧ p' ≠ q := by
      intro j op' hj hop'
      by_cases hij : i = j
      · subst hij
        cases hset.symm.trans hop'
        obtain ⟨q, g', hq, hne⟩ := hrest₀ i prev hj hprevious
        obtain rfl := hq.path_unique hleaf
        exact ⟨q, k, hk, hne⟩
      · rw [getElem?_set_ne hij] at hop'
        exact hrest₀ j op' hj hop'
    by_cases hii : i = i'
    · subst hii
      cases hprevious.symm.trans hop₀
      obtain rfl := hleaf₀.path_unique hleaf
      exact ⟨merged, k, hset, hk, hothers₀⟩
    · exact ⟨op₀, g₀, (getElem?_set_ne hii).trans hop₀, hleaf₀, hothers₀⟩

theorem Folded.leaf {fold : Folding} (h : Folded v₀ v fold) (hop : IsLeaf op p f)
    (hstep : op.applyWith suits v = some v') : Folded v₀ v' (fold.leaf p op) := by
  unfold Folding.leaf
  split
  · rename_i i hi
    split
    · rename_i merged hmerged
      obtain ⟨prev, hprev, hmerge⟩ := bind_eq_some_iff.mp hmerged
      exact h.merged hop hstep hi hprev hmerge
    · exact h.pushed hop hstep
  · exact h.pushed hop hstep

/-- **Step lemma.** -/
theorem Folded.step {v₀ : Json} {fold : Folding} (h : Folded v₀ v fold) {op : Op}
    (hstep : op.applyWith suits v = some v') : Folded v₀ v' (fold.step op) := by
  cases op with
  | r val => exact ⟨hstep, nofun⟩
  | a path sfx => exact h.leaf IsLeaf.a hstep
  | s path val =>
    by_cases hprim : val.isPrimitive = true
    · simp only [Folding.step, hprim, if_true]
      exact h.leaf (IsLeaf.s hprim) hstep
    · simp only [Folding.step, hprim]
      exact h.cleared hstep
  | d _ | t _ _ | p _ _ _ _ | m _ _ => exact h.cleared hstep

/-! ## What is pending -/

/-- What is pending leads from `v₀` to `v`. -/
def Pends (v₀ v : Json) : PendingOps → Prop
  | .empty => v₀ = v
  | .batch ops => applyTyped v₀ ops = some v
  | .folding fold => Folded v₀ v fold
  | .replace => True

theorem Folded.fold {fold fold' : Folding} (h : Folded v₀ v fold)
    (hrun : applyTyped v ops = some v') (hfold : fold.fold ops = some fold') : Folded v₀ v' fold' := by
  induction ops generalizing fold v with
  | nil =>
    cases hrun
    cases hfold
    exact h
  | cons op ops ih =>
    obtain ⟨u, hu, hrest⟩ := bind_eq_some_iff.mp hrun
    unfold Folding.fold at hfold
    split at hfold
    · exact nomatch hfold
    · exact ih (h.step hu) hrest hfold

theorem pends_folded {fold? : Option Folding} (h : ∀ fold, fold? = some fold → Folded v₀ v fold) :
    Pends v₀ v (PendingOps.folded fold?) := by
  cases fold? with
  | none => trivial
  | some fold => exact h fold rfl

theorem pends_push (h : Pends v₀ v pend) (hrun : applyTyped v ops = some v') : Pends v₀ v' (pend.push ops) := by
  unfold PendingOps.push
  split
  · cases hrun
    exact h
  · -- A base does not depend on the value before it.
    exact hrun
  · split
    · obtain rfl : v₀ = v := h
      exact hrun
    · rename_i ops₀
      apply pends_folded
      intro fold' hfold'
      obtain ⟨fold, hfold, hrest⟩ := bind_eq_some_iff.mp hfold'
      exact ((Folded.start v₀).fold h hfold).fold hrun hrest
    · apply pends_folded
      intro fold' hfold'
      exact Folded.fold h hrun hfold'
    · trivial

/-- What `take` hands over gives the current value. -/
theorem pends_take (h : Pends v₀ v pend) :
    pend.take = .replace ∨ ∃ ops, pend.take = .ops ops ∧ applyImmutable v₀ ops = some v := by
  cases pend with
  | empty =>
    obtain rfl : v₀ = v := h
    exact Or.inr ⟨[], rfl, rfl⟩
  | batch ops => exact Or.inr ⟨ops, rfl, applyImmutable_of_applyTyped h⟩
  | folding fold => exact Or.inr ⟨fold.ops, rfl, applyImmutable_of_applyTyped (Folded.run h)⟩
  | replace => exact Or.inl rfl

/-! ## The limit -/

/-- Everything folded, without the limit. -/
def foldAll (ops : List Op) : Folding := ops.foldl Folding.step Folding.start

theorem foldAll_append (ops ops' : List Op) : foldAll (ops ++ ops') = ops'.foldl Folding.step (foldAll ops) := by
  unfold foldAll
  rw [foldl_append]

/-- At some point of `pushed` more than the limit remained after folding. -/
def Overflows (pushed : List Op) : Prop := ∃ ops, ops <+: pushed ∧ maxPendingOps < (foldAll ops).ops.length

/-- What is pending, of the operations pushed since the last take. -/
def Holds (pushed : List Op) : PendingOps → Prop
  | .empty => foldAll pushed = Folding.start
  | .batch ops => ops ≠ [] ∧ ∃ dropped, pushed = dropped ++ ops ∧ ∀ pre, pre <+: ops → pre ≠ [] → foldAll (dropped ++ pre) = foldAll pre
  | .folding fold => foldAll pushed = fold
  | .replace => Overflows pushed

theorem Overflows.append {psh : List Op} (h : Overflows psh) (ops : List Op) : Overflows (psh ++ ops) := by
  obtain ⟨pre, hpre, hlong⟩ := h
  exact ⟨pre, hpre.trans (prefix_append _ _), hlong⟩

/-- `#fold` folds everything, unless the limit is passed on the way. -/
theorem fold_spec (psh ops : List Op) :
    ((foldAll psh).fold ops = none ∧ ∃ pre, pre <+: ops ∧ pre ≠ [] ∧ maxPendingOps < (foldAll (psh ++ pre)).ops.length) ∨
      (foldAll psh).fold ops = some (foldAll (psh ++ ops)) := by
  induction ops generalizing psh with
  | nil => exact Or.inr (by rw [append_nil]; rfl)
  | cons op ops ih =>
    have hstep : (foldAll psh).step op = foldAll (psh ++ [op]) := by rw [foldAll_append]; rfl
    unfold Folding.fold
    rw [hstep]
    split
    · rename_i hlong
      exact Or.inl ⟨rfl, [op], by simp, by simp, hlong⟩
    · rcases ih (psh ++ [op]) with ⟨hnone, pre, hpre, -, hlong⟩ | heq
      · rw [append_assoc] at hlong
        exact Or.inl ⟨hnone, op :: pre, cons_prefix_cons.mpr ⟨rfl, hpre⟩, by simp, hlong⟩
      · rw [heq, append_assoc]
        exact Or.inr rfl

theorem holds_fold (psh ops : List Op) : Holds (psh ++ ops) (PendingOps.folded ((foldAll psh).fold ops)) := by
  rcases fold_spec psh ops with ⟨hnone, pre, hpre, -, hlong⟩ | heq
  · rw [hnone]
    exact ⟨psh ++ pre, (prefix_append_right_inj _).mpr hpre, hlong⟩
  · rw [heq]
    rfl

theorem holds_push {psh : List Op} (h : Holds psh pend) : Holds (psh ++ ops) (pend.push ops) := by
  unfold PendingOps.push
  split
  · rw [append_nil]
    exact h
  · rename_i val ops'
    refine ⟨by simp, psh, rfl, ?_⟩
    intro pre hpre hne
    cases pre with
    | nil => exact absurd rfl hne
    | cons op pre =>
      obtain ⟨rfl, -⟩ := cons_prefix_cons.mp hpre
      rw [foldAll_append]
      rfl
  · rename_i hnil _
    split
    · refine ⟨hnil, psh, rfl, fun pre _ _ => ?_⟩
      have hsta : foldAll psh = Folding.start := h
      rw [foldAll_append, hsta]
      rfl
    · rename_i ops₀
      obtain ⟨hne₀, drp, rfl, hdrop⟩ := h
      rcases fold_spec [] ops₀ with ⟨hnone, pre, hpre, hne, hlong⟩ | heq
      · have hnone' : Folding.start.fold ops₀ = none := hnone
        rw [hnone']
        refine Overflows.append ⟨drp ++ pre, (prefix_append_right_inj _).mpr hpre, ?_⟩ ops
        rw [hdrop pre hpre hne]
        exact hlong
      · have heq' : Folding.start.fold ops₀ = some (foldAll ops₀) := heq
        rw [heq', bind_some, ← hdrop ops₀ (prefix_refl _) hne₀]
        exact holds_fold (drp ++ ops₀) ops
    · rename_i fold
      obtain rfl : foldAll psh = fold := h
      exact holds_fold psh ops
    · exact Overflows.append h ops

theorem holds_replace {psh : List Op} (h : Holds psh pend) (hrepl : pend.take = .replace) : Overflows psh := by
  cases pend with
  | replace => exact h
  | empty | batch _ | folding _ => exact nomatch hrepl

/-! ## A slow consumer -/

/-- A producer's value, what a consumer's value was at its last take, and what is pending between them;
    `pushed` is bookkeeping. -/
structure Feed where
  pending : PendingOps
  producer : Json
  consumer : Json
  pushed : List Op

inductive FeedAction where
  | push (ops : List Op)
  | take

namespace Feed

def start (value : Json) : Feed := { pending := .empty, producer := value, consumer := value, pushed := [] }

/-- A batch is applied to the producer's value and pushed, or the consumer applies what it takes; `replace`
    stands for the current value. -/
def next (feed : Feed) : FeedAction → Option Feed
  | .push ops =>
    (applyTyped feed.producer ops).map fun value =>
      { feed with pending := feed.pending.push ops, producer := value, pushed := feed.pushed ++ ops }
  | .take =>
    match feed.pending.take with
    | .ops ops =>
      (applyImmutable feed.consumer ops).map fun value =>
        { feed with pending := .empty, consumer := value, pushed := [] }
    | .replace => some { feed with pending := .empty, consumer := feed.producer, pushed := [] }

def Step (feed : Feed) (action : FeedAction) (feed' : Feed) : Prop := feed.next action = some feed'

/-- What every run keeps. -/
structure Exact (feed : Feed) : Prop where
  pends : Pends feed.consumer feed.producer feed.pending
  holds : Holds feed.pushed feed.pending

theorem start_exact (val : Json) : Exact (start val) := ⟨rfl, rfl⟩

variable {feed : Feed}

/-- A take succeeds, and gives the consumer the current value. -/
theorem Exact.take (h : Exact feed) : ∃ feed', feed.Step .take feed' ∧ feed'.consumer = feed.producer ∧ feed'.producer = feed.producer ∧
      feed'.pending = .empty ∧ feed'.pushed = [] := by
  unfold Step next
  rcases pends_take h.pends with hrepl | ⟨ops, hops, happl⟩
  · rw [hrepl]
    exact ⟨_, rfl, rfl, rfl, rfl, rfl⟩
  · rw [hops]
    simp only [happl, map_some]
    exact ⟨_, rfl, rfl, rfl, rfl, rfl⟩

/-- **Step lemma.** -/
theorem Exact.next {feed' : Feed} (h : Exact feed) {action : FeedAction} (hstep : feed.Step action feed') : Exact feed' := by
  cases action with
  | push ops =>
    obtain ⟨val, hval, rfl⟩ := map_eq_some_iff.mp hstep
    exact ⟨pends_push h.pends hval, holds_push h.holds⟩
  | take =>
    obtain ⟨feed'', hfeed'', hcons, hproducer, hpend, hpushed⟩ := h.take
    cases hstep.symm.trans hfeed''
    refine ⟨?_, ?_⟩
    · rw [hpend, hcons, hproducer]
      rfl
    · rw [hpend, hpushed]
      rfl

theorem run_exact {val : Json} {actions : List FeedAction} (h : Steps Step (start val) actions feed) : Exact feed :=
  h.invariant (fun h hstep => h.next hstep) (start_exact val)

end Feed

/-- The batches, pushed in order. -/
def pushAll (batches : List (List Op)) : PendingOps := batches.foldl PendingOps.push .empty

theorem pushAll_exact {v : Json} {batches : List (List Op)} (h : applyTyped v₀ batches.flatten = some v) :
    Pends v₀ v (pushAll batches) ∧ Holds batches.flatten (pushAll batches) := by
  suffices hsuffices : ∀ (pend : PendingOps) (w : Json) (psh : List Op), Pends v₀ w pend → Holds psh pend →
      applyTyped w batches.flatten = some v →
      Pends v₀ v (batches.foldl PendingOps.push pend) ∧ Holds (psh ++ batches.flatten) (batches.foldl PendingOps.push pend) from
    hsuffices .empty v₀ [] rfl rfl h
  clear h
  induction batches with
  | nil =>
    intro pend w psh hpends hholds hrun
    cases hrun
    rw [flatten_nil, append_nil]
    exact ⟨hpends, hholds⟩
  | cons ops batches ih =>
    intro pend w psh hpends hholds hrun
    rw [flatten_cons, applyTyped_append] at hrun
    obtain ⟨u, hu, hrest⟩ := bind_eq_some_iff.mp hrun
    rw [flatten_cons, ← append_assoc, foldl_cons]
    exact ih (pend.push ops) u (psh ++ ops) (pends_push hpends hu) (holds_push hholds) hrest

/-- Folding a slow consumer's backlog is exact. Batches that apply to `v₀`, pushed in order, are taken as
    operations with the same result, or as `replace`, and that only if the limit was passed. However pushes
    and takes interleave, a take gives the consumer the current value. -/
theorem backlog_exact (v₀ : Json) : (∀ batches v, applyTyped v₀ batches.flatten = some v → applyImmutable v₀ batches.flatten = some v ∧
        ((pushAll batches).take = .replace ∧ Overflows batches.flatten ∨
          ∃ ops, (pushAll batches).take = .ops ops ∧ applyImmutable v₀ ops = some v)) ∧
    (∀ actions feed, Steps Feed.Step (Feed.start v₀) actions feed → (∃ feed', feed.Step .take feed' ∧ feed'.consumer = feed.producer) ∧
        (feed.pending.take = .replace → Overflows feed.pushed)) := by
  constructor
  · intro batches v hrun
    obtain ⟨hpends, hholds⟩ := pushAll_exact hrun
    refine ⟨applyImmutable_of_applyTyped hrun, ?_⟩
    rcases pends_take hpends with hreplace | hops
    · exact Or.inl ⟨hreplace, holds_replace hholds hreplace⟩
    · exact Or.inr hops
  · intro actions feed hrun
    have hexact := Feed.run_exact hrun
    obtain ⟨feed', hfeed', hconsumer, -⟩ := hexact.take
    exact ⟨⟨feed', hfeed', hconsumer⟩, holds_replace hexact.holds⟩

/-- An append joins a set across a write elsewhere. -/
def appends : List (List Op) := [[.s [.key (text "a")] (.str (text "x"))], [.s [.key (text "b")] .null, .a [.key (text "a")] (text "y")],
    [.a [.key (text "a")] (text "z")]]

theorem backlog_exact_example : (pushAll appends).take = .ops [.s [.key (text "a")] (.str (text "xyz")), .s [.key (text "b")] .null] ∧
      ∃ ops, (pushAll appends).take = .ops ops ∧
        applyImmutable (.obj []) ops = some (.obj [(text "a", .str (text "xyz")), (text "b", .null)]) := by
  have hrun : applyTyped (.obj []) appends.flatten = some (.obj [(text "a", .str (text "xyz")), (text "b", .null)]) := by decide
  have htake : (pushAll appends).take = .ops [.s [.key (text "a")] (.str (text "xyz")), .s [.key (text "b")] .null] := by
    decide
  refine ⟨htake, ?_⟩
  rcases ((backlog_exact (.obj [])).1 appends _ hrun).2 with ⟨hreplace, -⟩ | hops
  · exact nomatch htake.symm.trans hreplace
  · exact hops

end PiBridge.Chord
