import PiBridge.Chord.Delta.Apply
import PiBridge.Chord.Same

/-!
# `Chord.Correctness.SameApply` — operations on values that are the same

An operation finds the same things in values that differ in the order of keys only, and makes the same of them
(`applyImmutable_same`).
-/

namespace PiBridge.Chord

open Lib Json List Option Assoc

/-! ## Values that are the same -/

variable {y x : Json} {change : Option Json → Option Json}

theorem same_arr_iff {xs : List Json} : Same (.arr xs) y ↔ ∃ ys, y = .arr ys ∧ xs.map sem = ys.map sem := by
  constructor
  · intro h
    cases y with
    | arr ys =>
      rw [Same, sem_arr, sem_arr] at h
      exact ⟨ys, rfl, Sem.arr.inj h⟩
    | obj m =>
      rw [Same, sem_arr, sem_obj] at h
      cases h
    | null | bool _ | num _ | str _ =>
      rw [Same, sem_arr] at h
      cases h
  · rintro ⟨ys, rfl, h⟩
    rw [Same, sem_arr, sem_arr, h]

theorem same_obj_iff {m : List (Text × Json)} :
    Same (.obj m) y ↔ ∃ m', y = .obj m' ∧ ∀ k, (Assoc.get? m k).map sem = (Assoc.get? m' k).map sem := by
  constructor
  · intro h
    cases y with
    | obj m' =>
      rw [Same, sem_obj, sem_obj] at h
      exact ⟨m', rfl, fun k => congrFun (Sem.obj.inj h) k⟩
    | arr ys =>
      rw [Same, sem_arr, sem_obj] at h
      cases h
    | null | bool _ | num _ | str _ =>
      rw [Same, sem_obj] at h
      cases h
  · rintro ⟨m', rfl, h⟩
    exact same_obj h

theorem same_primitive (hx : x.isPrimitive = true) (h : Same x y) : x = y := by
  cases y with
  | arr ys =>
    obtain ⟨xs, rfl, -⟩ := same_arr_iff.1 h.symm
    cases hx
  | obj m =>
    obtain ⟨m', rfl, -⟩ := same_obj_iff.1 h.symm
    cases hx
  | null | bool _ | num _ | str _ =>
    cases x <;> first | exact absurd hx (by decide) | simp_all [Same, sem]

/-- The results of a change are the same where it is found the same. -/
def Uniform (change : Option Json → Option Json) : Prop :=
  ∀ f f' : Option Json, f.map sem = f'.map sem → (change f).map sem = (change f').map sem

theorem uniform_of_some (h : ∀ x y, Same x y → (change (some x)).map sem = (change (some y)).map sem) : Uniform change := by
  intro f f' hf
  cases f with
  | none =>
    cases f' with
    | none => rfl
    | some y => cases hf
  | some x =>
    cases f' with
    | none => cases hf
    | some y => exact h x y (some.inj hf)

theorem child?_same (h : Same x y) (seg : Seg) : (x.child? seg).map sem = (y.child? seg).map sem := by
  cases x with
  | arr xs =>
    obtain ⟨ys, rfl, hys⟩ := same_arr_iff.1 h
    cases seg with
    | key _ => rfl
    | index n =>
      show xs[n]?.map sem = ys[n]?.map sem
      rw [← getElem?_map, ← getElem?_map, hys]
  | obj m =>
    obtain ⟨m', rfl, hm⟩ := same_obj_iff.1 h
    exact hm seg.name
  | null | bool _ | num _ | str _ =>
    rw [same_primitive rfl h]

theorem length_of_map_sem {xs ys : List Json} (h : xs.map sem = ys.map sem) : xs.length = ys.length := by
  have hlen := congrArg length h
  rwa [length_map, length_map] at hlen

theorem accepts_same (h : Same x y) (seg : Seg) : x.accepts seg = y.accepts seg := by
  cases x with
  | arr xs =>
    obtain ⟨ys, rfl, hys⟩ := same_arr_iff.1 h
    cases seg with
    | key _ => rfl
    | index n =>
      show decide (n ≤ xs.length) = decide (n ≤ ys.length)
      rw [length_of_map_sem hys]
  | obj m =>
    obtain ⟨m', rfl, -⟩ := same_obj_iff.1 h
    rfl
  | null | bool _ | num _ | str _ =>
    rw [same_primitive rfl h]

theorem put_same {v w : Json} (h : Same x y) (hv : Same v w) (seg : Seg) : Same (x.put seg v) (y.put seg w) := by
  cases x with
  | arr xs =>
    obtain ⟨ys, rfl, hys⟩ := same_arr_iff.1 h
    cases seg with
    | key _ => exact h
    | index n =>
      show Same (if n < xs.length then .arr (xs.set n v) else .arr (xs ++ [v]))
        (if n < ys.length then .arr (ys.set n w) else .arr (ys ++ [w]))
      rw [length_of_map_sem hys]
      split
      · exact same_arr_iff.2 ⟨_, rfl, by rw [map_set, map_set, hys, hv]⟩
      · exact same_arr_iff.2 ⟨_, rfl, by rw [map_append, map_append, hys, map_singleton, map_singleton, hv]⟩
  | obj m =>
    obtain ⟨m', rfl, hm⟩ := same_obj_iff.1 h
    refine same_obj fun k => ?_
    by_cases hk : seg.name = k
    · rw [hk, get?_set_self, get?_set_self]
      exact congrArg some hv
    · rw [get?_set_ne _ _ hk, get?_set_ne _ _ hk]
      exact hm k
  | null | bool _ | num _ | str _ =>
    rw [← same_primitive rfl h]
    rfl

theorem descend_uniform (hchg : Uniform change) (path : Path) : Uniform (descend accepts path change) := by
  induction path with
  | nil => exact hchg
  | cons seg path ih =>
    refine uniform_of_some fun x y hxy => ?_
    unfold descend
    rw [accepts_same hxy]
    split
    · have hch := ih _ _ (child?_same hxy seg)
      cases hx : descend accepts path change (x.child? seg) with
      | none =>
        rw [hx] at hch
        cases hy : descend accepts path change (y.child? seg) with
        | none => rfl
        | some w =>
          rw [hy] at hch
          cases hch
      | some v =>
        rw [hx] at hch
        cases hy : descend accepts path change (y.child? seg) with
        | none =>
          rw [hy] at hch
          cases hch
        | some w =>
          rw [hy] at hch
          exact congrArg some (put_same hxy (some.inj hch) seg)
    · rfl

/-! ## Operations -/

/-- A change that does something at a string only. -/
theorem uniform_of_str (h : ∀ x, (∀ cs, x ≠ .str cs) → change (some x) = none) : Uniform change := by
  refine uniform_of_some fun x y hxy => ?_
  by_cases hstr : ∃ cs, x = .str cs
  · obtain ⟨cs, rfl⟩ := hstr
    rw [same_primitive (x := .str cs) rfl hxy]
  · have hstr' : ∀ cs, y ≠ .str cs := by
      rintro cs rfl
      exact hstr ⟨cs, (same_primitive (x := .str cs) rfl hxy.symm).symm⟩
    rw [h x fun cs hcs => hstr ⟨cs, hcs⟩, h y hstr']

/-- A change that does something at an array only. -/
theorem uniform_of_arr (hnone : ∀ x, (∀ xs, x ≠ .arr xs) → change (some x) = none)
    (h : ∀ xs ys : List Json, xs.map sem = ys.map sem →
      (change (some (.arr xs))).map sem = (change (some (.arr ys))).map sem) : Uniform change := by
  refine uniform_of_some fun x y hxy => ?_
  by_cases harr : ∃ xs, x = .arr xs
  · obtain ⟨xs, rfl⟩ := harr
    obtain ⟨ys, rfl, hys⟩ := same_arr_iff.1 hxy
    exact h xs ys hys
  · have harr' : ∀ ys, y ≠ .arr ys := by
      rintro ys rfl
      obtain ⟨xs, rfl, -⟩ := same_arr_iff.1 hxy.symm
      exact harr ⟨xs, rfl⟩
    rw [hnone x fun xs hxs => harr ⟨xs, hxs⟩, hnone y harr']

theorem uniform_assign (v : Json) : Uniform (Op.assign v) := fun _ _ _ => rfl

theorem uniform_append (sfx : Text) : Uniform (Op.append sfx) :=
  uniform_of_str fun x hx => by
    cases x with
    | str cs => exact absurd rfl (hx cs)
    | null | bool _ | num _ | arr _ | obj _ => rfl

theorem uniform_trim (cnt : Nat) : Uniform (Op.trim cnt) :=
  uniform_of_str fun x hx => by
    cases x with
    | str cs => exact absurd rfl (hx cs)
    | null | bool _ | num _ | arr _ | obj _ => rfl

theorem uniform_splice (idx rm : Nat) (its : List Json) : Uniform (Op.splice idx rm its) := by
  refine uniform_of_arr (fun x hx => ?_) fun xs ys h => ?_
  · cases x with
    | arr xs => exact absurd rfl (hx xs)
    | null | bool _ | num _ | str _ | obj _ => rfl
  · show some _ = some _
    simp only [sem_arr, map_append, map_take, map_drop, h]

theorem uniform_reorder (perm : List Nat) : Uniform (Op.reorder perm) := by
  refine uniform_of_arr (fun x hx => ?_) fun xs ys h => ?_
  · cases x with
    | arr xs => exact absurd rfl (hx xs)
    | null | bool _ | num _ | str _ | obj _ => rfl
  · unfold Op.reorder
    dsimp only
    rw [length_of_map_sem h]
    split
    · show some _ = some _
      simp only [sem_arr, map_filterMap, ← getElem?_map, h]
    · rfl

theorem uniform_delete (key : Seg) : Uniform (Op.delete key) := by
  refine uniform_of_some fun x y hxy => ?_
  cases x with
  | arr xs =>
    obtain ⟨ys, rfl, hys⟩ := same_arr_iff.1 hxy
    cases key with
    | key _ => rfl
    | index n =>
      unfold Op.delete
      dsimp only
      rw [length_of_map_sem hys]
      split
      · show some _ = some _
        simp only [sem_arr, ← eraseIdx_map, hys]
      · rfl
  | obj m =>
    obtain ⟨m', rfl, hm⟩ := same_obj_iff.1 hxy
    refine congrArg some (same_obj fun k => ?_)
    by_cases hk : key.name = k
    · rw [hk, get?_erase_self, get?_erase_self]
    · rw [get?_erase_ne _ hk, get?_erase_ne _ hk]
      exact hm k
  | null | bool _ | num _ | str _ =>
    rw [← same_primitive rfl hxy]

theorem effect_same (h : Same x y) (op : Op) : (op.effect accepts x).map sem = (op.effect accepts y).map sem := by
  have hroot : (some x).map sem = (some y).map sem := congrArg some h
  cases op with
  | r v => rfl
  | s path v => exact descend_uniform (uniform_assign v) path _ _ hroot
  | a path sfx => exact descend_uniform (uniform_append sfx) path _ _ hroot
  | t path cnt => exact descend_uniform (uniform_trim cnt) path _ _ hroot
  | p path idx rm its => exact descend_uniform (uniform_splice idx rm its) path _ _ hroot
  | m path perm => exact descend_uniform (uniform_reorder perm) path _ _ hroot
  | d path =>
    unfold Op.effect
    dsimp only
    cases path.getLast? with
    | none => rfl
    | some key => exact descend_uniform (uniform_delete key) path.dropLast _ _ hroot

/-- **Operations make the same of values that are the same.** -/
theorem applyImmutable_same {v : Json} {ops : List Op} (h : Same x y) (hv : applyImmutable x ops = some v) :
    ∃ w, applyImmutable y ops = some w ∧ Same v w := by
  induction ops generalizing x y with
  | nil =>
    cases hv
    exact ⟨y, rfl, h⟩
  | cons op ops ih =>
    obtain ⟨x', hx, hrest⟩ := bind_eq_some_iff.mp hv
    have hx' : (if op.isValid then op.effect accepts x else none) = some x' := hx
    split at hx'
    · rename_i hvald
      have heffect := effect_same h op
      rw [hx'] at heffect
      cases hy : op.effect accepts y with
      | none =>
        rw [hy] at heffect
        cases heffect
      | some y' =>
        rw [hy] at heffect
        obtain ⟨w, hw, hsame⟩ := ih (some.inj heffect) hrest
        refine ⟨w, bind_eq_some_iff.mpr ⟨y', ?_, hw⟩, hsame⟩
        show (if op.isValid then op.effect accepts y else none) = _
        rw [if_pos hvald, hy]
    · cases hx'

end PiBridge.Chord
