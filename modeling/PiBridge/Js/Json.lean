import Mathlib.Data.List.Dedup
import Mathlib.Data.List.Perm.Subperm
import PiBridge.Js.Value

/-!
# `Js.Json` — what a JSON text keeps of a value, and comparing values key by key

`toJson` is what a value becomes when its JSON text is parsed back. A value whose property names are
distinct and whose arrays have no `undefined` element (`JsonLike`) keeps its meaning (`same_toJson`).

`shapeEqual` compares two values by their defined keys, taking an array for the object of its elements. It
cannot tell an array from such an object; on values without arrays it is sound (`same_of_shapeEqual`).
-/

namespace Js

open List Option Bool

namespace Value

/-! ## Through JSON and back -/

attribute [local simp] toJson toJson.jsonArr toJson.jsonObj

/-- Property names are distinct, and no array has an `undefined` element. -/
inductive JsonLike : Value → Prop where
  | undefined : JsonLike .undefined
  | null : JsonLike .null
  | bool (b : Bool) : JsonLike (.bool b)
  | num (q : Rat) : JsonLike (.num q)
  | str (s : String) : JsonLike (.str s)
  | arr {xs : List Value} (hdefined : ∀ v ∈ xs, v ≠ .undefined) (h : ∀ v ∈ xs, JsonLike v) : JsonLike (.arr xs)
  | obj {m : Obj} (hnodup : m.keys.Nodup) (h : ∀ p ∈ m, JsonLike p.2) : JsonLike (.obj m)

variable {m : Obj} {v : Value}

theorem get?_jsonObj (hnd : m.keys.Nodup) (k : String) : Props.get? (toJson.jsonObj m) k = (m.get? k).bind toJson := by
  induction m with
  | nil => rfl
  | cons p m ih =>
    obtain ⟨k', v⟩ := p
    rw [Props.keys, map_cons, nodup_cons] at hnd
    have hrest := ih hnd.2
    rw [toJson.jsonObj, Props.get?_cons]
    by_cases hk : k' = k
    · subst hk
      have hnone : Props.get? m k' = none := Props.get?_eq_none_iff.mpr hnd.1
      rw [hnone, bind_none] at hrest
      rw [if_pos rfl, bind_some]
      cases hv : v.toJson with
      | none => exact hrest
      | some w => rw [Props.get?_cons, if_pos rfl]
    · rw [if_neg hk]
      cases v.toJson with
      | none => exact hrest
      | some w =>
        dsimp only
        rw [Props.get?_cons, if_neg hk]
        exact hrest

theorem toJson_eq_none_iff : v.toJson = none ↔ v = .undefined := by
  cases v <;> simp [toJson]

/-- **JSON keeps the meaning of a JSON-like value.** -/
theorem same_toJson {w : Value} (h : JsonLike v) (hw : v.toJson = some w) : Same v w := by
  induction h generalizing w with
  | undefined => simp [toJson] at hw
  | null | bool | num | str =>
    cases hw
    rfl
  | @arr xs hdefined hlike ih =>
    obtain rfl := some.inj hw
    rw [same_arr_iff]
    clear hw
    induction xs with
    | nil => exact .nil
    | cons v vs ihs =>
      refine .cons ?_ (ihs (fun x hx => hdefined x (mem_cons_of_mem _ hx))
        (fun x hx => hlike x (mem_cons_of_mem _ hx)) fun x hx => ih x (mem_cons_of_mem _ hx))
      cases hv : v.toJson with
      | none => exact absurd (toJson_eq_none_iff.1 hv) (hdefined v mem_cons_self)
      | some w => exact ih v mem_cons_self hv
  | @obj m hnd _ ih =>
    cases hw
    rw [same_obj_iff, sameObj_iff]
    intro k
    rw [at_, at_, get?_jsonObj hnd]
    cases hk : m.get? k with
    | none => rfl
    | some v =>
      rw [bind_some, getD_some]
      cases hv : v.toJson with
      | none =>
        rw [toJson_eq_none_iff.1 hv]; rfl
      | some w => exact ih (k, v) (Props.mem_of_get? hk) hv

/-! ## Values without arrays -/

/-- There is no array in the value. -/
inductive ArrayFree : Value → Prop where
  | undefined : ArrayFree .undefined
  | null : ArrayFree .null
  | bool (b : Bool) : ArrayFree (.bool b)
  | num (q : Rat) : ArrayFree (.num q)
  | str (s : String) : ArrayFree (.str s)
  | obj {m : Obj} (h : ∀ k, ArrayFree (at_ m k)) : ArrayFree (.obj m)

/-- Structural equality tells the values without arrays. -/
theorem ArrayFree.of_same {a b : Value} (hb : ArrayFree b) (h : Same a b) : ArrayFree a := by
  induction hb generalizing a with
  | undefined => cases a <;> simp_all [Same, sem, ArrayFree.undefined]
  | null => cases a <;> simp_all [Same, sem, ArrayFree.null]
  | bool => cases a <;> simp_all [Same, sem, ArrayFree.bool]
  | num => cases a <;> simp_all [Same, sem, ArrayFree.num]
  | str => cases a <;> simp_all [Same, sem, ArrayFree.str]
  | obj _ ih =>
    cases a with
    | obj m' => exact .obj fun k => ih k (sameObj_iff.mp (same_obj_iff.mp h) k)
    | _ => simp [Same, sem] at h

/-! ## Comparing key by key -/

/-- The own properties of an object, and of an array. -/
def ownProps : Value → Option Obj
  | .obj m => some m
  | .arr xs => some (xs.zipIdx.map fun p => (toString p.2, p.1))
  | _ => none

/-- The names of the defined properties. -/
def definedKeys (m : Obj) : List String := m.keys.dedup.filter fun k => at_ m k ≠ .undefined

mutual
/-- `shapeEqual`: structural equality with undefined-valued keys ignored. -/
def shapeEqual : Value → Value → Bool
  | .obj m, b =>
    match b.ownProps with
    | none => false
    | some m' => (definedKeys m).length = (definedKeys m').length && shapeEqualProps m m'
  | .arr xs, b =>
    match b.ownProps with
    | none => false
    | some m' =>
      (xs.filter (· ≠ .undefined)).length = (definedKeys m').length && shapeEqualElems xs 0 m'
  | a, b => a = b

/-- `shapeEqual` on the properties of an object. -/
def shapeEqualProps : List (String × Value) → Obj → Bool
  | [], _ => true
  | (k, v) :: m, m' =>
    (v = .undefined || (m'.has k && shapeEqual v (at_ m' k))) && shapeEqualProps m m'

/-- `shapeEqual` on the elements of an array, from a position on. -/
def shapeEqualElems : List Value → Nat → Obj → Bool
  | [], _, _ => true
  | v :: vs, i, m' =>
    (v = .undefined || (m'.has (toString i) && shapeEqual v (at_ m' (toString i)))) && shapeEqualElems vs (i + 1) m'
end

attribute [local simp] shapeEqual shapeEqualProps shapeEqualElems ownProps

theorem shapeEqual_of_mem {m' : Obj} (h : shapeEqualProps m m' = true) {k : String}
    (hmem : (k, v) ∈ m) : v = .undefined ∨ shapeEqual v (at_ m' k) = true := by
  induction m with
  | nil => simp at hmem
  | cons p m ih =>
    obtain ⟨k', v'⟩ := p
    rw [shapeEqualProps, and_eq_true, or_eq_true, decide_eq_true_eq, and_eq_true] at h
    rcases mem_cons.mp hmem with heq | hmem
    · cases heq
      exact h.1.imp_right And.right
    · exact ih h.2 hmem

theorem mem_definedKeys {k : String} : k ∈ definedKeys m ↔ at_ m k ≠ .undefined := by
  rw [definedKeys, mem_filter, mem_dedup, decide_eq_true_eq]
  refine ⟨And.right, fun h => ⟨?_, h⟩⟩
  by_contra hk
  rw [← Props.get?_eq_none_iff] at hk
  exact h (by rw [at_, hk]; rfl)

theorem nodup_definedKeys (m : Obj) : (definedKeys m).Nodup := (nodup_dedup _).filter _

/-- Only `undefined` compares equal to `undefined`. -/
theorem eq_undefined_of_shapeEqual (h : shapeEqual v .undefined = true) : v = .undefined := by
  cases v <;> simp_all [shapeEqual, ownProps]

/-- Objects that compare equal have the same defined keys, and equal values under each. -/
theorem at_of_shapeEqual {m' : Obj} (h : shapeEqual (.obj m) (.obj m') = true) (k : String) :
    (at_ m k = .undefined ∧ at_ m' k = .undefined) ∨ shapeEqual (at_ m k) (at_ m' k) = true := by
  rw [shapeEqual, ownProps] at h
  simp only [and_eq_true, decide_eq_true_eq] at h
  obtain ⟨hcnt, hprops⟩ := h
  have heach : ∀ k, at_ m k ≠ .undefined → shapeEqual (at_ m k) (at_ m' k) = true := by
    intro k hk
    exact (shapeEqual_of_mem hprops (Props.mem_of_get? (get?_of_at rfl hk))).resolve_left hk
  -- every key defined here is defined there, and there are as many
  have hsub : definedKeys m ⊆ definedKeys m' := by
    intro k hk
    rw [mem_definedKeys] at hk ⊢
    intro hundef
    have hequal := heach k hk
    rw [hundef] at hequal
    exact hk (eq_undefined_of_shapeEqual hequal)
  have hperm := (subperm_of_subset (nodup_definedKeys m) hsub).perm_of_length_le (le_of_eq hcnt.symm)
  by_cases hk : at_ m k = .undefined
  · refine Or.inl ⟨hk, ?_⟩
    by_contra hne
    exact mem_definedKeys.1 (hperm.mem_iff.mpr (mem_definedKeys.2 hne)) hk
  · exact Or.inr (heach k hk)

/-- One-element arrays that compare equal have elements that do. -/
theorem shapeEqual_singleton {w : Value} (hv : v ≠ .undefined) (h : shapeEqual (.arr [v]) (.arr [w]) = true) : shapeEqual v w = true := by
  rw [shapeEqual, ownProps] at h
  simp only [and_eq_true, decide_eq_true_eq] at h
  have hzero : at_ ([w].zipIdx.map fun p => (toString p.2, p.1)) (toString 0) = w := by
    simp [at_, Props.get?_cons, zipIdx]
  have helems := h.2
  rw [shapeEqualElems, hzero, and_eq_true, or_eq_true, and_eq_true, decide_eq_true_eq] at helems
  exact (helems.1.resolve_left hv).2

/-- **On values without arrays, comparing key by key is sound.** -/
theorem same_of_shapeEqual {a b : Value} (ha : ArrayFree a) (hb : ArrayFree b) (h : shapeEqual a b = true) : Same a b := by
  induction ha generalizing b with
  | undefined | null | bool | num | str =>
    obtain rfl := of_decide_eq_true (show decide (_ = b) = true from h)
    rfl
  | @obj m _ ih =>
    cases hb with
    | undefined | null | bool | num | str => simp [shapeEqual, ownProps] at h
    | @obj m' hb =>
      rw [same_obj_iff, sameObj_iff]
      intro k
      rcases at_of_shapeEqual h k with ⟨hk, hk'⟩ | hk
      · rw [hk, hk']
      · exact ih k (hb k) hk

end Value

end Js
