import Mathlib.Data.Rat.Defs
import PiBridge.Js.Props

/-!
# `Js.Value` — dynamically typed values and structural equality

`Value` is what a JavaScript program holds where its types say `unknown`: JSON, plus `undefined` (an array
hole reads as `undefined` too). Numbers are the finite ones, kept exactly.

Two notions of equality are used. Plain `=` also fixes the enumeration order of properties and the
presence of `undefined`-valued ones. **Structural equality** `Same` forgets both: it is equality of the
meaning `sem`, in which an object is just the partial function from keys to defined values. Being an
equality of meanings it is an equivalence by construction, and a congruence for every operation whose
effect on meanings is determined (`sem_obj_set`).
-/

namespace Js

/-- A dynamically typed value. -/
inductive Value where
  | undefined
  | null
  | bool (b : Bool)
  | num (q : Rat)
  | str (s : String)
  | arr (xs : List Value)
  | obj (m : List (String × Value))
deriving Repr, Inhabited

/-- An object's own properties. -/
abbrev Obj := Props Value

/-- What a value means up to property order and `undefined`-valued properties. -/
inductive Sem where
  | undefined
  | null
  | bool (b : Bool)
  | num (q : Rat)
  | str (s : String)
  | arr (xs : List Sem)
  | obj (f : String → Option Sem)

namespace Value

/-! ## Decidable equality -/

mutual
/-- Equality of values is decidable, by recursion on the first. -/
def decEq : (a b : Value) → Decidable (a = b)
  | .undefined, b => by cases b <;> first | exact isTrue rfl | exact isFalse (by simp)
  | .null, b => by cases b <;> first | exact isTrue rfl | exact isFalse (by simp)
  | .bool x, b => match b with
    | .bool y => decidable_of_iff (x = y) (by simp)
    | .undefined | .null | .num _ | .str _ | .arr _ | .obj _ => isFalse (by simp)
  | .num x, b => match b with
    | .num y => decidable_of_iff (x = y) (by simp)
    | .undefined | .null | .bool _ | .str _ | .arr _ | .obj _ => isFalse (by simp)
  | .str x, b => match b with
    | .str y => decidable_of_iff (x = y) (by simp)
    | .undefined | .null | .bool _ | .num _ | .arr _ | .obj _ => isFalse (by simp)
  | .arr x, b => match b with
    | .arr y => @decidable_of_iff _ (x = y) (by simp) (decEqArr x y)
    | .undefined | .null | .bool _ | .num _ | .str _ | .obj _ => isFalse (by simp)
  | .obj x, b => match b with
    | .obj y => @decidable_of_iff _ (x = y) (by simp) (decEqObj x y)
    | .undefined | .null | .bool _ | .num _ | .str _ | .arr _ => isFalse (by simp)

/-- `decEq` on array elements. -/
def decEqArr : (a b : List Value) → Decidable (a = b)
  | [], b => match b with
    | [] => isTrue rfl
    | _ :: _ => isFalse (by simp)
  | x :: xs, b => match b with
    | [] => isFalse (by simp)
    | y :: ys => @decidable_of_iff _ (x = y ∧ xs = ys) (by simp)
        (@instDecidableAnd _ _ (decEq x y) (decEqArr xs ys))

/-- `decEq` on object properties. -/
def decEqObj : (a b : List (String × Value)) → Decidable (a = b)
  | [], b => match b with
    | [] => isTrue rfl
    | _ :: _ => isFalse (by simp)
  | (k, x) :: xs, b => match b with
    | [] => isFalse (by simp)
    | (l, y) :: ys => @decidable_of_iff _ (k = l ∧ x = y ∧ xs = ys) (by simp [and_assoc])
        (@instDecidableAnd _ _ _ (@instDecidableAnd _ _ (decEq x y) (decEqObj xs ys)))
end

instance : DecidableEq Value := decEq

/-! ## Reading -/

/-- `m[k]`: the property, or `undefined`. -/
def at_ (m : Obj) (k : String) : Value := (m.get? k).getD .undefined

/-- `v[k]` on an object (any other value here has no such property). -/
def get (v : Value) (k : String) : Value :=
  match v with
  | .obj m => at_ m k
  | _ => .undefined

/-- `v ?? d`. -/
def orElse (v d : Value) : Value :=
  match v with
  | .undefined | .null => d
  | v => v

/-- `v == null`: `undefined` or `null`. -/
def isNullish : Value → Bool
  | .undefined | .null => true
  | _ => false

/-- `Boolean(v)`. -/
def truthy : Value → Bool
  | .undefined | .null => false
  | .bool b => b
  | .num q => q ≠ 0
  | .str s => s ≠ ""
  | .arr _ | .obj _ => true

/-- A value read where the types promise a string or `null`. -/
def asStr? : Value → Option String
  | .str s => some s
  | _ => none

/-- A value read where the types promise a number. -/
def asNum : Value → Rat
  | .num q => q
  | _ => 0

/-- The elements of an array, or none of anything else. -/
def asArr : Value → List Value
  | .arr xs => xs
  | _ => []

/-- The properties of an object, or none of anything else. -/
def asObj : Value → Obj
  | .obj m => m
  | _ => []

/-- `JSON.stringify(v)` read back: `undefined` is dropped from objects and becomes `null` in arrays; a
bare `undefined` has no text. -/
def toJson : Value → Option Value
  | .undefined => none
  | .null => some .null
  | .bool b => some (.bool b)
  | .num q => some (.num q)
  | .str s => some (.str s)
  | .arr xs => some (.arr (jsonArr xs))
  | .obj m => some (.obj (jsonObj m))
where
  /-- `toJson` on array elements. -/
  jsonArr : List Value → List Value
    | [] => []
    | v :: vs => v.toJson.getD .null :: jsonArr vs
  /-- `toJson` on object properties. -/
  jsonObj : List (String × Value) → List (String × Value)
    | [] => []
    | (k, v) :: m =>
      match v.toJson with
      | none => jsonObj m
      | some w => (k, w) :: jsonObj m

variable (m : Obj)

@[simp] theorem get_obj (k : String) : get (.obj m) k = at_ m k := rfl
@[simp] theorem asObj_obj : asObj (.obj m) = m := rfl
@[simp] theorem asArr_arr (xs : List Value) : asArr (.arr xs) = xs := rfl
@[simp] theorem asStr?_str (s : String) : asStr? (.str s) = some s := rfl
@[simp] theorem asStr?_null : asStr? .null = none := rfl
@[simp] theorem asStr?_undefined : asStr? .undefined = none := rfl

variable {k : String} {v a b : Value}

theorem at_of_get? {m : Obj} (h : m.get? k = some v) : at_ m k = v := by
  simp [at_, h]

theorem get?_of_at {m : Obj} (h : at_ m k = v) (hv : v ≠ .undefined) : m.get? k = some v := by
  unfold at_ at h
  cases hm : m.get? k with
  | none => rw [hm] at h; exact absurd h.symm hv
  | some w => rw [hm] at h; exact congrArg some h

@[simp] theorem at_nil (k : String) : at_ [] k = .undefined := rfl
@[simp] theorem at_set_self (k : String) (v : Value) : at_ (m.set k v) k = v := by
  simp [at_]
theorem at_set_ne {k' : String} (v : Value) (h : k ≠ k') : at_ (m.set k v) k' = at_ m k' := by
  simp [at_, Props.get?_set_ne m v h]
theorem at_set (k k' : String) (v : Value) : at_ (m.set k v) k' = if k = k' then v else at_ m k' := by
  by_cases h : k = k'
  · subst h; simp
  · simp [at_set_ne m v h, h]
@[simp] theorem at_erase_self (k : String) : at_ (m.erase k) k = .undefined := by simp [at_]
theorem at_erase_ne {k' : String} (h : k ≠ k') : at_ (m.erase k) k' = at_ m k' := by
  simp [at_, Props.get?_erase_ne m h]

/-! ## Meaning -/

mutual
/-- The meaning of a value. -/
def sem : Value → Sem
  | .undefined => .undefined
  | .null => .null
  | .bool b => .bool b
  | .num q => .num q
  | .str s => .str s
  | .arr xs => .arr (semArr xs)
  | .obj m => .obj (semObj m)

/-- The meanings of array elements. -/
def semArr : List Value → List Sem
  | [] => []
  | v :: vs => sem v :: semArr vs

/-- The meaning of an object: its defined properties. -/
def semObj : List (String × Value) → String → Option Sem
  | [], _ => none
  | (k, v) :: m, key => if k = key then semProp v else semObj m key

/-- The meaning of a property value: an `undefined` one is as good as absent. -/
def semProp : Value → Option Sem
  | .undefined => none
  | .null => some .null
  | .bool b => some (.bool b)
  | .num q => some (.num q)
  | .str s => some (.str s)
  | .arr xs => some (.arr (semArr xs))
  | .obj m => some (.obj (semObj m))
end

attribute [local simp] sem semArr semObj semProp

/-- Structural equality: same meaning. -/
def Same (a b : Value) : Prop := a.sem = b.sem

/-- Structural equality of property maps. -/
def SameObj (a b : Obj) : Prop := semObj a = semObj b

@[refl] theorem Same.refl (a : Value) : Same a a := rfl
@[symm] theorem Same.symm (h : Same a b) : Same b a := Eq.symm h
@[trans] theorem Same.trans {c : Value} (h : Same a b) (h' : Same b c) : Same a c := Eq.trans h h'

theorem semProp_of_ne (h : v ≠ .undefined) : semProp v = some v.sem := by
  cases v <;> simp_all [semProp, sem]

theorem semObj_eq (k : String) : semObj m k = (m.get? k).bind semProp := by
  induction m with
  | nil => rfl
  | cons p m ih =>
    rw [Props.get?_cons, semObj]
    by_cases h : p.1 = k <;> simp [h, ih]

/-- Two property values of one meaning are both `undefined` or mean the same value. -/
theorem semProp_eq_iff : semProp a = semProp b ↔ Same a b := by
  unfold Same
  by_cases ha : a = .undefined <;> by_cases hb : b = .undefined
  · simp [ha, hb]
  · subst ha; rw [semProp_of_ne hb]; cases b <;> simp_all [semProp, sem]
  · subst hb; rw [semProp_of_ne ha]; cases a <;> simp_all [semProp, sem]
  · rw [semProp_of_ne ha, semProp_of_ne hb, Option.some.injEq]

/-- **Objects are structurally equal when each property is.** -/
theorem sameObj_iff {a b : Obj} : SameObj a b ↔ ∀ k, Same (at_ a k) (at_ b k) := by
  unfold SameObj
  rw [funext_iff]
  refine forall_congr' fun k => ?_
  rw [← semProp_eq_iff, semObj_eq, semObj_eq]
  unfold at_
  cases a.get? k <;> cases b.get? k <;> simp [semProp]

theorem same_obj_iff {a b : Obj} : Same (.obj a) (.obj b) ↔ SameObj a b := by
  simp [Same, sem, SameObj]

theorem semArr_eq_iff {a b : List Value} : semArr a = semArr b ↔ List.Forall₂ Same a b := by
  induction a generalizing b with
  | nil => cases b with
    | nil => simp [semArr]
    | cons y ys => simp only [semArr, reduceCtorEq, false_iff]; rintro ⟨⟩
  | cons x xs ih => cases b with
    | nil => simp only [semArr, reduceCtorEq, false_iff]; rintro ⟨⟩
    | cons y ys =>
      rw [semArr, semArr, List.cons.injEq, List.forall₂_cons, ih]
      exact Iff.rfl

theorem same_arr_iff {a b : List Value} : Same (.arr a) (.arr b) ↔ List.Forall₂ Same a b := by
  rw [← semArr_eq_iff]; simp [Same, sem]

/-- A string property of one is a string property of the other. -/
theorem SameObj.at_str {a b : Obj} (h : SameObj a b) {s : String} (ha : at_ a k = .str s) : at_ b k = .str s := by
  have hk := sameObj_iff.1 h k
  rw [ha] at hk
  cases hb : at_ b k <;> simp_all [Same, sem]

/-- A property whose value is `undefined` is as good as absent. -/
example : Same (.obj [("a", .num 1), ("b", .undefined)]) (.obj [("a", .num 1)]) := by
  rw [same_obj_iff, sameObj_iff]
  intro k
  by_cases ha : "a" = k <;> by_cases hb : "b" = k <;> simp [at_, Props.get?_cons, ha, hb, Same]

end Value

end Js
