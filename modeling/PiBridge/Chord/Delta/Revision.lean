import PiBridge.Chord.Same
import Mathlib.Data.List.Nodup
import Mathlib.Data.List.Perm.Subperm

/-!
# `Chord.Delta.Revision` — a value whose containers have an identity

Two revisions of one value share the containers that did not change, and `===` tells them by identity. A
`Revision` is a JSON value with a reference on each container; `Lives heap` says that references are
coherent, and that an object's keys are distinct. Then identical revisions are equal (`identical_eq`), and
`equalJson` is right although it trusts identity (`equalJson_sound`).
-/

namespace PiBridge.Chord

open Lib List Assoc Bool

inductive Revision where
  | null
  | bool (b : Bool)
  | num (q : Rat)
  | str (s : Text)
  | arr (ref : Nat) (xs : List Revision)
  | obj (ref : Nat) (m : List (Text × Revision))

namespace Revision

mutual
/-- The value, without identities. -/
def json : Revision → Json
  | .null => .null
  | .bool b => .bool b
  | .num q => .num q
  | .str s => .str s
  | .arr _ xs => .arr (jsonArr xs)
  | .obj _ m => .obj (jsonObj m)

def jsonArr : List Revision → List Json
  | [] => []
  | x :: xs => json x :: jsonArr xs

def jsonObj : List (Text × Revision) → List (Text × Json)
  | [] => []
  | (k, x) :: m => (k, json x) :: jsonObj m
end

mutual
/-- How deep containers are nested. -/
def depth : Revision → Nat
  | .arr _ xs => depthArr xs + 1
  | .obj _ m => depthObj m + 1
  | _ => 0

def depthArr : List Revision → Nat
  | [] => 0
  | x :: xs => max (depth x) (depthArr xs)

def depthObj : List (Text × Revision) → Nat
  | [] => 0
  | (_, x) :: m => max (depth x) (depthObj m)
end

/-- `===` -/
def identical : Revision → Revision → Bool
  | .null, .null => true
  | .bool a, .bool b => a == b
  | .num a, .num b => a == b
  | .str a, .str b => a == b
  | .arr a _, .arr b _ => a == b
  | .obj a _, .obj b _ => a == b
  | _, _ => false

mutual
/-- `equalJson` -/
def equalJson (left right : Revision) : Bool :=
  identical left right ||
    match left, right with
    | .arr _ xs, .arr _ ys => xs.length == ys.length && equalElements xs ys
    | .obj _ m, .obj _ m' => m.length == m'.length && equalProperties m m'
    | _, _ => false

def equalElements : List Revision → List Revision → Bool
  | x :: xs, y :: ys => equalJson x y && equalElements xs ys
  | _, _ => true

def equalProperties : List (Text × Revision) → List (Text × Revision) → Bool
  | [], _ => true
  | (k, x) :: m, other =>
    (match Assoc.get? other k with
      | some y => equalJson x y
      | none => false) && equalProperties m other
end

/-- `sameValue` -/
def sameValue (left right : Revision) : Bool := identical left right || equalJson left right

/-- The reference of a container names it in `heap`, and an object's keys are distinct. -/
inductive Lives (heap : Nat → Revision) : Revision → Prop
  | null : Lives heap .null
  | bool {b : Bool} : Lives heap (.bool b)
  | num {q : Rat} : Lives heap (.num q)
  | str {s : Text} : Lives heap (.str s)
  | arr {ref : Nat} {xs : List Revision} (href : heap ref = .arr ref xs) (hxs : ∀ x ∈ xs, Lives heap x) : Lives heap (.arr ref xs)
  | obj {ref : Nat} {m : List (Text × Revision)} (href : heap ref = .obj ref m) (hkeys : (m.map Prod.fst).Nodup)
      (hm : ∀ p ∈ m, Lives heap p.2) : Lives heap (.obj ref m)

/-! ## Elements and properties -/

attribute [local simp] json jsonArr jsonObj depth depthArr depthObj identical equalElements equalProperties

theorem jsonArr_eq (xs : List Revision) : jsonArr xs = xs.map json := by
  induction xs with
  | nil => rfl
  | cons x xs ih => rw [jsonArr, ih]; rfl

theorem get?_jsonObj (m : List (Text × Revision)) (k : Text) : Assoc.get? (jsonObj m) k = (Assoc.get? m k).map json := by
  induction m with
  | nil => rfl
  | cons p m ih =>
    simp only [jsonObj, get?]
    split
    · rfl
    · exact ih

@[simp] theorem json_arr (ref : Nat) (xs : List Revision) : (arr ref xs).json = .arr (xs.map json) := by
  rw [json, jsonArr_eq]

@[simp] theorem json_obj (ref : Nat) (m : List (Text × Revision)) : (obj ref m).json = .obj (jsonObj m) := by
  rw [json]

theorem depth_lt_arr {ref : Nat} {xs : List Revision} {x : Revision} (h : x ∈ xs) : x.depth < (arr ref xs).depth := by
  suffices hle : x.depth ≤ depthArr xs by
    rw [depth]
    omega
  induction xs with
  | nil => exact nomatch h
  | cons y xs ih =>
    simp only [depthArr]
    rcases mem_cons.mp h with rfl | h
    · exact Nat.le_max_left _ _
    · exact (ih h).trans (Nat.le_max_right _ _)

variable {m : List (Text × Revision)}

theorem depth_lt_obj {ref : Nat} {k : Text} {x : Revision} (h : Assoc.get? m k = some x) : x.depth < (obj ref m).depth := by
  suffices hle : x.depth ≤ depthObj m by
    rw [depth]
    omega
  induction m with
  | nil => exact nomatch h
  | cons p m ih =>
    simp only [get?] at h
    simp only [depthObj]
    split at h
    · cases h
      exact Nat.le_max_left _ _
    · exact (ih h).trans (Nat.le_max_right _ _)

/-! ## Identity and equality -/

variable {heap : Nat → Revision} {x y : Revision}

/-- Identical revisions are equal. -/
theorem identical_eq (hx : Lives heap x) (hy : Lives heap y) (h : identical x y = true) : x = y := by
  cases hx with
  | null | bool | num | str => cases hy <;> simp_all [identical]
  | arr href _ =>
    cases hy with
    | arr href' _ =>
      obtain rfl := eq_of_beq h
      exact href.symm.trans href'
    | _ => exact nomatch h
  | obj href _ _ =>
    cases hy with
    | obj href' _ _ =>
      obtain rfl := eq_of_beq h
      exact href.symm.trans href'
    | _ => exact nomatch h

theorem identical_iff (hx : Lives heap x) (hy : Lives heap y) : identical x y = true ↔ x = y := by
  refine ⟨identical_eq hx hy, ?_⟩
  rintro rfl
  cases x <;> simp [identical]

theorem equalElements_sound {xs ys : List Revision} (hlen : xs.length = ys.length)
    (h : equalElements xs ys = true)
    (ih : ∀ x ∈ xs, ∀ y ∈ ys, equalJson x y = true → Json.Same x.json y.json) :
    (xs.map json).map Json.sem = (ys.map json).map Json.sem := by
  induction xs generalizing ys with
  | nil =>
    cases ys with
    | nil => rfl
    | cons _ _ => exact nomatch hlen
  | cons x xs ihxs =>
    cases ys with
    | nil => exact nomatch hlen
    | cons y ys =>
      simp only [equalElements, and_eq_true] at h
      have hhead : x.json.sem = y.json.sem := ih x (by simp) y (by simp) h.1
      have htail := ihxs (by simpa using hlen) h.2
        (fun x hx y hy => ih x (mem_cons_of_mem _ hx) y (mem_cons_of_mem _ hy))
      simp only [map_cons, hhead, htail]

theorem equalProperties_spec {oth : List (Text × Revision)} (h : equalProperties m oth = true) :
    ∀ k x, (k, x) ∈ m → ∃ y, Assoc.get? oth k = some y ∧ equalJson x y = true := by
  induction m with
  | nil => exact nofun
  | cons p m ih =>
    intro k x hmem
    simp only [equalProperties, and_eq_true] at h
    rcases mem_cons.mp hmem with rfl | hmem
    · cases hget : get? oth k with
      | none => simp [hget] at h
      | some y => exact ⟨y, rfl, by simpa [hget] using h.1⟩
    · exact ih h.2 k x hmem

/-- Objects of one size, with distinct keys, of which one has the other's properties, have the same. -/
theorem equalProperties_sound {oth : List (Text × Revision)} (hlen : m.length = oth.length)
    (hkeys : (m.map Prod.fst).Nodup) (h : equalProperties m oth = true)
    (ih : ∀ k x y, Assoc.get? m k = some x → Assoc.get? oth k = some y → equalJson x y = true → Json.Same x.json y.json) :
    Json.Same (.obj (jsonObj m)) (.obj (jsonObj oth)) := by
  have hspec := equalProperties_spec h
  have hsub : m.map Prod.fst ⊆ oth.map Prod.fst := by
    intro k hk
    obtain ⟨⟨k, x⟩, hmem, rfl⟩ := mem_map.mp hk
    obtain ⟨y, hy, -⟩ := hspec k x hmem
    exact mem_map.mpr ⟨(k, y), mem_of_get? hy, rfl⟩
  have hperm : (m.map Prod.fst).Perm (oth.map Prod.fst) := (hkeys.subperm hsub).perm_of_length_le (by simp [hlen])
  apply Json.same_obj
  intro k
  rw [get?_jsonObj, get?_jsonObj]
  cases hm : get? m k with
  | none =>
    have hoth : get? oth k = none := by
      rw [get?_eq_none_iff] at hm ⊢
      exact fun hmem => hm (hperm.mem_iff.mpr hmem)
    rw [hoth]
  | some x =>
    obtain ⟨y, hy, hxy⟩ := hspec k x (mem_of_get? hm)
    rw [hy]
    have hsame : x.json.sem = y.json.sem := ih k x y hm hy hxy
    simp [hsame]

theorem equalJson_sound (hx : Lives heap x) (hy : Lives heap y) (h : equalJson x y = true) : Json.Same x.json y.json := by
  induction hn : x.depth using Nat.strong_induction_on generalizing x y with
  | h n ih =>
    subst hn
    unfold equalJson at h
    rw [or_eq_true] at h
    rcases h with hid | h
    · rw [identical_eq hx hy hid]
      rfl
    · cases hx with
      | @arr ref xs _ hxs =>
        cases hy with
        | @arr ref' ys _ hys =>
          rw [and_eq_true, beq_iff_eq] at h
          unfold Json.Same
          rw [json_arr, json_arr, Json.sem_arr, Json.sem_arr]
          congr 1
          exact equalElements_sound h.1 h.2 (fun x hx y hy hxy => ih x.depth (depth_lt_arr hx) (hxs x hx) (hys y hy) hxy rfl)
        | _ => exact nomatch h
      | @obj ref m _ hkeys hm =>
        cases hy with
        | @obj ref' m' _ _ hm' =>
          rw [and_eq_true, beq_iff_eq] at h
          rw [json_obj, json_obj]
          apply equalProperties_sound h.1 hkeys h.2
          intro k x y hkx hky hxy
          exact ih x.depth (depth_lt_obj hkx) (hm _ (mem_of_get? hkx)) (hm' _ (mem_of_get? hky)) hxy rfl
        | _ => exact nomatch h
      | _ => exact nomatch h

theorem sameValue_sound (hx : Lives heap x) (hy : Lives heap y) (h : sameValue x y = true) : Json.Same x.json y.json := by
  unfold sameValue at h
  rw [or_eq_true] at h
  rcases h with hid | h
  · rw [identical_eq hx hy hid]
    rfl
  · exact equalJson_sound hx hy h

end Revision

end PiBridge.Chord
