import Mathlib.Data.List.Basic

/-!
# `Lib.Assoc` — association lists as ordered maps

The entries of a map in insertion order. `set` overwrites in place or adds at the end, `erase` removes. The
laws are those of a map, and two about order: setting twice is setting once, and setting a key that is there
commutes with setting another.
-/

namespace Lib

open List

theorem mem_snoc {α : Type*} {a b : α} {l : List α} : a ∈ l ++ [b] ↔ a ∈ l ∨ a = b := by rw [mem_append, mem_singleton]

abbrev Assoc (κ ν : Type) := List (κ × ν)

namespace Assoc

variable {κ ν : Type} [DecidableEq κ]

/-- The value of a key. -/
def get? : Assoc κ ν → κ → Option ν
  | [], _ => none
  | (k', v) :: m, k => if k' = k then some v else get? m k

/-- Overwrite in place, or add at the end. -/
def set : Assoc κ ν → κ → ν → Assoc κ ν
  | [], k, v => [(k, v)]
  | (k', v') :: m, k, v => if k' = k then (k', v) :: m else (k', v') :: set m k v

def erase : Assoc κ ν → κ → Assoc κ ν
  | [], _ => []
  | (k', v') :: m, k => if k' = k then erase m k else (k', v') :: erase m k

attribute [local simp] get? set erase

variable {m : Assoc κ ν} {k k' : κ} {v v' : ν}

@[simp] theorem get?_nil : get? ([] : Assoc κ ν) k = none := rfl

@[simp] theorem get?_set_self (m : Assoc κ ν) (k : κ) (v : ν) : get? (set m k v) k = some v := by
  induction m with
  | nil => simp [set, get?]
  | cons p m ih =>
    unfold set
    split
    · rename_i h
      simp [get?, h]
    · rename_i h
      simp [get?, h, ih]

theorem get?_set_ne (m : Assoc κ ν) (v : ν) (h : k ≠ k') : get? (set m k v) k' = get? m k' := by
  induction m with
  | nil => simp [set, get?, h]
  | cons p m ih =>
    unfold set
    split
    · rename_i hk
      simp only [get?, hk, if_neg h]
    · simp only [get?, ih]

theorem get?_set (m : Assoc κ ν) (k k' : κ) (v : ν) : get? (set m k v) k' = if k = k' then some v else get? m k' := by
  by_cases h : k = k'
  · subst h
    simp
  · rw [get?_set_ne m v h, if_neg h]

@[simp] theorem set_set (m : Assoc κ ν) (k : κ) (v v' : ν) : set (set m k v) k v' = set m k v' := by
  induction m with
  | nil => simp [set]
  | cons p m ih =>
    by_cases h : p.1 = k
    · simp [set, h]
    · simp [set, h, ih]

/-- Setting a key to its own value changes nothing. -/
theorem set_get? (h : get? m k = some v) : set m k v = m := by
  induction m with
  | nil => exact nomatch h
  | cons p m ih =>
    simp only [get?] at h
    split at h
    · rename_i hk
      cases h
      simp only [set, hk, if_true]
      rw [← hk]
    · rename_i hk
      simp [set, hk, ih h]

/-- Setting a key that is there leaves the others where they are. -/
theorem set_comm (m : Assoc κ ν) (v v' : ν) (h : k ≠ k') (hmem : get? m k ≠ none) : set (set m k v) k' v' = set (set m k' v') k v := by
  induction m with
  | nil => exact absurd rfl hmem
  | cons p m ih =>
    obtain ⟨l, w⟩ := p
    by_cases hk : l = k
    · subst hk
      simp [set, h]
    · have hmem' : get? m k ≠ none := by simpa [get?, hk] using hmem
      by_cases hk' : l = k'
      · simp [set, hk', Ne.symm h]
      · simp [set, hk, hk', ih hmem']

@[simp] theorem get?_erase_self (m : Assoc κ ν) (k : κ) : get? (erase m k) k = none := by
  induction m with
  | nil => rfl
  | cons p m ih =>
    unfold erase
    split
    · exact ih
    · rename_i h
      simp [get?, h, ih]

theorem get?_erase_ne (m : Assoc κ ν) (h : k ≠ k') : get? (erase m k) k' = get? m k' := by
  induction m with
  | nil => rfl
  | cons p m ih =>
    unfold erase
    split
    · rename_i hk
      rw [ih]
      simp [get?, hk, h]
    · simp only [get?, ih]

theorem mem_of_get? (h : get? m k = some v) : (k, v) ∈ m := by
  induction m with
  | nil => exact nomatch h
  | cons p m ih =>
    simp only [get?] at h
    split at h
    · rename_i hk
      cases h
      simp [← hk]
    · exact mem_cons_of_mem _ (ih h)

theorem mem_set {p : κ × ν} (h : p ∈ set m k v) : p ∈ m ∨ p = (k, v) := by
  induction m with
  | nil => exact .inr (mem_singleton.mp h)
  | cons q m ih =>
    unfold set at h
    split at h
    · rename_i hkey
      rcases mem_cons.mp h with rfl | h
      · exact .inr (hkey ▸ rfl)
      · exact .inl (mem_cons_of_mem _ h)
    · rcases mem_cons.mp h with rfl | h
      · exact .inl mem_cons_self
      · exact (ih h).imp_left (mem_cons_of_mem _)

theorem get?_of_mem (hkeys : (m.map Prod.fst).Nodup) (h : (k, v) ∈ m) : get? m k = some v := by
  induction m with
  | nil => exact nomatch h
  | cons p m ih =>
    rw [map_cons, nodup_cons] at hkeys
    rcases mem_cons.mp h with rfl | h
    · simp [get?]
    · have hne : p.1 ≠ k := fun heq => hkeys.1 (mem_map.mpr ⟨(k, v), h, heq.symm⟩)
      simp only [get?, if_neg hne]
      exact ih hkeys.2 h

theorem get?_eq_none_iff : get? m k = none ↔ k ∉ m.map Prod.fst := by
  induction m with
  | nil => simp
  | cons p m ih =>
    simp only [get?, map_cons, mem_cons, not_or]
    split
    · rename_i hk
      simp [hk]
    · rename_i hk
      exact ih.trans ⟨fun h => ⟨fun heq => hk heq.symm, h⟩, fun h => h.2⟩

/-- A key that is not there is added at the end. -/
theorem set_eq_append (v : ν) (h : k ∉ m.map Prod.fst) : set m k v = m ++ [(k, v)] := by
  induction m with
  | nil => rfl
  | cons p m ih =>
    rw [map_cons, mem_cons, not_or] at h
    unfold set
    rw [if_neg (Ne.symm h.1), ih h.2]
    rfl

/-- Overwriting keeps the keys; a new key comes last. -/
theorem keys_set (m : Assoc κ ν) (k : κ) (v : ν) :
    (set m k v).map Prod.fst = if k ∈ m.map Prod.fst then m.map Prod.fst else m.map Prod.fst ++ [k] := by
  induction m with
  | nil => rfl
  | cons p m ih =>
    unfold set
    split
    · rename_i hk
      simp [hk]
    · rename_i hk
      rw [map_cons, ih, map_cons]
      by_cases hmem : k ∈ m.map Prod.fst
      · rw [if_pos hmem, if_pos (mem_cons_of_mem _ hmem)]
      · have hne : k ∉ p.1 :: m.map Prod.fst := by
          rw [mem_cons, not_or]
          exact ⟨Ne.symm hk, hmem⟩
        rw [if_neg hmem, if_neg hne, cons_append]

theorem nodup_keys_set (h : (m.map Prod.fst).Nodup) (k : κ) (v : ν) : ((set m k v).map Prod.fst).Nodup := by
  rw [keys_set]
  split
  · exact h
  · rename_i hmem
    rw [nodup_append]
    exact ⟨h, by simp, fun a ha b hb => by
      obtain rfl := mem_singleton.mp hb
      exact fun heq => hmem (heq ▸ ha)⟩

theorem erase_eq_filter (m : Assoc κ ν) (k : κ) : erase m k = m.filter fun p => p.1 ≠ k := by
  induction m with
  | nil => rfl
  | cons p m ih =>
    unfold erase
    split
    · rename_i hk
      rw [ih, filter_cons_of_neg (by simpa using hk)]
    · rename_i hk
      rw [ih, filter_cons_of_pos (by simpa using hk)]

theorem erase_sublist (m : Assoc κ ν) (k : κ) : (erase m k).Sublist m := by
  rw [erase_eq_filter]
  exact filter_sublist

/-- Taking a key out takes its one entry out. -/
theorem erase_perm (hkeys : (m.map Prod.fst).Nodup) (h : get? m k = some v) : (erase m k ++ [(k, v)]).Perm m := by
  induction m with
  | nil => exact nomatch h
  | cons p m ih =>
    rw [map_cons, nodup_cons] at hkeys
    unfold erase
    split
    · rename_i hk
      have hfst : p = (k, v) := by
        simp only [get?, hk, if_true, Option.some.injEq] at h
        exact Prod.ext hk h
      have hnone : erase m k = m := by
        rw [erase_eq_filter, filter_eq_self]
        intro q hq
        exact decide_eq_true fun heq => hkeys.1 (mem_map.mpr ⟨q, hq, heq.trans hk.symm⟩)
      rw [hnone, hfst]
      exact perm_append_singleton _ _
    · rename_i hk
      simp only [get?, if_neg hk] at h
      exact (ih hkeys.2 h).cons _

section MapValues

variable {μ : Type}

/-- The same keys, with other values. -/
def mapValues (f : ν → μ) (m : Assoc κ ν) : Assoc κ μ := m.map fun p => (p.1, f p.2)

variable (f : ν → μ)

theorem get?_mapValues (m : Assoc κ ν) (k : κ) : get? (mapValues f m) k = (get? m k).map f := by
  induction m with
  | nil => rfl
  | cons p m ih =>
    by_cases h : p.1 = k
    · simp [mapValues, get?, h]
    · rw [mapValues, map_cons, get?, get?, if_neg h, if_neg h, ← ih, mapValues]

theorem set_mapValues (m : Assoc κ ν) (k : κ) (v : ν) : set (mapValues f m) k (f v) = mapValues f (set m k v) := by
  induction m with
  | nil => rfl
  | cons p m ih =>
    by_cases h : p.1 = k
    · simp [mapValues, set, h]
    · rw [mapValues, map_cons, set, set, if_neg h, if_neg h, mapValues, map_cons, ← mapValues, ← mapValues, ih]

theorem erase_mapValues (m : Assoc κ ν) (k : κ) : erase (mapValues f m) k = mapValues f (erase m k) := by
  induction m with
  | nil => rfl
  | cons p m ih =>
    by_cases h : p.1 = k
    · rw [mapValues, map_cons, erase, erase, if_pos h, if_pos h, ← ih, mapValues]
    · rw [mapValues, map_cons, erase, erase, if_neg h, if_neg h, mapValues, map_cons, ← mapValues, ← mapValues, ih]

/-- A key that is there stands in one place, which `set` overwrites. -/
theorem split_of_get? {m : Assoc κ ν} {k : κ} {v : ν} (h : get? m k = some v) :
    ∃ bef aft, m = bef ++ (k, v) :: aft ∧ ∀ w, set m k w = bef ++ (k, w) :: aft := by
  induction m with
  | nil => cases h
  | cons p m ih =>
    by_cases hp : p.1 = k
    · rw [get?, if_pos hp] at h
      cases h
      obtain ⟨l, w⟩ := p
      obtain rfl : l = k := hp
      exact ⟨[], m, rfl, fun w' => by simp [set]⟩
    · rw [get?, if_neg hp] at h
      obtain ⟨bef, aft, rfl, hset⟩ := ih h
      exact ⟨p :: bef, aft, rfl, fun w => by rw [set, if_neg hp, hset w, cons_append]⟩

end MapValues

end Assoc

end Lib
