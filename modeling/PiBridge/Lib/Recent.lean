import PiBridge.Lib.Assoc

/-!
# `Lib.Recent` — maps that keep the most recently used keys

An insertion-ordered map whose last key is the one that was used last. Using a key puts it last; a key more than the
capacity pushes the first one out. So a map holds what was put there, and nothing else (`mem_use`, `mem_put`).

A map from keys to when they were used last, with uses in the order of time, is sorted by it (`Timely`), and what has
not been used for long comes first (`Timely.split`).
-/

namespace Lib

open List Assoc

namespace Recent

variable {κ ν : Type} [DecidableEq κ]

/-- The value of a key, and the map with the key as the most recently used. -/
def use (m : Assoc κ ν) (k : κ) : Option ν × Assoc κ ν :=
  match Assoc.get? m k with
  | none => (none, m)
  | some v => (some v, Assoc.set (Assoc.erase m k) k v)

/-- A key as the most recently used; beyond the capacity the least recently used leaves. -/
def put (capacity : Nat) (m : Assoc κ ν) (k : κ) (v : ν) : Assoc κ ν :=
  let m := Assoc.set (Assoc.erase m k) k v
  if capacity < m.length then m.tail else m

variable {m : Assoc κ ν} {k : κ} {v : ν} {p : κ × ν}

theorem mem_erase (h : p ∈ Assoc.erase m k) : p ∈ m ∧ p.1 ≠ k := by
  rw [erase_eq_filter] at h
  obtain ⟨hmem, hne⟩ := mem_filter.mp h
  exact ⟨hmem, of_decide_eq_true hne⟩

theorem set_erase (m : Assoc κ ν) (k : κ) (v : ν) : Assoc.set (Assoc.erase m k) k v = Assoc.erase m k ++ [(k, v)] := by
  refine set_eq_append v fun hmem => ?_
  obtain ⟨p, hp, hk⟩ := mem_map.mp hmem
  exact (mem_erase hp).2 hk

theorem use_fst (m : Assoc κ ν) (k : κ) : (use m k).1 = Assoc.get? m k := by
  unfold use
  split
  · rename_i h
    exact h.symm
  · rename_i h
    exact h.symm

/-- **Using a key changes the order only.** -/
theorem mem_use (h : p ∈ (use m k).2) : p ∈ m := by
  unfold use at h
  split at h
  · exact h
  · rename_i v hget
    rw [set_erase] at h
    rcases mem_snoc.mp h with hold | rfl
    · exact (mem_erase hold).1
    · exact mem_of_get? hget

/-- **What is put is there, and what else is there was.** -/
theorem mem_put {capacity : Nat} (h : p ∈ put capacity m k v) : p = (k, v) ∨ p ∈ m ∧ p.1 ≠ k := by
  have hmem : p ∈ set (erase m k) k v := by
    unfold put at h
    dsimp only at h
    split at h
    · exact mem_of_mem_tail h
    · exact h
  rw [set_erase] at hmem
  rcases mem_append.mp hmem with hold | hnew
  · exact Or.inr (mem_erase hold)
  · exact Or.inl (mem_singleton.mp hnew)

/-! ## By time -/

/-- A use of a key at a time: the key goes last with it, unless it did within the granule. -/
def touch (granule now : Int) (m : Assoc κ Int) (k : κ) : Assoc κ Int :=
  match Assoc.get? m k with
  | some since => if now - since < granule then m else Assoc.erase m k ++ [(k, now)]
  | none => Assoc.erase m k ++ [(k, now)]

/-- Each key once, in the order of their times, none of which is yet to come. -/
structure Timely (now : Int) (m : Assoc κ Int) : Prop where
  nodup : (m.map Prod.fst).Nodup
  sorted : m.Pairwise fun p q => p.2 ≤ q.2
  past : ∀ p ∈ m, p.2 ≤ now

variable {granule now now' limit : Int} {m : Assoc κ Int} {k : κ}

omit [DecidableEq κ] in
theorem Timely.nil (now : Int) : Timely now ([] : Assoc κ Int) := ⟨nodup_nil, Pairwise.nil, fun _ h => by cases h⟩

omit [DecidableEq κ] in
theorem Timely.mono (h : Timely now m) (hle : now ≤ now') : Timely now' m := ⟨h.nodup, h.sorted, fun p hp => Int.le_trans (h.past p hp) hle⟩

omit [DecidableEq κ] in
theorem Timely.sublist {m' : Assoc κ Int} (h : Timely now m) (hsub : m'.Sublist m) : Timely now m' :=
  ⟨h.nodup.sublist (hsub.map Prod.fst), h.sorted.sublist hsub, fun p hp => h.past p (hsub.subset hp)⟩

theorem Timely.erase (h : Timely now m) (k : κ) : Timely now (Assoc.erase m k) := h.sublist (erase_sublist m k)

theorem Timely.moved (h : Timely now m) (k : κ) : Timely now (Assoc.erase m k ++ [(k, now)]) := by
  have herased := h.erase k
  refine ⟨?_, ?_, fun p hp => ?_⟩
  · rw [map_append, nodup_append]
    refine ⟨herased.nodup, pairwise_singleton _ _, fun a ha b hb heq => ?_⟩
    obtain ⟨p, hp, rfl⟩ := mem_map.mp ha
    exact (mem_erase hp).2 (heq.trans (mem_singleton.mp hb))
  · rw [pairwise_append]
    refine ⟨herased.sorted, pairwise_singleton _ _, fun p hp q hq => ?_⟩
    obtain rfl := mem_singleton.mp hq
    exact herased.past p hp
  · rcases mem_snoc.mp hp with hp | rfl
    · exact herased.past p hp
    · exact Int.le_refl _

theorem Timely.touch (h : Timely now m) (granule : Int) (k : κ) : Timely now (touch granule now m k) := by
  unfold Recent.touch
  split
  · split
    · exact h
    · exact h.moved k
  · exact h.moved k

theorem mem_keys_erase {k' : κ} : k' ∈ (Assoc.erase m k).map Prod.fst ↔ k' ≠ k ∧ k' ∈ m.map Prod.fst := by
  rw [erase_eq_filter]
  constructor
  · intro h
    obtain ⟨p, hp, rfl⟩ := mem_map.mp h
    obtain ⟨hmem, hne⟩ := mem_filter.mp hp
    exact ⟨of_decide_eq_true hne, mem_map_of_mem hmem⟩
  · rintro ⟨hne, h⟩
    obtain ⟨p, hp, rfl⟩ := mem_map.mp h
    exact mem_map_of_mem (mem_filter.mpr ⟨hp, decide_eq_true hne⟩)

/-- **A use adds its key.** -/
theorem mem_keys_touch {k' : κ} : k' ∈ (touch granule now m k).map Prod.fst ↔ k' = k ∨ k' ∈ m.map Prod.fst := by
  have hmoved : k' ∈ (erase m k ++ [(k, now)]).map Prod.fst ↔ k' = k ∨ k' ∈ m.map Prod.fst := by
    rw [map_append, mem_append, mem_keys_erase, map_singleton, mem_singleton]
    by_cases heq : k' = k <;> simp [heq]
  unfold touch
  split
  · rename_i snc hget
    split
    · constructor
      · exact Or.inr
      · rintro (rfl | h)
        · exact mem_map_of_mem (mem_of_get? hget)
        · exact h
    · exact hmoved
  · exact hmoved

omit [DecidableEq κ] in
/-- **What is at most a limit comes first.** -/
theorem Timely.split (h : Timely now m) (limit : Int) :
    m.takeWhile (fun p => decide (p.2 ≤ limit)) = m.filter (fun p => decide (p.2 ≤ limit)) ∧
      m.dropWhile (fun p => decide (p.2 ≤ limit)) = m.filter fun p => decide (limit < p.2) := by
  have hsrt := h.sorted
  clear h
  induction m with
  | nil => exact ⟨rfl, rfl⟩
  | cons p m ih =>
    obtain ⟨hfst, hrest⟩ := pairwise_cons.mp hsrt
    obtain ⟨htake, hdrop⟩ := ih hrest
    by_cases hp : p.2 ≤ limit
    · have hnot : ¬limit < p.2 := Int.not_lt.mpr hp
      simp [hp, hnot, htake, hdrop]
    · -- everything behind it is as recent
      have haft : ∀ q ∈ m, limit < q.2 := fun q hq => Int.lt_of_lt_of_le (Int.not_le.mp hp) (hfst q hq)
      have hnone : m.filter (fun p => decide (p.2 ≤ limit)) = [] := filter_eq_nil_iff.mpr fun q hq => by simpa using haft q hq
      have hall : m.filter (fun p => decide (limit < p.2)) = m := filter_eq_self.mpr fun q hq => decide_eq_true (haft q hq)
      simp [hp, Int.not_le.mp hp, hnone, hall]

end Recent

end Lib
