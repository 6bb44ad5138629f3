import Mathlib.Data.List.Sort

/-!
# `Lib.Positions` — selecting and removing the elements of a list by position

A loop that computes the positions of the elements it wants, reads them in ascending order and removes them in descending
order, reads and leaves the elements it wants and the others, in order. `key` tells the elements of a list apart.
-/

namespace Lib

open List

variable {α κ : Type}

/-- The positions of the elements a test accepts, ascending. -/
def positions (p : α → Bool) (xs : List α) : List Nat := (xs.zipIdx.filter fun x => p x.1).map Prod.snd

/-- The elements at some positions, in their order. -/
def atPositions (xs : List α) (is : List Nat) : List α := is.filterMap fun i => xs[i]?

/-- Remove the elements at some positions, one after another. -/
def eraseAt (xs : List α) (is : List Nat) : List α := is.foldl List.eraseIdx xs

@[simp] theorem atPositions_append (xs : List α) (is js : List Nat) : atPositions xs (is ++ js) = atPositions xs is ++ atPositions xs js :=
  filterMap_append ..

variable {xs : List α} {is : List Nat}

theorem mem_atPositions {x : α} : x ∈ atPositions xs is ↔ ∃ i ∈ is, xs[i]? = some x := mem_filterMap

theorem lt_of_mem_positions {p : α → Bool} {i : Nat} (h : i ∈ positions p xs) : ∃ x, xs[i]? = some x ∧ p x = true := by
  obtain ⟨⟨x, j⟩, hx, rfl⟩ := mem_map.mp h
  obtain ⟨hmem, hp⟩ := mem_filter.mp hx
  exact ⟨x, mem_zipIdx_iff_getElem?.mp hmem, hp⟩

theorem mem_positions {p : α → Bool} {i : Nat} {x : α} (hx : xs[i]? = some x) : i ∈ positions p xs ↔ p x = true := by
  constructor
  · intro h
    obtain ⟨y, hy, hp⟩ := lt_of_mem_positions h
    rw [hx] at hy
    exact Option.some.inj hy ▸ hp
  · exact fun hp => mem_map.mpr ⟨(x, i), mem_filter.mpr ⟨mem_zipIdx_iff_getElem?.mpr hx, hp⟩, rfl⟩

theorem positions_sorted (p : α → Bool) (xs : List α) : (positions p xs).Pairwise (· < ·) := by
  have hall : (xs.zipIdx.map Prod.snd).Pairwise (· < ·) := by
    rw [zipIdx_map_snd]
    exact pairwise_lt_range' 1
  exact hall.sublist (filter_sublist.map _)

theorem atPositions_positions (p : α → Bool) (xs : List α) : atPositions xs (positions p xs) = xs.filter p := by
  unfold atPositions positions
  rw [filterMap_map]
  have hread : ∀ x ∈ xs.zipIdx.filter fun x => p x.1, ((fun i => xs[i]?) ∘ Prod.snd) x = some x.1 := by
    intro x hx
    exact mem_zipIdx_iff_getElem?.mp (mem_filter.mp hx).1
  have hfst : (xs.zipIdx.filter fun x => p x.1).map Prod.fst = (xs.zipIdx.map Prod.fst).filter p := filter_map.symm
  rw [filterMap_congr hread, filterMap_eq_map', hfst, zipIdx_map_fst]

theorem atPositions_take (h : ∀ i ∈ is, (xs[i]?).isSome = true) (n : Nat) : atPositions xs (is.take n) = (atPositions xs is).take n := by
  induction is generalizing n with
  | nil => simp [atPositions]
  | cons i is ih =>
    cases n with
    | zero => rfl
    | succ n =>
      obtain ⟨x, hx⟩ := Option.isSome_iff_exists.mp (h i (.head _))
      have hrest := ih (fun j hj => h j (.tail _ hj)) n
      unfold atPositions at hrest ⊢
      rw [take_succ_cons, filterMap_cons, filterMap_cons, hx, take_succ_cons, hrest]

/-- Elements read at ascending positions are a part of the list. -/
theorem atPositions_sublist (h : is.Pairwise (· < ·)) : (atPositions xs is).Sublist xs := by
  have hfrom : ∀ (is : List Nat) (k : Nat), is.Pairwise (· < ·) → (∀ i ∈ is, k ≤ i) → (atPositions xs is).Sublist (xs.drop k) := by
    intro is
    induction is with
    | nil => exact fun _ _ _ => nil_sublist _
    | cons i is ih =>
      intro k hsrt hk
      rw [pairwise_cons] at hsrt
      have hrest := ih (i + 1) hsrt.2 fun j hj => hsrt.1 j hj
      have hdrop : (xs.drop i).Sublist (xs.drop k) := drop_sublist_drop_left _ (hk i (.head _))
      unfold atPositions
      rw [filterMap_cons]
      cases hi : xs[i]? with
      | none => exact (hrest.trans (drop_sublist_drop_left _ (Nat.le_succ i))).trans hdrop
      | some x =>
        obtain ⟨hlt, rfl⟩ := List.getElem?_eq_some_iff.mp hi
        refine Sublist.trans ?_ hdrop
        rw [drop_eq_getElem_cons hlt]
        exact hrest.cons_cons _
  exact hfrom is 0 h fun _ _ => Nat.zero_le _

section Keys

variable [DecidableEq κ] (key : α → κ)

variable {xs : List α}

/-- A part of a list whose keys are distinct is what it keeps of it. -/
theorem eq_filter_of_sublist {ys : List α} (h : ys.Sublist xs) (hnd : (xs.map key).Nodup) :
    ys = xs.filter fun x => decide (key x ∈ ys.map key) := by
  induction h with
  | slnil => rfl
  | @cons ys xs x hsub ih =>
    rw [map_cons, nodup_cons] at hnd
    have hout : key x ∉ ys.map key := fun hin => hnd.1 ((hsub.map key).subset hin)
    rw [filter_cons_of_neg (by simpa using hout)]
    exact ih hnd.2
  | @cons_cons ys xs x hsub ih =>
    rw [map_cons, nodup_cons] at hnd
    rw [filter_cons_of_pos (by simp), map_cons]
    congr 1
    refine (ih hnd.2).trans (filter_congr fun z hz => ?_)
    have hne : key z ≠ key x := fun heq => hnd.1 (heq ▸ mem_map_of_mem hz)
    simp [hne]

theorem eraseIdx_eq_filter {i : Nat} {x : α} (hx : xs[i]? = some x) (hnd : (xs.map key).Nodup) :
    xs.eraseIdx i = xs.filter fun y => decide (key y ≠ key x) := by
  induction xs generalizing i with
  | nil => cases hx
  | cons y xs ih =>
    rw [map_cons, nodup_cons] at hnd
    cases i with
    | zero =>
      obtain rfl := Option.some.inj hx
      rw [eraseIdx_zero, tail_cons, filter_cons_of_neg (by simp), eq_comm, filter_eq_self]
      intro z hz
      simpa using fun heq : key z = key y => hnd.1 (heq ▸ mem_map_of_mem hz)
    | succ i =>
      have hx' : xs[i]? = some x := hx
      have hne : key y ≠ key x := fun heq => hnd.1 (heq ▸ mem_map_of_mem (mem_of_getElem? hx'))
      rw [eraseIdx_cons_succ, filter_cons_of_pos (by simpa using hne), ih hx' hnd.2]

/-- What removing at descending positions leaves. -/
theorem eraseAt_eq_filter {is : List Nat} (h : is.Pairwise (· > ·)) (hlt : ∀ i ∈ is, i < xs.length)
    (hnd : (xs.map key).Nodup) : eraseAt xs is = xs.filter fun x => decide (key x ∉ (atPositions xs is).map key) := by
  induction is generalizing xs with
  | nil =>
    rw [eq_comm, eraseAt, foldl_nil, filter_eq_self]
    exact fun _ _ => rfl
  | cons i is ih =>
    rw [pairwise_cons] at h
    have hi := hlt i (.head _)
    have hx : xs[i]? = some xs[i] := getElem?_eq_getElem hi
    have herase := eraseIdx_eq_filter key hx hnd
    have hbef : ∀ j ∈ is, (xs.eraseIdx i)[j]? = xs[j]? := fun j hj => getElem?_eraseIdx_of_lt (h.1 j hj)
    have hsame : atPositions (xs.eraseIdx i) is = atPositions xs is := filterMap_congr hbef
    have hrest : eraseAt (xs.eraseIdx i) is = (xs.eraseIdx i).filter fun x => decide (key x ∉ (atPositions xs is).map key) := by
      rw [← hsame]
      refine ih h.2 (fun j hj => ?_) (hnd.sublist ((eraseIdx_sublist ..).map key))
      have hlen := length_eraseIdx_of_lt hi
      have := h.1 j hj
      omega
    show eraseAt (xs.eraseIdx i) is = _
    rw [hrest, herase, filter_filter]
    refine filter_congr fun y _ => ?_
    unfold atPositions
    rw [filterMap_cons, hx]
    simp only [map_cons, mem_cons, not_or]
    rw [Bool.decide_and, Bool.and_comm]

end Keys

end Lib
