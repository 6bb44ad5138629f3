import Mathlib.Data.List.Nodup

/-!
# `Lib.Keyed` — rows found by their key

What statements that go over all rows of a table do to the row of one key. A loop that may fail gives, where it does
not, what the loop without failures gives, row by row.
-/

namespace Lib

open List Option

variable {α β κ ε : Type}

/-! ## Loops that may fail -/

variable {xs : List α}

theorem mapM_some_iff {f : α → Option β} {ys : List β} : xs.mapM f = some ys ↔ List.Forall₂ (fun x y => f x = some y) xs ys := by
  induction xs generalizing ys with
  | nil =>
    rw [mapM_nil, forall₂_nil_left_iff]
    exact ⟨fun h => (some.inj h).symm, fun h => by rw [h]; rfl⟩
  | cons x xs ih =>
    rw [mapM_cons, forall₂_cons_left_iff]
    constructor
    · intro h
      obtain ⟨y, hy, h⟩ := bind_eq_some_iff.mp h
      obtain ⟨rest, hrest, h⟩ := bind_eq_some_iff.mp h
      exact ⟨y, rest, hy, ih.mp hrest, (some.inj h).symm⟩
    · rintro ⟨y, rest, hy, hrest, rfl⟩
      rw [hy, ih.mpr hrest]
      rfl

theorem mapM_ok_iff {f : α → Except ε β} {ys : List β} : xs.mapM f = .ok ys ↔ List.Forall₂ (fun x y => f x = .ok y) xs ys := by
  induction xs generalizing ys with
  | nil =>
    rw [mapM_nil, forall₂_nil_left_iff]
    exact ⟨fun h => (Except.ok.inj h).symm, fun h => by rw [h]; rfl⟩
  | cons x xs ih =>
    rw [mapM_cons, forall₂_cons_left_iff]
    constructor
    · intro h
      cases hx : f x with
      | error e =>
        rw [hx] at h
        cases h
      | ok y =>
        rw [hx] at h
        cases hxs : xs.mapM f with
        | error e =>
          have hfails : (xs.mapM f >>= fun rest => pure (y :: rest)) = .ok ys := h
          rw [hxs] at hfails
          cases hfails
        | ok rest =>
          have hall : (xs.mapM f >>= fun rest => pure (y :: rest)) = .ok ys := h
          rw [hxs] at hall
          exact ⟨y, rest, rfl, ih.mp hxs, (Except.ok.inj hall).symm⟩
    · rintro ⟨y, rest, hy, hrest, rfl⟩
      rw [hy, ih.mpr hrest]
      rfl

/-- A selection whose condition never fails is a filter. -/
theorem filterM_ok {f : α → Except ε Bool} {p : α → Bool} (h : ∀ x ∈ xs, f x = .ok (p x)) : xs.filterM f = .ok (xs.filter p) := by
  have hloop : ∀ acc, filterAuxM f xs acc = .ok ((xs.filter p).reverse ++ acc) := by
    induction xs with
    | nil => exact fun _ => rfl
    | cons x xs ih =>
      intro acc
      have hrest := ih fun y hy => h y (mem_cons_of_mem x hy)
      rw [filterAuxM, h x mem_cons_self]
      show filterAuxM f xs (cond (p x) (x :: acc) acc) = _
      rw [hrest, filter_cons]
      cases p x <;> simp
  rw [filterM, hloop]
  show Except.ok (((xs.filter p).reverse ++ []).reverse) = _
  rw [append_nil, reverse_reverse]

/-! ## The row of a key -/

section Key

variable [DecidableEq κ] {key : α → κ} {rows rows' : List α} {k k' : κ}

theorem nodup_put (h : (rows.map key).Nodup) (row : α) : ((rows.filter (key · ≠ key row) ++ [row]).map key).Nodup := by
  rw [map_append, map_singleton, nodup_append]
  refine ⟨h.sublist (filter_sublist.map key), nodup_singleton _, ?_⟩
  intro k hk k' hk'
  obtain rfl := mem_singleton.mp hk'
  obtain ⟨oth, hoth, rfl⟩ := mem_map.mp hk
  simpa using (mem_filter.mp hoth).2

end Key

end Lib
