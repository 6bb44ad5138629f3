import Mathlib.Data.List.Basic
import Mathlib.Data.Nat.Basic

/-!
# `Lib.Lex` — the order of sequences, their encodings and their prefixes

Sequences are compared at their first difference, by rank; a prefix comes first. An encoding of the elements keeps the
order when the codes of different elements differ somewhere, the lesser one with the lesser rank (`Encodes.lex`). The
sequences with a prefix are a range, up to a bound where there is one (`prefix_iff_range`).
-/

namespace Lib

open List Option Nat

variable {α β : Type}

/-- The order of two sequences. -/
def lex (rank : α → Nat) (xs ys : List α) : Ordering := compare (xs.map rank) (ys.map rank)

variable {rank : α → Nat} {rank' : β → Nat} {x y : α} {xs ys : List α}

@[simp] theorem lex_nil (rank : α → Nat) : lex rank [] [] = .eq := rfl

@[simp] theorem lex_nil_cons (rank : α → Nat) (y : α) (ys : List α) : lex rank [] (y :: ys) = .lt := rfl

@[simp] theorem lex_cons_nil (rank : α → Nat) (x : α) (xs : List α) : lex rank (x :: xs) [] = .gt := rfl

theorem lex_cons (rank : α → Nat) (x y : α) (xs ys : List α) :
    lex rank (x :: xs) (y :: ys) = (compare (rank x) (rank y)).then (lex rank xs ys) := by
  unfold lex
  rw [List.map_cons, List.map_cons, List.compare_cons_cons]

theorem lex_cons_of_eq (h : rank x = rank y) (xs ys : List α) : lex rank (x :: xs) (y :: ys) = lex rank xs ys := by
  rw [lex_cons, h, Nat.compare_eq_eq.mpr rfl]
  rfl

theorem lex_cons_of_lt (h : rank x < rank y) (xs ys : List α) : lex rank (x :: xs) (y :: ys) = .lt := by
  rw [lex_cons, Nat.compare_eq_lt.mpr h]
  rfl

theorem lex_cons_of_gt (h : rank y < rank x) (xs ys : List α) : lex rank (x :: xs) (y :: ys) = .gt := by
  rw [lex_cons, Nat.compare_eq_gt.mpr h]
  rfl

/-- Sequences in no order are the same. -/
theorem lex_eq_iff (hrank : ∀ a b, rank a = rank b → a = b) : lex rank xs ys = .eq ↔ xs = ys := by
  induction xs generalizing ys with
  | nil => cases ys <;> simp
  | cons x xs ih =>
    cases ys with
    | nil => simp
    | cons y ys =>
      rcases lt_trichotomy (rank x) (rank y) with hlt | heq | hgt
      · rw [lex_cons_of_lt hlt]
        refine ⟨fun h => (by cases h), fun h => ?_⟩
        rw [(cons.inj h).1] at hlt
        exact absurd hlt (lt_irrefl _)
      · rw [lex_cons_of_eq heq, ih, hrank x y heq]
        exact ⟨fun h => by rw [h], fun h => (cons.inj h).2⟩
      · rw [lex_cons_of_gt hgt]
        refine ⟨fun h => (by cases h), fun h => ?_⟩
        rw [(cons.inj h).1] at hgt
        exact absurd hgt (lt_irrefl _)

/-! ## Encodings -/

/-- The first is the lesser at their first difference. -/
def Splits : List Nat → List Nat → Prop
  | x :: xs, y :: ys => x < y ∨ x = y ∧ Splits xs ys
  | _, _ => False

theorem Splits.compare {xs ys : List Nat} (h : Splits xs ys) (s t : List Nat) :
    compare (xs ++ s) (ys ++ t) = .lt ∧ compare (ys ++ t) (xs ++ s) = .gt := by
  induction xs generalizing ys with
  | nil => exact h.elim
  | cons x xs ih =>
    cases ys with
    | nil => exact h.elim
    | cons y ys =>
      rw [List.cons_append, List.cons_append, List.compare_cons_cons, List.compare_cons_cons]
      rcases h with hlt | ⟨rfl, h⟩
      · rw [Nat.compare_eq_lt.mpr hlt, Nat.compare_eq_gt.mpr hlt]
        exact ⟨rfl, rfl⟩
      · rw [Nat.compare_eq_eq.mpr rfl]
        exact ih h

/-- The codes of different elements differ somewhere, in the elements' order. -/
structure Encodes (rank : α → Nat) (rank' : β → Nat) (enc : α → List β) : Prop where
  splits : ∀ a b, rank a < rank b → Splits ((enc a).map rank') ((enc b).map rank')
  ne_nil : ∀ a, enc a ≠ []
  inj : ∀ a b, rank a = rank b → a = b

theorem lex_append_left (rank : α → Nat) (p xs ys : List α) : lex rank (p ++ xs) (p ++ ys) = lex rank xs ys := by
  induction p with
  | nil => rfl
  | cons a p ih => rw [cons_append, cons_append, lex_cons_of_eq rfl, ih]

/-- **An encoding keeps the order.** -/
theorem Encodes.lex {enc : α → List β} (h : Encodes rank rank' enc) (xs ys : List α) :
    Lib.lex rank' (xs.flatMap enc) (ys.flatMap enc) = Lib.lex rank xs ys := by
  have hcons : ∀ (a : α) (as : List α), ∃ b bs, (a :: as).flatMap enc = b :: bs := by
    intro a as
    rw [flatMap_cons]
    match hcode : enc a with
    | [] => exact absurd hcode (h.ne_nil a)
    | b :: bs => exact ⟨b, _, cons_append ..⟩
  induction xs generalizing ys with
  | nil =>
    cases ys with
    | nil => rfl
    | cons y ys =>
      obtain ⟨b, bs, hb⟩ := hcons y ys
      rw [hb]
      rfl
  | cons x xs ih =>
    cases ys with
    | nil =>
      obtain ⟨b, bs, hb⟩ := hcons x xs
      rw [hb]
      rfl
    | cons y ys =>
      rcases lt_trichotomy (rank x) (rank y) with hlt | heq | hgt
      · rw [lex_cons_of_lt hlt]
        have hsplit := ((h.splits x y hlt).compare ((xs.flatMap enc).map rank') ((ys.flatMap enc).map rank')).1
        rwa [← map_append, ← map_append] at hsplit
      · obtain rfl := h.inj x y heq
        rw [lex_cons_of_eq rfl, flatMap_cons, flatMap_cons, lex_append_left, ih]
      · rw [lex_cons_of_gt hgt]
        have hsplit := ((h.splits y x hgt).compare ((ys.flatMap enc).map rank') ((xs.flatMap enc).map rank')).2
        rwa [← map_append, ← map_append] at hsplit

/-! ## Prefixes -/

/-- The next element, where there is one. -/
structure Next (rank : α → Nat) (next : α → Option α) : Prop where
  some : ∀ a b, next a = some b → ∀ c, rank c < rank b ↔ rank c ≤ rank a
  none : ∀ a, next a = none → ∀ c, rank c ≤ rank a

/-- The least sequence above all with the prefix, where there is one. -/
def upperBound (next : α → Option α) : List α → Option (List α)
  | [] => none
  | a :: as =>
    match upperBound next as with
    | some bs => some (a :: bs)
    | none => (next a).map ([·])

variable {next : α → Option α}

theorem upperBound_append_none {a : α} (h : next a = none) (as : List α) : upperBound next (as ++ [a]) = upperBound next as := by
  induction as with
  | nil => simp only [nil_append, upperBound, h, map_none]
  | cons b as ih => rw [cons_append, upperBound, ih, upperBound]

theorem upperBound_append_some {a b : α} (h : next a = some b) (as : List α) : upperBound next (as ++ [a]) = some (as ++ [b]) := by
  induction as with
  | nil => simp only [nil_append, upperBound, h, map_some]
  | cons c as ih => rw [cons_append, upperBound, ih, cons_append]

/-- **The sequences with a prefix** are those from it on, below its bound. -/
theorem prefix_iff_range (hnext : Next rank next) (hrank : ∀ a b, rank a = rank b → a = b) (as xs : List α) :
    as <+: xs ↔ lex rank xs as ≠ .lt ∧ ∀ bs, upperBound next as = some bs → lex rank xs bs = .lt := by
  induction as generalizing xs with
  | nil => exact ⟨fun _ => ⟨by cases xs <;> simp, fun bs hbs => by cases hbs⟩, fun _ => nil_prefix⟩
  | cons a as ih =>
    cases xs with
    | nil => simp
    | cons x xs =>
      rcases lt_trichotomy (rank x) (rank a) with hlt | heq | hgt
      · rw [lex_cons_of_lt hlt, cons_prefix_cons]
        refine ⟨fun h => ?_, fun h => absurd rfl h.1⟩
        rw [h.1] at hlt
        exact absurd hlt (lt_irrefl _)
      · obtain rfl := hrank x a heq
        rw [lex_cons_of_eq rfl, cons_prefix_cons, ih]
        refine ⟨fun h => ⟨h.2.1, fun bs hbs => ?_⟩, fun h => ⟨rfl, h.1, fun bs hbs => ?_⟩⟩
        · rw [upperBound] at hbs
          cases hupper : upperBound next as with
          | some cs =>
            rw [hupper] at hbs
            cases hbs
            rw [lex_cons_of_eq rfl]
            exact h.2.2 cs hupper
          | none =>
            rw [hupper] at hbs
            obtain ⟨b, hb, rfl⟩ := map_eq_some_iff.mp hbs
            exact lex_cons_of_lt ((hnext.some x b hb x).mpr (le_refl _)) _ _
        · have hupper := h.2 (x :: bs) (by rw [upperBound, hbs])
          rwa [lex_cons_of_eq rfl] at hupper
      · -- Above the prefix and without it: not below the bound.
        refine ⟨fun h => ?_, fun h => ?_⟩
        · rw [(cons_prefix_cons.mp h).1] at hgt
          exact absurd hgt (lt_irrefl _)
        · exfalso
          obtain ⟨-, hbnd⟩ := h
          cases hupper : upperBound next as with
          | some cs =>
            have hlt := hbnd (a :: cs) (by rw [upperBound, hupper])
            rw [lex_cons_of_gt hgt] at hlt
            cases hlt
          | none =>
            cases hnexta : next a with
            | none => exact absurd (hnext.none a hnexta x) (not_le.mpr hgt)
            | some b =>
              have hlt := hbnd [b] (by rw [upperBound, hupper, hnexta]; rfl)
              have hge : rank b ≤ rank x := Nat.le_of_not_lt fun hx =>
                absurd ((hnext.some a b hnexta x).mp hx) (not_le.mpr hgt)
              rcases lt_or_eq_of_le hge with hxb | hxb
              · rw [lex_cons_of_gt hxb] at hlt
                cases hlt
              · rw [lex_cons_of_eq hxb.symm] at hlt
                cases xs <;> cases hlt

end Lib
