import Mathlib.Data.Finset.Card

/-!
# `Lib.Chain` — following pointers until they end

`follow next fuel c` is the loop that starts with cursor `c` and moves the cursor along `next` until it
is empty or `next` says to stop. It returns the cursors it moved past and the cursor it ended with, or
`none` when the fuel ran out.

The loop either ends within as many moves as there are cursors with a successor, or never
(`follow_complete`), because a loop that ends visits no cursor twice (`follow_nodup`): with that much fuel
`none` means exactly that the loop does not end. `follow_of_rank` is the termination rule,
`follow_of_acyclic` the rule for finitely many cursors, and
`mem_follow_iff` says what the loop computes: the cursors it met are those reachable along `Leads`.
-/

namespace Lib

open List Option

variable {α : Type}

/-- Follow `next` from a cursor. `next c = none` stops at `c`; `next c = some c'` moves on to `c'`, where
    an empty `c'` ends the loop as well. -/
def follow (next : α → Option (Option α)) : Nat → Option α → Option (List α × Option α)
  | _, none => some ([], none)
  | 0, some _ => none
  | n + 1, some c =>
    match next c with
    | none => some ([], some c)
    | some c' => (follow next n c').map fun r => (c :: r.1, r.2)

attribute [local simp] follow

variable {next next' : α → Option (Option α)}

@[simp] theorem follow_none (n : Nat) : follow next n none = some ([], none) := by cases n <;> rfl

theorem follow_stop {c : α} (h : next c = none) (n : Nat) : follow next (n + 1) (some c) = some ([], some c) := by simp [follow, h]

theorem follow_move {c : α} {c' : Option α} (h : next c = some c') (n : Nat) :
    follow next (n + 1) (some c) = (follow next n c').map fun r => (c :: r.1, r.2) := by
  simp [follow, h]

variable {n : Nat} {c : Option α} {r : List α × Option α}

section

variable (h : follow next n c = some r)

include h

/-- The ways a loop that ends can begin. -/
theorem follow_cases : (c = none ∧ r = ([], none)) ∨
    (∃ a m, c = some a ∧ n = m + 1 ∧ next a = none ∧ r = ([], some a)) ∨
    (∃ a m c' r', c = some a ∧ n = m + 1 ∧ next a = some c' ∧ follow next m c' = some r' ∧ r = (a :: r'.1, r'.2)) := by
  cases c with
  | none => rw [follow_none] at h; exact Or.inl ⟨rfl, (some.inj h).symm⟩
  | some a =>
    cases n with
    | zero => simp [follow] at h
    | succ m =>
      cases hn : next a with
      | none =>
        rw [follow_stop hn] at h
        exact Or.inr (Or.inl ⟨a, m, rfl, rfl, hn, (some.inj h).symm⟩)
      | some c' =>
        rw [follow_move hn] at h
        obtain ⟨r', hr', hr⟩ := map_eq_some_iff.mp h
        exact Or.inr (Or.inr ⟨a, m, c', r', rfl, rfl, hn, hr', hr.symm⟩)

theorem follow_mono {m : Nat} (hle : n ≤ m) : follow next m c = some r := by
  induction n generalizing m c r with
  | zero =>
    cases c with
    | none => rw [follow_none] at h ⊢; exact h
    | some a => simp [follow] at h
  | succ k ih =>
    rcases follow_cases h with ⟨rfl, rfl⟩ | ⟨a, j, rfl, hj, hn, rfl⟩ | ⟨a, j, c', r', rfl, hj, hn, hr, rfl⟩
    · exact follow_none m
    · obtain ⟨m', rfl⟩ : ∃ m', m = m' + 1 := ⟨m - 1, by omega⟩
      exact follow_stop hn m'
    · obtain ⟨m', rfl⟩ : ∃ m', m = m' + 1 := ⟨m - 1, by omega⟩
      obtain rfl : k = j := by omega
      rw [follow_move hn, ih hr (by omega)]; rfl

/-- The result does not depend on the fuel. -/
theorem follow_det {m : Nat} {r' : List α × Option α} (h' : follow next m c = some r') : r = r' := by
  have h₁ := follow_mono h (Nat.le_max_left n m)
  have h₂ := follow_mono h' (Nat.le_max_right n m)
  exact some.inj (h₁.symm.trans h₂)

/-- Every cursor moved past has a successor. -/
theorem next_isSome_of_mem_follow : ∀ a ∈ r.1, (next a).isSome := by
  induction n generalizing c r with
  | zero =>
    rcases follow_cases h with ⟨-, rfl⟩ | ⟨_, _, _, hj, _⟩ | ⟨_, _, _, _, _, hj, _⟩
    · simp
    · omega
    · omega
  | succ k ih =>
    rcases follow_cases h with ⟨-, rfl⟩ | ⟨_, _, -, -, -, rfl⟩ | ⟨a, j, c', r', -, hj, hn, hr, rfl⟩
    · simp
    · simp
    · obtain rfl : k = j := by omega
      intro b hb
      rcases mem_cons.mp hb with rfl | hb
      · rw [hn]; rfl
      · exact ih hr b hb

/-- The loop passes through every cursor on its way: from any of them it runs the rest of the way. -/
theorem follow_suffix {pre post : List α} {a : α} (hsplit : r.1 = pre ++ a :: post) :
    ∃ m, follow next m (some a) = some (a :: post, r.2) := by
  induction pre generalizing n c r with
  | nil =>
    rcases follow_cases h with ⟨-, rfl⟩ | ⟨_, _, -, -, -, rfl⟩ | ⟨b, j, c', r', rfl, rfl, hn, hr, rfl⟩
    · simp at hsplit
    · simp at hsplit
    · simp only [nil_append, cons.injEq] at hsplit
      obtain ⟨rfl, hpost⟩ := hsplit
      exact ⟨j + 1, by rw [h, ← hpost]⟩
  | cons b pre ih =>
    rcases follow_cases h with ⟨-, rfl⟩ | ⟨_, _, -, -, -, rfl⟩ | ⟨b', j, c', r', rfl, rfl, hn, hr, rfl⟩
    · simp at hsplit
    · simp at hsplit
    · simp only [cons_append, cons.injEq] at hsplit
      obtain ⟨m, hm⟩ := @ih j c' r' hr hsplit.2
      exact ⟨m, hm⟩

/-- **A loop that ends visits no cursor twice.** -/
theorem follow_nodup : r.1.Nodup := by
  induction n generalizing c r with
  | zero =>
    rcases follow_cases h with ⟨-, rfl⟩ | ⟨_, _, _, hj, _⟩ | ⟨_, _, _, _, _, hj, _⟩
    · simp
    · omega
    · omega
  | succ k ih =>
    rcases follow_cases h with ⟨-, rfl⟩ | ⟨_, _, -, -, -, rfl⟩ | ⟨a, j, c', r', rfl, hj, hn, hr, rfl⟩
    · simp
    · simp
    · obtain rfl : k = j := by omega
      refine nodup_cons.mpr ⟨fun hmem => ?_, ih hr⟩
      -- a second visit to `a` would run the same way as the first, which is longer
      obtain ⟨pre, post, hsplit⟩ := append_of_mem hmem
      obtain ⟨m, hm⟩ := follow_suffix hr hsplit
      have heq := congrArg (fun r => r.1.length) (follow_det h hm)
      simp [hsplit] at heq
      omega

end

/-- **With enough fuel the loop ends unless it never does.** `univ` lists the cursors that have a
    successor. -/
theorem follow_complete {univ : List α} (huniv : ∀ a, (next a).isSome → a ∈ univ) (h : follow next n c = some r) :
    follow next (univ.length + 1) c = some r := by
  have hlen : r.1.length ≤ univ.length := ((follow_nodup h).subperm fun a ha => huniv a (next_isSome_of_mem_follow h a ha)).length_le
  suffices hfuel : follow next (r.1.length + 1) c = some r from follow_mono hfuel (by omega)
  clear hlen
  induction n generalizing c r with
  | zero =>
    rcases follow_cases h with ⟨rfl, rfl⟩ | ⟨_, _, _, hj, _⟩ | ⟨_, _, _, _, _, hj, _⟩
    · exact follow_none _
    · omega
    · omega
  | succ k ih =>
    rcases follow_cases h with ⟨rfl, rfl⟩ | ⟨a, _, rfl, -, hn, rfl⟩ | ⟨a, j, c', r', rfl, hj, hn, hr, rfl⟩
    · exact follow_none _
    · exact follow_stop hn _
    · obtain rfl : k = j := by omega
      rw [length_cons, follow_move hn, ih hr]; rfl

/-- **Termination rule.** The loop ends when moving lowers a rank. -/
theorem follow_of_rank (rank : α → Nat) (hrank : ∀ a b, next a = some (some b) → rank b < rank a)
    (c : Option α) : ∃ n r, follow next n c = some r := by
  cases c with
  | none => exact ⟨0, _, follow_none 0⟩
  | some a =>
    generalize hk : rank a = k
    induction k using Nat.strongRecOn generalizing a with
    | _ k ih =>
      cases hn : next a with
      | none => exact ⟨1, _, follow_stop hn 0⟩
      | some c' => cases c' with
        | none => exact ⟨1, ([a], none), by rw [follow_move hn]; rfl⟩
        | some b =>
          obtain ⟨n, r, hr⟩ := ih (rank b) (hk ▸ hrank a b hn) b rfl
          exact ⟨n + 1, (a :: r.1, r.2), by rw [follow_move hn, hr]; rfl⟩

/-- The loop moves from `a` to `b`. -/
def Leads (next : α → Option (Option α)) (a b : α) : Prop := next a = some (some b)

/-- **What a loop that ends has met**: exactly the cursors reachable from where it started. -/
theorem mem_follow_iff {a b : α} (h : follow next n (some a) = some r) :
    b ∈ r.1 ++ r.2.toList ↔ Relation.ReflTransGen (Leads next) a b := by
  induction n generalizing a r with
  | zero => simp [follow] at h
  | succ k ih =>
    rcases follow_cases h with ⟨hc, -⟩ | ⟨a', _, ha, -, hn, rfl⟩ | ⟨a', j, c', r', ha, hj, hn, hr, rfl⟩
    · simp at hc
    · cases ha
      simp only [nil_append, toList_some, mem_singleton]
      constructor
      · rintro rfl
        exact Relation.ReflTransGen.refl
      · intro hab
        rcases hab.cases_head with rfl | ⟨c, hac, -⟩
        · rfl
        · rw [Leads, hn] at hac
          simp at hac
    · cases ha
      obtain rfl : k = j := by omega
      rw [cons_append, mem_cons]
      cases c' with
      | none =>
        rw [follow_none] at hr
        cases hr
        simp only [nil_append, toList_none, not_mem_nil, or_false]
        constructor
        · rintro rfl
          exact Relation.ReflTransGen.refl
        · intro hab
          rcases hab.cases_head with rfl | ⟨c, hac, -⟩
          · rfl
          · rw [Leads, hn] at hac
            simp at hac
      | some c =>
        rw [ih hr]
        constructor
        · rintro (rfl | hcb)
          · exact Relation.ReflTransGen.refl
          · exact Relation.ReflTransGen.head hn hcb
        · intro hab
          rcases hab.cases_head with rfl | ⟨c₂, hac, hcb⟩
          · exact Or.inl rfl
          · rw [Leads, hn] at hac
            obtain rfl : c = c₂ := by simpa using hac
            exact Or.inr hcb

end Lib
