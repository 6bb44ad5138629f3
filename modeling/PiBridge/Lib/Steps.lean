import Mathlib.Data.List.Basic

/-!
# `Lib.Steps` — runs of a labelled transition system, and what one step says about them

A system is a relation `step : σ → ℓ → σ → Prop`; the label records which action was taken and what it
returned. `Steps step s ls t` is a run from `s` to `t` whose labels are `ls`, oldest first.

Everything proved about a run comes from one of two rules: `Steps.invariant` (what one step preserves, a
run preserves) and `Steps.fold_rel` (an observer that consumes only the labels keeps up with the state). A
condition on the steps of a run is imposed by strengthening `step`; `Steps.mono` forgets it again.
-/

namespace Lib

open List

variable {σ ℓ μ : Type}

/-- A run from `s` to `t` with labels `ls`, oldest first. -/
inductive Steps (step : σ → ℓ → σ → Prop) (s : σ) : List ℓ → σ → Prop where
  | refl : Steps step s [] s
  | tail {ls : List ℓ} {t u : σ} {l : ℓ} : Steps step s ls t → step t l u → Steps step s (ls ++ [l]) u

namespace Steps

variable {step step' : σ → ℓ → σ → Prop}

theorem single {s t : σ} {l : ℓ} (h : step s l t) : Steps step s [l] t := by
  simpa using Steps.tail Steps.refl h

theorem trans {s t u : σ} {ls ms : List ℓ} (h : Steps step s ls t) (h' : Steps step t ms u) : Steps step s (ls ++ ms) u := by
  induction h' with
  | refl => simpa using h
  | tail _ hstep ih => rw [← append_assoc]; exact ih.tail hstep

/-- A run built forwards: one step, then a run. -/
theorem head {s t u : σ} {l : ℓ} {ls : List ℓ} (h : step s l t) (h' : Steps step t ls u) : Steps step s (l :: ls) u := (single h).trans h'

/-- **Invariant rule.** What holds at the start and is preserved by every step holds where the run ends;
    as a prefix of a run is a run, it holds all along. -/
theorem invariant {I : σ → Prop} (hstep : ∀ {t l u}, I t → step t l u → I u)
    {s t : σ} {ls : List ℓ} (h : Steps step s ls t) (h0 : I s) : I t := by
  induction h with
  | refl => exact h0
  | tail _ hs ih => exact hstep ih hs

/-- **Observer rule.** If consuming a label restores the relation the step disturbed, folding the labels
    of a run keeps it. -/
theorem fold_rel {R : σ → μ → Prop} {f : μ → ℓ → μ}
    (hstep : ∀ {t l u m}, R t m → step t l u → R u (f m l))
    {s t : σ} {ls : List ℓ} {m : μ} (h : Steps step s ls t) (h0 : R s m) : R t (ls.foldl f m) := by
  induction h with
  | refl => exact h0
  | tail _ hs ih => rw [foldl_append]; exact hstep ih hs

/-- A number that grows by at most one at each step takes every value on the way. -/
theorem exists_at {m : σ → Nat} (hstep : ∀ {t l u}, step t l u → m u ≤ m t + 1) {s t : σ} {ls : List ℓ}
    (h : Steps step s ls t) {n : Nat} (h0 : m s ≤ n) (hn : n ≤ m t) :
    ∃ bef aft u, ls = bef ++ aft ∧ Steps step s bef u ∧ Steps step u aft t ∧ m u = n := by
  induction h with
  | refl => exact ⟨[], [], s, rfl, .refl, .refl, Nat.le_antisymm h0 hn⟩
  | @tail ls t u l hrun hs ih =>
    by_cases hle : n ≤ m t
    · obtain ⟨bef, aft, w, rfl, hbef, haft, hw⟩ := ih hle
      exact ⟨bef, aft ++ [l], w, append_assoc .., hbef, haft.tail hs, hw⟩
    · have hone := hstep hs
      exact ⟨ls ++ [l], [], u, (append_nil _).symm, hrun.tail hs, .refl, by omega⟩

/-- A step on the way of a run, with the labels after it. -/
def Passed (step : σ → ℓ → σ → Prop) (s : σ) (ls : List ℓ) (t : σ) (P : σ → ℓ → List ℓ → Prop) : Prop :=
  ∃ before l after u v, ls = before ++ l :: after ∧ Steps step s before u ∧ step u l v ∧ Steps step v after t ∧ P u l after

theorem Passed.imp {s t : σ} {ls : List ℓ} {P Q : σ → ℓ → List ℓ → Prop} (h : Passed step s ls t P)
    (himp : ∀ u l aft, P u l aft → Q u l aft) : Passed step s ls t Q := by
  obtain ⟨bef, l, aft, u, v, hls, hbef, hstep, haft, hP⟩ := h
  exact ⟨bef, l, aft, u, v, hls, hbef, hstep, haft, himp u l aft hP⟩

/-- **Origin rule.** Where a state has what the first one lacks, a step on the way brought it about, and every step after
    that one was of a kind that keeps it. -/
theorem origin {I J : σ → Prop} {P : σ → ℓ → Prop} {Q : ℓ → Prop} (hinv : ∀ {t l u}, J t → step t l u → J u)
    (hback : ∀ {t l u}, J t → step t l u → I u → I t ∧ Q l ∨ P t l) {s t : σ} {ls : List ℓ} (h : Steps step s ls t) (h0 : J s)
    (hnot : ¬I s) (hI : I t) : Passed step s ls t fun u l aft => P u l ∧ ∀ l' ∈ aft, Q l' := by
  induction h with
  | refl => exact absurd hI hnot
  | @tail ls t u l hrun hs ih =>
    have hJ : J t := hrun.invariant (fun hJ hs => hinv hJ hs) h0
    obtain ⟨hwas, hkeep⟩ | hnow := hback hJ hs hI
    · obtain ⟨bef, l', aft, v, w, rfl, hbef, hstep, haft, hP, hQ⟩ := ih hwas
      refine ⟨bef, l', aft ++ [l], v, w, by simp, hbef, hstep, haft.tail hs, hP, fun m hm => ?_⟩
      obtain hold | hlast := mem_append.mp hm
      · exact hQ m hold
      · exact mem_singleton.mp hlast ▸ hkeep
    · exact ⟨ls, l, [], t, u, rfl, hrun, hs, .refl, hnow, nofun⟩

/-- A run of a system is a run of any system that can do at least as much. -/
theorem mono (hle : ∀ {t l u}, step t l u → step' t l u) {s t : σ} {ls : List ℓ}
    (h : Steps step s ls t) : Steps step' s ls t := by
  induction h with
  | refl => exact Steps.refl
  | tail _ hs ih => exact ih.tail (hle hs)

/-- The run of a deterministic system. -/
theorem foldl (f : σ → ℓ → σ) (s : σ) (ls : List ℓ) : Steps (fun s l s' => f s l = s') s ls (ls.foldl f s) := by
  induction ls generalizing s with
  | nil => exact .refl
  | cons l ls ih => exact .head rfl (ih (f s l))

/-- Whether a guard allows each step of a deterministic run. -/
def allowed (f : σ → ℓ → σ) (guard : σ → ℓ → Bool) : σ → List ℓ → Bool
  | _, [] => true
  | s, l :: ls => guard s l && allowed f guard (f s l) ls

/-- The run of a deterministic system whose steps are guarded. -/
theorem guarded {f : σ → ℓ → σ} (guard : σ → ℓ → Bool) {s : σ} {ls : List ℓ} (h : allowed f guard s ls = true) :
    Steps (fun s l s' => guard s l = true ∧ f s l = s') s ls (ls.foldl f s) := by
  induction ls generalizing s with
  | nil => exact .refl
  | cons l ls ih =>
    obtain ⟨hfst, hrest⟩ := Bool.and_eq_true_iff.mp h
    exact .head ⟨hfst, rfl⟩ (ih hrest)

end Steps

/-- **Invariant rule** of a loop that may fail. -/
theorem foldlM_invariant {I : σ → Prop} {f : σ → ℓ → Option σ} {ls : List ℓ}
    (hstep : ∀ l ∈ ls, ∀ s s', I s → f s l = some s' → I s') {s s' : σ} (h0 : I s) (h : ls.foldlM f s = some s') : I s' := by
  induction ls generalizing s with
  | nil =>
    cases h
    exact h0
  | cons l ls ih =>
    obtain ⟨s₁, hfst, hrest⟩ := Option.bind_eq_some_iff.mp h
    exact ih (fun l' hl' => hstep l' (mem_cons_of_mem l hl')) (hstep l mem_cons_self s s₁ h0 hfst) hrest

end Lib
