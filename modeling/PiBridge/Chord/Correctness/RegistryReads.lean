import PiBridge.Chord.Correctness.RegistryTables

/-!
# `Chord.Correctness.RegistryReads` — what a reader of a registry gets

`Coherent` holds in every run: the last table was composed by the provider, and while it is not marked it is the table
of the contributions now. So a value is a composition of what is contributed now (`ReadsValue`). `Kept` is what a last
good value needs: it holds as long as no step takes a contribution out unseen (`RegistryTurn.Keeps`).
-/

namespace PiBridge.Chord

open Lib List Option Registry

variable {V ε Fn : Type}

/-! ## What a reader may get -/

/-- A value is the composition of the contributions now, mapped back for an older version. -/
def ReadsValue (code : PluginCode V ε Fn) (s : Registry V ε Fn) (version : Nat) (value : V) : Prop :=
  ∃ provider composed, s.provider = some provider ∧
    (code.compose provider.compose (Registry.entriesNow code provider s.states s.contributions)).2 = .ok composed ∧
    (provider.version = version ∧ value = composed ∨
      ∃ map, Registry.valueAdapter provider version = some map ∧ code.adapt map composed = .ok value)

/-- A last good value was composed by a provider of the version served, of contributions that are still in the table. -/
def ReadsLast (code : PluginCode V ε Fn) (s : Registry V ε Fn) (version : Nat) (last : V) : Prop :=
  ∃ provider good conflicts, s.provider = some provider ∧ RegistryEvent.composed good conflicts ∈ s.log ∧
    good.provider.version = provider.version ∧ (∀ e ∈ good.table, e.contribution ∈ s.contributions) ∧
    (provider.version = version ∧ last = good.value ∨ version < provider.version ∧ ∃ map, code.adapt map good.value = .ok last)

/-- What a read may give. -/
def ReadSound (code : PluginCode V ε Fn) (s : Registry V ε Fn) (version : Nat) : NativeStart V ε → Prop
  | .value value => ReadsValue code s version value
  | .failed _ (some last) => ReadsLast code s version last
  | .failed _ none => True

/-! ## The invariants -/

/-- A composition is what its provider's `compose` gave for its table. -/
def Good.Honest (code : PluginCode V ε Fn) (good : Good V Fn) : Prop :=
  (code.compose good.provider.compose (good.table.map TableEntry.entry)).2 = .ok good.value

/-- A kept composition. -/
structure Good.Known (log : List (RegistryEvent V ε Fn)) (good : Good V Fn) : Prop where
  logged : ∃ conflicts, RegistryEvent.composed good conflicts ∈ log
  owners : ∀ e ∈ good.table, e.contribution ∈ good.contributions

/-- A kept mapping. -/
structure Mapped.Known (code : PluginCode V ε Fn) (log : List (RegistryEvent V ε Fn)) (mapped : Mapped V Fn) (good : Good V Fn) : Prop
    extends Good.Known log good where
  value : code.adapt mapped.map mapped.source = .ok mapped.value
  made : mapped.good = some good
  source : mapped.source = good.value
  contributions : mapped.contributions = some good.contributions

/-- **What holds in every run.** -/
structure Coherent (code : PluginCode V ε Fn) (s : Registry V ε Fn) : Prop where
  valid : ∀ c, (s.states c).Valid code
  named : ∀ table, s.table = some table → Named s.states table
  composed : ∀ table, s.table = some table → ∃ provider, s.provider = some provider ∧
    (s.failure = none → ∃ good, s.good = some good ∧ good.table = table ∧ good.provider = provider)
  fresh : s.dirty = false → ∀ provider, s.provider = some provider → ∃ table, s.table = some table ∧
    table.map TableEntry.entry = Registry.entriesNow code provider s.states s.contributions ∧
    ∀ e ∈ table, e.contribution ∈ s.contributions
  good : ∀ good, s.good = some good → good.Known s.log
  events : ∀ good conflicts, RegistryEvent.composed good conflicts ∈ s.log → good.Honest code
  mapped : ∀ version mapped, (s.values version).mapped = some mapped → ∃ good, mapped.Known code s.log good

/-- What a last good value needs. -/
structure Kept (s : Registry V ε Fn) : Prop where
  version : ∀ good provider, s.good = some good → s.provider = some provider → good.provider.version = provider.version
  /-- A contribution it was composed of left only if the next composition sees it. -/
  inTable : ∀ good, s.good = some good → ∀ e ∈ good.table, e.contribution ∈ s.contributions ∨
    (s.dirty = true ∧ ∀ table, s.table = some table → ∃ e' ∈ table, e'.contribution = e.contribution)
  mapped : ∀ version mapped good provider, (s.values version).mapped = some mapped → mapped.good = some good →
    s.provider = some provider → good.provider.version = provider.version

section Log

variable {code : PluginCode V ε Fn} {log log' : List (RegistryEvent V ε Fn)} {good : Good V Fn} {mapped : Mapped V Fn}

theorem Good.Known.mono (h : good.Known log) (hlog : ∀ ev ∈ log, ev ∈ log') : good.Known log' := by
  obtain ⟨cfs, hmem⟩ := h.logged
  exact ⟨⟨cfs, hlog _ hmem⟩, h.owners⟩

theorem Mapped.Known.mono (h : mapped.Known code log good) (hlog : ∀ ev ∈ log, ev ∈ log') : mapped.Known code log' good :=
  { h with toKnown := h.toKnown.mono hlog }

theorem Quiet.mem (h : Quiet log log') : ∀ ev ∈ log, ev ∈ log' := by
  obtain ⟨more, rfl, -⟩ := h
  exact fun ev hev => mem_append_left more hev

end Log

theorem Coherent.new (code : PluginCode V ε Fn) (name : Text) (raw : RegistryContribution → Except ε V) :
    Coherent code (Registry.new name raw) where
  valid _ _ h := nomatch h
  named _ h := nomatch h
  composed _ h := nomatch h
  fresh h := nomatch h
  good _ h := nomatch h
  events := nofun
  mapped _ _ h := nomatch h

theorem Kept.new (name : Text) (raw : RegistryContribution → Except ε V) : Kept (Registry.new name raw : Registry V ε Fn) where
  version _ _ h := nomatch h
  inTable _ h := nomatch h
  mapped _ _ _ _ h := nomatch h

/-! ## What a composition does -/

variable {code : PluginCode V ε Fn} {s : Registry V ε Fn} {provider : Provider Fn}

theorem Registry.composeTable_error {tbl : List (TableEntry V)} {err : ε}
    (h : (code.compose provider.compose (tbl.map TableEntry.entry)).2 = .error err) :
    ∃ log, s.composeTable code provider tbl = { s with
        table := some tbl
        good := s.good.filter fun good => s.inTable good.contributions
        failure := some err
        log := log } ∧ Quiet s.log log := by
  have hthrew : Quiet s.log (s.log ++ [RegistryEvent.threw]) := .append fun _ _ h => by simp at h
  unfold composeTable
  generalize code.compose provider.compose (tbl.map TableEntry.entry) = result at h ⊢
  obtain ⟨rps, oc⟩ := result
  obtain rfl : oc = .error err := h
  dsimp only
  split
  · exact ⟨_, rfl, hthrew.trans (.append fun _ _ h => by simp at h)⟩
  · exact ⟨_, rfl, hthrew⟩

theorem Registry.composeTable_ok {tbl : List (TableEntry V)} {v : V}
    (h : (code.compose provider.compose (tbl.map TableEntry.entry)).2 = .ok v) :
    ∃ cfs log, s.composeTable code provider tbl = { s with
        table := some tbl
        good := some ⟨v, s.contributions, provider, tbl⟩
        failure := none
        conflicts := cfs
        log := log } ∧ Quiet (s.log ++ [RegistryEvent.composed ⟨v, s.contributions, provider, tbl⟩ cfs]) log := by
  unfold composeTable
  generalize code.compose provider.compose (tbl.map TableEntry.entry) = result at h ⊢
  obtain ⟨rps, oc⟩ := result
  obtain rfl : oc = .ok v := h
  exact ⟨_, _, rfl, .append fun good cfs h => by simp at h⟩

/-- How a composition goes, once its table is built. -/
inductive Composes (code : PluginCode V ε Fn) (s : Registry V ε Fn) (provider : Provider Fn)
    (states : RegistryContribution → ContributionState V ε Fn) (log : List (RegistryEvent V ε Fn)) (table : List (TableEntry V)) :
    Registry V ε Fn → Prop where
  /-- The last table. -/
  | same (h : s.table = some table) : Composes code s provider states log table { s with dirty := false, states := states, log := log }
  | threw {error : ε} {log' : List (RegistryEvent V ε Fn)}
      (h : (code.compose provider.compose (table.map TableEntry.entry)).2 = .error error) (hlog : Quiet log log') :
      Composes code s provider states log table { s with
        dirty := false
        states := states
        table := some table
        good := s.good.filter fun good => s.inTable good.contributions
        failure := some error
        log := log' }
  | gave {value : V} {conflicts : List Text} {log' : List (RegistryEvent V ε Fn)}
      (h : (code.compose provider.compose (table.map TableEntry.entry)).2 = .ok value)
      (hlog : Quiet (log ++ [RegistryEvent.composed ⟨value, s.contributions, provider, table⟩ conflicts]) log') :
      Composes code s provider states log table { s with
        dirty := false
        states := states
        table := some table
        good := some ⟨value, s.contributions, provider, table⟩
        failure := none
        conflicts := conflicts
        log := log' }

/-- The table of the contributions now. -/
structure Built (code : PluginCode V ε Fn) (s : Registry V ε Fn) (provider : Provider Fn)
    (states : RegistryContribution → ContributionState V ε Fn) (log : List (RegistryEvent V ε Fn)) (table : List (TableEntry V)) :
    Prop where
  quiet : Quiet s.log log
  valid : ∀ c, (states c).Valid code
  extends_ : ∀ c, (s.states c).Extends (states c)
  entries : table.map TableEntry.entry = Registry.entriesNow code provider states s.contributions
  named : Named states table
  owners : ∀ e ∈ table, e.contribution ∈ s.contributions

variable [DecidableEq Fn]

theorem Coherent.recompose_cases (h : Coherent code s) (provider : Provider Fn) : ∃ states log tbl,
    Built code s provider states log tbl ∧ Composes code s provider states log tbl (s.recompose code provider) := by
  have hvald : ∀ c, (({ s with dirty := false } : Registry V ε Fn).states c).Valid code := h.valid
  have hbuild : BuildSpec code provider { s with dirty := false } s.contributions _ _ := buildFrom_spec hvald s.contributions
  unfold recompose
  generalize buildFrom code provider { s with dirty := false } s.contributions = built at hbuild ⊢
  obtain ⟨s₁, tbl⟩ := built
  obtain ⟨⟨states, log, rfl⟩, hqui, hvald, hextends, hents, hnamed, howners⟩ := hbuild
  dsimp only at hqui hvald hextends hents hnamed howners ⊢
  refine ⟨states, log, tbl, ⟨hqui, hvald, hextends, ?_, hnamed, howners⟩, ?_⟩
  · rw [hents, entriesNow_congr fun c _ => (hextends c).raw]
  · split
    · -- The same entry objects as the last table.
      rename_i hlast
      have hsame := (Bool.and_eq_true_iff.mp hlast).1
      unfold isLast at hsame
      split at hsame
      · rename_i last htbl
        obtain rfl := ((h.named last htbl).mono hextends).eq_of_identity hnamed (by simpa using hsame)
        exact .same htbl
      · cases hsame
    · cases hcmp : (code.compose provider.compose (tbl.map TableEntry.entry)).2 with
      | error error =>
        obtain ⟨log', heq, hlog⟩ : ∃ log', composeTable code { s with dirty := false, states := states, log := log } provider tbl =
          _ ∧ Quiet log log' := composeTable_error hcmp
        rw [heq]
        exact .threw hcmp hlog
      | ok v =>
        obtain ⟨conflicts, log', heq, hlog⟩ : ∃ conflicts log', composeTable code { s with dirty := false, states := states, log := log }
          provider tbl = _ ∧ Quiet (log ++ [RegistryEvent.composed ⟨v, s.contributions, provider, tbl⟩ conflicts]) log' :=
            composeTable_ok hcmp
        rw [heq]
        exact .gave hcmp hlog

/-- What a composition leaves alone. -/
theorem Coherent.recompose_frame (h : Coherent code s) (provider : Provider Fn) :
    (s.recompose code provider).dirty = false ∧ (s.recompose code provider).provider = s.provider ∧
      (s.recompose code provider).contributions = s.contributions ∧ (s.recompose code provider).values = s.values := by
  obtain ⟨states, log, tbl, -, hcomposes⟩ := h.recompose_cases provider
  generalize s.recompose code provider = s' at hcomposes ⊢
  cases hcomposes <;> exact ⟨rfl, rfl, rfl, rfl⟩

/-- **A composition** keeps what holds in every run. -/
theorem Coherent.recompose (h : Coherent code s) (hprov : s.provider = some provider) : Coherent code (s.recompose code provider) := by
  obtain ⟨states, log, tbl, hbuilt, hcomposes⟩ := h.recompose_cases provider
  generalize s.recompose code provider = s' at hcomposes ⊢
  have hnamed : ∀ tbl', some tbl = some tbl' → Named states tbl' := fun tbl' htbl' =>
    some.inj htbl' ▸ hbuilt.named
  have hfresh : ∀ provider', s.provider = some provider' → ∃ tbl', some tbl = some tbl' ∧
      tbl'.map TableEntry.entry = entriesNow code provider' states s.contributions ∧
      ∀ e ∈ tbl', e.contribution ∈ s.contributions := fun provider' hprov' => by
    cases hprov.symm.trans hprov'
    exact ⟨tbl, rfl, hbuilt.entries, hbuilt.owners⟩
  have hmap : ∀ ver mapped, (s.values ver).mapped = some mapped → ∃ good, mapped.Known code log good :=
    fun ver mapped hmap => (h.mapped ver mapped hmap).imp fun good hkn => hkn.mono hbuilt.quiet.mem
  cases hcomposes with
  | same htbl =>
    refine ⟨hbuilt.valid, fun tbl' htbl' => hnamed tbl' (htbl.symm.trans htbl'), h.composed,
      fun _ provider' hprov' => ?_, fun good hgood => (h.good good hgood).mono hbuilt.quiet.mem,
      fun good cfs hmem => h.events good cfs (hbuilt.quiet.mem_iff.mp hmem), hmap⟩
    obtain ⟨tbl', htbl', hrest⟩ := hfresh provider' hprov'
    exact ⟨tbl', htbl.trans htbl', hrest⟩
  | threw hcmp hlog =>
    refine ⟨hbuilt.valid, hnamed, fun _ _ => ⟨provider, hprov, nofun⟩, fun _ => hfresh, fun good hgood => ?_,
      fun good cfs hmem => h.events good cfs ((hbuilt.quiet.trans hlog).mem_iff.mp hmem),
      fun ver mapped hkept => (hmap ver mapped hkept).imp fun good hkn => hkn.mono hlog.mem⟩
    obtain ⟨hgood, -⟩ := filter_eq_some_iff.mp hgood
    exact (h.good good hgood).mono (hbuilt.quiet.trans hlog).mem
  | gave hcmp hlog =>
    refine ⟨hbuilt.valid, hnamed, fun tbl' htbl' => ?_, fun _ => hfresh, fun good hgood => ?_, fun good cfs' hmem => ?_,
      fun ver mapped hkept => (hmap ver mapped hkept).imp fun good hkn =>
        hkn.mono fun ev hev => hlog.mem _ (mem_append_left _ hev)⟩
    · cases htbl'
      exact ⟨provider, hprov, fun _ => ⟨_, rfl, rfl, rfl⟩⟩
    · cases hgood
      exact ⟨⟨_, hlog.mem _ (mem_append_right _ (mem_singleton.mpr rfl))⟩, hbuilt.owners⟩
    · rcases mem_append.mp (hlog.mem_iff.mp hmem) with hmem | hmem
      · exact h.events good cfs' (hbuilt.quiet.mem_iff.mp hmem)
      · cases mem_singleton.mp hmem
        exact hcmp

theorem Kept.recompose (hkept : Kept s) (h : Coherent code s) (hprov : s.provider = some provider) : Kept (s.recompose code provider) := by
  obtain ⟨states, log, tbl, hbuilt, hcomposes⟩ := h.recompose_cases provider
  generalize s.recompose code provider = s' at hcomposes ⊢
  cases hcomposes with
  | same htbl =>
    refine ⟨hkept.version, fun good hgood e he => Or.inl ?_, hkept.mapped⟩
    rcases hkept.inTable good hgood e he with hin | ⟨-, hseen⟩
    · exact hin
    · -- It left, but the last table has it: so it is back.
      obtain ⟨e', he', hown⟩ := hseen tbl htbl
      exact hown ▸ hbuilt.owners e' he'
  | threw hcmp hlog =>
    refine ⟨fun good provider' hgood => ?_, fun good hgood e he => Or.inl ?_, hkept.mapped⟩
    · exact hkept.version good provider' (filter_eq_some_iff.mp hgood).1
    · obtain ⟨hgood, hall⟩ := filter_eq_some_iff.mp hgood
      exact of_decide_eq_true (all_eq_true.mp hall _ ((h.good good hgood).owners e he))
  | gave hcmp hlog =>
    refine ⟨fun good provider' hgood hprov' => ?_, fun good hgood e he => Or.inl ?_, hkept.mapped⟩
    · cases hgood
      cases hprov.symm.trans hprov'
      rfl
    · cases hgood
      exact hbuilt.owners e he

/-! ## A read of the composition -/

/-- A provided registry, read. -/
structure ReadState (code : PluginCode V ε Fn) (s : Registry V ε Fn) (provider : Provider Fn) : Prop where
  coherent : Coherent code s
  provided : s.provider = some provider
  clean : s.dirty = false

omit [DecidableEq Fn] in
/-- Without a failure, the composition is the one of the contributions now. -/
theorem ReadState.composed (h : ReadState code s provider) (hfails : s.failure = none) : ∃ good, s.good = some good ∧
    (code.compose provider.compose (Registry.entriesNow code provider s.states s.contributions)).2 = .ok good.value := by
  obtain ⟨tbl, htbl, hents, -⟩ := h.coherent.fresh h.clean provider h.provided
  obtain ⟨provider', hprov', hcomposed⟩ := h.coherent.composed tbl htbl
  cases h.provided.symm.trans hprov'
  obtain ⟨good, hgood, rfl, rfl⟩ := hcomposed hfails
  obtain ⟨cfs, hmem⟩ := (h.coherent.good good hgood).logged
  refine ⟨good, hgood, ?_⟩
  rw [← hents]
  exact h.coherent.events good cfs hmem

omit [DecidableEq Fn] in
/-- What a read of the composition finds. -/
theorem ReadState.current_cases (h : ReadState code s provider) : (∃ good, s.good = some good ∧ s.current = .value good.value ∧
      (code.compose provider.compose (Registry.entriesNow code provider s.states s.contributions)).2 = .ok good.value) ∨
      ∃ err, s.current = .failed err (s.good.map Good.value) := by
  unfold current
  cases hfails : s.failure with
  | none =>
    obtain ⟨good, hgood, hcmp⟩ := h.composed hfails
    rw [hgood]
    exact Or.inl ⟨good, rfl, rfl, hcmp⟩
  | some err => exact Or.inr ⟨.thrown err, rfl⟩

variable {good : Good V Fn}

omit [DecidableEq Fn] in
/-- The last good composition, where nothing it was composed of left unseen. -/
theorem ReadState.readsLast (h : ReadState code s provider) (hkept : Kept s) (hgood : s.good = some good) :
    ReadsLast code s provider.version good.value := by
  obtain ⟨cfs, hmem⟩ := (h.coherent.good good hgood).logged
  refine ⟨provider, good, cfs, h.provided, hmem, hkept.version good provider hgood h.provided, fun e he => ?_, Or.inl ⟨rfl, rfl⟩⟩
  rcases hkept.inTable good hgood e he with hin | ⟨hdirty, -⟩
  · exact hin
  · rw [h.clean] at hdirty
    cases hdirty

theorem Coherent.start (h : Coherent code s) (hprov : s.provider = some provider) :
    ReadState code (s.start code).1 provider ∧ (s.start code).2 = (s.start code).1.current ∧ (Kept s → Kept (s.start code).1) := by
  unfold Registry.start
  rw [hprov]
  dsimp only
  split
  · obtain ⟨hclean, hprovided, -⟩ := h.recompose_frame provider
    exact ⟨⟨h.recompose hprov, hprovided.trans hprov, hclean⟩, rfl, fun hkept => hkept.recompose h hprov⟩
  · rename_i hdirty
    exact ⟨⟨h, hprov, by simpa using hdirty⟩, rfl, id⟩

/-! ## A read of an older version -/

theorem Registry.mapSource_spec (code : PluginCode V ε Fn) (s : Registry V ε Fn) (ver : Nat) (v : ValueState V ε Fn) (src : V) (map : Fn) :
    ∃ v' log, s.mapSource code ver v src map = { s with values := Function.update s.values ver v', log := log } ∧ Quiet s.log log ∧
      (v'.mapped = v.mapped ∨ v'.mapFailure = none ∧ ∃ res, code.adapt map src = .ok res ∧
        v'.mapped = some ⟨src, map, res, s.good.map Good.contributions, s.good⟩) ∧
      (v'.mapFailure = none → ∃ mapped, v'.mapped = some mapped ∧ mapped.source = src ∧ mapped.map = map) := by
  have hmapped : ∀ out, Quiet s.log (s.log ++ [RegistryEvent.mapped ver out]) := fun out => .append fun _ _ h => by simp at h
  unfold mapSource
  dsimp only
  split
  · rename_i hsame
    obtain ⟨mapped, hmem, hsame⟩ := (any_eq_true _ _).mp hsame
    obtain ⟨hsrc, hmap⟩ : code.same mapped.source src = true ∧ mapped.map = map := by simpa using hsame
    exact ⟨_, _, rfl, hmapped _, Or.inl rfl, fun _ => ⟨mapped, hmem, code.eq_of_same _ _ hsrc, hmap⟩⟩
  · split
    · rename_i hfail
      obtain ⟨failure, hmem, -⟩ := (any_eq_true _ _).mp hfail
      refine ⟨_, _, rfl, .refl _, Or.inl rfl, fun hnone => ?_⟩
      rw [hmem] at hnone
      cases hnone
    · cases hres : code.adapt map src with
      | ok res => exact ⟨_, _, rfl, hmapped _, Or.inr ⟨rfl, res, rfl, rfl⟩, fun _ => ⟨_, rfl, rfl, rfl⟩⟩
      | error error =>
        dsimp only
        split
        · exact ⟨_, _, rfl, (hmapped _).trans (.append fun _ _ h => by simp at h), Or.inl rfl, nofun⟩
        · exact ⟨_, _, rfl, hmapped _, Or.inl rfl, nofun⟩

/-- The mapping kept of an older version is one of a kept composition; the rest of the registry is not touched. -/
theorem ReadState.mapSource (h : ReadState code s provider) (hgood : s.good = some good) (ver : Nat)
    {v : ValueState V ε Fn} (hval : ∀ mapped, v.mapped = some mapped → ∃ good, mapped.Known code s.log good)
    (map : Fn) : ReadState code (s.mapSource code ver v good.value map) provider := by
  obtain ⟨v', log, heq, hqui, hmap, -⟩ := mapSource_spec code s ver v good.value map
  rw [heq]
  refine ⟨⟨h.coherent.valid, h.coherent.named, h.coherent.composed, h.coherent.fresh, ?_, ?_, ?_⟩, h.provided, h.clean⟩
  · exact fun good' hgood' => (h.coherent.good good' hgood').mono hqui.mem
  · exact fun good' cfs hmem => h.coherent.events good' cfs (hqui.mem_iff.mp hmem)
  · intro ver' mapped hkept
    by_cases hver : ver' = ver
    · subst hver
      replace hkept : v'.mapped = some mapped := by simpa using hkept
      rcases hmap with hsame | ⟨-, res, hres, hnew⟩
      · exact (hval mapped (hsame.symm.trans hkept)).imp fun good' hkn => hkn.mono hqui.mem
      · cases hnew.symm.trans hkept
        exact ⟨good, { (h.coherent.good good hgood).mono hqui.mem with
          value := hres, made := hgood, source := rfl, contributions := by rw [hgood]; rfl }⟩
    · have hkept' : (s.values ver').mapped = some mapped := by simpa [Function.update_of_ne hver] using hkept
      exact (h.coherent.mapped ver' mapped hkept').imp fun good' hkn => hkn.mono hqui.mem

theorem Kept.mapSource (h : Kept s) (hgood : s.good = some good) {ver : Nat} {v : ValueState V ε Fn}
    (hval : ∀ mapped, v.mapped = some mapped → (s.values ver).mapped = some mapped) (map : Fn) :
    Kept (s.mapSource code ver v good.value map) := by
  obtain ⟨v', log, heq, -, hmap, -⟩ := mapSource_spec code s ver v good.value map
  rw [heq]
  refine ⟨h.version, h.inTable, fun ver' mapped good' provider' hkept hmade hprov' => ?_⟩
  by_cases hver : ver' = ver
  · subst hver
    replace hkept : v'.mapped = some mapped := by simpa using hkept
    rcases hmap with hsame | ⟨-, res, -, hnew⟩
    · exact h.mapped ver' mapped good' provider' (hval mapped (hsame.symm.trans hkept)) hmade hprov'
    · cases hnew.symm.trans hkept
      cases hgood.symm.trans hmade
      exact h.version good provider' hgood hprov'
  · have hkept' : (s.values ver').mapped = some mapped := by simpa [Function.update_of_ne hver] using hkept
    exact h.mapped ver' mapped good' provider' hkept' hmade hprov'

theorem Registry.mapSource_frame (code : PluginCode V ε Fn) (s : Registry V ε Fn) (ver : Nat) (v : ValueState V ε Fn) (src : V) (map : Fn) :
    (s.mapSource code ver v src map).contributions = s.contributions ∧ (s.mapSource code ver v src map).states = s.states := by
  obtain ⟨v', log, heq, -⟩ := mapSource_spec code s ver v src map
  rw [heq]
  exact ⟨rfl, rfl⟩

/-- **A mapped read:** a value is mapped from the composition now; a last good value from a kept one. -/
theorem ReadState.mapped_sound (h : ReadState code s provider) {ver : Nat} {map : Fn}
    (hmap : Registry.valueAdapter provider ver = some map) :
    ReadState code (s.mappedStart code ver s.current map).1 provider ∧
      (Kept s → Kept (s.mappedStart code ver s.current map).1) ∧
      (∀ v, (s.mappedStart code ver s.current map).2 = .value v → ReadsValue code (s.mappedStart code ver s.current map).1 ver v) ∧
      (Kept s → ∀ err last, (s.mappedStart code ver s.current map).2 = .failed err (some last) →
        ReadsLast code (s.mappedStart code ver s.current map).1 ver last) := by
  have hlt : ver < provider.version := by
    unfold valueAdapter at hmap
    split at hmap
    · assumption
    · cases hmap
  unfold mappedStart
  split
  · -- There is no composition to map.
    rename_i hsrc
    refine ⟨h, id, fun v hval => ?_, fun _ err last hlast => ?_⟩
    · rw [show s.current = .value v from hval] at hsrc
      cases hsrc
    · rw [show s.current = .failed err (some last) from hlast] at hsrc
      cases hsrc
  · rename_i src hsrc
    obtain ⟨good, hgood, rfl⟩ : ∃ good, s.good = some good ∧ good.value = src := by
      rcases h.current_cases with ⟨good, hgood, hcur, -⟩ | ⟨err, hcur⟩
      · rw [hcur] at hsrc
        exact ⟨good, hgood, some.inj hsrc⟩
      · rw [hcur] at hsrc
        exact map_eq_some_iff.mp hsrc
    dsimp only
    have hval : ∀ mapped, (s.keptValue ver).mapped = some mapped → (s.values ver).mapped = some mapped ∧
        mapped.contributions.all s.inTable = true := fun mapped hmapped => filter_eq_some_iff.mp hmapped
    generalize s.keptValue ver = v at hval ⊢
    have hread := h.mapSource hgood ver (fun mapped hmapped => h.coherent.mapped ver mapped (hval mapped hmapped).1) map
    have hkept : Kept s → Kept (s.mapSource code ver v good.value map) := fun hkept =>
      hkept.mapSource hgood (fun mapped hmapped => (hval mapped hmapped).1) map
    obtain ⟨hcontr, hstates⟩ := mapSource_frame code s ver v good.value map
    obtain ⟨v', log, heq, -, hmapped, hsome⟩ := mapSource_spec code s ver v good.value map
    have hval' : (s.mapSource code ver v good.value map).values ver = v' := by rw [heq]; simp
    generalize s.mapSource code ver v good.value map = s' at hread hkept hcontr hstates hval' ⊢
    -- A mapping that is kept is one of contributions that are in the table.
    have hlast : Kept s → ∀ last, v'.mapped.map Mapped.value = some last → ReadsLast code s' ver last := fun hkeep last hlast => by
      obtain ⟨mapped, hmem, rfl⟩ := map_eq_some_iff.mp hlast
      obtain ⟨good', hkn⟩ := hread.coherent.mapped ver mapped (by rw [hval', hmem])
      obtain ⟨cfs, hlogged⟩ := hkn.logged
      refine ⟨provider, good', cfs, hread.provided, hlogged,
        (hkept hkeep).mapped ver mapped good' provider (by rw [hval', hmem]) hkn.made hread.provided, fun e he => ?_,
        Or.inr ⟨hlt, mapped.map, hkn.source ▸ hkn.value⟩⟩
      rw [hcontr]
      rcases hmapped with hsame | ⟨-, res, -, hnew⟩
      · have hall := (hval mapped (hsame.symm.trans hmem)).2
        rw [hkn.contributions] at hall
        exact of_decide_eq_true (all_eq_true.mp hall _ (hkn.owners e he))
      · cases hnew.symm.trans hmem
        cases hgood.symm.trans hkn.made
        rcases hkeep.inTable good hgood e he with hin | ⟨hdirty, -⟩
        · exact hin
        · rw [h.clean] at hdirty
          cases hdirty
    unfold mappedCurrent
    rw [hval']
    dsimp only
    refine ⟨hread, hkept, fun res hres => ?_, fun hkeep err last hfail => ?_⟩
    · -- Nothing failed: the mapping is the one of the composition now.
      cases hfails : v'.mapFailure with
      | some fl =>
        rw [hfails] at hres
        cases hres
      | none =>
        obtain ⟨mapped, hmem, hsrc, hmap'⟩ := hsome hfails
        rw [hfails, hmem] at hres
        rcases h.current_cases with ⟨good', hgood', hcur, hcmp⟩ | ⟨err, hcur⟩
        · rw [hcur] at hres
          cases hres
          cases hgood.symm.trans hgood'
          obtain ⟨good', hkn⟩ := hread.coherent.mapped ver mapped (by rw [hval', hmem])
          refine ⟨provider, good.value, hread.provided, by rw [hcontr, hstates]; exact hcmp, Or.inr ⟨map, hmap, ?_⟩⟩
          rw [← hsrc, ← hmap']
          exact hkn.value
        · rw [hcur] at hres
          cases hres
    · refine hlast hkeep last ?_
      cases hfails : v'.mapFailure with
      | some fl =>
        rw [hfails] at hfail
        exact (NativeStart.failed.inj hfail).2
      | none =>
        obtain ⟨mapped, hmem, -⟩ := hsome hfails
        rw [hfails, hmem] at hfail
        rcases h.current_cases with ⟨good', -, hcur, -⟩ | ⟨err', hcur⟩
        · rw [hcur] at hfail
          cases hfail
        · rw [hcur] at hfail
          rw [hmem]
          exact (NativeStart.failed.inj hfail).2

/-- **A read.** -/
theorem Coherent.valueStart (h : Coherent code s) (ver : Nat) :
    Coherent code (s.valueStart code ver).1 ∧ (Kept s → Kept (s.valueStart code ver).1) ∧
      (∀ v, (s.valueStart code ver).2 = .value v → ReadsValue code (s.valueStart code ver).1 ver v) ∧
      (Kept s → ∀ err last, (s.valueStart code ver).2 = .failed err (some last) →
        ReadsLast code (s.valueStart code ver).1 ver last) := by
  unfold Registry.valueStart
  split
  · rename_i hnone
    obtain ⟨err, hsta⟩ : ∃ err, s.start code = (s, .failed err none) := by
      unfold Registry.start
      rw [hnone]
      exact ⟨_, rfl⟩
    rw [hsta]
    exact ⟨h, id, fun v hval => (nomatch hval), fun _ err last hlast => (nomatch hlast)⟩
  · rename_i provider hprov
    obtain ⟨hread, hcur, hkept⟩ := h.start hprov
    split
    · -- The version the provider has.
      rename_i hver
      subst hver
      refine ⟨hread.coherent, hkept, fun v hval => ?_, fun hkeep err last hlast => ?_⟩
      · rw [hcur] at hval
        rcases hread.current_cases with ⟨good, hgood, hgives, hcmp⟩ | ⟨err, hfails⟩
        · obtain rfl := NativeStart.value.inj (hgives.symm.trans hval)
          exact ⟨provider, good.value, hread.provided, hcmp, Or.inl ⟨rfl, rfl⟩⟩
        · cases hfails.symm.trans hval
      · rw [hcur] at hlast
        rcases hread.current_cases with ⟨good, hgood, hgives, -⟩ | ⟨err', hfails⟩
        · cases hgives.symm.trans hlast
        · obtain ⟨good, hgood, rfl⟩ := map_eq_some_iff.mp (NativeStart.failed.inj (hfails.symm.trans hlast)).2
          exact hread.readsLast (hkept hkeep) hgood
    · split
      · exact ⟨h, id, fun v hval => (nomatch hval), fun _ err last hlast => (nomatch hlast)⟩
      · rename_i map hmap
        rw [show s.start code = ((s.start code).1, (s.start code).1.current) from Prod.ext rfl hcur]
        obtain ⟨hread', hkept', hval, hlast⟩ := hread.mapped_sound hmap
        exact ⟨hread'.coherent, fun hkeep => hkept' (hkept hkeep), hval, fun hkeep => hlast (hkept hkeep)⟩

end PiBridge.Chord
