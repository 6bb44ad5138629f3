import PiBridge.Chord.Registries.Record

/-!
# `Chord.Correctness.RegistryTables` — what a built table holds

A contribution's entry has the value its source has now, adapted where it is older (`valueNow`); the entries and
adaptations it keeps never change what they stand for. So the entries of a built table are those of the contributions
now (`buildFrom_spec`), and two tables of the same entry objects are the same table (`Named.eq_of_identity`).
-/

namespace PiBridge.Chord

open Lib List Option Function

variable {V ε Fn : Type}

/-! ## One contribution -/

/-- A kept adaptation is what its adapter gives. -/
def ContributionState.Valid (code : PluginCode V ε Fn) (state : ContributionState V ε Fn) : Prop :=
  ∀ adapted, state.adapted = some adapted → code.adapt adapted.adapter adapted.source = .ok adapted.value

/-- The value a contribution gives a provider's table now; none where it is left out. -/
def RegistryContribution.valueNow (code : PluginCode V ε Fn) (c : RegistryContribution) (provider : Provider Fn)
    (raw : Except ε V) : Option V :=
  if c.isRefused provider then none
  else
    match raw, c.adapter provider with
    | .error _, _ => none
    | .ok raw, none => some raw
    | .ok raw, some adapter => (code.adapt adapter raw).toOption

/-- How a contribution was left out. -/
def RegistryContribution.Given.out : RegistryContribution.Given V ε → Out
  | .entry _ => .none
  | .refused => .refused
  | .failed _ => .failed

/-- What a later state of a contribution keeps: its source, and the entries it made. -/
structure ContributionState.Extends (state state' : ContributionState V ε Fn) : Prop where
  raw : state'.raw = state.raw
  entries : state.entries <+: state'.entries

theorem ContributionState.Extends.refl (state : ContributionState V ε Fn) : state.Extends state := ⟨rfl, prefix_rfl⟩

theorem ContributionState.Extends.trans {a b c : ContributionState V ε Fn} (h : a.Extends b) (h' : b.Extends c) : a.Extends c :=
  ⟨h'.raw.trans h.raw, h.entries.trans h'.entries⟩

theorem getElem?_of_prefix {l l' : List V} (h : l <+: l') {i : Nat} {v : V} (hi : l[i]? = some v) : l'[i]? = some v := by
  obtain ⟨more, rfl⟩ := h
  obtain ⟨hlt, -⟩ := List.getElem?_eq_some_iff.mp hi
  rw [getElem?_append_left hlt]
  exact hi

namespace RegistryContribution

variable [DecidableEq Fn] {code : PluginCode V ε Fn} {c : RegistryContribution} {prov : Provider Fn}
  {state : ContributionState V ε Fn}

theorem adapt_spec (hvald : state.Valid code) (raw : V) (adapter : Fn) :
    (adapt code state raw adapter).1 = code.adapt adapter raw ∧ (adapt code state raw adapter).2.Valid code ∧
      ∃ adapted, (adapt code state raw adapter).2 = { state with adapted := adapted } := by
  -- A call of the adapter keeps what it returned.
  have hcall : ∀ res, code.adapt adapter raw = .ok res →
      ({ state with adapted := some ⟨raw, adapter, res⟩ } : ContributionState V ε Fn).Valid code := by
    intro res hres adapted hadapted
    cases hadapted
    exact hres
  unfold adapt
  dsimp only
  split
  · rename_i adapted hadapted
    split
    · rename_i hsame
      obtain ⟨hsrc, hadapter⟩ : code.same adapted.source raw = true ∧ adapted.adapter = adapter := by simpa using hsame
      refine ⟨?_, hvald, _, rfl⟩
      rw [← code.eq_of_same _ _ hsrc, ← hadapter]
      exact (hvald adapted hadapted).symm
    · cases hres : code.adapt adapter raw with
      | ok res => exact ⟨rfl, hcall res hres, _, rfl⟩
      | error error => exact ⟨rfl, hvald, _, rfl⟩
  · cases hres : code.adapt adapter raw with
    | ok res => exact ⟨rfl, hcall res hres, _, rfl⟩
    | error error => exact ⟨rfl, hvald, _, rfl⟩

theorem value_spec (hvald : state.Valid code) (haccd : c.isRefused prov = false) :
    (c.value code prov state).1.toOption = c.valueNow code prov state.raw ∧
      (c.value code prov state).2.Valid code ∧
      ∃ adapted, (c.value code prov state).2 = { state with adapted := adapted } := by
  obtain ⟨raw, adapted, es, out⟩ := state
  unfold value valueNow
  rw [if_neg (by rw [haccd]; exact Bool.false_ne_true)]
  cases raw with
  | error error => exact ⟨rfl, hvald, _, rfl⟩
  | ok raw =>
    cases c.adapter prov with
    | none => exact ⟨rfl, hvald, _, rfl⟩
    | some adapter =>
      obtain ⟨hres, hkept, hrest⟩ := adapt_spec hvald raw adapter
      exact ⟨congrArg Except.toOption hres, hkept, hrest⟩

omit [DecidableEq Fn] in
theorem keep_spec (v : V) : (c.keep code state v).1.contribution = c ∧ (c.keep code state v).1.value = v ∧
      (c.keep code state v).2.entries[(c.keep code state v).1.index]? = some v ∧
      (∃ es, (c.keep code state v).2 = { state with entries := es }) ∧
      state.entries <+: (c.keep code state v).2.entries := by
  unfold keep
  split
  · rename_i last hlast
    split
    · rename_i hsame
      obtain rfl := code.eq_of_same _ _ hsame
      rw [getLast?_eq_getElem?] at hlast
      exact ⟨rfl, rfl, hlast, ⟨_, rfl⟩, prefix_rfl⟩
    · exact ⟨rfl, rfl, by simp, ⟨_, rfl⟩, prefix_append _ _⟩
  · exact ⟨rfl, rfl, by simp, ⟨_, rfl⟩, prefix_append _ _⟩

/-- A contribution knows how it was left out. -/
theorem entry_out : (c.entry code prov state).2.out = (c.entry code prov state).1.out := by
  unfold entry
  split
  · rfl
  · split
    · rfl
    · rename_i v state' _
      obtain ⟨-, -, -, ⟨entries, hmade⟩, -⟩ : _ ∧ _ ∧ _ ∧ (∃ _, (c.keep code { state' with out := .none } v).2 = _) ∧ _ := keep_spec v
      show (c.keep code { state' with out := .none } v).2.out = .none
      rw [hmade]

/-- What a contribution gives. -/
structure EntrySpec (code : PluginCode V ε Fn) (c : RegistryContribution) (provider : Provider Fn)
    (state : ContributionState V ε Fn) (given : Given V ε) (state' : ContributionState V ε Fn) : Prop where
  valid : state'.Valid code
  extends_ : state.Extends state'
  value : (Registry.given given).map (·.value) = c.valueNow code provider state.raw
  named : ∀ e, Registry.given given = some e → e.contribution = c ∧ state'.entries[e.index]? = some e.value

theorem entry_spec (hvald : state.Valid code) :
    EntrySpec code c prov state (c.entry code prov state).1 (c.entry code prov state).2 := by
  unfold entry
  split
  · rename_i hrefused
    refine ⟨hvald, ⟨rfl, prefix_rfl⟩, ?_, fun e he => (nomatch he)⟩
    unfold valueNow
    rw [if_pos hrefused]
    rfl
  · rename_i haccd
    obtain ⟨hval, hkept, adapted', hrest⟩ := value_spec hvald (show c.isRefused prov = false by simpa using haccd)
    split
    · rename_i err state' heq
      rw [heq] at hval hkept hrest
      have hfrm : state' = { state with adapted := adapted' } := hrest
      have hraw : state'.raw = state.raw := by rw [hfrm]
      have hents : state'.entries = state.entries := by rw [hfrm]
      exact ⟨hkept, ⟨hraw, hents ▸ prefix_rfl⟩, hval, fun e he => (nomatch he)⟩
    · rename_i v state' heq
      rw [heq] at hval hkept hrest
      have hfrm : state' = { state with adapted := adapted' } := hrest
      have hraw : state'.raw = state.raw := by rw [hfrm]
      have hents : state'.entries = state.entries := by rw [hfrm]
      have hspec : _ = c ∧ _ ∧ _ ∧ (∃ _, (c.keep code { state' with out := .none } v).2 = _) ∧ _ := keep_spec v
      generalize c.keep code { state' with out := .none } v = res at hspec ⊢
      obtain ⟨entry, state''⟩ := res
      obtain ⟨hown, hent, hnamed, ⟨es, hmade⟩, hbegins⟩ := hspec
      replace hmade : state'' = { state' with out := .none, entries := es } := hmade
      have hbegins' : state.entries <+: state''.entries := hents ▸ hbegins
      refine ⟨fun adapted hadapted => hkept adapted ?_, ⟨?_, hbegins'⟩, ?_, fun e he => ?_⟩
      · have hsame : state''.adapted = state'.adapted := by rw [hmade]
        rwa [hsame] at hadapted
      · have hsame : state''.raw = state'.raw := by rw [hmade]
        exact hsame.trans hraw
      · rw [← hval]
        exact congrArg some hent
      · cases he
        exact ⟨hown, hnamed.trans (congrArg some hent.symm)⟩

end RegistryContribution

/-! ## The table -/

/-- A log that says no composition was made since. -/
def Quiet (log log' : List (RegistryEvent V ε Fn)) : Prop :=
  ∃ more, log' = log ++ more ∧ ∀ good conflicts, RegistryEvent.composed good conflicts ∉ more

namespace Quiet

variable {log log' log'' : List (RegistryEvent V ε Fn)}

theorem refl (log : List (RegistryEvent V ε Fn)) : Quiet log log := ⟨[], (append_nil log).symm, fun _ _ => not_mem_nil⟩

theorem trans (h : Quiet log log') (h' : Quiet log' log'') : Quiet log log'' := by
  obtain ⟨more, rfl, hmore⟩ := h
  obtain ⟨more', rfl, hmore'⟩ := h'
  refine ⟨more ++ more', append_assoc .., fun good cfs hmem => ?_⟩
  rcases mem_append.mp hmem with hmem | hmem
  · exact hmore good cfs hmem
  · exact hmore' good cfs hmem

theorem append {evs : List (RegistryEvent V ε Fn)} (h : ∀ good cfs, RegistryEvent.composed good cfs ∉ evs) :
    Quiet log (log ++ evs) := ⟨evs, rfl, h⟩

theorem mem_iff (h : Quiet log log') {good : Good V Fn} {cfs : List Text} :
    RegistryEvent.composed good cfs ∈ log' ↔ RegistryEvent.composed good cfs ∈ log := by
  obtain ⟨more, rfl, hmore⟩ := h
  rw [mem_append, or_iff_left (hmore good cfs)]

end Quiet

/-- A table's entries are ones their contributions made. -/
def Named (states : RegistryContribution → ContributionState V ε Fn) (table : List (TableEntry V)) : Prop :=
  ∀ e ∈ table, (states e.contribution).entries[e.index]? = some e.value

theorem Named.mono {states states' : RegistryContribution → ContributionState V ε Fn} {tbl : List (TableEntry V)}
    (h : Named states tbl) (hextends : ∀ c, (states c).Extends (states' c)) : Named states' tbl :=
  fun e he => getElem?_of_prefix (hextends e.contribution).entries (h e he)

/-- **Entry objects name their values:** tables of the same objects are the same. -/
theorem Named.eq_of_identity {states : RegistryContribution → ContributionState V ε Fn} {tbl tbl' : List (TableEntry V)}
    (h : Named states tbl) (h' : Named states tbl')
    (heq : tbl.map TableEntry.identity = tbl'.map TableEntry.identity) : tbl = tbl' := by
  induction tbl generalizing tbl' with
  | nil => exact (map_eq_nil_iff.mp heq.symm).symm
  | cons e rest ih =>
    cases tbl' with
    | nil => cases heq
    | cons e' rest' =>
      obtain ⟨hhead, htail⟩ := cons.inj heq
      have hrest := ih (fun x hx => h x (mem_cons_of_mem _ hx)) (fun x hx => h' x (mem_cons_of_mem _ hx)) htail
      have hval := h e mem_cons_self
      have hval' := h' e' mem_cons_self
      obtain ⟨c', idx', v'⟩ := e'
      cases hhead
      cases hval.symm.trans hval'
      rw [hrest]

namespace Registry

/-- The entries of the contributions now. -/
def entriesNow (code : PluginCode V ε Fn) (provider : Provider Fn) (states : RegistryContribution → ContributionState V ε Fn)
    (contributions : List RegistryContribution) : List (RegistryEntry V) :=
  contributions.filterMap fun c => (c.valueNow code provider (states c).raw).map fun value =>
    ⟨c.contributor.plugin, c.contributor.type, c.version, value⟩

theorem entriesNow_congr {code : PluginCode V ε Fn} {prov : Provider Fn}
    {states states' : RegistryContribution → ContributionState V ε Fn} {cbs : List RegistryContribution}
    (h : ∀ c ∈ cbs, (states' c).raw = (states c).raw) :
    entriesNow code prov states' cbs = entriesNow code prov states cbs :=
  filterMap_congr fun c hc => by rw [h c hc]

variable [DecidableEq Fn] {code : PluginCode V ε Fn} {prov : Provider Fn}

theorem entryOf_eq (s : Registry V ε Fn) (c : RegistryContribution) :
    (s.entryOf code prov c).2 = given (c.entry code prov (s.states c)).1 ∧
      (s.entryOf code prov c).1 = { s with
        states := Function.update s.states c (c.entry code prov (s.states c)).2
        log := (s.entryOf code prov c).1.log } ∧
      Quiet s.log (s.entryOf code prov c).1.log := by
  have hbuilt : ∀ out, Quiet s.log (s.log ++ [RegistryEvent.built c out]) := fun out => .append fun _ _ h => by simp at h
  unfold entryOf
  dsimp only
  split
  · split
    · exact ⟨rfl, rfl, (hbuilt _).trans (.append fun _ _ h => by simp at h)⟩
    · exact ⟨rfl, rfl, hbuilt _⟩
  · exact ⟨rfl, rfl, hbuilt _⟩

/-- What a build does. -/
structure BuildSpec (code : PluginCode V ε Fn) (provider : Provider Fn) (s : Registry V ε Fn) (contributions : List RegistryContribution)
    (s' : Registry V ε Fn) (table : List (TableEntry V)) : Prop where
  frame : ∃ states log, s' = { s with states := states, log := log }
  quiet : Quiet s.log s'.log
  valid : ∀ c, (s'.states c).Valid code
  extends_ : ∀ c, (s.states c).Extends (s'.states c)
  entries : table.map TableEntry.entry = entriesNow code provider s.states contributions
  named : Named s'.states table
  owners : ∀ e ∈ table, e.contribution ∈ contributions

theorem buildFrom_spec {s : Registry V ε Fn} (hvald : ∀ c, (s.states c).Valid code) (cbs : List RegistryContribution) :
    BuildSpec code prov s cbs (buildFrom code prov s cbs).1 (buildFrom code prov s cbs).2 := by
  induction cbs generalizing s with
  | nil =>
    exact ⟨⟨_, _, rfl⟩, .refl _, hvald, fun c => .refl _, rfl, nofun, nofun⟩
  | cons c rest ih =>
    have hent : RegistryContribution.EntrySpec code c prov (s.states c) _ _ := RegistryContribution.entry_spec (hvald c)
    obtain ⟨hgiven, hfrm, hqui⟩ : _ ∧ _ ∧ Quiet _ (s.entryOf code prov c).1.log := entryOf_eq s c
    rw [buildFrom]
    generalize s.entryOf code prov c = result at hgiven hfrm hqui ⊢
    obtain ⟨s₁, ent⟩ := result
    dsimp only at hgiven hfrm hqui ⊢
    have hstates : s₁.states = update s.states c (c.entry code prov (s.states c)).2 := congrArg states hfrm
    have hextends : ∀ c', (s.states c').Extends (s₁.states c') := by
      intro c'
      rw [hstates]
      by_cases hc : c' = c
      · subst hc
        rw [update_self]
        exact hent.extends_
      · rw [update_of_ne hc]
        exact .refl _
    have hvald₁ : ∀ c', (s₁.states c').Valid code := by
      intro c'
      rw [hstates]
      by_cases hc : c' = c
      · subst hc
        rw [update_self]
        exact hent.valid
      · rw [update_of_ne hc]
        exact hvald c'
    have hrest := ih hvald₁
    refine ⟨?_, hqui.trans hrest.quiet, hrest.valid, fun c' => (hextends c').trans (hrest.extends_ c'), ?_, fun e he => ?_, fun e he => ?_⟩
    · obtain ⟨states, log, heq⟩ := hrest.frame
      exact ⟨states, log, heq.trans (by rw [hfrm])⟩
    · rw [map_append, hrest.entries, entriesNow_congr fun c' _ => (hextends c').raw]
      unfold entriesNow
      rw [filterMap_cons, ← hent.value, ← hgiven]
      cases ent with
      | none => rfl
      | some e =>
        obtain ⟨hown, -⟩ := hent.named e hgiven.symm
        show TableEntry.entry e :: _ = _
        rw [TableEntry.entry, hown]
        rfl
    · rcases mem_append.mp he with he | he
      · rw [mem_toList] at he
        obtain ⟨hown, hnamed⟩ := hent.named e (hgiven.symm.trans he)
        refine getElem?_of_prefix (hrest.extends_ e.contribution).entries ?_
        rw [hstates, hown, update_self]
        exact hnamed
      · exact hrest.named e he
    · rcases mem_append.mp he with he | he
      · rw [mem_toList] at he
        rw [(hent.named e (hgiven.symm.trans he)).1]
        exact mem_cons_self
      · exact mem_cons_of_mem c (hrest.owners e he)

end Registry

end PiBridge.Chord
