import PiBridge.Chord.Documents.Residency

/-!
# `Chord.Correctness.Residents` — residency tracks exactly the idle documents

The residents in the idle map are the persisted ones whose key is not pinned, in the order of their uses (`Sound`). An
operation changes a slot at one key, and leaves there a resident that is in use (`Sound.use`), one that is no longer idle
(`Sound.leave`), or what was there (`Sound.keep`). A sweep evicts what has been idle for the retention and nothing else
(`sweep_resides`), so no pinned document.
-/

namespace PiBridge.Chord.Documents

open Lib List Option Assoc Documents

variable {V S : Type}

/-! ## What is idle -/

/-- The resident of a key is persisted, and the key is not pinned. -/
def KeyedSlot.Idles (slot : KeyedSlot V S) (key : Text) (serial : Nat) : Prop :=
  slot.persisted = true ∧ (∃ resident, Assoc.get? slot.residents key = some resident ∧ resident.serial = serial) ∧
    Assoc.get? slot.sources key = none

namespace Documents

/-- A document is in memory. -/
def Resides (d : Documents V S) (ref : Ref) : Prop :=
  ∃ slot resident, d.slots[ref.slot]? = some slot ∧ Assoc.get? slot.residents ref.key = some resident ∧ resident.serial = ref.serial

/-- A key has a source. -/
def Pinned (d : Documents V S) (i : Nat) (key : Text) : Prop := ∃ slot, d.slots[i]? = some slot ∧ (Assoc.get? slot.sources key).isSome

/-- A persisted resident whose key is not pinned. -/
def Idle (d : Documents V S) (ref : Ref) : Prop := ∃ slot, d.slots[ref.slot]? = some slot ∧ slot.Idles ref.key ref.serial

theorem Idle.resides {d : Documents V S} {ref : Ref} (h : d.Idle ref) : d.Resides ref := by
  obtain ⟨slot, hslot, -, ⟨rsd, hresid, hser⟩, -⟩ := h
  exact ⟨slot, rsd, hslot, hresid, hser⟩

theorem Idle.not_pinned {d : Documents V S} {ref : Ref} (h : d.Idle ref) : ¬d.Pinned ref.slot ref.key := by
  obtain ⟨slot, hslot, -, -, hsrc⟩ := h
  rintro ⟨slot', hslot', hpinned⟩
  cases hslot.symm.trans hslot'
  rw [hsrc] at hpinned
  cases hpinned

end Documents

/-! ## The residency -/

namespace Residency

variable {r : Residency} {now : Int} {ref : Ref}

/-- While something is idle a sweep is pending, unless the object ended. -/
def Pending (r : Residency) : Prop := r.ended = false → r.idle ≠ [] → r.sweep.isSome = true

section

variable (r)

theorem schedule_idle : r.schedule.idle = r.idle := by
  unfold schedule
  split
  · rfl
  · split <;> rfl

theorem schedule_ended : r.schedule.ended = r.ended := by
  unfold schedule
  split
  · rfl
  · split <;> rfl

theorem schedule_pending : r.schedule.Pending := by
  intro hend hidle
  rw [schedule_ended] at hend
  rw [schedule_idle] at hidle
  unfold schedule
  split
  · rename_i hnil
    exact absurd hnil hidle
  · rw [if_neg (by simp [hend])]
    rfl

theorem ensure_pending : r.ensure.Pending := by
  unfold ensure
  split
  · exact r.schedule_pending
  · rename_i h
    intro _ _
    exact isSome_iff_ne_none.mpr (by simpa using h)

theorem ensure_idle : r.ensure.idle = r.idle := by
  unfold ensure
  split
  · exact r.schedule_idle
  · rfl

theorem touch_idle (ref : Ref) (now : Int) : (r.touch ref now).idle = Recent.touch granule now r.idle ref := by
  unfold touch Recent.touch
  cases hget : get? r.idle ref with
  | none => exact ensure_idle _
  | some snc =>
    by_cases hhot : now - snc < granule
    · simp [hhot]
    · simp only [any_some, hhot, decide_false, Bool.false_eq_true, if_false]
      exact ensure_idle _

end

theorem touch_pending (h : r.Pending) (ref : Ref) (now : Int) : (r.touch ref now).Pending := by
  unfold touch
  split
  · exact h
  · exact ensure_pending _

theorem forget_pending (h : r.Pending) (ref : Ref) : (r.forget ref).Pending := by
  intro hend hidle
  refine h hend fun hnil => hidle ?_
  show erase r.idle ref = []
  rw [hnil]
  rfl

/-- What a sweep evicts: what was used last the retention ago, or before. -/
theorem runSweep_spec (htimely : Recent.Timely now r.idle) (hend : r.ended = false) (serial : Nat) (now' : Int) :
    (r.runSweep serial now').1 = (r.idle.filter fun p => decide (p.2 ≤ now' - retention)).map Prod.fst ∧
      (r.runSweep serial now').2.idle = r.idle.filter fun p => decide (now' - retention < p.2) := by
  obtain ⟨htake, hdrop⟩ := htimely.split (now' - retention)
  have hrun : ∀ r' : Residency, r'.idle = r.idle → r'.ended = false →
      (r'.evictExpired now').1 = (r.idle.filter fun p => decide (p.2 ≤ now' - retention)).map Prod.fst ∧
        (r'.evictExpired now').2.idle = r.idle.filter fun p => decide (now' - retention < p.2) := by
    intro r' hidle hend
    rw [evictExpired, hend, if_neg (by decide)]
    dsimp only
    rw [ensure_idle, hidle, htake]
    exact ⟨rfl, hdrop⟩
  unfold runSweep
  split
  · exact hrun _ rfl hend
  · exact hrun r rfl hend

/-- Without an end a sweep leaves the next one pending; after one it does nothing. -/
theorem evictExpired_pending (r : Residency) (now : Int) : (r.evictExpired now).2.Pending := by
  unfold evictExpired
  split
  · rename_i hend
    intro hnot
    rw [hend] at hnot
    cases hnot
  · exact ensure_pending _

theorem runSweep_pending (r : Residency) (serial : Nat) (now : Int) : (r.runSweep serial now).2.Pending := by
  unfold runSweep
  split
  · exact evictExpired_pending _ _
  · exact evictExpired_pending _ _

end Residency

/-! ## Changes at one key -/

/-- A slot is the same at every other key. -/
structure SameElsewhere (slot slot' : KeyedSlot V S) (key : Text) : Prop where
  persisted : slot'.persisted = slot.persisted
  residents : ∀ key', key' ≠ key → Assoc.get? slot'.residents key' = Assoc.get? slot.residents key'
  sources : ∀ key', key' ≠ key → Assoc.get? slot'.sources key' = Assoc.get? slot.sources key'

theorem SameElsewhere.idles {slot slot' : KeyedSlot V S} {key key' : Text} (h : SameElsewhere slot slot' key) (hne : key' ≠ key)
    (serial : Nat) : slot'.Idles key' serial ↔ slot.Idles key' serial := by
  rw [KeyedSlot.Idles, KeyedSlot.Idles, h.persisted, h.residents key' hne, h.sources key' hne]

section Elsewhere

variable (slot : KeyedSlot V S) (key : Text)

theorem SameElsewhere.refl : SameElsewhere slot slot key := ⟨rfl, fun _ _ => rfl, fun _ _ => rfl⟩

theorem sameElsewhere_setResident (rsd : Resident V S) : SameElsewhere slot (slot.setResident key rsd) key where
  persisted := rfl
  residents _ hne := get?_set_ne _ _ hne.symm
  sources _ _ := rfl

theorem sameElsewhere_dropResident : SameElsewhere slot (slot.dropResident key) key where
  persisted := rfl
  residents _ hne := get?_erase_ne _ hne.symm
  sources _ _ := rfl

theorem sameElsewhere_setSource (src : KeySource V) : SameElsewhere slot (slot.setSource key src) key where
  persisted := rfl
  residents _ _ := rfl
  sources _ hne := get?_set_ne _ _ hne.symm

theorem sameElsewhere_dropSource : SameElsewhere slot (slot.dropSource key) key where
  persisted := rfl
  residents _ _ := rfl
  sources _ hne := get?_erase_ne _ hne.symm

end Elsewhere

/-- The idle map is exact, in the order of uses, and swept. -/
structure Sound (d : Documents V S) (now : Int) : Prop where
  exact : ∀ ref, ref ∈ d.residency.idle.map Prod.fst ↔ d.Idle ref
  timely : Recent.Timely now d.residency.idle
  pending : d.residency.Pending

namespace Sound

variable {d d' : Documents V S} {now : Int} {i : Nat} {slot slot' : KeyedSlot V S} {key : Text}

/-- Only the slots and the residency matter. -/
theorem congr (h : Sound d now) (hslots : d'.slots = d.slots) (hresidency : d'.residency = d.residency) : Sound d' now := by
  refine ⟨fun ref => ?_, hresidency ▸ h.timely, hresidency ▸ h.pending⟩
  rw [hresidency, h.exact ref, Idle, Idle, hslots]

/-- A slot is another, and the idle map with it at one key. -/
theorem exact_of_change (h : Sound d now) (d' : Documents V S) (hslot : d.slots[i]? = some slot) (hslots : d'.slots = d.slots.set i slot')
    (hothers : ∀ key', key' ≠ key → ∀ serial, slot'.Idles key' serial ↔ slot.Idles key' serial)
    (hkeys : ∀ ref : Ref, ref.slot ≠ i ∨ ref.key ≠ key → (ref ∈ d'.residency.idle.map Prod.fst ↔ ref ∈ d.residency.idle.map Prod.fst))
    (hkey : ∀ serial, (⟨i, key, serial⟩ : Ref) ∈ d'.residency.idle.map Prod.fst ↔ slot'.Idles key serial) (ref : Ref) :
    ref ∈ d'.residency.idle.map Prod.fst ↔ d'.Idle ref := by
  have hlt : i < d.slots.length := (List.getElem?_eq_some_iff.mp hslot).1
  have hself : d'.slots[i]? = some slot' := by rw [hslots, getElem?_set_self hlt]
  obtain ⟨j, key', serial⟩ := ref
  by_cases hj : j = i
  · subst hj
    have hidle : d'.Idle ⟨j, key', serial⟩ ↔ slot'.Idles key' serial := by
      constructor
      · rintro ⟨s, hs, hidles⟩
        cases hs.symm.trans hself
        exact hidles
      · exact fun hidles => ⟨slot', hself, hidles⟩
    rw [hidle]
    by_cases hk : key' = key
    · subst hk
      exact hkey serial
    · rw [hkeys _ (Or.inr hk), h.exact, hothers key' hk serial]
      constructor
      · rintro ⟨s, hs, hidles⟩
        cases hs.symm.trans hslot
        exact hidles
      · exact fun hidles => ⟨slot, hslot, hidles⟩
  · have hoth : d'.slots[j]? = d.slots[j]? := by rw [hslots, getElem?_set_ne (Ne.symm hj)]
    rw [hkeys _ (Or.inl hj), h.exact, Idle, Idle, hoth]

theorem setSlot_getElem? (hslot : d.slots[i]? = some slot) (slot' : KeyedSlot V S) : (d.setSlot i slot').slots[i]? = some slot' :=
  List.getElem?_set_self (List.getElem?_eq_some_iff.mp hslot).1

section

variable (h : Sound d now) (hslot : d.slots[i]? = some slot)

include h hslot

/-- **A resident is used.** What was idle at its key was this resident, and the key is not pinned since. -/
theorem use (hsame : SameElsewhere slot slot' key) {rsd : Resident V S}
    (hresid : Assoc.get? slot'.residents key = some rsd)
    (hbef : ∀ serial, slot.Idles key serial → serial = rsd.serial ∧ Assoc.get? slot'.sources key = none) :
    Sound ((d.setSlot i slot').touch i key rsd.serial now) now := by
  have hself := setSlot_getElem? hslot slot'
  have hidles : ∀ serial, slot'.Idles key serial ↔ slot'.persisted = true ∧ get? slot'.sources key = none ∧ serial = rsd.serial := by
    intro serial
    rw [KeyedSlot.Idles, hresid]
    constructor
    · rintro ⟨hp, ⟨r, hr, rfl⟩, hs⟩
      exact ⟨hp, hs, by rw [some.inj hr]⟩
    · rintro ⟨hp, hs, rfl⟩
      exact ⟨hp, ⟨rsd, rfl, rfl⟩, hs⟩
  have hin : ∀ serial, (⟨i, key, serial⟩ : Ref) ∈ d.residency.idle.map Prod.fst → serial = rsd.serial ∧
      slot'.persisted = true ∧ get? slot'.sources key = none := by
    intro serial hmem
    obtain ⟨s, hs, hidle⟩ := (h.exact _).mp hmem
    cases hs.symm.trans hslot
    obtain ⟨hser, hsrc⟩ := hbef serial hidle
    exact ⟨hser, hsame.persisted.trans hidle.1, hsrc⟩
  rw [touch, hself]
  dsimp only
  split
  · rename_i hcond
    obtain ⟨hp, hs⟩ := Bool.and_eq_true_iff.mp hcond
    have hs : get? slot'.sources key = none := isNone_iff_eq_none.mp hs
    have hmem : ∀ ref, ref ∈ (d.residency.touch ⟨i, key, rsd.serial⟩ now).idle.map Prod.fst ↔
        ref = ⟨i, key, rsd.serial⟩ ∨ ref ∈ d.residency.idle.map Prod.fst := by
      intro ref
      rw [Residency.touch_idle]
      exact Recent.mem_keys_touch
    refine ⟨h.exact_of_change _ hslot rfl (fun key' hne => hsame.idles hne) (fun ref hne => ?_) fun serial => ?_, ?_, ?_⟩
    · refine (hmem ref).trans (or_iff_right ?_)
      rintro rfl
      exact hne.elim (fun hi => hi rfl) (fun hk => hk rfl)
    · rw [hidles]
      refine (hmem _).trans ⟨?_, ?_⟩
      · rintro (heq | hold)
        · exact ⟨hp, hs, congrArg Ref.serial heq⟩
        · exact ⟨hp, hs, (hin serial hold).1⟩
      · rintro ⟨-, -, rfl⟩
        exact Or.inl rfl
    · show Recent.Timely now (d.residency.touch _ now).idle
      rw [Residency.touch_idle]
      exact h.timely.touch granule _
    · exact Residency.touch_pending h.pending _ _
  · rename_i hcond
    refine ⟨fun ref => ?_, h.timely, h.pending⟩
    refine h.exact_of_change (d.setSlot i slot') hslot rfl (fun key' hne => hsame.idles hne) (fun _ _ => Iff.rfl)
      (fun serial => ?_) ref
    rw [hidles]
    constructor
    · intro hmem
      obtain ⟨-, hp, hs⟩ := hin serial hmem
      exact absurd (Bool.and_eq_true_iff.mpr ⟨hp, by rw [hs]; rfl⟩) hcond
    · rintro ⟨hp, hs, -⟩
      exact absurd (Bool.and_eq_true_iff.mpr ⟨hp, by rw [hs]; rfl⟩) hcond

/-- **A resident is no longer idle**: it is pinned, or it left memory. -/
theorem leave (hsame : SameElsewhere slot slot' key) {serial : Nat}
    (hbef : ∀ s, slot.Idles key s → s = serial) (haft : ∀ s, ¬slot'.Idles key s) :
    Sound ((d.setSlot i slot').forget i key serial) now := by
  have hmem : ∀ ref, ref ∈ (erase d.residency.idle (⟨i, key, serial⟩ : Ref)).map Prod.fst ↔
      ref ≠ ⟨i, key, serial⟩ ∧ ref ∈ d.residency.idle.map Prod.fst := fun ref => Recent.mem_keys_erase
  refine ⟨h.exact_of_change _ hslot rfl (fun key' hne => hsame.idles hne) (fun ref hne => ?_) fun s => ?_, ?_, ?_⟩
  · refine (hmem ref).trans (and_iff_right ?_)
    rintro rfl
    exact hne.elim (fun hi => hi rfl) (fun hk => hk rfl)
  · refine (hmem _).trans (iff_of_false ?_ (haft s))
    rintro ⟨hne, hold⟩
    obtain ⟨s', hs', hidle⟩ := (h.exact _).mp hold
    cases hs'.symm.trans hslot
    exact hne (by rw [hbef s hidle])
  · exact h.timely.erase _
  · exact Residency.forget_pending h.pending _

/-- **What is idle in a slot stays so.** -/
theorem keep
    (hidles : ∀ key serial, slot'.Idles key serial ↔ slot.Idles key serial) : Sound (d.setSlot i slot') now := by
  refine ⟨fun ref => ?_, h.timely, h.pending⟩
  refine @exact_of_change _ _ _ _ _ _ slot' ref.key h (d.setSlot i slot') hslot rfl (fun key' _ => hidles key')
    (fun _ _ => Iff.rfl) (fun serial => ?_) ref
  rw [hidles]
  refine (h.exact _).trans ⟨?_, fun hidle => ⟨slot, hslot, hidle⟩⟩
  rintro ⟨s, hs, hidle⟩
  cases hs.symm.trans hslot
  exact hidle

end

end Sound

/-! ## Operations -/

section Slot

variable (slot : KeyedSlot V S) (key : Text)

theorem SameElsewhere.trans {slot slot' slot'' : KeyedSlot V S} {key : Text} (h : SameElsewhere slot slot' key)
    (h' : SameElsewhere slot' slot'' key) : SameElsewhere slot slot'' key where
  persisted := h'.persisted.trans h.persisted
  residents key' hne := (h'.residents key' hne).trans (h.residents key' hne)
  sources key' hne := (h'.sources key' hne).trans (h.sources key' hne)

/-- Of a resident only its serial matters. -/
theorem idles_iff (serial : Nat) : slot.Idles key serial ↔
    slot.persisted = true ∧ (Assoc.get? slot.residents key).map (·.serial) = some serial ∧ Assoc.get? slot.sources key = none := by
  rw [KeyedSlot.Idles, map_eq_some_iff]

theorem setReady_residents : (slot.setReady key).residents = slot.residents := by
  unfold KeyedSlot.setReady
  split <;> rfl

theorem setReady_persisted : (slot.setReady key).persisted = slot.persisted := by
  unfold KeyedSlot.setReady
  split <;> rfl

theorem sameElsewhere_setReady : SameElsewhere slot (slot.setReady key) key := by
  unfold KeyedSlot.setReady
  split
  · exact SameElsewhere.refl slot key
  · exact sameElsewhere_setSource slot key _

theorem setReady_source (key' : Text) : (Assoc.get? (slot.setReady key).sources key').map (fun src => (src.serial, src.pins)) =
    (Assoc.get? slot.sources key').map fun src => (src.serial, src.pins) := by
  unfold KeyedSlot.setReady
  cases hsrc : get? slot.sources key with
  | none => rfl
  | some src =>
    dsimp only [KeyedSlot.setSource]
    rw [get?_set]
    split
    · rename_i heq
      subst heq
      rw [hsrc]
      rfl
    · rfl

theorem accessed_serial {rsd rsd' : Resident V S} (h : slot.accessed rsd = some rsd') :
    rsd'.serial = rsd.serial := by
  unfold KeyedSlot.accessed at h
  split at h
  · rw [some.inj h]
  · obtain ⟨v, -, rfl⟩ := map_eq_some_iff.mp h
    rfl

/-- Migrating the pinned residents leaves each what it is. -/
theorem migratePinned_serial {residents : Assoc Text (Resident V S)} (h : slot.migratePinned = some residents) :
    (Assoc.get? residents key).map (·.serial) = (Assoc.get? slot.residents key).map (·.serial) := by
  unfold KeyedSlot.migratePinned at h
  generalize slot.residents = bef at h
  induction bef generalizing residents with
  | nil =>
    cases h
    rfl
  | cons p bef ih =>
    rw [mapM_cons] at h
    obtain ⟨p', hp, h⟩ := bind_eq_some_iff.mp h
    obtain ⟨rest, hrest, h⟩ := bind_eq_some_iff.mp h
    cases h
    have hsame : p'.1 = p.1 ∧ p'.2.serial = p.2.serial := by
      split at hp
      · obtain ⟨rsd, hmigrated, rfl⟩ := map_eq_some_iff.mp hp
        obtain ⟨v, -, rfl⟩ := map_eq_some_iff.mp hmigrated
        exact ⟨rfl, rfl⟩
      · rw [some.inj hp]
        exact ⟨rfl, rfl⟩
    obtain ⟨key'', rsd'⟩ := p'
    obtain ⟨rfl, hser⟩ := hsame
    rw [get?, get?]
    split
    · exact congrArg some hser
    · exact ih hrest

/-- A hydration leaves each resident and each pin what it is. -/
theorem hydrate_same (defn : Definition V) : (slot.hydrate defn).persisted = slot.persisted ∧
    (Assoc.get? (slot.hydrate defn).residents key).map (·.serial) = (Assoc.get? slot.residents key).map (·.serial) ∧
    (Assoc.get? (slot.hydrate defn).sources key).map (fun src => (src.serial, src.pins)) =
      (Assoc.get? slot.sources key).map fun src => (src.serial, src.pins) := by
  unfold KeyedSlot.hydrate
  dsimp only
  split
  · exact ⟨rfl, rfl, rfl⟩
  · split
    · exact ⟨rfl, rfl, rfl⟩
    · rename_i residents hresidents
      have hserials := migratePinned_serial _ key hresidents
      refine ⟨rfl, hserials, ?_⟩
      rw [get?_mapValues, Option.map_map]
      rfl

end Slot

/-- Where a pin is the same, there is a source or none as before. -/
theorem source_none_iff {src src' : Option (KeySource V)}
    (h : src'.map (fun src => (src.serial, src.pins)) = src.map fun src => (src.serial, src.pins)) :
    src' = none ↔ src = none := by
  rw [← map_eq_none_iff, h, map_eq_none_iff]

namespace Sound

variable {d : Documents V S} {now : Int} {i : Nat} {key : Text}

theorem declare (h : Sound d now) (persisted : Bool) (defn : Definition V) : Sound (d.declare persisted defn) now := by
  refine ⟨fun ref => (h.exact ref).trans ?_, h.timely, h.pending⟩
  constructor
  · rintro ⟨slot, hslot, hidle⟩
    refine ⟨slot, ?_, hidle⟩
    show (d.slots ++ _)[ref.slot]? = some slot
    rw [List.getElem?_append_left (List.getElem?_eq_some_iff.mp hslot).1, hslot]
  · rintro ⟨slot, hslot, hidle⟩
    change (d.slots ++ [_])[ref.slot]? = some slot at hslot
    rcases Nat.lt_or_ge ref.slot d.slots.length with hlt | hge
    · rw [getElem?_append_left hlt] at hslot
      exact ⟨slot, hslot, hidle⟩
    · -- a new slot has no documents
      rw [getElem?_append_right hge, getElem?_singleton] at hslot
      split at hslot
      · cases hslot
        obtain ⟨-, ⟨rsd, hresid, -⟩, -⟩ := hidle
        cases hresid
      · cases hslot

theorem get (h : Sound d now) : Sound (d.get i key now) now := by
  unfold Documents.get
  split
  · exact h
  rename_i slot hslot
  split
  · exact h
  rename_i rsd hresid
  split
  · exact h
  rename_i rsd' haccessed
  refine h.use hslot (sameElsewhere_setResident slot key rsd') (get?_set_self _ _ _) fun serial hidle => ?_
  obtain ⟨-, ⟨r, hr, rfl⟩, hsrc⟩ := hidle
  cases hr.symm.trans hresid
  exact ⟨(accessed_serial slot haccessed).symm, hsrc⟩

theorem load (h : Sound d now) (loaded : Option (V × S)) : Sound (d.load i key loaded now) now := by
  unfold Documents.load
  split
  · exact h
  rename_i slot hslot
  have hkeep : Sound (d.setSlot i (slot.setReady key)) now := by
    refine h.keep hslot fun key' serial => ?_
    rw [idles_iff, idles_iff, setReady_residents, setReady_persisted, source_none_iff (setReady_source slot key key')]
  split
  · rename_i v sto hnone
    have hmade : Sound { d with made := d.made + 1 } now := h.congr rfl rfl
    refine hmade.use hslot ((sameElsewhere_setResident slot key _).trans (sameElsewhere_setReady _ key)) ?_ fun serial hidle => ?_
    · rw [setReady_residents]
      exact get?_set_self _ _ _
    · obtain ⟨-, ⟨r, hr, -⟩, -⟩ := hidle
      rw [hnone] at hr
      cases hr
  · exact hkeep

/-- A pinned key's resident is not idle. -/
theorem not_idles_setSource (slot : KeyedSlot V S) (key : Text) (src : KeySource V) (serial : Nat) :
    ¬(slot.setSource key src).Idles key serial := by
  rintro ⟨-, -, hsrc⟩
  rw [KeyedSlot.setSource, get?_set_self] at hsrc
  cases hsrc

/-- Without a resident nothing is idle at a key, whatever its source. -/
theorem keep_absent (h : Sound d now) {slot slot' : KeyedSlot V S} (hslot : d.slots[i]? = some slot)
    (hsame : SameElsewhere slot slot' key) (hbef : ∀ serial, ¬slot.Idles key serial) (haft : ∀ serial, ¬slot'.Idles key serial) :
    Sound (d.setSlot i slot') now := by
  refine h.keep hslot fun key' serial => ?_
  by_cases hkey : key' = key
  · subst hkey
    exact iff_of_false (haft serial) (hbef serial)
  · exact hsame.idles hkey serial

theorem not_idles_of_absent {slot : KeyedSlot V S} (hnone : Assoc.get? slot.residents key = none) (serial : Nat) :
    ¬slot.Idles key serial := by
  rintro ⟨-, ⟨rsd, hresid, -⟩, -⟩
  rw [hnone] at hresid
  cases hresid

section

variable (h : Sound d now)

include h

theorem pin : Sound (d.pin i key) now := by
  unfold Documents.pin
  split
  · exact h
  rename_i slot hslot
  dsimp only
  generalize (get? slot.sources key).getD _ = src
  have hsame := sameElsewhere_setSource slot key { src with pins := src.pins + 1 }
  split
  · rename_i hnone
    exact (h.keep_absent hslot hsame (not_idles_of_absent hnone) (not_idles_setSource slot key _)).congr rfl rfl
  · rename_i rsd hresid
    have hbef : ∀ s, slot.Idles key s → s = rsd.serial := fun s hidle => by
      obtain ⟨-, ⟨r, hr, rfl⟩, -⟩ := hidle
      rw [some.inj (hr.symm.trans hresid)]
    exact (h.leave hslot hsame hbef (not_idles_setSource slot key _)).congr rfl rfl

theorem release (k : Nat) : Sound (d.release k now) now := by
  unfold Documents.release
  split
  · exact h
  rename_i handle hhandle
  split
  · exact h
  have hd : Sound { d with releases := d.releases.set k { handle with released := true } } now := h.congr rfl rfl
  dsimp only
  split
  · exact hd
  rename_i slot hslot
  split
  · exact hd
  rename_i src hsrc
  have hpinned : ∀ serial, ¬slot.Idles handle.key serial := by
    rintro serial ⟨-, -, hnone⟩
    rw [hsrc] at hnone
    cases hnone
  split
  · exact hd
  split
  · exact hd.keep_absent hslot (sameElsewhere_setSource slot _ _) hpinned (not_idles_setSource slot _ _)
  have hsame := sameElsewhere_dropSource slot handle.key
  split
  · rename_i hnone
    exact hd.keep_absent hslot hsame hpinned (not_idles_of_absent hnone)
  · rename_i rsd hresid
    exact hd.use hslot hsame hresid fun serial hidle => absurd hidle (hpinned serial)

theorem adopt (value : V) (stored : Option S) : Sound (d.adopt i key value stored now) now := by
  unfold Documents.adopt
  split
  · exact h
  rename_i slot hslot
  split
  · rename_i hnone
    have hmade : Sound { d with made := d.made + 1 } now := h.congr rfl rfl
    have hself : get? (slot.setResident key ⟨d.made, value, stored, slot.definition.version⟩).residents key =
        some ⟨d.made, value, stored, slot.definition.version⟩ := get?_set_self _ _ _
    exact hmade.use hslot (sameElsewhere_setResident slot key _) hself fun serial hidle =>
      absurd hidle (not_idles_of_absent hnone serial)
  · rename_i rsd hresid
    have hself : get? (slot.setResident key { rsd with value, stored, version := slot.definition.version }).residents key =
        some { rsd with value, stored, version := slot.definition.version } := get?_set_self _ _ _
    have hused := h.use hslot (sameElsewhere_setResident slot key _) hself fun serial hidle => by
      obtain ⟨-, ⟨r, hr, rfl⟩, hsrc⟩ := hidle
      rw [some.inj (hr.symm.trans hresid)]
      exact ⟨rfl, hsrc⟩
    exact hused

theorem retire : Sound (d.retire i key) now := by
  unfold Documents.retire
  split
  · exact h
  rename_i slot hslot
  split
  · exact h
  rename_i rsd hresid
  refine h.leave hslot (sameElsewhere_dropResident slot key) (fun s hidle => ?_) (not_idles_of_absent (get?_erase_self _ _))
  obtain ⟨-, ⟨r, hr, rfl⟩, -⟩ := hidle
  rw [some.inj (hr.symm.trans hresid)]

theorem hydrate (defn : Definition V) : Sound (d.hydrate i defn) now := by
  unfold Documents.hydrate
  split
  · exact h
  rename_i slot hslot
  refine h.keep hslot fun key serial => ?_
  obtain ⟨hpers, hresidents, hsources⟩ := hydrate_same slot key defn
  rw [idles_iff, idles_iff, hpers, hresidents, source_none_iff hsources]

end

end Sound

/-! ## Drops and evictions -/

section Forgotten

variable (i : Nat) (residents : Assoc Text (Resident V S))

theorem mem_forgotten (r : Residency) (ref : Ref) : ref ∈ (residents.foldl (fun r p => r.forget ⟨i, p.1, p.2.serial⟩) r).idle.map Prod.fst ↔
      ref ∈ r.idle.map Prod.fst ∧ ∀ p ∈ residents, ref ≠ ⟨i, p.1, p.2.serial⟩ := by
  induction residents generalizing r with
  | nil => simp
  | cons p residents ih =>
    rw [foldl_cons, ih]
    have herase : ref ∈ (r.forget ⟨i, p.1, p.2.serial⟩).idle.map Prod.fst ↔
        ref ≠ ⟨i, p.1, p.2.serial⟩ ∧ ref ∈ r.idle.map Prod.fst := Recent.mem_keys_erase
    rw [herase, forall_mem_cons]
    constructor
    · rintro ⟨⟨hne, hmem⟩, hrest⟩
      exact ⟨hmem, hne, hrest⟩
    · rintro ⟨hmem, hne, hrest⟩
      exact ⟨⟨hne, hmem⟩, hrest⟩

theorem forgotten_timely {r : Residency} {now : Int} (h : Recent.Timely now r.idle) :
    Recent.Timely now (residents.foldl (fun r p => r.forget ⟨i, p.1, p.2.serial⟩) r).idle := by
  induction residents generalizing r with
  | nil => exact h
  | cons p residents ih => exact ih (h.erase _)

theorem forgotten_pending {r : Residency} (h : r.Pending) : (residents.foldl (fun r p => r.forget ⟨i, p.1, p.2.serial⟩) r).Pending := by
  induction residents generalizing r with
  | nil => exact h
  | cons p residents ih => exact ih (Residency.forget_pending h _)

/-- Forgetting changes the idle map alone. -/
theorem forgotten_ended (r : Residency) : (residents.foldl (fun r p => r.forget ⟨i, p.1, p.2.serial⟩) r).ended = r.ended := by
  induction residents generalizing r with
  | nil => rfl
  | cons p residents ih => exact ih _

end Forgotten

namespace Documents

variable (d : Documents V S)

/-- After a drop a slot has no documents, and every other slot is what it was. -/
theorem drop_slot {i j : Nat} {slot : KeyedSlot V S} (h : (d.drop i).slots[j]? = some slot) :
    j = i ∧ slot.residents = [] ∨ j ≠ i ∧ d.slots[j]? = some slot := by
  unfold drop at h
  split at h
  · rename_i hnone
    by_cases hj : j = i
    · subst hj
      rw [hnone] at h
      cases h
    · exact Or.inr ⟨hj, h⟩
  · rename_i old hold
    by_cases hj : j = i
    · subst hj
      have hself := Sound.setSlot_getElem? hold { old with residents := [], sources := [] }
      cases hself.symm.trans h
      exact Or.inl ⟨rfl, rfl⟩
    · refine Or.inr ⟨hj, ?_⟩
      change (d.slots.set i _)[j]? = some slot at h
      rwa [getElem?_set_ne (Ne.symm hj)] at h

theorem drops_slot {l : List Nat} {j : Nat} {slot : KeyedSlot V S} (h : (l.foldl drop d).slots[j]? = some slot) :
    slot.residents = [] ∨ j ∉ l ∧ d.slots[j]? = some slot := by
  induction l generalizing d with
  | nil => exact Or.inr ⟨not_mem_nil, h⟩
  | cons i l ih =>
    rcases ih (d.drop i) h with hemp | ⟨hnot, hslot⟩
    · exact Or.inl hemp
    · rcases d.drop_slot hslot with ⟨-, hemp⟩ | ⟨hne, hslot⟩
      · exact Or.inl hemp
      · exact Or.inr ⟨by simp [hne, hnot], hslot⟩

/-- An idle map without entries stays so. -/
theorem drop_idle_nil {i : Nat} (h : d.residency.idle = []) : (d.drop i).residency.idle = [] := by
  unfold drop
  split
  · exact h
  · rename_i slot hslot
    have hkeys : ∀ ref, ref ∉ (slot.residents.foldl (fun r p => r.forget ⟨i, p.1, p.2.serial⟩) d.residency).idle.map Prod.fst := by
      intro ref hmem
      have hold := ((mem_forgotten i slot.residents d.residency ref).mp hmem).1
      rw [h] at hold
      cases hold
    exact map_eq_nil_iff.mp (eq_nil_iff_forall_not_mem.mpr hkeys)

variable (ref : Ref) (i : Nat)

theorem drop_ended : (d.drop i).residency.ended = d.residency.ended := by
  unfold drop
  split
  · rfl
  · exact forgotten_ended i _ d.residency

theorem drops_residency (l : List Nat) : (d.residency.idle = [] → (l.foldl drop d).residency.idle = []) ∧
    (l.foldl drop d).residency.ended = d.residency.ended := by
  induction l generalizing d with
  | nil => exact ⟨id, rfl⟩
  | cons i l ih =>
    obtain ⟨hidle, hend⟩ := ih (d.drop i)
    exact ⟨fun h => hidle (d.drop_idle_nil h), hend.trans (d.drop_ended i)⟩

/-- A slot of a persisted document. -/
def Persisted (i : Nat) : Prop := ∃ slot, d.slots[i]? = some slot ∧ slot.persisted = true

theorem idle_iff : d.Idle ref ↔ d.Resides ref ∧ d.Persisted ref.slot ∧ ¬d.Pinned ref.slot ref.key := by
  constructor
  · intro h
    refine ⟨h.resides, ?_, h.not_pinned⟩
    obtain ⟨slot, hslot, hpers, -⟩ := h
    exact ⟨slot, hslot, hpers⟩
  · rintro ⟨⟨slot, rsd, hslot, hresid⟩, ⟨slot', hslot', hpers⟩, hfree⟩
    cases hslot.symm.trans hslot'
    refine ⟨slot, hslot, hpers, ⟨rsd, hresid⟩, ?_⟩
    by_contra hsome
    exact hfree ⟨slot, hslot, isSome_iff_ne_none.mpr hsome⟩

theorem evict_of_not_resides {ref : Ref} (h : ¬d.Resides ref) : d.evict ref = d := by
  unfold evict
  split
  · rfl
  rename_i slot hslot
  split
  · rfl
  rename_i rsd hresid
  exact if_neg fun hser => h ⟨slot, rsd, hslot, hresid, hser⟩

theorem evict_residency : (d.evict ref).residency = d.residency := by
  unfold evict
  split
  · rfl
  split
  · rfl
  split <;> rfl

/-- What evictions leave of a slot. -/
def kept (i : Nat) : Option (Bool × Assoc Text (KeySource V)) := d.slots[i]?.map fun slot => (slot.persisted, slot.sources)

theorem evict_kept : (d.evict ref).kept i = d.kept i := by
  unfold kept evict
  split
  · rfl
  rename_i slot hslot
  split
  · rfl
  split
  · by_cases hi : i = ref.slot
    · subst hi
      rw [Sound.setSlot_getElem? hslot, hslot]
      rfl
    · rw [setSlot, getElem?_set_ne (Ne.symm hi)]
  · rfl

/-- **An eviction takes one document from memory.** -/
theorem evict_resides (ref' : Ref) : (d.evict ref).Resides ref' ↔ d.Resides ref' ∧ ref' ≠ ref := by
  by_cases hresides : d.Resides ref
  · obtain ⟨slot, rsd, hslot, hresid, hser⟩ := hresides
    have hevict : d.evict ref = d.setSlot ref.slot (slot.dropResident ref.key) := by
      rw [evict, hslot]
      dsimp only
      rw [hresid]
      exact if_pos hser
    have hself := Sound.setSlot_getElem? hslot (slot.dropResident ref.key)
    rw [hevict]
    constructor
    · rintro ⟨slot', rsd', hslot', hresid', hser'⟩
      by_cases hi : ref'.slot = ref.slot
      · rw [hi] at hslot'
        cases hself.symm.trans hslot'
        by_cases hkey : ref'.key = ref.key
        · rw [hkey, KeyedSlot.dropResident, get?_erase_self] at hresid'
          cases hresid'
        · rw [KeyedSlot.dropResident, get?_erase_ne _ (Ne.symm hkey)] at hresid'
          exact ⟨⟨slot, rsd', hi ▸ hslot, hresid', hser'⟩, fun heq => hkey (congrArg Ref.key heq)⟩
      · rw [setSlot, getElem?_set_ne (Ne.symm hi)] at hslot'
        exact ⟨⟨slot', rsd', hslot', hresid', hser'⟩, fun heq => hi (congrArg Ref.slot heq)⟩
    · rintro ⟨⟨slot', rsd', hslot', hresid', hser'⟩, hne⟩
      by_cases hi : ref'.slot = ref.slot
      · rw [hi] at hslot'
        cases hslot.symm.trans hslot'
        by_cases hkey : ref'.key = ref.key
        · -- the key's only resident is the one evicted
          rw [hkey] at hresid'
          cases hresid.symm.trans hresid'
          refine absurd ?_ hne
          obtain ⟨j, key, serial⟩ := ref
          obtain ⟨j', key', serial'⟩ := ref'
          dsimp only at hi hkey hser hser'
          rw [hi, hkey, ← hser, ← hser']
        · refine ⟨slot.dropResident ref.key, rsd', hi ▸ hself, ?_, hser'⟩
          rw [KeyedSlot.dropResident, get?_erase_ne _ (Ne.symm hkey)]
          exact hresid'
      · refine ⟨slot', rsd', ?_, hresid', hser'⟩
        rw [setSlot, getElem?_set_ne (Ne.symm hi)]
        exact hslot'
  · rw [d.evict_of_not_resides hresides]
    refine (and_iff_left_of_imp ?_).symm
    rintro hresides' rfl
    exact hresides hresides'

theorem evictions (gone : List Ref) : (∀ ref, (gone.foldl evict d).Resides ref ↔ d.Resides ref ∧ ref ∉ gone) ∧
    (∀ i, (gone.foldl evict d).kept i = d.kept i) ∧ (gone.foldl evict d).residency = d.residency := by
  induction gone generalizing d with
  | nil => simp
  | cons ref gone ih =>
    obtain ⟨hresides, hkept, hresidency⟩ := ih (d.evict ref)
    refine ⟨fun ref' => ?_, fun i => (hkept i).trans (d.evict_kept ref i), hresidency.trans (d.evict_residency ref)⟩
    rw [foldl_cons, hresides, evict_resides, and_assoc, mem_cons, not_or]

theorem persisted_iff : d.Persisted i ↔ (d.kept i).any (·.1) = true := by
  cases hslot : d.slots[i]? <;> simp [Persisted, kept, hslot]

theorem pinned_iff (key : Text) : d.Pinned i key ↔ (d.kept i).any (fun p => (Assoc.get? p.2 key).isSome) = true := by
  cases hslot : d.slots[i]? <;> simp [Pinned, kept, hslot]

end Documents

namespace Sound

variable {d : Documents V S} {now : Int}

theorem drop (h : Sound d now) (i : Nat) : Sound (d.drop i) now := by
  unfold Documents.drop
  split
  · exact h
  rename_i slot hslot
  have hself := setSlot_getElem? hslot { slot with residents := [], sources := [] }
  refine ⟨fun ref => (mem_forgotten i _ _ ref).trans ?_, forgotten_timely i _ h.timely, forgotten_pending i _ h.pending⟩
  rw [h.exact]
  constructor
  · rintro ⟨⟨slot', hslot', hidle⟩, hnot⟩
    refine ⟨slot', ?_, hidle⟩
    by_cases hi : ref.slot = i
    · -- an idle resident of the slot was forgotten
      obtain ⟨j, key, serial⟩ := ref
      subst hi
      cases hslot.symm.trans hslot'
      obtain ⟨-, ⟨rsd, hresid, rfl⟩, -⟩ := hidle
      exact absurd rfl (hnot _ (mem_of_get? hresid))
    · show (d.slots.set i _)[ref.slot]? = some slot'
      rwa [getElem?_set_ne (Ne.symm hi)]
  · rintro ⟨slot', hslot', hidle⟩
    by_cases hi : ref.slot = i
    · rw [hi] at hslot'
      cases hself.symm.trans hslot'
      obtain ⟨-, ⟨rsd, hresid, -⟩, -⟩ := hidle
      cases hresid
    · change (d.slots.set i _)[ref.slot]? = some slot' at hslot'
      rw [getElem?_set_ne (Ne.symm hi)] at hslot'
      refine ⟨⟨slot', hslot', hidle⟩, ?_⟩
      rintro p - rfl
      exact hi rfl

/-- Once the object ended nothing is in memory. -/
theorem endAll (d : Documents V S) (now : Int) : Sound d.endAll now := by
  obtain ⟨hnil, hend⟩ := drops_residency { d with residency := d.residency.endAll } (range d.slots.length)
  have hidle : d.endAll.residency.idle = [] := hnil rfl
  have hend : d.endAll.residency.ended = true := hend
  refine ⟨fun ref => ?_, ?_, fun hnot => ?_⟩
  · rw [hidle]
    refine iff_of_false not_mem_nil ?_
    rintro ⟨slot, hslot, -, ⟨resident, hresid, -⟩, -⟩
    rcases drops_slot _ hslot with hemp | ⟨hnot, hold⟩
    · rw [hemp] at hresid
      cases hresid
    · exact hnot (List.mem_range.mpr (List.getElem?_eq_some_iff.mp hold).1)
  · rw [hidle]
    exact Recent.Timely.nil now
  · rw [hend] at hnot
    cases hnot

end Sound

/-! ## Sweeps -/

section Sweep

variable {d : Documents V S} {now now' : Int} (h : Sound d now) (serial : Nat)

theorem runSweep_ended (hend : d.residency.ended = true) (now : Int) : (d.residency.runSweep serial now).1 = [] ∧
    (d.residency.runSweep serial now).2.idle = d.residency.idle := by
  unfold Residency.runSweep
  split
  · rw [Residency.evictExpired, if_pos hend]
    exact ⟨rfl, rfl⟩
  · rw [Residency.evictExpired, if_pos hend]
    exact ⟨rfl, rfl⟩

/-- A resident has been idle for the retention. -/
def Documents.Expired (d : Documents V S) (now : Int) (ref : Ref) : Prop :=
  ∃ since, (ref, since) ∈ d.residency.idle ∧ retention ≤ now - since

include h

theorem expired_idle {ref : Ref} (hexpired : d.Expired now' ref) : d.Idle ref := by
  obtain ⟨snc, hmem, -⟩ := hexpired
  exact (h.exact ref).mp (mem_map_of_mem hmem)

theorem sweep_gone (hend : d.residency.ended = false) (ref : Ref) : ref ∈ (d.residency.runSweep serial now').1 ↔ d.Expired now' ref := by
  rw [(Residency.runSweep_spec h.timely hend serial now').1]
  constructor
  · intro hmem
    obtain ⟨p, hp, rfl⟩ := mem_map.mp hmem
    obtain ⟨hidle, hold⟩ := mem_filter.mp hp
    refine ⟨p.2, hidle, ?_⟩
    have := of_decide_eq_true hold
    omega
  · rintro ⟨snc, hidle, hold⟩
    exact mem_map.mpr ⟨(ref, snc), mem_filter.mpr ⟨hidle, decide_eq_true (by dsimp only; omega)⟩, rfl⟩

omit h in
theorem sweep_spec : (∀ ref, (d.sweep serial now').Resides ref ↔ d.Resides ref ∧ ref ∉ (d.residency.runSweep serial now').1) ∧
    (∀ i, (d.sweep serial now').kept i = d.kept i) ∧ (d.sweep serial now').residency = (d.residency.runSweep serial now').2 :=
  evictions { d with residency := (d.residency.runSweep serial now').2 } _

/-- **A sweep evicts what has been idle for the retention, and nothing else.** -/
theorem sweep_resides (hend : d.residency.ended = false) (ref : Ref) :
    (d.sweep serial now').Resides ref ↔ d.Resides ref ∧ ¬d.Expired now' ref := by
  rw [← sweep_gone h serial hend]
  exact (sweep_spec serial).1 ref

omit h in
/-- Once the object ended a sweep evicts nothing. -/
theorem sweep_resides_ended (hend : d.residency.ended = true) (ref : Ref) : (d.sweep serial now').Resides ref ↔ d.Resides ref := by
  refine ((sweep_spec serial).1 ref).trans ?_
  rw [(runSweep_ended serial hend now').1]
  exact and_iff_left not_mem_nil

/-- No pinned document is evicted. -/
theorem sweep_keeps_pinned {ref : Ref} (hresides : d.Resides ref) (hpinned : d.Pinned ref.slot ref.key) :
    (d.sweep serial now').Resides ref := by
  cases hend : d.residency.ended with
  | true => exact (sweep_resides_ended serial hend ref).mpr hresides
  | false =>
    exact (sweep_resides h serial hend ref).mpr ⟨hresides, fun hexpired => (expired_idle h hexpired).not_pinned hpinned⟩

theorem Sound.sweep (hle : now ≤ now') : Sound (d.sweep serial now') now' := by
  have htimely := h.timely.mono hle
  refine ⟨fun ref => ?_, ?_, ?_⟩
  · rw [idle_iff, persisted_iff, pinned_iff, (sweep_spec serial).2.1, ← persisted_iff, ← pinned_iff, (sweep_spec serial).2.2]
    cases hend : d.residency.ended with
    | true => rw [sweep_resides_ended serial hend, ← idle_iff, ← h.exact, (runSweep_ended serial hend now').2]
    | false =>
      have hleft : ref ∈ (d.residency.runSweep serial now').2.idle.map Prod.fst ↔ d.Idle ref ∧ ¬d.Expired now' ref := by
        rw [(Residency.runSweep_spec h.timely hend serial now').2, ← h.exact]
        constructor
        · intro hmem
          obtain ⟨p, hp, rfl⟩ := mem_map.mp hmem
          obtain ⟨hidle, hnew⟩ := mem_filter.mp hp
          have hnew := of_decide_eq_true hnew
          refine ⟨mem_map_of_mem hidle, ?_⟩
          rintro ⟨snc, hmem', hold⟩
          -- a key is idle since one time
          have hsinc := (get?_of_mem h.timely.nodup hmem').symm.trans (get?_of_mem h.timely.nodup hidle)
          have := some.inj hsinc
          omega
        · rintro ⟨hmem, hnot⟩
          obtain ⟨p, hidle, rfl⟩ := mem_map.mp hmem
          refine mem_map_of_mem (mem_filter.mpr ⟨hidle, decide_eq_true ?_⟩)
          by_contra hold
          exact hnot ⟨p.2, hidle, by omega⟩
      rw [hleft, idle_iff, sweep_resides h serial hend]
      constructor
      · rintro ⟨⟨hresides, hrest⟩, hnot⟩
        exact ⟨⟨hresides, hnot⟩, hrest⟩
      · rintro ⟨⟨hresides, hnot⟩, hrest⟩
        exact ⟨⟨hresides, hrest⟩, hnot⟩
  · rw [(sweep_spec serial).2.2]
    cases hend : d.residency.ended with
    | true =>
      rw [(runSweep_ended serial hend now').2]
      exact htimely
    | false =>
      rw [(Residency.runSweep_spec htimely hend serial now').2]
      exact htimely.sublist filter_sublist
  · rw [(sweep_spec serial).2.2]
    exact Residency.runSweep_pending _ _ _

end Sweep

theorem Sound.new (now : Int) : Sound (Documents.new : Documents V S) now := by
  refine ⟨fun ref => ?_, Recent.Timely.nil now, fun _ hidle => absurd rfl hidle⟩
  refine iff_of_false not_mem_nil ?_
  rintro ⟨slot, hslot, -⟩
  cases hslot

theorem Sound.later {d : Documents V S} {now now' : Int} (h : Sound d now) (hle : now ≤ now') : Sound d now' :=
  ⟨h.exact, h.timely.mono hle, h.pending⟩

/-- Every step keeps the idle map exact. -/
theorem Sound.step {d : Documents V S} {now now' : Int} (h : Sound d now) (hle : now ≤ now') (lab : Label V S) :
    Sound (d.step now' lab) now' := by
  have hlat := h.later hle
  cases lab with
  | declare persisted defn => exact hlat.declare persisted defn
  | get slot key => exact hlat.get
  | load slot key loaded => exact hlat.load loaded
  | pin slot key => exact hlat.pin
  | release handle => exact hlat.release handle
  | adopt slot key v sto => exact hlat.adopt v sto
  | retire slot key => exact hlat.retire
  | drop slot => exact hlat.drop slot
  | hydrate slot defn => exact hlat.hydrate defn
  | sweep serial => exact h.sweep serial hle
  | endAll => exact Sound.endAll d now'

/-! ## Pins -/

/-- A release that has not run, of a source. -/
def Release.Holds (handle : Release) (i : Nat) (key : Text) (source : Nat) : Bool :=
  !handle.released && decide (handle.slot = i ∧ handle.key = key ∧ handle.source = source)

namespace Documents

/-- The source of a key and its pins. -/
def sourceAt (d : Documents V S) (i : Nat) (key : Text) : Option (Nat × Nat) :=
  (d.kept i).bind fun p => (Assoc.get? p.2 key).map fun source => (source.serial, source.pins)

/-- How many releases of a source have not run. -/
def holders (d : Documents V S) (i : Nat) (key : Text) (source : Nat) : Nat := d.releases.countP (·.Holds i key source)

theorem pinned_iff_source (d : Documents V S) (i : Nat) (key : Text) : d.Pinned i key ↔ (d.sourceAt i key).isSome = true := by
  rw [pinned_iff, sourceAt]
  cases d.kept i <;> simp

variable {d : Documents V S}

theorem sourceAt_congr {d' : Documents V S} (h : d'.slots = d.slots) (i : Nat) (key : Text) : d'.sourceAt i key = d.sourceAt i key := by
  rw [sourceAt, sourceAt, kept, kept, h]

theorem sourceAt_setSlot {i : Nat} {slot : KeyedSlot V S} (hslot : d.slots[i]? = some slot) (slot' : KeyedSlot V S)
    (j : Nat) (key : Text) : (d.setSlot i slot').sourceAt j key =
      if j = i then (Assoc.get? slot'.sources key).map fun src => (src.serial, src.pins) else d.sourceAt j key := by
  rw [sourceAt, kept]
  split
  · rename_i hj
    subst hj
    rw [Sound.setSlot_getElem? hslot]
    rfl
  · rename_i hj
    rw [setSlot, getElem?_set_ne (Ne.symm hj)]
    rfl

theorem sourceAt_of_slot {i : Nat} {slot : KeyedSlot V S} (hslot : d.slots[i]? = some slot) (key : Text) :
    d.sourceAt i key = (Assoc.get? slot.sources key).map fun src => (src.serial, src.pins) := by
  rw [sourceAt, kept, hslot]
  rfl

section Touch

variable (d : Documents V S) (i : Nat) (key : Text) (serial : Nat) (now : Int)

theorem touch_slots : (d.touch i key serial now).slots = d.slots := by
  unfold touch
  split
  · rfl
  · split <;> rfl

theorem touch_releases : (d.touch i key serial now).releases = d.releases := by
  unfold touch
  split
  · rfl
  · split <;> rfl

theorem touch_made : (d.touch i key serial now).made = d.made := by
  unfold touch
  split
  · rfl
  · split <;> rfl

end Touch

theorem evictions_releases (d : Documents V S) (gone : List Ref) :
    (gone.foldl evict d).releases = d.releases ∧ (gone.foldl evict d).made = d.made := by
  induction gone generalizing d with
  | nil => exact ⟨rfl, rfl⟩
  | cons ref gone ih =>
    have hone : (d.evict ref).releases = d.releases ∧ (d.evict ref).made = d.made := by
      unfold evict
      split
      · exact ⟨rfl, rfl⟩
      split
      · exact ⟨rfl, rfl⟩
      split <;> exact ⟨rfl, rfl⟩
    exact ⟨(ih _).1.trans hone.1, (ih _).2.trans hone.2⟩

/-- A source counts its releases that have not run, and there is one. -/
structure Counted (d : Documents V S) : Prop where
  counts : ∀ i key source pins, d.sourceAt i key = some (source, pins) → pins = d.holders i key source ∧ 0 < pins
  made : ∀ handle ∈ d.releases, handle.source < d.made

namespace Counted

variable {d d' : Documents V S} {i : Nat} {key : Text} {slot slot' : KeyedSlot V S}

section

variable (h : d.Counted)

include h

/-- No other sources, and the same releases. -/
theorem of_le (hsources : ∀ i key p, d'.sourceAt i key = some p → d.sourceAt i key = some p)
    (hreleases : d'.releases = d.releases) (hmade : d.made ≤ d'.made) : d'.Counted := by
  refine ⟨fun i key src pins hsrc => ?_, fun handle hhandle => ?_⟩
  · rw [holders, hreleases]
    exact h.counts i key src pins (hsources i key _ hsrc)
  · rw [hreleases] at hhandle
    exact Nat.lt_of_lt_of_le (h.made handle hhandle) hmade

theorem touch (i : Nat) (key : Text) (serial : Nat) (now : Int) : (d.touch i key serial now).Counted :=
  h.of_le (fun j key' p hsrc => (sourceAt_congr (touch_slots d i key serial now) j key').symm.trans hsrc)
    (touch_releases d i key serial now) (touch_made d i key serial now).ge

/-- A slot changes, its pins do not. -/
theorem setSlot (hslot : d.slots[i]? = some slot)
    (hsame : ∀ key, (Assoc.get? slot'.sources key).map (fun src => (src.serial, src.pins)) =
      (Assoc.get? slot.sources key).map fun src => (src.serial, src.pins)) : (d.setSlot i slot').Counted := by
  refine h.of_le (fun j key p hsrc => ?_) rfl (Nat.le_refl _)
  rw [sourceAt_setSlot hslot] at hsrc
  split at hsrc
  · rename_i hj
    subst hj
    rw [sourceAt_of_slot hslot, ← hsame]
    exact hsrc
  · exact hsrc

theorem drop (i : Nat) : (d.drop i).Counted := by
  unfold Documents.drop
  split
  · exact h
  rename_i slot hslot
  refine h.of_le (fun j key p hsrc => ?_) rfl (Nat.le_refl _)
  have hsrc := (sourceAt_setSlot hslot { slot with residents := [], sources := [] } j key).symm.trans hsrc
  split at hsrc
  · cases hsrc
  · exact hsrc

theorem drops (l : List Nat) : (l.foldl Documents.drop d).Counted := by
  induction l generalizing d with
  | nil => exact h
  | cons i l ih => exact ih (h.drop i)

/-- The source of a key was made before. -/
theorem source_made {src pins : Nat} (hsrc : d.sourceAt i key = some (src, pins)) : src < d.made := by
  obtain ⟨hpins, hpos⟩ := h.counts i key src pins hsrc
  rw [hpins, holders, countP_pos_iff] at hpos
  obtain ⟨handle, hmem, hholds⟩ := hpos
  obtain ⟨-, hof⟩ := Bool.and_eq_true_iff.mp hholds
  obtain ⟨-, -, rfl⟩ := of_decide_eq_true hof
  exact h.made handle hmem

end

theorem holds_iff (i j : Nat) (key key' : Text) (src src' : Nat) :
    Release.Holds ⟨i, key, src, false⟩ j key' src' = decide (i = j ∧ key = key' ∧ src = src') := rfl

theorem pin (h : d.Counted) : (d.pin i key).Counted := by
  unfold Documents.pin
  split
  · exact h
  rename_i slot hslot
  -- the key's source, made when there is none
  have hnext : ∀ src : KeySource V, d.sourceAt i key = some (src.serial, src.pins) ∨
      get? slot.sources key = none ∧ src.serial = d.made ∧ src.pins = 0 →
      ({ d.setSlot i (slot.setSource key { src with pins := src.pins + 1 }) with
        made := d.made + 1, releases := d.releases ++ [⟨i, key, src.serial, false⟩] } : Documents V S).Counted := by
    intro src hsrc
    have hcnt : src.pins = d.holders i key src.serial ∧ src.serial ≤ d.made := by
      rcases hsrc with hold | ⟨-, hser, hpins⟩
      · exact ⟨(h.counts i key _ _ hold).1, (h.source_made hold).le⟩
      · refine ⟨?_, hser.le⟩
        rw [hpins, holders, eq_comm, countP_eq_zero]
        intro handle hmem hholds
        obtain ⟨-, hof⟩ := Bool.and_eq_true_iff.mp hholds
        obtain ⟨-, -, hmade⟩ := of_decide_eq_true hof
        have := h.made handle hmem
        omega
    refine ⟨fun j key' serial pins hat => ?_, fun handle hhandle => ?_⟩
    · change (d.setSlot i (slot.setSource key { src with pins := src.pins + 1 })).sourceAt j key' = some (serial, pins) at hat
      rw [sourceAt_setSlot hslot] at hat
      rw [holders, countP_append, countP_singleton, holds_iff]
      by_cases hj : j = i
      · subst hj
        rw [if_pos rfl, KeyedSlot.setSource, get?_set] at hat
        split at hat
        · rename_i hkey
          subst hkey
          cases hat
          rw [if_pos (by simp), hcnt.1]
          exact ⟨rfl, Nat.succ_pos _⟩
        · rename_i hkey
          rw [if_neg (by simp [hkey])]
          exact h.counts j key' serial pins ((sourceAt_of_slot hslot key').trans hat)
      · rw [if_neg hj] at hat
        rw [if_neg (by simp [Ne.symm hj])]
        exact h.counts j key' serial pins hat
    · rcases mem_snoc.mp hhandle with hold | rfl
      · exact Nat.lt_succ_of_lt (h.made handle hold)
      · exact Nat.lt_succ_of_le hcnt.2
  have hsrc : ∀ made : KeySource V, made.serial = d.made → made.pins = 0 →
      d.sourceAt i key = some (((get? slot.sources key).getD made).serial, ((get? slot.sources key).getD made).pins) ∨
        get? slot.sources key = none ∧ ((get? slot.sources key).getD made).serial = d.made ∧
          ((get? slot.sources key).getD made).pins = 0 := by
    intro made hser hpins
    rw [sourceAt_of_slot hslot]
    cases get? slot.sources key with
    | none => exact Or.inr ⟨rfl, hser, hpins⟩
    | some src => exact Or.inl rfl
  have hpinned := hnext _ (hsrc ⟨d.made, 0, !slot.persisted || (get? slot.residents key).isSome, slot.definition.initial⟩ rfl rfl)
  split
  · exact hpinned
  · exact hpinned.of_le (fun _ _ _ => id) rfl (Nat.le_refl _)

end Counted

/-- A release that runs is one less of its own source. -/
theorem holders_released {k : Nat} {handle : Release} (hhandle : d.releases[k]? = some handle)
    (hfst : handle.released = false) (i : Nat) (key : Text) (src : Nat) :
    (d.releases.set k { handle with released := true }).countP (·.Holds i key src) =
      if handle.slot = i ∧ handle.key = key ∧ handle.source = src then d.holders i key src - 1 else d.holders i key src := by
  obtain ⟨hlt, hget⟩ := List.getElem?_eq_some_iff.mp hhandle
  rw [countP_set hlt, hget]
  have hran : Release.Holds { handle with released := true } i key src = false := rfl
  have hnot : handle.Holds i key src = decide (handle.slot = i ∧ handle.key = key ∧ handle.source = src) := by
    rw [Release.Holds, hfst]
    rfl
  rw [hran, hnot, holders]
  by_cases hof : handle.slot = i ∧ handle.key = key ∧ handle.source = src
  · simp [hof]
  · rw [if_neg hof, decide_eq_false hof]
    simp

/-- The releases with one of them run. -/
def ran (d : Documents V S) (k : Nat) (handle : Release) : Documents V S :=
  { d with releases := d.releases.set k { handle with released := true } }

theorem Counted.release (h : d.Counted) (k : Nat) (now : Int) : (d.release k now).Counted := by
  unfold Documents.release
  split
  · exact h
  rename_i handle hhandle
  split
  · exact h
  rename_i hfst
  have hholders := holders_released hhandle (Bool.eq_false_iff.mpr hfst)
  have hmade : ∀ oth ∈ d.releases.set k { handle with released := true }, oth.source < d.made := by
    intro oth hoth
    rcases mem_or_eq_of_mem_set hoth with hold | rfl
    · exact h.made oth hold
    · exact h.made handle (mem_of_getElem? hhandle)
  -- a source other than the handle's counts what it did
  have hoth : ∀ d' : Documents V S, d'.releases = d.releases.set k { handle with released := true } → d'.made = d.made →
      (∀ i key src pins, d'.sourceAt i key = some (src, pins) →
        d.sourceAt i key = some (src, pins) ∧ ¬(handle.slot = i ∧ handle.key = key ∧ handle.source = src) ∨
        pins = d.holders i key src - 1 ∧ 0 < pins ∧ handle.slot = i ∧ handle.key = key ∧ handle.source = src) →
      d'.Counted := by
    intro d' hreleases hsame hsources
    refine ⟨fun i key src pins hsrc => ?_, fun oth hmem => ?_⟩
    · rw [holders, hreleases, hholders]
      rcases hsources i key src pins hsrc with ⟨hold, hnot⟩ | ⟨hpins, hpos, hof⟩
      · rw [if_neg hnot]
        exact h.counts i key src pins hold
      · rw [if_pos hof]
        exact ⟨hpins, hpos⟩
    · rw [hreleases] at hmem
      exact hsame ▸ hmade oth hmem
  dsimp only
  split
  · rename_i hnone
    refine hoth _ rfl rfl fun i key src pins hsrc => Or.inl ⟨hsrc, ?_⟩
    rintro ⟨rfl, -, -⟩
    change (d.kept handle.slot).bind _ = _ at hsrc
    rw [kept, hnone] at hsrc
    cases hsrc
  rename_i slot hslot
  split
  · rename_i hnone
    refine hoth _ rfl rfl fun i key src pins hsrc => Or.inl ⟨hsrc, ?_⟩
    rintro ⟨rfl, rfl, -⟩
    have hsrc := (sourceAt_of_slot hslot handle.key).symm.trans hsrc
    rw [hnone] at hsrc
    cases hsrc
  rename_i cur hcur
  have hat : d.sourceAt handle.slot handle.key = some (cur.serial, cur.pins) := by
    rw [sourceAt_of_slot hslot, hcur]
    rfl
  split
  · rename_i hstale
    refine hoth _ rfl rfl fun i key src pins hsrc => Or.inl ⟨hsrc, ?_⟩
    rintro ⟨rfl, rfl, rfl⟩
    have heq := some.inj (hat.symm.trans hsrc)
    exact hstale (congrArg Prod.fst heq)
  rename_i hown
  have hown : cur.serial = handle.source := not_not.mp hown
  have hcnt := (h.counts _ _ _ _ hat).1
  -- the handle's own source has one pin less, the others are as they were
  have hchgd : ∀ (slot' : KeyedSlot V S) (pin : Option (Nat × Nat)),
      (∀ key, (get? slot'.sources key).map (fun src => (src.serial, src.pins)) =
        if key = handle.key then pin else d.sourceAt handle.slot key) →
      (∀ p, pin = some p → p = (cur.serial, cur.pins - 1) ∧ 0 < p.2) →
      Counted ((ran d k handle).setSlot handle.slot slot') := by
    intro slot' pin hsources hpin
    refine hoth _ rfl rfl fun i key src pins hsrc => ?_
    have hran : (d.ran k handle).slots[handle.slot]? = some slot := hslot
    rw [sourceAt_setSlot hran] at hsrc
    split at hsrc
    · rename_i hi
      subst hi
      rw [hsources] at hsrc
      split at hsrc
      · rename_i hkey
        subst hkey
        obtain ⟨heq, hpos⟩ := hpin _ hsrc
        cases heq
        rw [← hcnt]
        exact Or.inr ⟨rfl, hpos, rfl, rfl, hown.symm⟩
      · rename_i hkey
        exact Or.inl ⟨hsrc, fun hof => hkey hof.2.1.symm⟩
    · rename_i hi
      exact Or.inl ⟨hsrc, fun hof => hi hof.1.symm⟩
  split
  · rename_i hpos
    refine hchgd _ (some (cur.serial, cur.pins - 1)) (fun key => ?_) fun p hp => ?_
    · rw [KeyedSlot.setSource, get?_set, sourceAt_of_slot hslot]
      by_cases hkey : key = handle.key
      · rw [if_pos hkey.symm, if_pos hkey]
        rfl
      · rw [if_neg (Ne.symm hkey), if_neg hkey]
    · cases hp
      exact ⟨rfl, hpos⟩
  · have hdrop := hchgd (slot.dropSource handle.key) none (fun key => ?_) fun p hp => by cases hp
    · split
      · exact hdrop
      · exact hdrop.touch _ _ _ _
    · rw [KeyedSlot.dropSource, sourceAt_of_slot hslot]
      by_cases hkey : key = handle.key
      · rw [if_pos hkey, hkey, get?_erase_self]
        rfl
      · rw [if_neg hkey, get?_erase_ne _ (Ne.symm hkey)]

theorem Counted.declare (h : d.Counted) (persisted : Bool) (defn : Definition V) : (d.declare persisted defn).Counted := by
  refine h.of_le (fun i key p hsrc => ?_) rfl (Nat.le_refl _)
  change ((d.slots ++ [_])[i]?.map fun slot => (slot.persisted, slot.sources)).bind _ = some p at hsrc
  rcases Nat.lt_or_ge i d.slots.length with hlt | hge
  · rw [getElem?_append_left hlt] at hsrc
    exact hsrc
  · -- a new slot has no sources
    rw [getElem?_append_right hge, getElem?_singleton] at hsrc
    split at hsrc
    · cases hsrc
    · cases hsrc

theorem Counted.get (h : d.Counted) (i : Nat) (key : Text) (now : Int) : (d.get i key now).Counted := by
  unfold Documents.get
  split
  · exact h
  rename_i slot hslot
  split
  · exact h
  split
  · exact h
  apply Counted.touch
  exact h.setSlot hslot fun _ => rfl

theorem Counted.load {d : Documents V S} (h : d.Counted) (i : Nat) (key : Text) (loaded : Option (V × S)) (now : Int) :
    (d.load i key loaded now).Counted := by
  unfold Documents.load
  split
  · exact h
  rename_i slot hslot
  split
  · have hmade : Counted { d with made := d.made + 1 } := h.of_le (fun _ _ _ => id) rfl (Nat.le_succ _)
    apply Counted.touch
    exact hmade.setSlot hslot fun key' => setReady_source _ key key'
  · exact h.setSlot hslot fun key' => setReady_source slot key key'

theorem Counted.adopt (h : d.Counted) (i : Nat) (key : Text) (v : V) (sto : Option S) (now : Int) :
    (d.adopt i key v sto now).Counted := by
  unfold Documents.adopt
  split
  · exact h
  rename_i slot hslot
  split
  · have hmade : Counted { d with made := d.made + 1 } := h.of_le (fun _ _ _ => id) rfl (Nat.le_succ _)
    apply Counted.touch
    exact hmade.setSlot hslot fun _ => rfl
  · apply Counted.touch
    exact h.setSlot hslot fun _ => rfl

theorem Counted.retire (h : d.Counted) (i : Nat) (key : Text) : (d.retire i key).Counted := by
  unfold Documents.retire
  split
  · exact h
  rename_i slot hslot
  split
  · exact h
  · have hdrop : Counted (d.setSlot i (slot.dropResident key)) := by
      apply h.setSlot hslot
      exact fun _ => rfl
    exact hdrop.of_le (fun _ _ _ => id) rfl (Nat.le_refl _)

theorem Counted.hydrate (h : d.Counted) (i : Nat) (defn : Definition V) : (d.hydrate i defn).Counted := by
  unfold Documents.hydrate
  split
  · exact h
  rename_i slot hslot
  exact h.setSlot hslot fun key => (hydrate_same slot key defn).2.2

theorem Counted.sweep (h : d.Counted) (serial : Nat) (now : Int) : (d.sweep serial now).Counted := by
  obtain ⟨hreleases, hmade⟩ := evictions_releases { d with residency := (d.residency.runSweep serial now).2 }
    (d.residency.runSweep serial now).1
  refine h.of_le (fun i key p hsrc => ?_) hreleases hmade.ge
  rw [sourceAt, (sweep_spec serial).2.1] at hsrc
  exact hsrc

/-- Every step keeps the counts of pins. -/
theorem Counted.step {d : Documents V S} (h : d.Counted) (now : Int) (lab : Label V S) : (d.step now lab).Counted := by
  cases lab with
  | declare persisted defn => exact h.declare persisted defn
  | get slot key => exact h.get slot key now
  | load slot key loaded => exact h.load slot key loaded now
  | pin slot key => exact h.pin
  | release handle => exact h.release handle now
  | adopt slot key v sto => exact h.adopt slot key v sto now
  | retire slot key => exact h.retire slot key
  | drop slot => exact h.drop slot
  | hydrate slot defn => exact h.hydrate slot defn
  | sweep serial => exact h.sweep serial now
  | endAll =>
    have hend : Counted { d with residency := d.residency.endAll } := h.of_le (fun _ _ _ => id) rfl (Nat.le_refl _)
    exact hend.drops _

theorem Counted.new : Counted (Documents.new : Documents V S) := by
  constructor
  · intro i key src pins hsrc
    cases hsrc
  · intro handle hhandle
    cases hhandle

/-- A release of a key's source has not run. -/
def Held (d : Documents V S) (i : Nat) (key : Text) : Prop :=
  ∃ handle ∈ d.releases, handle.released = false ∧ handle.slot = i ∧ handle.key = key ∧ (d.sourceAt i key).map Prod.fst = some handle.source

/-- A key is pinned until every release of its source has run, or its slot is dropped. -/
theorem Counted.pinned_iff_held (h : d.Counted) (i : Nat) (key : Text) : d.Pinned i key ↔ d.Held i key := by
  rw [pinned_iff_source]
  constructor
  · intro hsome
    obtain ⟨⟨src, pins⟩, hsrc⟩ := isSome_iff_exists.mp hsome
    obtain ⟨hpins, hpos⟩ := h.counts i key src pins hsrc
    rw [hpins, holders, countP_pos_iff] at hpos
    obtain ⟨handle, hmem, hholds⟩ := hpos
    obtain ⟨hfst, hof⟩ := Bool.and_eq_true_iff.mp hholds
    obtain ⟨hslot, hkey, rfl⟩ := of_decide_eq_true hof
    exact ⟨handle, hmem, by simpa using hfst, hslot, hkey, by rw [hsrc]; rfl⟩
  · rintro ⟨handle, -, -, -, -, hsrc⟩
    obtain ⟨p, hp, -⟩ := map_eq_some_iff.mp hsrc
    exact isSome_iff_exists.mpr ⟨p, hp⟩

/-- The releases after one of them ran. -/
theorem release_releases {k : Nat} {handle : Release} (hhandle : d.releases[k]? = some handle) (now : Int) :
    (d.release k now).releases = d.releases.set k { handle with released := true } := by
  unfold release
  rw [hhandle]
  dsimp only
  split
  · rename_i hran
    obtain ⟨hlt, hget⟩ := List.getElem?_eq_some_iff.mp hhandle
    obtain ⟨slot, key, src, released⟩ := handle
    obtain rfl : released = true := hran
    rw [← hget, set_getElem_self]
  · split
    · rfl
    · split
      · rfl
      · split
        · rfl
        · split
          · rfl
          · split
            · rfl
            · exact touch_releases _ _ _ _ _

theorem release_again (d : Documents V S) (k : Nat) (now now' : Int) : (d.release k now).release k now' = d.release k now := by
  cases hhandle : d.releases[k]? with
  | none =>
    have hnone : d.release k now = d := by
      rw [release, hhandle]
    rw [hnone, release, hhandle]
  | some handle =>
    have hlt := (List.getElem?_eq_some_iff.mp hhandle).1
    have hran : (d.release k now).releases[k]? = some { handle with released := true } := by
      rw [release_releases hhandle, getElem?_set_self hlt]
    rw [release, hran]
    rfl

end Documents

/-! ## Runs -/

theorem Ticks.run {st now : Int} {labs : List (Int × Label V S)} {d : Documents V S}
    (h : Steps Ticks (Documents.new, st) labs (d, now)) : Sound d now ∧ d.Counted := by
  have hrun := h.invariant (I := fun s => Sound s.1 s.2 ∧ s.1.Counted) (fun hinv hstep => ?_) ⟨Sound.new st, Counted.new⟩
  · exact hrun
  · obtain ⟨hle, rfl⟩ := hstep
    exact ⟨hinv.1.step hle _, hinv.2.step _ _⟩

/-- **Residency tracks exactly the idle documents.** In every state of every run the idle map has exactly the persisted
    residents whose key is not pinned, in the order of their recorded uses; while there is one a sweep is pending, unless the
    object ended. A key is pinned while a release of its source has not run, and a release runs once. A sweep evicts what has
    been idle for the retention and nothing else, so no pinned document. -/
theorem residency_tracks_idle {start now : Int} {labels : List (Int × Label V S)} {d : Documents V S}
    (h : Steps Ticks (Documents.new, start) labels (d, now)) :
    (∀ ref, ref ∈ d.residency.idle.map Prod.fst ↔ d.Resides ref ∧ d.Persisted ref.slot ∧ ¬d.Pinned ref.slot ref.key) ∧
      (d.residency.idle.map Prod.fst).Nodup ∧ (d.residency.idle.map Prod.snd).Pairwise (· ≤ ·) ∧
      (∀ ref, d.Resides ref → d.Persisted ref.slot → ¬d.Pinned ref.slot ref.key → d.residency.ended = false →
        d.residency.sweep.isSome = true) ∧
      (∀ i key, d.Pinned i key ↔ d.Held i key) ∧
      (∀ k now' now'', (d.release k now').release k now'' = d.release k now') ∧
      ∀ serial now', now ≤ now' →
        (d.residency.ended = false → ∀ ref, (d.sweep serial now').Resides ref ↔ d.Resides ref ∧ ¬d.Expired now' ref) ∧
          ∀ ref, d.Resides ref → d.Pinned ref.slot ref.key → (d.sweep serial now').Resides ref := by
  obtain ⟨hsound, hcounted⟩ := Ticks.run h
  have hexact := fun ref => (hsound.exact ref).trans (d.idle_iff ref)
  refine ⟨hexact, hsound.timely.nodup, pairwise_map.mpr hsound.timely.sorted, fun ref hresides hpersisted hfree hended => ?_,
    hcounted.pinned_iff_held, d.release_again, fun serial now' _ => ⟨fun hended => ?_, fun ref hresides hpinned => ?_⟩⟩
  · refine hsound.pending hended fun hnil => ?_
    have hmem := (hexact ref).mpr ⟨hresides, hpersisted, hfree⟩
    rw [hnil] at hmem
    cases hmem
  · exact sweep_resides hsound serial hended
  · exact sweep_keeps_pinned hsound serial hresides hpinned

/-- Two documents written, the second one pinned, long before the next sweep. -/
def pinnedRun : List (Int × Label Nat Unit) :=
  [(0, .declare true ⟨1, 0, fun value _ => some value⟩), (0, .adopt 0 [97] 1 (some ()) ), (5, .adopt 0 [98] 2 (some ())),
    (6, .pin 0 [98]), (7, .get 0 [98])]

def tick (s : Documents Nat Unit × Int) (label : Int × Label Nat Unit) : Documents Nat Unit × Int := (s.1.step label.1 label.2, label.1)

def pinnedEnd : Documents Nat Unit × Int := pinnedRun.foldl tick (Documents.new, 0)

theorem residency_tracks_idle_pinned :
    ¬(pinnedEnd.1.sweep 0 700000).Resides ⟨0, [97], 0⟩ ∧ (pinnedEnd.1.sweep 0 700000).Resides ⟨0, [98], 1⟩ := by
  have hrun : Steps Ticks ((new : Documents Nat Unit), 0) pinnedRun (pinnedEnd.1, pinnedEnd.2) := by
    have hallowed : Steps.allowed tick (fun s label => decide (s.2 ≤ label.1)) (new, 0) pinnedRun = true := by decide
    refine (Steps.guarded _ hallowed).mono fun hstep => ?_
    exact ⟨of_decide_eq_true hstep.1, hstep.2.symm⟩
  obtain ⟨-, -, -, -, -, -, hsweeps⟩ := residency_tracks_idle hrun
  obtain ⟨hevicts, hkeeps⟩ := hsweeps 0 700000 (by decide)
  constructor
  · intro hresides
    exact ((hevicts rfl _).mp hresides).2 ⟨0, by decide, by decide⟩
  · exact hkeeps _ ⟨_, _, rfl, rfl, rfl⟩ ⟨_, rfl, rfl⟩

end PiBridge.Chord.Documents
