import PiBridge.Durable.Correctness.ContextRanges

/-!
# `Durable.Correctness.ContextSound` — incremental model context is derived context

`ContextSystem.Sound` holds of every state a Session reaches: every range that a later read may start from is faithful,
and a kept range that is current reaches the newest entry. `sound_step` goes through what may happen between two steps of
a read; `context_is_derived` says what follows for the views that reads return.
-/

namespace PiBridge.Durable

open Lib Storage List

variable {V O : Type}

namespace ContextSystem

variable {sys : ContextSystem V O}

/-- What a read may rely on: it is of a conversation that exists, its earlier range is faithful, its bounds are captured. -/
def ReadOk (s : Storage (EntryContent V) O) : ContextRead V → Prop
  | .started id _ previous => (s.conversation id).isSome ∧ ∀ range, previous = some range → Faithful s id range
  | .captured id _ previous bounds =>
    (s.conversation id).isSome ∧ (∀ range, previous = some range → Faithful s id range) ∧ ∀ b, bounds = some b → Captured s id b
  | .returned id range => (s.conversation id).isSome ∧ Faithful s id range

structure Sound (sys : ContextSystem V O) : Prop where
  chronicle : Chronicle sys.storage
  ranges : ∀ p ∈ sys.ranges, (sys.storage.conversation p.1).isSome ∧ Faithful sys.storage p.1 p.2
  kept : ∀ id range, sys.kept id = some range → (sys.storage.conversation id).isSome ∧ Faithful sys.storage id range ∧
    (range.current = true → sys.storage.latestEntryId id = some range.bounds.tail)
  reads : ∀ read ∈ sys.reads, ReadOk sys.storage read

theorem sound_empty : Sound (empty : ContextSystem V O) where
  chronicle := chronicle_empty
  ranges _ h := absurd h not_mem_nil
  kept _ _ h := by cases h
  reads _ h := absurd h not_mem_nil

variable {s : Storage (EntryContent V) O} {id : ConversationId}

/-- A read relies on nothing that a commit changes. -/
theorem ReadOk.grow {s' : Storage (EntryContent V) O} (hgrow : ∀ id, (s.conversation id).isSome →
    (s'.conversation id).isSome ∧ ∃ add, Grows s s' id add) {read : ContextRead V} (h : ReadOk s read) : ReadOk s' read := by
  cases read with
  | started id cut prev =>
    obtain ⟨hid, hprev⟩ := h
    obtain ⟨hid', add, hadd⟩ := hgrow id hid
    exact ⟨hid', fun rng hrng => (hprev rng hrng).grow hadd⟩
  | captured id cut prev bds =>
    obtain ⟨hid, hprev, hbounds⟩ := h
    obtain ⟨hid', add, hadd⟩ := hgrow id hid
    exact ⟨hid', fun rng hrng => (hprev rng hrng).grow hadd, fun b hb => ((hbounds b hb).grow hadd).1⟩
  | returned id rng =>
    obtain ⟨hid, hrng⟩ := h
    obtain ⟨hid', add, hadd⟩ := hgrow id hid
    exact ⟨hid', hrng.grow hadd⟩

theorem Sound.publish (h : sys.Sound) {ws : List (StorageWrite (EntryContent V) O)} (hok : sys.storage.BatchOk ws) :
    (sys.publish ws).Sound := by
  obtain ⟨hchron, hgrow⟩ := grows_applyAll h.chronicle hok
  refine ⟨hchron, fun p hp => ?_, fun id rng hkept => ?_, fun read hread => ?_⟩
  · obtain ⟨hid, hfaith⟩ := h.ranges p hp
    obtain ⟨hid', hadd⟩ := hgrow p.1 hid
    exact ⟨hid', hfaith.grow hadd⟩
  · obtain ⟨bef, hbef, hadv⟩ := Option.bind_eq_some_iff.mp hkept
    obtain ⟨hid, hfaith, hcur⟩ := h.kept id bef hbef
    obtain ⟨hid', hadd⟩ := hgrow id hid
    obtain ⟨hfaith', hcur'⟩ := advanceRange_faithful h.chronicle hchron hadd hfaith hcur hadv
    exact ⟨hid', hfaith', hcur'⟩
  · exact (h.reads read hread).grow fun id hid => ⟨(hgrow id hid).1, _, (hgrow id hid).2⟩

/-- What a read captures on the line is captured. -/
theorem captured_of_capture {cut : Option EntryId}
    {prev : Option (ContextRange V)} (hprev : ∀ rng, prev = some rng → Faithful s id rng)
    {visible : Bool} (hvis : visible = true → ∃ ent rng, cut = some ent ∧ prev = some rng ∧ rangeHas rng ent = true)
    {bds : Option (ContextBounds V)} (hcap : s.captureContextBounds id cut visible = .ok bds) :
    ∀ b, bds = some b → Captured s id b := by
  rintro b rfl
  cases cut with
  | none =>
    rw [captureContextBounds] at hcap
    cases hlatest : s.latestEntryId id with
    | none =>
      rw [hlatest] at hcap
      cases hcap
    | some tail =>
      rw [hlatest] at hcap
      cases Except.ok.inj hcap
      exact ⟨rfl, mem_of_latest hlatest⟩
  | some tail =>
    rw [captureContextBounds] at hcap
    split at hcap
    · cases hcap
    · rename_i hfnd
      cases Except.ok.inj hcap
      refine ⟨rfl, ?_⟩
      by_cases hkn : visible = true
      · -- The entry is one of the earlier range, so it is visible.
        obtain ⟨ent, rng, hcut, hrng, hhas⟩ := hvis hkn
        cases hcut
        obtain ⟨e, he, hid⟩ := any_eq_true.mp hhas
        rw [(hprev rng hrng).entries] at he
        exact ⟨e, (mem_filter.mp he).1, of_decide_eq_true hid⟩
      · have hsome : ¬(s.visibleEntries id).all (fun e => decide (e.id ≠ tail)) = true := fun hall =>
          hfnd (Bool.and_eq_true_iff.mpr ⟨by simpa using hkn, hall⟩)
        rw [all_eq_true] at hsome
        push Not at hsome
        obtain ⟨e, he, hid⟩ := hsome
        exact ⟨e, he, by simpa using hid⟩

/-- A current range that is still up to date when it is looked at again is known to reach the newest entry. -/
theorem latest_of_known {kn : Bool} {tail : EntryId} (h : sys.knownLatestEntryId id kn = some tail) :
    sys.storage.latestEntryId id = some tail := by
  unfold knownLatestEntryId at h
  split at h
  · exact h
  · cases h

/-- **Whatever happens keeps the ranges sound.** -/
theorem Sound.step (h : sys.Sound) {lab : ContextLabel V O} (hallowed : sys.Allowed lab) : (sys.step lab).Sound := by
  cases lab with
  | commit ws => exact h.publish hallowed
  | start id cut prev =>
    obtain ⟨hid, hearl⟩ := hallowed
    refine ⟨h.chronicle, h.ranges, h.kept, fun read hread => ?_⟩
    obtain hold | rfl := mem_snoc.mp hread
    · exact h.reads read hold
    · refine ⟨hid, fun rng hrng => ?_⟩
      obtain hin | hkept := hearl rng hrng
      · exact (h.ranges (id, rng) hin).2
      · exact (h.kept id rng hkept).2.1
  | capture k =>
    simp only [ContextSystem.step]
    split
    · rename_i id cut prev hget
      obtain ⟨hid, hprev⟩ := h.reads _ (mem_of_getElem? hget)
      split
      · rename_i bds hcap
        refine ⟨h.chronicle, h.ranges, h.kept, fun read hread => ?_⟩
        obtain hold | rfl := mem_or_eq_of_mem_set hread
        · exact h.reads read hold
        · refine ⟨hid, hprev, captured_of_capture hprev (fun hvis => ?_) hcap⟩
          split at hvis
          · exact ⟨_, _, rfl, rfl, hvis⟩
          · cases hvis
      · exact ⟨h.chronicle, h.ranges, h.kept, fun read hread => h.reads read (mem_of_mem_eraseIdx hread)⟩
    · exact h
  | finish k kn =>
    simp only [ContextSystem.step]
    split
    · rename_i id cut prev bds hget
      obtain ⟨hid, hprev, hbounds⟩ := h.reads _ (mem_of_getElem? hget)
      have hread := readContextFrom_faithful h.chronicle cut (sys.knownLatestEntryId id kn) hprev hbounds
      split
      · rename_i rng hrng
        have hfaith := (hread.2 rng hrng).1
        refine ⟨h.chronicle, fun p hp => ?_, h.kept, fun read hread => ?_⟩
        · obtain hold | rfl := mem_snoc.mp hp
          · exact h.ranges p hold
          · exact ⟨hid, hfaith⟩
        · obtain hold | rfl := mem_or_eq_of_mem_set hread
          · exact h.reads read hold
          · exact ⟨hid, hfaith⟩
      · exact ⟨h.chronicle, h.ranges, h.kept, fun read hread => h.reads read (mem_of_mem_eraseIdx hread)⟩
    · exact h
  | install k kn =>
    simp only [ContextSystem.step]
    split
    · rename_i id rng hget
      obtain ⟨hid, hfaith⟩ := h.reads _ (mem_of_getElem? hget)
      have herased : ({ sys with reads := sys.reads.eraseIdx k } : ContextSystem V O).Sound :=
        ⟨h.chronicle, h.ranges, h.kept, fun read hread => h.reads read (mem_of_mem_eraseIdx hread)⟩
      split
      · refine ⟨h.chronicle, h.ranges, fun oth kept hkept => ?_, herased.reads⟩
        dsimp only at hkept
        split at hkept
        · rename_i heq
          subst heq
          cases hkept
          refine ⟨hid, ?_, ?_⟩
          · unfold rechecked
            split
            · exact hfaith.stale
            · exact hfaith
          · unfold rechecked
            split
            · intro hc
              cases hc
            · rename_i hfresh
              intro hc
              have hnewest : ({ sys with reads := sys.reads.eraseIdx k } : ContextSystem V O).knownLatestEntryId oth kn =
                  some rng.bounds.tail := by simpa [hc] using hfresh
              exact latest_of_known hnewest
        · exact h.kept oth kept hkept
      · exact herased
    · exact h
  | abandon k => exact ⟨h.chronicle, h.ranges, h.kept, fun read hread => h.reads read (mem_of_mem_eraseIdx hread)⟩
  | drop id =>
    refine ⟨h.chronicle, h.ranges, fun oth rng hkept => ?_, h.reads⟩
    dsimp only [ContextSystem.step] at hkept
    split at hkept
    · cases hkept
    · exact h.kept oth rng hkept

/-! ## What reads return -/

/-- A range reaches its conversation's newest entry, and has every entry from its start on. -/
def UpToDate (s : Storage (EntryContent V) O) (id : ConversationId) (range : ContextRange V) : Prop :=
  s.latestEntryId id = some range.bounds.tail ∧
    ∀ entry ∈ s.visibleEntries id, (∀ marker, range.bounds.head = some marker → marker.start ≤ entry.id) → entry ∈ range.entries

theorem Faithful.upToDate {rng : ContextRange V} (hchron : Chronicle s)
    (h : Faithful s id rng) (hlatest : s.latestEntryId id = some rng.bounds.tail) : UpToDate s id rng := by
  refine ⟨hlatest, fun e hent hsta => ?_⟩
  rw [h.entries]
  refine mem_filter.mpr ⟨hent, Bool.and_eq_true_iff.mpr ⟨?_, decide_eq_true (le_latest hchron hlatest hent)⟩⟩
  cases hhead : rng.bounds.head with
  | none => rfl
  | some mk => exact decide_eq_true (hsta mk hhead)

/-- **Incremental model context equals derived context.** In every run: a read that finishes returns the view that a
    fresh scan of its bounds derives, and a range for the next read whose view is that of its bounds, current only when
    it reaches the newest entry; every range that was returned or is kept, advanced ones included, has the view that a
    fresh scan of its bounds derives; and a kept range that is marked current is up to date. -/
theorem context_is_derived {labels : List (ContextLabel V O)}
    (h : Steps (fun sys label sys' => sys.Allowed label ∧ sys.step label = sys') empty labels sys) :
    (∀ id cutoff previous bounds known, .captured id cutoff previous bounds ∈ sys.reads →
      (readContextFrom sys.storage id cutoff previous bounds (sys.knownLatestEntryId id known)).1 = deriveContext sys.storage id bounds ∧
        ∀ range, (readContextFrom sys.storage id cutoff previous bounds (sys.knownLatestEntryId id known)).2 = some range →
          bounds = some range.bounds ∧ range.view = deriveContext sys.storage id bounds ∧
            (range.current = true → UpToDate sys.storage id range)) ∧
    (∀ id range, (id, range) ∈ sys.ranges ∨ sys.kept id = some range → range.view = deriveContext sys.storage id (some range.bounds)) ∧
    ∀ id range, sys.kept id = some range → range.current = true → UpToDate sys.storage id range := by
  have hsound : sys.Sound := h.invariant (I := Sound) (fun hs hstep => hstep.2 ▸ hs.step hstep.1) sound_empty
  refine ⟨fun id cutoff previous bounds known hread => ?_, fun id range hrange => ?_, fun id range hkept hc => ?_⟩
  · obtain ⟨-, hprevious, hbounds⟩ := hsound.reads _ hread
    obtain ⟨hview, hrange⟩ := readContextFrom_faithful hsound.chronicle cutoff
      (sys.knownLatestEntryId id known) hprevious hbounds
    refine ⟨hview, fun range heq => ?_⟩
    obtain ⟨hfaithful, hsame, hcurrent⟩ := hrange range heq
    exact ⟨hsame, hsame ▸ hfaithful.view, fun hc => Faithful.upToDate hsound.chronicle hfaithful (latest_of_known (hcurrent hc))⟩
  · obtain hin | hkept := hrange
    · exact (hsound.ranges (id, range) hin).2.view
    · exact (hsound.kept id range hkept).2.1.view
  · obtain ⟨-, hfaithful, hcurrent⟩ := hsound.kept id range hkept
    exact Faithful.upToDate hsound.chronicle hfaithful (hcurrent hc)

/-- A conversation with a user message, and a read of it. -/
def sampleRun : List (ContextLabel Unit Unit) :=
  [.commit [.conversation ⟨1, none, none⟩, .entry ⟨2, 1, none, none, ⟨"pi.user", some [.user ()], none⟩⟩], .start 1 none none, .capture 0]

theorem context_is_derived_sample : (readContextFrom (sampleRun.foldl step empty).storage 1 none none (some ⟨none, 2⟩) (some 2)).1 =
      deriveContext (sampleRun.foldl step empty).storage 1 (some ⟨none, 2⟩) := by
  have hrun : Steps (fun sys label sys' => sys.Allowed label ∧ sys.step label = sys') empty sampleRun (sampleRun.foldl step empty) := by
    refine .head ⟨?_, rfl⟩ (.head ⟨?_, rfl⟩ (.head ⟨trivial, rfl⟩ .refl))
    · exact ⟨⟨rfl, fun parent h => by cases h⟩, ⟨rfl, (fun e he => by cases he), (fun head h => by cases h)⟩, trivial⟩
    · exact ⟨rfl, fun range h => by cases h⟩
  exact ((context_is_derived hrun).1 1 none none (some ⟨none, 2⟩) true mem_cons_self).1

end ContextSystem

end PiBridge.Durable
