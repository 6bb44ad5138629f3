import PiBridge.Durable.Correctness.TranscriptCalls

/-!
# `Durable.Correctness.Transcripts` — no entry is missed silently, and which merges build the items anew for nothing

In every run the items show each entry the client got, once and in order, and whatever else there is up to the newest lies
in a gap or before "earlier"; calls of these come to an end, where the items are the conversation (`transcript_complete`).
A merge that adds nothing returns the same items, except where it `Rebuilds` them: its window starts inside the last gap,
behind the ID the gap misses last; or before the known range without an entry between; or anew after nothing.
-/

namespace PiBridge.Durable

open Lib List TranscriptItem
open WithBot (coe_lt_coe bot_lt_coe)

variable {V : Type}

/-! ## What items show -/

def TranscriptItem.entry? : TranscriptItem V → Option (TranscriptEntry V)
  | .entry e => some e
  | .gap _ => none
  | .earlier => none

def TranscriptItem.gap? : TranscriptItem V → Option Gap
  | .entry _ => none
  | .gap g => some g
  | .earlier => none

theorem filterMap_interleave (gaps : List Gap) (es : List (TranscriptEntry V)) :
    (interleave gaps es).filterMap TranscriptItem.entry? = es ∧ (interleave gaps es).filterMap TranscriptItem.gap? = gaps := by
  have hnone (gaps : List Gap) : (gaps.map (gap (V := V))).filterMap entry? = [] := by
    induction gaps with
    | nil => rfl
    | cons gap gaps ih => exact ih
  have hall (gaps : List Gap) : (gaps.map (gap (V := V))).filterMap gap? = gaps := by
    induction gaps with
    | nil => rfl
    | cons gap gaps ih => exact congrArg (gap :: ·) ih
  induction es generalizing gaps with
  | nil => exact ⟨hnone gaps, hall gaps⟩
  | cons e es ih =>
    obtain ⟨hents, hgaps⟩ := ih (gaps.dropWhile fun gap => decide (gap.after < e.id))
    unfold interleave
    rw [filterMap_append, filterMap_append, hnone, hall]
    constructor
    · show [] ++ e :: _ = _
      rw [hents]
      rfl
    · show _ ++ (interleave _ es).filterMap gap? = _
      rw [hgaps, takeWhile_append_dropWhile]

/-- What is known can be read off the items. -/
theorem build_inj {low low' : WithBot ℤ} {gaps gaps' : List Gap} {es es' : List (TranscriptEntry V)}
    (h : build low gaps es = build low' gaps' es') : es = es' ∧ gaps = gaps' ∧ (low = ⊥ ↔ low' = ⊥) := by
  have hents (low : WithBot ℤ) (gaps : List Gap) (es : List (TranscriptEntry V)) : (build low gaps es).filterMap entry? = es := by
    unfold build
    split
    · exact (filterMap_interleave gaps es).1
    · exact (filterMap_interleave gaps es).1
  have hgaps (low : WithBot ℤ) (gaps : List Gap) (es : List (TranscriptEntry V)) : (build low gaps es).filterMap gap? = gaps := by
    unfold build
    split
    · exact (filterMap_interleave gaps es).2
    · exact (filterMap_interleave gaps es).2
  refine ⟨?_, ?_, ?_⟩
  · rw [← hents low gaps es, h, hents]
  · rw [← hgaps low gaps es, h, hgaps]
  · have hsame := @TranscriptSystem.mem_build_earlier V es low gaps
    rw [h, TranscriptSystem.mem_build_earlier] at hsame
    exact not_iff_not.mp hsame.symm

/-! ## Merges that add nothing -/

namespace Transcript

variable {t : Transcript V} {pre known added : List (TranscriptEntry V)} {lo hi : WithBot ℤ}

/-- A view without a new entry whose window starts where the items are built anew all the same: strictly inside the last
    gap, below the known range, or elsewhere than before where nothing is held. -/
def Rebuilds (t : Transcript V) (view : WindowView V) : Prop := ∃ lo : ℤ, view.before = some lo ∧ (∀ e ∈ view.entries, e.id ∈ t.ids) ∧
    ((∃ gap ∈ t.gaps, gap.after < lo ∧ lo + 1 < gap.upTo ∧ ∀ g ∈ t.gaps, g.after < lo) ∨
      (t.gaps = [] ∧ (lo : WithBot ℤ) < t.low) ∨
      (t.entries = [] ∧ t.gaps = [] ∧ t.tail ≤ lo ∧ t.low ≠ ⊥ ∧ t.low ≠ lo))

/-- What a range that reaches past a gap leaves of it. -/
theorem subtractGap_reached {es : List (TranscriptEntry V)} {gap : Gap} (htop : ¬hi + 1 < gap.upTo) :
    subtractGap es lo hi gap = if gap.overlaps lo hi then
      if (gap.after : WithBot ℤ) < lo then [⟨gap.after, min gap.upTo ((firstPast es lo).getD (lo.unbotD 0 + 1))⟩] else []
    else [gap] := by
  unfold subtractGap
  rw [if_neg htop, append_nil]

theorem array_cover_of_fresh_nil (hnone : t.fresh added = []) : (t.cover lo hi added).array ≠ t.array ↔ (t.extended lo hi added).2 = true := by
  have happends : t.appends [] = true := by
    unfold appends
    cases t.entries.getLast? with
    | none => rfl
    | some => rfl
  unfold cover
  dsimp only
  rw [hnone, happends]
  cases (t.extended lo hi added).2 with
  | false => simp
  | true => simp

section
variable (h : Sound pre t) (hcovers : Covers pre known lo hi added) (hhi : hi = lastId known)
include h hcovers hhi

theorem Sound.reached {gap : Gap} (hgap : gap ∈ t.gaps) : (gap.after : WithBot ℤ) < hi ∧ ¬hi + 1 < gap.upTo := by
  obtain ⟨hwide, -, htop⟩ := h.wide gap hgap
  rw [h.tail_eq] at htop
  have hreach : ((gap.upTo - 1 : ℤ) : WithBot ℤ) ≤ hi := htop.trans (hhi ▸ lastId_mono hcovers.ordered hcovers.grown)
  refine ⟨lt_of_lt_of_le (coe_lt_coe.mpr ?_) hreach, fun hlt => absurd hreach (not_le.mpr (add_one_lt_iff.mp hlt))⟩
  omega

/-- Nothing is left of a gap past the start of a range. -/
theorem Sound.subtractGap_nil {es : List (TranscriptEntry V)} {gap : Gap} (hgap : gap ∈ t.gaps) (hlo : lo ≤ gap.after) : subtractGap es lo hi gap = [] := by
  obtain ⟨haft, htop⟩ := h.reached hcovers hhi hgap
  have hover : gap.overlaps lo hi = true := by
    refine overlaps_iff.mpr ⟨haft, lt_of_le_of_lt hlo (coe_lt_coe.mpr ?_)⟩
    have hwide := (h.wide gap hgap).1
    omega
  rw [subtractGap_reached htop, if_pos hover, if_neg (not_lt.mpr hlo)]

/-- Where a range leaves the gaps as they are, all of them start before it. -/
theorem Sound.after_lt_of_flatMap {es : List (TranscriptEntry V)} (hsame : t.gaps.flatMap (subtractGap es lo hi) = t.gaps) :
    ∀ gap ∈ t.gaps, (gap.after : WithBot ℤ) < lo := by
  intro gap hgap
  by_contra hlo
  have hle (g : Gap) (hg : g ∈ t.gaps) : (subtractGap es lo hi g).length ≤ 1 := by
    rw [subtractGap_reached (h.reached hcovers hhi hg).2]
    split
    · split
      · exact le_refl _
      · exact Nat.zero_le _
    · exact le_refl _
  have hless := (TranscriptSystem.length_flatMap_le hle).2 gap hgap (h.subtractGap_nil hcovers hhi hgap (not_lt.mp hlo))
  rw [hsame] at hless
  exact Nat.lt_irrefl _ hless

/-- A range that starts inside the last gap, with an entry held past it, leaves the gap as it is. -/
theorem Sound.flatMap_of_after_lt (hheld : ∀ e ∈ added, e ∈ t.entries) (hlt : lo < hi) (hbef : ∀ gap ∈ t.gaps, (gap.after : WithBot ℤ) < lo) :
    t.gaps.flatMap (subtractGap t.entries lo hi) = t.gaps := by
  have hself : ∀ gap ∈ t.gaps, subtractGap t.entries lo hi gap = [gap] := by
    intro gap hgap
    rw [subtractGap_reached (h.reached hcovers hhi hgap).2]
    split
    · rw [if_pos (hbef gap hgap)]
      -- The first entry past the start is the newest one, or another; it is held, and not in the gap.
      obtain ⟨x, hx⟩ : ∃ x, firstPast t.entries lo = some x := by
        cases hfst : firstPast t.entries lo with
        | some x => exact ⟨x, rfl⟩
        | none =>
          have hemp : added = [] := eq_nil_iff_forall_not_mem.mpr fun e he =>
            absurd (firstPast_none hfst (hheld e he)) (not_le.mpr (hcovers.mem_added.mp he).2.1)
          exact absurd (hi_le_of_added_nil hcovers hhi hemp) (not_le.mpr hlt)
      obtain ⟨e, he, rfl, hpast⟩ := firstPast_mem hx
      have haft := coe_lt_coe.mp ((hbef gap hgap).trans hpast)
      obtain hleft | hright := h.outside gap hgap e he
      · omega
      · rw [hx, Option.getD_some, min_eq_left hright]
    · rfl
  have hall : t.gaps.flatMap (subtractGap t.entries lo hi) = t.gaps.flatMap fun gap => [gap] := flatMap_congr hself
  rw [hall, flatMap_singleton']

omit hhi in
theorem Sound.fresh_nil (hheld : ∀ e ∈ added, e.id ∈ t.ids) : t.fresh added = [] ∧ t.joined (t.fresh added) = t.entries ∧ ∀ e ∈ added, e ∈ t.entries := by
  have hnone : t.fresh added = [] := eq_nil_iff_forall_not_mem.mpr fun e he => (mem_fresh.mp he).2 (hheld e (mem_fresh.mp he).1)
  have hjoined : t.joined (t.fresh added) = t.entries := by
    rw [hnone]
    unfold joined appends
    cases t.entries.getLast? with
    | none | some => exact append_nil _
  exact ⟨hnone, hjoined, fun e he => hjoined ▸ (h.mem_joined_fresh hcovers e).mpr (.inr he)⟩

/-- The range after a merge that builds the items anew and shows the same. -/
theorem Sound.rebuilds_of_same {rng : KnownRange} (hstarted : t.started = true)
    (hmeets : Meets t.toKnownRange t.entries t.entries lo hi (added.head?.map (·.id)) rng true) (hgaps : rng.gaps = t.gaps)
    (hlow : rng.low = ⊥ ↔ t.low = ⊥) : ∃ l : ℤ, lo = l ∧
      ((∃ gap ∈ t.gaps, gap.after < l ∧ l + 1 < gap.upTo ∧ ∀ g ∈ t.gaps, g.after < l) ∨ (t.gaps = [] ∧ (l : WithBot ℤ) < t.low) ∨
        (t.entries = [] ∧ t.gaps = [] ∧ t.tail ≤ l ∧ t.low ≠ ⊥ ∧ t.low ≠ l)) := by
  generalize hrebu : true = rebuild at hmeets
  cases hmeets with
  | blank hblank =>
    obtain hfst | ⟨hents, hnone, htail⟩ := hblank
    · exact nomatch hstarted.symm.trans hfst
    · rw [hstarted, Bool.not_true, Bool.false_or] at hrebu
      have hne := of_decide_eq_true hrebu.symm
      have hbot : lo ≠ ⊥ := fun hbot => hne (hbot.trans (hlow.mp hbot).symm)
      obtain ⟨l, rfl⟩ := exists_of_ne_bot hbot
      exact ⟨l, rfl, .inr (.inr ⟨hents, hnone, htail, fun hbot' => hbot (hlow.mpr hbot'), fun heq => hne heq.symm⟩)⟩
  | past _ _ _ => exact absurd (congrArg length hgaps) (by rw [length_append]; exact Nat.succ_ne_self _)
  | below _ _ _ => exact absurd (congrArg length hgaps) (Nat.succ_ne_self _)
  | within _ _ hlo hhi' =>
    have hcases := subtract_cases t.gaps t.entries lo hi
    -- All gaps start before the range, for what starts past it is left out.
    have hall : (subtract t.gaps t.entries lo hi).2 = true → lo < hi ∧ (∀ gap ∈ t.gaps, (gap.after : WithBot ℤ) < lo) ∧
        t.gaps.any (Gap.overlaps lo hi) = true := by
      intro hchgd
      obtain ⟨heq, -⟩ | ⟨heq, hlt, hany⟩ := hcases
      · rw [heq] at hchgd
        cases hchgd
      · exact ⟨hlt, h.after_lt_of_flatMap hcovers hhi ((congrArg Prod.fst heq).symm.trans hgaps), hany⟩
    have hbot : lo ≠ ⊥ := by
      rintro rfl
      have hwas : t.low = ⊥ := hlow.mp (min_eq_right bot_le)
      rw [hwas, decide_eq_false (lt_irrefl _), Bool.or_false] at hrebu
      obtain ⟨-, hbef, hany⟩ := hall hrebu.symm
      obtain ⟨gap, hgap, -⟩ := any_eq_true.mp hany
      exact not_lt_bot (hbef gap hgap)
    obtain ⟨l, rfl⟩ := exists_of_ne_bot hbot
    refine ⟨l, rfl, ?_⟩
    obtain hchgd | hbel := Bool.or_eq_true_iff.mp hrebu.symm
    · obtain ⟨-, hbef, hany⟩ := hall hchgd
      obtain ⟨gap, hgap, hover⟩ := any_eq_true.mp hany
      have htop := coe_lt_coe.mp (overlaps_iff.mp hover).2
      exact .inl ⟨gap, hgap, coe_lt_coe.mp (hbef gap hgap), by omega, fun g hg => coe_lt_coe.mp (hbef g hg)⟩
    · have hlt := of_decide_eq_true hbel
      refine .inr (.inl ⟨?_, hlt⟩)
      by_contra hsome
      obtain ⟨gap, hgap⟩ := exists_mem_of_ne_nil _ hsome
      have hlo' : (l : WithBot ℤ) ≤ gap.after := hlt.le.trans (h.wide gap hgap).2.1
      obtain ⟨heq, hnone⟩ | ⟨heq, -, -⟩ := hcases
      · -- The gap overlaps the range, which changes it.
        obtain ⟨haft, -⟩ := h.reached hcovers hhi hgap
        have hwide := (h.wide gap hgap).1
        have hover : gap.overlaps (l : WithBot ℤ) hi = true :=
          overlaps_iff.mpr ⟨haft, lt_of_le_of_lt hlo' (coe_lt_coe.mpr (by omega))⟩
        exact any_eq_false.mp (hnone (lt_of_le_of_lt hlo' haft)) gap hgap hover
      · exact absurd (h.after_lt_of_flatMap hcovers hhi ((congrArg Prod.fst heq).symm.trans hgaps) gap hgap) (not_lt.mpr hlo')

/-- Such a merge builds the items anew, and shows the same. -/
theorem Sound.same_of_rebuilds {rng : KnownRange} {rebuild : Bool} {l : ℤ} (hstarted : t.started = true) (hlo : lo = l)
    (hheld : ∀ e ∈ added, e ∈ t.entries) (hmeets : Meets t.toKnownRange t.entries t.entries lo hi (added.head?.map (·.id)) rng rebuild)
    (hwhere : (∃ gap ∈ t.gaps, gap.after < l ∧ l + 1 < gap.upTo ∧ ∀ g ∈ t.gaps, g.after < l) ∨ (t.gaps = [] ∧ (l : WithBot ℤ) < t.low) ∨
      (t.entries = [] ∧ t.gaps = [] ∧ t.tail ≤ l ∧ t.low ≠ ⊥ ∧ t.low ≠ l)) :
    rebuild = true ∧ rng.gaps = t.gaps ∧ (rng.low = ⊥ ↔ t.low = ⊥) := by
  subst hlo
  have hlow := low_le_hi h.toKnows hcovers hhi
  cases hmeets with
  | blank hblank =>
    obtain hfst | ⟨hents, hnone, htail⟩ := hblank
    · exact nomatch hstarted.symm.trans hfst
    · obtain ⟨gap, hgap, -⟩ | ⟨-, hbel⟩ | ⟨-, -, -, hwas, hne⟩ := hwhere
      · rw [hnone] at hgap
        cases hgap
      · exact absurd (hbel.trans_le (h.low_le.trans htail)) (lt_irrefl _)
      · refine ⟨?_, rfl, ⟨fun hbot => absurd hbot (WithBot.coe_ne_bot), fun hbot => absurd hbot hwas⟩⟩
        rw [hstarted, Bool.not_true, Bool.false_or]
        exact decide_eq_true (Ne.symm hne)
  | past _ hsome htail =>
    obtain ⟨gap, hgap, -, hupTo, -⟩ | ⟨-, hbel⟩ | ⟨hents, hnone, htail', -⟩ := hwhere
    · have htop := lt_of_le_of_lt (h.wide gap hgap).2.2 htail
      rw [coe_lt_coe] at htop
      omega
    · exact absurd (hbel.trans_le h.low_le) (not_lt.mpr htail.le)
    · exact absurd ⟨hents, hnone, htail'⟩ hsome
  | below _ _ hbel => exact absurd hlow (not_le.mpr hbel)
  | within _ hsome hle hhi' =>
    obtain ⟨gap, hgap, haft, hupTo, hbef⟩ | ⟨hnone, hbel⟩ | ⟨hents, hnone, htail, hwas, hne⟩ := hwhere
    · have hreach := h.reached hcovers hhi hgap
      have htop : ((gap.upTo - 1 : ℤ) : WithBot ℤ) ≤ hi := not_lt.mp fun hlt => hreach.2 (add_one_lt_iff.mpr hlt)
      have hlt : (l : WithBot ℤ) < hi := lt_of_lt_of_le (coe_lt_coe.mpr (by omega)) htop
      have hover : gap.overlaps (l : WithBot ℤ) hi = true := overlaps_iff.mpr ⟨hreach.1, coe_lt_coe.mpr (by omega)⟩
      have hlow' : t.low ≤ l := (h.wide gap hgap).2.1.trans (WithBot.coe_le_coe.mpr haft.le)
      obtain ⟨-, hany⟩ | ⟨heq, -, -⟩ := subtract_cases t.gaps t.entries (l : WithBot ℤ) hi
      · exact absurd hover (any_eq_false.mp (hany hlt) gap hgap)
      · have hkeep := h.flatMap_of_after_lt hcovers hhi hheld hlt fun g hg => coe_lt_coe.mpr (hbef g hg)
        refine ⟨?_, (congrArg Prod.fst heq).trans hkeep, ?_⟩
        · rw [heq]
          rfl
        · show min t.low (l : WithBot ℤ) = ⊥ ↔ t.low = ⊥
          rw [min_eq_left hlow']
    · refine ⟨?_, ?_, ?_⟩
      · rw [decide_eq_true hbel, Bool.or_true]
      · show (subtract t.gaps t.entries l hi).1 = t.gaps
        rw [hnone]
        unfold subtract
        split
        · rfl
        · rfl
      · show min t.low (l : WithBot ℤ) = ⊥ ↔ t.low = ⊥
        rw [min_eq_right hbel.le]
        exact ⟨fun hbot => absurd hbot WithBot.coe_ne_bot, fun hbot => absurd (hbot ▸ hbel) not_lt_bot⟩
    · exact absurd ⟨hents, hnone, htail⟩ hsome

end

end Transcript

namespace TranscriptSystem

variable {sys sys' : TranscriptSystem V} {limit : ℕ}

/-- **A merge that shows the same** builds the items anew exactly where it `Rebuilds` them. -/
theorem Sound.merge_rebuilds (h : sys.Sound) (hstarted : sys.transcript.started = true) {seen st : ℕ} (hcur : sys.seen ≤ seen) :
    ((sys.transcript.merge (windowOf (sys.conversation.take seen) st)).items = sys.transcript.items ∧
        (sys.transcript.merge (windowOf (sys.conversation.take seen) st)).array ≠ sys.transcript.array) ↔
      sys.transcript.Rebuilds (windowOf (sys.conversation.take seen) st) := by
  have hord : InOrder (sys.conversation.take seen) := h.ordered.sublist (take_sublist _ _)
  obtain ⟨lo, hi, hmerge, hlo, hhi, hcovers⟩ := covers_windowOf sys.transcript hord (prefix_of_le hcur : sys.known <+: _) st
  rw [hmerge]
  have hsound := h.transcript.cover hcovers (fun hbel => absurd (low_le_hi h.transcript.toKnows hcovers hhi) (not_le.mpr hbel))
    (reaches_side h.transcript.toKnows hcovers hhi)
  have hmeets := meets_cover sys.transcript lo hi (windowOf (sys.conversation.take seen) st).entries
  rw [hsound.items_eq, h.transcript.items_eq]
  constructor
  · rintro ⟨hitems, harray⟩
    obtain ⟨hents, hgaps, hlow⟩ := build_inj hitems
    have hjoined : sys.transcript.joined (sys.transcript.fresh (windowOf (sys.conversation.take seen) st).entries) = sys.transcript.entries := hents
    have hnone : sys.transcript.fresh (windowOf (sys.conversation.take seen) st).entries = [] := by
      have hlen := Transcript.length_joined sys.transcript (sys.transcript.fresh (windowOf (sys.conversation.take seen) st).entries)
      rw [hjoined] at hlen
      exact eq_nil_of_length_eq_zero (by omega)
    rw [hjoined, (Transcript.array_cover_of_fresh_nil hnone).mp harray] at hmeets
    obtain ⟨l, rfl, hwhere⟩ := h.transcript.rebuilds_of_same hcovers hhi hstarted hmeets hgaps hlow
    refine ⟨l, hlo.symm, fun e he => ?_, hwhere⟩
    by_contra hnew
    exact eq_nil_iff_forall_not_mem.mp hnone e (Transcript.mem_fresh.mpr ⟨he, hnew⟩)
  · rintro ⟨l, hbef, hheld, hwhere⟩
    obtain ⟨hnone, hjoined, hents⟩ := h.transcript.fresh_nil hcovers hheld
    rw [hjoined] at hmeets
    obtain ⟨hrebu, hgaps, hlow⟩ := h.transcript.same_of_rebuilds hcovers hhi hstarted (hlo.trans hbef) hents hmeets hwhere
    refine ⟨?_, (Transcript.array_cover_of_fresh_nil hnone).mpr hrebu⟩
    have hsame : (sys.transcript.cover lo hi (windowOf (sys.conversation.take seen) st).entries).entries = sys.transcript.entries := hjoined
    rw [hsame, hgaps]
    unfold build
    split
    · rw [if_pos (hlow.mp ‹_›)]
    · rw [if_neg fun hbot => absurd (hlow.mpr hbot) ‹_›]

/-! ## Every run -/

theorem callEarlier_transcript (sys : TranscriptSystem V) : sys.callEarlier.transcript = sys.transcript := by
  unfold callEarlier
  split
  · rfl
  · split
    · rfl
    · rfl

theorem callFill_transcript (sys : TranscriptSystem V) (gap : Gap) : (sys.callFill gap).transcript = sys.transcript := by
  unfold callFill
  split
  · rfl
  · split
    · rfl
    · rfl

/-- The entries a step brings. -/
def brings : TranscriptLabel V → List (TranscriptEntry V)
  | .merges view => view.entries
  | .earlierArrives page => page.items
  | .fillArrives _ page => page.items
  | _ => []

theorem Sound.step_entries {lab : TranscriptLabel V} (h : sys.Sound) (hstep : Step limit sys lab sys') (e : TranscriptEntry V)
    (he : e ∈ sys.transcript.entries ∨ e ∈ brings lab) : e ∈ sys'.transcript.entries := by
  have hold (hnone : e ∈ sys.transcript.entries ∨ e ∈ ([] : List (TranscriptEntry V))) : e ∈ sys.transcript.entries :=
    hnone.resolve_right not_mem_nil
  cases hstep with
  | grows | earlierFails | earlierSettles | fillFails | fillSettles => exact hold he
  | @merges seen st hcur hkn hsta =>
    have hord : InOrder (sys.conversation.take seen) := h.ordered.sublist (take_sublist _ _)
    obtain ⟨lo, hi, hmerge, -, -, hcovers⟩ := covers_windowOf sys.transcript hord (prefix_of_le hcur : sys.known <+: _) st
    show e ∈ (sys.transcript.merge _).entries
    exact (h.transcript.mem_joined_fresh hcovers e).mpr he
  | callsEarlier => exact (callEarlier_transcript sys).symm ▸ hold he
  | earlierArrives hload hsinc hans => exact (h.earlierArrives hload hsinc hans).2.2 e he
  | callsFill => exact (callFill_transcript sys _).symm ▸ hold he
  | fillArrives hload hsinc hans => exact (h.fillArrives hload hsinc hans).2.2 e he

/-- A load that changes nothing a client shows returns the items it had. -/
theorem Sound.step_array {lab : TranscriptLabel V} (h : sys.Sound) (hstep : Step limit sys lab sys') (hmerge : lab.isMerge = false)
    (hitems : sys'.transcript.items = sys.transcript.items) : sys'.transcript.array = sys.transcript.array := by
  have hsame {t' : Transcript V} {earl : Option (EntryLoad ℤ)} {fil : List (EntryLoad Gap)} (ht' : t'.Sound sys.known)
      (hitems : t'.items = sys.transcript.items)
      (hcases : sys.transcript.Unchanged t' ∨ missing { sys with transcript := t', earlier := earl, filling := fil } < missing sys) :
      t'.array = sys.transcript.array := by
    obtain hunchanged | hless := hcases
    · exact hunchanged.array
    · -- What is missing can be read off the items.
      rw [ht'.items_eq, h.transcript.items_eq] at hitems
      obtain ⟨hents, hgaps, hlow⟩ := build_inj hitems
      have hequal : missing { sys with transcript := t', earlier := earl, filling := fil } = missing sys := by
        show 2 * (sys.known.length - t'.entries.length) + t'.gaps.length + (if t'.low = ⊥ then 0 else 2) = _
        rw [hents, hgaps]
        simp only [hlow]
        rfl
      exact absurd hequal hless.ne
  cases hstep with
  | grows | earlierFails | earlierSettles | fillFails | fillSettles => rfl
  | merges => cases hmerge
  | callsEarlier => rw [callEarlier_transcript]
  | earlierArrives hload hsinc hans =>
    obtain ⟨hsound, hcases, -⟩ := h.earlierArrives hload hsinc hans
    exact hsame hsound.transcript hitems (hcases.imp_left And.left)
  | callsFill => rw [callFill_transcript]
  | fillArrives hload hsinc hans =>
    obtain ⟨hsound, hcases, -⟩ := h.fillArrives hload hsinc hans
    exact hsame hsound.transcript hitems (hcases.imp_left And.left)

/-- Neither a gap nor "earlier" is shown. -/
def ShowsAll (sys : TranscriptSystem V) : Prop := TranscriptItem.earlier ∉ sys.transcript.items ∧ ∀ gap, TranscriptItem.gap gap ∉ sys.transcript.items

/-- An ID is at or below the newest the transcript reaches. -/
def reaches (sys : TranscriptSystem V) (x : ℤ) : Bool := sys.transcript.newest.any fun newest => decide (x ≤ newest)

theorem reaches_iff {x : ℤ} : sys.reaches x = true ↔ (x : WithBot ℤ) ≤ sys.transcript.tail := by
  unfold reaches Transcript.newest
  induction sys.transcript.tail using WithBot.recBotCoe with
  | bot =>
    constructor
    · intro hnone
      cases hnone
    · exact fun hle => absurd hle (not_le.mpr (bot_lt_coe x))
  | coe tail =>
    show decide (x ≤ tail) = true ↔ _
    rw [decide_eq_true_eq, WithBot.coe_le_coe]

/-- The entries of the conversation the transcript reaches are those the client has seen. -/
theorem Sound.filter_reaches (h : sys.Sound) : sys.conversation.filter (fun e => sys.reaches e.id) = sys.known := by
  have hbtw : sys.conversation.filter (fun e => sys.reaches e.id) = sys.conversation.filter (between ⊥ sys.transcript.tail) := by
    refine filter_congr fun e _ => ?_
    unfold between
    rw [decide_eq_true (bot_lt_coe e.id), Bool.true_and, Bool.eq_iff_iff, reaches_iff, decide_eq_true_eq]
  rw [hbtw, filter_between_prefix h.ordered ( take_prefix _ _) h.transcript.tail_eq.le ⊥]
  refine filter_eq_self.mpr fun e he => between_iff.mpr ⟨bot_lt_coe _, ?_⟩
  exact h.transcript.tail_eq ▸ le_lastId h.known_ordered he

/-- Where neither a gap nor "earlier" is shown, the items are the conversation. -/
theorem Sound.items_of_showsAll (h : sys.Sound) (hshows : sys.ShowsAll) :
    sys.transcript.items = (sys.conversation.filter fun e => sys.reaches e.id).map .entry := by
  rw [h.filter_reaches]
  unfold ShowsAll at hshows
  rw [h.transcript.items_eq] at hshows ⊢
  have hlow : sys.transcript.low = ⊥ := not_not.mp fun hne => hshows.1 (mem_build_earlier.mpr hne)
  have hgaps : sys.transcript.gaps = [] := eq_nil_iff_forall_not_mem.mpr fun gap hgap => hshows.2 gap (mem_build_gap.mpr hgap)
  have hents : sys.transcript.entries = sys.known := by
    refine Perm.eq_of_pairwise ?_ h.transcript.sorted h.known_ordered ?_
    · intro e e' _ _ hlt hlt'
      omega
    · refine (perm_ext_iff_of_nodup (nodup_of_inOrder h.transcript.sorted) (nodup_of_inOrder h.known_ordered)).mpr fun e => ?_
      constructor
      · exact fun he => (h.transcript.held e he).1
      · intro he
        obtain hheld | ⟨gap, hgap, -⟩ := h.transcript.complete e he (hlow ▸ bot_lt_coe _)
        · exact hheld
        · rw [hgaps] at hgap
          cases hgap
  rw [hlow, hgaps, hents]
  have happ := @build_append V sys.known ⊥ [] [] nofun
  exact happ

/-- **A client transcript** never silently misses an entry, and builds its items anew for nothing only where a merge
    `Rebuilds` them. -/
theorem transcript_complete {conversation : List (TranscriptEntry V)} (hordered : InOrder conversation) {labels : List (TranscriptLabel V)}
    (hrun : Steps (Step limit) (opened conversation) labels sys) :
    -- Items stand in ID order, each gap between its neighbours; no gap contains an entry that is held.
    (sys.transcript.items.Pairwise TranscriptItem.Before ∧
      ∀ gap e, TranscriptItem.gap gap ∈ sys.transcript.items → TranscriptItem.entry e ∈ sys.transcript.items → e.id ≤ gap.after ∨ gap.upTo ≤ e.id) ∧
    -- They show entries of the conversation; what it has besides, up to the newest, lies in a gap, or below "earlier".
    ((∀ e, TranscriptItem.entry e ∈ sys.transcript.items → e ∈ sys.conversation) ∧
      ∀ e ∈ sys.conversation, sys.reaches e.id = true → TranscriptItem.entry e ∈ sys.transcript.items ∨
        (∃ gap, TranscriptItem.gap gap ∈ sys.transcript.items ∧ gap.after < e.id ∧ e.id < gap.upTo) ∨
        (sys.transcript.items.head? = some .earlier ∧ ∀ e', TranscriptItem.entry e' ∈ sys.transcript.items → e.id < e'.id)) ∧
    -- A step keeps what is shown, and shows what comes.
    (∀ label sys', Step limit sys label sys' → ∀ e, TranscriptItem.entry e ∈ sys.transcript.items ∨ e ∈ brings label →
      TranscriptItem.entry e ∈ sys'.transcript.items) ∧
    -- A load that shows the same returns the same array; a merge does exactly where it does not rebuild the items.
    ((∀ label sys', Step limit sys label sys' → label.isMerge = false → sys'.transcript.items = sys.transcript.items →
        sys'.transcript.array = sys.transcript.array) ∧
      ∀ view sys', Step limit sys (.merges view) sys' → sys.transcript.started = true →
        ((sys'.transcript.items = sys.transcript.items → sys'.transcript.array = sys.transcript.array) ↔ ¬sys.transcript.Rebuilds view)) ∧
    -- Calls of what is shown come to an end, and there the items are the conversation up to the newest.
    ∃ bound, (∀ n sys', Awaits limit n sys sys' → n ≤ bound ∧
        (sys'.ShowsAll → sys'.transcript.items = (sys'.conversation.filter fun e => sys'.reaches e.id).map .entry)) ∧
      (0 < limit → ∃ n sys', Awaits limit n sys sys' ∧ sys'.ShowsAll) := by
  have h := sound_of_steps hordered hrun
  have hentry (e : TranscriptEntry V) : entry e ∈ sys.transcript.items ↔ e ∈ sys.transcript.entries := by
    rw [h.transcript.items_eq]
    exact mem_build_entry
  have hgap (gap : Gap) : TranscriptItem.gap gap ∈ sys.transcript.items ↔ gap ∈ sys.transcript.gaps := by
    rw [h.transcript.items_eq]
    exact mem_build_gap
  refine ⟨⟨?_, fun gap e hin he => ?_⟩, ⟨fun e he => ?_, fun e he hreaches => ?_⟩, fun label sys' hstep e he => ?_,
    ⟨fun label sys' hstep => h.step_array hstep, fun view sys' hstep hstarted => ?_⟩, left sys, fun n sys' hcalls => ?_, fun hlimit => ?_⟩
  · rw [h.transcript.items_eq]
    exact build_inOrder h.transcript.toKnows
  · exact h.transcript.outside gap ((hgap gap).mp hin) e ((hentry e).mp he)
  · exact mem_of_mem_take (h.transcript.held e ((hentry e).mp he)).1
  · have hknown : e ∈ sys.known := by
      rw [← h.filter_reaches]
      exact mem_filter.mpr ⟨he, hreaches⟩
    by_cases hlow : sys.transcript.low < e.id
    · obtain hheld | ⟨gap, hin, hinside⟩ := h.transcript.complete e hknown hlow
      · exact .inl ((hentry e).mpr hheld)
      · exact .inr (.inl ⟨gap, (hgap gap).mpr hin, hinside⟩)
    · refine .inr (.inr ⟨?_, fun e' he' => ?_⟩)
      · have hne : sys.transcript.low ≠ ⊥ := fun hbot => hlow (hbot ▸ WithBot.bot_lt_coe _)
        rw [h.transcript.items_eq]
        unfold build
        rw [if_neg hne]
        rfl
      · exact WithBot.coe_lt_coe.mp (lt_of_le_of_lt (not_lt.mp hlow) (h.transcript.held e' ((hentry e').mp he')).2)
  · rw [(h.step hstep).transcript.items_eq]
    exact mem_build_entry.mpr (h.step_entries hstep e (he.imp_left (hentry e).mp))
  · cases hstep with
    | merges hcurrent hknown hstart =>
      rw [← h.merge_rebuilds hstarted hcurrent, not_and, not_not]
  · obtain ⟨h', hle⟩ := hcalls.bound h
    exact ⟨by omega, h'.items_of_showsAll⟩
  · obtain ⟨n, sys', hcalls, hshows⟩ := h.exists_awaits hlimit
    exact ⟨n, sys', hcalls, hshows⟩

/-- Three entries, with IDs that have holes. -/
def notes : List (TranscriptEntry Unit) := [⟨1, ()⟩, ⟨2, ()⟩, ⟨5, ()⟩]

/-- The client saw the first entry, and after a stall the last: the second is missing. -/
def stalled : TranscriptSystem Unit where
  transcript := (Transcript.empty.merge (windowOf (notes.take 1) 0)).merge (windowOf (notes.take 3) 2)
  earlier := none
  filling := []
  conversation := notes
  seen := 3

theorem steps_stalled : Steps (Step 50) (opened notes) [.merges (windowOf (notes.take 1) 0), .merges (windowOf (notes.take 3) 2)] stalled :=
  (Steps.single (.merges (Nat.zero_le 1) (by decide) (Nat.zero_le 1))).tail (.merges (by decide) (le_refl 3) (by decide))

/-- The second entry lies in a gap. -/
theorem transcript_complete_stalled : TranscriptItem.entry (⟨2, ()⟩ : TranscriptEntry Unit) ∈ stalled.transcript.items ∨
    (∃ gap, TranscriptItem.gap gap ∈ stalled.transcript.items ∧ gap.after < 2 ∧ 2 < gap.upTo) ∨
    (stalled.transcript.items.head? = some .earlier ∧ ∀ e', TranscriptItem.entry e' ∈ stalled.transcript.items → 2 < e'.id) :=
  (transcript_complete (by unfold notes; simp) steps_stalled).2.1.2 ⟨2, ()⟩ (.tail _ (.head _)) (by decide)

/-- The same view again, as after a change of a document: nothing is new, and the items are another array. -/
theorem rebuilds_again : ∃ labels sys', Steps (Step 50) (opened notes) labels stalled ∧ Step 50 stalled (.merges (windowOf (notes.take 3) 2)) sys' ∧
    stalled.transcript.started = true ∧ (∀ e ∈ (windowOf (notes.take 3) 2).entries, TranscriptItem.entry e ∈ stalled.transcript.items) ∧
    sys'.transcript.items = stalled.transcript.items ∧ sys'.transcript.array ≠ stalled.transcript.array := by
  refine ⟨_, _, steps_stalled, .merges (le_refl 3) (le_refl 3) (by decide), rfl, fun e he => ?_, rfl, by decide⟩
  obtain rfl := mem_singleton.mp he
  exact .tail _ (.tail _ (.head _))

end TranscriptSystem

end PiBridge.Durable
