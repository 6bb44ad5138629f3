import PiBridge.Durable.Correctness.TranscriptLoads

/-!
# `Durable.Correctness.TranscriptFlights` — loads in flight

A load covers the range it began with, in a transcript that may have changed since. `EarlierOpen` and `FillOpen` say what
stays true of its bounds until its page arrives: the gaps there are now lie apart from a gap being filled or inside it, and
above the bound of an earlier load. Each is kept by the views merged and the other pages that arrive meanwhile.
-/

namespace PiBridge.Durable

open List WithBot

variable {V : Type}

/-! ## Open loads -/

/-- A load of what is before `low` has not got its page yet. -/
structure EarlierOpen (range : KnownRange) (entries conversation : List (TranscriptEntry V)) (low : ℤ) (since : ℕ) : Prop where
  known : (low : WithBot ℤ) ≤ lastId (conversation.take since)
  tail : (low : WithBot ℤ) ≤ range.tail
  gaps : ∀ gap ∈ range.gaps, low ≤ gap.after
  /-- The known range may have moved up from nothing since, and then its gaps lie past an entry. -/
  front : (low : WithBot ℤ) < range.low → ∀ gap ∈ range.gaps, ∃ e ∈ entries, e.id ≤ gap.after

/-- A load of a gap has not got its page yet. -/
structure FillOpen (range : KnownRange) (entries conversation : List (TranscriptEntry V)) (gap : Gap) (since : ℕ) : Prop where
  wide : gap.after + 1 < gap.upTo
  known : ((gap.upTo - 1 : ℤ) : WithBot ℤ) ≤ lastId (conversation.take since)
  tail : ((gap.upTo - 1 : ℤ) : WithBot ℤ) ≤ range.tail
  low : range.low ≤ gap.after
  meets : ∀ g ∈ range.gaps, g.upTo ≤ gap.after + 1 ∨ gap.upTo ≤ g.after + 1 ∨ (gap.after ≤ g.after ∧ g.upTo ≤ gap.upTo)
  blank : entries = [] → gap ∈ range.gaps

section
variable {pre pre' es es' conv added : List (TranscriptEntry V)} {rng rng' : KnownRange} {lo hi : WithBot ℤ} {low : ℤ} {gap : Gap}
  {since : ℕ}

/-! ## A range that meets the known one -/

theorem EarlierOpen.within (h : EarlierOpen rng es conv low since) (hmem : ∀ e ∈ es, e ∈ es')
    (hnarr : Narrowed rng.gaps rng'.gaps es' lo hi) (htail : rng.tail ≤ rng'.tail) (hlow : rng'.low ≤ rng.low) :
    EarlierOpen rng' es' conv low since := by
  refine ⟨h.known, h.tail.trans htail, fun pc hpce => ?_, fun hfront pc hpce => ?_⟩
  · obtain ⟨g, hg, haft, -⟩ := hnarr.sub pc hpce
    exact (h.gaps g hg).trans haft
  · obtain ⟨g, hg, haft, -⟩ := hnarr.sub pc hpce
    obtain ⟨e, he, hle⟩ := h.front (lt_of_lt_of_le hfront hlow) g hg
    exact ⟨e, hmem e he, hle.trans haft⟩

theorem FillOpen.within (h : FillOpen rng es conv gap since) (hnarr : Narrowed rng.gaps rng'.gaps es' lo hi)
    (htail : rng.tail ≤ rng'.tail) (hlow : rng'.low ≤ rng.low) (hblank : es' = [] → gap ∈ rng'.gaps) :
    FillOpen rng' es' conv gap since := by
  refine ⟨h.wide, h.known, h.tail.trans htail, hlow.trans h.low, fun pc hpce => ?_, hblank⟩
  obtain ⟨g, hg, haft, hupTo⟩ := hnarr.sub pc hpce
  obtain hleft | hright | hin := h.meets g hg
  · exact .inl (hupTo.trans hleft)
  · exact .inr (.inl (by omega))
  · exact .inr (.inr ⟨hin.1.trans haft, hupTo.trans hin.2⟩)

/-- The page of a gap leaves at most one piece of each gap. -/
theorem FillOpen.page_side (h : FillOpen rng es conv gap since) {hi : WithBot ℤ} :
    ∀ g ∈ rng.gaps, g.overlaps gap.after hi = true → (g.after : WithBot ℤ) < gap.after → ¬hi + 1 < g.upTo := by
  intro g hg hover haft _
  have htop := coe_lt_coe.mp (overlaps_iff.mp hover).2
  rw [coe_lt_coe] at haft
  have hwide := h.wide
  obtain hleft | hright | hin := h.meets g hg
  · omega
  · omega
  · omega

/-! ## Views -/

/-- The sides of a gap stay together under a range that reaches past it. -/
theorem reaches_side (h : Knows pre rng es) (hcov : Covers pre pre' lo hi added) (hhi : hi = lastId pre') :
    ∀ gap ∈ rng.gaps, gap.overlaps lo hi = true → (gap.after : WithBot ℤ) < lo → ¬hi + 1 < gap.upTo := by
  intro gap hgap _ _ hlt
  have htop := (h.wide gap hgap).2.2
  rw [h.tail_eq] at htop
  have hreach : lastId pre ≤ hi := hhi ▸ lastId_mono hcov.ordered hcov.grown
  exact absurd (htop.trans hreach) (not_le.mpr (add_one_lt_iff.mp hlt))

theorem low_le_hi (h : Knows pre rng es) (hcov : Covers pre pre' lo hi added) (hhi : hi = lastId pre') : rng.low ≤ hi := by
  refine h.low_le.trans ?_
  rw [h.tail_eq, hhi]
  exact lastId_mono hcov.ordered hcov.grown

/-- A view without entries covers nothing. -/
theorem hi_le_of_added_nil (hcov : Covers pre pre' lo hi added) (hhi : hi = lastId pre') (hnil : added = []) : hi ≤ lo := by
  by_contra hlt
  obtain rfl | ⟨init, last, rfl⟩ := eq_nil_or_concat pre'
  · exact hlt (hhi ▸ bot_le)
  · rw [concat_eq_append] at *
    rw [lastId_append_singleton] at hhi
    have hin := hcov.mem_added.mpr ⟨mem_append_right _ (.head _), hhi ▸ not_le.mp hlt, hhi.ge⟩
    rw [hnil] at hin
    cases hin

variable {first : Option ℤ} {rebuild : Bool}

theorem EarlierOpen.view (ho : EarlierOpen rng es conv low since) (h : Knows pre rng es)
    (hunstarted : rng.started = false → es = [] ∧ rng.gaps = [] ∧ rng.tail = ⊥) (hcov : Covers pre pre' lo hi added) (hhi : hi = lastId pre')
    (hsrt : InOrder es') (hmem : ∀ e ∈ es, e ∈ es') (hmeets : Meets rng es es' lo hi first rng' rebuild) :
    EarlierOpen rng' es' conv low since := by
  cases hmeets with
  | blank hblank =>
    have hgaps : rng.gaps = [] := by
      obtain hfst | hnoth := hblank
      · exact (hunstarted hfst).2.1
      · exact hnoth.2.1
    refine ⟨ho.known, ho.tail.trans (le_max_left ..), ?_, fun _ => ?_⟩
    · exact hgaps ▸ nofun
    · exact hgaps ▸ nofun
  | past hstarted hsome htail =>
    obtain ⟨t, ht⟩ : ∃ t : ℤ, rng.tail = t := exists_of_ne_bot fun hbot => by
      have hle := ho.tail
      rw [hbot] at hle
      exact absurd hle (not_le.mpr (bot_lt_coe _))
    have hlt : low ≤ t := coe_le_coe.mp (ht ▸ ho.tail)
    refine ⟨ho.known, ho.tail.trans (htail.le.trans hcov.lo_le), fun g hg => ?_, fun hfront g hg => ?_⟩
    · obtain hold | hnew := mem_append.mp hg
      · exact ho.gaps g hold
      · obtain rfl := mem_singleton.mp hnew
        rw [ht]
        exact hlt
    · obtain hold | hnew := mem_append.mp hg
      · obtain ⟨e, he, hle⟩ := ho.front hfront g hold
        exact ⟨e, hmem e he, hle⟩
      · obtain rfl := mem_singleton.mp hnew
        -- Something was held, for gaps alone would lie past an entry too.
        have hheld : es ≠ [] := by
          intro hnil
          obtain ⟨g, hg⟩ := exists_mem_of_ne_nil _ fun hgaps => hsome ⟨hnil, hgaps, htail.le⟩
          obtain ⟨e, he, -⟩ := ho.front hfront g hg
          rw [hnil] at he
          cases he
        obtain ⟨e, he⟩ := exists_mem_of_ne_nil _ hheld
        refine ⟨e, hmem e he, ?_⟩
        have hle := h.le_tail hcov he
        rw [ht] at hle ⊢
        exact coe_le_coe.mp hle
  | below hstarted hhi' hbel => exact absurd (low_le_hi h hcov hhi) (not_le.mpr hbel)
  | within hstarted _ hlo hhi' =>
    have hnarr := narrowed_subtract hsrt (fun gap hgap => (h.wide gap hgap).1) h.apart (reaches_side h hcov hhi)
    exact ho.within hmem hnarr (le_max_left ..) (min_le_left ..)

theorem FillOpen.view (ho : FillOpen rng es conv gap since) (h : Knows pre rng es)
    (hunstarted : rng.started = false → es = [] ∧ rng.gaps = [] ∧ rng.tail = ⊥) (hcov : Covers pre pre' lo hi added) (hhi : hi = lastId pre')
    (hsrt : InOrder es') (hmem : ∀ e, e ∈ es' ↔ e ∈ es ∨ e ∈ added) (hmeets : Meets rng es es' lo hi first rng' rebuild) :
    FillOpen rng' es' conv gap since ∧ rng'.low ≤ rng.low := by
  have hold (hnil : es' = []) : es = [] ∧ added = [] := by
    constructor
    · exact eq_nil_iff_forall_not_mem.mpr fun e he => eq_nil_iff_forall_not_mem.mp hnil e ((hmem e).mpr (.inl he))
    · exact eq_nil_iff_forall_not_mem.mpr fun e he => eq_nil_iff_forall_not_mem.mp hnil e ((hmem e).mpr (.inr he))
  cases hmeets with
  | blank hblank =>
    obtain ⟨hents, hgaps⟩ : es = [] ∧ rng.gaps = [] := by
      obtain hfst | hnoth := hblank
      · exact ⟨(hunstarted hfst).1, (hunstarted hfst).2.1⟩
      · exact ⟨hnoth.1, hnoth.2.1⟩
    exact absurd (hgaps ▸ ho.blank hents) not_mem_nil
  | past hstarted hsome htail =>
    obtain ⟨t, ht⟩ : ∃ t : ℤ, rng.tail = t := exists_of_ne_bot fun hbot => by
      have hle := ho.tail
      rw [hbot] at hle
      exact absurd hle (not_le.mpr (bot_lt_coe _))
    have hlt : gap.upTo - 1 ≤ t := coe_le_coe.mp (ht ▸ ho.tail)
    refine ⟨⟨ho.wide, ho.known, ho.tail.trans (htail.le.trans hcov.lo_le), ho.low, fun g hg => ?_,
      fun hnil => mem_append_left _ (ho.blank (hold hnil).1)⟩, le_refl _⟩
    obtain hin | hnew := mem_append.mp hg
    · exact ho.meets g hin
    · obtain rfl := mem_singleton.mp hnew
      refine .inr (.inl ?_)
      rw [ht]
      show gap.upTo ≤ t + 1
      omega
  | below hstarted hhi' hbel => exact absurd (low_le_hi h hcov hhi) (not_le.mpr hbel)
  | within hstarted _ hlo hhi' =>
    have hnarr := narrowed_subtract hsrt (fun gap hgap => (h.wide gap hgap).1) h.apart (reaches_side h hcov hhi)
    refine ⟨ho.within hnarr (le_max_left ..) (min_le_left ..) fun hnil => ?_, min_le_left ..⟩
    show gap ∈ (subtract rng.gaps es' lo hi).1
    unfold subtract
    rw [if_pos (hi_le_of_added_nil hcov hhi (hold hnil).2)]
    exact ho.blank (hold hnil).1

/-! ## Pages of a gap -/

/-- The page of a gap meets the known range, and what is left of the gaps lies inside them. -/
theorem FillOpen.page (ho : FillOpen rng es conv gap since) (h : Knows pre rng es)
    (hunstarted : rng.started = false → es = [] ∧ rng.gaps = [] ∧ rng.tail = ⊥) {y : ℤ} (hcov : Covers pre pre gap.after y added)
    (hsrt : InOrder es') (hmeets : Meets rng es es' gap.after y first rng' rebuild) :
    rng' = { rng with gaps := (subtract rng.gaps es' gap.after y).1 } ∧ rebuild = (subtract rng.gaps es' gap.after y).2 ∧
      Narrowed rng.gaps (subtract rng.gaps es' gap.after y).1 es' gap.after y := by
  have htop : (y : WithBot ℤ) ≤ rng.tail := by
    rw [h.tail_eq]
    exact max_eq_left_iff.mp hcov.reach
  have hnarr := @narrowed_subtract V es' gap.after y rng.gaps hsrt (fun g hg => (h.wide g hg).1) h.apart ho.page_side
  cases hmeets with
  | blank hblank =>
    obtain ⟨hents, hgaps⟩ : es = [] ∧ rng.gaps = [] := by
      obtain hfst | hnoth := hblank
      · exact ⟨(hunstarted hfst).1, (hunstarted hfst).2.1⟩
      · exact ⟨hnoth.1, hnoth.2.1⟩
    exact absurd (hgaps ▸ ho.blank hents) not_mem_nil
  | past hstarted hsome htail => exact absurd (hcov.lo_le.trans htop) (not_le.mpr htail)
  | below hstarted hhi hbel => exact absurd (hbel.trans_le ho.low) (not_lt.mpr hcov.lo_le)
  | within hstarted _ hlo hhi =>
    rw [min_eq_left ho.low, max_eq_left htop, decide_eq_false (not_lt.mpr ho.low), Bool.or_false]
    exact ⟨rfl, rfl, hnarr⟩

theorem FillOpen.other_page {gap' : Gap} (ho : FillOpen rng es conv gap since) (h : Knows pre rng es) {y : ℤ}
    (hin : gap' ≠ gap) (hgap' : es = [] → gap' ∈ rng.gaps) (hy : y < gap'.upTo) (hmem : ∀ e ∈ es, e ∈ es')
    (hnarr : Narrowed rng.gaps (subtract rng.gaps es' gap'.after y).1 es' gap'.after y) :
    FillOpen { rng with gaps := (subtract rng.gaps es' gap'.after y).1 } es' conv gap since := by
  refine ho.within hnarr (le_refl _) (le_refl _) fun hnil => ?_
  have hents : es = [] := eq_nil_iff_forall_not_mem.mpr fun e he => eq_nil_iff_forall_not_mem.mp hnil e (hmem e he)
  -- Both gaps are there, and apart.
  have hapart : gap'.upTo ≤ gap.after + 1 ∨ gap.upTo ≤ gap'.after + 1 := by
    exact Pairwise.forall_of_forall_of_flip (R := fun g g' => g ≠ g' → g.upTo ≤ g'.after + 1 ∨ g'.upTo ≤ g.after + 1)
      (fun _ _ hne => absurd rfl hne) (h.apart.imp fun hle _ => .inl hle) (h.apart.imp fun hle _ => .inr hle) (hgap' hents)
      (ho.blank hents) hin
  have hover : gap.overlaps (gap'.after : WithBot ℤ) (y : WithBot ℤ) = false := by
    refine Bool.eq_false_iff.mpr fun hover => ?_
    obtain ⟨haft, hupTo⟩ := overlaps_iff.mp hover
    rw [coe_lt_coe] at haft hupTo
    omega
  obtain ⟨heq, -⟩ | ⟨heq, -, -⟩ := subtract_cases rng.gaps es' (gap'.after : WithBot ℤ) y
  · rw [heq]
    exact ho.blank hents
  · rw [heq]
    refine mem_flatMap.mpr ⟨gap, ho.blank hents, ?_⟩
    unfold subtractGap
    rw [hover]
    exact .head _

/-! ## Pages of what is earlier -/

/-- The page of what is earlier meets the known range, and changes no gap; or it lies below it, and the entries between
    become a gap. -/
theorem EarlierOpen.page (ho : EarlierOpen rng es conv low since) (h : Knows pre rng es)
    (hunstarted : rng.started = false → es = [] ∧ rng.gaps = [] ∧ rng.tail = ⊥) (hlt : lo < low)
    (hmeets : Meets rng es es' lo low first rng' rebuild) :
    (rng' = { rng with low := min rng.low lo } ∧ rebuild = decide (lo < rng.low) ∧ rng.low ≤ low) ∨
      ∃ u, rng' = { rng with gaps := ⟨low, u⟩ :: rng.gaps, low := lo } ∧ rebuild = true ∧ (low : WithBot ℤ) < rng.low ∧
        ∀ e ∈ es, u ≤ e.id := by
  cases hmeets with
  | blank hblank =>
    have htail : rng.tail ≤ lo := by
      obtain hfst | hnoth := hblank
      · exact (hunstarted hfst).2.2 ▸ bot_le
      · exact hnoth.2.2
    exact absurd (ho.tail.trans htail) (not_le.mpr hlt)
  | past hstarted hsome htail => exact absurd (ho.tail.trans htail.le) (not_le.mpr hlt)
  | below hstarted hhi hbel =>
    refine .inr ⟨_, rfl, rfl, hbel, fun e he => ?_⟩
    have hpast : (low : WithBot ℤ) < e.id := hbel.trans (h.held e he).2
    cases hfst : firstPast es (low : WithBot ℤ) with
    | none => exact absurd (firstPast_none hfst he) (not_le.mpr hpast)
    | some x => exact firstPast_le h.sorted hfst he hpast
  | within hstarted _ hlo hhi =>
    left
    have hsame : subtract rng.gaps es' lo low = (rng.gaps, false) := by
      obtain ⟨heq, -⟩ | ⟨-, -, hany⟩ := subtract_cases rng.gaps es' lo (low : WithBot ℤ)
      · exact heq
      · obtain ⟨g, hg, hover⟩ := any_eq_true.mp hany
        have haft := coe_lt_coe.mp (overlaps_iff.mp hover).1
        have hge := ho.gaps g hg
        omega
    rw [hsame, max_eq_left ho.tail, Bool.false_or]
    refine ⟨rfl, rfl, ?_⟩
    obtain hbot | hle := hhi
    · cases hbot
    · exact hle

/-- A load of a gap stays open when the page of what is earlier arrives. -/
theorem FillOpen.earlier_page (ho : FillOpen rng es conv gap since) (hcov : Covers pre pre lo low added)
    (hmem : ∀ e ∈ es, e ∈ es') (hfront : (low : WithBot ℤ) < rng.low → ∃ e ∈ es, e.id ≤ gap.after)
    (hpage : rng' = { rng with low := min rng.low lo } ∨
      ∃ u, rng' = { rng with gaps := ⟨low, u⟩ :: rng.gaps, low := lo } ∧ (low : WithBot ℤ) < rng.low ∧ ∀ e ∈ es, u ≤ e.id) :
    FillOpen rng' es' conv gap since := by
  have hblank : es' = [] → gap ∈ rng.gaps := fun hnil => ho.blank
    (eq_nil_iff_forall_not_mem.mpr fun e he => eq_nil_iff_forall_not_mem.mp hnil e (hmem e he))
  obtain rfl | ⟨u, rfl, hlow, hu⟩ := hpage
  · exact ⟨ho.wide, ho.known, ho.tail, (min_le_left ..).trans ho.low, ho.meets, hblank⟩
  · refine ⟨ho.wide, ho.known, ho.tail, (hcov.lo_le.trans hlow.le).trans ho.low, fun g hg => ?_, fun hnil => .tail _ (hblank hnil)⟩
    obtain rfl | hold := mem_cons.mp hg
    · obtain ⟨e, he, hle⟩ := hfront hlow
      have hend := hu e he
      exact .inl (show u ≤ gap.after + 1 by omega)
    · exact ho.meets g hold

end

end PiBridge.Durable
