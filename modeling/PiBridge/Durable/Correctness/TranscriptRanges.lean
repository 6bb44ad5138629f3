import PiBridge.Durable.Transcript

/-!
# `Durable.Correctness.TranscriptRanges` — what a transcript knows, and that covering a range keeps it

`Knows pre range entries` says what a client that has seen the entries `pre` of its conversation holds: every one of them
past the lower bound, but for those strictly inside a gap. One lemma for each of the four ways a range meets the known one
(`Knows.blank`, `Knows.past`, `Knows.below`, `Knows.within`) says that it still does after the range is covered.
-/

namespace PiBridge.Durable

open List
open WithBot (coe_le_coe bot_lt_coe coe_lt_coe)

variable {V : Type}

/-! ## Lists in ID order -/

abbrev InOrder (xs : List (TranscriptEntry V)) : Prop := xs.Pairwise fun e e' => e.id < e'.id

/-- The ID of the newest entry. -/
def lastId (xs : List (TranscriptEntry V)) : WithBot ℤ := xs.getLast?.map (·.id)

/-- The entries of `(lo, hi]`. -/
def between (lo hi : WithBot ℤ) (e : TranscriptEntry V) : Bool := decide (lo < e.id) && decide ((e.id : WithBot ℤ) ≤ hi)

variable {e : TranscriptEntry V} {xs pre : List (TranscriptEntry V)} {x : ℤ} {b bound : WithBot ℤ}

theorem between_iff {lo hi : WithBot ℤ} : between lo hi e = true ↔ lo < e.id ∧ (e.id : WithBot ℤ) ≤ hi := by
  unfold between
  rw [Bool.and_eq_true, decide_eq_true_eq, decide_eq_true_eq]

theorem lastId_append_singleton (xs : List (TranscriptEntry V)) (e : TranscriptEntry V) : lastId (xs ++ [e]) = e.id := by
  unfold lastId
  rw [getLast?_append]
  rfl

theorem le_lastId (h : InOrder xs) (he : e ∈ xs) : (e.id : WithBot ℤ) ≤ lastId xs := by
  obtain ⟨init, last, rfl⟩ := eq_nil_or_concat xs |>.resolve_left (ne_nil_of_mem he)
  rw [concat_eq_append] at *
  rw [lastId_append_singleton]
  obtain hin | hlast := mem_append.mp he
  · exact coe_le_coe.mpr (le_of_lt ((pairwise_append.mp h).2.2 e hin last (.head _)))
  · rw [mem_singleton.mp hlast]

theorem lastId_lt {suf : List (TranscriptEntry V)} (h : InOrder (pre ++ suf)) (he : e ∈ suf) : lastId pre < e.id := by
  obtain rfl | ⟨init, last, rfl⟩ := eq_nil_or_concat pre
  · exact bot_lt_coe _
  · rw [concat_eq_append] at *
    rw [lastId_append_singleton]
    exact coe_lt_coe.mpr ((pairwise_append.mp h).2.2 last (mem_append_right _ (.head _)) e he)

theorem mem_of_le_lastId {pre' : List (TranscriptEntry V)} (h : InOrder pre') (hgrown : pre <+: pre') (he : e ∈ pre')
    (hle : (e.id : WithBot ℤ) ≤ lastId pre) : e ∈ pre := by
  obtain ⟨suf, rfl⟩ := hgrown
  obtain hin | hsuf := mem_append.mp he
  · exact hin
  · exact absurd (lastId_lt h hsuf) (not_lt.mpr hle)

theorem eq_of_id (h : InOrder xs) {e' : TranscriptEntry V} (he : e ∈ xs) (he' : e' ∈ xs) (hid : e.id = e'.id) : e = e' := by
  have hdist : (xs.map (·.id)).Nodup := pairwise_map.mpr (h.imp fun hlt => ne_of_lt hlt)
  exact inj_on_of_nodup_map hdist he he' hid

/-! ## Bounds -/

theorem le_add_one_iff : (x : WithBot ℤ) ≤ b + 1 ↔ ((x - 1 : ℤ) : WithBot ℤ) ≤ b := by
  induction b using WithBot.recBotCoe with
  | bot => simp
  | coe b =>
    have hcast : ((b : ℤ) : WithBot ℤ) + 1 = ((b + 1 : ℤ) : WithBot ℤ) := rfl
    rw [hcast, coe_le_coe, coe_le_coe]
    omega

theorem add_one_lt_iff : b + 1 < (x : WithBot ℤ) ↔ b < ((x - 1 : ℤ) : WithBot ℤ) := by
  rw [← not_le, le_add_one_iff, not_le]

theorem exists_of_lt (h : (x : WithBot ℤ) < b) : ∃ y : ℤ, b = y ∧ x < y := by
  induction b using WithBot.recBotCoe with
  | bot => exact absurd h (not_lt_bot)
  | coe b => exact ⟨b, rfl, coe_lt_coe.mp h⟩

theorem exists_of_ne_bot (h : b ≠ ⊥) : ∃ y : ℤ, b = y := by
  induction b using WithBot.recBotCoe with
  | bot => exact absurd rfl h
  | coe b => exact ⟨b, rfl⟩

/-! ## The first entry past a bound -/

theorem firstPast_le (h : InOrder xs) (hx : firstPast xs bound = some x) (he : e ∈ xs) (hpast : bound < e.id) : x ≤ e.id := by
  obtain ⟨fst, hfst, rfl⟩ := Option.map_eq_some_iff.mp hx
  obtain ⟨-, bef, aft, rfl, hbef⟩ := find?_eq_some_iff_append.mp hfst
  obtain hin | hin := mem_append.mp he
  · have hnot := hbef e hin
    simp only [Bool.not_eq_true', decide_eq_false_iff_not] at hnot
    exact absurd hpast hnot
  · obtain rfl | hrest := mem_cons.mp hin
    · exact le_refl _
    · exact (rel_of_pairwise_cons (pairwise_append.mp h).2.1 hrest).le

theorem firstPast_mem (hx : firstPast xs bound = some x) : ∃ e ∈ xs, e.id = x ∧ bound < e.id := by
  obtain ⟨fst, hfst, rfl⟩ := Option.map_eq_some_iff.mp hx
  have hpast := find?_some hfst
  exact ⟨fst, mem_of_find?_eq_some hfst, rfl, of_decide_eq_true hpast⟩

theorem firstPast_none (hx : firstPast xs bound = none) (he : e ∈ xs) : (e.id : WithBot ℤ) ≤ bound := by
  have hnot := find?_eq_none.mp (Option.map_eq_none_iff.mp hx) e he
  exact not_lt.mp fun hlt => hnot (decide_eq_true hlt)

/-! ## What a range leaves of a gap -/

section
variable {es : List (TranscriptEntry V)} {lo hi : WithBot ℤ} {gap piece : Gap}

theorem overlaps_iff : gap.overlaps lo hi = true ↔ (gap.after : WithBot ℤ) < hi ∧ lo < ((gap.upTo - 1 : ℤ) : WithBot ℤ) := by
  unfold Gap.overlaps
  rw [Bool.not_eq_true', Bool.or_eq_false_iff, decide_eq_false_iff_not, decide_eq_false_iff_not, not_le, le_add_one_iff, not_le]

theorem mem_subtractGap (h : piece ∈ subtractGap es lo hi gap) : (gap.overlaps lo hi = false ∧ piece = gap) ∨
      (gap.overlaps lo hi = true ∧ (gap.after : WithBot ℤ) < lo ∧ piece = ⟨gap.after, min gap.upTo ((firstPast es lo).getD (lo.unbotD 0 + 1))⟩) ∨
      gap.overlaps lo hi = true ∧ hi + 1 < gap.upTo ∧ piece = ⟨hi.unbotD 0, gap.upTo⟩ := by
  unfold subtractGap at h
  split at h
  · rename_i hover
    obtain hleft | hright := mem_append.mp h
    · split at hleft
      · rename_i hlo
        exact .inr (.inl ⟨hover, hlo, mem_singleton.mp hleft⟩)
      · cases hleft
    · split at hright
      · rename_i hhi
        exact .inr (.inr ⟨hover, hhi, mem_singleton.mp hright⟩)
      · cases hright
  · rename_i hover
    exact .inl ⟨Bool.eq_false_iff.mpr hover, mem_singleton.mp h⟩

/-- The end of a piece before a bound lies past the bound. -/
theorem lt_leftEnd {l : ℤ} : l < (firstPast es (l : WithBot ℤ)).getD ((l : WithBot ℤ).unbotD 0 + 1) := by
  cases hfst : firstPast es (l : WithBot ℤ) with
  | none =>
    show l < l + 1
    omega
  | some x =>
    obtain ⟨e, -, rfl, hpast⟩ := firstPast_mem hfst
    exact coe_lt_coe.mp hpast

/-- A piece of a gap lies in it, and misses an ID. -/
theorem subtractGap_sub (h : piece ∈ subtractGap es lo hi gap) (hwide : gap.after + 1 < gap.upTo) :
    gap.after ≤ piece.after ∧ piece.upTo ≤ gap.upTo ∧ piece.after + 1 < piece.upTo := by
  obtain ⟨-, rfl⟩ | ⟨hover, hlo, rfl⟩ | ⟨hover, hhi, rfl⟩ := mem_subtractGap h
  · exact ⟨le_refl _, le_refl _, hwide⟩
  · obtain ⟨l, rfl, haft⟩ := exists_of_lt hlo
    have hend := @lt_leftEnd V es l
    refine ⟨le_refl _, min_le_left _ _, lt_min hwide ?_⟩
    show gap.after + 1 < _
    omega
  · obtain ⟨y, rfl, haft⟩ := exists_of_lt (overlaps_iff.1 hover).1
    have htop := coe_lt_coe.mp (add_one_lt_iff.1 hhi)
    show gap.after ≤ y ∧ gap.upTo ≤ gap.upTo ∧ y + 1 < gap.upTo
    omega

/-- A piece of a gap misses nothing of the range. -/
theorem subtractGap_outside (hes : InOrder es) (h : piece ∈ subtractGap es lo hi gap) {e : TranscriptEntry V} (he : e ∈ es) (hlo : lo < e.id)
    (hhi : (e.id : WithBot ℤ) ≤ hi) : e.id ≤ piece.after ∨ piece.upTo ≤ e.id := by
  obtain ⟨hover, rfl⟩ | ⟨-, haft, rfl⟩ | ⟨hover, -, rfl⟩ := mem_subtractGap h
  · by_contra hinside
    rw [not_or, not_le, not_le] at hinside
    refine Bool.eq_false_iff.mp hover (overlaps_iff.2 ⟨lt_of_lt_of_le (coe_lt_coe.mpr hinside.1) hhi, lt_of_lt_of_le hlo ?_⟩)
    exact coe_le_coe.mpr (by omega)
  · refine .inr (min_le_of_right_le ?_)
    obtain ⟨l, rfl, -⟩ := exists_of_lt haft
    cases hfst : firstPast es (l : WithBot ℤ) with
    | none => exact absurd (firstPast_none hfst he) (not_le.mpr hlo)
    | some x => exact firstPast_le hes hfst he hlo
  · obtain ⟨y, rfl, -⟩ := exists_of_lt (overlaps_iff.1 hover).1
    exact .inl (coe_le_coe.mp hhi)

/-- What a gap misses outside the range, a piece of it misses. -/
theorem subtractGap_keeps {x : ℤ} (haft : gap.after < x) (hupTo : x < gap.upTo) (hout : ¬(lo < x ∧ (x : WithBot ℤ) ≤ hi)) :
    ∃ piece ∈ subtractGap es lo hi gap, piece.after < x ∧ x < piece.upTo := by
  unfold subtractGap
  split
  · by_cases hlo : lo < x
    · obtain ⟨y, rfl, haft'⟩ := exists_of_lt (overlaps_iff.1 ‹gap.overlaps lo hi = true›).1
      have hy : y < x := coe_lt_coe.mp (not_le.mp fun hle => hout ⟨hlo, hle⟩)
      have htop : ((y : ℤ) : WithBot ℤ) + 1 < gap.upTo := add_one_lt_iff.2 (coe_lt_coe.mpr (by omega))
      rw [if_pos htop]
      exact ⟨_, mem_append_right _ (.head _), hy, hupTo⟩
    · have hle : (x : WithBot ℤ) ≤ lo := not_lt.mp hlo
      have hsta : (gap.after : WithBot ℤ) < lo := lt_of_lt_of_le (coe_lt_coe.mpr haft) hle
      obtain ⟨l, rfl, -⟩ := exists_of_lt hsta
      have hend := @lt_leftEnd V es l
      rw [coe_le_coe] at hle
      rw [if_pos hsta]
      exact ⟨_, mem_append_left _ (.head _), haft, lt_min hupTo (lt_of_le_of_lt hle hend)⟩
  · exact ⟨gap, .head _, haft, hupTo⟩

/-- The gaps a range leaves: it changes none, or it is not empty and each is what it leaves of one. -/
theorem subtract_cases (gaps : List Gap) (es : List (TranscriptEntry V)) (lo hi : WithBot ℤ) :
    (subtract gaps es lo hi = (gaps, false) ∧ (lo < hi → gaps.any (Gap.overlaps lo hi) = false)) ∨
      subtract gaps es lo hi = (gaps.flatMap (subtractGap es lo hi), true) ∧ lo < hi ∧ gaps.any (Gap.overlaps lo hi) = true := by
  unfold subtract
  split
  · rename_i hle
    exact .inl ⟨rfl, fun hlt => absurd hlt (not_lt.mpr hle)⟩
  · rename_i hlt
    split
    · exact .inr ⟨rfl, not_le.mp hlt, ‹_›⟩
    · exact .inl ⟨rfl, fun _ => Bool.eq_false_iff.mpr ‹_›⟩

/-- What becomes of the gaps when a range is covered: each that is left lies in one there was, they stay apart, miss
    nothing of the range, and miss all they did outside it. -/
structure Narrowed (gaps gaps' : List Gap) (es : List (TranscriptEntry V)) (lo hi : WithBot ℤ) : Prop where
  sub : ∀ piece ∈ gaps', ∃ gap ∈ gaps, gap.after ≤ piece.after ∧ piece.upTo ≤ gap.upTo
  wide : ∀ piece ∈ gaps', piece.after + 1 < piece.upTo
  apart : gaps'.Pairwise fun gap gap' => gap.upTo ≤ gap'.after + 1
  outside : ∀ piece ∈ gaps', ∀ e ∈ es, lo < e.id → (e.id : WithBot ℤ) ≤ hi → e.id ≤ piece.after ∨ piece.upTo ≤ e.id
  keeps : ∀ gap ∈ gaps, ∀ x : ℤ, gap.after < x → x < gap.upTo → ¬(lo < x ∧ (x : WithBot ℤ) ≤ hi) →
    ∃ piece ∈ gaps', piece.after < x ∧ x < piece.upTo

/-- At most one piece is left of a gap the range does not lie strictly inside of. -/
theorem subtractGap_pairwise {R : Gap → Gap → Prop} (hside : gap.overlaps lo hi = true → (gap.after : WithBot ℤ) < lo → ¬hi + 1 < gap.upTo) :
    (subtractGap es lo hi gap).Pairwise R := by
  unfold subtractGap
  split
  · rename_i hover
    by_cases hlo : (gap.after : WithBot ℤ) < lo
    · rw [if_pos hlo, if_neg (hside hover hlo), append_nil]
      exact pairwise_singleton _ _
    · rw [if_neg hlo, nil_append]
      split
      · exact pairwise_singleton _ _
      · exact Pairwise.nil
  · exact pairwise_singleton _ _

theorem narrowed_subtract {gaps : List Gap} (hes : InOrder es) (hwide : ∀ gap ∈ gaps, gap.after + 1 < gap.upTo)
    (hapart : gaps.Pairwise fun gap gap' => gap.upTo ≤ gap'.after + 1)
    (hside : ∀ gap ∈ gaps, gap.overlaps lo hi = true → (gap.after : WithBot ℤ) < lo → ¬hi + 1 < gap.upTo) :
    Narrowed gaps (subtract gaps es lo hi).1 es lo hi := by
  obtain ⟨heq, hnone⟩ | ⟨heq, -, -⟩ := subtract_cases gaps es lo hi
  · rw [heq]
    refine ⟨fun gap hgap => ⟨gap, hgap, le_refl _, le_refl _⟩, hwide, hapart, fun gap hgap e he hlo hhi => ?_,
      fun gap hgap x haft hupTo _ => ⟨gap, hgap, haft, hupTo⟩⟩
    -- Only a range that is not empty has an entry, and then it overlaps no gap.
    have hover : gap.overlaps lo hi = false := Bool.eq_false_iff.mpr (any_eq_false.mp (hnone (lt_of_lt_of_le hlo hhi)) gap hgap)
    have hself : gap ∈ subtractGap es lo hi gap := by
      unfold subtractGap
      rw [hover]
      exact .head _
    exact subtractGap_outside hes hself he hlo hhi
  · rw [heq]
    refine ⟨fun piece hpce => ?_, fun piece hpce => ?_, ?_, fun piece hpce e he hlo hhi => ?_, fun gap hgap x haft hupTo hout => ?_⟩
    · obtain ⟨gap, hgap, hpce⟩ := mem_flatMap.mp hpce
      obtain ⟨haft, hupTo, -⟩ := subtractGap_sub hpce (hwide gap hgap)
      exact ⟨gap, hgap, haft, hupTo⟩
    · obtain ⟨gap, hgap, hpce⟩ := mem_flatMap.mp hpce
      exact (subtractGap_sub hpce (hwide gap hgap)).2.2
    · refine pairwise_flatMap.mpr ⟨fun gap hgap => subtractGap_pairwise (hside gap hgap), ?_⟩
      refine hapart.imp_of_mem fun hgap hgap' hle piece hpce piece' hpce' => ?_
      have hfst := (subtractGap_sub hpce (hwide _ hgap)).2.1
      have hsecond := (subtractGap_sub hpce' (hwide _ hgap')).1
      omega
    · obtain ⟨gap, -, hpce⟩ := mem_flatMap.mp hpce
      exact subtractGap_outside hes hpce he hlo hhi
    · obtain ⟨piece, hpce, hinside⟩ := @subtractGap_keeps V es lo hi gap x haft hupTo hout
      exact ⟨piece, mem_flatMap.mpr ⟨gap, hgap, hpce⟩, hinside⟩

end

/-! ## The known range -/

/-- What a client that has seen `pre` of its conversation knows. -/
structure Knows (pre : List (TranscriptEntry V)) (range : KnownRange) (entries : List (TranscriptEntry V)) : Prop where
  sorted : InOrder entries
  held : ∀ e ∈ entries, e ∈ pre ∧ range.low < e.id
  tail_eq : range.tail = lastId pre
  low_le : range.low ≤ range.tail
  wide : ∀ gap ∈ range.gaps, gap.after + 1 < gap.upTo ∧ range.low ≤ gap.after ∧ ((gap.upTo - 1 : ℤ) : WithBot ℤ) ≤ range.tail
  apart : range.gaps.Pairwise fun gap gap' => gap.upTo ≤ gap'.after + 1
  outside : ∀ gap ∈ range.gaps, ∀ e ∈ entries, e.id ≤ gap.after ∨ gap.upTo ≤ e.id
  complete : ∀ e ∈ pre, range.low < e.id → e ∈ entries ∨ ∃ gap ∈ range.gaps, gap.after < e.id ∧ e.id < gap.upTo

/-- `(lo, hi]` is honestly covered: `added` are its entries, of a conversation seen as `pre` before and as `pre'` now. -/
structure Covers (pre pre' : List (TranscriptEntry V)) (lo hi : WithBot ℤ) (added : List (TranscriptEntry V)) : Prop where
  ordered : InOrder pre'
  grown : pre <+: pre'
  added_eq : added = pre'.filter (between lo hi)
  lo_le : lo ≤ hi
  reach : max (lastId pre) hi = lastId pre'
  finite : hi = ⊥ → pre' = []

theorem Covers.mem_added {pre' : List (TranscriptEntry V)} {lo hi : WithBot ℤ} {added : List (TranscriptEntry V)} (h : Covers pre pre' lo hi added)
    : e ∈ added ↔ e ∈ pre' ∧ lo < e.id ∧ (e.id : WithBot ℤ) ≤ hi := by
  rw [h.added_eq, mem_filter, between_iff]

namespace Knows

variable {pre pre' : List (TranscriptEntry V)} {rng : KnownRange} {entries entries' : List (TranscriptEntry V)} {lo hi : WithBot ℤ}
  {added : List (TranscriptEntry V)}

theorem le_tail (h : Knows pre rng entries) (hcovers : Covers pre pre' lo hi added) {e : TranscriptEntry V} (he : e ∈ entries) :
    (e.id : WithBot ℤ) ≤ rng.tail := by
  rw [h.tail_eq]
  exact le_lastId (hcovers.ordered.sublist hcovers.grown.sublist) (h.held e he).1

section
variable (h : Knows pre rng entries) (hcov : Covers pre pre' lo hi added) (hsorted : InOrder entries')
  (hmem : ∀ e, e ∈ entries' ↔ e ∈ entries ∨ e ∈ added)
include h hcov hsorted hmem

/-- The first range, or one after an empty transcript. -/
theorem blank (hents : entries = []) (hgaps : rng.gaps = []) (htail : rng.tail ≤ lo) :
    Knows pre' ⟨rng.gaps, true, lo, max rng.tail hi⟩ entries' := by
  subst hents
  have hhi : max rng.tail hi = hi := max_eq_right (htail.trans hcov.lo_le)
  refine ⟨hsorted, fun e he => ?_, ?_, ?_, ?_, ?_, ?_, fun e he hlow => ?_⟩
  · obtain hold | hnew := (hmem e).mp he
    · cases hold
    · exact ⟨(hcov.mem_added.mp hnew).1, (hcov.mem_added.mp hnew).2.1⟩
  · show max rng.tail hi = lastId pre'
    rw [h.tail_eq, hcov.reach]
  · exact hcov.lo_le.trans (le_max_right ..)
  · simp [hgaps]
  · simp [hgaps]
  · simp [hgaps]
  · have hle : (e.id : WithBot ℤ) ≤ hi := by
      rw [← hhi, h.tail_eq, hcov.reach]
      exact le_lastId hcov.ordered he
    exact .inl ((hmem e).mpr (.inr (hcov.mem_added.mpr ⟨he, hlow, hle⟩)))

/-- A range past the newest known ID. -/
theorem past (htail : rng.tail < lo) (hstarted : entries ≠ [] ∨ rng.gaps ≠ []) :
    Knows pre' { rng with gaps := rng.gaps ++ [⟨rng.tail.unbotD 0, (added.head?.map (·.id)).getD (lo.unbotD 0 + 1)⟩], tail := hi } entries' := by
  -- Something was held or missed, so both bounds are numbers.
  obtain ⟨t, ht⟩ : ∃ t : ℤ, rng.tail = t := by
    refine exists_of_ne_bot fun hbot => ?_
    obtain hsome | hsome := hstarted
    · obtain ⟨e, he⟩ := exists_mem_of_ne_nil _ hsome
      exact absurd (hbot ▸ h.le_tail hcov he) (not_le.mpr (bot_lt_coe _))
    · obtain ⟨gap, hgap⟩ := exists_mem_of_ne_nil _ hsome
      exact absurd (hbot ▸ (h.wide gap hgap).2.2) (not_le.mpr (bot_lt_coe _))
  obtain ⟨l, rfl, hlt⟩ := exists_of_lt (ht ▸ htail)
  have hhi : hi = lastId pre' := by
    rw [← hcov.reach, ← h.tail_eq]
    exact (max_eq_right (htail.le.trans hcov.lo_le)).symm
  have hadded : InOrder added := hcov.added_eq ▸ hcov.ordered.filter _
  -- The new gap ends at the first new entry, or right after the lower bound.
  obtain ⟨u, hu⟩ : ∃ u : ℤ, (added.head?.map (·.id)).getD ((l : WithBot ℤ).unbotD 0 + 1) = u := ⟨_, rfl⟩
  have hlu : l + 1 ≤ u := by
    cases added with
    | nil => exact hu ▸ le_refl _
    | cons fst rest =>
      have hfst := coe_lt_coe.mp (hcov.mem_added.mp (.head _)).2.1
      have hid : fst.id = u := hu
      omega
  have hubelow : ∀ e ∈ added, u ≤ e.id := by
    intro e he
    cases added with
    | nil => cases he
    | cons fst rest =>
      have hid : fst.id = u := hu
      obtain rfl | hrest := mem_cons.mp he
      · exact hid.ge
      · exact hid ▸ (rel_of_pairwise_cons hadded hrest).le
  have huhi : ((u - 1 : ℤ) : WithBot ℤ) ≤ hi := by
    cases added with
    | nil =>
      have hid : l + 1 = u := hu
      rw [← hid, add_sub_cancel_right]
      exact hcov.lo_le
    | cons fst rest =>
      have hid : fst.id = u := hu
      refine le_trans (coe_le_coe.mpr ?_) (hcov.mem_added.mp (.head _)).2.2
      omega
  rw [hu, ht, WithBot.unbotD_coe]
  refine ⟨hsorted, fun e he => ?_, hhi, ?_, fun gap hgap => ?_, ?_, fun gap hgap e he => ?_, fun e he hlow => ?_⟩
  · obtain hold | hnew := (hmem e).mp he
    · exact ⟨hcov.grown.subset (h.held e hold).1, (h.held e hold).2⟩
    · exact ⟨(hcov.mem_added.mp hnew).1, lt_of_le_of_lt (h.low_le.trans htail.le) (hcov.mem_added.mp hnew).2.1⟩
  · exact h.low_le.trans (htail.le.trans hcov.lo_le)
  · obtain hold | hnew := mem_append.mp hgap
    · obtain ⟨hw, hlow, htop⟩ := h.wide gap hold
      exact ⟨hw, hlow, htop.trans (htail.le.trans hcov.lo_le)⟩
    · obtain rfl := mem_singleton.mp hnew
      refine ⟨?_, ht ▸ h.low_le, huhi⟩
      show t + 1 < u
      omega
  · refine pairwise_append.mpr ⟨h.apart, pairwise_singleton _ _, fun gap hgap new hnew => ?_⟩
    obtain rfl := mem_singleton.mp hnew
    have htop := coe_le_coe.mp (ht ▸ (h.wide gap hgap).2.2)
    show gap.upTo ≤ t + 1
    omega
  · obtain hold | hnew := mem_append.mp hgap
    · obtain hheld | hadd := (hmem e).mp he
      · exact h.outside gap hold e hheld
      · have htop := coe_le_coe.mp (ht ▸ (h.wide gap hold).2.2)
        have hbel := hubelow e hadd
        exact .inr (by omega)
    · obtain rfl := mem_singleton.mp hnew
      obtain hheld | hadd := (hmem e).mp he
      · exact .inl (coe_le_coe.mp (ht ▸ h.le_tail hcov hheld))
      · exact .inr (hubelow e hadd)
  · have hin : (e.id : WithBot ℤ) ≤ hi := hhi ▸ le_lastId hcov.ordered he
    by_cases hold : (e.id : WithBot ℤ) ≤ rng.tail
    · obtain hheld | ⟨gap, hgap, hinside⟩ := h.complete e (mem_of_le_lastId hcov.ordered hcov.grown he (h.tail_eq ▸ hold)) hlow
      · exact .inl ((hmem e).mpr (.inl hheld))
      · exact .inr ⟨gap, mem_append_left _ hgap, hinside⟩
    · by_cases hnew : ((l : ℤ) : WithBot ℤ) < e.id
      · exact .inl ((hmem e).mpr (.inr (hcov.mem_added.mpr ⟨he, hnew, hin⟩)))
      · refine .inr ⟨_, mem_append_right _ (.head _), ?_⟩
        rw [ht, coe_le_coe] at hold
        rw [coe_lt_coe] at hnew
        show t < e.id ∧ e.id < u
        omega

theorem below (hhi : hi ≠ ⊥) (hbel : hi < rng.low) (hfront : entries ≠ [] → ∀ gap ∈ rng.gaps, ∃ e ∈ entries, e.id ≤ gap.after) :
    Knows pre' { rng with gaps := ⟨hi.unbotD 0, (firstPast entries hi).getD (rng.low.unbotD 0 + 1)⟩ :: rng.gaps, low := lo } entries' := by
  obtain ⟨y, rfl⟩ := exists_of_ne_bot hhi
  obtain ⟨w, hw, hyw⟩ := exists_of_lt hbel
  have hsame : lastId pre' = lastId pre := by
    rw [← hcov.reach, ← h.tail_eq]
    exact max_eq_left (hbel.le.trans h.low_le)
  have hold : ∀ e ∈ pre', e ∈ pre := fun e he =>
    mem_of_le_lastId hcov.ordered hcov.grown he (hsame ▸ le_lastId hcov.ordered he)
  -- The new gap ends at the first held entry, or right after the old lower bound.
  obtain ⟨u, hu⟩ : ∃ u : ℤ, (firstPast entries y).getD (rng.low.unbotD 0 + 1) = u := ⟨_, rfl⟩
  have hufirst : ∀ e ∈ entries, u ≤ e.id := by
    intro e he
    have hpast : ((y : ℤ) : WithBot ℤ) < e.id := hbel.trans (h.held e he).2
    cases hfst : firstPast entries y with
    | none => exact absurd (firstPast_none hfst he) (not_le.mpr hpast)
    | some x =>
      rw [hfst] at hu
      exact hu ▸ firstPast_le h.sorted hfst he hpast
  have huw : w + 1 ≤ u ∧ ((u - 1 : ℤ) : WithBot ℤ) ≤ rng.tail ∧ (entries = [] → u = w + 1) := by
    cases hfst : firstPast entries y with
    | none =>
      rw [hfst, hw] at hu
      have hid : w + 1 = u := hu
      rw [← hid, add_sub_cancel_right, ← hw]
      exact ⟨le_refl _, h.low_le, fun _ => rfl⟩
    | some x =>
      rw [hfst] at hu
      obtain rfl : x = u := hu
      obtain ⟨e, he, rfl, -⟩ := firstPast_mem hfst
      have hpast := coe_lt_coe.mp (hw ▸ (h.held e he).2)
      refine ⟨hpast, le_trans (coe_le_coe.mpr ?_) (h.le_tail hcov he), fun hnil => absurd he (hnil ▸ not_mem_nil)⟩
      omega
  rw [hu, WithBot.unbotD_coe]
  refine ⟨hsorted, fun e he => ?_, ?_, ?_, fun gap hgap => ?_, ?_, fun gap hgap e he => ?_, fun e he hlow => ?_⟩
  · obtain hheld | hnew := (hmem e).mp he
    · exact ⟨hcov.grown.subset (h.held e hheld).1, lt_of_le_of_lt (hcov.lo_le.trans hbel.le) (h.held e hheld).2⟩
    · exact ⟨(hcov.mem_added.mp hnew).1, (hcov.mem_added.mp hnew).2.1⟩
  · show rng.tail = lastId pre'
    rw [h.tail_eq, hsame]
  · exact hcov.lo_le.trans (hbel.le.trans h.low_le)
  · obtain rfl | hgap := mem_cons.mp hgap
    · refine ⟨?_, hcov.lo_le, huw.2.1⟩
      show y + 1 < u
      omega
    · obtain ⟨hwide, hlow, htop⟩ := h.wide gap hgap
      exact ⟨hwide, (hcov.lo_le.trans hbel.le).trans hlow, htop⟩
  · refine pairwise_cons.mpr ⟨fun gap hgap => ?_, h.apart⟩
    show u ≤ gap.after + 1
    by_cases hnil : entries = []
    · have haft := coe_le_coe.mp (hw ▸ (h.wide gap hgap).2.1)
      have hend := huw.2.2 hnil
      omega
    · obtain ⟨e, he, hle⟩ := hfront hnil gap hgap
      have hfst := hufirst e he
      omega
  · obtain rfl | hgap := mem_cons.mp hgap
    · obtain hheld | hnew := (hmem e).mp he
      · exact .inr (hufirst e hheld)
      · exact .inl (coe_le_coe.mp (hcov.mem_added.mp hnew).2.2)
    · obtain hheld | hnew := (hmem e).mp he
      · exact h.outside gap hgap e hheld
      · have haft := coe_le_coe.mp (hw ▸ (h.wide gap hgap).2.1)
        have hle := coe_le_coe.mp (hcov.mem_added.mp hnew).2.2
        exact .inl (by omega)
  · by_cases hle : (e.id : WithBot ℤ) ≤ y
    · exact .inl ((hmem e).mpr (.inr (hcov.mem_added.mpr ⟨he, hlow, hle⟩)))
    · by_cases hkn : rng.low < e.id
      · obtain hheld | ⟨gap, hgap, hinside⟩ := h.complete e (hold e he) hkn
        · exact .inl ((hmem e).mpr (.inl hheld))
        · exact .inr ⟨gap, .tail _ hgap, hinside⟩
      · refine .inr ⟨_, .head _, ?_⟩
        rw [coe_le_coe] at hle
        rw [hw, coe_lt_coe] at hkn
        show y < e.id ∧ e.id < u
        omega

/-- A range that meets the known one. -/
theorem within (hlo : lo ≤ rng.tail) (hhi : hi = ⊥ ∨ rng.low ≤ hi)
    (hside : ∀ gap ∈ rng.gaps, gap.overlaps lo hi = true → (gap.after : WithBot ℤ) < lo → ¬hi + 1 < gap.upTo) :
    Knows pre' { rng with gaps := (subtract rng.gaps entries' lo hi).1, low := min rng.low lo, tail := max rng.tail hi } entries' := by
  have hnarr := narrowed_subtract hsorted (fun gap hgap => (h.wide gap hgap).1) h.apart hside
  refine ⟨hsorted, fun e he => ?_, ?_, ?_, fun piece hpce => ?_, hnarr.apart, fun piece hpce e he => ?_, fun e he hlow => ?_⟩
  · obtain hold | hnew := (hmem e).mp he
    · exact ⟨hcov.grown.subset (h.held e hold).1, lt_of_le_of_lt (min_le_left ..) (h.held e hold).2⟩
    · exact ⟨(hcov.mem_added.mp hnew).1, lt_of_le_of_lt (min_le_right ..) (hcov.mem_added.mp hnew).2.1⟩
  · show max rng.tail hi = lastId pre'
    rw [h.tail_eq, hcov.reach]
  · exact (min_le_left ..).trans (h.low_le.trans (le_max_left ..))
  · obtain ⟨gap, hgap, haft, hupTo⟩ := hnarr.sub piece hpce
    obtain ⟨-, hlow, htop⟩ := h.wide gap hgap
    refine ⟨hnarr.wide piece hpce, ?_, ?_⟩
    · exact (min_le_left ..).trans (hlow.trans (coe_le_coe.mpr haft))
    · exact le_trans (coe_le_coe.mpr (by omega)) (htop.trans (le_max_left ..))
  · obtain hold | hnew := (hmem e).mp he
    · obtain ⟨gap, hgap, haft, hupTo⟩ := hnarr.sub piece hpce
      obtain hleft | hright := h.outside gap hgap e hold
      · exact .inl (hleft.trans haft)
      · exact .inr (hupTo.trans hright)
    · obtain ⟨-, hlo', hhi'⟩ := hcov.mem_added.mp hnew
      exact hnarr.outside piece hpce e he hlo' hhi'
  · by_cases hin : lo < e.id ∧ (e.id : WithBot ℤ) ≤ hi
    · exact .inl ((hmem e).mpr (.inr (hcov.mem_added.mpr ⟨he, hin⟩)))
    · -- Outside the range, the entry was known before.
      have hkn : e ∈ pre ∧ rng.low < e.id := by
        obtain rfl | hlowhi := hhi
        · exact absurd he (hcov.finite rfl ▸ not_mem_nil)
        · by_cases hle : (e.id : WithBot ℤ) ≤ lo
          · refine ⟨mem_of_le_lastId hcov.ordered hcov.grown he (hle.trans (h.tail_eq ▸ hlo)), ?_⟩
            exact (min_lt_iff.mp hlow).resolve_right (not_lt.mpr hle)
          · have hpast : hi < e.id := not_le.mp fun hle' => hin ⟨not_le.mp hle, hle'⟩
            refine ⟨mem_of_le_lastId hcov.ordered hcov.grown he ?_, lt_of_le_of_lt hlowhi hpast⟩
            have htop : (e.id : WithBot ℤ) ≤ max (lastId pre) hi := hcov.reach ▸ le_lastId hcov.ordered he
            exact (le_max_iff.mp htop).resolve_right (not_le.mpr hpast)
      obtain hheld | ⟨gap, hgap, haft, hupTo⟩ := h.complete e hkn.1 hkn.2
      · exact .inl ((hmem e).mpr (.inl hheld))
      · exact .inr (hnarr.keeps gap hgap e.id haft hupTo hin)

end

end Knows

end PiBridge.Durable
