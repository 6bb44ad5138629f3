import PiBridge.Durable.Correctness.TranscriptRanges

/-!
# `Durable.Correctness.TranscriptItems` — the items a client renders, and that covering a range keeps a transcript sound

`Transcript.Sound pre t` adds to `Knows` that the items are the ones built from what is known, whether they were built
anew or grew at their end. `Sound.cover` is what one covered range keeps; `build_inOrder` says that items stand in order,
each gap between its neighbours.
-/

namespace PiBridge.Durable

open List

variable {V : Type}

/-! ## Items in order -/

/-- One item comes before another: gaps lie between their neighbours, and nothing comes before "earlier". -/
def TranscriptItem.Before : TranscriptItem V → TranscriptItem V → Prop
  | .earlier, .entry _ => True
  | .earlier, .gap _ => True
  | .entry e, .entry e' => e.id < e'.id
  | .entry e, .gap g => e.id ≤ g.after
  | .gap g, .entry e => g.upTo ≤ e.id
  | .gap g, .gap g' => g.upTo ≤ g'.after + 1
  | _, .earlier => False

theorem mem_interleave {item : TranscriptItem V} (gaps : List Gap) (es : List (TranscriptEntry V)) :
    item ∈ interleave gaps es ↔ (∃ gap ∈ gaps, item = .gap gap) ∨ ∃ e ∈ es, item = .entry e := by
  induction es generalizing gaps with
  | nil => simp [interleave, eq_comm]
  | cons e es ih =>
    have hgaps : (∃ gap ∈ gaps, item = .gap gap) ↔ (∃ gap ∈ gaps.takeWhile fun gap => decide (gap.after < e.id), item = .gap gap) ∨
        ∃ gap ∈ gaps.dropWhile fun gap => decide (gap.after < e.id), item = .gap gap := by
      rw [← exists_or]
      conv_lhs => rw [← @takeWhile_append_dropWhile _ (fun gap : Gap => decide (gap.after < e.id)) gaps]
      simp only [mem_append, or_and_right]
    have hents : (∃ e' ∈ e :: es, item = .entry e') ↔ item = .entry e ∨ ∃ e' ∈ es, item = .entry e' := by simp
    have hmap : item ∈ (gaps.takeWhile fun gap => decide (gap.after < e.id)).map .gap ↔
        ∃ gap ∈ gaps.takeWhile fun gap => decide (gap.after < e.id), item = .gap gap := by simp only [mem_map, eq_comm]
    unfold interleave
    rw [mem_append, mem_cons, ih, hmap, hgaps, hents, ← or_assoc, or_or_or_comm]

/-- The gaps from the first on that lies past an entry lie past it. -/
theorem le_after_of_dropWhile {gaps : List Gap} {x : ℤ} (hwide : ∀ gap ∈ gaps, gap.after + 1 < gap.upTo)
    (hapart : gaps.Pairwise fun gap gap' => gap.upTo ≤ gap'.after + 1) :
    ∀ gap ∈ gaps.dropWhile fun gap => decide (gap.after < x), x ≤ gap.after := by
  induction gaps with
  | nil =>
    intro gap hgap
    cases hgap
  | cons fst gaps ih =>
    intro gap hgap
    rw [dropWhile_cons] at hgap
    split at hgap
    · exact ih (fun gap hgap => hwide gap (.tail _ hgap)) (pairwise_cons.mp hapart).2 gap hgap
    · rename_i hnot
      have hfst : x ≤ fst.after := by simpa using hnot
      obtain rfl | hrest := mem_cons.mp hgap
      · exact hfst
      · have hle := (pairwise_cons.mp hapart).1 gap hrest
        have hw := hwide fst (.head _)
        omega

theorem interleave_inOrder {gaps : List Gap} {es : List (TranscriptEntry V)} (hsrt : InOrder es)
    (hwide : ∀ gap ∈ gaps, gap.after + 1 < gap.upTo) (hapart : gaps.Pairwise fun gap gap' => gap.upTo ≤ gap'.after + 1)
    (houtside : ∀ gap ∈ gaps, ∀ e ∈ es, e.id ≤ gap.after ∨ gap.upTo ≤ e.id) :
    (interleave gaps es).Pairwise TranscriptItem.Before := by
  induction es generalizing gaps with
  | nil => exact pairwise_map.mpr hapart
  | cons e es ih =>
    obtain ⟨hfst, hsrt⟩ := pairwise_cons.mp hsrt
    have htake : ∀ gap ∈ gaps.takeWhile fun gap => decide (gap.after < e.id), gap ∈ gaps ∧ gap.upTo ≤ e.id := by
      intro gap hgap
      have hin := (takeWhile_sublist _).subset hgap
      have hlt : gap.after < e.id := by simpa using mem_takeWhile_imp hgap
      refine ⟨hin, (houtside gap hin e (.head _)).resolve_left ?_⟩
      omega
    have hdrop := @le_after_of_dropWhile gaps e.id hwide hapart
    have hsub := dropWhile_sublist (l := gaps) fun gap => decide (gap.after < e.id)
    refine pairwise_append.mpr ⟨?_, pairwise_cons.mpr ⟨fun item hitem => ?_, ?_⟩, fun item hitem item' hitem' => ?_⟩
    · exact pairwise_map.mpr (hapart.sublist (takeWhile_sublist _))
    · obtain ⟨gap, hgap, rfl⟩ | ⟨e', he', rfl⟩ := (mem_interleave _ _).mp hitem
      · exact hdrop gap hgap
      · exact hfst e' he'
    · exact ih hsrt (fun gap hgap => hwide gap (hsub.subset hgap)) (hapart.sublist hsub)
        fun gap hgap e' he' => houtside gap (hsub.subset hgap) e' (.tail _ he')
    · obtain ⟨gap, hgap, rfl⟩ := mem_map.mp hitem
      obtain ⟨hin, hle⟩ := htake gap hgap
      obtain rfl | hrest := mem_cons.mp hitem'
      · exact hle
      · obtain ⟨gap', hgap', rfl⟩ | ⟨e', he', rfl⟩ := (mem_interleave _ _).mp hrest
        · rw [← @takeWhile_append_dropWhile _ (fun gap : Gap => decide (gap.after < e.id)) gaps] at hapart
          exact (pairwise_append.mp hapart).2.2 gap hgap gap' hgap'
        · exact hle.trans (hfst e' he').le

theorem build_inOrder {pre : List (TranscriptEntry V)} {rng : KnownRange} {es : List (TranscriptEntry V)} (h : Knows pre rng es) :
    (build rng.low rng.gaps es).Pairwise TranscriptItem.Before := by
  have hitems := interleave_inOrder h.sorted (fun gap hgap => (h.wide gap hgap).1) h.apart h.outside
  unfold build
  split
  · exact hitems
  · refine pairwise_cons.mpr ⟨fun item hitem => ?_, hitems⟩
    obtain ⟨gap, -, rfl⟩ | ⟨e, -, rfl⟩ := (mem_interleave _ _).mp hitem
    · trivial
    · trivial

variable {fresh : List (TranscriptEntry V)}

/-- Items grow at their end where no gap lies past the new entries. -/
theorem build_append {low : WithBot ℤ} {gaps : List Gap} (es : List (TranscriptEntry V))
    (hgaps : ∀ gap ∈ gaps, ∀ e ∈ fresh, gap.after < e.id) : build low gaps (es ++ fresh) = build low gaps es ++ fresh.map .entry := by
  have hnone (fresh : List (TranscriptEntry V)) : interleave [] fresh = fresh.map .entry := by
    induction fresh with
    | nil => rfl
    | cons e fresh ih =>
      unfold interleave
      rw [takeWhile_nil, dropWhile_nil, ih]
      rfl
  have hitems : interleave gaps (es ++ fresh) = interleave gaps es ++ fresh.map .entry := by
    induction es generalizing gaps with
    | nil =>
      cases fresh with
      | nil => rw [append_nil, map_nil, append_nil]
      | cons e fresh =>
        have hall : ∀ gap ∈ gaps, decide (gap.after < e.id) = true := fun gap hgap => decide_eq_true (hgaps gap hgap e (.head _))
        rw [nil_append]
        unfold interleave
        rw [takeWhile_eq_self_iff.mpr hall, dropWhile_eq_nil_iff.mpr hall, hnone]
        rfl
    | cons e es ih =>
      rw [cons_append]
      unfold interleave
      rw [ih fun gap hgap => hgaps gap ((dropWhile_sublist _).subset hgap), append_assoc, cons_append]
  unfold build
  split
  · exact hitems
  · rw [hitems, cons_append]

/-! ## Entries held -/

variable {e : TranscriptEntry V}

theorem mem_mergeById {left right : List (TranscriptEntry V)} : e ∈ mergeById left right ↔ e ∈ left ∨ e ∈ right := by
  unfold mergeById
  have hperm := @merge_perm_append _ (fun l r : TranscriptEntry V => decide (l.id < r.id)) left right
  rw [hperm.mem_iff, mem_append]

theorem mergeById_inOrder {left right : List (TranscriptEntry V)} (hleft : InOrder left) (hright : InOrder right)
    (hdist : ∀ l ∈ left, ∀ r ∈ right, l.id ≠ r.id) : InOrder (mergeById left right) := by
  induction left generalizing right with
  | nil =>
    unfold mergeById
    rw [nil_merge]
    exact hright
  | cons l left ihleft =>
    induction right with
    | nil =>
      unfold mergeById
      rw [merge_right]
      exact hleft
    | cons r right ihright =>
      obtain ⟨hl, hleft'⟩ := pairwise_cons.mp hleft
      obtain ⟨hr, hright'⟩ := pairwise_cons.mp hright
      have hne := hdist l (.head _) r (.head _)
      by_cases hlt : l.id < r.id
      · have hstep : mergeById (l :: left) (r :: right) = l :: mergeById left (r :: right) := by
          unfold mergeById
          rw [cons_merge_cons, if_pos (decide_eq_true hlt)]
        rw [hstep]
        refine pairwise_cons.mpr ⟨fun e he => ?_, ihleft hleft' hright fun e he => hdist e (.tail _ he)⟩
        obtain hin | hin := mem_mergeById.1 he
        · exact hl e hin
        · obtain rfl | hin := mem_cons.mp hin
          · exact hlt
          · exact hlt.trans (hr e hin)
      · have hstep : mergeById (l :: left) (r :: right) = r :: mergeById (l :: left) right := by
          unfold mergeById
          rw [cons_merge_cons, if_neg (by simpa using hlt)]
        rw [hstep]
        refine pairwise_cons.mpr ⟨fun e he => ?_, ihright hright' fun e he e' he' => hdist e he e' (.tail _ he')⟩
        have hrl : r.id < l.id := by omega
        obtain hin | hin := mem_mergeById.1 he
        · obtain rfl | hin := mem_cons.mp hin
          · exact hrl
          · exact hrl.trans (hl e hin)
        · exact hr e hin

/-! ## How a range meets the known one -/

/-- The four ways a range meets the known one, what is known then, and whether the items are built anew. -/
inductive Meets (range : KnownRange) (held entries : List (TranscriptEntry V)) (lo hi : WithBot ℤ) (first : Option ℤ) : KnownRange → Bool → Prop where
  | blank (hblank : range.started = false ∨ held = [] ∧ range.gaps = [] ∧ range.tail ≤ lo) :
      Meets range held entries lo hi first ⟨range.gaps, true, lo, max range.tail hi⟩ (!range.started || decide (lo ≠ range.low))
  | past (hstarted : range.started = true) (hsome : ¬(held = [] ∧ range.gaps = [] ∧ range.tail ≤ lo)) (htail : range.tail < lo) :
      Meets range held entries lo hi first
        { range with gaps := range.gaps ++ [⟨range.tail.unbotD 0, first.getD (lo.unbotD 0 + 1)⟩], tail := hi } true
  | below (hstarted : range.started = true) (hhi : hi ≠ ⊥) (hbelow : hi < range.low) :
      Meets range held entries lo hi first
        { range with gaps := ⟨hi.unbotD 0, (firstPast held hi).getD (range.low.unbotD 0 + 1)⟩ :: range.gaps, low := lo } true
  | within (hstarted : range.started = true) (hsome : ¬(held = [] ∧ range.gaps = [] ∧ range.tail ≤ lo)) (hlo : lo ≤ range.tail) (hhi : hi = ⊥ ∨ range.low ≤ hi) :
      Meets range held entries lo hi first
        { range with gaps := (subtract range.gaps entries lo hi).1, low := min range.low lo, tail := max range.tail hi }
        ((subtract range.gaps entries lo hi).2 || decide (lo < range.low))

theorem meets_extend (rng : KnownRange) (held es : List (TranscriptEntry V)) (lo hi : WithBot ℤ) (fst : Option ℤ) :
    Meets rng held es lo hi fst (rng.extend held es lo hi fst).1 (rng.extend held es lo hi fst).2 := by
  unfold KnownRange.extend
  split
  · rename_i hblank
    rw [Bool.or_eq_true, Bool.and_eq_true, Bool.and_eq_true, List.isEmpty_iff, List.isEmpty_iff, decide_eq_true_eq, Bool.not_eq_true', and_assoc]
      at hblank
    exact .blank hblank
  · rename_i hblank
    rw [Bool.or_eq_true, not_or, Bool.not_eq_true', Bool.not_eq_false, Bool.and_eq_true, Bool.and_eq_true, List.isEmpty_iff, List.isEmpty_iff,
      decide_eq_true_eq, and_assoc] at hblank
    split
    · exact .past hblank.1 hblank.2 ‹_›
    · rename_i htail
      split
      · rename_i hbel
        exact .below hblank.1 hbel.1 hbel.2
      · rename_i hbel
        refine .within hblank.1 hblank.2 (not_lt.mp htail) ?_
        by_cases hhi : hi = ⊥
        · exact .inl hhi
        · exact .inr (not_lt.mp fun hlt => hbel ⟨hhi, hlt⟩)

namespace Transcript

variable {t : Transcript V} {added : List (TranscriptEntry V)}

theorem mem_joined : e ∈ t.joined fresh ↔ e ∈ t.entries ∨ e ∈ fresh := by
  unfold joined
  split
  · exact mem_append
  · exact mem_mergeById

theorem joined_inOrder (hents : InOrder t.entries) (hfresh : InOrder fresh)
    (hdist : ∀ e ∈ t.entries, ∀ e' ∈ fresh, e.id ≠ e'.id) : InOrder (t.joined fresh) := by
  unfold joined
  split
  · rename_i happends
    refine pairwise_append.mpr ⟨hents, hfresh, fun e he e' he' => ?_⟩
    unfold appends at happends
    cases hlast : t.entries.getLast? with
    | none =>
      rw [getLast?_eq_none_iff.mp hlast] at he
      cases he
    | some last =>
      cases fresh with
      | nil => cases he'
      | cons fst fresh =>
        rw [hlast] at happends
        have hlt : last.id < fst.id := of_decide_eq_true happends
        have hle : e.id ≤ last.id := by
          have htop := le_lastId hents he
          unfold lastId at htop
          rw [hlast] at htop
          exact WithBot.coe_le_coe.mp htop
        obtain rfl | hrest := mem_cons.mp he'
        · omega
        · have hnext := rel_of_pairwise_cons hfresh hrest
          omega
  · exact mergeById_inOrder hents hfresh hdist

theorem length_joined (t : Transcript V) (fresh : List (TranscriptEntry V)) : (t.joined fresh).length = t.entries.length + fresh.length := by
  unfold joined
  split
  · exact length_append
  · have hperm := @merge_perm_append _ (fun l r : TranscriptEntry V => decide (l.id < r.id)) t.entries fresh
    exact hperm.length_eq.trans length_append

/-- Nothing a client shows has changed, and the items are the same array. -/
structure Unchanged (t t' : Transcript V) : Prop where
  entries : t'.entries = t.entries
  gaps : t'.gaps = t.gaps
  low : t'.low = t.low
  items : t'.items = t.items
  array : t'.array = t.array

/-- A range without a new entry that moves no gap and not the lower bound. -/
theorem unchanged_cover {lo hi : WithBot ℤ} (hnone : t.fresh added = []) (hsame : (t.extended lo hi added).2 = false)
    (hgaps : (t.extended lo hi added).1.gaps = t.gaps) (hlow : (t.extended lo hi added).1.low = t.low) : Unchanged t (t.cover lo hi added) := by
  have happends : t.appends [] = true := by
    unfold appends
    cases t.entries.getLast? with
    | none => rfl
    | some => rfl
  have hitems : (t.cover lo hi added).items = t.items ∧ (t.cover lo hi added).array = t.array := by
    unfold cover
    dsimp only
    rw [hnone, hsame, happends]
    exact ⟨rfl, rfl⟩
  refine ⟨?_, hgaps, hlow, hitems.1, hitems.2⟩
  show t.joined (t.fresh added) = t.entries
  unfold joined
  rw [hnone, happends, if_pos rfl, append_nil]

/-! ## One covered range -/

/-- What a client that has seen `pre` knows, and the items it renders. -/
structure Sound (pre : List (TranscriptEntry V)) (t : Transcript V) : Prop extends Knows pre t.toKnownRange t.entries where
  ids_iff : ∀ x, x ∈ t.ids ↔ ∃ e ∈ t.entries, e.id = x
  items_eq : t.items = build t.low t.gaps t.entries
  unstarted : t.started = false → t.entries = [] ∧ t.gaps = [] ∧ t.tail = ⊥

theorem sound_empty : Sound [] (empty : Transcript V) := by
  refine ⟨⟨Pairwise.nil, ?_, rfl, le_refl _, ?_, Pairwise.nil, ?_, ?_⟩, ?_, rfl, fun _ => ⟨rfl, rfl, rfl⟩⟩
  · exact nofun
  · exact nofun
  · exact nofun
  · exact nofun
  · exact fun x => ⟨nofun, fun ⟨e, he, _⟩ => absurd he not_mem_nil⟩

theorem mem_fresh : e ∈ t.fresh added ↔ e ∈ added ∧ e.id ∉ t.ids := by
  unfold fresh
  rw [mem_filter, decide_eq_true_eq]

section
variable {pre pre' : List (TranscriptEntry V)} {lo hi : WithBot ℤ} (h : Sound pre t) (hcovers : Covers pre pre' lo hi added)
include h hcovers

theorem Sound.mem_joined_fresh (e : TranscriptEntry V) : e ∈ t.joined (t.fresh added) ↔ e ∈ t.entries ∨ e ∈ added := by
  rw [mem_joined, mem_fresh]
  constructor
  · rintro (hold | ⟨hnew, -⟩)
    · exact .inl hold
    · exact .inr hnew
  · rintro (hold | hnew)
    · exact .inl hold
    · by_cases hid : e.id ∈ t.ids
      · -- An ID is held with the record it has in the conversation.
        obtain ⟨e', he', heq⟩ := (h.ids_iff e.id).mp hid
        obtain rfl := eq_of_id hcovers.ordered (hcovers.grown.subset (h.held e' he').1) (hcovers.mem_added.mp hnew).1 heq
        exact .inl he'
      · exact .inr ⟨hnew, hid⟩

theorem Sound.joined_fresh_inOrder : InOrder (t.joined (t.fresh added)) := by
  refine joined_inOrder h.sorted ((hcovers.added_eq ▸ hcovers.ordered.filter _).filter _) fun e he e' he' heq => ?_
  exact (mem_fresh.1 he').2 ((h.ids_iff _).mpr ⟨e, he, heq⟩)

omit hcovers in
/-- The items, where they are built anew and where they grow at their end. -/
theorem Sound.cover_items
    (hkept : (t.extended lo hi added).2 = false → (t.extended lo hi added).1.low = t.low ∧ (t.extended lo hi added).1.gaps = t.gaps ∧
      ∀ gap ∈ t.gaps, ∀ e ∈ t.fresh added, gap.after < e.id) :
    (t.cover lo hi added).items = build (t.extended lo hi added).1.low (t.extended lo hi added).1.gaps (t.joined (t.fresh added)) := by
  unfold cover
  generalize t.extended lo hi added = extended at *
  dsimp only at *
  split
  · rfl
  · rename_i hsame
    simp only [Bool.or_eq_true, Bool.not_eq_true', not_or, Bool.not_eq_true, Bool.not_eq_false] at hsame
    obtain ⟨hlow, hgaps, hpast⟩ := hkept hsame.1
    have hjoined : t.joined (t.fresh added) = t.entries ++ t.fresh added := if_pos hsame.2
    rw [hlow, hgaps, hjoined]
    split
    · rename_i hemp
      rw [isEmpty_iff.mp hemp, append_nil]
      exact h.items_eq
    · rw [build_append _ hpast, ← h.items_eq]

theorem Sound.extend
    (hfront : hi < t.low → t.entries ≠ [] → ∀ gap ∈ t.gaps, ∃ e ∈ t.entries, e.id ≤ gap.after)
    (hside : ∀ gap ∈ t.gaps, gap.overlaps lo hi = true → (gap.after : WithBot ℤ) < lo → ¬hi + 1 < gap.upTo) {rng : KnownRange} {rebuild : Bool}
    (hmeets : Meets t.toKnownRange t.entries (t.joined (t.fresh added)) lo hi (added.head?.map (·.id)) rng rebuild) :
    Knows pre' rng (t.joined (t.fresh added)) ∧ rng.started = true ∧
      (rebuild = false → rng.low = t.low ∧ rng.gaps = t.gaps ∧ ∀ gap ∈ t.gaps, ∀ e ∈ t.fresh added, gap.after < e.id) := by
  have hmem := h.mem_joined_fresh hcovers
  have hsrt := h.joined_fresh_inOrder hcovers
  cases hmeets with
  | blank hblank =>
    obtain ⟨hents, hgaps, htail⟩ : t.entries = [] ∧ t.gaps = [] ∧ t.tail ≤ lo := by
      obtain hfst | hnoth := hblank
      · obtain ⟨hents, hgaps, htail⟩ := h.unstarted hfst
        exact ⟨hents, hgaps, htail ▸ bot_le⟩
      · exact hnoth
    refine ⟨h.toKnows.blank hcovers hsrt hmem hents hgaps htail, rfl, fun hsame => ⟨?_, rfl, fun gap hgap => ?_⟩⟩
    · rw [Bool.or_eq_false_iff, decide_eq_false_iff_not, not_not] at hsame
      exact hsame.2
    · rw [hgaps] at hgap
      cases hgap
  | past hstarted hsome htail =>
    refine ⟨h.toKnows.past hcovers hsrt hmem htail ?_, hstarted, fun hsame => by cases hsame⟩
    by_contra hnone
    rw [not_or, not_not, not_not] at hnone
    exact hsome ⟨hnone.1, hnone.2, htail.le⟩
  | below hstarted hhi hbel => exact ⟨h.toKnows.below hcovers hsrt hmem hhi hbel (hfront hbel), hstarted, fun hsame => by cases hsame⟩
  | within hstarted _ hlo hhi =>
    refine ⟨h.toKnows.within hcovers hsrt hmem hlo hhi hside, hstarted, fun hsame => ?_⟩
    rw [Bool.or_eq_false_iff, decide_eq_false_iff_not, not_lt] at hsame
    obtain ⟨heq, hnone⟩ | ⟨heq, -, -⟩ := subtract_cases t.gaps (t.joined (t.fresh added)) lo hi
    · refine ⟨min_eq_left hsame.2, congrArg Prod.fst heq, fun gap hgap e he => not_le.mp fun hle => ?_⟩
      -- A new entry before a gap was missed by a gap, which the range would have changed.
      obtain ⟨hadd, hnew⟩ := mem_fresh.1 he
      obtain ⟨hin, hlo, hhi⟩ := hcovers.mem_added.mp hadd
      have htop : (e.id : WithBot ℤ) ≤ lastId pre := by
        have hend := (h.wide gap hgap).2.2
        rw [h.tail_eq] at hend
        refine le_trans (WithBot.coe_le_coe.mpr ?_) hend
        have hwide := (h.wide gap hgap).1
        omega
      obtain hheld | ⟨gap', hgap', haft, hupTo⟩ :=
        h.complete e (mem_of_le_lastId hcovers.ordered hcovers.grown hin htop) (lt_of_le_of_lt hsame.2 hlo)
      · exact hnew ((h.ids_iff _).mpr ⟨e, hheld, rfl⟩)
      · have hover : gap'.overlaps lo hi = true := overlaps_iff.mpr
          ⟨lt_of_lt_of_le (WithBot.coe_lt_coe.mpr haft) hhi, lt_of_lt_of_le hlo (WithBot.coe_le_coe.mpr (by omega))⟩
        exact absurd hover (any_eq_false.mp (hnone (lt_of_lt_of_le hlo hhi)) gap' hgap')
    · rw [heq] at hsame
      cases hsame.1

/-- **A covered range** keeps a transcript sound. -/
theorem Sound.cover
    (hfront : hi < t.low → t.entries ≠ [] → ∀ gap ∈ t.gaps, ∃ e ∈ t.entries, e.id ≤ gap.after)
    (hside : ∀ gap ∈ t.gaps, gap.overlaps lo hi = true → (gap.after : WithBot ℤ) < lo → ¬hi + 1 < gap.upTo) : Sound pre' (t.cover lo hi added) := by
  obtain ⟨hknows, hstarted, hkept⟩ := h.extend hcovers hfront hside (meets_extend ..)
  refine ⟨hknows, fun x => ?_, h.cover_items hkept, fun hnot => ?_⟩
  · show x ∈ t.ids ++ (t.fresh added).map (·.id) ↔ ∃ e ∈ t.joined (t.fresh added), e.id = x
    rw [mem_append, h.ids_iff, mem_map]
    simp only [mem_joined, or_and_right, exists_or]
  · exact nomatch hstarted.symm.trans hnot

end

end Transcript

end PiBridge.Durable
