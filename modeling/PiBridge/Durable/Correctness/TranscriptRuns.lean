import PiBridge.Durable.Correctness.TranscriptFlights

/-!
# `Durable.Correctness.TranscriptRuns` — a client's transcript over whole runs

`TranscriptSystem.Sound` keeps the transcript and its loads in flight together; one lemma for each kind of step maintains
it (`Sound.step`). A page brings what was missing: each one that changes what is known lowers `missing`, and a page of a
load that nothing overtook does (`earlier_progress`, `fill_progress`).
-/

namespace PiBridge.Durable

open Lib List

variable {V : Type}

namespace TranscriptSystem

variable {sys sys' : TranscriptSystem V} {lim : ℕ}

/-- What the client has seen of its conversation. -/
def known (sys : TranscriptSystem V) : List (TranscriptEntry V) := sys.conversation.take sys.seen

/-- The transcript is sound, and so are the bounds of the loads in flight. -/
structure Sound (sys : TranscriptSystem V) : Prop where
  ordered : InOrder sys.conversation
  seen_le : sys.seen ≤ sys.conversation.length
  transcript : sys.transcript.Sound sys.known
  earlier : ∀ low since, sys.earlier = some ⟨low, since, false⟩ →
    EarlierOpen sys.transcript.toKnownRange sys.transcript.entries sys.conversation low since
  filling : ∀ gap since, ⟨gap, since, false⟩ ∈ sys.filling →
    FillOpen sys.transcript.toKnownRange sys.transcript.entries sys.conversation gap since
  front : ∀ low since gap since', sys.earlier = some ⟨low, since, false⟩ → ⟨gap, since', false⟩ ∈ sys.filling →
    (low : WithBot ℤ) < sys.transcript.low → ∃ e ∈ sys.transcript.entries, e.id ≤ gap.after

theorem sound_opened {conv : List (TranscriptEntry V)} (h : InOrder conv) : (opened conv).Sound := by
  refine ⟨h, Nat.zero_le _, Transcript.sound_empty, ?_, ?_, ?_⟩
  · intro low since hload
    cases hload
  · intro gap since hload
    cases hload
  · intro low since gap since' hload
    cases hload

theorem Sound.known_ordered (h : sys.Sound) : InOrder sys.known := h.ordered.sublist (take_sublist _ _)

theorem meets_cover (t : Transcript V) (lo hi : WithBot ℤ) (add : List (TranscriptEntry V)) :
    Meets t.toKnownRange t.entries (t.joined (t.fresh add)) lo hi (add.head?.map (·.id)) (t.cover lo hi add).toKnownRange (t.extended lo hi add).2 :=
  meets_extend ..

/-! ## Growth and calls -/

theorem prefix_take_append (xs ys : List (TranscriptEntry V)) (n : ℕ) : xs.take n <+: (xs ++ ys).take n := by
  rw [take_append]
  exact prefix_append _ _

theorem Sound.grows (h : sys.Sound) {es : List (TranscriptEntry V)} (hsrt : InOrder (sys.conversation ++ es)) :
    Sound { sys with conversation := sys.conversation ++ es } := by
  have hkn : (sys.conversation ++ es).take sys.seen = sys.known := take_append_of_le_length h.seen_le
  have hgrown (since : ℕ) : lastId (sys.conversation.take since) ≤ lastId ((sys.conversation ++ es).take since) :=
    lastId_mono (hsrt.sublist (take_sublist _ _)) (prefix_take_append _ _ _)
  refine ⟨hsrt, ?_, ?_, fun low since hload => ?_, fun gap since hload => ?_, h.front⟩
  · rw [length_append]
    exact h.seen_le.trans (Nat.le_add_right _ _)
  · show sys.transcript.Sound ((sys.conversation ++ es).take sys.seen)
    rw [hkn]
    exact h.transcript
  · have ho := h.earlier low since hload
    exact { ho with known := ho.known.trans (hgrown since) }
  · have ho := h.filling gap since hload
    exact { ho with known := ho.known.trans (hgrown since) }

/-- All of the conversation the client has seen is there when it calls. -/
theorem Sound.tail_le (h : sys.Sound) : sys.transcript.tail ≤ lastId (sys.conversation.take sys.conversation.length) := by
  rw [h.transcript.tail_eq, take_length]
  exact lastId_mono h.ordered ( take_prefix _ _)

theorem Sound.callEarlier (h : sys.Sound) : sys.callEarlier.Sound := by
  unfold TranscriptSystem.callEarlier
  split
  · exact h
  · split
    · rename_i low hlow hnone
      have hbnd : sys.transcript.low = (low : WithBot ℤ) := hlow
      refine ⟨h.ordered, h.seen_le, h.transcript, fun low' since hload => ?_, h.filling, fun low' since gap since' hload hfill hlt => ?_⟩
      · cases hload
        refine ⟨?_, hbnd ▸ h.transcript.low_le, fun gap hgap => ?_, fun hlt => absurd hlt (hbnd ▸ lt_irrefl _)⟩
        · exact hbnd ▸ h.transcript.low_le.trans h.tail_le
        · exact WithBot.coe_le_coe.mp (hbnd ▸ (h.transcript.wide gap hgap).2.1)
      · cases hload
        exact absurd hlt (hbnd ▸ lt_irrefl _)
    · exact h

variable {gap : Gap} {xs : List (TranscriptEntry V)} {since : ℕ}

theorem current_mem {t : Transcript V} {cur : Gap} (hcur : t.current gap = some cur) : cur ∈ t.gaps := by
  obtain hexact | ⟨-, hoverlaps⟩ := Option.or_eq_some_iff.mp hcur
  · exact mem_of_find?_eq_some hexact
  · exact mem_of_find?_eq_some hoverlaps

/-- The bounds of a gap there is now. -/
theorem Sound.fillOpen_of_mem (h : sys.Sound) (hgap : gap ∈ sys.transcript.gaps) :
    FillOpen sys.transcript.toKnownRange sys.transcript.entries sys.conversation gap sys.conversation.length := by
  obtain ⟨hwide, hlow, htop⟩ := h.transcript.wide gap hgap
  refine ⟨hwide, htop.trans h.tail_le, htop, hlow, fun g hg => ?_, fun _ => hgap⟩
  have hapart := Pairwise.forall_of_forall_of_flip (R := fun g g' : Gap => g ≠ g' → g.upTo ≤ g'.after + 1 ∨ g'.upTo ≤ g.after + 1)
    (fun _ _ hne => absurd rfl hne) (h.transcript.apart.imp fun hle _ => .inl hle) (h.transcript.apart.imp fun hle _ => .inr hle) hg hgap
  by_cases heq : g = gap
  · exact .inr (.inr (heq ▸ ⟨le_refl _, le_refl _⟩))
  · obtain hleft | hright := hapart heq
    · exact .inl hleft
    · exact .inr (.inl hright)

theorem Sound.callFill (h : sys.Sound) (gap : Gap) : (sys.callFill gap).Sound := by
  unfold TranscriptSystem.callFill
  split
  · exact h
  · rename_i cur hcur
    split
    · exact h
    · refine ⟨h.ordered, h.seen_le, h.transcript, h.earlier, fun gap' since hload => ?_, fun low since gap' since' hload hfill hlt => ?_⟩
      · obtain hold | hnew := mem_append.mp hload
        · exact h.filling gap' since hold
        · cases mem_singleton.mp hnew
          exact h.fillOpen_of_mem (current_mem hcur)
      · obtain hold | hnew := mem_append.mp hfill
        · exact h.front low since gap' since' hload hold hlt
        · cases mem_singleton.mp hnew
          exact (h.earlier low since hload).front hlt _ (current_mem hcur)

/-! ## Views -/

theorem prefix_of_le {m n : ℕ} (hle : m ≤ n) : xs.take m <+: xs.take n := by
  have hsame := @take_take _ m n xs
  rw [min_eq_left hle] at hsame
  exact hsame ▸ take_prefix _ _

theorem Sound.merges (h : sys.Sound) {kn : ℕ} (hcur : sys.seen ≤ kn) (hkn : kn ≤ sys.conversation.length) (st : ℕ) :
    Sound { sys with transcript := sys.transcript.merge (windowOf (sys.conversation.take kn) st), seen := kn } := by
  have hord : InOrder (sys.conversation.take kn) := h.ordered.sublist (take_sublist _ _)
  obtain ⟨lo, hi, hmerge, -, hhi, hcov⟩ := covers_windowOf sys.transcript hord (prefix_of_le hcur : sys.known <+: _) st
  rw [hmerge]
  have hmem := h.transcript.mem_joined_fresh hcov
  have hsrt := h.transcript.joined_fresh_inOrder hcov
  have hmeets := meets_cover sys.transcript lo hi (windowOf (sys.conversation.take kn) st).entries
  have hlow := low_le_hi h.transcript.toKnows hcov hhi
  have hfill (gap : Gap) (since : ℕ) (hload : ⟨gap, since, false⟩ ∈ sys.filling) :=
    (h.filling gap since hload).view h.transcript.toKnows h.transcript.unstarted hcov hhi hsrt hmem hmeets
  refine ⟨h.ordered, hkn, ?_, fun low since hload => ?_, fun gap since hload => (hfill gap since hload).1,
    fun low since gap since' hload hopen hlt => ?_⟩
  · exact h.transcript.cover hcov (fun hbel => absurd hlow (not_le.mpr hbel)) (reaches_side h.transcript.toKnows hcov hhi)
  · exact (h.earlier low since hload).view h.transcript.toKnows h.transcript.unstarted hcov hhi hsrt (fun e he => (hmem e).mpr (.inl he)) hmeets
  · obtain ⟨e, he, hle⟩ := h.front low since gap since' hload hopen (lt_of_lt_of_le hlt (hfill gap since' hopen).2)
    exact ⟨e, (hmem e).mpr (.inl he), hle⟩

/-! ## Progress -/

/-- How much the client still misses: entries count twice, so that a gap that opens over one that came is paid for. -/
def missing (sys : TranscriptSystem V) : ℕ :=
  2 * (sys.known.length - sys.transcript.entries.length) + sys.transcript.gaps.length + if sys.transcript.low = ⊥ then 0 else 2

theorem nodup_of_inOrder (h : InOrder xs) : xs.Nodup := by
  have hne {a b : TranscriptEntry V} (hlt : a.id < b.id) : a ≠ b := by
    rintro rfl
    exact lt_irrefl _ hlt
  exact h.imp hne

theorem length_le_of_subset {ys : List (TranscriptEntry V)} (h : InOrder xs) (hsub : ∀ e ∈ xs, e ∈ ys) : xs.length ≤ ys.length :=
  (subperm_of_subset (nodup_of_inOrder h) hsub).length_le

/-- What is missing after a range, where entries came, or where none did. -/
theorem missing_lt {t' : Transcript V} {earl : Option (EntryLoad ℤ)} {fil : List (EntryLoad Gap)} (h : t'.Sound sys.known)
    (hless : 2 * sys.transcript.entries.length + t'.gaps.length + (if t'.low = ⊥ then 0 else 2) <
      2 * t'.entries.length + sys.transcript.gaps.length + if sys.transcript.low = ⊥ then 0 else 2) (hgrown : sys.transcript.entries.length ≤ t'.entries.length) :
    missing { sys with transcript := t', earlier := earl, filling := fil } < missing sys := by
  have hbnd := length_le_of_subset h.sorted fun e he => (h.held e he).1
  show 2 * (sys.known.length - t'.entries.length) + t'.gaps.length + (if t'.low = ⊥ then 0 else 2) < _
  unfold missing
  omega

variable {page : EntryPage V}

/-- The page of what is earlier, as a range of what the client has seen. -/
theorem Sound.earlier_answers (h : sys.Sound) {low : ℤ} {kn : ℕ} (hload : sys.earlier = some ⟨low, since, false⟩)
    (hsinc : since ≤ kn) (hans : page.Answers ((earlierQuery low).matching (sys.conversation.take kn)) lim) :
    page.Answers (sys.known.filter (between ⊥ low)).reverse lim := by
  have ho := h.earlier low since hload
  have hkn : (low : WithBot ℤ) ≤ lastId (sys.conversation.take kn) :=
    ho.known.trans (lastId_mono (h.ordered.sublist (take_sublist _ _)) (prefix_of_le hsinc))
  rw [earlierQuery_matching, ← filter_between_prefix h.ordered ( take_prefix _ _) hkn,
    filter_between_prefix h.ordered ( take_prefix _ _) (h.transcript.tail_eq ▸ ho.tail : _ ≤ lastId sys.known)] at hans
  exact hans

theorem Sound.fill_answers (h : sys.Sound) {kn : ℕ} (hload : ⟨gap, since, false⟩ ∈ sys.filling)
    (hsinc : since ≤ kn) (hans : page.Answers ((fillQuery gap).matching (sys.conversation.take kn)) lim) :
    page.Answers (sys.known.filter (between gap.after (gap.upTo - 1 : ℤ))) lim := by
  have ho := h.filling gap since hload
  have hkn : ((gap.upTo - 1 : ℤ) : WithBot ℤ) ≤ lastId (sys.conversation.take kn) :=
    ho.known.trans (lastId_mono (h.ordered.sublist (take_sublist _ _)) (prefix_of_le hsinc))
  rw [fillQuery_matching, ← filter_between_prefix h.ordered ( take_prefix _ _) hkn,
    filter_between_prefix h.ordered ( take_prefix _ _) (h.transcript.tail_eq ▸ ho.tail : _ ≤ lastId sys.known)] at hans
  exact hans

/-! ## Pages of what is earlier -/

theorem Sound.earlierArrives (h : sys.Sound) {low : ℤ} {since kn : ℕ} (hload : sys.earlier = some ⟨low, since, false⟩)
    (hsinc : since ≤ kn) (hans : page.Answers ((earlierQuery low).matching (sys.conversation.take kn)) lim) :
    Sound { sys with transcript := sys.transcript.earlierPage low page, earlier := some ⟨low, since, true⟩ } ∧
      (sys.transcript.Unchanged (sys.transcript.earlierPage low page) ∧ sys.transcript.low ≠ low ∨
        missing { sys with transcript := sys.transcript.earlierPage low page, earlier := some ⟨low, since, true⟩ } < missing sys) ∧
      (∀ e, e ∈ sys.transcript.entries ∨ e ∈ page.items → e ∈ (sys.transcript.earlierPage low page).entries) := by
  have ho := h.earlier low since hload
  have hans := h.earlier_answers hload hsinc hans
  obtain ⟨lo, add, hpage, hcov, hlo, hpageItems⟩ := Transcript.earlierPage_covers sys.transcript h.known_ordered (h.transcript.tail_eq ▸ ho.tail) hans
  rw [hpage]
  have hmem := h.transcript.mem_joined_fresh hcov
  have hlt : lo < low := by
    obtain rfl | ⟨e, he, rfl⟩ := hlo
    · exact WithBot.bot_lt_coe _
    · exact lt_of_lt_of_le (WithBot.coe_lt_coe.mpr (by omega)) (hcov.mem_added.mp he).2.2
  have hcases := ho.page h.transcript.toKnows h.transcript.unstarted hlt (meets_cover sys.transcript lo low add)
  have hsound : (sys.transcript.cover lo low add).Sound sys.known := by
    refine h.transcript.cover hcov (fun hbel _ => ho.front hbel) fun gap hgap hover => ?_
    have haft := WithBot.coe_lt_coe.mp (overlaps_iff.mp hover).1
    have hge := ho.gaps gap hgap
    omega
  have hlen : (sys.transcript.cover lo low add).entries.length = sys.transcript.entries.length + (sys.transcript.fresh add).length :=
    Transcript.length_joined ..
  -- The oldest entry of a page that reaches below the known range is new.
  have hnew (hbel : lo < sys.transcript.low) (hbot : lo ≠ ⊥) : 0 < (sys.transcript.fresh add).length := by
    obtain rfl | ⟨e, he, rfl⟩ := hlo
    · exact absurd rfl hbot
    · refine length_pos_of_mem (Transcript.mem_fresh.mpr ⟨he, fun hid => ?_⟩)
      obtain ⟨e', he', heq⟩ := (h.transcript.ids_iff _).mp hid
      obtain ⟨w, hw, hlt⟩ := exists_of_lt hbel
      have hpast := WithBot.coe_lt_coe.mp (hw ▸ (h.transcript.held e' he').2)
      omega
  refine ⟨⟨h.ordered, h.seen_le, hsound, ?_, fun gap since' hfill => ?_, ?_⟩, ?_, fun e he => (hmem e).mpr (he.imp_right (hpageItems e))⟩
  · intro low' since' hload'
    cases hload'
  · refine (h.filling gap since' hfill).earlier_page hcov (fun e he => (hmem e).mpr (.inl he)) (h.front low since gap since' hload hfill) ?_
    obtain ⟨heq, -⟩ | ⟨u, heq, -, hlow, hu⟩ := hcases
    · exact .inl heq
    · exact .inr ⟨u, heq, hlow, hu⟩
  · intro low' since' gap since'' hload'
    cases hload'
  · obtain ⟨hrng, hrebu, hle⟩ | ⟨u, hrng, -, hlow, -⟩ := hcases
    · have hgaps := congrArg KnownRange.gaps hrng
      have hlow := congrArg KnownRange.low hrng
      dsimp only at hgaps hlow
      by_cases hbel : lo < sys.transcript.low
      · right
        rw [min_eq_right hbel.le] at hlow
        have hwas : sys.transcript.low ≠ ⊥ := fun hbot => not_lt_bot (hbot ▸ hbel)
        refine missing_lt hsound ?_ (hlen ▸ Nat.le_add_right _ _)
        rw [hgaps, hlow, if_neg hwas, hlen]
        by_cases hbot : lo = ⊥
        · rw [if_pos hbot]
          omega
        · rw [if_neg hbot]
          have hpos := hnew hbel hbot
          omega
      · left
        rw [min_eq_left (not_lt.mp hbel)] at hlow
        have hnone : sys.transcript.fresh add = [] := eq_nil_iff_forall_not_mem.mpr fun e he => by
          obtain ⟨hadd, hnot⟩ := Transcript.mem_fresh.mp he
          obtain ⟨hin, hlo', hhi⟩ := hcov.mem_added.mp hadd
          obtain hheld | ⟨gap, hgap, haft, -⟩ := h.transcript.complete e hin (lt_of_le_of_lt (not_lt.mp hbel) hlo')
          · exact hnot ((h.transcript.ids_iff _).mpr ⟨e, hheld, rfl⟩)
          · have hge := ho.gaps gap hgap
            have htop := WithBot.coe_le_coe.mp hhi
            omega
        refine ⟨Transcript.unchanged_cover hnone (hrebu.trans (decide_eq_false hbel)) hgaps hlow, fun heq => hbel (heq ▸ hlt)⟩
    · right
      have hgaps := congrArg KnownRange.gaps hrng
      have hlow' := congrArg KnownRange.low hrng
      have hwas : sys.transcript.low ≠ ⊥ := fun hbot => not_lt_bot (hbot ▸ hlow)
      refine missing_lt hsound ?_ (hlen ▸ Nat.le_add_right _ _)
      rw [hgaps, hlow', if_neg hwas, hlen, length_cons]
      by_cases hbot : lo = ⊥
      · rw [if_pos hbot]
        omega
      · rw [if_neg hbot]
        have hpos := hnew (hlt.trans hlow) hbot
        omega

/-! ## Pages of a gap -/

/-- Pieces are no more than the gaps they are of, and fewer where nothing is left of one. -/
theorem length_flatMap_le {gaps : List Gap} {f : Gap → List Gap} (h : ∀ gap ∈ gaps, (f gap).length ≤ 1) :
    (gaps.flatMap f).length ≤ gaps.length ∧ ∀ gap ∈ gaps, f gap = [] → (gaps.flatMap f).length < gaps.length := by
  induction gaps with
  | nil =>
    refine ⟨le_refl _, fun gap hgap => ?_⟩
    cases hgap
  | cons fst gaps ih =>
    obtain ⟨hle, hlt⟩ := ih fun gap hgap => h gap (.tail _ hgap)
    have hfst := h fst (.head _)
    rw [flatMap_cons, length_append, length_cons]
    refine ⟨by omega, fun gap hgap hnil => ?_⟩
    obtain rfl | hrest := mem_cons.mp hgap
    · rw [hnil, length_nil]
      omega
    · have hless := hlt gap hrest hnil
      omega

/-- What the page of a gap leaves of a gap it meets: nothing, or one that starts later. -/
theorem subtractGap_page {rng : KnownRange} {ents es conv : List (TranscriptEntry V)} {gap g : Gap} {since : ℕ}
    (ho : FillOpen rng ents conv gap since) (hg : g ∈ rng.gaps) {y : ℤ} (hy : y < gap.upTo)
    (hover : g.overlaps gap.after y = true) :
    subtractGap es gap.after y g = [] ∨ subtractGap es gap.after y g = [⟨y, g.upTo⟩] ∧ g.after < y ∧ y + 1 < g.upTo ∧ g.upTo ≤ gap.upTo := by
  obtain ⟨haft, hupTo⟩ := overlaps_iff.mp hover
  rw [WithBot.coe_lt_coe] at haft hupTo
  have hin : gap.after ≤ g.after ∧ g.upTo ≤ gap.upTo := by
    obtain hleft | hright | hin := ho.meets g hg
    · omega
    · omega
    · exact hin
  have hnot : ¬(g.after : WithBot ℤ) < gap.after := not_lt.mpr (WithBot.coe_le_coe.mpr hin.1)
  unfold subtractGap
  rw [if_pos hover, if_neg hnot, nil_append]
  by_cases hrest : (y : WithBot ℤ) + 1 < g.upTo
  · rw [if_pos hrest]
    have hwide := WithBot.coe_lt_coe.mp (add_one_lt_iff.mp hrest)
    exact .inr ⟨rfl, haft, by omega, hin.2⟩
  · rw [if_neg hrest]
    exact .inl rfl

theorem answerFill_open {gap' : Gap} (hopen : ⟨gap', since, false⟩ ∈ (sys.answerFill gap).filling) :
    ⟨gap', since, false⟩ ∈ sys.filling ∧ gap ≠ gap' := by
  obtain ⟨load, hin, heq⟩ := mem_map.mp hopen
  split at heq
  · cases heq
  · rename_i hne
    rw [heq] at hin hne
    exact ⟨hin, fun hsame => hne hsame.symm⟩

theorem Sound.fillArrives (h : sys.Sound) {gap : Gap} {since kn : ℕ} (hload : ⟨gap, since, false⟩ ∈ sys.filling)
    (hsinc : since ≤ kn) (hans : page.Answers ((fillQuery gap).matching (sys.conversation.take kn)) lim) :
    Sound { sys.answerFill gap with transcript := sys.transcript.fillPage gap page } ∧
      (sys.transcript.Unchanged (sys.transcript.fillPage gap page) ∧ gap ∉ sys.transcript.gaps ∨
        missing { sys.answerFill gap with transcript := sys.transcript.fillPage gap page } < missing sys) ∧
      (∀ e, e ∈ sys.transcript.entries ∨ e ∈ page.items → e ∈ (sys.transcript.fillPage gap page).entries) := by
  have ho := h.filling gap since hload
  have hans := h.fill_answers hload hsinc hans
  obtain ⟨y, add, hpage, hcov, haft, hupTo, hy, hpageItems⟩ :=
    Transcript.fillPage_covers sys.transcript h.known_ordered ho.wide (h.transcript.tail_eq ▸ ho.tail) hans
  rw [hpage]
  have hmem := h.transcript.mem_joined_fresh hcov
  have hsrt := h.transcript.joined_fresh_inOrder hcov
  obtain ⟨hrng, hrebu, hnarr⟩ := ho.page h.transcript.toKnows h.transcript.unstarted hcov hsrt (meets_cover sys.transcript gap.after y add)
  have hgaps := congrArg KnownRange.gaps hrng
  have hlow := congrArg KnownRange.low hrng
  have hsound : (sys.transcript.cover gap.after y add).Sound sys.known :=
    h.transcript.cover hcov (fun hbel => absurd (hbel.trans_le ho.low) (not_lt.mpr hcov.lo_le)) ho.page_side
  have hlen : (sys.transcript.cover gap.after y add).entries.length = sys.transcript.entries.length + (sys.transcript.fresh add).length :=
    Transcript.length_joined ..
  refine ⟨⟨h.ordered, h.seen_le, hsound, fun low since' hload' => ?_, fun gap' since' hfill => ?_, fun low since' gap' since'' hload' hfill hlt => ?_⟩, ?_,
    fun e he => (hmem e).mpr (he.imp_right (hpageItems e))⟩
  · rw [hrng]
    exact (h.earlier low since' hload').within (fun e he => (hmem e).mpr (.inl he)) hnarr (le_refl _) (le_refl _)
  · obtain ⟨hin, hne⟩ := answerFill_open hfill
    rw [hrng]
    exact (h.filling gap' since' hin).other_page h.transcript.toKnows hne ho.blank hupTo (fun e he => (hmem e).mpr (.inl he)) hnarr
  · rw [hlow] at hlt
    obtain ⟨e, he, hle⟩ := h.front low since' gap' since'' hload' (answerFill_open hfill).1 hlt
    exact ⟨e, (hmem e).mpr (.inl he), hle⟩
  · have hlt : (gap.after : WithBot ℤ) < y := WithBot.coe_lt_coe.mpr haft
    obtain ⟨heq, hnone⟩ | ⟨heq, -, hany⟩ := subtract_cases sys.transcript.gaps (sys.transcript.joined (sys.transcript.fresh add)) (gap.after : WithBot ℤ) y
    · left
      have hapart := any_eq_false.mp (hnone hlt)
      have hfresh : sys.transcript.fresh add = [] := eq_nil_iff_forall_not_mem.mpr fun e he => by
        obtain ⟨hadd, hnot⟩ := Transcript.mem_fresh.mp he
        obtain ⟨hin, hlo, hhi⟩ := hcov.mem_added.mp hadd
        obtain hheld | ⟨g, hg, haft', hupTo'⟩ := h.transcript.complete e hin (lt_of_le_of_lt ho.low hlo)
        · exact hnot ((h.transcript.ids_iff _).mpr ⟨e, hheld, rfl⟩)
        · refine hapart g hg (overlaps_iff.mpr ⟨lt_of_lt_of_le (WithBot.coe_lt_coe.mpr haft') hhi, lt_of_lt_of_le hlo ?_⟩)
          exact WithBot.coe_le_coe.mpr (by omega)
      refine ⟨Transcript.unchanged_cover hfresh (hrebu.trans (congrArg Prod.snd heq)) (hgaps.trans (congrArg Prod.fst heq)) hlow, fun hin => ?_⟩
      refine hapart gap hin (overlaps_iff.mpr ⟨hlt, WithBot.coe_lt_coe.mpr ?_⟩)
      omega
    · right
      obtain ⟨g, hg, hover⟩ := any_eq_true.mp hany
      have hpieces := @length_flatMap_le sys.transcript.gaps
        (subtractGap (sys.transcript.joined (sys.transcript.fresh add)) (gap.after : WithBot ℤ) y) fun g' hg' => by
          by_cases hover' : g'.overlaps (gap.after : WithBot ℤ) y = true
          · obtain hnil | ⟨hone, -⟩ := @subtractGap_page V _ _ (sys.transcript.joined (sys.transcript.fresh add)) _ _ _ _ ho hg' y hupTo hover'
            · rw [hnil]
              exact Nat.zero_le _
            · rw [hone]
              exact le_refl _
          · unfold subtractGap
            rw [if_neg hover']
            exact le_refl _
      refine @missing_lt V sys _ sys.earlier (sys.answerFill gap).filling hsound ?_ (hlen ▸ Nat.le_add_right _ _)
      rw [hgaps, hlow, hlen, heq]
      obtain hnil | ⟨-, haft', hwide, hle⟩ :=
        @subtractGap_page V _ _ (sys.transcript.joined (sys.transcript.fresh add)) _ _ _ _ ho hg y hupTo hover
      · have hless := hpieces.2 g hg hnil
        dsimp only
        omega
      · -- The gap starts later, at an entry it missed.
        have hpos : 0 < (sys.transcript.fresh add).length := by
          obtain hend | ⟨e, he, rfl⟩ := hy
          · omega
          · refine length_pos_of_mem (Transcript.mem_fresh.mpr ⟨he, fun hid => ?_⟩)
            obtain ⟨e', he', heq'⟩ := (h.transcript.ids_iff _).mp hid
            obtain hleft | hright := h.transcript.outside g hg e' he'
            · omega
            · omega
        dsimp only
        omega

/-! ## Every step -/

/-- Loads that settle, or fail, leave fewer open. -/
theorem Sound.fewer (h : sys.Sound) {earl : Option (EntryLoad ℤ)} {fil : List (EntryLoad Gap)}
    (hearl : ∀ low since, earl = some ⟨low, since, false⟩ → sys.earlier = some ⟨low, since, false⟩)
    (hfilling : ∀ gap since, ⟨gap, since, false⟩ ∈ fil → ⟨gap, since, false⟩ ∈ sys.filling) :
    Sound { sys with earlier := earl, filling := fil } :=
  ⟨h.ordered, h.seen_le, h.transcript, fun low since hload => h.earlier low since (hearl low since hload),
    fun gap since hload => h.filling gap since (hfilling gap since hload),
    fun low since gap since' hload hfill => h.front low since gap since' (hearl low since hload) (hfilling gap since' hfill)⟩

theorem Sound.step {lab : TranscriptLabel V} (h : sys.Sound) (hstep : Step lim sys lab sys') : sys'.Sound := by
  cases hstep with
  | grows hsrt => exact h.grows hsrt
  | merges hcur hkn hsta => exact h.merges hcur hkn _
  | callsEarlier => exact h.callEarlier
  | earlierArrives hload hsinc hans => exact (h.earlierArrives hload hsinc hans).1
  | earlierFails hload | earlierSettles hload =>
    refine h.fewer (fun low since hopen => ?_) fun gap since hopen => hopen
    cases hopen
  | callsFill => exact h.callFill _
  | fillArrives hload hsinc hans => exact (h.fillArrives hload hsinc hans).1
  | fillFails hload => exact h.fewer (fun low since hopen => hopen) fun gap since hopen => (answerFill_open hopen).1
  | fillSettles hload => exact h.fewer (fun low since hopen => hopen) fun gap since hopen => mem_of_mem_filter hopen

theorem sound_of_steps {conv : List (TranscriptEntry V)} (hord : InOrder conv) {labs : List (TranscriptLabel V)}
    (hrun : Steps (Step lim) (opened conv) labs sys) : sys.Sound :=
  hrun.invariant (fun h hstep => h.step hstep) (sound_opened hord)

end TranscriptSystem

end PiBridge.Durable
