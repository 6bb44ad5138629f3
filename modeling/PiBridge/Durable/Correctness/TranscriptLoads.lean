import PiBridge.Durable.Correctness.TranscriptItems

/-!
# `Durable.Correctness.TranscriptLoads` — views and pages are honest ranges

A window of a conversation holds every entry past the one before it (`covers_windowOf`), and a page that answers its query
holds every entry of the range it is covered as (`earlierPage_covers`, `fillPage_covers`), whichever state of the
conversation answered: the entries up to an ID never change once a later one is there (`filter_between_prefix`).
-/

namespace PiBridge.Durable

open List

variable {V : Type}

/-! ## Prefixes of a conversation -/

theorem lastId_append (xs ys : List (TranscriptEntry V)) : lastId (xs ++ ys) = (ys.getLast?.map (·.id)).or (xs.getLast?.map (·.id)) := by
  unfold lastId
  rw [getLast?_append]
  cases ys.getLast? with
  | none => rfl
  | some => rfl

variable {pre xs : List (TranscriptEntry V)}

theorem lastId_mono (h : InOrder xs) (hpre : pre <+: xs) : lastId pre ≤ lastId xs := by
  obtain rfl | ⟨init, last, rfl⟩ := eq_nil_or_concat pre
  · exact bot_le
  · rw [concat_eq_append] at *
    rw [lastId_append_singleton]
    exact le_lastId h (hpre.subset (mem_append_right _ (.head _)))

theorem eq_nil_of_lastId (h : lastId xs = ⊥) : xs = [] := by
  obtain rfl | ⟨init, last, rfl⟩ := eq_nil_or_concat xs
  · rfl
  · rw [concat_eq_append, lastId_append_singleton] at h
    cases h

/-- The entries up to an ID, once a later one is there. -/
theorem filter_between_prefix (h : InOrder xs) (hpre : pre <+: xs) {hi : WithBot ℤ} (hhi : hi ≤ lastId pre)
    (lo : WithBot ℤ) : xs.filter (between lo hi) = pre.filter (between lo hi) := by
  obtain ⟨suf, rfl⟩ := hpre
  have hnone : suf.filter (between lo hi) = [] := filter_eq_nil_iff.mpr fun e he hin =>
    absurd ((between_iff.mp hin).2.trans hhi) (not_le.mpr (lastId_lt h he))
  rw [filter_append, hnone, append_nil]

/-- A range whose bounds were known is covered by the entries it has. -/
theorem covers_filter (h : InOrder pre) {lo : WithBot ℤ} {hi : ℤ} (hlo : lo ≤ hi) (hhi : (hi : WithBot ℤ) ≤ lastId pre) :
    Covers pre pre lo hi (pre.filter (between lo hi)) :=
  ⟨h, prefix_rfl, rfl, hlo, max_eq_left hhi, fun hbot => by cases hbot⟩

/-! ## Windows -/

/-- **A window** holds every entry past the one before it. -/
theorem covers_windowOf (t : Transcript V) {kn : List (TranscriptEntry V)} (h : InOrder kn) (hpre : pre <+: kn) (st : ℕ) :
    ∃ lo hi, t.merge (windowOf kn st) = t.cover lo hi (windowOf kn st).entries ∧ lo = ((windowOf kn st).before : WithBot ℤ) ∧
      hi = lastId kn ∧ Covers pre kn lo hi (windowOf kn st).entries := by
  have hsplit : kn.take st ++ kn.drop st = kn := take_append_drop st kn
  have hhi : ((((windowOf kn st).entries.getLast?.map (·.id)).or (windowOf kn st).before : Option ℤ) : WithBot ℤ) = lastId kn := by
    conv_rhs => rw [← hsplit]
    exact (lastId_append _ _).symm
  refine ⟨_, _, rfl, rfl, hhi, ⟨h, hpre, ?_, ?_, ?_, fun hbot => eq_nil_of_lastId (hhi.symm.trans hbot)⟩⟩
  · rw [hhi]
    have hold : (kn.take st).filter (between (lastId (kn.take st)) (lastId kn)) = [] :=
      filter_eq_nil_iff.mpr fun e he hin =>
        absurd (le_lastId (h.sublist (take_sublist _ _)) he) (not_le.mpr (between_iff.mp hin).1)
    have hnew : (kn.drop st).filter (between (lastId (kn.take st)) (lastId kn)) = kn.drop st :=
      filter_eq_self.mpr fun e he => between_iff.mpr ⟨lastId_lt (hsplit.symm ▸ h) he, le_lastId h (mem_of_mem_drop he)⟩
    show kn.drop st = kn.filter (between (lastId (kn.take st)) (lastId kn))
    conv_rhs => rw [← hsplit, filter_append]
    rw [hsplit, hold, hnew, nil_append]
  · rw [hhi]
    exact lastId_mono h ( take_prefix _ _)
  · rw [hhi]
    exact max_eq_right (lastId_mono h hpre)

/-! ## Pages -/

theorem earlierQuery_matching (low : ℤ) (xs : List (TranscriptEntry V)) : (earlierQuery low).matching xs = (xs.filter (between ⊥ low)).reverse := by
  unfold RangeQuery.matching earlierQuery
  dsimp only
  rw [if_pos rfl]
  congr 1
  refine filter_congr fun e _ => ?_
  unfold between
  rw [decide_eq_true (WithBot.bot_lt_coe e.id), Option.all_none]
  simp

theorem fillQuery_matching (gap : Gap) (xs : List (TranscriptEntry V)) :
    (fillQuery gap).matching xs = xs.filter (between gap.after (gap.upTo - 1 : ℤ)) := by
  unfold RangeQuery.matching fillQuery
  dsimp only
  rw [if_neg Bool.false_ne_true]
  refine filter_congr fun e _ => ?_
  unfold between
  rw [Option.all_some]
  congr 1
  · rw [decide_eq_decide, WithBot.coe_lt_coe]
    omega
  · rw [decide_eq_decide, WithBot.coe_le_coe]

/-- The last entries of a list in order are those from the first of them on. -/
theorem eq_filter_of_suffix {ys : List (TranscriptEntry V)} (h : InOrder xs) (hys : ys <:+ xs) {fst : TranscriptEntry V} (hfst : ys.head? = some fst) :
    ys = xs.filter fun e => decide (((fst.id - 1 : ℤ) : WithBot ℤ) < e.id) := by
  obtain ⟨front, rfl⟩ := hys
  obtain ⟨rest, rfl⟩ := head?_eq_some_iff.mp hfst
  obtain ⟨-, hrest, hcross⟩ := pairwise_append.mp h
  have hold : front.filter (fun e => decide (((fst.id - 1 : ℤ) : WithBot ℤ) < e.id)) = [] := filter_eq_nil_iff.mpr fun e he hin => by
    have hlt := hcross e he fst (.head _)
    have hge := WithBot.coe_lt_coe.mp (of_decide_eq_true hin)
    omega
  have hnew : (fst :: rest).filter (fun e => decide (((fst.id - 1 : ℤ) : WithBot ℤ) < e.id)) = fst :: rest :=
    filter_eq_self.mpr fun e he => decide_eq_true (WithBot.coe_lt_coe.mpr (by
      obtain rfl | hin := mem_cons.mp he
      · omega
      · have hlt := rel_of_pairwise_cons hrest hin
        omega))
  rw [filter_append, hold, hnew, nil_append]

/-- The first entries of a list in order are those up to the last of them. -/
theorem eq_filter_of_prefix {ys : List (TranscriptEntry V)} (h : InOrder xs) (hys : ys <+: xs) {last : TranscriptEntry V} (hlast : ys.getLast? = some last) :
    ys = xs.filter fun e => decide ((e.id : WithBot ℤ) ≤ last.id) := by
  have hid : lastId ys = last.id := by
    unfold lastId
    rw [hlast]
    rfl
  have hall : ys.filter (fun e => decide ((e.id : WithBot ℤ) ≤ last.id)) = ys :=
    filter_eq_self.mpr fun e he => decide_eq_true (hid ▸ le_lastId (h.sublist hys.sublist) he)
  obtain ⟨rest, rfl⟩ := hys
  have hnone : rest.filter (fun e => decide ((e.id : WithBot ℤ) ≤ last.id)) = [] :=
    filter_eq_nil_iff.mpr fun e he hin => absurd (of_decide_eq_true hin) (not_le.mpr (hid ▸ lastId_lt h he))
  rw [filter_append, hall, hnone, append_nil]

namespace Transcript

variable {pre : List (TranscriptEntry V)} {limit : ℕ} {page : EntryPage V}

/-- **A page of earlier entries** is a range up to the bound its load began with. -/
theorem earlierPage_covers (t : Transcript V) (h : InOrder pre) {low : ℤ} (hlow : (low : WithBot ℤ) ≤ lastId pre)
    (hans : page.Answers (pre.filter (between ⊥ low)).reverse limit) :
    ∃ lo add, t.earlierPage low page = t.cover lo low add ∧ Covers pre pre lo low add ∧
      (lo = ⊥ ∨ ∃ e ∈ add, lo = ((e.id - 1 : ℤ) : WithBot ℤ)) ∧ ∀ e ∈ page.items, e ∈ add := by
  have hall (hwhole : page.items.reverse = pre.filter (between ⊥ low)) : Covers pre pre ⊥ low page.items.reverse :=
    hwhole ▸ covers_filter h bot_le hlow
  unfold earlierPage
  dsimp only
  split
  · rename_i oldest hnext holdest
    have hsuffix : page.items.reverse <:+ pre.filter (between ⊥ low) := by
      have hstarts := reverse_suffix.mpr hans.starts
      rwa [reverse_reverse] at hstarts
    have hitems := eq_filter_of_suffix (h.filter _) hsuffix holdest
    have hin : oldest ∈ page.items.reverse := mem_of_mem_head? holdest
    refine ⟨_, _, rfl, ?_, .inr ⟨oldest, hin, rfl⟩, fun e he => mem_reverse.mpr he⟩
    have hbtw : page.items.reverse = pre.filter (between ((oldest.id - 1 : ℤ) : WithBot ℤ) low) := by
      rw [hitems, filter_filter]
      refine filter_congr fun e _ => ?_
      unfold between
      rw [decide_eq_true (WithBot.bot_lt_coe e.id), Bool.true_and]
    rw [hbtw]
    refine covers_filter h ?_ hlow
    have hle := WithBot.coe_le_coe.mp (between_iff.mp (mem_filter.mp (hsuffix.subset hin)).2).2
    exact WithBot.coe_le_coe.mpr (by omega)
  · rename_i hend
    refine ⟨_, _, rfl, hall ?_, .inl rfl, fun e he => mem_reverse.mpr he⟩
    cases hnext : page.next with
    | false => rw [hans.whole hnext, reverse_reverse]
    | true =>
      cases hhead : page.items.reverse.head? with
      | some oldest => exact absurd hhead (hend oldest hnext)
      | none =>
        have hnil := head?_eq_none_iff.mp hhead
        rw [hnil]
        exact (reverse_eq_nil_iff.mp (hans.empty (reverse_eq_nil_iff.mp hnil))).symm

/-- **A page of a gap** is a range from the start of the gap its load began with. -/
theorem fillPage_covers (t : Transcript V) (h : InOrder pre) {gap : Gap} (hwide : gap.after + 1 < gap.upTo)
    (hupTo : ((gap.upTo - 1 : ℤ) : WithBot ℤ) ≤ lastId pre) (hans : page.Answers (pre.filter (between gap.after (gap.upTo - 1 : ℤ))) limit) :
    ∃ (hi : ℤ) (add : List (TranscriptEntry V)), t.fillPage gap page = t.cover gap.after hi add ∧ Covers pre pre gap.after hi add ∧
      gap.after < hi ∧ hi < gap.upTo ∧ (hi = gap.upTo - 1 ∨ ∃ e ∈ add, hi = e.id) ∧ ∀ e ∈ page.items, e ∈ add := by
  unfold fillPage
  split
  · rename_i nst hnext hnewest
    have hitems := eq_filter_of_prefix (h.filter _) hans.starts hnewest
    have hin : nst ∈ page.items := mem_of_getLast? hnewest
    obtain ⟨haft, hle⟩ := between_iff.mp (mem_filter.mp (hans.starts.subset hin)).2
    have haft' := WithBot.coe_lt_coe.mp haft
    have hle' := WithBot.coe_le_coe.mp hle
    refine ⟨_, _, rfl, ?_, haft', by omega, .inr ⟨nst, hin, rfl⟩, fun e he => he⟩
    have hbtw : page.items = pre.filter (between gap.after nst.id) := by
      rw [hitems, filter_filter]
      refine filter_congr fun e _ => ?_
      unfold between
      rw [Bool.eq_iff_iff, Bool.and_eq_true, Bool.and_eq_true, Bool.and_eq_true, decide_eq_true_eq, decide_eq_true_eq, decide_eq_true_eq]
      exact ⟨fun hin => ⟨hin.2.1, hin.1⟩, fun hin => ⟨hin.2, hin.1, hin.2.trans hle⟩⟩
    rw [hbtw]
    exact covers_filter h haft.le (hle.trans hupTo)
  · rename_i hend
    refine ⟨_, _, rfl, ?_, by omega, by omega, .inl rfl, fun e he => he⟩
    have hwhole : page.items = pre.filter (between gap.after (gap.upTo - 1 : ℤ)) := by
      cases hnext : page.next with
      | false => exact hans.whole hnext
      | true =>
        cases hlast : page.items.getLast? with
        | some nst => exact absurd hlast (hend nst hnext)
        | none =>
          have hnil := getLast?_eq_none_iff.mp hlast
          rw [hnil]
          exact (hans.empty hnil).symm
    rw [hwhole]
    exact covers_filter h (WithBot.coe_le_coe.mpr (by omega)) hupTo

end Transcript

end PiBridge.Durable
