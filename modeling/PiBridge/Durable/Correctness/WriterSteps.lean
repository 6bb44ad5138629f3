import PiBridge.Durable.Correctness.WriterRuns

/-!
# `Durable.Correctness.WriterSteps` — every step of the writer keeps the invariant

One lemma for each kind of step; `Sound.step` puts them together.
-/

namespace PiBridge.Durable

open Lib List Option Function Event

variable {ω ε : Type} {s : Writer ω ε}

theorem Event.external_neutral (err : ε) : (Event.external err : Event ω ε).Neutral :=
  ⟨⟨fun _ _ => rfl, nofun, rfl⟩, rfl, rfl, rfl, rfl⟩

theorem Event.failed_neutral (err : WriterError ε) (idx : Option Nat) (own : List Nat) :
    (Event.failed err idx own : Event ω ε).Neutral :=
  ⟨⟨fun _ _ => rfl, nofun, rfl⟩, rfl, rfl, rfl, rfl⟩

theorem Event.sent_neutral (ps : List (Part ω)) : (Event.sent ps : Event ω ε).Neutral :=
  ⟨⟨fun _ _ => rfl, nofun, rfl⟩, rfl, rfl, rfl, rfl⟩

theorem Event.settled_silent (part : Part ω) (oc : Outcome ε) : (Event.settled part oc : Event ω ε).Silent :=
  ⟨fun _ _ => rfl, nofun, rfl⟩

theorem Event.opened_silent (part : Part ω) : (Event.opened part : Event ω ε).Silent := ⟨fun _ _ => rfl, nofun, rfl⟩

/-! ## Failures and admissions -/

theorem Writer.fail_failure (s : Writer ω ε) (err : WriterError ε) : (s.fail err).failure ≠ none := by
  show s.failure.or (some err) ≠ none
  cases s.failure <;> simp

/-- The Session fails, at any wait. -/
theorem Sound.fail (h : Sound s) (err : WriterError ε) {ev : Event ω ε} (hev : ev.Neutral)
    (hlegal : Legal s.log ev) : Sound ((s.fail err).emit ev) where
  core := h.core.event hlegal hev.published hev.discarded hev.settled hev.opened hev.receipt
  failures hnone := absurd hnone (s.fail_failure err)
  fresh part hpart := by
    show receipt (s.log ++ [ev]) part.place = none
    rw [hev.toSilent.receipt_append]
    exact h.fresh part hpart
  idle := h.idle
  phase := hev.phase h.phase fun hnone => absurd hnone (s.fail_failure err)

/-- Whatever is queued at an idle writer is sent. -/
theorem Sound.pump (hcore : Core s.parts s.log (s.flush.pending ++ s.queue))
    (hfailures : s.failure = none → ∀ ev ∈ s.log, ev.isFailure = false)
    (hfresh : ∀ part ∈ s.flush.unsent ++ s.queue, receipt s.log part.place = none) (hphase : Phase s.log s.failure s.flush) :
    Sound s.pump := by
  obtain ⟨ps, fl, q, flush, unpublished, nst, log⟩ := s
  cases flush with
  | idle =>
    cases q with
    | nil => exact ⟨hcore, hfailures, hfresh, fun _ => rfl, hphase⟩
    | cons part q =>
      refine ⟨?_, hfailures, ?_, nofun, hphase⟩
      · simpa [Writer.pump, Flush.pending] using hcore
      · simpa [Writer.pump, Flush.unsent] using hfresh
  | _ => exact ⟨hcore, hfailures, hfresh, nofun, hphase⟩

theorem Sound.admitPart (h : Sound s) (spec : PartSpec ω) : Sound (s.admitPart spec) := by
  refine Sound.pump ?_ h.failures ?_ h.phase
  · have hcore : Core (s.parts ++ [{ spec with place := s.parts.length }]) s.log
        ((s.flush.pending ++ s.queue) ++ [{ spec with place := s.parts.length }]) := h.core.admitPart rfl
    rwa [append_assoc] at hcore
  · intro part hpart
    have hmem : part ∈ (s.flush.unsent ++ s.queue) ++ [{ spec with place := s.parts.length }] := by
      rwa [append_assoc]
    rcases mem_snoc.mp hmem with hmem | rfl
    · exact h.fresh part hmem
    · exact h.core.beyond _ (Nat.le_refl _)

/-! ## The storage call -/

theorem Sound.send {ps : List (Part ω)} (h : Sound s) (hflush : s.flush = .send ps) : Sound (s.send ps) := by
  have hphase : Between s.log s.failure := by
    have hphase := h.phase
    rwa [hflush] at hphase
  have hpend : s.flush.pending = ps := by rw [hflush]; rfl
  unfold Writer.send
  split
  · rename_i err hfails
    refine h.goto hpend.symm rfl (fun heq => by cases heq) ⟨?_, hphase.1⟩
    rw [hfails]
    exact some_ne_none err
  · rename_i hfails
    split
    · -- Held parts only: no call.
      rename_i hemp
      refine h.goto hpend.symm rfl (fun heq => by cases heq) ⟨hphase.1, fun i part hpart => ?_, fun _ => ?_⟩
      · rw [isEmpty_iff.mp hemp] at hpart
        simp at hpart
      · obtain ⟨heq, hintact⟩ := hphase.2 hfails
        exact ⟨heq, hintact.1, fun ps' res' hansw => Or.inr (hintact.2 ps' res' hansw)⟩
    · have hlegal : Legal s.log (.sent ps) := ⟨h.failures hfails, (hphase.2 hfails).2⟩
      have hev := (sent_neutral ps : (sent ps : Event ω ε).Neutral)
      refine ⟨?_, fun hnone ev hmem => ?_, fun part hpart => ?_, (fun heq => by cases heq), ?_, ?_⟩
      · have hcore := h.core.event hlegal hev.published hev.discarded hev.settled hev.opened hev.receipt
        rw [hpend] at hcore
        exact hcore
      · rcases mem_snoc.mp hmem with hmem | rfl
        · exact h.failures hnone ev hmem
        · rfl
      · show receipt (s.log ++ [sent ps]) part.place = none
        rw [hev.toSilent.receipt_append]
        exact h.fresh part (mem_append_right _ hpart)
      · exact hev.between hphase id
      · -- Nothing of the call was received.
        intro i part hpart
        show none = receipt (s.log ++ [sent ps]) part.place
        rw [hev.toSilent.receipt_append, h.fresh part]
        rw [hflush]
        exact mem_append_left _ (mem_of_mem_filter (mem_of_getElem? hpart))

theorem Sound.receive {idx seq : Nat} {s' : Writer ω ε} (h : Sound s) (hreceive : s.receive idx seq = some s') : Sound s' := by
  obtain ⟨allParts, fl, q, flush, unpublished, nst, log⟩ := s
  unfold Writer.receive at hreceive
  split at hreceive
  · rename_i ps seqs hflush
    obtain rfl : flush = .calling ps seqs := hflush
    obtain ⟨hbtw, hrecv⟩ := h.phase
    have hplaces : (allParts.map (·.place)).Nodup := h.core.places ▸ nodup_range
    have hordr : settledParts log ++ (ps ++ q) = allParts := h.core.order
    split at hreceive
    · rename_i part hpart
      cases hreceive
      have hmem : part ∈ ps.filter Part.stored := mem_of_getElem? hpart
      have hsto : part.stored = true := (mem_filter.mp hmem).2
      have hin : part ∈ ps := mem_of_mem_filter hmem
      have hall : ∀ oth ∈ ps ++ q, oth ∈ allParts := fun oth hoth =>
        hordr ▸ mem_append_right _ hoth
      have hpartIn := hall part (mem_append_left _ hin)
      refine ⟨h.core.receive hpartIn hsto seq, fun hnone ev hev => ?_, fun oth hoth => ?_, (fun heq => by cases heq), ?_, ?_⟩
      · rcases mem_snoc.mp hev with hev | rfl
        · exact h.failures hnone ev hev
        · rfl
      · -- A queued part is not of this call.
        have hque : oth ∈ q := hoth
        show receipt (log ++ [received part seq]) oth.place = none
        rw [receipt_append, foldl_cons, foldl_nil, receiptOf, if_neg]
        · exact h.fresh oth hque
        · intro heq
          obtain rfl := inj_on_of_nodup_map hplaces hpartIn (hall oth (mem_append_right _ hque)) heq
          have hnd := h.core.nodup
          rw [← hordr, nodup_append, nodup_append] at hnd
          exact hnd.2.1.2.2 part hin part hque rfl
      · unfold Between
        show publishedParts (log ++ [_]) <+: settledParts (log ++ [_]) ∧ (_ → publishedParts (log ++ [_]) = settledParts (log ++ [_]) ∧ _)
        rw [publishedParts_event rfl, settledParts_event rfl]
        refine ⟨hbtw.1, fun hnone => ?_⟩
        obtain ⟨heq, hintact⟩ := hbtw.2 hnone
        exact ⟨heq, hintact.append rfl fun _ _ heq => by cases heq⟩
      · intro i oth hoth
        have hotherIn : oth ∈ ps := mem_of_mem_filter (mem_of_getElem? hoth)
        show update seqs idx (some seq) (0 + i) = receipt (log ++ [received part seq]) oth.place
        rw [receipt_append, foldl_cons, foldl_nil, receiptOf]
        by_cases hi : i = idx
        · subst hi
          cases hpart.symm.trans hoth
          rw [Nat.zero_add, update_self, if_pos rfl]
        · rw [Nat.zero_add, update_of_ne hi, if_neg, ← hrecv i oth hoth, Nat.zero_add]
          intro heq
          obtain rfl := inj_on_of_nodup_map hplaces hpartIn (hall oth (mem_append_left _ hotherIn)) heq
          have hnd : (ps.filter Part.stored).Nodup := by
            have hnd := h.core.nodup
            rw [← hordr, nodup_append, nodup_append] at hnd
            exact hnd.2.1.1.filter _
          have hlt : i < (ps.filter Part.stored).length := by
            rcases Nat.lt_or_ge i (ps.filter Part.stored).length with hlt | hge
            · exact hlt
            · rw [getElem?_eq_none hge] at hoth
              cases hoth
          exact hi ((getElem?_inj hlt hnd).mp (hoth.trans hpart.symm))
    · -- A receipt for no part of the call.
      rename_i hpart
      cases hreceive
      refine ⟨h.core, h.failures, h.fresh, (fun heq => by cases heq), hbtw, fun i oth hoth => ?_⟩
      have hi : i ≠ idx := by
        rintro rfl
        rw [hpart] at hoth
        cases hoth
      show update seqs idx (some seq) (0 + i) = receipt log oth.place
      rw [Nat.zero_add, update_of_ne hi, ← hrecv i oth hoth, Nat.zero_add]
  · cases hreceive

theorem Sound.answer {res : CallResult ε} {s' : Writer ω ε} (h : Sound s) (hansw : s.answer res = some s') : Sound s' := by
  obtain ⟨allParts, fl, q, flush, unpublished, nst, log⟩ := s
  unfold Writer.answer at hansw
  split at hansw
  · rename_i ps seqs hflush
    obtain rfl : flush = .calling ps seqs := hflush
    cases hansw
    obtain ⟨hbtw, hrecv⟩ := h.phase
    have hrcpt : ∀ pl, receipt (log ++ [answered ps res]) pl = receipt log pl := fun pl => by simp [receiptOf]
    refine ⟨h.core.event trivial rfl rfl rfl rfl fun _ _ => rfl, fun hnone ev hev => ?_, fun part hpart => ?_,
      (fun heq => by cases heq), ?_, fun i part hpart => ?_, fun hnone => ?_⟩
    · rcases mem_snoc.mp hev with hev | rfl
      · exact h.failures hnone ev hev
      · rfl
    · show receipt (log ++ [answered ps res]) part.place = none
      rw [hrcpt]
      exact h.fresh part hpart
    · show publishedParts (log ++ [_]) <+: settledParts (log ++ [_])
      rw [publishedParts_event rfl, settledParts_event rfl]
      exact hbtw.1
    · show seqs (0 + i) = receipt (log ++ [answered ps res]) part.place
      rw [hrcpt]
      exact hrecv i part hpart
    · obtain ⟨heq, hintact⟩ := hbtw.2 hnone
      refine ⟨(publishedParts_event rfl).trans (heq.trans (settledParts_event rfl).symm), fun ev hev => ?_, fun ps' res' hanswered => ?_⟩
      · rcases mem_snoc.mp hev with hev | rfl
        · exact hintact.1 ev hev
        · rfl
      · -- This call's own answer, or an earlier one that lost nothing.
        rcases mem_append.mp hanswered with hanswered | hanswered
        · obtain ⟨hres, hpts⟩ := hintact.2 ps' res' hanswered
          refine Or.inr ⟨hres, fun part hpart hsto => ?_⟩
          show (receipt (log ++ [answered ps res]) part.place).isSome = true
          rw [hrcpt]
          exact hpts part hpart hsto
        · cases mem_singleton.mp hanswered
          exact Or.inl ⟨rfl, rfl⟩
  · cases hansw

theorem Sound.called {ps : List (Part ω)} {seqs : Nat → Option Nat} {res : Option (CallResult ε)} (h : Sound s)
    (hflush : s.flush = .called ps seqs res) : Sound (s.called ps seqs res) := by
  obtain ⟨hbegins, hrecv, hnone⟩ : Phase s.log s.failure (.called ps seqs res) := hflush ▸ h.phase
  have hpend : s.flush.pending = ps := by rw [hflush]; rfl
  unfold Writer.called
  split
  · rename_i err hfails
    refine h.goto hpend.symm rfl (fun heq => by cases heq) ⟨?_, hbegins⟩
    rw [hfails]
    exact some_ne_none err
  · rename_i hfails
    obtain ⟨heq, hadopted, hans⟩ := hnone hfails
    refine h.goto (by rw [hpend]; rfl) rfl (fun heq => by cases heq) ⟨?_, fun _ => hadopted⟩
    refine ⟨⟨[], rfl, nofun⟩, hrecv, hans, ⟨[], [], rfl, ?_, ?_, fun _ => rfl, ?_⟩, fun _ _ => rfl⟩
    · exact nofun
    · exact nofun
    · rw [heq, map_nil, append_nil, append_nil]

end PiBridge.Durable
