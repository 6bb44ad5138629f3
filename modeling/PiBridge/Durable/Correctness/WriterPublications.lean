import PiBridge.Durable.Correctness.WriterSteps

/-!
# `Durable.Correctness.WriterPublications` — the publication of a call keeps the invariant

The loop over the parts of a call, the failure of the Session, and how the parts that failed end.
-/

namespace PiBridge.Durable

open Lib List Option Event

variable {ω ε : Type} {s : Writer ω ε} {log : List (Event ω ε)} {call : Call ω ε} {part : Part ω}

/-! ## A turn of the loop -/

variable {rest : List (Part ω)}

theorem Received.tail {seqs : Nat → Option Nat} {st : Nat} (h : Received log (part :: rest) seqs st) :
    Received log rest seqs (if part.stored then st + 1 else st) := by
  intro i oth hoth
  cases hsto : part.stored with
  | true =>
    have hone := h (i + 1) oth (by rw [filter_cons_of_pos hsto]; exact hoth)
    rw [if_pos rfl, Nat.add_assoc, Nat.add_comm 1 i]
    exact hone
  | false =>
    exact h i oth (by rw [filter_cons_of_neg (by rw [hsto]; exact Bool.false_ne_true)]; exact hoth)

theorem Received.head {seqs : Nat → Option Nat} {st : Nat}
    (h : Received log (part :: rest) seqs st) (hsto : part.stored = true) : seqs st = receipt log part.place :=
  h 0 part (by rw [filter_cons_of_pos hsto]; rfl)

theorem CallOk.take (h : CallOk log call [] []) (hrest : call.rest = part :: rest) :
    CallOk log { call with rest := rest, storedIndex := if part.stored then call.storedIndex + 1 else call.storedIndex }
      [part] [] where
  reached := by
    obtain ⟨passed, hpts, hpassed⟩ := h.reached
    refine ⟨passed, ?_, hpassed⟩
    rw [hpts, hrest, append_nil, append_assoc]
    rfl
  received := by
    have hrecv := h.received
    rw [hrest] at hrecv
    exact hrecv.tail
  answers := h.answers
  failing := h.failing
  quiet := h.quiet

theorem CallOk.pass {here ran ran' : List (Part ω)} (h : CallOk log call here ran) (failing : List (Failing ω ε))
    (stop : Option (Stop ε))
    (hstop : stop = none → call.stop = none ∧ ∀ part ∈ here, part.stored = true → (receipt log part.place).isSome = true)
    (hfailing : ∃ kept drp, failing = kept ++ drp ∧ (∀ each ∈ kept, each.published = true) ∧
      (∀ each ∈ drp, each.published = false) ∧ (stop = none → drp = []) ∧
      publishedParts log = settledParts log ++ kept.map (·.part) ++ ran')
    (hqui : stop = none → call.rejected = none → failing = []) :
    CallOk log { call with failing := failing, stop := stop } [] ran' where
  reached := by
    obtain ⟨passed, hpts, hpassed⟩ := h.reached
    refine ⟨passed ++ here, by rw [hpts, append_nil], fun hnone oth hoth => ?_⟩
    rcases mem_append.mp hoth with hoth | hoth
    · exact hpassed (hstop hnone).1 oth hoth
    · exact (hstop hnone).2 oth hoth
  received := h.received
  answers := h.answers
  failing := hfailing
  quiet := hqui

/-- A part that was not published joins the ones that fail. -/
theorem CallOk.drop {here : List (Part ω)} (h : CallOk log call here []) (each : Failing ω ε) (heach : each.published = false)
    (stop : Option (Stop ε)) (hstop : stop ≠ none) :
    CallOk log { call with failing := call.failing ++ [each], stop := stop } [] [] := by
  refine h.pass _ _ (fun hnone => absurd hnone hstop) ?_ fun hnone => absurd hnone hstop
  obtain ⟨kept, drp, hfailing, hkept, hdrop, -, hpub⟩ := h.failing
  refine ⟨kept, drp ++ [each], by rw [hfailing, append_assoc], hkept, fun oth hoth => ?_, fun hnone => absurd hnone hstop, hpub⟩
  rcases mem_snoc.mp hoth with hoth | rfl
  · exact hdrop oth hoth
  · exact heach

/-- A part that was published joins them. -/
theorem CallOk.keep (h : CallOk log call [part] [part]) (hnone : call.stop = none) (each : Failing ω ε) (heach : each.published = true)
    (hpart : each.part = part) (stop : Option (Stop ε))
    (hstop : stop = none → part.stored = true → (receipt log part.place).isSome = true) (hrej : stop = none → call.rejected ≠ none) :
    CallOk log { call with failing := call.failing ++ [each], stop := stop } [] [] := by
  refine h.pass _ _ (fun hstopped => ⟨hnone, fun oth hoth => ?_⟩) ?_ fun hstopped hcall => absurd hcall (hrej hstopped)
  · obtain rfl := mem_singleton.mp hoth
    exact hstop hstopped
  · obtain ⟨kept, drp, hfailing, hkept, -, hdrop, hpub⟩ := h.failing
    obtain rfl := hdrop hnone
    refine ⟨kept ++ [each], [], by rw [hfailing, append_nil, append_nil], fun oth hoth => ?_, nofun, fun _ => rfl, ?_⟩
    · rcases mem_snoc.mp hoth with hoth | rfl
      · exact hkept oth hoth
      · exact heach
    · rw [hpub, map_append, map_singleton, hpart, append_nil, append_assoc]

theorem Sound.next (h : Sound s) (hflush : s.flush = .next call) : Sound (s.next call) := by
  obtain ⟨hcall, hadopted⟩ : Phase s.log s.failure (.next call) := hflush ▸ h.phase
  have hpend : s.flush.pending = call.failing.map (·.part) ++ call.rest := by rw [hflush]; rfl
  unfold Writer.next
  split
  · rename_i hrest
    have hopen : s.flush.pending = call.failing.map (·.part) := by rw [hpend, hrest, append_nil]
    split
    · rename_i hfails
      refine h.goto hpend.symm rfl (fun heq => by cases heq) ⟨hcall, hrest, ?_⟩
      exact (Bool.or_eq_true _ _).mp hfails
    · -- Neither a stop nor a rejection: the whole call is published and settled.
      rename_i hfine
      obtain ⟨hrej, hstop⟩ : call.rejected = none ∧ call.stop = none := by simpa using hfine
      obtain ⟨kept, drp, hfailing, hkept, hdrop, -, hpub⟩ := hcall.failing
      have hnone := hcall.quiet hstop hrej
      obtain ⟨rfl, rfl⟩ := append_eq_nil_iff.mp (hfailing.symm.trans hnone)
      have heq : publishedParts s.log = settledParts s.log := by simpa using hpub
      refine h.goto hopen.symm rfl (fun heq => by cases heq) ⟨⟨[], [], hnone, hkept, hdrop, Or.inl (hpub.trans (append_nil _))⟩,
        fun hne => absurd hnone hne, fun _ => ⟨heq, hadopted hstop, fun ps res hansw => ?_⟩⟩
      rcases hcall.answers ps res hansw with ⟨rfl, hres⟩ | hfine
      · obtain ⟨passed, hpts, hpassed⟩ := hcall.reached
        rw [hrest, append_nil, append_nil] at hpts
        refine ⟨?_, fun part hpart => hpassed hstop part (hpts ▸ hpart)⟩
        unfold Call.rejected at hrej
        rwa [hres] at hrej
      · exact hfine
  · rename_i part rest hrest
    have htake := hcall.take hrest
    rw [hrest] at hpend
    split
    · rename_i stop hstop
      refine h.goto ?_ rfl (fun heq => by cases heq) ⟨?_, fun hnone => ?_⟩
      · rw [hpend]
        simp [Flush.pending]
      · exact htake.drop _ rfl call.stop (by rw [hstop]; exact some_ne_none stop)
      · exact absurd (hstop.symm.trans hnone) (some_ne_none stop)
    · rename_i hstop
      by_cases hseq : (part.stored && (if part.stored = true then call.seqs call.storedIndex else none).isNone) = true
      · rw [if_pos hseq]
        refine h.goto ?_ rfl (fun heq => by cases heq) ⟨htake.drop _ rfl _ (some_ne_none _), fun hnone => absurd hnone (some_ne_none _)⟩
        rw [hpend]
        simp [Flush.pending]
      · rw [if_neg hseq]
        refine h.goto hpend.symm rfl (fun heq => by cases heq) ⟨htake, hstop, hadopted hstop, ?_, ?_⟩
        · cases hsto : part.stored with
          | true =>
            have hrecv := hcall.received
            rw [hrest] at hrecv
            exact hrecv.head hsto
          | false =>
            have hmem : part ∈ s.parts := by
              rw [← h.core.order, hpend]
              simp
            rw [if_neg Bool.false_ne_true, h.core.held part hmem hsto]
        · cases hsto : part.stored with
          | true => simpa [hsto, isSome_iff_ne_none] using hseq
          | false => simp

/-! ## A publication -/

variable {failure : Option (PublishFailure ε)}

theorem Sound.publication {seq : Option Nat} (h : Sound s)
    (hflush : s.flush = .publishing call part seq) : Sound (s.publication call part seq failure) := by
  obtain ⟨hcall, hstop, hadopted, hseq, hsto⟩ : Phase s.log s.failure (.publishing call part seq) := hflush ▸ h.phase
  have hpend : s.flush.pending = call.failing.map (·.part) ++ part :: call.rest := by rw [hflush]; rfl
  unfold Writer.publication
  split
  · refine h.goto ?_ rfl (fun heq => by cases heq) ⟨hcall.drop _ rfl _ (some_ne_none _), fun hnone => absurd hnone (some_ne_none _)⟩
    rw [hpend]
    simp [Flush.pending]
  · rename_i hfailure
    have hordr := h.core.order
    rw [hpend] at hordr
    obtain ⟨kept, drp, hfailing, hkept, hdropped, hdrop, hpub⟩ := hcall.failing
    obtain rfl := hdrop hstop
    rw [append_nil] at hfailing hpub
    -- What was published is exactly what was admitted before this part.
    have hpts : s.parts = publishedParts s.log ++ part :: (call.rest ++ s.queue) := by
      rw [← hordr, hpub, hfailing]
      simp
    obtain ⟨hplaces, haft⟩ := h.core.place_eq hpts
    have hopen : part ∈ s.flush.pending ++ s.queue := by simp [hpend]
    have hlegal : Legal s.log (.published part seq failure) := by
      refine ⟨hplaces, hseq, hsto, fun hdiscarded => ?_, h.failures hfailure, hadopted, fun ps res hansw => ?_⟩
      · have hnd := h.core.nodup
        rw [← h.core.order, nodup_append] at hnd
        exact hnd.2.2 part (h.core.discarded part hdiscarded).1 part hopen rfl
      · rcases hcall.answers ps res hansw with ⟨rfl, -⟩ | ⟨hres, hfine⟩
        · obtain ⟨passed, hrchd, hpassed⟩ := hcall.reached
          refine ⟨fun _ => by simp [hrchd], fun oth hoth hotherStored hmiss => ?_⟩
          rw [hrchd, append_assoc] at hoth
          rcases mem_append.mp hoth with hoth | hoth
          · have hrecv := hpassed hstop oth hoth hotherStored
            rw [hmiss] at hrecv
            cases hrecv
          · rcases mem_cons.mp hoth with rfl | hoth
            · rw [hseq, hmiss, hotherStored] at hsto
              cases hsto
            · exact haft oth (mem_append_left _ hoth)
        · refine ⟨fun hrej => ?_, fun oth hoth hotherStored hmiss => ?_⟩
          · rw [hres] at hrej
            cases hrej
          · have hrecv := hfine oth hoth hotherStored
            rw [hmiss] at hrecv
            cases hrecv
    have hsilent : ∀ pl, receipt (s.log ++ [published part seq failure]) pl = receipt s.log pl := fun pl => by simp [receiptOf]
    have hanswered : ∀ ps res, answered ps res ∈ s.log ++ [published part seq failure] →
        answered ps res ∈ s.log := fun ps res hmem => by simpa using hmem
    refine ⟨?_, fun hnone ev hev => ?_, fun oth hoth => ?_, (fun heq => by cases heq), ?_, hstop, fun hpart => ?_,
      fun ev hev hfails => ?_⟩
    · have hbegins : publishedParts s.log ++ [part] <+: s.parts := ⟨call.rest ++ s.queue, by rw [hpts, append_assoc]; rfl⟩
      have hcore := h.core.publish hlegal hbegins hopen
      rw [hpend] at hcore
      exact hcore
    · rcases mem_snoc.mp hev with hev | rfl
      · exact h.failures hnone ev hev
      · rfl
    · show receipt (s.log ++ [published part seq failure]) oth.place = none
      rw [hsilent]
      exact h.fresh oth (mem_append_right _ hoth)
    · show CallOk (s.log ++ [published part seq failure]) call [part] [part]
      refine ⟨?_, fun i oth hoth => ?_, fun ps res hmem => ?_, ⟨kept, [], ?_, hkept, hdropped, fun _ => rfl, ?_⟩, hcall.quiet⟩
      · obtain ⟨passed, hrchd, hpassed⟩ := hcall.reached
        refine ⟨passed, hrchd, fun hnone oth hoth hotherStored => ?_⟩
        rw [hsilent]
        exact hpassed hnone oth hoth hotherStored
      · rw [hsilent]
        exact hcall.received i oth hoth
      · refine (hcall.answers ps res (hanswered ps res hmem)).imp_right fun hfine => ⟨hfine.1, fun oth hoth hotherStored => ?_⟩
        rw [hsilent]
        exact hfine.2 oth hoth hotherStored
      · rw [hfailing, append_nil]
      · rw [settledParts_event rfl, publishedParts_append, hpub]
        rfl
    · show (receipt (s.log ++ [published part seq failure]) part.place).isSome = true
      rw [hsilent, ← hseq, hsto]
      exact hpart
    · rcases mem_snoc.mp hev with hev | rfl
      · rw [hadopted ev hev] at hfails
        cases hfails
      · exact hfails

/-- The outcome of a published part settles at once, where the loop goes on with what `stop` says. -/
theorem Sound.settlePublished (h : Sound s) (hflush : s.flush = .published call part failure)
    (hrej : call.rejected = none) (stop : Option (Stop ε)) (out : Outcome ε) (hadopted : Adopted s.log) :
    Sound (((s.settle part out).openGate part).goto (.next { call with stop := stop })) := by
  obtain ⟨hcall, hstop, hrcpt, -⟩ : Phase s.log s.failure (.published call part failure) := hflush ▸ h.phase
  obtain ⟨kept, drp, hfailing, hkept, hdropped, hdrop, hpub⟩ := hcall.failing
  -- Nothing failed before it, so it is the first part whose outcome is open.
  have hnone := hcall.quiet hstop hrej
  obtain ⟨rfl, rfl⟩ := append_eq_nil_iff.mp (hfailing.symm.trans hnone)
  have hpend : s.flush.pending ++ s.queue = part :: (call.rest ++ s.queue) := by
    rw [hflush]
    show call.failing.map (·.part) ++ part :: call.rest ++ s.queue = part :: (call.rest ++ s.queue)
    rw [hnone]
    rfl
  have hcore := h.core
  rw [hpend] at hcore
  have hmem : part ∈ publishedParts s.log := by simp [hpub]
  have hsett := settled_silent (ε := ε) part out
  have hopened := opened_silent (ω := ω) (ε := ε) part
  have hsilent : ∀ pl, receipt (s.log ++ [settled part out] ++ [opened part]) pl = receipt s.log pl := fun pl => by
    rw [hopened.receipt_append, hsett.receipt_append]
  refine ⟨?_, fun hfails ev hev => ?_, fun oth hoth => ?_, (fun heq => by cases heq), ?_, fun _ => ?_⟩
  · have hnext := hcore.settle hmem out
    show Core s.parts _ (call.failing.map (·.part) ++ call.rest ++ s.queue)
    rw [hnone]
    exact hnext
  · rcases mem_snoc.mp hev with hev | rfl
    · rcases mem_snoc.mp hev with hev | rfl
      · exact h.failures hfails ev hev
      · rfl
    · rfl
  · show receipt (s.log ++ [settled part out] ++ [opened part]) oth.place = none
    rw [hsilent]
    exact h.fresh oth (mem_append_right _ hoth)
  · have hlat : CallOk (s.log ++ [settled part out] ++ [opened part]) call [part] [] := by
      have hpass : CallOk (s.log ++ [settled part out]) call [part] [] := by
        refine hsett.callOk hcall ⟨[], [], hnone, hkept, hdropped, fun _ => rfl, ?_⟩ rfl
        rw [publishedParts_event rfl, settledParts_append, hpub]
        simp [settled?]
      refine hopened.callOk hpass ?_ rfl
      rw [publishedParts_event rfl, settledParts_event rfl]
      exact hpass.failing
    refine hlat.pass _ _ (fun _ => ⟨hstop, fun oth hoth hsto => ?_⟩) ?_ fun _ _ => hnone
    · obtain rfl := mem_singleton.mp hoth
      rw [hsilent]
      exact hrcpt hsto
    · obtain ⟨kept, drp, hfailing, hkept, hdropped, -, hpub⟩ := hlat.failing
      obtain ⟨rfl, rfl⟩ := append_eq_nil_iff.mp (hfailing.symm.trans hnone)
      exact ⟨[], [], hfailing, hkept, hdropped, fun _ => rfl, hpub⟩
  · exact hopened.adopted (hsett.adopted hadopted)

theorem Sound.afterPublication (h : Sound s)
    (hflush : s.flush = .published call part failure) : Sound (s.afterPublication call part failure) := by
  obtain ⟨hcall, hstop, hrcpt, hadopts⟩ : Phase s.log s.failure (.published call part failure) := hflush ▸ h.phase
  have hpend : s.flush.pending = call.failing.map (·.part) ++ part :: call.rest := by rw [hflush]; rfl
  have hadopted : failure = none ∨ (∃ err, failure = some ⟨.listener, err⟩) → Adopted s.log := by
    intro hfailure ev hev
    by_contra hfails
    have hany := hadopts ev hev (by simpa using hfails)
    rcases hfailure with rfl | ⟨err, rfl⟩ <;> simp at hany
  unfold Writer.afterPublication
  rcases failure with _ | ⟨_ | _, err⟩
  · -- The part was published: it settles now, unless its call rejected.
    rw [if_neg (by simp)]
    split
    · rename_i err hrej
      have hkeep := hcall.keep hstop ⟨part, .own (.thrown err), true⟩ rfl rfl call.stop (fun _ => hrcpt)
        fun _ => by rw [hrej]; exact some_ne_none err
      refine h.goto ?_ rfl (fun heq => by cases heq) ⟨hkeep, fun _ => hadopted (Or.inl rfl)⟩
      rw [hpend]
      simp [Flush.pending]
    · rename_i hrej
      exact h.settlePublished hflush hrej none _ (hadopted (Or.inl rfl))
  · rw [if_pos (by simp)]
    have hkeep := hcall.keep hstop ⟨part, .own (.thrown err), true⟩ rfl rfl (some ⟨.thrown err, part.index, false⟩)
      (fun hnone => absurd hnone (some_ne_none _)) fun hnone => absurd hnone (some_ne_none _)
    refine h.goto ?_ rfl (fun heq => by cases heq) ⟨hkeep, fun hnone => absurd hnone (some_ne_none _)⟩
    rw [hpend]
    simp [Flush.pending]
  · -- An own observer's throw: the commit stands, unless its call rejected.
    rw [if_neg (by simp)]
    split
    · rename_i rejection hrej
      have hkeep := hcall.keep hstop ⟨part, .own (.thrown rejection), true⟩ rfl rfl call.stop (fun _ => hrcpt)
        fun _ => by rw [hrej]; exact some_ne_none rejection
      refine h.goto ?_ rfl (fun heq => by cases heq) ⟨hkeep, fun _ => hadopted (Or.inr ⟨err, rfl⟩)⟩
      rw [hpend]
      simp [Flush.pending]
    · rename_i hrej
      exact h.settlePublished hflush hrej _ _ (hadopted (Or.inr ⟨err, rfl⟩))

/-! ## The end of a call -/

variable {stop : Option (Stop ε)}

/-- The parts of a call that fail are settled once the Session failed. -/
theorem Sound.settling (h : Sound s) (hpend : s.flush.pending = call.failing.map (·.part))
    {ran : List (Part ω)} (hcall : CallOk s.log call [] ran) (hran : ran = []) (hfail : s.failure ≠ none) :
    Sound (s.goto (.settling call.failing stop)) := by
  obtain ⟨kept, drp, hfailing, hkept, hdrop, -, hpub⟩ := hcall.failing
  rw [hran, append_nil] at hpub
  exact h.goto hpend.symm rfl (fun heq => by cases heq) ⟨⟨kept, drp, hfailing, hkept, hdrop, Or.inl hpub⟩,
    fun _ => hfail, fun hnone => absurd hnone hfail⟩

theorem Sound.failCall (h : Sound s) (hflush : s.flush = .failing call) : Sound (s.failCall call) := by
  obtain ⟨hcall, hrest, hreason⟩ : Phase s.log s.failure (.failing call) := hflush ▸ h.phase
  have hpend : s.flush.pending = call.failing.map (·.part) := by
    rw [hflush]
    show call.failing.map (·.part) ++ call.rest = _
    rw [hrest, append_nil]
  have hfail : ∀ err idx own, Sound (((s.fail err).emit (.failed err idx own)).goto (.settling call.failing call.stop)) := by
    intro err idx own
    have hev := failed_neutral (ω := ω) err idx own
    exact (h.fail err hev trivial).settling hpend (hev.callOk hcall) rfl (s.fail_failure err)
  unfold Writer.failCall
  split
  · exact hfail _ _ _
  · exact hfail _ _ _
  · rename_i hrej hstop
    rw [hrej, hstop] at hreason
    simp at hreason

section Ends

variable {out : Outcome ε}

theorem publishedParts_unpublish : publishedParts (s.unpublish part out).log = publishedParts s.log := by
  show publishedParts (s.log ++ [discarded part] ++ [settled part out] ++ [opened part]) = _
  rw [publishedParts_event rfl, publishedParts_event rfl, publishedParts_event rfl]

theorem settledParts_unpublish : settledParts (s.unpublish part out).log = settledParts s.log ++ [part] := by
  show settledParts (s.log ++ [discarded part] ++ [settled part out] ++ [opened part]) = _
  rw [settledParts_event rfl, settledParts_append, settledParts_event rfl]
  rfl

theorem receipt_unpublish (pl : Nat) : receipt (s.unpublish part out).log pl = receipt s.log pl := by
  show receipt (s.log ++ [discarded part] ++ [settled part out] ++ [opened part]) pl = _
  simp [receiptOf]

/-- The first open part ends, in a Session that failed. -/
theorem Sound.finish (h : Sound s) (s' : Writer ω ε) (hcore : Core s.parts s'.log (rest ++ s.queue))
    (hpts : s'.parts = s.parts) (hque : s'.queue = s.queue) (hfails : s'.failure = s.failure) (hfail : s.failure ≠ none)
    (hrcpt : ∀ pl, receipt s'.log pl = receipt s.log pl) {flush : Flush ω ε} (hpend : flush.pending = rest)
    (hunsent : flush.unsent = []) (hidle : flush ≠ .idle) (hphase : Phase s'.log s.failure flush) : Sound (s'.goto flush) where
  core := by
    show Core s'.parts s'.log (flush.pending ++ s'.queue)
    rw [hpts, hque, hpend]
    exact hcore
  failures hnone := absurd (hfails.symm.trans hnone) hfail
  fresh part hpart := by
    have hmem : part ∈ flush.unsent ++ s'.queue := hpart
    rw [hunsent, hque] at hmem
    show receipt s'.log part.place = none
    rw [hrcpt]
    exact h.fresh part (mem_append_right _ hmem)
  idle heq := absurd heq hidle
  phase := by
    show Phase s'.log s'.failure flush
    rw [hfails]
    exact hphase

/-- An open part that no settled one follows was not published, where no open one was. -/
theorem Core.not_published {ps rest : List (Part ω)} (h : Core ps log (part :: rest))
    (hbegins : publishedParts log <+: settledParts log) : part ∉ publishedParts log :=
  fun hmem => h.not_settled (hbegins.subset hmem)

theorem Sound.unpublishing {ps : List (Part ω)} {err : WriterError ε} (h : Sound s)
    (hflush : s.flush = .unpublishing (part :: ps) err) :
    Sound ((s.unpublish part out).goto (.unpublishing ps err)) := by
  obtain ⟨hfail, hbegins⟩ : Phase s.log s.failure (.unpublishing (part :: ps) err) := hflush ▸ h.phase
  have hcore := h.core
  rw [hflush] at hcore
  refine h.finish (s.unpublish part out) (hcore.discard (hcore.not_published hbegins) out) rfl rfl rfl hfail
    receipt_unpublish rfl rfl (fun heq => by cases heq) ⟨hfail, ?_⟩
  rw [publishedParts_unpublish, settledParts_unpublish]
  exact hbegins.trans (prefix_append _ _)

theorem Sound.settleFailing {each : Failing ω ε} {failing : List (Failing ω ε)} (h : Sound s)
    (hflush : s.flush = .settling (each :: failing) stop) : Sound ((s.settleFailing each stop).goto (.settling failing stop)) := by
  obtain ⟨⟨kept, dropped, hfailing, hkept, hdrop, hpub⟩, hfail, -⟩ :
    Phase s.log s.failure (.settling (each :: failing) stop) := hflush ▸ h.phase
  replace hfail := hfail (cons_ne_nil _ _)
  have hcore : Core s.parts s.log (each.part :: (failing.map (·.part) ++ s.queue)) := by
    have hcore := h.core
    rw [hflush] at hcore
    exact hcore
  unfold Writer.settleFailing
  rcases kept with _ | ⟨fst, kept⟩
  · -- Every part left was dropped: it is discarded.
    have hbegins : publishedParts s.log <+: settledParts s.log := by
      rcases hpub with heq | ⟨-, hbegins⟩
      · have heq' : publishedParts s.log = settledParts s.log := by simpa using heq
        exact heq' ▸ prefix_rfl
      · exact hbegins
    rw [nil_append] at hfailing
    rw [if_neg (by rw [hdrop each (hfailing ▸ mem_cons_self)]; exact Bool.false_ne_true)]
    refine h.finish (s.unpublish each.part _) (hcore.discard (hcore.not_published hbegins) _) rfl rfl rfl hfail receipt_unpublish rfl rfl
      (fun heq => by cases heq) ⟨⟨[], failing, rfl, nofun, fun oth hoth => ?_, Or.inr ⟨rfl, ?_⟩⟩,
        fun _ => hfail, fun hnone => absurd hnone hfail⟩
    · exact hdrop oth (hfailing ▸ mem_cons_of_mem _ hoth)
    · rw [publishedParts_unpublish, settledParts_unpublish]
      exact hbegins.trans (prefix_append _ _)
  · -- It was published.
    cases hfailing
    rw [if_pos (hkept each mem_cons_self)]
    have heq : publishedParts s.log = settledParts s.log ++ (each.part :: kept.map (·.part)) := by
      rcases hpub with heq | ⟨hnil, -⟩
      · exact heq
      · exact absurd hnil (cons_ne_nil _ _)
    have hmem : each.part ∈ publishedParts s.log := by simp [heq]
    refine h.finish ((s.settle each.part _).openGate each.part) (hcore.settle hmem _) rfl rfl rfl hfail (fun pl => ?_) rfl rfl (fun heq => by cases heq)
      ⟨⟨kept, dropped, rfl, fun oth hoth => hkept oth (mem_cons_of_mem _ hoth), hdrop, Or.inl ?_⟩,
        fun _ => hfail, fun hnone => absurd hnone hfail⟩
    · show receipt (s.log ++ [settled each.part _] ++ [opened each.part]) pl = _
      rw [(opened_silent each.part).receipt_append, (settled_silent each.part _).receipt_append]
    · show publishedParts (s.log ++ [settled each.part _] ++ [opened each.part]) =
        settledParts (s.log ++ [settled each.part _] ++ [opened each.part]) ++ _
      rw [publishedParts_event rfl, publishedParts_event rfl, settledParts_event rfl, settledParts_append, heq, append_assoc]
      rfl

/-- What was admitted meanwhile goes the same way. -/
theorem Sound.dropQueued (h : Sound s) (hflush : s.flush = .settling [] stop) : Sound s.dropQueued := by
  obtain ⟨⟨kept, dropped, hfailing, -, -, hpub⟩, -, hnone⟩ : Phase s.log s.failure (.settling [] stop) := hflush ▸ h.phase
  obtain ⟨rfl, rfl⟩ := append_eq_nil_iff.mp hfailing.symm
  have hpend : s.flush.pending = [] := by rw [hflush]; rfl
  have hbegins : publishedParts s.log <+: settledParts s.log := by
    rcases hpub with heq | ⟨-, hbegins⟩
    · have heq' : publishedParts s.log = settledParts s.log := by simpa using heq
      exact heq' ▸ prefix_rfl
    · exact hbegins
  unfold Writer.dropQueued
  split
  · rename_i err hfails
    have hfail : s.failure ≠ none := by
      rw [hfails]
      exact some_ne_none err
    refine ⟨?_, h.failures, nofun, (fun heq => by cases heq), hfail, hbegins⟩
    have hcore := h.core
    rw [hpend] at hcore
    show Core s.parts s.log (s.queue ++ [])
    rwa [append_nil]
  · exact h.goto hpend.symm rfl (fun heq => by cases heq) ⟨hbegins, hnone⟩

end Ends

end PiBridge.Durable
