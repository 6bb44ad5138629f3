import PiBridge.Durable.Correctness.WriterPublications

/-!
# `Durable.Correctness.WriterSound` — every run of the writer is lawful, and settles what it admitted

`Sound.step` makes `Sound` an invariant of every run. `Writer.weight` counts what is left to do: a step of the writer,
the end of its call and a publication lower it, an admission raises it by a bound, and nothing else changes it; so a
writer that is not idle becomes idle, and then every part is settled (`writer_sound`).
-/

namespace PiBridge.Durable

open Lib List Writer Steps

variable {ω ε : Type} {s s' : Writer ω ε} {turn : Turn ω ε}

/-! ## The steps of the outside -/

theorem Writer.publish_cases {fl : Option (PublishFailure ε)} (h : s.step (.publish fl) = some s') :
    ∃ c part seq, s.flush = .publishing c part seq ∧ s' = s.publication c part seq fl := by
  obtain ⟨ps, fd, q, flush, unpublished, nst, log⟩ := s
  cases flush with
  | publishing c part seq => exact ⟨c, part, seq, rfl, (Option.some.inj h).symm⟩
  | _ => cases h

theorem Writer.receive_cases {idx seq : Nat} (h : s.receive idx seq = some s') : ∃ ps seqs log, s.flush = .calling ps seqs ∧
      s' = { s with flush := .calling ps (Function.update seqs idx (some seq)), log := log } := by
  unfold receive at h
  split at h
  · rename_i ps seqs hflush
    split at h <;> cases h
    · exact ⟨ps, seqs, _, hflush, rfl⟩
    · exact ⟨ps, seqs, _, hflush, rfl⟩
  · cases h

theorem Writer.answer_cases {res : CallResult ε} (h : s.answer res = some s') : ∃ ps seqs, s.flush = .calling ps seqs ∧
      s' = (s.emit (.answered ps res)).goto (.called ps seqs (some res)) := by
  unfold answer at h
  split at h
  · rename_i ps seqs hflush
    exact ⟨ps, seqs, hflush, (Option.some.inj h).symm⟩
  · cases h

/-! ## The invariant -/

theorem Sound.go (h : Sound s) (hgo : s.go = some s') : Sound s' := by
  have hphase := h.phase
  unfold Writer.go at hgo
  split at hgo
  case h_1 | h_2 | h_3 => cases hgo
  all_goals rename_i hflush; cases hgo
  · exact h.send hflush
  · exact h.called hflush
  · rw [hflush] at hphase
    refine h.goto (by rw [hflush]; rfl) rfl (fun heq => by cases heq) ⟨hphase.2, fun hnone => absurd hnone hphase.1⟩
  · exact h.unpublishing hflush
  · exact h.next hflush
  · exact h.afterPublication hflush
  · exact h.failCall hflush
  · exact h.dropQueued hflush
  · exact h.settleFailing hflush
  · -- The next call takes what was admitted meanwhile.
    have hcore := h.core
    have hfresh := h.fresh
    rw [hflush] at hcore hfresh hphase
    exact Sound.pump hcore h.failures hfresh hphase

/-- **Every step keeps the invariant.** -/
theorem Sound.step (h : Sound s) (hstep : s.step turn = some s') : Sound s' := by
  cases turn with
  | admitPart spec =>
    cases hstep
    exact h.admitPart spec
  | fail err =>
    cases hstep
    exact h.fail _ (Event.external_neutral err) trivial
  | receive idx seq => exact h.receive hstep
  | answer res => exact h.answer hstep
  | publish fl =>
    obtain ⟨c, part, seq, hflush, rfl⟩ := publish_cases hstep
    exact h.publication hflush
  | go => exact h.go hstep

/-! ## What was admitted -/

/-- The part a turn admits. -/
def Turn.admitted? : Turn ω ε → Option (PartSpec ω)
  | .admitPart spec => some spec
  | _ => none

@[simp] theorem Writer.pump_parts (s : Writer ω ε) : s.pump.parts = s.parts := by
  unfold pump
  split <;> rfl

theorem Writer.go_parts (h : s.go = some s') : s'.parts = s.parts := by
  unfold go at h
  split at h
  case h_1 | h_2 | h_3 => cases h
  all_goals cases h
  · unfold send
    split
    · rfl
    · split <;> rfl
  · unfold called
    split <;> rfl
  · rfl
  · rfl
  · unfold next
    dsimp only
    split
    · split <;> rfl
    · split
      · rfl
      · split_ifs <;> rfl
  · unfold afterPublication
    split_ifs
    · rfl
    · split <;> rfl
  · unfold failCall
    dsimp only
    split <;> rfl
  · unfold dropQueued
    split <;> rfl
  · unfold settleFailing
    split_ifs <;> rfl
  · rw [pump_parts]
    rfl

theorem Writer.step_parts (h : s.step turn = some s') :
    s'.parts.map (·.toPartSpec) = s.parts.map (·.toPartSpec) ++ turn.admitted?.toList := by
  cases turn with
  | admitPart spec =>
    cases h
    rw [admitPart, pump_parts, map_append]
    rfl
  | fail err =>
    cases h
    exact (append_nil _).symm
  | receive idx seq =>
    obtain ⟨ps, seqs, log, -, rfl⟩ := receive_cases h
    exact (append_nil _).symm
  | answer res =>
    obtain ⟨ps, seqs, -, rfl⟩ := answer_cases h
    exact (append_nil _).symm
  | publish fl =>
    obtain ⟨c, part, seq, -, rfl⟩ := publish_cases h
    unfold publication
    split <;> exact (append_nil _).symm
  | go =>
    rw [go_parts h]
    exact (append_nil _).symm

/-! ## What is left to do -/

def Flush.weight : Flush ω ε → Nat
  | .idle => 0
  | .flushed => 1
  | .unpublishing parts _ => 2 + parts.length
  | .settling each _ => 3 + each.length
  | .failing call => 4 + call.failing.length
  | .next call => 5 + call.failing.length + 4 * call.rest.length
  | .published call _ _ => 7 + call.failing.length + 4 * call.rest.length
  | .publishing call _ _ => 8 + call.failing.length + 4 * call.rest.length
  | .called parts _ _ => 6 + 4 * parts.length
  | .calling parts _ => 7 + 4 * parts.length
  | .send parts => 8 + 4 * parts.length

def Writer.weight (s : Writer ω ε) : Nat := s.flush.weight + 12 * s.queue.length

/-- A turn of the writer itself, of its call or of its publication. -/
def Turn.isOwn : Turn ω ε → Bool
  | .answer _ | .publish _ | .go => true
  | .admitPart _ | .fail _ | .receive _ _ => false

section

variable (s)

theorem Writer.pump_weight (bound : Nat) (hflush : s.flush = .idle → 8 + 4 * s.queue.length ≤ bound ∨ s.queue = [])
    (hbnd : s.weight ≤ bound) : s.pump.weight ≤ bound := by
  obtain ⟨ps, fl, q, flush, unpublished, nst, log⟩ := s
  cases flush with
  | idle =>
    cases q with
    | nil => exact hbnd
    | cons part q =>
      have hsend := (hflush rfl).resolve_right (cons_ne_nil _ _)
      exact hsend
  | _ => exact hbnd

theorem Writer.admit_weight (spec : PartSpec ω) (h : s.flush = .idle → s.queue = []) :
    (s.admitPart spec).weight ≤ s.weight + 12 := by
  refine pump_weight _ _ (fun hidle => Or.inl ?_) ?_
  · have hque : s.queue = [] := h hidle
    simp [hque]
  · simp only [weight, length_append, length_singleton]
    omega

theorem Writer.next_weight (c : Call ω ε) : (s.next c).weight + 1 ≤ (s.goto (.next c)).weight := by
  unfold next
  split
  · split <;> simp [weight, goto, Flush.weight] <;> omega
  · rename_i part rest hrest
    split
    · simp only [weight, goto, Flush.weight, hrest, length_append, length_cons, length_nil]
      omega
    · by_cases hseq : (part.stored && (if part.stored = true then c.seqs c.storedIndex else none).isNone) = true
      · rw [if_pos hseq]
        simp only [weight, goto, Flush.weight, hrest, length_append, length_cons, length_nil]
        omega
      · rw [if_neg hseq]
        simp only [weight, goto, Flush.weight, hrest, length_cons]
        omega

theorem Writer.afterPublication_weight (c : Call ω ε) (part : Part ω) (fl : Option (PublishFailure ε)) :
    (s.afterPublication c part fl).weight + 1 ≤ (s.goto (.published c part fl)).weight := by
  unfold afterPublication
  split
  · have hlen : (fl.map fun fl => (⟨part, .own (.thrown fl.error), true⟩ : Failing ω ε)).toList.length ≤ 1 := by
      cases fl <;> simp
    simp only [weight, goto, Flush.weight, length_append]
    omega
  · split
    · simp only [weight, goto, Flush.weight, length_append, length_singleton]
      omega
    · simp only [weight, goto, Flush.weight, openGate, settle, emit]
      omega

end

/-- **A step of the writer brings it nearer to its end.** -/
theorem Writer.go_weight (h : s.go = some s') : s'.weight + 1 ≤ s.weight := by
  obtain ⟨ps, fl, q, flush, unpublished, nst, log⟩ := s
  cases flush with
  | idle => cases h
  | calling => cases h
  | publishing => cases h
  | next c =>
    cases h
    exact next_weight _ c
  | published c part fl =>
    cases h
    exact afterPublication_weight _ c part fl
  | send sent =>
    cases h
    unfold send
    split
    · simp only [weight, goto, Flush.weight]
      omega
    · split
      · simp only [weight, goto, Flush.weight]
        omega
      · simp only [weight, goto, emit, Flush.weight]
        omega
  | called sent seqs res =>
    cases h
    unfold called
    split
    · simp only [weight, goto, Flush.weight]
      omega
    · simp only [weight, goto, Flush.weight, length_nil]
      omega
  | unpublishing left err =>
    cases left with
    | nil =>
      cases h
      simp only [weight, goto, Flush.weight, length_nil]
      omega
    | cons part left =>
      cases h
      simp only [weight, goto, unpublish, openGate, unregister, settle, emit, Flush.weight, length_cons]
      omega
  | failing c =>
    cases h
    unfold failCall
    split <;> simp only [weight, goto, emit, fail, Flush.weight] <;> omega
  | settling left stop =>
    cases left with
    | nil =>
      cases h
      unfold dropQueued
      split <;> simp only [weight, goto, Flush.weight, length_nil] <;> omega
    | cons each left =>
      cases h
      unfold settleFailing
      split <;> simp only [weight, goto, unpublish, openGate, unregister, settle, emit, Flush.weight, length_cons] <;> omega
  | flushed =>
    cases h
    have hpump : (goto ⟨ps, fl, q, .flushed, unpublished, nst, log⟩ .idle).pump.weight ≤ 12 * q.length := by
      refine pump_weight _ _ (fun _ => ?_) ?_
      · rcases q with _ | ⟨part, q⟩
        · exact Or.inr rfl
        · refine Or.inl ?_
          simp only [goto, length_cons]
          omega
      · simp only [weight, goto, Flush.weight]
        omega
    refine Nat.le_trans (Nat.add_le_add_right hpump 1) ?_
    simp only [weight, Flush.weight]
    omega

theorem Writer.step_weight (hsound : Sound s) (h : s.step turn = some s') :
    s'.weight + (if turn.isOwn then 1 else 0) ≤ s.weight + 12 * turn.admitted?.toList.length := by
  cases turn with
  | admitPart spec =>
    cases h
    exact s.admit_weight spec hsound.idle
  | fail err =>
    cases h
    exact Nat.le_refl _
  | receive idx seq =>
    obtain ⟨ps, seqs, log, hflush, rfl⟩ := receive_cases h
    simp only [weight, hflush]
    exact Nat.le_refl _
  | answer res =>
    obtain ⟨ps, seqs, hflush, rfl⟩ := answer_cases h
    simp only [weight, goto, emit, hflush, Flush.weight, Turn.isOwn, if_pos]
    omega
  | publish fl =>
    obtain ⟨c, part, seq, hflush, rfl⟩ := publish_cases h
    unfold publication
    split
    · simp only [weight, goto, hflush, Flush.weight, Turn.isOwn, if_pos, length_append, length_singleton]
      omega
    · simp only [weight, goto, emit, unregister, hflush, Flush.weight, Turn.isOwn, if_pos]
      omega
  | go => exact go_weight h

/-- A writer that is not idle can go on, whatever its call and its publication come to. -/
theorem Writer.progress (s : Writer ω ε) (res : CallResult ε) (fl : Option (PublishFailure ε)) (h : s.flush ≠ .idle) :
    ∃ turn ∈ [Turn.go, .answer res, .publish fl], (s.step turn).isSome = true := by
  obtain ⟨ps, fd, q, flush, unpublished, nst, log⟩ := s
  cases flush with
  | idle => exact absurd rfl h
  | calling sent seqs => exact ⟨.answer res, by simp, rfl⟩
  | publishing c part seq => exact ⟨.publish fl, by simp, rfl⟩
  | unpublishing left err | settling left stop => cases left <;> exact ⟨.go, by simp, rfl⟩
  | _ => exact ⟨.go, by simp, rfl⟩

/-! ## Runs -/

variable {turns : List (Turn ω ε)}

theorem WriterRun.sound (h : WriterRun .new turns s) : Sound s :=
  h.invariant (fun hsound hstep => hsound.step hstep) .new

theorem WriterRun.admitted (h : WriterRun .new turns s) : s.parts.map (·.toPartSpec) = turns.filterMap Turn.admitted? := by
  induction h with
  | refl => rfl
  | @tail turns s s' turn hrun hstep ih =>
    rw [step_parts hstep, ih, filterMap_append, filterMap_cons, filterMap_nil]
    cases turn.admitted? <;> rfl

theorem WriterRun.weight (hsound : Sound s) (h : WriterRun s turns s') :
    s'.weight + turns.countP Turn.isOwn ≤ s.weight + 12 * (turns.filterMap Turn.admitted?).length := by
  have hrun : Sound s' ∧ s'.weight + turns.countP Turn.isOwn ≤ s.weight + 12 * (turns.filterMap Turn.admitted?).length := by
    induction h with
    | refl => exact ⟨hsound, Nat.le_refl _⟩
    | @tail turns t u turn hrun hstep ih =>
      refine ⟨ih.1.step hstep, ?_⟩
      have hone := step_weight ih.1 hstep
      have hturns : (turns ++ [turn]).filterMap Turn.admitted? = turns.filterMap Turn.admitted? ++ turn.admitted?.toList := by
        rw [filterMap_append, filterMap_cons, filterMap_nil]
        cases turn.admitted? <;> rfl
      rw [hturns, length_append, countP_append, countP_singleton]
      omega
  exact hrun.2

/-- **The writer never reorders, loses or settles twice.** In every run: the parts are the admitted ones, numbered in
order; whatever happened was legal where it happened; an idle writer has settled every part, opened its gate, and
published or discarded it; and one that is not idle becomes idle: it can go on, and only so often while nothing more is
admitted. -/
theorem writer_sound {turns : List (Turn ω ε)} (h : WriterRun .new turns s) :
    (s.parts.map (·.toPartSpec) = turns.filterMap Turn.admitted? ∧ s.parts.map (·.place) = List.range s.parts.length) ∧
      Lawful s.log ∧ publishedParts s.log <+: s.parts ∧
      (s.flush = .idle → settledParts s.log = s.parts ∧ openedParts s.log = s.parts ∧
        ∀ part ∈ s.parts, part ∈ publishedParts s.log ∨ part ∈ discardedParts s.log) ∧
      (s.flush ≠ .idle → ∀ result failure, ∃ turn ∈ [Turn.go, .answer result, .publish failure], (s.step turn).isSome = true) ∧
      ∃ bound, ∀ more s', WriterRun s more s' → more.countP Turn.isOwn ≤ bound + 12 * (more.filterMap Turn.admitted?).length := by
  have hsound := h.sound
  refine ⟨⟨h.admitted, hsound.core.places⟩, hsound.core.lawful, hsound.core.published, fun hidle => ?_,
    fun hbusy result failure => s.progress result failure hbusy, s.weight, fun more s' hmore => ?_⟩
  · -- Nothing is open in an idle writer.
    have horder := hsound.core.order
    rw [hsound.idle hidle, hidle] at horder
    have hsettled : settledParts s.log = s.parts := (append_nil _).symm.trans horder
    exact ⟨hsettled, hsound.core.opens.trans hsettled, fun part hpart => hsound.core.ended part (hsettled ▸ hpart)⟩
  · have hweight := hmore.weight hsound
    omega

/-- A part is stored, its call rejects after the receipt, and it is published all the same. -/
theorem writer_sound_rejected : ∃ (turns : List (Turn Unit Unit)) (s : Writer Unit Unit), WriterRun .new turns s ∧
    s.flush = .idle ∧ s.failure = some (.thrown ()) ∧ (publishedParts s.log).length = 1 ∧ settledParts s.log = s.parts ∧ Lawful s.log := by
  have hrun : WriterRun (.new : Writer Unit Unit) _ _ :=
    .head (l := .admitPart ⟨0, some (), ["a"]⟩) rfl <| .head (l := .go) rfl <| .head (l := .receive 0 7) rfl <|
    .head (l := .answer (.rejected ())) rfl <| .head (l := .go) rfl <| .head (l := .go) rfl <|
    .head (l := .publish none) rfl <| .head (l := .go) rfl <| .head (l := .go) rfl <|
    .head (l := .go) rfl <| .head (l := .go) rfl <| .head (l := .go) rfl <| .head (l := .go) rfl <|
    .head (l := .go) rfl refl
  obtain ⟨-, hlawful, -, hidle, -⟩ := writer_sound hrun
  exact ⟨_, _, hrun, rfl, rfl, rfl, (hidle rfl).1, hlawful⟩

end PiBridge.Durable
