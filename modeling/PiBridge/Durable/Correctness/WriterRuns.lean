import PiBridge.Durable.Correctness.WriterLog

/-!
# `Durable.Correctness.WriterRuns` — the writer publishes in order and settles everything

`Sound` holds of the writer between any two of its steps: the log is lawful, the parts whose outcome is open are those
of the call in flight and of the queue, in line order, and `Phase` says how far their publication has come. Every step
keeps it (`Sound.step`). Where the writer is idle nothing is open; and it does become idle, as each of its own steps
brings it nearer (`weight`).
-/

namespace PiBridge.Durable

open Lib List

variable {ω ε : Type}

/-! ## Where a call stands -/

/-- The parts of the call in flight whose outcome is open. -/
def Flush.pending : Flush ω ε → List (Part ω)
  | .idle | .flushed => []
  | .send parts | .calling parts _ | .called parts _ _ | .unpublishing parts _ => parts
  | .next call | .failing call => call.failing.map (·.part) ++ call.rest
  | .publishing call part _ | .published call part _ => call.failing.map (·.part) ++ part :: call.rest
  | .settling each _ => each.map (·.part)

/-- The parts taken from the queue and not sent yet. -/
def Flush.unsent : Flush ω ε → List (Part ω)
  | .send parts => parts
  | _ => []

/-- The seqs from `start` on are the receipts of the stored parts. -/
def Received (log : List (Event ω ε)) (parts : List (Part ω)) (seqs : Nat → Option Nat) (start : Nat) : Prop :=
  ∀ i part, (parts.filter Part.stored)[i]? = some part → seqs (start + i) = receipt log part.place

/-- A call that lost nothing. -/
def Fine (log : List (Event ω ε)) (parts : List (Part ω)) (result : CallResult ε) : Prop :=
  result.rejected? = none ∧ ∀ part ∈ parts, part.stored = true → (receipt log part.place).isSome = true

/-- The publication of a call: `here` is the part it has reached, `ran` the same once it is published. The failing parts
that were published come first, and are published beyond the settled ones. -/
structure CallOk (log : List (Event ω ε)) (call : Call ω ε) (here ran : List (Part ω)) : Prop where
  reached : ∃ passed, call.parts = passed ++ here ++ call.rest ∧
    (call.stop = none → ∀ part ∈ passed, part.stored = true → (receipt log part.place).isSome = true)
  received : Received log call.rest call.seqs call.storedIndex
  answers : ∀ parts result, Event.answered parts result ∈ log → (parts = call.parts ∧ call.result = some result) ∨ Fine log parts result
  failing : ∃ kept dropped, call.failing = kept ++ dropped ∧ (∀ each ∈ kept, each.published = true) ∧
    (∀ each ∈ dropped, each.published = false) ∧ (call.stop = none → dropped = []) ∧
    publishedParts log = settledParts log ++ kept.map (·.part) ++ ran
  quiet : call.stop = none → call.rejected = none → call.failing = []

/-- No adoption threw. -/
def Adopted (log : List (Event ω ε)) : Prop := ∀ event ∈ log, event.adoptionFails = false

/-- Between two calls: nothing open was published, and nothing was lost unless the Session failed. -/
def Between (log : List (Event ω ε)) (failure : Option (WriterError ε)) : Prop :=
  publishedParts log <+: settledParts log ∧ (failure = none → publishedParts log = settledParts log ∧ Intact log)

/-- What holds at each wait. -/
def Phase (log : List (Event ω ε)) (failure : Option (WriterError ε)) : Flush ω ε → Prop
  | .idle | .flushed | .send _ => Between log failure
  | .calling parts seqs => Between log failure ∧ Received log parts seqs 0
  | .called parts seqs result =>
    publishedParts log <+: settledParts log ∧ Received log parts seqs 0 ∧
      (failure = none → publishedParts log = settledParts log ∧ Adopted log ∧ ∀ parts' result', Event.answered parts' result' ∈ log →
          (parts' = parts ∧ result = some result') ∨ Fine log parts' result')
  | .unpublishing _ _ => failure ≠ none ∧ publishedParts log <+: settledParts log
  | .next call => CallOk log call [] [] ∧ (call.stop = none → Adopted log)
  | .publishing call part seq =>
    CallOk log call [part] [] ∧ call.stop = none ∧ Adopted log ∧ seq = receipt log part.place ∧ seq.isSome = part.stored
  | .published call part result =>
    CallOk log call [part] [part] ∧ call.stop = none ∧ (part.stored = true → (receipt log part.place).isSome = true) ∧
      ∀ event ∈ log, event.adoptionFails = true → result.any (·.kind = .adoption) = true
  | .failing call => CallOk log call [] [] ∧ call.rest = [] ∧ (call.rejected.isSome = true ∨ call.stop.isSome = true)
  | .settling failing _ =>
    (∃ kept dropped, failing = kept ++ dropped ∧ (∀ each ∈ kept, each.published = true) ∧
      (∀ each ∈ dropped, each.published = false) ∧
      (publishedParts log = settledParts log ++ kept.map (·.part) ∨ (kept = [] ∧ publishedParts log <+: settledParts log))) ∧
    (failing ≠ [] → failure ≠ none) ∧ (failure = none → publishedParts log = settledParts log ∧ Intact log)

/-- **The invariant.** -/
structure Sound (s : Writer ω ε) : Prop where
  core : Core s.parts s.log (s.flush.pending ++ s.queue)
  failures : s.failure = none → ∀ event ∈ s.log, event.isFailure = false
  fresh : ∀ part ∈ s.flush.unsent ++ s.queue, receipt s.log part.place = none
  idle : s.flush = .idle → s.queue = []
  phase : Phase s.log s.failure s.flush

theorem Sound.new : Sound (Writer.new : Writer ω ε) where
  core := .new
  failures := nofun
  fresh := forall_mem_nil _
  idle _ := rfl
  phase := ⟨ nil_prefix, fun _ => ⟨rfl, nofun, nofun⟩⟩

/-- A wait for another, with nothing said in between. -/
theorem Sound.goto {s : Writer ω ε} (h : Sound s) {flush : Flush ω ε} (hpend : flush.pending = s.flush.pending)
    (hunsent : flush.unsent = []) (hidle : flush ≠ .idle) (hphase : Phase s.log s.failure flush) : Sound (s.goto flush) where
  core := by
    show Core s.parts s.log (flush.pending ++ s.queue)
    rw [hpend]
    exact h.core
  failures := h.failures
  fresh part hpart := by
    refine h.fresh part (mem_append_right _ ?_)
    have hmem : part ∈ flush.unsent ++ s.queue := hpart
    rwa [hunsent] at hmem
  idle heq := absurd heq hidle
  phase := hphase

/-! ## Events that say nothing about a part -/

section Neutral

variable {log : List (Event ω ε)} {event : Event ω ε}

/-- An event that receives and answers nothing, and no adoption that throws. -/
structure Event.Silent (event : Event ω ε) : Prop where
  receipt : ∀ place old, event.receiptOf place old = old
  answer : ∀ parts result, event ≠ .answered parts result
  adopts : event.adoptionFails = false

/-- A silent event that publishes and ends nothing. -/
structure Event.Neutral (event : Event ω ε) : Prop extends Event.Silent event where
  published : event.published? = none
  discarded : event.discarded? = none
  settled : event.settled? = none
  opened : event.opened? = none

section Silent

variable (hevent : event.Silent)

include hevent

theorem Event.Silent.receipt_append (pl : Nat) : Durable.receipt (log ++ [event]) pl = Durable.receipt log pl := by
  simp [hevent.receipt]

variable {parts : List (Part ω)}

theorem Event.Silent.fine {res : CallResult ε} (h : Fine log parts res) : Fine (log ++ [event]) parts res :=
  ⟨h.1, fun part hpart hsto => by rw [hevent.receipt_append]; exact h.2 part hpart hsto⟩

theorem Event.Silent.received {seqs : Nat → Option Nat} {st : Nat}
    (h : Received log parts seqs st) : Received (log ++ [event]) parts seqs st := by
  intro i part hpart
  rw [hevent.receipt_append]
  exact h i part hpart

theorem Event.Silent.adopted (h : Adopted log) : Adopted (log ++ [event]) := by
  intro oth hoth
  rcases mem_snoc.mp hoth with hoth | rfl
  · exact h oth hoth
  · exact hevent.adopts

theorem Event.Silent.mem_answered {res : CallResult ε}
    (h : Event.answered parts res ∈ log ++ [event]) : Event.answered parts res ∈ log := by
  rcases mem_append.mp h with h | h
  · exact h
  · exact absurd (mem_singleton.mp h).symm (hevent.answer parts res)

theorem Event.Silent.intact (h : Intact log) : Intact (log ++ [event]) := h.append hevent.adopts hevent.answer

/-- What a call knows of its parts stays, where its failing ones are told anew. -/
theorem Event.Silent.callOk {c : Call ω ε} {here ran here' ran' : List (Part ω)} (h : CallOk log c here ran)
    (hfailing : ∃ kept drp, c.failing = kept ++ drp ∧ (∀ each ∈ kept, each.published = true) ∧
      (∀ each ∈ drp, each.published = false) ∧ (c.stop = none → drp = []) ∧
      publishedParts (log ++ [event]) = settledParts (log ++ [event]) ++ kept.map (·.part) ++ ran')
    (hhere : here' = here) : CallOk (log ++ [event]) c here' ran' where
  reached := by
    obtain ⟨passed, hpts, hpassed⟩ := h.reached
    rw [hhere]
    refine ⟨passed, hpts, fun hstop part hpart hsto => ?_⟩
    rw [hevent.receipt_append]
    exact hpassed hstop part hpart hsto
  received := hevent.received h.received
  answers parts result hansw := (h.answers parts result (hevent.mem_answered hansw)).imp_right hevent.fine
  failing := hfailing
  quiet := h.quiet

end Silent

variable (hevent : event.Neutral)

include hevent

theorem Event.Neutral.publishedParts : publishedParts (log ++ [event]) = Durable.publishedParts log := publishedParts_event hevent.published

theorem Event.Neutral.settledParts : settledParts (log ++ [event]) = Durable.settledParts log := settledParts_event hevent.settled

theorem Event.Neutral.callOk {c : Call ω ε} {here ran : List (Part ω)} (h : CallOk log c here ran) :
    CallOk (log ++ [event]) c here ran := by
  refine hevent.toSilent.callOk h ?_ rfl
  rw [hevent.publishedParts, hevent.settledParts]
  exact h.failing

theorem Event.Neutral.between {fl fl' : Option (WriterError ε)} (h : Between log fl)
    (hfails : fl' = none → fl = none) : Between (log ++ [event]) fl' := by
  unfold Between
  rw [hevent.publishedParts, hevent.settledParts]
  exact ⟨h.1, fun hnone => ⟨(h.2 (hfails hnone)).1, hevent.toSilent.intact (h.2 (hfails hnone)).2⟩⟩

/-- The Session may fail at any wait. -/
theorem Event.Neutral.phase {fl fl' : Option (WriterError ε)} {flush : Flush ω ε} (h : Phase log fl flush)
    (hfailure : fl' = none → fl = none) : Phase (log ++ [event]) fl' flush := by
  cases flush with
  | idle => exact hevent.between h hfailure
  | flushed => exact hevent.between h hfailure
  | send parts => exact hevent.between h hfailure
  | calling parts seqs => exact ⟨hevent.between h.1 hfailure, hevent.toSilent.received h.2⟩
  | called parts seqs res =>
    obtain ⟨hbegins, hrecv, hnone⟩ := h
    refine ⟨?_, hevent.toSilent.received hrecv, fun hfail => ?_⟩
    · rw [hevent.publishedParts, hevent.settledParts]
      exact hbegins
    · obtain ⟨heq, hadopted, hans⟩ := hnone (hfailure hfail)
      rw [hevent.publishedParts, hevent.settledParts]
      exact ⟨heq, hevent.toSilent.adopted hadopted, fun parts' res' hansw =>
        (hans parts' res' (hevent.toSilent.mem_answered hansw)).imp_right hevent.toSilent.fine⟩
  | unpublishing parts err =>
    refine ⟨fun hnone => h.1 (hfailure hnone), ?_⟩
    rw [hevent.publishedParts, hevent.settledParts]
    exact h.2
  | next c => exact ⟨hevent.callOk h.1, fun hstop => hevent.toSilent.adopted (h.2 hstop)⟩
  | publishing c part seq =>
    obtain ⟨hcall, hstop, hadopted, hseq, hsto⟩ := h
    refine ⟨hevent.callOk hcall, hstop, hevent.toSilent.adopted hadopted, ?_, hsto⟩
    rw [hevent.toSilent.receipt_append]
    exact hseq
  | published c part res =>
    obtain ⟨hcall, hstop, hrcpt, hadopts⟩ := h
    refine ⟨hevent.callOk hcall, hstop, fun hsto => ?_, fun oth hoth hfails => ?_⟩
    · rw [hevent.toSilent.receipt_append]
      exact hrcpt hsto
    · rcases mem_snoc.mp hoth with hoth | rfl
      · exact hadopts oth hoth hfails
      · rw [hevent.adopts] at hfails
        cases hfails
  | failing c => exact ⟨hevent.callOk h.1, h.2⟩
  | settling failing stop =>
    obtain ⟨hfailing, hfail, hnone⟩ := h
    unfold Phase
    rw [hevent.publishedParts, hevent.settledParts]
    exact ⟨hfailing, fun hne heq => hfail hne (hfailure heq),
      fun heq => ⟨(hnone (hfailure heq)).1, hevent.toSilent.intact (hnone (hfailure heq)).2⟩⟩

end Neutral

end PiBridge.Durable
