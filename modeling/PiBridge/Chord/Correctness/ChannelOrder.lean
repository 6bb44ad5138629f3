import PiBridge.Chord.Link.Channel

/-!
# `Chord.Correctness.ChannelOrder` — what a channel sends, delivers and holds

`Sends`: nothing but `hello` goes out before the peer's, and then what the owner sent, in order. `Delivers`:
what arrived is what the handler was given, and then what is held. Both hold of every run.

`Waits` says that the handler is never given a message while a promise is pending. A message that arrives
*during* a call of the handler is handled at once, inside that call; if both return a promise, two are
pending and one flag stands for both, so the first to settle releases what is held
(`nested_promise_releases_early`). `Alone` is the condition on a step that rules this out.
-/

namespace PiBridge.Chord.Channel

open Lib List Option

variable {M : Type} {c c' : Channel M}

/-! ## What the bookkeeping means -/

/-- The messages for the handler. -/
def messages (bytes : List (Incoming M)) : List M :=
  bytes.filterMap fun
    | .message m => some m
    | _ => none

/-- What is held and not yet handled. -/
def unhandled (c : Channel M) : List (Incoming M) :=
  match c.held with
  | none => []
  | some (queue, next) => queue.drop next

/-- What the owner sent and the link took. -/
def own (out : List (Sent M)) : List M :=
  out.filterMap fun
    | .message m => some m
    | _ => none

/-- What `#greet` has yet to send. -/
def unsent : List (Frame M) → List M
  | .flush rest :: _ => rest
  | _ => []

@[simp] theorem messages_append (bs bs' : List (Incoming M)) : messages (bs ++ bs') = messages bs ++ messages bs' := by
  simp [messages]

@[simp] theorem own_append (out out' : List (Sent M)) : own (out ++ out') = own out ++ own out' := by
  simp [own]

/-- A frame that can be on the stack before the handshake. -/
def Frame.isEarly : Frame M → Bool
  | .linkClose | .report => true
  | _ => false

def Frame.isFlush : Frame M → Bool
  | .flush _ => true
  | _ => false

def Frame.isRelease : Frame M → Bool
  | .release _ => true
  | _ => false

/-! ## The invariants -/

structure Sends (c : Channel M) : Prop where
  greeting : ∀ queued, c.state = .greeting queued →
    (c.out = [] ∨ c.out = [.hello]) ∧ (c.started = false → c.out = []) ∧ queued = c.requested
  early : ∀ queued, c.state = .greeting queued → c.pending = [] ∧ ∀ frame ∈ c.frames, frame.isEarly = true
  opened : ∀ peer calls, c.state = .opened peer calls →
    own c.out ++ unsent c.frames = c.requested ∧ ∀ frame ∈ c.frames.tail, frame.isFlush = false
  closed : c.isClosed = true → own c.out <+: c.requested

structure Delivers (c : Channel M) : Prop where
  greeting : ∀ queued, c.state = .greeting queued → c.arrived = [] ∧ c.received = [] ∧ c.held = none
  opened : ∀ peer calls, c.state = .opened peer calls → messages c.arrived = c.received ++ messages c.unhandled
  closed : c.isClosed = true → c.received <+: messages c.arrived
  next : ∀ queue next, c.held = some (queue, next) → next ≤ queue.length
  closedCalls : c.closedCalls = if c.isClosed then 1 else 0

/-- It holds of a run in which a promise is returned only while none is pending (`Alone`). -/
structure Waits (c : Channel M) : Prop where
  overlapped : c.overlapped = false
  one : c.pending.length ≤ 1
  idle : c.isClosed = false → c.held = none → c.waiting = false
  settled : c.isClosed = false → c.waiting = false → c.pending = []
  head : c.isClosed = false → ∀ fs, c.frames = .release false :: fs → c.waiting = false
  buried : c.isClosed = false → ∀ frame ∈ c.frames.tail, frame ≠ .release false
  drained : c.isClosed = false → c.waiting = false → c.held ≠ none → ∃ frame ∈ c.frames, frame.isRelease = true

def Action.isPromises : Action M → Bool
  | .promises => true
  | _ => false

/-- A promise is returned only while none is pending. -/
def Alone (c : Channel M) (a : Action M) : Prop := a.isPromises = true → c.pending = []

instance (c : Channel M) (a : Action M) : Decidable (Alone c a) := inferInstanceAs (Decidable (_ → _))

/-! ## A protocol error -/

section Failed

@[simp] theorem failed_isClosed : c.failed.isClosed = c.isClosed := by unfold failed; split <;> rfl
@[simp] theorem failed_received : c.failed.received = c.received := by unfold failed; split <;> rfl

/-- A protocol error puts the reporter on the stack, and changes nothing else. -/
theorem failed_eq : c.failed = c ∨ (c.isClosed = false ∧ c.failed = { c with frames := .report :: c.frames }) := by
  unfold failed
  split
  · exact Or.inl rfl
  · rename_i h
    exact Or.inr ⟨by simpa using h, rfl⟩

end Failed

/-! ## What a step does -/

/-- What one step does, with the guards that the invariants need. -/
inductive Moves (c : Channel M) : Action M → Channel M → Prop
  | stays {a : Action M} : Moves c a c
  | starts (hstarted : c.started = false) : Moves c .start { c with started := true, out := c.out ++ [.hello] }
  | queues {m : M} {queued : List M} (hstate : c.state = .greeting queued) :
      Moves c (.send m) { c with state := .greeting (queued ++ [m]), requested := c.requested ++ [m] }
  | sends {m : M} {peer : String} {calls : Nat} (hruns : c.ownerRuns = true) (hstate : c.state = .opened peer calls) :
      Moves c (.send m) { c with out := c.out ++ [.message m], requested := c.requested ++ [m] }
  | closes (hruns : c.ownerRuns = true) : Moves c .close { c with frames := .linkClose :: c.frames }
  | pings {peer : String} {calls : Nat} (hstate : c.state = .opened peer calls) : Moves c .tick { c with pinged := true, out := c.out ++ [.ping] }
  | receives {bytes : Incoming M} (hruns : c.ownerRuns = true) : Moves c (.receive bytes) (c.receive bytes)
  | linkCloses (hopen : c.isClosed = false) : Moves c .linkClosed
      { c with state := .closed, held := none, frames := .closed :: c.frames, closedCalls := c.closedCalls + 1 }
  | returns {a : Action M} {frame : Frame M} {fs : List (Frame M)} (hframes : c.frames = frame :: fs)
      (hflush : frame.isFlush = false) (hrelease : frame.isRelease = false) : Moves c a { c with frames := fs }
  | reports {fs : List (Frame M)} (hframes : c.frames = .report :: fs) : Moves c .returns { c with frames := .linkClose :: fs }
  | promises {number : Nat} {fs : List (Frame M)} (hframes : c.frames = .message number :: fs) :
      Moves c .promises ({ c with frames := fs }.hold number)
  | throws {frame : Frame M} {fs : List (Frame M)} (hframes : c.frames = frame :: fs) (hflush : frame.isFlush = false)
      (hrelease : frame.isRelease = false) : Moves c .throws { c with frames := fs }.failed
  | resolves {number : Nat} (hframes : c.frames = []) (hpending : number ∈ c.pending) : Moves c (.resolves number)
      { c with pending := c.pending.erase number, waiting := false, frames := [.release false] }
  | rejects {number : Nat} (hframes : c.frames = []) (hpending : number ∈ c.pending) :
      Moves c (.rejects number) { c with pending := c.pending.erase number }.failed
  | stops {fs : List (Frame M)} (hframes : c.frames = .release false :: fs)
      (hnone : c.held = none ∨ ∀ peer calls, c.state ≠ .opened peer calls) : Moves c .advance { c with frames := fs }
  | handles {peer : String} {calls next : Nat} {queue : List (Incoming M)} {fs : List (Frame M)}
      (hframes : c.frames = .release false :: fs) (hheld : c.held = some (queue, next)) (hlt : next < queue.length) (hstate : c.state = .opened peer calls) : Moves c .advance
        ({ c with held := some (queue, next + 1), frames := .release true :: fs }.handle (queue.get ⟨next, hlt⟩))
  | empties {queue : List (Incoming M)} {next : Nat} {fs : List (Frame M)} (hframes : c.frames = .release false :: fs)
      (hheld : c.held = some (queue, next)) (hge : queue.length ≤ next) : Moves c .advance { c with held := none, frames := fs }
  | waits {fs : List (Frame M)} (hframes : c.frames = .release true :: fs) (hwaiting : c.waiting = true) : Moves c .advance
      { c with held := c.held.map fun (queue, next) => (queue.drop next, 0), frames := fs }
  | loops {fs : List (Frame M)} (hframes : c.frames = .release true :: fs) (hwaiting : c.waiting = false) :
      Moves c .advance { c with frames := .release false :: fs }
  | flushes {m : M} {rest : List M} {fs : List (Frame M)} (hframes : c.frames = .flush (m :: rest) :: fs) : Moves c .advance
      { c with frames := .flush rest :: fs, out := if c.isClosed then c.out else c.out ++ [.message m] }
  | flushed {fs : List (Frame M)} (hframes : c.frames = .flush [] :: fs) : Moves c .advance { c with frames := .opened :: fs }

theorem moves_advance (hstep : c.advance = some c') : c.Moves .advance c' := by
  unfold advance at hstep
  split at hstep
  · rename_i hfrs
    split at hstep
    · cases hstep
      exact .stops hfrs (.inl ‹_›)
    · rename_i hheld
      split at hstep
      · rename_i hlt
        split at hstep
        · cases hstep
          exact .handles hfrs hheld hlt ‹_›
        · cases hstep
          exact .stops hfrs (.inr ‹_›)
      · rename_i hge
        cases hstep
        exact .empties hfrs hheld (Nat.not_lt.mp hge)
  · rename_i hfrs
    split at hstep
    · cases hstep
      exact .waits hfrs ‹_›
    · rename_i hwait
      cases hstep
      exact .loops hfrs (Bool.eq_false_iff.mpr hwait)
  · cases hstep
    exact .flushes ‹_›
  · cases hstep
    exact .flushed ‹_›
  · cases hstep

theorem moves {a : Action M} (hstep : c.next a = some c') : c.Moves a c' := by
  have hidle : ∀ {number : Nat}, (c.frames.isEmpty && c.pending.contains number) = true → c.frames = [] ∧ number ∈ c.pending := by simp
  cases a
  case advance => exact moves_advance hstep
  all_goals
    simp only [next] at hstep
    repeat' split at hstep
  all_goals cases hstep
  -- What is left is one goal for each way that an action can go.
  · exact .starts (by simp_all)
  · exact .stays
  · exact .queues ‹_›
  · exact .sends ‹_› ‹_›
  · exact .closes ‹_›
  · exact .stays
  · exact .pings ‹_›
  · exact .stays
  · exact .receives (by simp_all)
  · exact .stays
  · exact .linkCloses (by simp_all)
  · exact .returns ‹_› rfl rfl
  · exact .returns ‹_› rfl rfl
  · exact .returns ‹_› rfl rfl
  · exact .reports ‹_›
  · exact .promises ‹_›
  · exact .throws ‹_› rfl rfl
  · exact .throws ‹_› rfl rfl
  · exact .returns ‹_› rfl rfl
  · exact .resolves (hidle ‹_›).1 (hidle ‹_›).2
  · exact .rejects (hidle ‹_›).1 (hidle ‹_›).2

theorem isClosed_iff : c.isClosed = true ↔ c.state = .closed := by
  unfold isClosed
  cases c.state <;> simp

theorem isClosed_false_of_greeting {qd : List M} (h : c.state = .greeting qd) : c.isClosed = false := by
  unfold isClosed
  rw [h]

variable {peer : String} {calls : Nat} {fs : List (Frame M)} {frame : Frame M} {a : Action M} {as : List (Action M)}

theorem isClosed_false_of_opened (h : c.state = .opened peer calls) : c.isClosed = false := by
  unfold isClosed
  rw [h]

/-! ## Sends -/

/-- No flush is under way. -/
def Quiet (c : Channel M) : Prop := c.isClosed = false → ∀ frame ∈ c.frames, frame.isFlush = false

theorem unsent_of_noFlush (h : ∀ frame ∈ fs, frame.isFlush = false) : unsent fs = [] := by
  match fs, h with
  | [], _ => rfl
  | .flush rest :: fs, h => exact absurd (h (.flush rest) (by simp)) (by simp [Frame.isFlush])
  | .message _ :: _, _ | .release _ :: _, _ | .opened :: _, _ | .report :: _, _ | .linkClose :: _, _
  | .closed :: _, _ => rfl

theorem not_isFlush_of_isEarly (h : frame.isEarly = true) : frame.isFlush = false := by
  cases frame <;> first | rfl | exact nomatch h

theorem Sends.quiet (h : Sends c) (htop : ∀ frame fs, c.frames = frame :: fs → frame.isFlush = false) : c.Quiet := by
  intro hopen frame hfrm
  cases hst : c.state with
  | greeting qd => exact not_isFlush_of_isEarly ((h.early qd hst).2 frame hfrm)
  | closed => exact absurd (isClosed_iff.2 hst) (by simp [hopen])
  | opened peer calls =>
    have hall := (h.opened peer calls hst).2
    cases hfrs : c.frames with
    | nil => simp [hfrs] at hfrm
    | cons top fs =>
      rw [hfrs] at hfrm hall
      rcases mem_cons.mp hfrm with rfl | hmem
      · exact htop frame fs hfrs
      · exact hall frame hmem

theorem Sends.quiet_of_ownerRuns (h : Sends c) (hruns : c.ownerRuns = true) : c.Quiet := by
  apply h.quiet
  intro frame fs hfrs
  unfold ownerRuns at hruns
  rw [hfrs] at hruns
  cases frame <;> first | rfl | exact absurd hruns (by simp [Frame.isOwner])

/-- Frames that hold no flush take the place of frames that hold none. -/
theorem Sends.frames (h : Sends c) (hqui : c.Quiet) (hqui' : Quiet { c with frames := fs })
    (hearly : ∀ qd, c.state = .greeting qd → ∀ frame ∈ fs, frame.isEarly = true) : Sends { c with frames := fs } := by
  refine ⟨h.greeting, ?_, ?_, h.closed⟩
  · intro qd hst
    exact ⟨(h.early qd hst).1, hearly qd hst⟩
  · intro peer calls hst
    have hopen : c.isClosed = false := isClosed_false_of_opened hst
    have hown := (h.opened peer calls hst).1
    rw [unsent_of_noFlush (hqui hopen)] at hown
    rw [unsent_of_noFlush (hqui' hopen)]
    exact ⟨hown, fun frame hfrm => hqui' hopen frame (mem_of_mem_tail hfrm)⟩

theorem Sends.push (h : Sends c) (hqui : c.Quiet) {frame : Frame M} (hflush : frame.isFlush = false)
    (hearly : ∀ qd, c.state = .greeting qd → frame.isEarly = true) :
    Sends { c with frames := frame :: c.frames } := by
  apply h.frames hqui
  · intro hopen f hf
    rcases mem_cons.mp hf with rfl | hf
    · exact hflush
    · exact hqui hopen f hf
  · intro qd hst f hf
    rcases mem_cons.mp hf with rfl | hf
    · exact hearly qd hst
    · exact (h.early qd hst).2 f hf

section

variable (h : Sends c)

include h

/-- The frame on top, which is no flush, returns. -/
theorem Sends.pop (hfrs : c.frames = frame :: fs)
    (hflush : frame.isFlush = false) : Sends { c with frames := fs } ∧ Quiet { c with frames := fs } := by
  have hqui : c.Quiet := by
    apply h.quiet
    intro frame' fs' hfrs'
    cases hfrs.symm.trans hfrs'
    exact hflush
  have hqui' : Quiet { c with frames := fs } := by
    intro hopen f hf
    apply hqui hopen
    simp [hfrs, hf]
  refine ⟨h.frames hqui hqui' ?_, hqui'⟩
  intro qd hst f hf
  apply (h.early qd hst).2
  simp [hfrs, hf]

/-- A frame of the handler is on top only after the handshake. -/
theorem Sends.not_greeting (hfrs : c.frames = frame :: fs)
    (hearly : frame.isEarly = false) (qd : List M) : c.state ≠ .greeting qd := by
  intro hst
  have htrue := (h.early qd hst).2 frame (by simp [hfrs])
  rw [hearly] at htrue
  exact nomatch htrue

/-- A control message goes out, or none. -/
theorem Sends.control {out : List (Sent M)} (hown : own out = [])
    (hnot : ∀ qd, c.state ≠ .greeting qd) : Sends { c with out := c.out ++ out } := by
  refine ⟨fun qd hst => absurd hst (hnot qd), h.early, ?_, ?_⟩
  · intro peer calls hst
    obtain ⟨hout, hall⟩ := h.opened peer calls hst
    exact ⟨by simpa [hown] using hout, hall⟩
  · intro hclo
    simpa [hown] using h.closed hclo

theorem Sends.failed (hqui : c.Quiet) : Sends c.failed := by
  rcases failed_eq (c := c) with heq | ⟨-, heq⟩
  · rw [heq]
    exact h
  · rw [heq]
    have hreport : Frame.isFlush (.report : Frame M) = false := rfl
    exact h.push hqui hreport (fun _ _ => rfl)

/-- `Quiet` makes the peer's `hello` the start of the flush. -/
theorem Sends.greet (hqui : c.Quiet) {qd : List M} (hst : c.state = .greeting qd)
    (bs : Incoming M) : Sends (c.greet qd bs) := by
  cases bs with
  | hello protocol incarnation calls =>
    simp only [Channel.greet]
    split
    · obtain ⟨hout, -, hqueu⟩ := h.greeting qd hst
      have hown : own c.out = [] := by rcases hout with hout | hout <;> rw [hout] <;> rfl
      refine ⟨nofun, nofun, ?_, fun hs => absurd hs (by simp [isClosed])⟩
      intro peer calls' _
      rw [hown]
      exact ⟨hqueu, hqui (isClosed_false_of_greeting hst)⟩
    · exact h.failed hqui
  | ping | pong | message _ | invalid => exact h.failed hqui

theorem Sends.handle (hqui : c.Quiet) (bs : Incoming M) : Sends (c.handle bs) := by
  unfold Channel.handle
  split
  · rename_i qd hst
    exact h.greet hqui hst bs
  · rename_i hnot
    cases bs with
    | hello _ _ _ | invalid => exact h.failed hqui
    | pong => exact h
    | ping => exact h.control rfl hnot
    | message m =>
      have hpush : Sends { c with frames := .message c.received.length :: c.frames } :=
        h.push hqui rfl (fun qd hst => absurd hst (hnot qd))
      exact { hpush with }

theorem Sends.receive (hqui : c.Quiet) (bs : Incoming M) : Sends (c.receive bs) := by
  have hpinged : Sends { c with pinged := false } := { h with }
  have harrived : Sends { c with pinged := false, arrived := c.arrived ++ [bs] } := { h with }
  unfold Channel.receive
  split
  · exact h
  · split
    · exact hpinged.handle hqui bs
    · exact { h with }
  · split
    · exact harrived.handle hqui bs
    · exact { h with }

/-- The frame on top, which is no flush, is replaced by one that is none. -/
theorem Sends.replace {frame' : Frame M}
    (hfrs : c.frames = frame :: fs) (hflush : frame.isFlush = false) (hflush' : frame'.isFlush = false)
    (hearly : frame.isEarly = true → frame'.isEarly = true) : Sends { c with frames := frame' :: fs } := by
  obtain ⟨hpop, hqui⟩ := h.pop hfrs hflush
  apply hpop.push hqui hflush'
  intro qd hst
  exact hearly ((h.early qd hst).2 frame (by simp [hfrs]))

/-- **Step lemma.** -/
theorem Sends.next (hstep : c.next a = some c') : Sends c' := by
  cases moves hstep with
  | stays => exact h
  | starts hstarted =>
    refine ⟨?_, h.early, ?_, fun hclo => by simpa [own] using h.closed hclo⟩
    · intro qd hst
      obtain ⟨-, hout, hqueu⟩ := h.greeting qd hst
      exact ⟨Or.inr (by rw [hout hstarted]; rfl), nofun, hqueu⟩
    · intro peer calls hst
      obtain ⟨hown, hall⟩ := h.opened peer calls hst
      exact ⟨by simpa [own] using hown, hall⟩
  | queues hst =>
    obtain ⟨hout, hstarted, hqueu⟩ := h.greeting _ hst
    refine ⟨?_, fun _ _ => h.early _ hst, nofun, nofun⟩
    rintro _ ⟨⟩
    exact ⟨hout, hstarted, by rw [hqueu]⟩
  | sends hruns hst =>
    refine ⟨fun qd hs => (nomatch hst.symm.trans hs), h.early, ?_, fun hclo => ?_⟩
    · intro peer calls hs
      obtain ⟨hown, hall⟩ := h.opened peer calls hs
      have hunsent : unsent c.frames = [] := unsent_of_noFlush (h.quiet_of_ownerRuns hruns (isClosed_false_of_opened hst))
      refine ⟨?_, hall⟩
      rw [hunsent, append_nil] at hown
      rw [hunsent, append_nil, own_append, hown]
      rfl
    · exact absurd hclo (by simp [isClosed, hst])
  | closes hruns => exact h.push (h.quiet_of_ownerRuns hruns) rfl (fun _ _ => rfl)
  | pings hst =>
    have hping : Sends { c with out := c.out ++ [.ping] } := h.control rfl (fun qd hs => (nomatch hst.symm.trans hs))
    exact { hping with }
  | receives hruns => exact h.receive (h.quiet_of_ownerRuns hruns) _
  | linkCloses hopen =>
    refine ⟨nofun, nofun, nofun, fun _ => ?_⟩
    cases hst : c.state with
    | greeting qd => rcases (h.greeting qd hst).1 with hout | hout <;> simp [hout, own]
    | opened peer calls => exact ⟨_, (h.opened peer calls hst).1⟩
    | closed => exact absurd (isClosed_iff.2 hst) (by simp [hopen])
  | returns hfrs hflush => exact (h.pop hfrs hflush).1
  | reports hfrs => exact h.replace hfrs rfl rfl (fun _ => rfl)
  | promises hfrs => exact { (h.pop hfrs rfl).1 with early := fun qd hs => absurd hs (h.not_greeting hfrs rfl qd) }
  | throws hfrs hflush => exact (h.pop hfrs hflush).1.failed (h.pop hfrs hflush).2
  | resolves hfrs hpend =>
    have hnot : ∀ qd, c.state ≠ .greeting qd := by
      intro qd hst
      rw [(h.early qd hst).1] at hpend
      cases hpend
    have hpush : Sends { c with frames := [.release false] } := h.frames (h.quiet (by simp [hfrs])) (fun _ f hf => by
      obtain rfl := mem_singleton.mp hf
      rfl) (fun qd hst => absurd hst (hnot qd))
    exact { hpush with early := fun qd hs => absurd hs (hnot qd) }
  | @rejects number hfrs =>
    have hsett : Sends { c with pending := c.pending.erase number } := { h with
      early := fun qd hst => ⟨by simp [(h.early qd hst).1], (h.early qd hst).2⟩ }
    exact hsett.failed (hsett.quiet (by simp [hfrs]))
  | stops hfrs => exact (h.pop hfrs rfl).1
  | @handles _ _ next q fs hfrs =>
    have hmoved : Sends { c with frames := .release true :: fs } := h.replace hfrs rfl rfl nofun
    have hnext : Sends { c with held := some (q, next + 1), frames := .release true :: fs } := { hmoved with }
    apply hnext.handle
    apply hnext.quiet
    rintro _ _ ⟨⟩
    rfl
  | empties hfrs | waits hfrs => exact { (h.pop hfrs rfl).1 with }
  | loops hfrs => exact h.replace hfrs rfl rfl nofun
  | flushes hfrs =>
    have hnot := h.not_greeting hfrs rfl
    refine ⟨fun qd hs => absurd hs (hnot qd), fun qd hs => absurd hs (hnot qd), ?_, ?_⟩
    · intro peer calls hst
      obtain ⟨hown, hall⟩ := h.opened peer calls hst
      rw [hfrs] at hown hall
      refine ⟨?_, hall⟩
      have hopen : c.isClosed = false := isClosed_false_of_opened hst
      simpa [hopen, own, unsent] using hown
    · intro hclo
      have hclo' : c.isClosed = true := hclo
      simpa [hclo'] using h.closed hclo'
  | flushed hfrs =>
    refine ⟨h.greeting, fun qd hs => absurd hs (h.not_greeting hfrs rfl qd), ?_, h.closed⟩
    intro peer calls hst
    obtain ⟨hown, hall⟩ := h.opened peer calls hst
    rw [hfrs] at hown hall
    exact ⟨hown, hall⟩

end

/-! ## Delivers -/

/-- What a state owes its handler when it is about to handle `bytes`. -/
structure Owes (c : Channel M) (bytes : Incoming M) : Prop where
  isOpen : c.isClosed = false
  greeting : ∀ queued, c.state = .greeting queued → c.arrived = [] ∧ c.received = [] ∧ c.held = none
  opened : ∀ peer calls, c.state = .opened peer calls → messages c.arrived = c.received ++ messages (bytes :: c.unhandled)
  next : ∀ queue next, c.held = some (queue, next) → next ≤ queue.length
  closedCalls : c.closedCalls = if c.isClosed then 1 else 0

theorem Delivers.failed (h : Delivers c) : Delivers c.failed := by
  rcases failed_eq (c := c) with heq | ⟨-, heq⟩
  · rw [heq]
    exact h
  · rw [heq]
    exact { h with }

theorem Owes.control {bs : Incoming M} (h : Owes c bs) (hnone : ∀ m, bs ≠ .message m) : Delivers c := by
  refine ⟨h.greeting, ?_, ?_, h.next, h.closedCalls⟩
  · intro peer calls hst
    rw [h.opened peer calls hst]
    cases bs with
    | message m => exact absurd rfl (hnone m)
    | hello _ _ _ | ping | pong | invalid => rfl
  · intro hclo
    exact absurd hclo (by simp [h.isOpen])

theorem Owes.message {m : M} (h : Owes c (.message m)) (hst : c.state = .opened peer calls) : Delivers (c.deliver m) := by
  refine ⟨fun qd hs => (nomatch hst.symm.trans hs), ?_, ?_, h.next, h.closedCalls⟩
  · intro peer' calls' hs
    have howed := h.opened peer' calls' hs
    show messages c.arrived = (c.received ++ [m]) ++ messages c.unhandled
    rw [howed]
    simp [messages]
  · intro hclo
    exact absurd (show c.isClosed = true from hclo) (by simp [h.isOpen])

theorem Owes.handle {bs : Incoming M} (h : Owes c bs) : Delivers (c.handle bs) := by
  unfold Channel.handle
  split
  · rename_i qd hst
    obtain ⟨harrived, hrecv, hheld⟩ := h.greeting qd hst
    have hsame : Delivers c := ⟨h.greeting, fun _ _ hs => (nomatch hst.symm.trans hs),
      fun hclo => absurd hclo (by simp [h.isOpen]), h.next, h.closedCalls⟩
    cases bs with
    | hello protocol incarnation calls =>
      simp only [Channel.greet]
      split
      · refine ⟨nofun, ?_, fun hs => absurd hs (by simp [isClosed]), h.next, ?_⟩
        · intro _ _ _
          simp [harrived, hrecv, unhandled, hheld, messages]
        · have hcalls := h.closedCalls
          rw [h.isOpen] at hcalls
          exact hcalls
      · exact hsame.failed
    | ping | pong | message _ | invalid => exact hsame.failed
  · rename_i hnot
    cases bs with
    | hello _ _ _ | invalid => exact (h.control (fun m hm => (nomatch hm))).failed
    | pong => exact h.control (fun m hm => (nomatch hm))
    | ping =>
      have hsame := h.control (fun m hm => (nomatch hm))
      exact { hsame with }
    | message m =>
      cases hst : c.state with
      | greeting qd => exact absurd hst (hnot qd)
      | opened peer calls => exact h.message hst
      | closed => exact absurd (isClosed_iff.2 hst) (by simp [h.isOpen])

theorem Delivers.receive (h : Delivers c) (bs : Incoming M) : Delivers (c.receive bs) := by
  unfold Channel.receive
  split
  · exact h
  · rename_i qd hst
    split
    · apply Owes.handle
      exact ⟨isClosed_false_of_greeting hst, h.greeting, fun _ _ hs => (nomatch hst.symm.trans hs), h.next, h.closedCalls⟩
    · rename_i hheld
      exact nomatch (h.greeting qd hst).2.2.symm.trans hheld
  · rename_i peer calls hst
    have hopen : c.isClosed = false := isClosed_false_of_opened hst
    have hord := h.opened peer calls hst
    split
    · rename_i hheld
      apply Owes.handle
      refine ⟨hopen, fun _ hs => (nomatch hst.symm.trans hs), ?_, h.next, h.closedCalls⟩
      intro _ _ _
      simp only [unhandled, hheld] at hord ⊢
      rw [messages_append, hord]
      simp [messages]
    · rename_i q next hheld
      have hle := h.next q next hheld
      refine ⟨fun _ hs => (nomatch hst.symm.trans hs), ?_, fun hclo => ?_, ?_, h.closedCalls⟩
      · intro _ _ _
        simp only [unhandled, hheld] at hord
        simp only [unhandled]
        rw [drop_append_of_le_length hle, messages_append, hord, messages_append, append_assoc]
      · exact absurd (show c.isClosed = true from hclo) (by simp [hopen])
      · rintro _ _ ⟨⟩
        simp only [length_append]
        omega

/-- **Step lemma.** -/
theorem Delivers.next_step (h : Delivers c) (hsends : Sends c) (hstep : c.next a = some c') : Delivers c' := by
  cases moves hstep with
  | stays => exact h
  | starts | sends | closes | pings | returns | reports | resolves | stops | loops | flushes | flushed => exact { h with }
  | throws | rejects => exact Delivers.failed { h with }
  | queues hst =>
    refine ⟨fun _ _ => h.greeting _ hst, nofun, nofun, h.next, ?_⟩
    have hcalls := h.closedCalls
    rw [isClosed_false_of_greeting hst] at hcalls
    exact hcalls
  | receives => exact h.receive _
  | linkCloses hopen =>
    refine ⟨nofun, nofun, fun _ => ?_, nofun, ?_⟩
    · cases hst : c.state with
      | greeting qd => simp [(h.greeting qd hst).2.1]
      | opened peer calls => exact ⟨_, (h.opened peer calls hst).symm⟩
      | closed => exact absurd (isClosed_iff.2 hst) (by simp [hopen])
    · have hcalls := h.closedCalls
      rw [hopen] at hcalls
      simp [isClosed, hcalls]
  | promises hfrs =>
    refine ⟨fun qd hs => absurd hs (hsends.not_greeting hfrs rfl qd), ?_, h.closed, ?_, h.closedCalls⟩
    · intro peer calls hst
      have hord := h.opened peer calls hst
      cases hheld : c.held with
      | none | some p => simpa [unhandled, hheld, hold] using hord
    · intro q next hs
      cases hheld : c.held with
      | none =>
        simp only [hold, hheld, getD_none, some.injEq, Prod.mk.injEq] at hs
        omega
      | some p =>
        simp only [hold, hheld, getD_some, some.injEq] at hs
        exact h.next q next (by rw [hheld, hs])
  | @handles _ _ next q _ hfrs hheld hlt hst =>
    apply Owes.handle
    refine ⟨isClosed_false_of_opened hst, fun _ hs => (nomatch hst.symm.trans hs), ?_, ?_, h.closedCalls⟩
    · intro _ _ _
      have hord := h.opened _ _ hst
      simp only [unhandled, hheld] at hord
      show messages c.arrived = c.received ++ messages (q.get ⟨next, hlt⟩ :: q.drop (next + 1))
      rw [hord, drop_eq_getElem_cons hlt]
      rfl
    · rintro _ _ ⟨⟩
      omega
  | empties hfrs hheld hge =>
    refine ⟨fun qd hst => ?_, fun peer calls hst => ?_, h.closed, nofun, h.closedCalls⟩
    · exact nomatch (h.greeting qd hst).2.2.symm.trans hheld
    · have hord := h.opened peer calls hst
      simp only [unhandled, hheld] at hord
      rw [drop_eq_nil_of_le hge] at hord
      exact hord
  | waits =>
    refine ⟨?_, ?_, h.closed, ?_, h.closedCalls⟩
    · intro qd hst
      obtain ⟨harrived, hrecv, hheld⟩ := h.greeting qd hst
      exact ⟨harrived, hrecv, by simp [hheld]⟩
    · intro peer calls hst
      have hord := h.opened peer calls hst
      cases hheld : c.held with
      | none => simpa only [unhandled, hheld, map_none] using hord
      | some p => simpa only [unhandled, hheld, map_some, drop_zero] using hord
    · intro q next hs
      obtain ⟨p, -, hp⟩ := map_eq_some_iff.mp hs
      cases hp
      exact Nat.zero_le _

/-! ## Waits -/

/-- No release is at the head of its loop. -/
def Calm (c : Channel M) : Prop := c.isClosed = false → ∀ frame ∈ c.frames, frame ≠ .release false

theorem Waits.calm (h : Waits c) (htop : ∀ fs, c.frames ≠ .release false :: fs) : c.Calm := by
  intro hopen frame hfrm
  cases hfrs : c.frames with
  | nil => simp [hfrs] at hfrm
  | cons top fs =>
    have hall := h.buried hopen
    rw [hfrs] at hfrm hall
    rcases mem_cons.mp hfrm with rfl | hmem
    · rintro rfl
      exact htop fs hfrs
    · exact hall frame hmem

theorem Waits.calm_of_ownerRuns (h : Waits c) (hruns : c.ownerRuns = true) : c.Calm := by
  apply h.calm
  intro fs hfrs
  unfold ownerRuns at hruns
  rw [hfrs] at hruns
  exact nomatch hruns

theorem Waits.push (h : Waits c) (hcalm : c.Calm) {frame : Frame M} (hfrm : frame ≠ .release false) :
    Waits { c with frames := frame :: c.frames } := by
  refine ⟨h.overlapped, h.one, h.idle, h.settled, ?_, hcalm, ?_⟩
  · intro _ fs hfs
    exact absurd (cons.inj hfs).1 hfrm
  · intro hopen hwait hheld
    obtain ⟨f, hf, hrel⟩ := h.drained hopen hwait hheld
    exact ⟨f, by simp [hf], hrel⟩

/-- The frame on top, which is no release, returns. -/
theorem Waits.pop (h : Waits c) (hfrs : c.frames = frame :: fs)
    (hrel : frame.isRelease = false) : Waits { c with frames := fs } ∧ Calm { c with frames := fs } := by
  have hcalm : Calm { c with frames := fs } := by
    intro hopen f hf
    have hall := h.buried hopen
    rw [hfrs] at hall
    exact hall f hf
  refine ⟨⟨h.overlapped, h.one, h.idle, h.settled, ?_, ?_, ?_⟩, hcalm⟩
  · rintro hopen fs' rfl
    exact absurd rfl (hcalm hopen (.release false) (by simp))
  · exact fun hopen f hf => hcalm hopen f (mem_of_mem_tail hf)
  · intro hopen hwait hheld
    obtain ⟨f, hf, htrue⟩ := h.drained hopen hwait hheld
    rw [hfrs] at hf
    rcases mem_cons.mp hf with rfl | hf
    · exact nomatch hrel.symm.trans htrue
    · exact ⟨f, hf, htrue⟩

theorem Waits.failed (h : Waits c) (hcalm : c.Calm) : Waits c.failed := by
  rcases failed_eq (c := c) with heq | ⟨-, heq⟩
  · rw [heq]
    exact h
  · rw [heq]
    have hreport : (.report : Frame M) ≠ .release false := nofun
    exact h.push hcalm hreport

/-- A message is handled while no promise is pending. -/
theorem Waits.handle (h : Waits c) (hcalm : c.Calm) (hpend : c.isClosed = false → c.pending = [])
    (bs : Incoming M) (hopen : c.isClosed = false) : Waits (c.handle bs) := by
  unfold Channel.handle
  split
  · rename_i qd hst
    cases bs with
    | hello protocol incarnation calls =>
      simp only [Channel.greet]
      split
      · have hpush : Waits { c with frames := .flush qd :: c.frames } := h.push hcalm nofun
        exact ⟨hpush.overlapped, hpush.one, fun _ => hpush.idle hopen, fun _ => hpush.settled hopen,
          fun _ => hpush.head hopen, fun _ => hpush.buried hopen, fun _ => hpush.drained hopen⟩
      · exact h.failed hcalm
    | ping | pong | message _ | invalid => exact h.failed hcalm
  · cases bs with
    | hello _ _ _ | invalid => exact h.failed hcalm
    | pong => exact h
    | ping => exact { h with }
    | message m =>
      have hpush : Waits { c with frames := .message c.received.length :: c.frames } := h.push hcalm nofun
      refine ⟨?_, hpush.one, hpush.idle, hpush.settled, hpush.head, hpush.buried, hpush.drained⟩
      simp [deliver, h.overlapped, hpend hopen]

theorem Waits.receive (h : Waits c) (hcalm : c.Calm) (bs : Incoming M) : Waits (c.receive bs) := by
  have hpinged : Waits { c with pinged := false } := { h with }
  have harrived : Waits { c with pinged := false, arrived := c.arrived ++ [bs] } := { h with }
  unfold Channel.receive
  split
  · exact h
  · rename_i qd hst
    split
    · rename_i hheld
      exact hpinged.handle hcalm (fun hopen => h.settled hopen (h.idle hopen hheld)) bs
        (isClosed_false_of_greeting hst)
    · rename_i q next hheld
      exact ⟨h.overlapped, h.one, nofun, h.settled, h.head, h.buried, fun hopen hwait _ => h.drained hopen hwait (by simp [hheld])⟩
  · rename_i peer calls hst
    split
    · rename_i hheld
      exact harrived.handle hcalm (fun hopen => h.settled hopen (h.idle hopen hheld)) bs
        (isClosed_false_of_opened hst)
    · rename_i q next hheld
      exact ⟨h.overlapped, h.one, nofun, h.settled, h.head, h.buried, fun hopen hwait _ => h.drained hopen hwait (by simp [hheld])⟩

theorem Waits.released (h : Waits c) {handled : Bool} {held : Option (List (Incoming M) × Nat)}
    (hfrs : c.frames = .release handled :: fs) (hidle : c.isClosed = false → held = none → c.waiting = false)
    (hdrained : c.isClosed = false → c.waiting = false → held = none) : Waits { c with held := held, frames := fs } := by
  have hcalm : c.isClosed = false → ∀ frame ∈ fs, frame ≠ .release false := by
    intro hopen
    simpa only [hfrs, tail_cons] using h.buried hopen
  refine ⟨h.overlapped, h.one, hidle, h.settled, ?_, fun hopen f hf => hcalm hopen f (mem_of_mem_tail hf), ?_⟩
  · rintro hopen fs' rfl
    exact absurd rfl (hcalm hopen (.release false) (by simp))
  · intro hopen hwait hheld
    exact absurd (hdrained hopen hwait) hheld

theorem erase_eq_nil {number : Nat} {pnd : List Nat} (hone : pnd.length ≤ 1) (hmem : number ∈ pnd) :
    pnd.erase number = [] := by
  match pnd, hone, hmem with
  | [n], _, hmem => simp [mem_singleton.mp hmem]

/-- **Step lemma.** -/
theorem Waits.next_step (h : Waits c) (hdeliv : Delivers c) (halone : Alone c a) (hstep : c.next a = some c') : Waits c' := by
  cases moves hstep with
  | stays => exact h
  | starts | sends | pings => exact { h with }
  | queues hst =>
    have hopen : c.isClosed = false := isClosed_false_of_greeting hst
    exact ⟨h.overlapped, h.one, fun _ => h.idle hopen, fun _ => h.settled hopen, fun _ => h.head hopen,
      fun _ => h.buried hopen, fun _ => h.drained hopen⟩
  | closes hruns => exact h.push (h.calm_of_ownerRuns hruns) nofun
  | receives hruns => exact h.receive (h.calm_of_ownerRuns hruns) _
  | linkCloses => exact ⟨h.overlapped, h.one, nofun, nofun, nofun, nofun, nofun⟩
  | returns hfrs _ hrel => exact (h.pop hfrs hrel).1
  | reports hfrs | flushed hfrs => exact (h.pop hfrs rfl).1.push (h.pop hfrs rfl).2 nofun
  | promises hfrs =>
    obtain ⟨hpop, hcalm⟩ := h.pop hfrs rfl
    have hnone : c.pending = [] := halone rfl
    refine ⟨h.overlapped, by simp [hold, hnone], nofun, nofun, ?_, hpop.buried, nofun⟩
    rintro hopen fs' rfl
    exact absurd rfl (hcalm hopen (.release false) (by simp))
  | throws hfrs _ hrel => exact (h.pop hfrs hrel).1.failed (h.pop hfrs hrel).2
  | resolves _ hpend =>
    have hnone := erase_eq_nil h.one hpend
    exact ⟨h.overlapped, by simp [hnone], fun _ _ => rfl, fun _ _ => hnone, fun _ _ _ => rfl, nofun,
      fun _ _ _ => ⟨.release false, by simp, rfl⟩⟩
  | @rejects number hfrs hpend =>
    have hnone := erase_eq_nil h.one hpend
    have hsett : Waits { c with pending := c.pending.erase number } := { h with one := by simp [hnone], settled := fun _ _ => hnone }
    exact hsett.failed (hsett.calm (by simp [hfrs]))
  | stops hfrs hnone =>
    have hdone : Waits { c with held := c.held, frames := _ } := h.released hfrs h.idle fun hopen _ => by
      rcases hnone with hnone | hnot
      · exact hnone
      · cases hst : c.state with
        | greeting qd => exact (hdeliv.greeting qd hst).2.2
        | opened peer calls => exact absurd hst (hnot peer calls)
        | closed => exact absurd (isClosed_iff.2 hst) (by simp [hopen])
    exact hdone
  | @handles _ _ next q fs hfrs hheld hlt hst =>
    have hopen : c.isClosed = false := isClosed_false_of_opened hst
    have hwait := h.head hopen fs hfrs
    have hall := h.buried hopen
    rw [hfrs] at hall
    have hcalm : Calm { c with held := some (q, next + 1), frames := .release true :: fs } := by
      intro _ f hf
      rcases mem_cons.mp hf with rfl | hf
      · exact nofun
      · exact hall f hf
    apply Waits.handle _ hcalm (fun _ => h.settled hopen hwait) _ hopen
    exact ⟨h.overlapped, h.one, nofun, h.settled, fun _ fs' hfs => (nomatch (cons.inj hfs).1), fun _ => hall,
      fun _ _ _ => ⟨.release true, by simp, rfl⟩⟩
  | @empties _ _ fs hfrs => exact h.released hfrs (fun hopen _ => h.head hopen fs hfrs) (fun _ _ => rfl)
  | waits hfrs hwait =>
    apply h.released hfrs
    · exact fun hopen hnone => h.idle hopen (by simpa using hnone)
    · exact fun _ hnot => (nomatch hwait.symm.trans hnot)
  | loops hfrs hwait =>
    have hall := h.buried
    rw [hfrs] at hall
    exact ⟨h.overlapped, h.one, h.idle, h.settled, fun _ _ _ => hwait, hall, fun _ _ _ => ⟨.release false, by simp, rfl⟩⟩
  | @flushes _ rest fs hfrs =>
    obtain ⟨hpop, hcalm⟩ := h.pop hfrs rfl
    have hpush : Waits { c with frames := .flush rest :: fs } := hpop.push hcalm nofun
    exact { hpush with }

/-! ## Runs -/

/-- What a run keeps. -/
structure Ordered (c : Channel M) : Prop where
  sends : Sends c
  delivers : Delivers c

theorem new_ordered : Ordered (new : Channel M) := by
  constructor
  · exact ⟨by rintro _ ⟨⟩; exact ⟨Or.inl rfl, fun _ => rfl, rfl⟩, fun _ _ => ⟨rfl, nofun⟩, nofun, nofun⟩
  · exact ⟨fun _ _ => ⟨rfl, rfl, rfl⟩, nofun, nofun, nofun, rfl⟩

theorem new_waits : Waits (new : Channel M) := ⟨rfl, Nat.zero_le _, fun _ _ => rfl, fun _ _ => rfl, fun _ _ _ => rfl, nofun,
    fun _ _ hheld => absurd rfl hheld⟩

theorem Ordered.next (h : Ordered c) (hstep : c.Step a c') : Ordered c' := ⟨h.sends.next hstep, h.delivers.next_step h.sends hstep⟩

/-- A step in which a promise is returned only while none is pending. -/
def AloneStep (c : Channel M) (a : Action M) (c' : Channel M) : Prop := Alone c a ∧ c.Step a c'

theorem run_waits (h : Steps AloneStep new as c) : Ordered c ∧ Waits c :=
  h.invariant (I := fun c => Ordered c ∧ Waits c)
    (fun hinv hstep => ⟨hinv.1.next hstep.2, hinv.2.next_step hinv.1.delivers hstep.1 hstep.2⟩)
    ⟨new_ordered, new_waits⟩

/-- A channel that closed stays closed, and gives its handler nothing. -/
theorem received_of_isClosed (hclo : c.isClosed = true) (hstep : c.Step a c') : c'.isClosed = true ∧ c'.received = c.received := by
  have hst : c.state = .closed := isClosed_iff.1 hclo
  cases moves hstep with
  | queues hs | sends _ hs | pings hs | handles _ _ _ hs => exact nomatch hst.symm.trans hs
  | linkCloses hopen => exact nomatch hclo.symm.trans hopen
  | receives =>
    rw [Channel.receive, hst]
    exact ⟨hclo, rfl⟩
  | throws | rejects => exact ⟨failed_isClosed.trans hclo, failed_received⟩
  | _ => exact ⟨hclo, rfl⟩

/-- At rest, what the handler was given is what arrived for it. -/
theorem Waits.received_eq (h : Waits c) (hdeliv : Delivers c)
    (hst : c.state = .opened peer calls) (hfrs : c.frames = []) (hwait : c.waiting = false) :
    c.received = messages c.arrived := by
  have hheld : c.held = none := by
    by_contra hne
    obtain ⟨frame, hfrm, -⟩ := h.drained (isClosed_false_of_opened hst) hwait hne
    simp [hfrs] at hfrm
  have hord := hdeliv.opened peer calls hst
  simp only [unhandled, hheld] at hord
  rw [hord]
  simp [messages]

/-- A run of executable steps that meet `ok`. -/
def run (ok : Channel M → Action M → Bool) (c : Channel M) (as : List (Action M)) : Option (Channel M) :=
  as.foldlM (fun c a => if ok c a then c.next a else none) c

theorem steps_of_run {ok : Channel M → Action M → Bool} (h : c.run ok as = some c') :
    Steps (fun c a c' => ok c a = true ∧ c.Step a c') c as c' := by
  induction as generalizing c with
  | nil =>
    cases h
    exact Steps.refl
  | cons a as ih =>
    obtain ⟨b, hb, hrest⟩ := bind_eq_some_iff.mp h
    change (if ok c a then c.next a else none) = some b at hb
    split at hb
    · rename_i hok
      exact Steps.head ⟨hok, hb⟩ (ih hrest)
    · exact nomatch hb

/-! ## The order of a channel -/

/-- In every run in which a promise is returned only while none is pending: nothing but `hello` goes out
    before the peer's; then what the owner sent, in order; the handler is given what arrived, in order, and
    all of it at rest; never while a promise is pending; nothing after the close; and it is told of the close
    at most once. -/
theorem channel_keeps_order {c : Channel M} {as : List (Action M)} (h : Steps AloneStep new as c) :
    (∀ queued, c.state = .greeting queued → (c.out = [] ∨ c.out = [.hello]) ∧ c.received = []) ∧
    (∀ peer calls, c.state = .opened peer calls →
      own c.out ++ unsent c.frames = c.requested ∧ messages c.arrived = c.received ++ messages c.unhandled ∧
        (c.frames = [] → own c.out = c.requested ∧ (c.waiting = false → c.received = messages c.arrived))) ∧
    (c.isClosed = true → own c.out <+: c.requested ∧ c.received <+: messages c.arrived ∧
      ∀ a c', c.Step a c' → c'.isClosed = true ∧ c'.received = c.received) ∧
    c.overlapped = false ∧ c.closedCalls ≤ 1 := by
  obtain ⟨hordered, hwaits⟩ := run_waits h
  refine ⟨?_, ?_, ?_, hwaits.overlapped, ?_⟩
  · intro queued hstate
    exact ⟨(hordered.sends.greeting queued hstate).1, (hordered.delivers.greeting queued hstate).2.1⟩
  · intro peer calls hstate
    have hown := (hordered.sends.opened peer calls hstate).1
    refine ⟨hown, hordered.delivers.opened peer calls hstate, ?_⟩
    intro hframes
    constructor
    · simpa [hframes, unsent] using hown
    · exact hwaits.received_eq hordered.delivers hstate hframes
  · intro hclosed
    exact ⟨hordered.sends.closed hclosed, hordered.delivers.closed hclosed, fun a c' hstep => received_of_isClosed hclosed hstep⟩
  · rw [hordered.delivers.closedCalls]
    split <;> decide

/-- A message that waits behind a promise. -/
def waits : List (Action Nat) :=
  [.start, .send 7, .receive (.hello protocolVersion "p" 1), .advance, .advance, .returns, .receive (.message 1),
    .promises, .receive (.message 2), .resolves 0, .advance, .returns, .advance, .advance]

theorem channel_keeps_order_example : ∃ c : Channel Nat, Steps AloneStep new waits c ∧ c.out = [.hello, .message 7] ∧ c.received = [1, 2] ∧
      c.overlapped = false := by
  have hrun : ((new : Channel Nat).run (fun c a => decide (Alone c a)) waits).map
      (fun c => (c.out, c.received)) = some ([.hello, .message 7], [1, 2]) := by decide
  obtain ⟨c, hc, heq⟩ := map_eq_some_iff.mp hrun
  obtain ⟨hout, hreceived⟩ := Prod.mk.inj heq
  have hsteps : Steps AloneStep new waits c := (steps_of_run hc).mono (fun h => ⟨of_decide_eq_true h.1, h.2⟩)
  exact ⟨c, hsteps, hout, hreceived, (channel_keeps_order hsteps).2.2.2.1⟩

/-- Two messages that arrive one inside the other, both handled asynchronously. -/
def nested : List (Action Nat) :=
  [.start, .receive (.hello protocolVersion "p" 1), .advance, .returns, .receive (.message 1), .receive (.message 2),
    .promises, .promises, .receive (.message 3), .resolves 1, .advance]

/-- The second promise settles, and the message held behind the first goes to the handler. -/
theorem nested_promise_releases_early :
    ∃ c : Channel Nat, Steps Step new nested c ∧ c.received = [1, 2, 3] ∧ c.pending = [0] ∧ c.overlapped = true := by
  have hrun : ((new : Channel Nat).run (fun _ _ => true) nested).map
      (fun c => (c.received, c.pending, c.overlapped)) = some ([1, 2, 3], [0], true) := by decide
  obtain ⟨c, hc, heq⟩ := map_eq_some_iff.mp hrun
  obtain ⟨hreceived, hrest⟩ := Prod.mk.inj heq
  obtain ⟨hpending, hoverlapped⟩ := Prod.mk.inj hrest
  exact ⟨c, (steps_of_run hc).mono (fun h => h.2), hreceived, hpending, hoverlapped⟩

end PiBridge.Chord.Channel
