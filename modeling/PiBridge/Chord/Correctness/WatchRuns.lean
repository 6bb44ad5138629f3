import PiBridge.Chord.Watch
import PiBridge.Chord.Correctness.PendingFold

/-!
# `Chord.Correctness.WatchRuns` — a watch reconstructs its source

What is pending is either folded on the last value call (`Folds`) or, after a failure, replaces it (`Replaces`); a
frame and a call each move between the two. The lifecycle lets one loop run at a time. The result is
`watch_reconstructs`.
-/

namespace PiBridge.Chord

open Lib Option

variable {ε κ : Type} {q : WatchQueue ε κ} {w : Watch ε κ} {seen : Seen ε}

theorem Seen.agrees_of_steady (hsteady : ∀ err, seen.last ≠ some (.failed err))
    (h : ∀ c, seen.last = some (.value c) → ∃ c', seen.lastCall = some (.value c') ∧ c'.value = c.value) : seen.Agrees := by
  unfold Agrees
  split
  · trivial
  · rename_i c hlast
    exact h c hlast
  · rename_i err hlast
    exact absurd hlast (hsteady err)

/-! ## What is pending -/

/-- The pending operations lead from the value of the last value call to the source's value. -/
structure Folds (q : WatchQueue ε κ) (seen : Seen ε) : Prop where
  steady : ∀ error, seen.last ≠ some (.failed error)
  called : ∀ error, seen.lastCall ≠ some (.failed error)
  pends : Pends seen.delivered seen.source q.ops
  lone : ∀ c, q.lone = some c → c.value = seen.source ∧ c.retired = seen.retired ∧ applyImmutable seen.delivered c.ops = some seen.source
  newest : q.newestContext.isSome = true → q.newest = seen.source
  last : ∀ c, seen.last = some (.value c) → c.value = seen.source
  idle : q.newestContext = none → seen.delivered = seen.source ∧ seen.retired = false ∧ seen.Agrees

/-- A failure came after the last value call: it is pending, or a value after it, or it was told. -/
structure Replaces (q : WatchQueue ε κ) (seen : Seen ε) : Prop where
  ops : q.ops = .empty
  lone : q.lone = none
  failure : ∀ error, q.failure = some error → seen.last = some (.failed error)
  newest : q.newestContext.isSome = true → q.failure = none →
    q.newest = seen.source ∧ ∃ c, seen.last = some (.value c) ∧ c.value = seen.source
  idle : q.newestContext = none → ∃ error, seen.last = some (.failed error) ∧ seen.lastCall = some (.failed error)

/-- What is pending, against what was seen. -/
structure Pending (q : WatchQueue ε κ) (seen : Seen ε) : Prop where
  retired : q.retired = seen.retired
  folds : q.replace = false → Folds q seen
  replaces : q.replace = true → Replaces q seen

theorem pending_start (v : Json) : Pending (ε := ε) (κ := κ) .empty (.start v) where
  retired := rfl
  folds _ :=
    { steady := fun _ h => (by cases h), called := fun _ h => (by cases h), pends := rfl, lone := fun _ h => by cases h
      newest := fun h => (by cases h), last := fun _ h => (by cases h), idle := fun _ => ⟨rfl, rfl, trivial⟩ }
  replaces h := nomatch h

/-- **A value frame** is folded, or waits to replace the root. -/
theorem Pending.push {c : WatchValueCall} {ctx : κ} (h : Pending q seen) (hend : seen.ended = false)
    (hcoherent : (∃ err, seen.last = some (.failed err)) ∨ applyTyped seen.source c.ops = some c.value) :
    Pending (q.push c ctx) (seen.frame (.value c)) := by
  have hseen : seen.frame (.value c) = { seen with source := c.value, last := some (.value c), retired := seen.retired || c.retired } := by
    rw [Seen.frame, if_neg (by simp [hend])]
  rw [hseen]
  cases hrepl : q.replace with
  | true =>
    have hpush : q.push c ctx = { q with
        failure := none, newestValue := some c.value, newestContext := some ctx, retired := q.retired || c.retired } := by
      rw [WatchQueue.push, if_pos hrepl]
    rw [hpush]
    have hreplaces := h.replaces hrepl
    exact
      { retired := by rw [h.retired]
        folds := fun hfalse => absurd (hrepl.symm.trans hfalse) (by simp)
        replaces := fun _ =>
          { ops := hreplaces.ops, lone := hreplaces.lone, failure := fun _ hnone => by cases hnone
            newest := fun _ _ => ⟨rfl, c, rfl, rfl⟩, idle := fun hnone => by cases hnone } }
  | false =>
    have hfolds := h.folds hrepl
    -- Without a failure the frame's operations start from the source's value.
    have hops : applyTyped seen.source c.ops = some c.value := by
      rcases hcoherent with ⟨err, hfail⟩ | hops
      · exact absurd hfail (hfolds.steady err)
      · exact hops
    have hpush : q.push c ctx = { q with
        lone := if q.newestContext.isNone then some c else none, ops := q.ops.push c.ops
        newestValue := some c.value, newestContext := some ctx, retired := q.retired || c.retired } := by
      rw [WatchQueue.push, if_neg (by simp [hrepl])]
    rw [hpush]
    refine ⟨by rw [h.retired], fun _ => ?_, fun htrue => absurd (hrepl.symm.trans htrue) (by simp)⟩
    refine
      { steady := fun _ hlast => (by cases hlast), called := hfolds.called, pends := pends_push hfolds.pends hops
        lone := ?_, newest := fun _ => rfl, last := fun _ hlast => ?_, idle := fun hnone => by cases hnone }
    · intro d hd
      cases hctx : q.newestContext with
      | some _ =>
        rw [hctx] at hd
        cases hd
      | none =>
        rw [hctx] at hd
        obtain rfl : c = d := some.inj hd
        obtain ⟨hdelivered, hret, -⟩ := hfolds.idle hctx
        refine ⟨rfl, by rw [hret, Bool.false_or], ?_⟩
        rw [hdelivered]
        exact applyImmutable_of_applyTyped hops
    · cases hlast
      rfl

/-- **A failure** drops what is pending. -/
theorem Pending.fail {err : ε} {ctx : κ} (h : Pending q seen) (hend : seen.ended = false) :
    Pending (q.fail err ctx) (seen.frame (.failed err)) := by
  have hseen : seen.frame (.failed err) = { seen with last := some (.failed err) } := by
    rw [Seen.frame, if_neg (by simp [hend])]
  rw [hseen]
  exact
    { retired := h.retired
      folds := fun hfalse => by cases hfalse
      replaces := fun _ =>
        { ops := rfl, lone := rfl, failure := fun e he => by rw [← some.inj he]
          newest := fun _ hnone => (by cases hnone), idle := fun hnone => by cases hnone } }

/-- What a call says of the frames since the last value call. -/
structure Reports (seen : Seen ε) (call : WatchCall ε) : Prop where
  exact : ∀ c, call = WatchCall.value c → applyImmutable seen.delivered c.ops = some c.value
  replaces : ∀ c error, call = WatchCall.value c → seen.lastCall = some (.failed error) → c.ops = [.r c.value]
  retired : ∀ c, call = WatchCall.value c → c.retired = seen.retired

/-- A value that is called is the source's; nothing is pending then. -/
theorem Pending.called {q' : WatchQueue ε κ} {c : WatchValueCall} {ctx : κ} (hret : q'.retired = false)
    (hrepl : q'.replace = false) (hops : q'.ops = .empty) (hlone : q'.lone = none) (hctx : q'.newestContext = none)
    (hval : c.value = seen.source) (hsteady : ∀ err, seen.last ≠ some (.failed err))
    (hlast : ∀ d, seen.last = some (.value d) → d.value = seen.source) :
    Pending q' (seen.called (some (.value c, ctx))) where
  retired := hret
  replaces htrue := absurd (hrepl.symm.trans htrue) (by simp)
  folds _ :=
    { steady := hsteady
      called := fun _ hcall => by cases hcall
      pends := by
        rw [hops]
        exact hval
      lone := fun d hd => by rw [hlone] at hd; cases hd
      newest := fun hsome => by rw [hctx] at hsome; cases hsome
      last := hlast
      idle := fun _ => by
        exact ⟨hval, rfl, Seen.agrees_of_steady hsteady fun d hd => ⟨c, rfl, hval.trans (hlast d hd).symm⟩⟩ }

/-- **The next call** reports the frames since the last one. -/
theorem Pending.next (ctx : κ) (h : Pending q seen) (hctx : q.newestContext.isSome = true) :
    Reports seen q.next.1 ∧ Pending q.next.2 (seen.called (some (q.next.1, ctx))) := by
  cases hrepl : q.replace with
  | true =>
    have hreplaces := h.replaces hrepl
    have hnext : q.next = q.nextAfterFailure := if_pos hrepl
    rw [hnext]
    cases hfails : q.failure with
    | some err =>
      have hcall : q.nextAfterFailure = (.failed err, { q with newestContext := none, failure := none }) := by
        rw [WatchQueue.nextAfterFailure]
        rw [hfails]
      rw [hcall]
      refine ⟨⟨?_, ?_, ?_⟩, ?_⟩
      · rintro _ ⟨⟩
      · rintro _ _ ⟨⟩
      · rintro _ ⟨⟩
      · exact
          { retired := h.retired
            folds := fun hfalse => absurd (hrepl.symm.trans hfalse) (by simp)
            replaces := fun _ =>
              { ops := hreplaces.ops, lone := hreplaces.lone, failure := fun _ hnone => (by cases hnone)
                newest := fun hsome => (by cases hsome)
                idle := fun _ => ⟨err, hreplaces.failure err hfails, rfl⟩ } }
    | none =>
      obtain ⟨hnewest, d, hlast, hd⟩ := hreplaces.newest hctx hfails
      have hcall : q.nextAfterFailure = (.value ⟨q.newest, [.r q.newest], q.retired⟩,
          { q with newestContext := none, newestValue := none, retired := false, replace := false }) := by
        rw [WatchQueue.nextAfterFailure]
        dsimp only
        rw [hfails]
        rfl
      rw [hcall, hnewest]
      refine ⟨⟨?_, ?_, ?_⟩, ?_⟩
      · rintro _ ⟨rfl⟩
        rfl
      · rintro _ _ ⟨rfl⟩ _
        rfl
      · rintro _ ⟨rfl⟩
        exact h.retired
      · refine Pending.called rfl rfl hreplaces.ops hreplaces.lone rfl rfl (fun err hfail => ?_) (fun d' hd' => ?_)
        · rw [hlast] at hfail
          cases hfail
        · rw [hlast] at hd'
          cases hd'
          exact hd
  | false =>
    have hfolds := h.folds hrepl
    have hnewest := hfolds.newest hctx
    -- What each way of taking the frames says.
    have hcall : ∀ c : WatchValueCall, q.next.1 = .value c → c.value = seen.source → c.retired = seen.retired →
        applyImmutable seen.delivered c.ops = some seen.source →
          Reports seen q.next.1 ∧ Pending q.next.2 (seen.called (some (q.next.1, ctx))) := by
      intro c hc hval hret hops
      have hrest : q.next.2 = { q with
          ops := .empty, lone := none, newestValue := none, newestContext := none, retired := false } := by
        rw [WatchQueue.next, if_neg (by simp [hrepl])]
        split
        · rfl
        · split
          · rfl
          · rfl
      rw [hc, hrest]
      refine ⟨⟨?_, ?_, ?_⟩, Pending.called rfl hrepl rfl rfl rfl hval hfolds.steady hfolds.last⟩
      · rintro _ ⟨rfl⟩
        rw [hops, hval]
      · rintro _ err - hfail
        exact absurd hfail (hfolds.called err)
      · rintro _ ⟨rfl⟩
        exact hret
    cases hlone : q.lone with
    | some c =>
      obtain ⟨hval, hret, hops⟩ := hfolds.lone c hlone
      refine hcall c ?_ hval hret hops
      rw [WatchQueue.next, if_neg (by simp [hrepl])]
      rw [hlone]
    | none =>
      rcases pends_take hfolds.pends with htake | ⟨ops, htake, hops⟩
      · refine hcall ⟨q.newest, [.r q.newest], q.retired⟩ ?_ hnewest h.retired (by rw [hnewest]; rfl)
        rw [WatchQueue.next, if_neg (by simp [hrepl])]
        dsimp only
        rw [hlone, htake]
      · refine hcall ⟨q.newest, ops, q.retired⟩ ?_ hnewest h.retired hops
        rw [WatchQueue.next, if_neg (by simp [hrepl])]
        rw [hlone, htake]

/-! ## The lifecycle -/

/-- The loop that runs is the one that waits for a call, and an open watch has seen what its queue keeps. -/
structure Tracks (w : Watch ε κ) (seen : Seen ε) : Prop where
  active : seen.active = w.calls
  alone : w.calls = if w.running then 1 else 0
  closed : seen.closed = w.terminal.isSome
  ended : w.terminal = none → seen.ended = w.ending
  pending : w.terminal = none → Pending w.queue seen

theorem tracks_start (v : Json) : Tracks (ε := ε) (κ := κ) (.new v) (.start v) := ⟨rfl, rfl, rfl, fun _ => rfl, fun _ => pending_start v⟩

/-- An entry, and what it lets be seen: the end it comes to, and no call. -/
structure Enters (w w' : Watch ε κ) (seen : Seen ε) : Prop where
  calls : w'.calls = w.calls
  running : w'.running = w.running
  ends : w.terminal.isSome = true → w'.terminal = w.terminal
  ended : w'.terminal = none → seen.ended = w'.ending
  pending : w'.terminal = none → Pending w'.queue seen

/-- What the end of a step is, against the end there was. -/
def ending (w w' : Watch ε κ) : Option (WatchEnd ε) := if w.terminal.isSome then none else w'.terminal

theorem closed_ending {w w' : Watch ε κ} (hends : w.terminal.isSome = true → w'.terminal = w.terminal) :
    (w.terminal.isSome || (ending w w').isSome) = w'.terminal.isSome := by
  unfold ending
  cases hterm : w.terminal with
  | none => rfl
  | some res =>
    rw [hends (by rw [hterm]; rfl), hterm]
    rfl

section

variable (w) (res : WatchEnd ε)

theorem terminate_eq (h : w.terminal = none) :
    w.terminate res = { w with terminal := some res, listener := false, queue := .empty } := by
  rw [Watch.terminate, if_neg (by simp [h])]

theorem terminate_closed (h : w.terminal.isSome = true) : w.terminate res = w := by
  rw [Watch.terminate, if_pos h]

theorem terminate_ne : (w.terminate res).terminal ≠ none := by
  cases h : w.terminal with
  | none =>
    rw [terminate_eq w res h]
    exact some_ne_none res
  | some res' =>
    rw [terminate_closed w res (by rw [h]; rfl), h]
    exact some_ne_none res'

end

/-- `#schedule` keeps everything but the event loop. -/
theorem pending_keeps (w : Watch ε κ) : w.pending.calls = w.calls ∧ w.pending.running = w.running ∧
    w.pending.terminal = w.terminal ∧ w.pending.ending = w.ending ∧ w.pending.queue = w.queue := by
  unfold Watch.pending Watch.schedule
  split
  · split
    · exact ⟨rfl, rfl, rfl, rfl, rfl⟩
    · exact ⟨rfl, rfl, rfl, rfl, rfl⟩
  · exact ⟨rfl, rfl, rfl, rfl, rfl⟩

theorem isOpen_iff : w.isOpen = true ↔ w.terminal = none ∧ w.ending = false := by
  unfold Watch.isOpen
  cases w.terminal <;> cases w.ending <;> simp

/-- A frame that the queue takes, where the watch is open. -/
theorem enters_frame {c : WatchCall ε} {queue : WatchQueue ε κ} (h : Tracks w seen)
    (hque : w.terminal = none → seen.ended = false → Pending queue (seen.frame c)) :
    Enters w (if !w.isOpen then w else { w with queue }.pending) (seen.frame c) := by
  have hfrm : (seen.frame c).ended = seen.ended := by
    unfold Seen.frame
    split
    · rfl
    · cases c <;> rfl
  cases hopen : w.isOpen with
  | false =>
    -- The source has ended: the frame is not one of its run.
    have hsame : w.terminal = none → seen.frame c = seen := by
      intro hterm
      have hend : seen.ended = true := by
        rw [h.ended hterm]
        by_contra hending
        rw [isOpen_iff.2 ⟨hterm, by simpa using hending⟩] at hopen
        cases hopen
      unfold Seen.frame
      rw [if_pos hend]
    refine ⟨rfl, rfl, fun _ => rfl, fun hterm => ?_, fun hterm => ?_⟩
    · rw [hfrm]
      exact h.ended hterm
    · rw [hsame hterm]
      exact h.pending hterm
  | true =>
    obtain ⟨hterm, hending⟩ := isOpen_iff.1 hopen
    obtain ⟨hcalls, hrun, hterm', hending', hque'⟩ := pending_keeps { w with queue }
    refine ⟨hcalls, hrun, fun hsome => ?_, fun _ => ?_, fun _ => ?_⟩
    · rw [hterm] at hsome
      cases hsome
    · show (seen.frame c).ended = ({ w with queue }.pending).ending
      rw [hfrm, hending', h.ended hterm]
    · show Pending ({ w with queue }.pending).queue _
      rw [hque']
      exact hque hterm (by rw [h.ended hterm, hending])

theorem enters_start (h : Tracks w seen) : Enters w w.start seen := by
  unfold Watch.start
  split
  · exact ⟨rfl, rfl, fun _ => rfl, h.ended, h.pending⟩
  · rename_i hsta
    have hnone : w.terminal.isSome = false := by
      rw [Bool.or_eq_true, not_or] at hsta
      exact Bool.eq_false_of_not_eq_true hsta.2
    unfold Watch.schedule
    split
    · exact ⟨rfl, rfl, fun hsome => absurd (hsome.symm.trans hnone) (by simp), h.ended, h.pending⟩
    · exact ⟨rfl, rfl, fun hsome => absurd (hsome.symm.trans hnone) (by simp), h.ended, h.pending⟩

theorem enters_terminate (w : Watch ε κ) (res : WatchEnd ε) (seen : Seen ε) : Enters w (w.terminate res) seen where
  calls := by
    unfold Watch.terminate
    split <;> rfl
  running := by
    unfold Watch.terminate
    split <;> rfl
  ends hsome := by rw [terminate_closed w res hsome]
  ended h := absurd h (terminate_ne w res)
  pending h := absurd h (terminate_ne w res)

/-- What is pending does not depend on the source's end, the calls that run or the watch's end. -/
theorem Pending.observed (h : Pending q seen) (ended : Bool) (active : Nat) (closed : Bool) :
    Pending q { seen with ended, active, closed } where
  retired := h.retired
  folds hfalse :=
    { steady := (h.folds hfalse).steady, called := (h.folds hfalse).called, pends := (h.folds hfalse).pends
      lone := (h.folds hfalse).lone, newest := (h.folds hfalse).newest, last := (h.folds hfalse).last
      idle := (h.folds hfalse).idle }
  replaces htrue :=
    { ops := (h.replaces htrue).ops, lone := (h.replaces htrue).lone, failure := (h.replaces htrue).failure
      newest := (h.replaces htrue).newest, idle := (h.replaces htrue).idle }

theorem enters_endAfterDelivery (h : Tracks w seen) : Enters w w.endAfterDelivery { seen with ended := true } := by
  unfold Watch.endAfterDelivery
  split
  · rename_i hend
    refine ⟨rfl, rfl, fun _ => rfl, fun hterm => ?_, fun hterm => (h.pending hterm).observed true _ _⟩
    rw [hterm] at hend
    exact hend.symm
  · rename_i hopen
    have hnone : w.terminal.isSome = false := by
      rw [Bool.or_eq_true, not_or] at hopen
      exact Bool.eq_false_of_not_eq_true hopen.1
    dsimp only
    split
    · have htermi := enters_terminate { w with ending := true } .ended { seen with ended := true }
      exact ⟨htermi.calls, htermi.running, fun hsome => absurd (hsome.symm.trans hnone) (by simp), htermi.ended, htermi.pending⟩
    · exact ⟨rfl, rfl, fun hsome => absurd (hsome.symm.trans hnone) (by simp), fun _ => rfl,
        fun hterm => (h.pending hterm).observed true _ _⟩

/-- After an entry that makes no call. -/
theorem Enters.tracks {w' : Watch ε κ} {seen' : Seen ε} (h : Tracks w seen) (henters : Enters w w' seen')
    (hact : seen'.active = seen.active) (hclo : seen'.closed = seen.closed) :
    Tracks w' { seen' with closed := seen'.closed || (ending w w').isSome } where
  active := (hact.trans h.active).trans henters.calls.symm
  alone := by rw [henters.calls, henters.running, h.alone]
  closed := by
    show (seen'.closed || _) = _
    rw [hclo, h.closed]
    exact closed_ending henters.ends
  ended := henters.ended
  pending hterm := (henters.pending hterm).observed _ _ _

/-! ## The loop -/

/-- The loop ends, or makes the next call. -/
structure TurnsTo (w w' : Watch ε κ) (seen : Seen ε) (call : Option (WatchCall ε × κ)) : Prop where
  calls : w'.calls = if w'.running then 1 else 0
  active : w'.calls = if call.isSome then 1 else 0
  ends : w.terminal.isSome = true → w'.terminal = w.terminal ∧ call = none
  reports : ∀ c, call = some c → Reports seen c.1 ∧ w'.terminal = none
  ended : w'.terminal = none → seen.ended = w'.ending
  pending : w'.terminal = none → Pending w'.queue (seen.called call)

theorem turns (hcalls : w.calls = 0) (hrun : w.running = true) (hend : w.terminal = none → seen.ended = w.ending)
    (hpend : w.terminal = none → Pending w.queue seen) : TurnsTo w w.turn.1 seen w.turn.2 := by
  unfold Watch.turn
  split
  · exact
      { calls := hcalls, active := hcalls, ends := fun _ => ⟨rfl, rfl⟩, reports := fun _ hnone => (by cases hnone)
        ended := hend, pending := hpend }
  · rename_i hlive
    have hterm : w.terminal = none := by
      rw [Bool.or_eq_true, not_or] at hlive
      simpa using hlive.1
    cases hctx : w.queue.newestContext with
    | none =>
      dsimp only
      split
      · rename_i hending
        rw [terminate_eq w .ended hterm]
        exact
          { calls := hcalls, active := hcalls
            ends := fun hsome => absurd hsome (by simp [hterm]), reports := fun _ hnone => (by cases hnone)
            ended := fun hnone => (by cases hnone), pending := fun hnone => (by cases hnone) }
      · exact
          { calls := hcalls, active := hcalls
            ends := fun hsome => absurd hsome (by simp [hterm]), reports := fun _ hnone => (by cases hnone)
            ended := hend, pending := hpend }
    | some ctx =>
      obtain ⟨hreports, hrest⟩ := (hpend hterm).next ctx (by rw [hctx]; rfl)
      refine
        { calls := by rw [hcalls, hrun]; rfl
          active := by rw [hcalls]; rfl
          ends := fun hsome => absurd hsome (by simp [hterm])
          reports := fun c hc => ?_, ended := hend, pending := fun _ => hrest }
      cases hc
      exact ⟨hreports, hterm⟩

/-- What a call leaves of what was seen before it. -/
theorem called_keeps (seen : Seen ε) (call : Option (WatchCall ε × κ)) :
    (seen.called call).active = seen.active + (if call.isSome then 1 else 0) ∧ (seen.called call).closed = seen.closed ∧
      (seen.called call).ended = seen.ended := by
  cases call with
  | none => exact ⟨rfl, rfl, rfl⟩
  | some call =>
    obtain ⟨c, ctx⟩ := call
    cases c with
    | value c | failed err => exact ⟨rfl, rfl, rfl⟩

/-- After a turn of the loop, when no other call runs. -/
theorem TurnsTo.tracks {w₀ w' : Watch ε κ} {call : Option (WatchCall ε × κ)} (h : TurnsTo w w' seen call)
    (hact : seen.active = 0) (hclo : seen.closed = w₀.terminal.isSome) (hterm : w.terminal = w₀.terminal) :
    Tracks w' { seen.called call with closed := (seen.called call).closed || (ending w₀ w').isSome } ∧
      ∀ c, call = some c → seen.CallOk c.1 := by
  obtain ⟨hcnt, hend, hsrc⟩ := called_keeps seen call
  refine ⟨⟨?_, h.calls, ?_, fun hnone => ?_, fun hnone => (h.pending hnone).observed _ _ _⟩, fun c hc => ?_⟩
  · show (seen.called call).active = w'.calls
    rw [hcnt, hact, h.active, Nat.zero_add]
  · show ((seen.called call).closed || _) = _
    rw [hend, hclo]
    exact closed_ending fun hsome => by
      rw [← hterm] at hsome ⊢
      exact (h.ends hsome).1
  · exact hsrc.trans (h.ended hnone)
  · have hopen : w₀.terminal = none := by
      rw [← hterm]
      by_contra hsome
      have hnone := (h.ends (isSome_iff_ne_none.mpr hsome)).2
      rw [hnone] at hc
      cases hc
    have hreports := (h.reports c hc).1
    exact ⟨hact, by rw [hclo, hopen]; rfl, hreports.exact, hreports.replaces, hreports.retired⟩

/-- The loop that waits for a call is the only one. -/
theorem running_of_calls (h : Tracks w seen) (hcalls : w.calls ≠ 0) : w.running = true ∧ w.calls = 1 := by
  have halone := h.alone
  cases hrun : w.running with
  | true =>
    rw [hrun] at halone
    exact ⟨rfl, halone⟩
  | false =>
    rw [hrun] at halone
    exact absurd halone hcalls

theorem some_of_ite {α : Type} {p : Prop} [Decidable p] {a b : α} (h : (if p then none else some a) = some b) : ¬ p ∧ a = b := by
  by_cases hp : p
  · rw [if_pos hp] at h
    cases h
  · rw [if_neg hp] at h
    exact ⟨hp, some.inj h⟩

/-! ## Runs -/

/-- **Step lemma.** -/
theorem Tracks.step {run run' : WatchRun ε κ} {ev : WatchEvent ε κ} (h : Tracks run.watch run.seen)
    (hstep : run.Step ev run') :
    Tracks run'.watch run'.seen ∧ ∀ call, ev.call = some call → (run.seen.act ev.action).CallOk call.1 := by
  obtain ⟨w, seen⟩ := run
  obtain ⟨w', seen'⟩ := run'
  obtain ⟨action, call, closed⟩ := ev
  obtain ⟨⟨hact, hclo⟩, hcoherent, hseen⟩ := hstep
  obtain rfl : seen' = { (seen.act action).called call with
      closed := ((seen.act action).called call).closed || closed.isSome } := hseen
  obtain rfl : closed = ending w w' := hclo
  -- An entry that makes no call.
  have hqui : ∀ {w''} {seen'' : Seen ε}, some (w'', none) = some (w', call) → seen'' = seen.act action →
      seen''.active = seen.active → seen''.closed = seen.closed → Enters w w'' seen'' →
        Tracks w' { (seen.act action).called call with
          closed := ((seen.act action).called call).closed || (ending w w').isSome } ∧
        ∀ c, call = some c → (seen.act action).CallOk c.1 := by
    rintro w'' seen'' hsome rfl hactive hend henters
    cases hsome
    exact ⟨henters.tracks h hactive hend, fun c hc => by cases hc⟩
  have hfrm : ∀ call, (seen.frame call).active = seen.active ∧ (seen.frame call).closed = seen.closed := by
    intro call
    unfold Seen.frame
    split
    · exact ⟨rfl, rfl⟩
    · cases call with
      | value c | failed error => exact ⟨rfl, rfl⟩
  cases action with
  | advance fr ctx =>
    refine hqui hact rfl (hfrm fr).1 (hfrm fr).2 ?_
    cases fr with
    | value c => exact enters_frame h fun hterm hended => (h.pending hterm).push hended hcoherent
    | failed error => exact enters_frame h fun hterm hended => (h.pending hterm).fail hended
  | fail error ctx =>
    refine hqui hact rfl (hfrm _).1 (hfrm _).2 ?_
    exact enters_frame h fun hterm hended => (h.pending hterm).fail hended
  | start => exact hqui hact rfl rfl rfl (enters_start h)
  | stop => exact hqui hact rfl rfl rfl (enters_terminate w .stopped seen)
  | abort => exact hqui hact rfl rfl rfl (enters_terminate w .aborted seen)
  | «end» res => exact hqui hact rfl rfl rfl (enters_terminate w res seen)
  | endAfterDelivery => exact hqui hact rfl rfl rfl (enters_endAfterDelivery h)
  | microtask =>
    have hrun : w.tasks ≠ 0 ∧ { w with tasks := w.tasks - 1 }.drain = (w', call) := some_of_ite hact
    obtain ⟨-, hdrain⟩ := hrun
    unfold Watch.drain at hdrain
    dsimp only at hdrain
    split at hdrain
    · refine hqui (congrArg some hdrain) rfl rfl rfl ?_
      exact ⟨rfl, rfl, fun _ => rfl, h.ended, h.pending⟩
    · rename_i hidle
      have hcalls : w.calls = 0 := by
        rw [Bool.or_eq_true, Bool.or_eq_true, not_or, not_or] at hidle
        rw [h.alone, if_neg hidle.1.1]
      have hturns := turns (w := { w with tasks := w.tasks - 1, scheduled := false, running := true }) hcalls rfl
        h.ended h.pending
      rw [hdrain] at hturns
      exact hturns.tracks (h.active.trans hcalls) h.closed rfl
  | completed =>
    have hrun : w.calls ≠ 0 ∧ { w with calls := w.calls - 1 }.turn = (w', call) := some_of_ite hact
    obtain ⟨hcalls, hturn⟩ := hrun
    obtain ⟨hrunning, hone⟩ := running_of_calls h hcalls
    have hturns : TurnsTo _ { w with calls := w.calls - 1 }.turn.1 { seen with active := seen.active - 1 } _ :=
      turns (by rw [hone]) hrunning h.ended fun hterm => (h.pending hterm).observed _ _ _
    rw [hturn] at hturns
    exact hturns.tracks (by rw [h.active, hone]) h.closed rfl
  | rejected error =>
    have hrun : w.calls ≠ 0 ∧
        ({ ({ w with calls := w.calls - 1 }.terminate (.listenerError error)) with running := false }, none) = (w', call) := some_of_ite hact
    obtain ⟨hcalls, hreject⟩ := hrun
    obtain ⟨-, hone⟩ := running_of_calls h hcalls
    have htermi := enters_terminate { w with calls := w.calls - 1 } (.listenerError error) seen
    cases hreject
    refine ⟨⟨?_, ?_, ?_, fun hterm => ?_, fun hterm => ?_⟩, fun c hc => by cases hc⟩
    · show seen.active - 1 = _
      rw [h.active]
      exact htermi.calls.symm
    · exact htermi.calls.trans (by rw [hone]; rfl)
    · show (seen.closed || _) = _
      rw [h.closed]
      exact closed_ending htermi.ends
    · exact absurd hterm (terminate_ne _ _)
    · exact absurd hterm (terminate_ne _ _)

/-- The last call is of the last frame, when nothing is pending. -/
theorem Pending.agrees (h : Pending q seen) (hidle : q.newestContext = none) : seen.Agrees := by
  cases hrepl : q.replace with
  | false => exact ((h.folds hrepl).idle hidle).2.2
  | true =>
    obtain ⟨err, hlast, hcall⟩ := (h.replaces hrepl).idle hidle
    unfold Seen.Agrees
    rw [hlast]
    exact hcall

/-- **A watch reconstructs its source.** In every run from the value it was opened at, whatever order the source's
frames, its end, the owner's calls, an abort, the microtasks and the listener's promises come in: a call is made while
no other runs and the watch has not ended, its operations lead from the value of the last value call to its own, it
replaces the root after a failure call, and it reports the retirements since the last value call. While the watch has
not ended and nothing is pending the last call is of the source's last frame. -/
theorem watch_reconstructs (value : Json) {events : List (WatchEvent ε κ)} {run : WatchRun ε κ}
    (h : Steps WatchRun.Step (.start value) events run) :
    (∀ event run', run.Step event run' → ∀ call, event.call = some call →
      (run.seen.act event.action).CallOk call.1) ∧
      (run.watch.terminal = none → run.watch.queue.newestContext = none → run.seen.Agrees) := by
  have htracks : Tracks run.watch run.seen :=
    h.invariant (I := fun run => Tracks run.watch run.seen) (fun htracks hstep => (htracks.step hstep).1)
      (tracks_start value)
  exact ⟨fun _ _ hstep => (htracks.step hstep).2, fun hterminal hidle => (htracks.pending hterminal).agrees hidle⟩

/-- A retirement that sets a value. -/
def retirement : WatchValueCall := ⟨.bool true, [.r (.bool true)], true⟩

theorem watch_reconstructs_retirement : ((Seen.start .null : Seen Unit).frame (.value retirement)).CallOk (.value retirement) := by
  let opened : WatchRun Unit Unit := .start .null
  let started : WatchRun Unit Unit := ⟨opened.watch.start, opened.seen⟩
  let advanced : WatchRun Unit Unit := ⟨started.watch.advance (.value retirement) (), started.seen.frame (.value retirement)⟩
  have hstart : opened.Step ⟨.start, none, none⟩ started := ⟨⟨rfl, rfl⟩, trivial, rfl⟩
  have hadvance : started.Step ⟨.advance (.value retirement) (), none, none⟩ advanced := ⟨⟨rfl, rfl⟩, Or.inr rfl, rfl⟩
  have hrun : Steps WatchRun.Step (.start .null) [_, _] advanced := (Steps.single hstart).tail hadvance
  have hcall : advanced.Step ⟨.microtask, some (.value retirement, ()), none⟩ ⟨_, _⟩ := ⟨⟨rfl, rfl⟩, trivial, rfl⟩
  exact (watch_reconstructs .null hrun).1 _ _ hcall _ rfl

end PiBridge.Chord
