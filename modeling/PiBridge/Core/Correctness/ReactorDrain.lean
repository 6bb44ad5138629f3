import PiBridge.Core.Reactor

/-!
# `Core.Correctness.ReactorDrain` — messages apply in order, one at a time, and close waits for all of them

The invariant has three parts. `Logged`: the queue is what was admitted and not yet applied, so order and
exactly-once are one equation, and epochs count applications. `Controlled`: the flag `applying` says whether
an activation of `apply` is on the stack, there is at most one, and when there is none the queue is empty.
`Counted`: `effectsInFlight` counts the outstanding effects, and once the drain is resolved nothing is left.
-/

namespace PiBridge.Reactor

open Lib List Bool Steps

variable {S M E : Type} {r r' : Reactor S M E}

/-! ## The invariant -/

/-- The ticket of the message that is being applied. -/
def stepping : List (Frame M E) → List Nat
  | .step item :: _ => [item.ticket]
  | _ => []

structure Logged (r : Reactor S M E) : Prop where
  inOrder : r.admitted = r.applied.map Prod.fst ++ r.queue
  epochs : r.applied.map Prod.snd = List.range' 1 r.epoch
  once : ((r.admitted ++ r.refused).map Item.ticket).Nodup
  fresh : ∀ item ∈ r.admitted ++ r.refused, item.ticket < r.tickets
  /-- The promise of an applied message is settled, once its step is over. -/
  settled : r.applied.map (·.1.ticket) = r.settled.map Prod.fst ++ stepping r.frames

/-- The stacks there are: a reporter may be at the bottom, and one activation of `apply` on top. -/
def StackOf (applying : Bool) : List (Frame M E) → Prop
  | [] => applying = false
  | [frame] => frame.isApply = applying
  | [frame, bottom] => frame.isApply = true ∧ bottom.isApply = false ∧ applying = true
  | _ => False

variable {fs : List (Frame M E)} {frame : Frame M E} {state : S}

theorem stackOf_false (h : StackOf false fs) : fs = [] ∨ fs = [.reportRejection] := by
  match fs, h with
  | [], _ => exact Or.inl rfl
  | [frame], h =>
    cases frame <;> first | exact Or.inr rfl | exact Bool.noConfusion h
  | [_, _], h => exact absurd h.2.2 (by simp)

/-- A frame of `apply` moves on within its activation. -/
theorem StackOf.replace {applying : Bool} {frame' : Frame M E}
    (h : StackOf applying (frame :: fs)) (happl : frame.isApply = true) (happl' : frame'.isApply = true) :
    applying = true ∧ StackOf true (frame' :: fs) ∧ StackOf false fs := by
  match fs, h with
  | [], h => exact ⟨h.symm.trans happl, happl', rfl⟩
  | [bottom], h => exact ⟨h.2.2, ⟨happl', h.2.1, rfl⟩, h.2.1⟩

/-- The effect whose `run` is on the stack. -/
def running : List (Frame M E) → Option E
  | .run effect _ :: _ => some effect
  | _ => none

structure Controlled (r : Reactor S M E) : Prop where
  stack : StackOf r.applying r.frames
  applied : r.applying = false → r.queue = []

structure Counted (r : Reactor S M E) : Prop where
  inFlight : r.effectsInFlight = r.outstanding.length
  running : ∀ effect, running r.frames = some effect → ∃ rest, r.outstanding = effect :: rest
  opened : r.phase = .opened ↔ r.drain = false
  resolves : r.drainResolve = true → r.drain = true
  quiet : r.drained = true → r.applying = false ∧ r.queue = [] ∧ r.outstanding = []

structure Inv (r : Reactor S M E) : Prop where
  logged : Logged r
  controlled : Controlled r
  counted : Counted r

/-! ## The operations keep it -/

theorem drained_of_settleIfQuiet (hinv : Inv r) (h : r.settleIfQuiet.drained = true) :
    r.applying = false ∧ r.queue = [] ∧ r.outstanding = [] := by
  unfold settleIfQuiet at h
  split at h
  · rename_i hqui
    simp only [and_eq_true, not_eq_true', List.isEmpty_iff, beq_iff_eq] at hqui
    obtain ⟨⟨⟨-, happlying⟩, hque⟩, hzero⟩ := hqui
    rw [hinv.counted.inFlight] at hzero
    exact ⟨happlying, hque, List.length_eq_zero_iff.mp hzero⟩
  · exact hinv.counted.quiet h

/-- The drain settles only when nothing is left. -/
theorem Inv.settleIfQuiet (hinv : Inv r) : Inv r.settleIfQuiet := by
  have hdrained := drained_of_settleIfQuiet hinv
  unfold Reactor.settleIfQuiet at hdrained ⊢
  split
  · rename_i hqui
    simp only [if_pos hqui] at hdrained
    simp only [and_eq_true] at hqui
    have hdrain := hinv.counted.resolves hqui.1.1.1
    refine ⟨{ hinv.logged with }, { hinv.controlled with },
      ⟨hinv.counted.inFlight, hinv.counted.running, ?_, ?_, hdrained⟩⟩
    · simp [hdrain]
    · simp
  · exact hinv

/-- A message that is refused leaves everything else alone. -/
theorem Inv.refuse (hinv : Inv r) (msg : M) : Inv { r with tickets := r.tickets + 1, refused := r.refused ++ [⟨msg, r.tickets⟩] } := by
  refine ⟨{ hinv.logged with once := ?_, fresh := ?_ },
    { hinv.controlled with },
    { hinv.counted with }⟩
  · rw [← append_assoc, map_append, nodup_append]
    refine ⟨hinv.logged.once, by simp, ?_⟩
    intro a ha b hb hab
    obtain ⟨item, hitem, rfl⟩ := mem_map.mp ha
    have := hinv.logged.fresh item hitem
    simp only [map_cons, map_nil, mem_singleton] at hb
    omega
  · intro item hitem
    rw [← append_assoc] at hitem
    rcases mem_append.mp hitem with hold | hnew
    · have := hinv.logged.fresh item hold
      simp only
      omega
    · simp only [mem_singleton] at hnew
      simp [hnew]

/-- A message that is queued: `apply` takes it up at once, or is already running. -/
theorem Inv.admit (hinv : Inv r) (hdrained : r.drained = false) (msg : M) :
    Inv (Reactor.apply { r with
      tickets := r.tickets + 1
      queue := r.queue ++ [⟨msg, r.tickets⟩]
      admitted := r.admitted ++ [⟨msg, r.tickets⟩] }) := by
  have honce : ((r.admitted ++ [Item.mk msg r.tickets] ++ r.refused).map Item.ticket).Nodup := by
    have hperm : ((r.admitted ++ [Item.mk msg r.tickets] ++ r.refused).map Item.ticket).Perm
        (r.tickets :: (r.admitted ++ r.refused).map Item.ticket) := by
      simp only [map_append, map_cons, append_assoc, singleton_append]
      exact perm_middle
    rw [hperm.nodup_iff, nodup_cons]
    refine ⟨?_, hinv.logged.once⟩
    intro hmem
    obtain ⟨item, hitem, heq⟩ := mem_map.mp hmem
    have := hinv.logged.fresh item hitem
    omega
  have hfresh : ∀ item ∈ r.admitted ++ [⟨msg, r.tickets⟩] ++ r.refused, item.ticket < r.tickets + 1 := by
    intro item hitem
    simp only [mem_append, mem_singleton] at hitem
    rcases hitem with (hold | rfl) | hold
    · have := hinv.logged.fresh item (mem_append_left _ hold)
      omega
    · simp
    · have := hinv.logged.fresh item (mem_append_right _ hold)
      omega
  have hordr : r.admitted ++ [⟨msg, r.tickets⟩] = r.applied.map Prod.fst ++ (r.queue ++ [⟨msg, r.tickets⟩]) := by
    rw [hinv.logged.inOrder, append_assoc]
  unfold Reactor.apply
  split
  · rename_i happlying
    refine ⟨⟨hordr, hinv.logged.epochs, honce, hfresh, hinv.logged.settled⟩,
      ⟨hinv.controlled.stack, fun hnot => absurd happlying (by simp_all)⟩,
      { hinv.counted with quiet := ?_ }⟩
    exact fun hd => absurd (hdrained.symm.trans hd) false_ne_true
  · rename_i happlying
    have hstk := hinv.controlled.stack
    have hidle : r.applying = false := by simpa using happlying
    rw [hidle] at hstk
    have hsett := hinv.logged.settled
    refine ⟨⟨hordr, hinv.logged.epochs, honce, hfresh, ?_⟩, ⟨?_, fun hnot => absurd hnot (by simp)⟩,
      { hinv.counted with running := ?_, quiet := ?_ }⟩
    · -- No step is on a stack without an activation of `apply`.
      rw [hsett]
      rcases stackOf_false hstk with hfrs | hfrs <;> rw [hfrs] <;> rfl
    · simp only
      rcases stackOf_false hstk with hfrs | hfrs <;> rw [hfrs]
      · rfl
      · exact ⟨rfl, rfl, rfl⟩
    · intro effect heffect
      exact absurd heffect (by simp [Reactor.running])
    · exact fun hd => absurd (hdrained.symm.trans hd) false_ne_true

/-- A message that is sent: admitted before close began, refused after. A message of the reactor's own work
    is always admitted, and there is none once the drain is resolved. -/
theorem Inv.enqueue (hinv : Inv r) {internal : Bool} (hdrained : internal = true → r.drained = false)
    (msg : M) : Inv (r.enqueue msg internal) := by
  unfold Reactor.enqueue
  split
  · exact hinv.refuse msg
  · rename_i hadmit
    apply hinv.admit
    cases internal with
    | true => exact hdrained rfl
    | false =>
      have hopened : r.phase = .opened := by simpa using hadmit
      rw [drained, hinv.counted.opened.mp hopened]
      rfl

/-- A frame of `apply` moves on; the reactor is not drained there. -/
theorem Inv.move (hinv : Inv r) {frame' : Frame M E} {n : Nat}
    {settled : List (Nat × Bool)} {outstanding : List E} (hfrs : r.frames = frame :: fs)
    (happl : frame.isApply = true) (happl' : frame'.isApply = true)
    (hsett : r.settled.map Prod.fst ++ stepping (frame :: fs) = settled.map Prod.fst ++ stepping (frame' :: fs))
    (hinFlight : n = outstanding.length)
    (hrun : ∀ effect, running (frame' :: fs) = some effect → ∃ rest, outstanding = effect :: rest) :
    Inv { r with state, frames := frame' :: fs, effectsInFlight := n, settled, outstanding } := by
  have hstk := hinv.controlled.stack
  rw [hfrs] at hstk
  obtain ⟨happlying, hstk', -⟩ := hstk.replace happl happl'
  have hlogged := hinv.logged.settled
  rw [hfrs, hsett] at hlogged
  refine ⟨{ hinv.logged with settled := hlogged },
    ⟨by rw [happlying]; exact hstk', hinv.controlled.applied⟩,
    ⟨hinFlight, hrun, hinv.counted.opened, hinv.counted.resolves, ?_⟩⟩
  intro hd
  have hnot := (hinv.counted.quiet hd).1
  rw [happlying] at hnot
  exact absurd hnot (by simp)

/-! ## Every transition keeps it -/

/-- While `apply` is on the stack the reactor is not drained. -/
theorem Inv.not_drained (hinv : Inv r) (hfrs : r.frames = frame :: fs) (happl : frame.isApply = true) : r.drained = false := by
  have hstk := hinv.controlled.stack
  rw [hfrs] at hstk
  have happlying := (hstk.replace happl happl).1
  by_contra hd
  have hnot := (hinv.counted.quiet (by simpa using hd)).1
  rw [happlying] at hnot
  exact absurd hnot (by simp)

/-- The head of the queue is applied under the next epoch. -/
theorem Inv.shift (hinv : Inv r) {fs : List (Frame M E)} {item : Item M} {queue : List (Item M)}
    (hfrs : r.frames = .apply :: fs) (hque : r.queue = item :: queue) :
    Inv { r with
      epoch := r.epoch + 1
      queue
      frames := .step item :: fs
      applied := r.applied ++ [(item, r.epoch + 1)] } := by
  have hstk := hinv.controlled.stack
  rw [hfrs] at hstk
  have hitem : Frame.isApply (.step item : Frame M E) = true := rfl
  obtain ⟨happlying, hstk', -⟩ := hstk.replace rfl hitem
  have hnot := hinv.not_drained hfrs rfl
  refine ⟨⟨?_, ?_, hinv.logged.once, hinv.logged.fresh, ?_⟩, ⟨?_, ?_⟩,
    { hinv.counted with running := ?_, quiet := ?_ }⟩
  · rw [hinv.logged.inOrder, hque]
    simp
  · rw [map_append, hinv.logged.epochs, range'_concat]
    simp [Nat.add_comm]
  · rw [map_append, hinv.logged.settled, hfrs]
    simp [stepping]
  · rw [happlying]
    exact hstk'
  · intro hidle
    rw [happlying] at hidle
    exact absurd hidle (by simp)
  · intro effect heffect
    exact absurd heffect (by simp [running])
  · exact fun hd => absurd (hnot.symm.trans hd) false_ne_true

/-- The queue is empty, and the activation of `apply` ends. -/
theorem Inv.exit (hinv : Inv r) (hfrs : r.frames = .apply :: fs)
    (hque : r.queue = []) : Inv { r with applying := false, frames := fs } := by
  have hstk := hinv.controlled.stack
  rw [hfrs] at hstk
  have happl : Frame.isApply (.apply : Frame M E) = true := rfl
  obtain ⟨-, -, hstk'⟩ := hstk.replace happl happl
  have hnot := hinv.not_drained hfrs rfl
  have hsett := hinv.logged.settled
  rw [hfrs] at hsett
  refine ⟨{ hinv.logged with settled := ?_ },
    ⟨hstk', fun _ => hque⟩,
    { hinv.counted with running := ?_, quiet := ?_ }⟩
  · rw [hsett]
    rcases stackOf_false hstk' with rfl | rfl <;> rfl
  · intro effect heffect
    rcases stackOf_false hstk' with rfl | rfl <;> exact absurd heffect (by simp [running])
  · exact fun hd => absurd (hnot.symm.trans hd) false_ne_true

theorem Inv.advance (hinv : Inv r) (hstep : r.advance = some r') : Inv r' := by
  unfold Reactor.advance at hstep
  split at hstep
  · rename_i fs hfrs
    split at hstep <;> rename_i hque <;> cases hstep
    · exact hinv.shift hfrs hque
    · exact (hinv.exit hfrs hque).settleIfQuiet
  · rename_i effect rest fs hfrs
    cases hstep
    refine hinv.move hfrs rfl rfl rfl ?_ ?_
    · rw [hinv.counted.inFlight, length_cons]
    · intro e he
      cases he
      exact ⟨_, rfl⟩
  · rename_i fs hfrs
    cases hstep
    exact hinv.move hfrs rfl rfl rfl hinv.counted.inFlight (fun e he => nomatch he)
  · exact nomatch hstep

/-- An effect is over, in a turn of the event loop. -/
theorem Inv.settleEffect (hinv : Inv r) (hfrs : r.frames = []) {i : Nat} (hi : i < r.outstanding.length) :
    Inv { r with effectsInFlight := r.effectsInFlight - 1, outstanding := r.outstanding.eraseIdx i } ∧ r.drained = false := by
  have hnot : r.drained = false := by
    by_contra hd
    have hnone := (hinv.counted.quiet (by simpa using hd)).2.2
    rw [hnone] at hi
    exact absurd hi (by simp)
  refine ⟨⟨{ hinv.logged with }, { hinv.controlled with },
    ⟨?_, ?_, hinv.counted.opened, hinv.counted.resolves, ?_⟩⟩, hnot⟩
  · rw [hinv.counted.inFlight, length_eraseIdx_of_lt hi]
  · intro effect heffect
    rw [hfrs] at heffect
    exact nomatch heffect
  · exact fun hd => absurd (hnot.symm.trans hd) false_ne_true

/-- A reporter goes on the empty stack, or leaves it. -/
theorem Inv.reporter (hinv : Inv r) {fs' : List (Frame M E)} (hfrs : r.frames = fs)
    (hfs : fs = [] ∨ fs = [.reportRejection]) (hfs' : fs' = [] ∨ fs' = [.reportRejection]) : Inv { r with frames := fs' } := by
  have hidle : r.applying = false := by
    have hstk := hinv.controlled.stack
    rw [hfrs] at hstk
    rcases hfs with rfl | rfl
    · exact hstk
    · exact hstk.symm
  have hsett := hinv.logged.settled
  rw [hfrs] at hsett
  refine ⟨{ hinv.logged with settled := ?_ },
    ⟨?_, hinv.controlled.applied⟩,
    { hinv.counted with running := ?_ }⟩
  · rw [hsett]
    rcases hfs with rfl | rfl <;> rcases hfs' with rfl | rfl <;> rfl
  · rw [hidle]
    rcases hfs' with rfl | rfl <;> rfl
  · intro effect heffect
    rcases hfs' with rfl | rfl <;> exact nomatch heffect

/-- **Step lemma.** -/
theorem Inv.next (hinv : Inv r) {a : Action S M E} (hstep : r.next a = some r') : Inv r' := by
  cases a <;> simp only [Reactor.next] at hstep
  case send message =>
    split at hstep
    · cases hstep
      exact hinv.enqueue (by simp) message
    · simp at hstep
  case reenter message =>
    split at hstep
    · rename_i hfrs
      cases hstep
      exact hinv.enqueue (fun _ => hinv.not_drained hfrs rfl) message
    · simp at hstep
  case close =>
    split at hstep
    · cases hstep
      unfold Reactor.close
      split
      · exact hinv
      · refine Inv.settleIfQuiet ⟨{ hinv.logged with }, { hinv.controlled with },
          ⟨hinv.counted.inFlight, hinv.counted.running, by simp, by simp, ?_⟩⟩
        exact fun hd => absurd hd (by simp [drained])
    · simp at hstep
  case advance => exact hinv.advance hstep
  case returns state effects =>
    split at hstep
    · rename_i item fs hfrs
      cases hstep
      exact hinv.move hfrs rfl rfl (by simp [stepping]) hinv.counted.inFlight (by simp [running])
    · simp at hstep
  case throws =>
    split at hstep
    · rename_i item fs hfrs
      cases hstep
      exact hinv.move hfrs rfl rfl (by simp [stepping]) hinv.counted.inFlight (by simp [running])
    · simp at hstep
  case pends =>
    split at hstep
    · rename_i effect rest fs hfrs
      cases hstep
      exact hinv.move hfrs rfl rfl rfl hinv.counted.inFlight (by simp [running])
    · simp at hstep
  case runThrows =>
    split at hstep
    · rename_i effect rest fs hfrs
      cases hstep
      refine hinv.move hfrs rfl rfl rfl ?_ (by simp [running])
      rw [hinv.counted.inFlight, length_tail]
    · simp at hstep
  case resolves i completion =>
    split at hstep
    · rename_i hi
      simp only [and_eq_true, List.isEmpty_iff, decide_eq_true_eq] at hi
      cases hstep
      obtain ⟨hsett, hnot⟩ := hinv.settleEffect hi.1 hi.2
      exact hsett.enqueue (fun _ => hnot) completion
    · simp at hstep
  case rejects i =>
    split at hstep
    · rename_i hi
      simp only [and_eq_true, List.isEmpty_iff, decide_eq_true_eq] at hi
      cases hstep
      exact (hinv.settleEffect hi.1 hi.2).1.reporter hi.1 (Or.inl rfl) (Or.inr rfl)
    · simp at hstep
  case reported =>
    split at hstep
    · rename_i rest fs hfrs
      cases hstep
      exact Inv.settleIfQuiet
        (hinv.move hfrs rfl rfl rfl hinv.counted.inFlight (by simp [running]))
    · rename_i fs hfrs
      cases hstep
      have hstk := hinv.controlled.stack
      rw [hfrs] at hstk
      have hnil : fs = [] := by
        rcases fs with _ | ⟨bottom, _ | ⟨_, _⟩⟩
        · rfl
        · exact absurd hstk.1 (by simp [Frame.isApply])
        · exact hstk.elim
      subst hnil
      exact Inv.settleIfQuiet (hinv.reporter hfrs (Or.inr rfl) (Or.inl rfl))
    · simp at hstep

theorem Inv.start (state : S) : Inv (createReactor state : Reactor S M E) := by
  refine ⟨⟨rfl, rfl, by simp [createReactor], by simp [createReactor], rfl⟩, ⟨rfl, fun _ => rfl⟩,
    ⟨rfl, by simp [createReactor, running], by simp [createReactor], by simp [createReactor], ?_⟩⟩
  simp [createReactor, drained]

/-- **Run lemma.** -/
theorem Inv.run {as : List (Action S M E)} (hrun : Steps Step (createReactor state) as r) : Inv r :=
  hrun.invariant (fun hinv hstep => hinv.next hstep) (Inv.start state)

theorem Inv.idle (hinv : Inv r) (hfrs : r.frames = []) : r.applying = false ∧ r.queue = [] := by
  have hstk := hinv.controlled.stack
  rw [hfrs] at hstk
  exact ⟨hstk, hinv.controlled.applied hstk⟩

/-! ## What every run keeps -/

/-- Messages are applied in admission order, once, one at a time; a refused message never; and close waits
    for all of them. -/
structure Serialized (r : Reactor S M E) : Prop where
  /-- What was admitted is what was applied, and then what is queued. -/
  inOrder : r.admitted = r.applied.map Prod.fst ++ r.queue
  complete : r.frames = [] → r.admitted = r.applied.map Prod.fst
  once : (r.admitted.map Item.ticket).Nodup
  notNested : (r.frames.filter Frame.isApply).length ≤ 1
  epochs : (r.applied.map Prod.snd).Pairwise (· < ·)
  refused : ∀ item ∈ r.refused, ∀ application ∈ r.applied, application.1.ticket ≠ item.ticket
  drained : r.drained = true → r.queue = [] ∧ r.frames.filter Frame.isApply = [] ∧ r.outstanding = []

theorem StackOf.filter_isApply {applying : Bool} (h : StackOf applying fs) :
    (fs.filter Frame.isApply).length = if applying then 1 else 0 := by
  match fs, h with
  | [], h => simp [show applying = false from h]
  | [frame], h => cases applying <;> simp [show frame.isApply = _ from h]
  | [frame, bottom], h => simp [h.1, h.2.1, h.2.2]

theorem Inv.serialized (hinv : Inv r) : Serialized r := by
  have hlen := hinv.controlled.stack.filter_isApply
  have honce := hinv.logged.once
  rw [map_append, nodup_append] at honce
  refine ⟨hinv.logged.inOrder, ?_, honce.1, ?_, ?_, ?_, ?_⟩
  · intro hfrs
    rw [hinv.logged.inOrder, (hinv.idle hfrs).2, append_nil]
  · rw [hlen]
    split <;> simp
  · rw [hinv.logged.epochs]
    exact pairwise_lt_range'
  · intro item hitem application happd heq
    refine honce.2.2 application.1.ticket ?_ item.ticket (mem_map_of_mem hitem) heq
    rw [hinv.logged.inOrder, map_append, map_map]
    exact mem_append_left _ (mem_map_of_mem happd)
  · intro hd
    obtain ⟨happlying, hque, houtstanding⟩ := hinv.counted.quiet hd
    rw [happlying] at hlen
    exact ⟨hque, length_eq_zero_iff.mp hlen, houtstanding⟩

end PiBridge.Reactor
