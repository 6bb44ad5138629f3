import PiBridge.Lib.Steps

/-!
# `Core.Reactor` — one mailbox, one synchronous step function, and a drain

`createReactor` is a closure over a handful of flags and a queue; what makes it delicate is that its own
code is interrupted by code it does not own. The step function, `effect.run` and the error reporter run
synchronously in the middle of `apply`, and may send and close. So the model keeps the JavaScript stack:
`frames` says which activation is where, and the owner's code acts while one of its frames is on top or the
stack is empty. Between two actions of the owner the reactor's own code advances, one transition at a time.

Nothing is assumed of the step function: in a `step` frame it may send, close, return any state with any
effects, or throw. A promise that settles is a turn of the event loop, so it needs an empty stack.

`admitted`, `refused`, `applied`, `settled` and `outstanding` are bookkeeping no transition reads.
-/

namespace PiBridge

open Lib

namespace Reactor

inductive ReactorPhase where
  | opened
  | closing
  | closed
deriving DecidableEq

/-- A queued message. The ticket names the promise that `enqueue` returned for it. -/
structure Item (M : Type) where
  message : M
  ticket : Nat

/-- An activation on the stack, and where it is. All but the last are points of `apply`. -/
inductive Frame (M E : Type) where
  /-- `while (queue.length > 0)` -/
  | apply
  /-- `options.step` runs. -/
  | step (item : Item M)
  /-- `for (const effect of step.effects ?? [])` -/
  | effects (rest : List E)
  /-- `effect.run` runs, up to the promise it returns. -/
  | run (effect : E) (rest : List E)
  /-- `onUnhandledEffectError` runs, for a `run` that threw. -/
  | report (rest : List E)
  /-- `onUnhandledEffectError` runs, for a promise that rejected. -/
  | reportRejection

namespace Frame

variable {M E : Type}

/-- An activation of `apply`. -/
def isApply : Frame M E → Bool
  | reportRejection => false
  | _ => true

/-- The owner's code runs in this frame. -/
def isOwner : Frame M E → Bool
  | apply | effects _ => false
  | _ => true

end Frame

end Reactor

open Reactor in
/-- The variables of the closure, the stack, and the bookkeeping. -/
structure Reactor (S M E : Type) where
  state : S
  phase : ReactorPhase
  epoch : Nat
  applying : Bool
  effectsInFlight : Nat
  /-- `drainResolve !== undefined` -/
  drainResolve : Bool
  /-- `drain !== undefined` -/
  drain : Bool
  queue : List (Item M)
  frames : List (Frame M E)
  tickets : Nat
  admitted : List (Item M)
  refused : List (Item M)
  /-- Each application, with its epoch. -/
  applied : List (Item M × Nat)
  /-- The promises of `enqueue` that are settled, and whether they resolved. -/
  settled : List (Nat × Bool)
  /-- The effects that were started and are not over. -/
  outstanding : List E

variable {S M E : Type}

/-- `createReactor` -/
def createReactor (state : S) : Reactor S M E :=
  { state, phase := .opened, epoch := 0, applying := false, effectsInFlight := 0, drainResolve := false,
    drain := false, queue := [], frames := [], tickets := 0, admitted := [], refused := [], applied := [],
    settled := [], outstanding := [] }

namespace Reactor

section Operations

variable (r : Reactor S M E)

/-- The promise of `close` is resolved. -/
def drained : Bool := r.drain && !r.drainResolve

/-- The owner's code is in control. -/
def ownerRuns : Bool :=
  match r.frames with
  | [] => true
  | frame :: _ => frame.isOwner

def settleIfQuiet : Reactor S M E :=
  if r.drainResolve && !r.applying && r.queue.isEmpty && r.effectsInFlight == 0 then
    { r with phase := .closed, drainResolve := false }
  else r

/-- The call of `apply`: it returns at once, or its loop is now on the stack. -/
def apply : Reactor S M E := if r.applying then r else { r with applying := true, frames := .apply :: r.frames }

def enqueue (message : M) (internal : Bool) : Reactor S M E :=
  if !internal && r.phase != .opened then
    { r with tickets := r.tickets + 1, refused := r.refused ++ [⟨message, r.tickets⟩] }
  else
    apply { r with
      tickets := r.tickets + 1
      queue := r.queue ++ [⟨message, r.tickets⟩]
      admitted := r.admitted ++ [⟨message, r.tickets⟩] }

def close : Reactor S M E :=
  if r.drain then r
  else settleIfQuiet { r with phase := .closing, drain := true, drainResolve := true }

/-- The next transition of the reactor's own code. -/
def advance : Option (Reactor S M E) :=
  match r.frames with
  | .apply :: fs =>
    match r.queue with
    | item :: queue =>
      some { r with
        epoch := r.epoch + 1
        queue
        frames := .step item :: fs
        applied := r.applied ++ [(item, r.epoch + 1)] }
    | [] => some (settleIfQuiet { r with applying := false, frames := fs })
  | .effects (effect :: rest) :: fs =>
    some { r with
      effectsInFlight := r.effectsInFlight + 1
      frames := .run effect rest :: fs
      outstanding := effect :: r.outstanding }
  | .effects [] :: fs => some { r with frames := .apply :: fs }
  | _ => none

end Operations

inductive Action (S M E : Type) where
  /-- `reactor.send(message)` -/
  | send (message : M)
  /-- `context.send(message)`, inside the step. -/
  | reenter (message : M)
  | close
  | advance
  /-- The step returns. -/
  | returns (state : S) (effects : List E)
  /-- The step throws. -/
  | throws
  /-- `effect.run` returns its promise. -/
  | pends
  /-- `effect.run` throws. -/
  | runThrows
  /-- The promise of an outstanding effect resolves to a completion message. -/
  | resolves (i : Nat) (completion : M)
  | rejects (i : Nat)
  /-- `onUnhandledEffectError` returns or throws. -/
  | reported

/-- One transition; `none` when the action is not possible. -/
def next (r : Reactor S M E) : Action S M E → Option (Reactor S M E)
  | .send message => if r.ownerRuns then some (r.enqueue message false) else none
  | .reenter message =>
    match r.frames with
    | .step _ :: _ => some (r.enqueue message true)
    | _ => none
  | .close => if r.ownerRuns then some r.close else none
  | .advance => r.advance
  | .returns state effects =>
    match r.frames with
    | .step item :: fs =>
      some { r with state, frames := .effects effects :: fs, settled := r.settled ++ [(item.ticket, true)] }
    | _ => none
  | .throws =>
    match r.frames with
    | .step item :: fs =>
      some { r with frames := .apply :: fs, settled := r.settled ++ [(item.ticket, false)] }
    | _ => none
  | .pends =>
    match r.frames with
    | .run _ rest :: fs => some { r with frames := .effects rest :: fs }
    | _ => none
  | .runThrows =>
    match r.frames with
    | .run _ rest :: fs =>
      some { r with
        effectsInFlight := r.effectsInFlight - 1
        frames := .report rest :: fs
        outstanding := r.outstanding.tail }
    | _ => none
  | .resolves i completion =>
    if r.frames.isEmpty && i < r.outstanding.length then
      some (enqueue { r with
        effectsInFlight := r.effectsInFlight - 1
        outstanding := r.outstanding.eraseIdx i } completion true)
    else none
  | .rejects i =>
    if r.frames.isEmpty && i < r.outstanding.length then
      some { r with
        effectsInFlight := r.effectsInFlight - 1
        frames := [.reportRejection]
        outstanding := r.outstanding.eraseIdx i }
    else none
  | .reported =>
    match r.frames with
    | .report rest :: fs => some (settleIfQuiet { r with frames := .effects rest :: fs })
    | .reportRejection :: fs => some (settleIfQuiet { r with frames := fs })
    | _ => none

def Step (r : Reactor S M E) (a : Action S M E) (r' : Reactor S M E) : Prop := r.next a = some r'

end Reactor

end PiBridge
