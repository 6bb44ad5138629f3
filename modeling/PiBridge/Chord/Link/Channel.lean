import PiBridge.Lib.Steps

/-!
# `Chord.Link.Channel` — a host's end of a link

A channel greets, then hands every message of the peer to its handler in order, and holds the later ones
while the handler works on one asynchronously. Its code is entered from four sides: the link delivers and
closes, the owner sends and closes, a promise settles, a timer ticks. The owner's code runs inside it
(`handler.message`, `handler.opened`, `handler.closed`, `report`) and may do any of the first two before it
returns, so the JavaScript stack is kept: `frames` says which activation is where.

A message is taken as what `#decode` makes of its bytes. A promise settles in a turn of the event loop, with
an empty stack. `close` asks the link to close; the link may call back at once or later.

`out`, `requested`, `arrived`, `received`, `pending`, `overlapped` and `closedCalls` are bookkeeping no
transition reads.
-/

namespace PiBridge.Chord

open Lib

/-- `PROTOCOL_VERSION` -/
def protocolVersion : Nat := 1

namespace Channel

/-- What `#decode` makes of the bytes of a message. -/
inductive Incoming (M : Type) where
  | hello (protocol : Nat) (incarnation : String) (calls : Nat)
  | ping
  | pong
  | message (m : M)
  /-- It does not decode, or fails the schema. -/
  | invalid

inductive Sent (M : Type) where
  | hello
  | ping
  | pong
  | message (m : M)
deriving DecidableEq

inductive ChannelState (M : Type) where
  | greeting (queued : List M)
  | opened (peer : String) (calls : Nat)
  | closed

/-- An activation on the stack, and where it is. -/
inductive Frame (M : Type) where
  /-- `handler.message` runs for the message of this number. -/
  | message (number : Nat)
  /-- The loop of `#release`, at its head or after `#handle`. -/
  | release (handled : Bool)
  /-- The loop of `#greet` that sends what was queued. -/
  | flush (rest : List M)
  /-- `handler.opened` runs. -/
  | opened
  /-- `report` runs in `#failed`. -/
  | report
  /-- `link.close` runs. -/
  | linkClose
  /-- `handler.closed` runs. -/
  | closed

/-- The owner's code runs in this frame. -/
def Frame.isOwner {M : Type} : Frame M → Bool
  | .message _ | .opened | .report | .closed => true
  | .release _ | .flush _ | .linkClose => false

end Channel

open Channel in
/-- The fields of a channel, the stack, and the bookkeeping. -/
structure Channel (M : Type) where
  state : ChannelState M
  pinged : Bool
  held : Option (List (Incoming M) × Nat)
  waiting : Bool
  /-- `start` was called. -/
  started : Bool
  frames : List (Frame M)
  out : List (Sent M)
  /-- What the owner sent before the close. -/
  requested : List M
  /-- What arrived after the handshake and before the close. -/
  arrived : List (Incoming M)
  /-- What the handler was given. -/
  received : List M
  /-- The messages whose promises are pending. -/
  pending : List Nat
  /-- The handler was given a message while a promise was pending. -/
  overlapped : Bool
  closedCalls : Nat

namespace Channel

variable {M : Type}

/-- The constructor. -/
def new : Channel M :=
  { state := .greeting [], pinged := false, held := none, waiting := false, started := false, frames := [],
    out := [], requested := [], arrived := [], received := [], pending := [], overlapped := false,
    closedCalls := 0 }

section Operations

variable (c : Channel M)

def isClosed : Bool :=
  match c.state with
  | .closed => true
  | _ => false

/-- The owner's code is in control. -/
def ownerRuns : Bool :=
  match c.frames with
  | [] => true
  | frame :: _ => frame.isOwner

/-- `#failed`: a protocol error is reported, then the link is closed. -/
def failed : Channel M :=
  if c.isClosed then c else { c with frames := .report :: c.frames }

/-- The handler is given a message. -/
def deliver (m : M) : Channel M :=
  { c with
    frames := .message c.received.length :: c.frames
    received := c.received ++ [m]
    overlapped := c.overlapped || !c.pending.isEmpty }

/-- `#greet` -/
def greet (queued : List M) : Incoming M → Channel M
  | .hello protocol incarnation calls =>
    if protocol = protocolVersion then
      { c with state := .opened incarnation calls, frames := .flush queued :: c.frames }
    else c.failed
  | _ => c.failed

/-- `#handle` -/
def handle (bytes : Incoming M) : Channel M :=
  match c.state with
  | .greeting queued => c.greet queued bytes
  | _ =>
    match bytes with
    | .hello _ _ _ | .invalid => c.failed
    | .ping => { c with out := c.out ++ [.pong] }
    | .pong => c
    | .message m => c.deliver m

/-- `#receive` -/
def receive (bytes : Incoming M) : Channel M :=
  match c.state with
  | .closed => c
  | .greeting _ =>
    match c.held with
    | none => { c with pinged := false }.handle bytes
    | some (queue, next) => { c with pinged := false, held := some (queue ++ [bytes], next) }
  | .opened _ _ =>
    match c.held with
    | none => { c with pinged := false, arrived := c.arrived ++ [bytes] }.handle bytes
    | some (queue, next) =>
      { c with pinged := false, arrived := c.arrived ++ [bytes], held := some (queue ++ [bytes], next) }

/-- `#hold`, for the promise of the message of this number. -/
def hold (number : Nat) : Channel M :=
  { c with held := some (c.held.getD ([], 0)), waiting := true, pending := c.pending ++ [number] }

/-- The next transition of the channel's own loops. -/
def advance : Option (Channel M) :=
  match c.frames with
  | .release false :: fs =>
    match c.held with
    | none => some { c with frames := fs }
    | some (queue, next) =>
      if h : next < queue.length then
        match c.state with
        | .opened _ _ =>
          some ({ c with held := some (queue, next + 1), frames := .release true :: fs }.handle
            (queue.get ⟨next, h⟩))
        | _ => some { c with frames := fs }
      else some { c with held := none, frames := fs }
  | .release true :: fs =>
    if c.waiting then
      some { c with held := c.held.map fun (queue, next) => (queue.drop next, 0), frames := fs }
    else some { c with frames := .release false :: fs }
  | .flush (m :: rest) :: fs =>
    -- A link that closed meanwhile drops the message.
    some { c with
      frames := .flush rest :: fs
      out := if c.isClosed then c.out else c.out ++ [.message m] }
  | .flush [] :: fs => some { c with frames := .opened :: fs }
  | _ => none

end Operations

inductive Action (M : Type) where
  | start
  | send (m : M)
  | close
  /-- The timer finds the peer silent: a `ping`. -/
  | tick
  /-- The link delivers a message. -/
  | receive (bytes : Incoming M)
  /-- The link has closed, from either end. -/
  | linkClosed
  | advance
  /-- The owner's callback returns. -/
  | returns
  /-- `handler.message` returns a promise. -/
  | promises
  /-- `handler.message` or `handler.opened` throws. -/
  | throws
  /-- `link.close` returns. -/
  | closeReturns
  | resolves (number : Nat)
  | rejects (number : Nat)

/-- One transition; `none` when the action is not possible. -/
def next (c : Channel M) : Action M → Option (Channel M)
  | .start =>
    if c.ownerRuns && !c.started then some { c with started := true, out := c.out ++ [.hello] } else none
  | .send m =>
    if c.ownerRuns then
      match c.state with
      | .closed => some c
      | .greeting queued =>
        some { c with state := .greeting (queued ++ [m]), requested := c.requested ++ [m] }
      | .opened _ _ => some { c with out := c.out ++ [.message m], requested := c.requested ++ [m] }
    else none
  | .close => if c.ownerRuns then some { c with frames := .linkClose :: c.frames } else none
  | .tick =>
    if c.ownerRuns then
      match c.state with
      | .opened _ _ => if c.pinged then some c else some { c with pinged := true, out := c.out ++ [.ping] }
      | _ => some c
    else none
  | .receive bytes => if c.ownerRuns && c.started then some (c.receive bytes) else none
  | .linkClosed =>
    if c.started then
      if c.isClosed then some c
      else some { c with
        state := .closed
        held := none
        frames := .closed :: c.frames
        closedCalls := c.closedCalls + 1 }
    else none
  | .advance => c.advance
  | .returns =>
    match c.frames with
    | .message _ :: fs | .opened :: fs | .closed :: fs => some { c with frames := fs }
    | .report :: fs => some { c with frames := .linkClose :: fs }
    | _ => none
  | .promises =>
    match c.frames with
    | .message number :: fs => some ({ c with frames := fs }.hold number)
    | _ => none
  | .throws =>
    match c.frames with
    | .message _ :: fs | .opened :: fs => some ({ c with frames := fs }.failed)
    | _ => none
  | .closeReturns =>
    match c.frames with
    | .linkClose :: fs => some { c with frames := fs }
    | _ => none
  | .resolves number =>
    if c.frames.isEmpty && c.pending.contains number then
      some { c with pending := c.pending.erase number, waiting := false, frames := [.release false] }
    else none
  | .rejects number =>
    if c.frames.isEmpty && c.pending.contains number then
      some ({ c with pending := c.pending.erase number }.failed)
    else none

def Step (c : Channel M) (a : Action M) (c' : Channel M) : Prop := c.next a = some c'

end Channel

end PiBridge.Chord
