import PiBridge.Chord.Remote.Calls

/-!
# `Chord.Remote.Provider` — the provider side of a link: its holds and the calls on them

A provider side serves the holds its peer sent, or relays them over another link, and runs their calls, at most `limit`
at once. A bound hold follows its object: a swap in place binds it afresh and an object that leaves `live` unbinds it. A
hold that rebinds still takes calls by the names it was bound with.

The window of `bound` and `state` messages is not modelled: a binding goes out at any moment after it may. A provider
side that holds nothing is dropped and made anew by the next hold, which changes nothing here. `down` is what was sent
and not received yet; a protocol error closes the link, which is a step of its own.
-/

namespace PiBridge.Chord.Remote

open Lib

/-- What an object shows its holds: `attachable` is the instance whose members still change. -/
inductive ObjectState (ε : Type) where
  | live (variant instance' : Nat)
  | loading (attachable : Option Nat) (swapsInPlace : Bool)
  | failed (attachable : Option Nat) (error : ε)

/-- `HoldState`, with variants for their names; a released hold is in no table. -/
inductive HoldState where
  | unplaced
  | pending (toldFailed : Bool) (previous : Option Nat)
  | binding (previous : Option Nat)
  | bound (variant instance' : Nat)
  | refused

/-- A hold: served here, with the object it holds, or relayed, with the upstream link it is held on. -/
inductive Entry (ε : Type) where
  | served (state : HoldState) (object : Option (ObjectState ε))
  | relayed (upstream : Option Nat)

/-- `RunningCall`, with the method it runs when it is served here. -/
structure RunningCall (μ : Type) where
  hold : Nat
  method : Option μ

inductive ProtocolError where
  | holdInUse
  | callInUse
  | tooManyCalls
  | noMethod
  | malformed
  /-- A binding of an object without a variant. -/
  | unboundObject

/-- What placing a hold comes to. -/
inductive Placement (ε : Type) where
  | unplaced
  | relayed (upstream : Option Nat)
  | malformed
  | refused (error : ε)
  | served (object : ObjectState ε)

structure Provider (μ β ε : Type) where
  entries : Assoc Nat (Entry ε)
  calls : Assoc Nat (RunningCall μ)
  limit : Nat
  down : List (ConsumerMessage β ε)
  errors : List ProtocolError

variable {μ α β ε : Type}

/-- `#names` -/
def HoldState.names : HoldState → Option Nat
  | .bound variant _ => some variant
  | .pending _ previous | .binding previous => previous
  | .unplaced | .refused => none

namespace Provider

/-- A provider side whose `hello` announced its limit. -/
def new (limit : Nat) : Provider μ β ε := ⟨[], [], limit, [.hello limit], []⟩

def send (s : Provider μ β ε) (message : ConsumerMessage β ε) : Provider μ β ε := { s with down := s.down ++ [message] }

def fail (s : Provider μ β ε) (error : ProtocolError) : Provider μ β ε := { s with errors := s.errors ++ [error] }

def setHold (s : Provider μ β ε) (hold : Nat) (entry : Entry ε) : Provider μ β ε := { s with entries := Assoc.set s.entries hold entry }

/-! ## The tables -/

/-- The message of a reply. -/
def replyOf (id : Nat) : Except (CallError ε) (Option β) → ConsumerMessage β ε
  | .ok value => .result id value
  | .error error => .error id error

/-- `reply` -/
def reply (s : Provider μ β ε) (id : Nat) (outcome : Except (CallError ε) (Option β)) : Provider μ β ε :=
  if (Assoc.get? s.calls id).isSome then send { s with calls := Assoc.erase s.calls id } (replyOf id outcome) else s

/-- `#refuse` -/
def refuseCall (s : Provider μ β ε) (id : Nat) (error : CallError ε) : Provider μ β ε := s.send (.error id error)

/-- `forget` -/
def forget (s : Provider μ β ε) (hold : Nat) : Provider μ β ε :=
  { s with entries := Assoc.erase s.entries hold, calls := s.calls.filter (·.2.hold ≠ hold) }

/-- Answers the calls of a hold with an error, as `unbound` and `upstreamDropped` do. -/
def unbound (s : Provider μ β ε) (hold : Nat) (error : CallError ε) : Provider μ β ε :=
  (s.calls.filter (·.2.hold = hold)).foldl (fun s call => s.reply call.1 (.error error)) s

/-- `closed` -/
def closed (s : Provider μ β ε) : Provider μ β ε := { s with entries := [], calls := [] }

/-! ## A hold served here -/

/-- `Hold.#refuse` -/
def refuse (s : Provider μ β ε) (hold : Nat) (error : ε) : Provider μ β ε :=
  (s.setHold hold (.served .refused none)).send (.failed hold error)

/-- `#pending` -/
def pending (s : Provider μ β ε) (hold : Nat) (toldFailed : Bool) (previous : Option Nat) (object : ObjectState ε) : Provider μ β ε :=
  match object with
  | .live _ _ => s.setHold hold (.served (.binding previous) object)
  | .failed _ error => (s.setHold hold (.served (.pending true none) object)).send (.failed hold error)
  | .loading _ _ =>
    if toldFailed then (s.setHold hold (.served (.pending false none) object)).send (.loading hold)
    else s.setHold hold (.served (.pending toldFailed previous) object)

/-- `#unbind` -/
def unbind (s : Provider μ β ε) (hold : Nat) (state : HoldState) (object : ObjectState ε) : Provider μ β ε :=
  match object with
  | .failed _ error => (s.unbound hold (.given error)).pending hold false none object
  | _ => (s.send (.loading hold)).pending hold false state.names object

/-- `moved`, with what the object shows now. -/
def moved (s : Provider μ β ε) (hold : Nat) (object : ObjectState ε) : Provider μ β ε :=
  match Assoc.get? s.entries hold with
  | some (.served (.pending toldFailed previous) (some _)) => s.pending hold toldFailed previous object
  | some (.served (.binding previous) (some _)) =>
    match object with
    | .live _ _ | .loading _ true => s.setHold hold (.served (.binding previous) object)
    | _ => s.unbind hold (.binding previous) object
  | some (.served (.bound variant instance') (some _)) =>
    match object with
    | .live _ current =>
      -- A swap: `#rebind`.
      if current ≠ instance' then s.setHold hold (.served (.binding (some variant)) object)
      else s.setHold hold (.served (.bound variant instance') object)
    | .loading attachable _ | .failed attachable _ =>
      -- Its instance still changes.
      if attachable = some instance' then s.setHold hold (.served (.bound variant instance') object)
      else s.unbind hold (.bound variant instance') object
  | _ => s

/-- `Hold.start` -/
def start (s : Provider μ β ε) (hold : Nat) : Placement ε → Provider μ β ε
  | .unplaced => s.setHold hold (.served .unplaced none)
  | .relayed upstream => s.setHold hold (.relayed upstream)
  | .malformed => (s.setHold hold (.served (.pending false none) none)).fail .malformed
  | .refused error => s.refuse hold error
  | .served object => s.pending hold false none object

/-- `wake` -/
def wake (s : Provider μ β ε) (hold : Nat) (placement : Placement ε) : Provider μ β ε :=
  match Assoc.get? s.entries hold with
  | some (.served .unplaced _) => s.start hold placement
  | some (.served .refused _) => (s.send (.loading hold)).start hold placement
  | _ => s

/-- `retry`: a refused hold is started again, the object of another is asked for an attempt. -/
def retry (s : Provider μ β ε) (hold : Nat) (placement : Placement ε) : Provider μ β ε :=
  match Assoc.get? s.entries hold with
  | some (.served .refused _) => (s.send (.loading hold)).start hold placement
  | _ => s

/-- `removed` -/
def removed (s : Provider μ β ε) (hold : Nat) (error : ε) : Provider μ β ε :=
  match Assoc.get? s.entries hold with
  | some (.served _ (some _)) => (s.unbound hold (.given error)).refuse hold error
  | _ => s

/-- `Hold.end`, `RelayedHold.revoked` -/
def endHold (s : Provider μ β ε) (hold : Nat) (error : ε) : Provider μ β ε :=
  if (Assoc.get? s.entries hold).isSome then (s.forget hold).send (.gone hold error) else s

/-- The entries of a `bound`: each hold that waits for it is bound to its object's variant, which a live object has. -/
def boundEntries (s : Provider μ β ε) : List Nat → Provider μ β ε × Option (List (Nat × Nat))
  | [] => (s, some [])
  | hold :: rest =>
    match Assoc.get? s.entries hold with
    | some (.served (.binding _) (some (.live variant instance'))) =>
      match (s.setHold hold (.served (.bound variant instance') (some (.live variant instance')))).boundEntries rest with
      | (s, some holds) => (s, some ((hold, variant) :: holds))
      | (s, none) => (s, none)
    | some (.served (.binding _) _) => (s, none)
    | _ => s.boundEntries rest

/-- A message of entries, when there are any. -/
def sendEntries {κ : Type} (s : Provider μ β ε) (message : List κ → ConsumerMessage β ε) (entries : List κ) : Provider μ β ε :=
  if entries.isEmpty then s else s.send (message entries)

/-- `bind`, `#slotFreed`: the bindings that wait go out. -/
def sendBound (s : Provider μ β ε) (holds : List Nat) : Provider μ β ε :=
  match s.boundEntries holds with
  | (s, some entries) => s.sendEntries .bound entries
  | (s, none) => s.fail .unboundObject

/-- Whether a hold is bound. -/
def isBound (s : Provider μ β ε) (hold : Nat) : Bool :=
  match Assoc.get? s.entries hold with
  | some (.served (.bound _ _) _) => true
  | _ => false

/-- `#flush`, `#slotFreed`: the state of bound holds goes out. -/
def sendState (s : Provider μ β ε) (holds : List Nat) : Provider μ β ε := s.sendEntries .state (holds.filter s.isBound)

/-! ## A relayed hold -/

/-- `#relayedHold`: whether a hold is relayed over an upstream link. -/
def relayedOver (s : Provider μ β ε) (upstream hold : Nat) : Bool :=
  match Assoc.get? s.entries hold with
  | some (.relayed link) => link = some upstream
  | _ => false

/-- `RelayedHold.attach` -/
def attach (s : Provider μ β ε) (hold upstream : Nat) : Provider μ β ε :=
  match Assoc.get? s.entries hold with
  | some (.relayed _) => s.setHold hold (.relayed (some upstream))
  | _ => s

/-- `RelayedHold.dropped`, `upstreamDropped` -/
def dropped (s : Provider μ β ε) (hold : Nat) (error : CallError ε) : Provider μ β ε :=
  match Assoc.get? s.entries hold with
  | some (.relayed (some _)) => ((s.setHold hold (.relayed none)).unbound hold error).send (.loading hold)
  | _ => s

/-- `RelayedHold.unreachable` -/
def unreachable (s : Provider μ β ε) (hold : Nat) (error : ε) : Provider μ β ε :=
  match Assoc.get? s.entries hold with
  | some (.relayed _) => s.send (.failed hold error)
  | _ => s

/-- A reply from upstream, of a call relayed over it. -/
def forwardReply (s : Provider μ β ε) (upstream id : Nat) (outcome : Except (CallError ε) (Option β)) : Provider μ β ε :=
  match Assoc.get? s.calls id with
  | some call => if s.relayedOver upstream call.hold then s.reply id outcome else s
  | none => s

/-- `forward` -/
def forward (s : Provider μ β ε) (upstream : Nat) : ConsumerMessage β ε → Provider μ β ε
  | .hello _ => s
  | .bound holds => s.sendEntries .bound (holds.filter fun entry => s.relayedOver upstream entry.1)
  | .state holds => s.sendEntries .state (holds.filter (s.relayedOver upstream))
  | .result id value => s.forwardReply upstream id (.ok value)
  | .error id error => s.forwardReply upstream id (.error error)
  | .gone hold error => if s.relayedOver upstream hold then (s.forget hold).send (.gone hold error) else s
  | .failed hold error => if s.relayedOver upstream hold then s.send (.failed hold error) else s
  | .loading hold => if s.relayedOver upstream hold then s.send (.loading hold) else s

/-! ## What the consumer sent -/

/-- `#hold` -/
def hold (s : Provider μ β ε) (hold : Nat) (placement : Placement ε) : Provider μ β ε :=
  if (Assoc.get? s.entries hold).isSome then s.fail .holdInUse else s.start hold placement

def run (s : Provider μ β ε) (id hold : Nat) (method : Option μ) : Provider μ β ε := { s with calls := Assoc.set s.calls id ⟨hold, method⟩ }

/-- `#call`; `methods` are the names of a hold's variant. -/
def call (methods : Nat → Nat → List μ) (s : Provider μ β ε) (id hold method : Nat) (opening : Opening ε) : Provider μ β ε :=
  if (Assoc.get? s.calls id).isSome then s.fail .callInUse
  else
    match Assoc.get? s.entries hold with
    | none => s
    | some entry =>
      if s.calls.length ≥ s.limit then s.fail .tooManyCalls
      else
        match entry with
        | .relayed upstream =>
          match opening with
          | .tooLarge _ error => s.refuseCall id (.given error)
          | _ =>
            -- Registered first: a hold without an upstream link answers at once.
            match upstream with
            | some _ => s.run id hold none
            | none => (s.run id hold none).reply id (.error (.unavailable ("hold " ++ toString hold ++ ": its upstream link is down")))
        | .served state _ =>
          match state.names with
          | none => s.refuseCall id (.notReady ("hold " ++ toString hold ++ ": not bound yet"))
          | some variant =>
            match (methods hold variant)[method]? with
            | none => s.fail .noMethod
            | some name =>
              match opening with
              | .opened => s.run id hold (some name)
              | .tooLarge _ error => s.refuseCall id (.given error)
              | .malformed => s.fail .malformed

/-- `message` -/
def message (methods : Nat → Nat → List μ) (s : Provider μ β ε) (placement : Placement ε) (opening : Opening ε) :
    ProviderMessage α → Provider μ β ε
  | .hold hold => s.hold hold placement
  | .release hold => s.forget hold
  | .call id hold method _ => s.call methods id hold method opening
  | .abort id => { s with calls := Assoc.erase s.calls id }
  | .retry hold => s.retry hold placement
  | .ack => s

end Provider

end PiBridge.Chord.Remote
