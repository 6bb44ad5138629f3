import PiBridge.Chord.Remote.Provider
import PiBridge.Lib.Steps

/-!
# `Chord.Remote.CallLink` — a consumer side and a provider side over an ordered link

`LinkEvent` is what may happen next at either end: something this host or the peer does, the oldest message on its way
up or down being handled, an end closing. An end that closed sends and handles nothing more.
-/

namespace PiBridge.Chord.Remote

open Lib

variable {μ α β ε : Type}

structure CallLink (μ α β ε : Type) where
  consumer : Consumer μ α β ε
  provider : Provider μ β ε
  consumerOpen : Bool
  providerOpen : Bool

inductive LinkEvent (μ α β ε : Type) where
  -- The consumer's host.
  | attach (bound : Option Nat)
  | call (hold : Nat) (name : μ) (args : α)
  | cancel (place : Nat) (reason : ε)
  | release (hold : Nat) (error : CallError ε)
  | retry (hold : Nat)
  /-- The consumer handles the oldest message on its way down. -/
  | receive (opening : Opening ε)
  | closeConsumer
  -- The provider's host.
  | wake (hold : Nat) (placement : Placement ε)
  | moved (hold : Nat) (object : ObjectState ε)
  | removed (hold : Nat) (error : ε)
  | endHold (hold : Nat) (error : ε)
  | sendBound (holds : List Nat)
  | sendState (holds : List Nat)
  /-- A handler ended. -/
  | answer (call : Nat) (outcome : Except (CallError ε) (Option β))
  | attachUpstream (hold upstream : Nat)
  | dropped (hold : Nat) (error : CallError ε)
  | unreachable (hold : Nat) (error : ε)
  | forward (upstream : Nat) (message : ConsumerMessage β ε)
  /-- The provider handles the oldest message on its way up. -/
  | handle (placement : Placement ε) (opening : Opening ε)
  | closeProvider

namespace CallLink

/-- Both ends are open; each sent its `hello` first. -/
def new (limit : Nat) : CallLink μ α β ε := ⟨.new, .new limit, true, true⟩

/-- The consumer handles the oldest message on its way down. -/
def receive (s : CallLink μ α β ε) (opening : Opening ε) : CallLink μ α β ε :=
  match s.provider.down with
  | [] => s
  | message :: down =>
    { s with
      consumer := s.consumer.message opening message
      provider := { s.provider with down } }

/-- The provider handles the oldest message on its way up. -/
def handle (methods : Nat → Nat → List μ) (s : CallLink μ α β ε) (placement : Placement ε) (opening : Opening ε) : CallLink μ α β ε :=
  match s.consumer.up with
  | [] => s
  | message :: up =>
    { s with
      consumer := { s.consumer with up }
      provider := s.provider.message methods placement opening message }

/-- What a step of the consumer's host does. -/
def consumerStep [DecidableEq μ] (methods : Nat → Nat → List μ) (s : CallLink μ α β ε) : LinkEvent μ α β ε → CallLink μ α β ε
  | .attach bound => { s with consumer := s.consumer.attach bound }
  | .call hold name args => { s with consumer := s.consumer.call methods hold name args }
  | .cancel place reason => { s with consumer := s.consumer.cancel place reason }
  | .release hold error => { s with consumer := s.consumer.release hold error }
  | .retry hold => { s with consumer := s.consumer.retry hold }
  | .receive opening => s.receive opening
  | .closeConsumer => { s with consumer := s.consumer.closed, consumerOpen := false }
  | _ => s

/-- What a step of the provider's host does. -/
def providerStep (methods : Nat → Nat → List μ) (s : CallLink μ α β ε) : LinkEvent μ α β ε → CallLink μ α β ε
  | .wake hold placement => { s with provider := s.provider.wake hold placement }
  | .moved hold object => { s with provider := s.provider.moved hold object }
  | .removed hold error => { s with provider := s.provider.removed hold error }
  | .endHold hold error => { s with provider := s.provider.endHold hold error }
  | .sendBound holds => { s with provider := s.provider.sendBound holds }
  | .sendState holds => { s with provider := s.provider.sendState holds }
  | .answer call outcome => { s with provider := s.provider.reply call outcome }
  | .attachUpstream hold upstream => { s with provider := s.provider.attach hold upstream }
  | .dropped hold error => { s with provider := s.provider.dropped hold error }
  | .unreachable hold error => { s with provider := s.provider.unreachable hold error }
  | .forward upstream message => { s with provider := s.provider.forward upstream message }
  | .handle placement opening => s.handle methods placement opening
  | .closeProvider => { s with provider := s.provider.closed, providerOpen := false }
  | _ => s

def step [DecidableEq μ] (methods : Nat → Nat → List μ) (s : CallLink μ α β ε) (event : LinkEvent μ α β ε) : CallLink μ α β ε :=
  let s := if s.consumerOpen then s.consumerStep methods event else s
  if s.providerOpen then s.providerStep methods event else s

end CallLink

/-- A run of a link between two hosts. -/
abbrev LinkRun [DecidableEq μ] (methods : Nat → Nat → List μ) :=
  Steps fun (s : CallLink μ α β ε) (event : LinkEvent μ α β ε) (s' : CallLink μ α β ε) => s.step methods event = s'

end PiBridge.Chord.Remote
