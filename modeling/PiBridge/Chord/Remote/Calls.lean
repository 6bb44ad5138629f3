import PiBridge.Lib.Assoc

/-!
# `Chord.Remote.Calls` — the consumer side of a link, and its window of calls

A consumer side holds objects of its peer and calls their methods. At most as many calls are in flight as the peer said
in its `hello`; the others wait in one queue. A method travels as an index into the names of the variant the hold is
bound to, taken when the call is made.

`up` is what was sent and not received yet. `submitted` and `log` are bookkeeping: no function reads them. What a part of
a message holds is opaque, and what opening it comes to is an argument of the handler. Spans, carriers, replicas and the
acknowledgement's own window are left out.
-/

namespace PiBridge.Chord.Remote

open Lib

/-- Why a call was not answered: an error of the link's own, or one it was given. -/
inductive CallError (ε : Type) where
  | unavailable (message : String)
  | notReady (message : String)
  | given (error : ε)

/-- The messages of a consumer side. -/
inductive ProviderMessage (α : Type) where
  | hold (hold : Nat)
  | release (hold : Nat)
  | call (call hold method : Nat) (args : α)
  | abort (call : Nat)
  | retry (hold : Nat)
  | ack

/-- The messages of a provider side. A `bound` names each hold's variant; a result without a value is `null`. -/
inductive ConsumerMessage (β ε : Type) where
  | hello (calls : Nat)
  | bound (holds : List (Nat × Nat))
  | state (holds : List Nat)
  | failed (hold : Nat) (error : ε)
  | loading (hold : Nat)
  | result (call : Nat) (value : Option β)
  | error (call : Nat) (error : CallError ε)
  | gone (hold : Nat) (error : ε)

/-- What opening the parts of a message comes to. -/
inductive Opening (ε : Type) where
  | opened
  /-- Past the limits, of the holds given. -/
  | tooLarge (holds : List Nat) (error : ε)
  | malformed

/-- `OutgoingCall`, with its place among the calls submitted. -/
structure OutgoingCall (α : Type) where
  place : Nat
  hold : Nat
  method : Nat
  args : α

/-- The state of a reference, as calls see it. -/
inductive RefState where
  | loading
  | live
  | failed

/-- `RemoteObject`: its state, and the variant last bound. -/
structure RemoteObject where
  state : RefState
  bound : Option Nat

/-- A call as it was made: its hold, the name of its method, and the variant the index of the method is of. -/
structure Submission (μ : Type) where
  hold : Nat
  variant : Nat
  name : μ

/-- What a consumer side did about a call. -/
inductive CallEvent (β ε : Type) where
  /-- It was sent with the index of its method, its hold being bound to `bound`. -/
  | sent (place method : Nat) (bound : Option Nat)
  | settled (place : Nat) (outcome : Except (CallError ε) (Option β))

structure Consumer (μ α β ε : Type) where
  entries : Assoc Nat RemoteObject
  calls : Assoc Nat (OutgoingCall α)
  waiting : List (OutgoingCall α)
  limit : Nat
  inFlight : Int
  nextHold : Nat
  nextCall : Nat
  up : List (ProviderMessage α)
  submitted : List (Submission μ)
  log : List (CallEvent β ε)

variable {μ α β ε : Type}

namespace Consumer

/-- A consumer side before the peer's `hello`. -/
def new : Consumer μ α β ε := ⟨[], [], [], 0, 0, 0, 0, [], [], []⟩

/-- The variant a hold is bound to. -/
def boundTo (s : Consumer μ α β ε) (hold : Nat) : Option Nat := (Assoc.get? s.entries hold).bind RemoteObject.bound

/-- `HostLink.send` -/
def post (s : Consumer μ α β ε) (message : ProviderMessage α) : Consumer μ α β ε := { s with up := s.up ++ [message] }

def settle (s : Consumer μ α β ε) (outcome : Except (CallError ε) (Option β)) (call : OutgoingCall α) : Consumer μ α β ε :=
  { s with log := s.log ++ [.settled call.place outcome] }

/-- `call.reject(error)` for each. -/
def reject (s : Consumer μ α β ε) (calls : List (OutgoingCall α)) (error : CallError ε) : Consumer μ α β ε :=
  calls.foldl (settle · (.error error)) s

/-! ## `CallWindow` -/

/-- `#send` -/
def send (s : Consumer μ α β ε) (call : OutgoingCall α) : Consumer μ α β ε :=
  { s with
    nextCall := s.nextCall + 1
    calls := Assoc.set s.calls s.nextCall call
    up := s.up ++ [.call s.nextCall call.hold call.method call.args]
    log := s.log ++ [.sent call.place call.method (s.boundTo call.hold)] }

/-- `#drain`, over the calls left. -/
def drainFrom (s : Consumer μ α β ε) : List (OutgoingCall α) → Consumer μ α β ε
  | [] => s
  | call :: rest =>
    if s.inFlight ≥ s.limit then s
    else drainFrom (send { s with waiting := rest, inFlight := s.inFlight + 1 } call) rest

/-- `#drain` -/
def drain (s : Consumer μ α β ε) : Consumer μ α β ε := s.drainFrom s.waiting

/-- `submit` -/
def submit (s : Consumer μ α β ε) (call : OutgoingCall α) : Consumer μ α β ε :=
  if s.waiting.isEmpty ∧ s.inFlight < s.limit then send { s with inFlight := s.inFlight + 1 } call
  else { s with waiting := s.waiting ++ [call] }

/-- `opened` -/
def opened (s : Consumer μ α β ε) (limit : Nat) : Consumer μ α β ε := drain { s with limit }

/-- `freed` -/
def freed (s : Consumer μ α β ε) : Consumer μ α β ε := drain { s with inFlight := s.inFlight - 1 }

/-- `removeHold`, and what the caller does with the calls removed. -/
def rejectWaiting (s : Consumer μ α β ε) (hold : Nat) (error : CallError ε) : Consumer μ α β ε :=
  reject { s with waiting := s.waiting.filter (·.hold ≠ hold) } (s.waiting.filter (·.hold = hold)) error

/-! ## `ConsumerSide` -/

/-- The loop of `#failCalls` over the calls in flight. A call sent while it runs is of another hold. -/
def dropCalls (s : Consumer μ α β ε) (hold : Nat) : List (Nat × OutgoingCall α) → Consumer μ α β ε
  | [] => s
  | (id, call) :: rest =>
    if call.hold = hold then dropCalls (freed { s with calls := Assoc.erase s.calls id }) hold rest else dropCalls s hold rest

/-- `#failCalls` -/
def failCalls (s : Consumer μ α β ε) (hold : Nat) (error : CallError ε) : Consumer μ α β ε :=
  let failed := s.waiting.filter (·.hold = hold) ++ (s.calls.map Prod.snd).filter (·.hold = hold)
  reject (dropCalls { s with waiting := s.waiting.filter (·.hold ≠ hold) } hold s.calls) failed error

/-- `attach`: an object is held, with the variant it was bound to on an earlier link. -/
def attach (s : Consumer μ α β ε) (bound : Option Nat) : Consumer μ α β ε :=
  post
    { s with
      nextHold := s.nextHold + 1
      entries := Assoc.set s.entries s.nextHold ⟨.loading, bound⟩ }
    (.hold s.nextHold)

/-- `RemoteObject.call` and `ConsumerSide.call`, of a live object; `methods` are the names of a hold's variant. -/
def call [DecidableEq μ] (methods : Nat → Nat → List μ) (s : Consumer μ α β ε) (hold : Nat) (name : μ) (args : α) : Consumer μ α β ε :=
  match Assoc.get? s.entries hold with
  | some ⟨.live, some variant⟩ =>
    if name ∈ methods hold variant then
      let call : OutgoingCall α := ⟨s.submitted.length, hold, (methods hold variant).idxOf name, args⟩
      submit { s with submitted := s.submitted ++ [⟨hold, variant, name⟩] } call
    else s
  | _ => s

/-- The call of a place that is in flight. -/
def findSent (s : Consumer μ α β ε) (place : Nat) : Option (Nat × OutgoingCall α) := s.calls.find? (·.2.place = place)

/-- The caller's signal aborts: `#cancel`, then the caller is rejected. A call that settled follows its signal no more. -/
def cancel (s : Consumer μ α β ε) (place : Nat) (reason : ε) : Consumer μ α β ε :=
  match s.waiting.find? (·.place = place) with
  | some call => settle { s with waiting := s.waiting.filter (·.place ≠ place) } (.error (.given reason)) call
  | none =>
    match s.findSent place with
    | some (id, call) => settle (freed (post { s with calls := Assoc.erase s.calls id } (.abort id))) (.error (.given reason)) call
    | none => s

/-- `forget` -/
def forget (s : Consumer μ α β ε) (hold : Nat) (error : CallError ε) : Consumer μ α β ε :=
  failCalls { s with entries := Assoc.erase s.entries hold } hold error

/-- `release`, of a hold the object has. -/
def release (s : Consumer μ α β ε) (hold : Nat) (error : CallError ε) : Consumer μ α β ε :=
  if (Assoc.get? s.entries hold).isSome then forget (post s (.release hold)) hold error else s

/-- `retry`, of a failed object. -/
def retry (s : Consumer μ α β ε) (hold : Nat) : Consumer μ α β ε :=
  match Assoc.get? s.entries hold with
  | some ⟨.failed, _⟩ => s.post (.retry hold)
  | _ => s

/-- `closed` -/
def closed (s : Consumer μ α β ε) : Consumer μ α β ε :=
  reject { s with calls := [], entries := [], waiting := [] } (s.calls.map Prod.snd ++ s.waiting) (.unavailable "the link closed")

/-! ## What the provider sent -/

/-- An entry of a `bound` is adopted and its reference goes live. -/
def adopt (s : Consumer μ α β ε) (entry : Nat × Nat) : Consumer μ α β ε :=
  if (Assoc.get? s.entries entry.1).isSome then { s with entries := Assoc.set s.entries entry.1 ⟨.live, some entry.2⟩ } else s

/-- The entries of a message whose parts are not past the limits; none of a malformed one. -/
def fitting {κ : Type} (hold : κ → Nat) (entries : List κ) : Opening ε → List κ
  | .opened => entries
  | .tooLarge holds _ => entries.filter fun entry => hold entry ∉ holds
  | .malformed => []

/-- `tooLarge` of the holds of a message with a part past the limits: each is released. -/
def releaseOversized (s : Consumer μ α β ε) (holds : List Nat) : Opening ε → Consumer μ α β ε
  | .tooLarge oversized error => (holds.filter (· ∈ oversized)).foldl (fun s hold => s.release hold (.given error)) s
  | _ => s

/-- The end of `#bound` and of `#state`; a malformed message did not get there. -/
def acknowledge (s : Consumer μ α β ε) : Opening ε → Consumer μ α β ε
  | .malformed => s
  | _ => s.post .ack

/-- `#bound` -/
def bind (s : Consumer μ α β ε) (holds : List (Nat × Nat)) (opening : Opening ε) : Consumer μ α β ε :=
  (((fitting Prod.fst holds opening).foldl adopt s).releaseOversized (holds.map Prod.fst) opening).acknowledge opening

/-- `#state` -/
def update (s : Consumer μ α β ε) (holds : List Nat) (opening : Opening ε) : Consumer μ α β ε :=
  (s.releaseOversized holds opening).acknowledge opening

/-- The reference of a hold moves. -/
def move (s : Consumer μ α β ε) (hold : Nat) (object : RemoteObject) (state : RefState) : Consumer μ α β ε :=
  { s with entries := Assoc.set s.entries hold { object with state } }

/-- `#loading` -/
def loading (s : Consumer μ α β ε) (hold : Nat) : Consumer μ α β ε :=
  match Assoc.get? s.entries hold with
  | none => s
  | some object => (s.rejectWaiting hold (.unavailable ("hold " ++ toString hold ++ ": rebinding"))).move hold object .loading

/-- `#failed` -/
def fail (s : Consumer μ α β ε) (hold : Nat) (error : ε) : Consumer μ α β ε :=
  match Assoc.get? s.entries hold with
  | none => s
  | some object => (s.rejectWaiting hold (.given error)).move hold object .failed

/-- `#gone` -/
def gone (s : Consumer μ α β ε) (hold : Nat) (error : ε) : Consumer μ α β ε :=
  if (Assoc.get? s.entries hold).isSome then s.forget hold (.given error) else s

/-- `#reply` -/
def reply (s : Consumer μ α β ε) (id : Nat) (outcome : Except (CallError ε) (Option β)) : Consumer μ α β ε :=
  match Assoc.get? s.calls id with
  | none => s
  | some call => settle (freed { s with calls := Assoc.erase s.calls id }) outcome call

/-- What a `result` settles its call with. -/
def outcomeOf (id : Nat) (value : Option β) : Opening ε → Except (CallError ε) (Option β)
  | .opened => .ok value
  | .tooLarge _ error => .error (.given error)
  | .malformed => .error (.unavailable ("call " ++ toString id ++ ": a malformed reply"))

/-- `message`; a malformed part also closes the link, which is a step of its own. -/
def message (s : Consumer μ α β ε) (opening : Opening ε) : ConsumerMessage β ε → Consumer μ α β ε
  | .hello calls => s.opened calls
  | .bound holds => s.bind holds opening
  | .state holds => s.update holds opening
  | .failed hold error => s.fail hold error
  | .loading hold => s.loading hold
  | .result id value => s.reply id (outcomeOf id value opening)
  | .error id error => s.reply id (.error error)
  | .gone hold error => s.gone hold error

end Consumer

end PiBridge.Chord.Remote
