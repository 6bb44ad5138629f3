import PiBridge.Lib.Assoc
import PiBridge.Lib.Steps

/-!
# `Durable.Writer` — the Session's writer

The line admits commits as parts. The writer sends every part admitted while no call is in flight as one storage call
and publishes the parts of a call one by one, in line order. `Flush` is what the writer does next: every place where
the source waits is a state of its own, and between any two steps the line may admit a part, the storage may give a
receipt, and something else may fail the Session.

The callbacks of the host and of the parts do not throw, `publish` apart: the Session's catch what theirs call. So what
the source does about a bug (`#abandon`) is left out, with the `done` flags it reads.
-/

namespace PiBridge.Durable

open Lib

/-- A logical commit the line admitted: stored, or held in memory only (no `writes`). -/
structure PartSpec (ω : Type) where
  /-- The line index of the job that admitted it. -/
  index : Nat
  writes : Option ω
  keys : List String

/-- An admitted part, and its place in line order. -/
structure Part (ω : Type) extends PartSpec ω where
  place : Nat

/-- Whether a part is stored. -/
def Part.stored {ω : Type} (part : Part ω) : Bool := part.writes.isSome

/-- An error: what something threw, or the writer's own about a batch without a receipt. -/
inductive WriterError (ε : Type) where
  | thrown (error : ε)
  | notAdopted

inductive FailureKind where
  | adoption
  | listener
deriving DecidableEq

/-- A part's own failure at publication. A throw of the read caches counts as one of the adoption. -/
structure PublishFailure (ε : Type) where
  kind : FailureKind
  error : ε

/-- How a storage call settles. -/
inductive CallResult (ε : Type) where
  | resolved (stored : Nat) (refused : Option ε)
  | rejected (error : ε)

/-- How a part's outcome settles; `sessionFailed` has the Session's failure. -/
inductive Outcome (ε : Type) where
  | resolved
  | rejected (error : WriterError ε)
  | sessionFailed (error : WriterError ε)

/-- How a part that will not resolve settles. -/
inductive FailedOutcome (ε : Type) where
  | own (error : WriterError ε)
  | failed

/-- Why the parts that follow are not published. -/
structure Stop (ε : Type) where
  error : WriterError ε
  index : Nat
  external : Bool

/-- A part to settle once the Session failed. -/
structure Failing (ω ε : Type) where
  part : Part ω
  outcome : FailedOutcome ε
  published : Bool

/-- The publication of a call: the parts not reached yet, and how many stored ones came before them. -/
structure Call (ω ε : Type) where
  parts : List (Part ω)
  seqs : Nat → Option Nat
  result : Option (CallResult ε)
  rest : List (Part ω)
  storedIndex : Nat
  stop : Option (Stop ε)
  failing : List (Failing ω ε)

def CallResult.rejected? {ε : Type} : CallResult ε → Option ε
  | .rejected error => some error
  | .resolved _ _ => none

/-- The error of a call that rejected. -/
def Call.rejected {ω ε : Type} (call : Call ω ε) : Option ε := call.result.bind CallResult.rejected?

/-- What the writer does next. -/
inductive Flush (ω ε : Type) where
  /-- No call is in flight. -/
  | idle
  | send (parts : List (Part ω))
  /-- The storage call. -/
  | calling (parts : List (Part ω)) (seqs : Nat → Option Nat)
  | called (parts : List (Part ω)) (seqs : Nat → Option Nat) (result : Option (CallResult ε))
  /-- Parts that will not be published, of a Session that failed. -/
  | unpublishing (parts : List (Part ω)) (error : WriterError ε)
  | next (call : Call ω ε)
  /-- The macrotask between two parts, and the wait for the storage's scope. -/
  | publishing (call : Call ω ε) (part : Part ω) (seq : Option Nat)
  | published (call : Call ω ε) (part : Part ω) (failure : Option (PublishFailure ε))
  /-- The microtask before the Session fails. -/
  | failing (call : Call ω ε)
  | settling (failing : List (Failing ω ε)) (stop : Option (Stop ε))
  | flushed

/-- What happened. A call has all its parts, held ones too. -/
inductive Event (ω ε : Type) where
  | sent (parts : List (Part ω))
  | received (part : Part ω) (seq : Nat)
  | answered (parts : List (Part ω)) (result : CallResult ε)
  | published (part : Part ω) (seq : Option Nat) (failure : Option (PublishFailure ε))
  | discarded (part : Part ω)
  | settled (part : Part ω) (outcome : Outcome ε)
  | opened (part : Part ω)
  /-- The writer's `fail(error, at, own)`. -/
  | failed (error : WriterError ε) (index : Option Nat) (own : List Nat)
  /-- Something else failed the Session. -/
  | external (error : ε)

variable {ω ε : Type}

/-- The writer of a Session, and the Session's failure. -/
structure Writer (ω ε : Type) where
  parts : List (Part ω)
  failure : Option (WriterError ε)
  queue : List (Part ω)
  flush : Flush ω ε
  unpublished : Assoc String Nat
  newest : Option Nat
  log : List (Event ω ε)

namespace Writer

def new : Writer ω ε := ⟨[], none, [], .idle, [], none, []⟩

def emit (s : Writer ω ε) (event : Event ω ε) : Writer ω ε := { s with log := s.log ++ [event] }

def goto (s : Writer ω ε) (flush : Flush ω ε) : Writer ω ε := { s with flush := flush }

/-- `#pump` -/
def pump (s : Writer ω ε) : Writer ω ε :=
  match s.flush, s.queue with
  | .idle, part :: queue => { s with flush := .send (part :: queue), queue := [] }
  | _, _ => s

/-- Admits a part: registers its keys, queues it, and sends it at once unless a call is in flight. -/
def admitPart (s : Writer ω ε) (spec : PartSpec ω) : Writer ω ε :=
  let part : Part ω := { spec with place := s.parts.length }
  pump { s with
    parts := s.parts ++ [part]
    unpublished := part.keys.foldl (fun unpublished key => Assoc.set unpublished key part.place) s.unpublished
    newest := some part.place
    queue := s.queue ++ [part] }

/-! ## The parts' ends -/

/-- Drops the keys a part is still the newest writer of. -/
def unregister (s : Writer ω ε) (part : Part ω) : Writer ω ε :=
  { s with unpublished := part.keys.foldl (fun unpublished key =>
      if Assoc.get? unpublished key = some part.place then Assoc.erase unpublished key else unpublished) s.unpublished }

/-- Opens a part's gate. -/
def openGate (s : Writer ω ε) (part : Part ω) : Writer ω ε :=
  { s.emit (.opened part) with newest := if s.newest = some part.place then none else s.newest }

def settle (s : Writer ω ε) (part : Part ω) (outcome : Outcome ε) : Writer ω ε := s.emit (.settled part outcome)

/-- Settles a part that will never be published. -/
def unpublish (s : Writer ω ε) (part : Part ω) (outcome : Outcome ε) : Writer ω ε :=
  (((s.emit (.discarded part)).settle part outcome).unregister part).openGate part

/-! ## The writer -/

/-- `#send`, up to the storage call. -/
def send (s : Writer ω ε) (parts : List (Part ω)) : Writer ω ε :=
  match s.failure with
  | some error => s.goto (.unpublishing parts error)
  | none =>
    if (parts.filter Part.stored).isEmpty then s.goto (.called parts (fun _ => none) none)
    else (s.emit (.sent parts)).goto (.calling parts fun _ => none)

/-- `#send`, after it. -/
def called (s : Writer ω ε) (parts : List (Part ω)) (seqs : Nat → Option Nat) (result : Option (CallResult ε)) : Writer ω ε :=
  match s.failure with
  | some error => s.goto (.unpublishing parts error)
  | none => s.goto (.next ⟨parts, seqs, result, parts, 0, none, []⟩)

/-- Why a stored part without a receipt fails. -/
def missing (call : Call ω ε) : WriterError ε :=
  match call.result with
  | some (.rejected error) => .thrown error
  | some (.resolved stored (some refused)) => if call.storedIndex = stored then .thrown refused else .notAdopted
  | _ => .notAdopted

/-- How a part after a stop settles. -/
def afterStop (call : Call ω ε) (isStored : Bool) (stop : Stop ε) : FailedOutcome ε :=
  match call.rejected with
  | some error => if isStored && !stop.external then .own (.thrown error) else .failed
  | none => .failed

/-- One turn of the loop over the parts of a call, up to the wait before a publication. -/
def next (s : Writer ω ε) (call : Call ω ε) : Writer ω ε :=
  match call.rest with
  | [] => if call.rejected.isSome || call.stop.isSome then s.goto (.failing call) else s.goto (.settling call.failing call.stop)
  | part :: rest =>
    let isStored := part.stored
    let seq := if isStored then call.seqs call.storedIndex else none
    let reached := { call with rest := rest, storedIndex := if isStored then call.storedIndex + 1 else call.storedIndex }
    match call.stop with
    | some stop =>
      s.goto (.next { reached with failing := call.failing ++ [⟨part, afterStop call isStored stop, false⟩] })
    | none =>
      if isStored && seq.isNone then
        s.goto (.next { reached with
          failing := call.failing ++ [⟨part, .own (missing call), false⟩]
          stop := some ⟨missing call, part.index, false⟩ })
      else s.goto (.publishing reached part seq)

/-- What the storage's scope runs: nothing once something else failed the Session. -/
def publication (s : Writer ω ε) (call : Call ω ε) (part : Part ω) (seq : Option Nat) (failure : Option (PublishFailure ε)) : Writer ω ε :=
  match s.failure with
  | some error =>
    s.goto (.next { call with
      failing := call.failing ++ [⟨part, .failed, false⟩]
      stop := some ⟨error, part.index, true⟩ })
  | none => ((s.unregister part).emit (.published part seq failure)).goto (.published call part failure)

/-- The rest of a turn, after the publication ran. -/
def afterPublication (s : Writer ω ε) (call : Call ω ε) (part : Part ω) (failure : Option (PublishFailure ε)) : Writer ω ε :=
  let stop := failure.map fun failure => ⟨.thrown failure.error, part.index, false⟩
  if failure.any (·.kind = .adoption) then
    s.goto (.next { call with
      failing := call.failing ++ (failure.map fun failure => ⟨part, .own (.thrown failure.error), true⟩).toList
      stop := stop })
  else
    match call.rejected with
    | some error => s.goto (.next { call with failing := call.failing ++ [⟨part, .own (.thrown error), true⟩] })
    | none =>
      let outcome :=
        match s.failure, failure with
        | some error, none => Outcome.sessionFailed error
        | _, _ => Outcome.resolved
      ((s.settle part outcome).openGate part).goto (.next { call with stop := stop })

/-- Fails the Session, which keeps its first failure. -/
def fail (s : Writer ω ε) (error : WriterError ε) : Writer ω ε := { s with failure := s.failure.or (some error) }

/-- The parts of a call that fail with an error of their own, by line index. -/
def ownIndices (failing : List (Failing ω ε)) : List Nat :=
  (failing.filter fun each =>
    match each.outcome with
    | .own _ => true
    | .failed => false).map fun each => each.part.index

/-- Fails the Session for a call. -/
def failCall (s : Writer ω ε) (call : Call ω ε) : Writer ω ε :=
  let own := ownIndices call.failing
  match call.rejected, call.stop with
  | some error, _ =>
    ((s.fail (.thrown error)).emit (.failed (.thrown error) own.head? own)).goto (.settling call.failing call.stop)
  | none, some stop =>
    ((s.fail stop.error).emit (.failed stop.error (some stop.index) own)).goto (.settling call.failing call.stop)
  | none, none => s.goto (.settling call.failing call.stop)

/-- The error of a failing part. -/
def outcomeOf (s : Writer ω ε) (stop : Option (Stop ε)) : FailedOutcome ε → Outcome ε
  | .own error => .rejected error
  | .failed => .sessionFailed ((s.failure.or (stop.map (·.error))).getD .notAdopted)

def settleFailing (s : Writer ω ε) (each : Failing ω ε) (stop : Option (Stop ε)) : Writer ω ε :=
  if each.published then (s.settle each.part (s.outcomeOf stop each.outcome)).openGate each.part
  else s.unpublish each.part (s.outcomeOf stop each.outcome)

/-- What was admitted while the call ran, once the Session failed: never sent. -/
def dropQueued (s : Writer ω ε) : Writer ω ε :=
  match s.failure with
  | some error => { s with queue := [], flush := .unpublishing s.queue error }
  | none => s.goto .flushed

/-- The writer goes on to its next wait. It has nothing to do where it is idle or waits for a call or a publication. -/
def go (s : Writer ω ε) : Option (Writer ω ε) :=
  match s.flush with
  | .idle | .calling _ _ | .publishing _ _ _ => none
  | .send parts => some (s.send parts)
  | .called parts seqs result => some (s.called parts seqs result)
  | .unpublishing [] _ => some (s.goto .flushed)
  | .unpublishing (part :: parts) error => some ((s.unpublish part (.sessionFailed error)).goto (.unpublishing parts error))
  | .next call => some (s.next call)
  | .published call part failure => some (s.afterPublication call part failure)
  | .failing call => some (s.failCall call)
  | .settling [] _ => some s.dropQueued
  | .settling (each :: failing) stop => some ((s.settleFailing each stop).goto (.settling failing stop))
  | .flushed => some (s.goto .idle).pump

/-- A receipt of the call in flight; `index` counts its stored parts. -/
def receive (s : Writer ω ε) (index seq : Nat) : Option (Writer ω ε) :=
  match s.flush with
  | .calling parts seqs =>
    let received := s.goto (.calling parts (Function.update seqs index (some seq)))
    match (parts.filter Part.stored)[index]? with
    | some part => some (received.emit (.received part seq))
    | none => some received
  | _ => none

/-- The call in flight settles. -/
def answer (s : Writer ω ε) (result : CallResult ε) : Option (Writer ω ε) :=
  match s.flush with
  | .calling parts seqs => some ((s.emit (.answered parts result)).goto (.called parts seqs (some result)))
  | _ => none

end Writer

/-- One step of the system. -/
inductive Turn (ω ε : Type) where
  | admitPart (spec : PartSpec ω)
  | fail (error : ε)
  | receive (index seq : Nat)
  | answer (result : CallResult ε)
  | publish (failure : Option (PublishFailure ε))
  | go

def Writer.step (s : Writer ω ε) : Turn ω ε → Option (Writer ω ε)
  | .admitPart spec => some (s.admitPart spec)
  | .fail error => some ((s.fail (.thrown error)).emit (.external error))
  | .receive index seq => s.receive index seq
  | .answer result => s.answer result
  | .publish failure =>
    match s.flush with
    | .publishing call part seq => some (s.publication call part seq failure)
    | _ => none
  | .go => s.go

/-- A run of the writer. -/
abbrev WriterRun := Steps fun (s : Writer ω ε) turn s' => s.step turn = some s'

end PiBridge.Durable
