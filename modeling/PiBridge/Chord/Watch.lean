import PiBridge.Chord.Delta.Pending
import PiBridge.Lib.Steps

/-!
# `Chord.Watch` — a JSON watch

One listener call at a time: frames that arrive meanwhile are folded into the next call. The watch is entered by its
source (`advance`, `fail`, `end`, `endAfterDelivery`), by its owner (`start`, `stop`, an abort), by the microtask
that `#schedule` queues, and when a listener's promise settles; a listener may do any of the first two while it runs.

`tasks` and `calls` are the event loop's: the microtasks queued, and the listener calls whose promise has not
settled, each with the loop of `#drain` that waits for it. A loop goes on in `turn`, up to its next call. What
`report` and `detach` do happens before and after the step that calls them.
-/

namespace PiBridge.Chord

open Lib

/-- Terminal result of one watch; errors as `toError` has them. -/
inductive WatchEnd (ε : Type) where
  | stopped
  | aborted
  | ended
  | listenerError (error : ε)
  | failed (error : ε)

/-- `WatchValueCall` -/
structure WatchValueCall where
  value : Json
  ops : List Op
  retired : Bool

/-- One call of the listener, and one frame of the source. -/
inductive WatchCall (ε : Type) where
  | value (call : WatchValueCall)
  | failed (error : ε)

/-- What is pending, over the types of errors and contexts: the fields of `Watch` beside its lifecycle. -/
structure WatchQueue (ε κ : Type) where
  ops : PendingOps
  lone : Option WatchValueCall
  newestValue : Option Json
  newestContext : Option κ
  retired : Bool
  failure : Option ε
  replace : Bool

/-- The state of a watch. -/
structure Watch (ε κ : Type) where
  value : Json
  listener : Bool
  started : Bool
  scheduled : Bool
  running : Bool
  ending : Bool
  /-- `#end` -/
  terminal : Option (WatchEnd ε)
  queue : WatchQueue ε κ
  tasks : Nat
  calls : Nat

/-- What enters the watch. -/
inductive WatchAction (ε κ : Type) where
  | advance (call : WatchCall ε) (context : κ)
  | fail (error : ε) (context : κ)
  | start
  | stop
  | abort
  | end (result : WatchEnd ε)
  | endAfterDelivery
  /-- A queued microtask runs. -/
  | microtask
  /-- The promise of a listener call is fulfilled. -/
  | completed
  /-- A listener call throws, or its promise is rejected. -/
  | rejected (error : ε)

namespace WatchQueue

variable {ε κ : Type}

def empty : WatchQueue ε κ :=
  { ops := .empty, lone := none, newestValue := none, newestContext := none, retired := false, failure := none
    replace := false }

/-- The newest frame's value, which is set while a value is pending. -/
def newest (q : WatchQueue ε κ) : Json := q.newestValue.getD .null

/-- What `advance` queues. -/
def push (q : WatchQueue ε κ) (call : WatchValueCall) (context : κ) : WatchQueue ε κ := let q :=
    if q.replace then { q with failure := none }
    else { q with lone := if q.newestContext.isNone then some call else none, ops := q.ops.push call.ops }
  { q with newestValue := some call.value, newestContext := some context, retired := q.retired || call.retired }

/-- What `#fail` queues; the frames that are pending are dropped. -/
def fail (q : WatchQueue ε κ) (error : ε) (context : κ) : WatchQueue ε κ :=
  { q with ops := .empty, lone := none, newestValue := none, failure := some error, newestContext := some context
           replace := true }

/-- `#nextAfterFailure`: the pending failure, or the value after one. -/
def nextAfterFailure (q : WatchQueue ε κ) : WatchCall ε × WatchQueue ε κ :=
  let q := { q with newestContext := none }
  match q.failure with
  | some error => (.failed error, { q with failure := none })
  | none =>
    (.value ⟨q.newest, [.r q.newest], q.retired⟩, { q with newestValue := none, retired := false, replace := false })

/-- `next` -/
def next (q : WatchQueue ε κ) : WatchCall ε × WatchQueue ε κ :=
  if q.replace then q.nextAfterFailure
  else
    let rest := { q with ops := .empty, lone := none, newestValue := none, newestContext := none, retired := false }
    match q.lone with
    | some call => (.value call, rest)
    | none =>
      match q.ops.take with
      | .ops ops => (.value ⟨q.newest, ops, q.retired⟩, rest)
      | .replace => (.value ⟨q.newest, [.r q.newest], q.retired⟩, rest)

end WatchQueue

namespace Watch

variable {ε κ : Type}

def new (value : Json) : Watch ε κ :=
  { value, listener := false, started := false, scheduled := false, running := false, ending := false, terminal := none
    queue := .empty, tasks := 0, calls := 0 }

/-- `open` -/
def isOpen (w : Watch ε κ) : Bool := w.terminal.isNone && !w.ending

/-- `#terminate`, with `release`. -/
def terminate (w : Watch ε κ) (result : WatchEnd ε) : Watch ε κ :=
  if w.terminal.isSome then w else { w with terminal := some result, listener := false, queue := .empty }

/-- `#schedule` -/
def schedule (w : Watch ε κ) : Watch ε κ :=
  if w.scheduled || w.running || w.terminal.isSome then w else { w with scheduled := true, tasks := w.tasks + 1 }

/-- `pending` -/
def pending (w : Watch ε κ) : Watch ε κ := if w.started then w.schedule else w

/-- `#fail` -/
def fail (w : Watch ε κ) (error : ε) (context : κ) : Watch ε κ :=
  if !w.isOpen then w else { w with queue := w.queue.fail error context }.pending

/-- `advance` -/
def advance (w : Watch ε κ) (call : WatchCall ε) (context : κ) : Watch ε κ :=
  match call with
  | .failed error => w.fail error context
  | .value call => if !w.isOpen then w else { w with queue := w.queue.push call context }.pending

/-- `start`, which throws when it changes nothing. -/
def start (w : Watch ε κ) : Watch ε κ := if w.started || w.terminal.isSome then w else { w with started := true, listener := true }.schedule

/-- `endAfterDelivery` -/
def endAfterDelivery (w : Watch ε κ) : Watch ε κ :=
  if w.terminal.isSome || w.ending then w
  else
    let w := { w with ending := true }
    if !w.running && w.queue.newestContext.isNone then w.terminate .ended else w

/-- The value of the last value call. -/
def latest (w : Watch ε κ) : WatchCall ε → Json
  | .value call => call.value
  | .failed _ => w.value

/-- The loop of `#drain`, up to its next call. -/
def turn (w : Watch ε κ) : Watch ε κ × Option (WatchCall ε × κ) :=
  if w.terminal.isSome || !w.listener then ({ w with running := false }, none)
  else
    match w.queue.newestContext with
    | none => ({ (if w.ending then w.terminate .ended else w) with running := false }, none)
    | some context =>
      let (call, queue) := w.queue.next
      ({ w with queue, value := w.latest call, calls := w.calls + 1 }, some (call, context))

/-- A microtask that `#schedule` queued. -/
def drain (w : Watch ε κ) : Watch ε κ × Option (WatchCall ε × κ) :=
  let w := { w with scheduled := false }
  if w.running || w.terminal.isSome || !w.started then (w, none) else { w with running := true }.turn

/-- One entry, and the call it makes. -/
def act (w : Watch ε κ) : WatchAction ε κ → Option (Watch ε κ × Option (WatchCall ε × κ))
  | .advance call context => some (w.advance call context, none)
  | .fail error context => some (w.fail error context, none)
  | .start => some (w.start, none)
  | .stop => some (w.terminate .stopped, none)
  | .abort => some (w.terminate .aborted, none)
  | .end result => some (w.terminate result, none)
  | .endAfterDelivery => some (w.endAfterDelivery, none)
  | .microtask => if w.tasks = 0 then none else some { w with tasks := w.tasks - 1 }.drain
  | .completed => if w.calls = 0 then none else some { w with calls := w.calls - 1 }.turn
  | .rejected error =>
    if w.calls = 0 then none
    else
      let w := { w with calls := w.calls - 1 }
      some ({ w.terminate (.listenerError error) with running := false }, none)

end Watch

/-! ## Runs -/

/-- What the outside sees of an entry: the call it makes, and the end it settles `closed` with. -/
structure WatchEvent (ε κ : Type) where
  action : WatchAction ε κ
  call : Option (WatchCall ε × κ)
  closed : Option (WatchEnd ε)

variable {ε κ : Type}

def Watch.Step (w : Watch ε κ) (event : WatchEvent ε κ) (w' : Watch ε κ) : Prop :=
  w.act event.action = some (w', event.call) ∧ event.closed = if w.terminal.isSome then none else w'.terminal

/-- What the frames of the source and the calls of the listener have come to. -/
structure Seen (ε : Type) where
  /-- The value of the source's last value frame, the value the watch was opened at before. -/
  source : Json
  /-- The source's last frame. -/
  last : Option (WatchCall ε)
  /-- The source has ended. -/
  ended : Bool
  /-- The value of the last value call, the value the watch was opened at before. -/
  delivered : Json
  lastCall : Option (WatchCall ε)
  /-- A retirement came after the last value call. -/
  retired : Bool
  /-- The listener calls that have not settled. -/
  active : Nat
  closed : Bool

namespace Seen

def start (value : Json) : Seen ε :=
  { source := value, last := none, ended := false, delivered := value, lastCall := none, retired := false, active := 0
    closed := false }

/-- A frame of the source. -/
def frame (seen : Seen ε) (call : WatchCall ε) : Seen ε :=
  if seen.ended then seen
  else
    match call with
    | .value c => { seen with source := c.value, last := some call, retired := seen.retired || c.retired }
    | .failed _ => { seen with last := some call }

def act (seen : Seen ε) : WatchAction ε κ → Seen ε
  | .advance call _ => seen.frame call
  | .fail error _ => seen.frame (.failed error)
  | .endAfterDelivery => { seen with ended := true }
  | .completed | .rejected _ => { seen with active := seen.active - 1 }
  | .start | .stop | .abort | .end _ | .microtask => seen

/-- A call of the listener. -/
def called (seen : Seen ε) : Option (WatchCall ε × κ) → Seen ε
  | none => seen
  | some (.value c, _) =>
    { seen with delivered := c.value, lastCall := some (.value c), retired := false, active := seen.active + 1 }
  | some (.failed error, _) => { seen with lastCall := some (.failed error), active := seen.active + 1 }

def observe (seen : Seen ε) (event : WatchEvent ε κ) : Seen ε :=
  let seen := (seen.act event.action).called event.call
  { seen with closed := seen.closed || event.closed.isSome }

/-- The operations of a value frame turn the source's value into the new one; after a failure any value may follow. -/
def Coherent (seen : Seen ε) : WatchAction ε κ → Prop
  | .advance (.value c) _ =>
    (∃ error, seen.last = some (.failed error)) ∨ applyTyped seen.source c.ops = some c.value
  | _ => True

/-- What a call of the listener has to be. -/
structure CallOk (seen : Seen ε) (call : WatchCall ε) : Prop where
  /-- No other call runs. -/
  alone : seen.active = 0
  notClosed : seen.closed = false
  /-- The operations lead from the value of the last value call to this one's. -/
  exact : ∀ c, call = .value c → applyImmutable seen.delivered c.ops = some c.value
  /-- After a failure the value replaces the root. -/
  replaces : ∀ c error, call = .value c → seen.lastCall = some (.failed error) → c.ops = [.r c.value]
  /-- A value call reports the retirements since the last one. -/
  retired : ∀ c, call = .value c → c.retired = seen.retired

/-- The last call is of the source's last frame. -/
def Agrees (seen : Seen ε) : Prop :=
  match seen.last with
  | none => True
  | some (.value c) => ∃ c', seen.lastCall = some (.value c') ∧ c'.value = c.value
  | some (.failed error) => seen.lastCall = some (.failed error)

end Seen

/-- A watch, and what was seen of it. -/
structure WatchRun (ε κ : Type) where
  watch : Watch ε κ
  seen : Seen ε

namespace WatchRun

def start (value : Json) : WatchRun ε κ := ⟨.new value, .start value⟩

def Step (run : WatchRun ε κ) (event : WatchEvent ε κ) (run' : WatchRun ε κ) : Prop :=
  run.watch.Step event run'.watch ∧ run.seen.Coherent event.action ∧ run'.seen = run.seen.observe event

end WatchRun

end PiBridge.Chord
