import PiBridge.Chord.Delta.Diff
import PiBridge.Lib.Memo
import PiBridge.Lib.Steps

/-!
# `Chord.State.Derive` — derives, and the batch that delivers their frames

A derive is computed when it is read and dirty; a source that changes marks the derives that read it, flags only. A
batch lists the watched derives it marks and delivers a frame for each: the difference from the value their
followers have, which is kept from the marking on.

A batch is entered by commits and, while it delivers, by the followers it calls: they may read, and change sources
(`within`). A call that is under way is in `sending`, with the followers that still get it. While a commit's flushes
run a change waits for the next commit, whose adoptions are in `adopting`.

Adoptions that throw, and objects that end (`detach`), are not modelled.
-/

namespace PiBridge.Chord.State

open Lib Lib.Memo Revision

variable {heap : Nat → Revision} {X ε : Type}

/-- A JSON value in memory. -/
def Value (heap : Nat → Revision) : Type := { r : Revision // Lives heap r }

namespace Value

def json (v : Value heap) : Json := v.1.json

/-- `after !== before` -/
def differs (before after : Value heap) : Bool := !before.1.identical after.1

/-- `diffRevisions` -/
def diff (numberLength : Rat → Nat) (before after : Value heap) : List Op := (diffRevisions numberLength before.1 after.1).getD []

end Value

/-- Derives over sources, in an order in which each reads only those before it. `dependents` are in the order they were
attached in. -/
structure DeriveGraph (X : Type) (V : Type) (ε : Type) extends Graph X V ε where
  size : Nat
  dependents : Input → List Nat
  beyond : ∀ d, size ≤ d → inputs d = []
  mem_dependents : ∀ i d, d ∈ dependents i ↔ i ∈ inputs d

/-- `DeriveState` -/
inductive DeriveState (V ε : Type) where
  | dirty
  | clean (value : V)
  | failed (error : ε)

/-- The result that is kept. -/
def DeriveState.kept {V ε : Type} : DeriveState V ε → Option (Except ε V)
  | .dirty => none
  | .clean v => some (.ok v)
  | .failed e => some (.error e)

/-- `#framed`, where it is set: the value the followers have, or `NO_VALUE`. -/
inductive Framed (V : Type) where
  | value (v : V)
  | noValue

/-- The fields of a derive. -/
structure Derive (V ε : Type) where
  state : DeriveState V ε
  framed : Option (Framed V)
  retired : Bool
  good : Option V

/-- A frame, as a follower gets it. -/
inductive Frame (V ε : Type) where
  | value (value : V) (ops : List Op) (retired : Bool)
  | failed (error : ε)

/-- A watch or a subscriber, and what it has: the last value it got, and whether a failure came after it. -/
structure Follower (V : Type) where
  derive : Nat
  value : V
  failed : Bool

def Follower.take {V ε : Type} (f : Follower V) : Frame V ε → Follower V
  | .value v _ _ => { f with value := v, failed := false }
  | .failed _ => { f with failed := true }

inductive BatchPhase where
  | idle
  /-- A commit adopts or delivers. -/
  | running
  /-- Its flushes run. -/
  | flushing
deriving DecidableEq

/-- A change of a source: its value, and whether its document was retired. -/
structure SourceChange (X : Type) where
  source : Nat
  value : X
  retired : Bool

/-- A host's sources, derives and followers, and its batch. -/
structure Batch (X V ε : Type) where
  sources : Nat → X
  derives : Nat → Derive V ε
  followers : List (Follower V)
  phase : BatchPhase
  /-- What the commit still adopts. -/
  adopting : List (SourceChange X)
  /-- `#changed`, without those that were delivered. -/
  changed : List Nat
  /-- The frame that is being delivered, and the followers that still get it. -/
  sending : Option (Frame V ε × List Nat)
  /-- `#later` -/
  later : List (SourceChange X)

/-- What enters a host. -/
inductive BatchAction (X : Type) where
  /-- A commit begins. -/
  | begin
  /-- `within` -/
  | change (change : SourceChange X)
  /-- A change that waited for this commit. -/
  | adopt
  | read (d : Nat)
  /-- The next derive of `#changed` is delivered. -/
  | deliver
  /-- The next follower gets the frame. -/
  | forward
  | flush
  | finish
  /-- `openWatch` -/
  | follow (d : Nat)
  | unfollow (i : Nat)

/-- What a read returned, and the follower that was called, as it was before. -/
structure BatchOutcome (V ε : Type) where
  read : Option (Nat × Except ε V)
  call : Option (Follower V × Frame V ε)

namespace Batch

variable {V : Type}

/-- The results that are kept. -/
def known (b : Batch X V ε) : Table V ε := fun d => (b.derives d).state.kept

def setDerive (b : Batch X V ε) (d : Nat) (derive : Derive V ε) : Batch X V ε := { b with derives := Function.update b.derives d derive }

/-- `watched` -/
def watched (b : Batch X V ε) (d : Nat) : Bool := b.followers.any fun f => f.derive == d

section Reading

variable (g : DeriveGraph X V ε)

/-- The sources' values, in order, up to the first that throws. -/
def readInputs (read : Nat → Batch X V ε → Option (Except ε V × Batch X V ε)) :
    List Input → Batch X V ε → Option (Except ε (List (X ⊕ V)) × Batch X V ε)
  | [], b => some (.ok [], b)
  | .source s :: rest, b =>
    (readInputs read rest b).map fun (args, b') => (args.map (.inl (b.sources s) :: ·), b')
  | .cell d :: rest, b =>
    match read d b with
    | none => none
    | some (.error e, b) => some (.error e, b)
    | some (.ok v, b) => (readInputs read rest b).map fun (args, b) => (args.map (.inr v :: ·), b)

/-- The end of `#recompute`. -/
def settle (b : Batch X V ε) (d : Nat) : Except ε V → Batch X V ε
  | .ok v => b.setDerive d { b.derives d with state := .clean v, good := some v }
  | .error e => b.setDerive d { b.derives d with state := .failed e }

/-- `value`, with the nesting of reads that is allowed. -/
def read : Nat → Nat → Batch X V ε → Option (Except ε V × Batch X V ε)
  | 0, _, _ => none
  | fuel + 1, d, b =>
    match (b.derives d).state with
    | .clean v => some (.ok v, b)
    | .failed e => some (.error e, b)
    | .dirty =>
      -- `#recompute`
      (readInputs (read fuel) (g.inputs d) b).map fun (args, b) =>
        (result g.toGraph d args, b.settle d (result g.toGraph d args))

/-- `value` -/
def valueOf (b : Batch X V ε) (d : Nat) : Option (Except ε V × Batch X V ε) := read g (d + 1) d b

end Reading

section Marking

variable (g : DeriveGraph X V ε)

/-- What followers of a derive in this state have. -/
def framedBy : DeriveState V ε → Option (Framed V)
  | .clean v => some (.value v)
  | .failed _ => some .noValue
  | .dirty => none

/-- A derive that is not dirty is marked, and listed when it is watched. -/
def mark (b : Batch X V ε) (d : Nat) : Batch X V ε :=
  let derive := b.derives d
  if b.watched d then
    { b with
      derives := Function.update b.derives d { derive with framed := framedBy derive.state, state := .dirty }
      changed := b.changed ++ [d] }
  else b.setDerive d { derive with state := .dirty }

/-- `invalidate`, with the depth of marking that is allowed. -/
def invalidate : Nat → Batch X V ε → Nat → Batch X V ε
  | 0, b, _ => b
  | fuel + 1, b, d =>
    match (b.derives d).state with
    | .dirty => b
    | _ => (g.dependents (.cell d)).foldl (invalidate fuel) (b.mark d)

/-- `sourceRetired`, with the derives that were visited. -/
def sourceRetired : Nat → List Nat × Batch X V ε → Nat → List Nat × Batch X V ε
  | 0, state, _ => state
  | fuel + 1, (visited, b), d =>
    if d ∈ visited then (visited, b)
    else
      let b := if b.watched d then b.setDerive d { b.derives d with retired := true } else b
      (g.dependents (.cell d)).foldl (sourceRetired fuel) (d :: visited, b)

/-- A source takes its value and marks its dependents. -/
def applyChange (b : Batch X V ε) (c : SourceChange X) : Batch X V ε :=
  let b := { b with sources := Function.update b.sources c.source c.value }
  let b := (g.dependents (.source c.source)).foldl (invalidate g g.size) b
  if c.retired then ((g.dependents (.source c.source)).foldl (sourceRetired g g.size) ([], b)).2 else b

end Marking

/-- The followers of a derive. -/
def followersOf (b : Batch X V ε) (d : Nat) : List Nat :=
  (List.range b.followers.length).filter fun i => (b.followers[i]?.map (·.derive)) == some d

/-- `openWatch`: a follower starts at the value, or at the last good one with the failure; with neither it throws. -/
def follow (g : DeriveGraph X V ε) (b : Batch X V ε) (d : Nat) : Option (Batch X V ε) :=
  match b.valueOf g d with
  | none => none
  | some (.ok v, b) => some { b with followers := b.followers ++ [⟨d, v, false⟩] }
  | some (.error _, b) =>
    match (b.derives d).good with
    | some v => some { b with followers := b.followers ++ [⟨d, v, true⟩] }
    | none => some b

end Batch

section Delivering

variable (numberLength : Rat → Nat)

/-- The operations of a frame, from what the followers have. A derive that is delivered twice has nothing framed the
second time: the difference from no value replaces the root. -/
def frameOps (framed : Option (Framed (Value heap))) (after : Value heap) : List Op :=
  match framed with
  | some (.value before) => if before.differs after then Value.diff numberLength before after else []
  | some .noValue => [.r after.json]
  | none => [.r after.json]

/-- The frame of a derive whose value is now this, where it has one. -/
def frameOf (framed : Option (Framed (Value heap))) (retired : Bool) : Except ε (Value heap) → Option (Frame (Value heap) ε)
  | .error e =>
    match framed with
    | some .noValue => none
    | _ => some (.failed e)
  | .ok after =>
    let ops := frameOps numberLength framed after
    if !ops.isEmpty || retired then some (.value after ops retired) else none

namespace Batch

/-- A value tells the retirements; a failure leaves them to the next value. -/
def tellRetired {V : Type} (b : Batch X V ε) (d : Nat) : Except ε V → Batch X V ε
  | .ok _ => b.setDerive d { b.derives d with retired := false }
  | .error _ => b

/-- `deliver` -/
def deliver (g : DeriveGraph X (Value heap) ε) (b : Batch X (Value heap) ε) (d : Nat) : Option (Batch X (Value heap) ε) :=
  let derive := b.derives d
  ((b.setDerive d { derive with framed := none }).valueOf g d).map fun (after, b) =>
    let b := b.tellRetired d after
    { b with sending := (frameOf numberLength derive.framed derive.retired after).map fun frame => (frame, b.followersOf d) }

variable (g : DeriveGraph X (Value heap) ε) (b : Batch X (Value heap) ε)

/-- No follower is still to get a frame. -/
def sent : Bool := b.sending.all fun (_, rest) => rest.isEmpty

/-- One entry, and what it shows. -/
def act : BatchAction X → Option (Batch X (Value heap) ε × BatchOutcome (Value heap) ε)
  | .begin => if b.phase = .idle then some ({ b with phase := .running }, ⟨none, none⟩) else none
  | .change c =>
    match b.phase with
    | .idle => none
    | .running => some (b.applyChange g c, ⟨none, none⟩)
    | .flushing => some ({ b with later := b.later ++ [c] }, ⟨none, none⟩)
  | .adopt =>
    match b.adopting with
    | [] => none
    | c :: rest => some ({ b with adopting := rest }.applyChange g c, ⟨none, none⟩)
  | .read d => (b.valueOf g d).map fun (r, b) => (b, ⟨some (d, r), none⟩)
  | .deliver =>
    match b.changed with
    | [] => none
    | d :: rest =>
      if b.phase = .running ∧ b.adopting = [] ∧ b.sent = true then
        (({ b with changed := rest, sending := none }).deliver numberLength g d).map fun b => (b, ⟨none, none⟩)
      else none
  | .forward =>
    match b.sending with
    | some (frame, i :: rest) =>
      (b.followers[i]?).map fun f =>
        ({ b with followers := b.followers.set i (f.take frame), sending := some (frame, rest) }, ⟨none, some (f, frame)⟩)
    | _ => none
  | .flush =>
    if b.phase = .running ∧ b.adopting = [] ∧ b.changed = [] ∧ b.sent = true then
      some ({ b with phase := .flushing, sending := none }, ⟨none, none⟩)
    else none
  | .finish =>
    if b.phase = .flushing then
      some ({ b with phase := if b.later = [] then .idle else .running, adopting := b.later, later := [] }, ⟨none, none⟩)
    else none
  | .follow d => if b.phase = .idle then (b.follow g d).map fun b => (b, ⟨none, none⟩) else none
  | .unfollow i => if b.phase = .idle then some ({ b with followers := b.followers.eraseIdx i }, ⟨none, none⟩) else none

end Batch

end Delivering

end PiBridge.Chord.State
