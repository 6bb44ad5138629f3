import PiBridge.Chord.Delta.Codec
import PiBridge.Chord.Delta.Pending

/-!
# `Chord.Remote.Followed` — a member that a hold follows, and its replica

At the end of a batch what the member's source did goes out at once, when a slot of the window is free and nothing waits, or
joins what is pending; a freed slot sends what is pending. The replica reads it with a decoder of its own. Which slots are
free is left open. The other members of the message, and retirements, are left out.
-/

namespace PiBridge.Chord.Remote

/-- What a `state` message holds of a member. -/
inductive MemberChange where
  | ops (wire : List Tuple)
  | failed

/-- `Followed`, with its source, what its hold keeps for it, and its `Replica`. -/
structure Followed where
  /-- The value of the source, unless it fails. -/
  source : Option Json
  encoder : Encoder
  pending : PendingOps
  /-- Its failure is in `#failed`. -/
  failed : Bool
  /-- Its hold waits for a slot. -/
  waiting : Bool
  /-- What is sent and not received. -/
  wire : List MemberChange
  decoder : Decoder
  replica : Option Json

inductive FollowedAction where
  /-- A batch brings the source a value, by operations. -/
  | frame (value : Json) (ops : List Op) (free : Bool)
  | fails (free : Bool)
  | slotFreed
  | receive

namespace Followed

/-- `boundEntry`: both ends start from the snapshot. -/
def bound (value : Option Json) : Followed :=
  { source := value, encoder := .start, pending := .empty, failed := false, waiting := false, wire := [], decoder := .start,
    replica := value }

/-- `Replica.decode` of operations that are read: a failed member recovers with a root replacement. -/
def decoded (replica : Option Json) (ops : List Op) : Option Json :=
  match replica with
  | some value => applyImmutable value ops
  | none => if isBase ops then applyImmutable .null ops else none

variable (m : Followed)

/-- The operations lead from the source's value to the next; after a failure they replace the root. -/
def frames (value : Json) (ops : List Op) : Bool :=
  match m.source with
  | some before => decide (applyTyped before ops = some value)
  | none => decide (ops = [.r value])

/-- The operations of an entry. -/
def send (ops : List Op) : Followed :=
  if ops.isEmpty then m
  else { m with encoder := (m.encoder.encode ops).1, wire := m.wire ++ [.ops (m.encoder.encode ops).2] }

def sendFailure : Followed := { m with failed := false, wire := m.wire ++ [.failed] }

/-- `pendingEntry`; `source.value` throws while the source fails. -/
def pendingEntry : Option Followed :=
  let ops? := match m.pending.take with
    | .ops ops => some ops
    | .replace => m.source.map fun value => [.r value]
  ops?.map fun ops =>
    let sent := { m with pending := .empty, waiting := false }.send ops
    if m.failed then sent.sendFailure else sent

/-- One step; none where it cannot be taken, or throws. -/
def next : FollowedAction → Option Followed
  | .frame value ops free =>
    if m.frames value ops && !(free && m.waiting) then
      let healed := { m with source := some value, failed := false }
      some (if free then healed.send ops else { healed with pending := m.pending.push ops, waiting := true })
    else none
  | .fails free =>
    if free && m.waiting then none
    else
      -- `#memberFailed` drops what is pending.
      let dropped := { m with source := none, pending := .empty }
      some (if free then dropped.sendFailure else { dropped with failed := true, waiting := true })
  | .slotFreed => if m.waiting then m.pendingEntry else none
  | .receive =>
    match m.wire with
    | [] => none
    | .failed :: wire => some { m with wire, replica := none }
    | .ops tuples :: wire =>
      (m.decoder.decode tuples).bind fun (decoder, ops) => (decoded m.replica ops).map fun value => { m with wire, decoder, replica := some value }

def Step (action : FollowedAction) (m' : Followed) : Prop := m.next action = some m'

end Followed

end PiBridge.Chord.Remote
