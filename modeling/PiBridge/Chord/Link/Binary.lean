import PiBridge.Chord.Link.Values
import PiBridge.Lib.ByteReader

/-!
# `Chord.Link.Binary` — the binary codec

A kind byte, with a flag for an origin and one for a trace carrier, then the kind's fields: unsigned varints, texts
behind their length, raw incarnations and fingerprints, and parts behind a length that also says whether they are
deflated.

The writer appends to a buffer that it grows; `capacity` is the buffer's size, which decides how much of a long text
is encoded at once. The reader is one that stays within its bytes (`Lib.ByteReader`).
-/

namespace PiBridge.Chord.Link

open Lib

/-- `KIND_BYTES` -/
def Kind.byte : Kind → UInt8
  | .hello => 0
  | .hold => 1
  | .release => 2
  | .call => 3
  | .abort => 4
  | .bound => 5
  | .state => 6
  | .failed => 7
  | .result => 8
  | .error => 9
  | .gone => 10
  | .retry => 11
  | .loading => 12
  | .ack => 13
  | .closed => 14
  | .ping => 15
  | .pong => 16
  | .revoke => 17

/-- `CAUSE_KINDS.indexOf` -/
def CauseKind.byte : CauseKind → UInt8
  | .transient => 0
  | .broken => 1
  | .waiting => 2

/-- `ORIGIN` -/
def originFlag : UInt8 := 0x80

/-- `TRACE` -/
def traceFlag : UInt8 := 0x40

/-- The flags of a hold's optional fields. -/
def principalFlag : UInt8 := 1
def incarnationFlag : UInt8 := 2
def chainFlag : UInt8 := 4
def limitFlag : UInt8 := 8

/-- The flag, when the field is there. -/
def flagIf {α : Type} (x : Option α) (flag : UInt8) : UInt8 := if x.isSome then flag else 0

/-! ## Hex -/

/-- The bytes of pairs of hex digits. -/
def hexBytes : Text → List UInt8
  | a :: b :: s => UInt8.ofNat (hexValue a * 16 + hexValue b) :: hexBytes s
  | _ => []

/-- `hex`: this many bytes from lowercase hex. -/
def hex (s : Text) (length : Nat) : Option (List UInt8) :=
  if s.length = 2 * length ∧ s.all isLowerHex = true then some (hexBytes s) else none

def hexText (bytes : List UInt8) : Text := bytes.flatMap fun b => [hexDigit (b.toNat / 16), hexDigit (b.toNat % 16)]

/-- `uuid` -/
def uuid (bytes : List UInt8) : Text :=
  let s := hexText bytes
  s.take 8 ++ 45 :: ((s.drop 8).take 4 ++ 45 :: ((s.drop 12).take 4 ++ 45 :: ((s.drop 16).take 4 ++ 45 :: s.drop 20)))

/-- Without the dashes of an incarnation. -/
def dashless (s : Text) : Text := s.filter (· ≠ 45)

/-! ## Writing -/

/-- The bytes of a varint: seven bits at a time, the lowest first, the high bit set on all but the last. -/
def varintBytes (n : Nat) : List UInt8 := if n < 0x80 then [UInt8.ofNat n] else UInt8.ofNat (n % 0x80 + 0x80) :: varintBytes (n / 0x80)
termination_by n

/-- A varint of this many bytes. -/
def paddedVarint : Nat → Nat → List UInt8
  | 0, _ => []
  | 1, n => [UInt8.ofNat (n % 0x80)]
  | k + 2, n => UInt8.ofNat (n % 0x80 + 0x80) :: paddedVarint (k + 1) (n / 0x80)

/-- `encodeInto`: the units read of the characters that fit, and their bytes. -/
def encodeInto : Text → Nat → Nat × List UInt8
  | [], _ => (0, [])
  | [c], room =>
    let b := String.utf8EncodeChar (unitChar c)
    if b.length ≤ room then (1, b) else (0, [])
  | c :: d :: s, room =>
    if isHighSurrogate c && isLowSurrogate d then
      let b := String.utf8EncodeChar (pairChar c d)
      if b.length ≤ room then
        let (read, written) := encodeInto s (room - b.length)
        (read + 2, b ++ written)
      else (0, [])
    else
      let b := String.utf8EncodeChar (unitChar c)
      if b.length ≤ room then
        let (read, written) := encodeInto (d :: s) (room - b.length)
        (read + 1, b ++ written)
      else (0, [])

/-- `SHORT`, `LONG`, `LENGTH_SLOT` and `SPARE`. -/
def shortText : Nat := 42
def longText : Nat := 4096
def lengthSlot : Nat := 5
def spare : Nat := 4096

/-- What was written, and the size of the buffer it is in. -/
structure Writer where
  bytes : List UInt8
  capacity : Nat

namespace Writer

def new : Writer := ⟨[], 256⟩

/-- `#reserve`: room for more bytes. -/
def reserve (w : Writer) (n : Nat) : Writer :=
  if w.bytes.length + n ≤ w.capacity then w
  else { w with capacity := max (w.capacity * 2) (w.bytes.length + n + spare) }

def append (w : Writer) (bytes : List UInt8) : Writer := { w with bytes := w.bytes ++ bytes }

def byte (w : Writer) (b : UInt8) : Writer := (w.reserve 1).append [b]

def varint (w : Writer) (n : Nat) : Writer := (w.reserve 8).append (varintBytes n)

def raw (w : Writer) (bytes : List UInt8) : Writer := (w.reserve bytes.length).append bytes

/-- The loop that encodes a long text where there is room, and makes more. -/
def encodeText : Nat → Text → Writer → Writer
  | 0, _, w => w
  | _ + 1, [], w => w
  | fuel + 1, c :: s, w =>
    let (read, written) := encodeInto (c :: s) (w.capacity - w.bytes.length)
    let w := w.append written
    let rest := (c :: s).drop read
    encodeText fuel rest (if rest.isEmpty then w else w.reserve (max (rest.length * 2) 4))

/-- `#text`: a text behind its UTF-8 length times `scale`. -/
def text (w : Writer) (s : Text) (scale : Nat) : Writer :=
  if s.length ≤ shortText / scale then
    let w := w.reserve (1 + s.length * 3)
    let written := (encodeInto s (w.capacity - (w.bytes.length + 1))).2
    w.append (UInt8.ofNat (written.length * scale) :: written)
  else if s.length < longText then
    (w.varint ((encodeUtf8 s).length * scale)).raw (encodeUtf8 s)
  else
    let slot := w.bytes.length
    let w := (w.reserve (lengthSlot + s.length)).append (List.replicate lengthSlot 0)
    -- Each pass but the first reads a character.
    let w := encodeText (s.length + 1) s w
    let length := (w.bytes.length - slot - lengthSlot) * scale
    { w with bytes := w.bytes.take slot ++ paddedVarint lengthSlot length ++ w.bytes.drop (slot + lengthSlot) }

def string (w : Writer) (s : Text) : Writer := w.text s 1

def json (numbers : Numbers) (w : Writer) (x : Json) : Writer := w.string (stringify numbers x)

/-- A part behind its length doubled, plus one when it is deflated. -/
def part (w : Writer) : Part → Writer
  | .text s => w.text s 2
  | .bytes b => (w.varint (b.length * 2)).raw b
  | .deflated b => (w.varint (b.length * 2 + 1)).raw b

/-- A payload: its flags, its part, and the number, lengths and bytes of its segments. -/
def payload (w : Writer) (p : Payload) : Writer :=
  match p.part with
  | none => w.varint 0
  | some part =>
    match p.segments with
    | none => (w.varint 1).part part
    | some segments =>
      let w := ((w.varint 3).part part).varint segments.length
      let w := segments.foldl (fun w s => w.varint s.length) w
      segments.foldl (fun w s => w.raw s) w

variable (numbers : Numbers)

/-- `#failedEntries` -/
def failedEntries (w : Writer) (failed : List (FailedMember checked)) : Writer :=
  failed.foldl (fun w m => (w.varint m.member).json numbers m.error) w

def failed (w : Writer) (failed : List (FailedMember checked)) : Writer := (w.varint failed.length).failedEntries numbers failed

/-- The failures' number doubled, plus one when retirements follow. -/
def failedAndRetired (w : Writer) (failed : List (FailedMember checked)) (retired : List Nat) : Writer :=
  let w := (w.varint (failed.length * 2 + if retired.length > 0 then 1 else 0)).failedEntries numbers failed
  if retired.length = 0 then w else retired.foldl (fun w n => w.varint n) (w.varint retired.length)

def members (w : Writer) (members : List (Member checked)) : Writer :=
  members.foldl (fun w m => (w.varint m.member).part m.value) (w.varint members.length)

def boundEntry (w : Writer) (e : BoundEntry checked) : Writer :=
  (((w.varint e.hold).varint e.variant).members e.members).failed numbers e.failed

def stateEntry (w : Writer) (e : StateEntry checked) : Writer :=
  ((w.varint e.hold).members e.members).failedAndRetired numbers e.failed e.retired

/-- Writes a field that is there. -/
def optional {α : Type} (w : Writer) (write : Writer → α → Writer) : Option α → Writer
  | none => w
  | some a => write w a

end Writer

section Encode

variable (numbers : Numbers)

/-- `encodeFields` -/
def encodeFields (w : Writer) : Body checked → Option Writer
  | .hello protocol incarnation calls =>
    (hex (dashless incarnation) 16).map fun incarnation => ((w.varint protocol).raw incarnation).varint calls
  | .hold h =>
    (hex h.fingerprint 8).bind fun fingerprint =>
      (h.incarnation.mapM fun s => hex (dashless s) 16).bind fun incarnation =>
        (h.chain.mapM fun names : List Text => names.mapM fun s => hex (dashless s) 16).map fun chain =>
          let w := (((w.varint h.hold).string h.type).varint h.version).raw fingerprint
          let w := ((w.part h.params).string h.address.kind).json numbers h.address.params
          let w := w.byte (flagIf h.principal principalFlag ||| flagIf h.incarnation incarnationFlag |||
            flagIf h.chain chainFlag ||| flagIf h.limit limitFlag)
          let w := (w.optional (·.json numbers) h.principal).optional (·.raw) incarnation
          let w := w.optional (fun w names => names.foldl (fun w name => w.raw name) (w.varint names.length)) chain
          w.optional (·.varint) h.limit
  | .release id | .loading id => some (w.varint id)
  | .retry id hops => some ((w.varint id).varint hops)
  | .call id object method args => some ((((w.varint id).varint object).varint method).payload args)
  | .abort id => some (w.varint id)
  | .bound holds => some (holds.foldl (fun w e => w.boundEntry numbers e) (w.varint holds.length))
  | .state holds => some (holds.foldl (fun w e => w.stateEntry numbers e) (w.varint holds.length))
  | .failed id cause retryIn =>
    -- 0 when absent, else one more than the delay.
    some ((((w.varint id).byte cause.kind.byte).json numbers cause.error).varint ((retryIn.map (· + 1)).getD 0))
  | .result id value => some ((w.varint id).payload value)
  | .error id e => some ((w.varint id).json numbers e)
  | .gone id e => some ((w.varint id).json numbers e)
  | .revoke revocation => some (w.json numbers revocation)
  | .ack | .closed | .ping | .pong => some w

/-- `binaryCodec.encode` -/
def encodeBinary (m : Message checked) : Option (List UInt8) :=
  let trace := if m.body.kind.hasTrace then m.trace else none
  let w := Writer.new.byte (m.body.kind.byte ||| flagIf m.origin originFlag ||| flagIf trace traceFlag)
  let w := (w.optional (·.varint) m.origin).optional (·.json numbers) trace
  (encodeFields numbers w m.body).map (·.bytes)

end Encode

/-! ## Reading -/

namespace Binary

section Decode

variable (numbers : Numbers)

/-- `Number.MAX_SAFE_INTEGER` -/
def maxSafeInteger : Nat := 2 ^ 53 - 1

/-- The loop of `varint`, with the bytes it may still read. -/
def readVarintFrom : Nat → Nat → Nat → Reader Nat
  | 0, _, _ => Reader.fail
  | left + 1, value, scale => do
    let byte ← Reader.byte
    let value := value + byte.toNat % 0x80 * scale
    if value > maxSafeInteger then Reader.fail
    else if byte.toNat < 0x80 then pure value
    else readVarintFrom left value (scale * 0x80)

/-- `varint`: at most 8 bytes, at most a safe integer. -/
def readVarint : Reader Nat := readVarintFrom 8 0 1

/-- Bytes behind their length. -/
def readBytes : Reader (List UInt8) := do
  let length ← readVarint
  Reader.raw length

def readString : Reader Text := do
  let bytes ← readBytes
  Reader.ofOption (decodeUtf8 bytes)

def readJson : Reader Json := do
  let bytes ← readBytes
  Reader.ofOption (parseJson numbers bytes)

/-- `part` -/
def readPart : Reader Part := do
  let length ← readVarint
  let bytes ← Reader.raw (length / 2)
  pure (if length % 2 = 1 then .deflated bytes else .bytes bytes)

/-- A count of elements that take a byte at least. -/
def readCount (count : Nat) : Reader Unit := do
  let left ← Reader.remaining
  if count > left then Reader.fail else pure ()

/-- `list` -/
def readList {α : Type} (read : Reader α) : Reader (List α) := do
  let count ← readVarint
  readCount count
  Reader.replicate count read

/-- `payload` -/
def readPayload : Reader Payload := do
  let flags ← readVarint
  if flags = 0 then pure ⟨none, none⟩
  else if flags ≠ 1 ∧ flags ≠ 3 then Reader.fail
  else do
    let part ← readPart
    if flags = 1 then pure ⟨some part, none⟩
    else do
      let lengths ← readList readVarint
      let segments ← Reader.forEach Reader.raw lengths
      pure ⟨some part, some segments⟩

/-- `failedEntries` -/
def readFailedEntries (count : Nat) : Reader (List (FailedMember checked)) := do
  readCount count
  Reader.replicate count do
    let member ← readVarint
    let error ← readJson numbers
    pure ⟨member, error⟩

def readFailed : Reader (List (FailedMember checked)) := do
  let count ← readVarint
  readFailedEntries numbers count

def readMember : Reader (Member checked) := do
  let member ← readVarint
  let value ← readPart
  pure ⟨member, value⟩

def readUuid : Reader Text := do
  let bytes ← Reader.raw 16
  pure (uuid bytes)

def readBoundEntry : Reader (BoundEntry checked) := do
  let hold ← readVarint
  let variant ← readVarint
  let members ← readList readMember
  let failed ← readFailed numbers
  pure ⟨hold, variant, members, failed⟩

def readStateEntry : Reader (StateEntry checked) := do
  let hold ← readVarint
  let members ← readList readMember
  let flags ← readVarint
  let failed ← readFailedEntries numbers (flags / 2)
  let retired ← if flags % 2 = 0 then pure [] else readList readVarint
  pure ⟨hold, members, failed, retired⟩

/-- Reads a field whose flag is set. -/
def readOptional {α : Type} (flags flag : UInt8) (read : Reader α) : Reader (Option α) :=
  if flags &&& flag ≠ 0 then do
    let a ← read
    pure (some a)
  else pure none

def readHold : Reader (HoldFields checked) := do
  let hold ← readVarint
  let type ← readString
  let version ← readVarint
  let fingerprint ← Reader.raw 8
  let params ← readPart
  let kind ← readString
  let address ← readJson numbers
  let flags ← Reader.byte
  if flags > 15 then Reader.fail
  else do
    let principal ← readOptional flags principalFlag (readJson numbers)
    let incarnation ← readOptional flags incarnationFlag readUuid
    let chain ← readOptional flags chainFlag (readList readUuid)
    let limit ← readOptional flags limitFlag readVarint
    pure
      { hold, type, version, fingerprint := hexText fingerprint, params, address := ⟨kind, address⟩, principal
        incarnation, chain, limit }

/-- `decodeFields`: the origin of `closed` is the kind byte's; 0 without one, which the schema refuses. -/
def decodeFields : Kind → Reader (Message checked)
  | .hello => do
    let protocol ← readVarint
    let incarnation ← readUuid
    let calls ← readVarint
    pure ⟨none, none, .hello protocol incarnation calls⟩
  | .hold => do
    let fields ← readHold numbers
    pure ⟨none, none, .hold fields⟩
  | .release => do
    let hold ← readVarint
    pure ⟨none, none, .release hold⟩
  | .loading => do
    let hold ← readVarint
    pure ⟨none, none, .loading hold⟩
  | .retry => do
    let hold ← readVarint
    let hops ← readVarint
    pure ⟨none, none, .retry hold hops⟩
  | .call => do
    let call ← readVarint
    let hold ← readVarint
    let method ← readVarint
    let args ← readPayload
    pure ⟨none, none, .call call hold method args⟩
  | .abort => do
    let call ← readVarint
    pure ⟨none, none, .abort call⟩
  | .bound => do
    let holds ← readList (readBoundEntry numbers)
    pure ⟨none, none, .bound holds⟩
  | .state => do
    let holds ← readList (readStateEntry numbers)
    pure ⟨none, none, .state holds⟩
  | .failed => do
    let hold ← readVarint
    let byte ← Reader.byte
    let kind ← Reader.ofOption causeKinds[byte.toNat]?
    let error ← readJson numbers
    let retryIn ← readVarint
    pure ⟨none, none, .failed hold ⟨kind, error⟩ (if retryIn = 0 then none else some (retryIn - 1))⟩
  | .result => do
    let call ← readVarint
    let value ← readPayload
    pure ⟨none, none, .result call value⟩
  | .error => do
    let call ← readVarint
    let error ← readJson numbers
    pure ⟨none, none, .error call error⟩
  | .gone => do
    let hold ← readVarint
    let error ← readJson numbers
    pure ⟨none, none, .gone hold error⟩
  | .revoke => do
    let revocation ← readJson numbers
    pure ⟨none, none, .revoke revocation⟩
  | .ack => pure ⟨none, none, .ack⟩
  | .ping => pure ⟨none, none, .ping⟩
  | .pong => pure ⟨none, none, .pong⟩
  | .closed => pure ⟨some 0, none, .closed⟩

/-- `binaryCodec.decode`, on a reader. -/
def readMessage : Reader (Message checked) := do
  let byte ← Reader.byte
  let kind ← Reader.ofOption kinds[(byte &&& 0x3f).toNat]?
  let origin ← readOptional byte originFlag readVarint
  let trace ← readOptional byte traceFlag (readJson numbers)
  let message ← decodeFields numbers kind
  Reader.finish
  pure { message with origin := origin.or message.origin, trace := trace.or message.trace }

end Decode

end Binary

/-- `binaryCodec.decode` -/
def decodeBinary (numbers : Numbers) (bytes : List UInt8) : Option (Message checked) :=
  (Binary.readMessage numbers bytes (Cursor.start bytes)).1

end PiBridge.Chord.Link
