import PiBridge.Chord.Utf

/-!
# `Chord.Link.Message` — what a link carries

The one message type of every link and its schema. A decoder reads fields before the schema has checked them, so
the type of a message's fields is a parameter: `checked` has numbers and strings where the schema puts them,
`unchecked` any value.

A message is its origin, its trace carrier and its own fields; the kinds that have neither are the schema's to
refuse. Values are JSON, and an object of the schema is one with these own properties.
-/

namespace PiBridge.Chord.Link

open Lib

/-- A value as it crosses a link: its JSON text, the bytes received for it, or deflated by its origin. -/
inductive Part where
  | text (s : Text)
  | bytes (b : List UInt8)
  | deflated (b : List UInt8)

/-- The types of a message's numbers, strings and lists of names. -/
structure FieldTypes where
  num : Type
  str : Type
  names : Type

/-- Fields as the schema has them. -/
abbrev checked : FieldTypes := ⟨Nat, Text, List Text⟩

/-- Fields a decoder has read, before the schema's check. -/
abbrev unchecked : FieldTypes := ⟨Json, Json, Json⟩

inductive Kind where
  | hello | hold | release | call | abort | bound | state | failed | result | error | gone | retry | loading | ack
  | closed | ping | pong | revoke
deriving DecidableEq

inductive CauseKind where
  | transient | broken | waiting
deriving DecidableEq

/-- The kinds by their byte. -/
def kinds : List Kind := [.hello, .hold, .release, .call, .abort, .bound, .state, .failed, .result, .error, .gone, .retry, .loading, .ack,
    .closed, .ping, .pong, .revoke]

/-- `CAUSE_KINDS` -/
def causeKinds : List CauseKind := [.transient, .broken, .waiting]

/-- A payload's part and its byte segments. -/
structure Payload where
  part : Option Part
  segments : Option (List (List UInt8))

structure Cause where
  kind : CauseKind
  error : Json

variable (F : FieldTypes)

structure FailedMember where
  member : F.num
  error : Json

/-- A member and its value or operations. -/
structure Member where
  member : F.num
  value : Part

structure BoundEntry where
  hold : F.num
  variant : F.num
  members : List (Member F)
  failed : List (FailedMember F)

structure StateEntry where
  hold : F.num
  members : List (Member F)
  failed : List (FailedMember F)
  retired : List F.num

/-- The address a caller computed, which routes its hold. -/
structure Address where
  kind : F.str
  params : Json

structure HoldFields where
  hold : F.num
  type : F.str
  version : F.num
  fingerprint : F.str
  params : Part
  address : Address F
  principal : Option Json
  incarnation : Option F.str
  chain : Option F.names
  limit : Option F.num

/-- The fields of a message's kind. -/
inductive Body where
  | hello (protocol : F.num) (incarnation : F.str) (calls : F.num)
  | hold (fields : HoldFields F)
  | release (hold : F.num)
  | call (call hold method : F.num) (args : Payload)
  | abort (call : F.num)
  | bound (holds : List (BoundEntry F))
  | state (holds : List (StateEntry F))
  | failed (hold : F.num) (cause : Cause) (retryIn : Option F.num)
  | result (call : F.num) (value : Payload)
  | error (call : F.num) (error : Json)
  | gone (hold : F.num) (error : Json)
  | retry (hold hops : F.num)
  | loading (hold : F.num)
  | ack
  | closed
  | ping
  | pong
  | revoke (revocation : Json)

structure Message where
  origin : Option F.num
  trace : Option Json
  body : Body F

variable {F}

def Body.kind : Body F → Kind
  | .hello .. => .hello
  | .hold .. => .hold
  | .release .. => .release
  | .call .. => .call
  | .abort .. => .abort
  | .bound .. => .bound
  | .state .. => .state
  | .failed .. => .failed
  | .result .. => .result
  | .error .. => .error
  | .gone .. => .gone
  | .retry .. => .retry
  | .loading .. => .loading
  | .ack => .ack
  | .closed => .closed
  | .ping => .ping
  | .pong => .pong
  | .revoke .. => .revoke

/-! ## Field by field -/

/-- What becomes of each field. -/
structure FieldMap (F G : FieldTypes) where
  num : F.num → G.num
  str : F.str → G.str
  names : F.names → G.names
  part : Part → Part

/-- The fields as values. -/
def uncheck : FieldMap checked unchecked := ⟨fun n => .num n, .str, fun names => .arr (names.map .str), id⟩

/-- Every field but what the parts hold. -/
def eraseParts : FieldMap F F := ⟨id, id, id, fun _ => .text []⟩

section Map

variable {G : FieldTypes} (f : FieldMap F G)

def Payload.map (f : Part → Part) (p : Payload) : Payload := { p with part := p.part.map f }

def FailedMember.map (m : FailedMember F) : FailedMember G := ⟨f.num m.member, m.error⟩

def Member.map (m : Member F) : Member G := ⟨f.num m.member, f.part m.value⟩

def BoundEntry.map (e : BoundEntry F) : BoundEntry G := ⟨f.num e.hold, f.num e.variant, e.members.map (·.map f), e.failed.map (·.map f)⟩

def StateEntry.map (e : StateEntry F) : StateEntry G := ⟨f.num e.hold, e.members.map (·.map f), e.failed.map (·.map f), e.retired.map f.num⟩

def HoldFields.map (h : HoldFields F) : HoldFields G :=
  { hold := f.num h.hold, type := f.str h.type, version := f.num h.version, fingerprint := f.str h.fingerprint,
    params := f.part h.params, address := ⟨f.str h.address.kind, h.address.params⟩, principal := h.principal,
    incarnation := h.incarnation.map f.str, chain := h.chain.map f.names, limit := h.limit.map f.num }

def Body.map : Body F → Body G
  | .hello protocol incarnation calls => .hello (f.num protocol) (f.str incarnation) (f.num calls)
  | .hold fields => .hold (fields.map f)
  | .release id => .release (f.num id)
  | .call id object method args => .call (f.num id) (f.num object) (f.num method) (args.map f.part)
  | .abort id => .abort (f.num id)
  | .bound holds => .bound (holds.map (·.map f))
  | .state holds => .state (holds.map (·.map f))
  | .failed id cause retryIn => .failed (f.num id) cause (retryIn.map f.num)
  | .result id value => .result (f.num id) (value.map f.part)
  | .error id e => .error (f.num id) e
  | .gone id e => .gone (f.num id) e
  | .retry id hops => .retry (f.num id) (f.num hops)
  | .loading id => .loading (f.num id)
  | .ack => .ack
  | .closed => .closed
  | .ping => .ping
  | .pong => .pong
  | .revoke revocation => .revoke revocation

def Message.map (m : Message F) : Message G := ⟨m.origin.map f.num, m.trace, m.body.map f⟩

end Map

/-- A message without what its parts hold: its kind, origin, ids, indexes, address, principal, incarnation, chain,
limit, trace, errors and segments. -/
def Message.header (m : Message F) : Message F := m.map eraseParts

/-- What is asked of each field. -/
structure FieldProps where
  num : Nat → Prop
  str : Text → Prop
  json : Json → Prop
  part : Part → Prop
  /-- Of a byte segment. -/
  segment : List UInt8 → Prop
  /-- Of the length of a list. -/
  count : Nat → Prop

section All

variable (P : FieldProps)

def Payload.All (p : Payload) : Prop := (∀ part, p.part = some part → P.part part) ∧
    ∀ segments, p.segments = some segments → P.count segments.length ∧ ∀ s ∈ segments, P.segment s

def allFailed (failed : List (FailedMember checked)) : Prop := P.count failed.length ∧ ∀ m ∈ failed, P.num m.member ∧ P.json m.error

def allMembers (members : List (Member checked)) : Prop := P.count members.length ∧ ∀ m ∈ members, P.num m.member ∧ P.part m.value

structure BoundEntry.All (e : BoundEntry checked) : Prop where
  hold : P.num e.hold
  variant : P.num e.variant
  members : allMembers P e.members
  failed : allFailed P e.failed

structure StateEntry.All (e : StateEntry checked) : Prop where
  hold : P.num e.hold
  members : allMembers P e.members
  failed : allFailed P e.failed
  retired : P.count e.retired.length ∧ ∀ n ∈ e.retired, P.num n

structure HoldFields.All (h : HoldFields checked) : Prop where
  hold : P.num h.hold
  type : P.str h.type
  version : P.num h.version
  fingerprint : P.str h.fingerprint
  params : P.part h.params
  kind : P.str h.address.kind
  address : P.json h.address.params
  principal : ∀ x, h.principal = some x → P.json x
  incarnation : ∀ s, h.incarnation = some s → P.str s
  chain : ∀ names, h.chain = some names → P.count names.length ∧ ∀ s ∈ names, P.str s
  limit : ∀ n, h.limit = some n → P.num n

def Body.All : Body checked → Prop
  | .hello protocol incarnation calls => P.num protocol ∧ P.str incarnation ∧ P.num calls
  | .hold fields => fields.All P
  | .release id | .abort id | .loading id => P.num id
  | .call id object method args => P.num id ∧ P.num object ∧ P.num method ∧ args.All P
  | .bound holds => P.count holds.length ∧ ∀ e ∈ holds, e.All P
  | .state holds => P.count holds.length ∧ ∀ e ∈ holds, e.All P
  | .failed id cause retryIn => P.num id ∧ P.json cause.error ∧ ∀ n, retryIn = some n → P.num n
  | .result id value => P.num id ∧ value.All P
  | .error id e | .gone id e => P.num id ∧ P.json e
  | .retry id hops => P.num id ∧ P.num hops
  | .ack | .closed | .ping | .pong => True
  | .revoke revocation => P.json revocation

structure Message.All (m : Message checked) : Prop where
  origin : ∀ n, m.origin = some n → P.num n
  trace : ∀ x, m.trace = some x → P.json x
  body : m.body.All P

end All

/-- The parts of a message. -/
def Body.parts : Body F → List Part
  | .hold h => [h.params]
  | .call _ _ _ args => args.part.toList
  | .bound holds => holds.flatMap fun e => e.members.map (·.value)
  | .state holds => holds.flatMap fun e => e.members.map (·.value)
  | .result _ value => value.part.toList
  | _ => []

/-- The byte segments of a message's payload. -/
def Body.segments : Body F → Option (List (List UInt8))
  | .call _ _ _ args => args.segments
  | .result _ value => value.segments
  | _ => none

/-- Byte segments stand beside a payload. -/
def Body.HasPayload : Body F → Prop
  | .call _ _ _ args => args.segments.isSome = true → args.part.isSome = true
  | .result _ value => value.segments.isSome = true → value.part.isSome = true
  | _ => True

/-! ## The schema -/

def isLowerHex (c : UInt16) : Bool := isDigit c || (97 ≤ c && c < 103)

/-- Groups of lowercase hex digits between dashes. -/
def isHexGroups : List Nat → Text → Bool
  | [], s => s.isEmpty
  | [n], s => decide (s.length = n) && s.all isLowerHex
  | n :: groups, s =>
    decide ((s.take n).length = n) && (s.take n).all isLowerHex && decide ((s.drop n).head? = some 45) &&
      isHexGroups groups (s.drop (n + 1))

/-- `incarnation` -/
def isIncarnation (s : Text) : Bool := isHexGroups [8, 4, 4, 4, 12] s

def isFingerprint (s : Text) : Bool := isHexGroups [16] s

/-- `NAME_LENGTH` -/
def nameLength : Nat := 256

/-- `name`: the schema counts code points. -/
def isName (s : Text) : Bool := (chars s).length ≤ nameLength

/-- `CARRIER` -/
def carrierKeys : Nat := 8

def carrierLength : Nat := 256

/-- A value of a trace carrier: printable ASCII. -/
def isCarrierValue : Json → Bool
  | .str s => decide ((chars s).length ≤ carrierLength) && s.all fun c => 0x20 ≤ c && c ≤ 0x7e
  | _ => false

/-- A key of a trace carrier: printable ASCII without spaces. -/
def isCarrierKey (s : Text) : Bool := decide ((chars s).length ≤ carrierLength) && !s.isEmpty && s.all fun c => 0x21 ≤ c && c ≤ 0x7e

/-- `trace` -/
def isTrace : Json → Bool
  | .obj m => decide (m.length ≤ carrierKeys) && m.all fun p => isCarrierKey p.1 && isCarrierValue p.2
  | _ => false

def isObject : Json → Bool
  | .obj _ => true
  | _ => false

def isString : Json → Bool
  | .str _ => true
  | _ => false

/-- `principal`: an open object. -/
def isPrincipal : Json → Bool
  | .obj m => (Assoc.get? m (text "kind")).any isString
  | _ => false

/-- `wireError`: a closed object of a ChordError's JSON, or of a plugin's code and message. -/
def isWireError : Json → Bool
  | .obj m =>
    (decide (Assoc.get? m (text "kind") = some (.str (text "chord"))) && (Assoc.get? m (text "error")).isSome &&
      m.all fun p => [text "kind", text "error"].contains p.1) ||
    (decide (Assoc.get? m (text "kind") = some (.str (text "plugin"))) && (Assoc.get? m (text "code")).any isString &&
      (Assoc.get? m (text "message")).any isString &&
      m.all fun p => [text "kind", text "code", text "message", text "details"].contains p.1)
  | _ => false

/-- `CHAIN` -/
def chainLength : Nat := 32

/-- `RETRY_HOPS` -/
def retryHops : Nat := 16

def areFailed (failed : List (FailedMember checked)) : Prop := ∀ m ∈ failed, isWireError m.error = true

/-- What the schema asks of the fields of a kind beyond their types. -/
def Body.Accepted : Body checked → Prop
  | .hello _ incarnation calls => isIncarnation incarnation = true ∧ 1 ≤ calls
  | .hold h =>
    isName h.type = true ∧ 1 ≤ h.version ∧ isFingerprint h.fingerprint = true ∧ isName h.address.kind = true ∧
      (∀ principal, h.principal = some principal → isPrincipal principal = true) ∧
      (∀ incarnation, h.incarnation = some incarnation → isIncarnation incarnation = true) ∧
      ∀ chain, h.chain = some chain → chain.length ≤ chainLength ∧ ∀ instance_ ∈ chain, isIncarnation instance_ = true
  | .bound holds => ∀ e ∈ holds, areFailed e.failed
  | .state holds => ∀ e ∈ holds, areFailed e.failed
  | .failed _ cause _ => isWireError cause.error = true
  | .error _ e | .gone _ e => isWireError e = true
  | .retry _ hops => 1 ≤ hops ∧ hops ≤ retryHops
  | .release _ | .call .. | .abort _ | .result .. | .loading _ | .ack | .closed | .ping | .pong | .revoke _ => True

/-- A kind with an origin. -/
def Kind.hasOrigin : Kind → Bool
  | .hello | .ping | .pong | .revoke => false
  | _ => true

/-- A kind with a trace carrier. -/
def Kind.hasTrace : Kind → Bool
  | .hold | .call => true
  | _ => false

/-- What the type of a message says of it. -/
structure Message.Typed (m : Message checked) : Prop where
  origin : m.origin.isSome = true → m.body.kind.hasOrigin = true
  /-- `closed` has an origin. -/
  closed : m.body.kind = .closed → m.origin.isSome = true
  trace : ∀ x, m.trace = some x → m.body.kind.hasTrace = true ∧ isObject x = true
  principal : ∀ h x, m.body = .hold h → h.principal = some x → isObject x = true

/-- `MESSAGE` accepts the message. -/
structure Message.Accepted (m : Message checked) : Prop extends m.Typed where
  body : m.body.Accepted
  origins : ∀ n, m.origin = some n → 1 ≤ n
  carrier : ∀ x, m.trace = some x → isTrace x = true

end PiBridge.Chord.Link
