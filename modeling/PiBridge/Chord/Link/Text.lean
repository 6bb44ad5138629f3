import PiBridge.Chord.Link.Values
import Mathlib.Data.List.DropRight

/-!
# `Chord.Link.Text` — the text codec

One JSON tuple for a message: a letter for its kind, then its fields by position, and a part's own text where the
part stands. The byte segments of a payload follow after a newline. A message with an origin is wrapped.

The reader takes what `JSON.parse` makes of the tuple: it checks the letter, the number of fields and the lists of
pairs, and leaves the types to the schema.
-/

namespace PiBridge.Chord.Link

/-- The letter of a kind. -/
def Kind.tag : Kind → Text
  | .hello => text "h"
  | .hold => text "H"
  | .release => text "R"
  | .call => text "c"
  | .abort => text "x"
  | .bound => text "b"
  | .state => text "s"
  | .failed => text "f"
  | .result => text "r"
  | .error => text "e"
  | .gone => text "g"
  | .retry => text "T"
  | .loading => text "l"
  | .ack => text "a"
  | .closed => text "C"
  | .ping => text "p"
  | .pong => text "P"
  | .revoke => text "V"

/-- The first letter of a cause's kind. -/
def CauseKind.tag : CauseKind → Text
  | .transient => text "t"
  | .broken => text "b"
  | .waiting => text "w"

/-! ## Writing -/

section Encode

variable (numbers : Numbers)

/-- A number in a template. -/
def numText (n : Nat) : Text := numbers.text n

/-- `json` of a list. -/
def listText (xs : List Json) : Text := stringify numbers (.arr xs)

/-- `texts.join(",")` -/
def join : List Text → Text
  | [] => []
  | [s] => s
  | s :: t :: texts => s ++ text "," ++ join (t :: texts)

/-- The failures of an entry. -/
def failedValue (failed : List (FailedMember checked)) : Json := .arr (failed.map fun m => .arr [.num m.member, m.error])

/-- `failedField` -/
def failedField (failed : List (FailedMember checked)) : Text :=
  if failed.isEmpty then [] else text "," ++ stringify numbers (failedValue failed)

/-- The members of an entry. -/
def pairsText (members : List (Member checked)) : Option Text :=
  (members.mapM fun m => (partText m.value).map fun part => text "[" ++ numText numbers m.member ++ text "," ++ part ++ text "]").map join

/-- `boundEntry` -/
def boundEntry (e : BoundEntry checked) : Option Text :=
  (pairsText numbers e.members).map fun pairs =>
    text "[" ++ numText numbers e.hold ++ text "," ++ numText numbers e.variant ++ text ",[" ++ pairs ++ text "]" ++
      failedField numbers e.failed ++ text "]"

/-- `stateEntry` -/
def stateEntry (e : StateEntry checked) : Option Text :=
  (pairsText numbers e.members).map fun pairs =>
    if e.retired.isEmpty then
      text "[" ++ numText numbers e.hold ++ text ",[" ++ pairs ++ text "]" ++ failedField numbers e.failed ++ text "]"
    else
      text "[" ++ numText numbers e.hold ++ text ",[" ++ pairs ++ text "]," ++ stringify numbers (failedValue e.failed) ++
        text "," ++ listText numbers (e.retired.map fun n : Nat => Json.num n) ++ text "]"

/-- The lengths of byte segments. -/
def lengths (segments : List (List UInt8)) : List Json := segments.map fun s => .num s.length

/-- `withPayload` -/
def withPayload (head : Text) (p : Payload) : Option Text :=
  match p.part with
  | none => some head
  | some part =>
    (partText part).map fun t =>
      match p.segments with
      | none => head.dropLast ++ text "," ++ t ++ text "]"
      | some segments => head.dropLast ++ text "," ++ t ++ text "," ++ listText numbers (lengths segments) ++ text "]"

/-- The optional fields at the end of a `hold`: an absent one is null, and the last ones are left out. -/
def holdOptional (h : HoldFields checked) (trace : Option Json) : List Json :=
  [h.principal.getD .null, (h.incarnation.map .str).getD .null, (h.chain.map fun c => .arr (c.map .str)).getD .null,
    (h.limit.map fun n : Nat => Json.num n).getD .null, trace.getD .null].rdropWhile (· = .null)

/-- `ownTuple` -/
def ownTuple (trace : Option Json) : Body checked → Option Text
  | .hello protocol incarnation calls =>
    some (listText numbers [.str (text "h"), .num protocol, .str incarnation, .num calls])
  | .hold h =>
    (partText h.params).map fun params =>
      (listText numbers [.str (text "H"), .num h.hold, .str h.type, .num h.version, .str h.fingerprint]).dropLast ++
        text "," ++ params ++ text "," ++ listText numbers [.str h.address.kind, h.address.params] ++
        (holdOptional h trace).flatMap (fun x => text "," ++ stringify numbers x) ++ text "]"
  | .release id => some (listText numbers [.str (text "R"), .num id])
  | .call id object method args =>
    let head := listText numbers [.str (text "c"), .num id, .num object, .num method]
    match trace with
    | none => withPayload numbers head args
    | some trace =>
      -- With a trace the payload's fields have their places.
      let segments := (args.segments.map fun segments => listText numbers (lengths segments)).getD (text "null")
      ((args.part.map partText).getD (some (text "null"))).map fun part =>
        head.dropLast ++ text "," ++ part ++ text "," ++ segments ++ text "," ++ stringify numbers trace ++ text "]"
  | .abort id => some (listText numbers [.str (text "x"), .num id])
  | .bound holds => (holds.mapM (boundEntry numbers)).map fun entries => text "[\"b\",[" ++ join entries ++ text "]]"
  | .state holds => (holds.mapM (stateEntry numbers)).map fun entries => text "[\"s\",[" ++ join entries ++ text "]]"
  | .failed id cause retryIn =>
    some (listText numbers
      ([.str (text "f"), .num id, .str cause.kind.tag, cause.error] ++ (retryIn.map fun n : Nat => Json.num n).toList))
  | .result id value => withPayload numbers (listText numbers [.str (text "r"), .num id]) value
  | .error id e => some (listText numbers [.str (text "e"), .num id, e])
  | .gone id e => some (listText numbers [.str (text "g"), .num id, e])
  | .revoke revocation => some (listText numbers [.str (text "V"), revocation])
  | .retry id hops => some (listText numbers [.str (text "T"), .num id, .num hops])
  | .loading id => some (listText numbers [.str (text "l"), .num id])
  | .ack => some (listText numbers [.str (text "a")])
  | .closed => some (listText numbers [.str (text "C")])
  | .ping => some (listText numbers [.str (text "p")])
  | .pong => some (listText numbers [.str (text "P")])

/-- `tuple` -/
def tuple (m : Message checked) : Option Text :=
  match m.origin with
  | none => ownTuple numbers m.trace m.body
  | some origin =>
    (ownTuple numbers m.trace m.body).map fun t => text "[\"@\"," ++ numText numbers origin ++ text "," ++ t ++ text "]"

/-- `textCodec.encode` -/
def encodeText (m : Message checked) : Option (List UInt8) :=
  (tuple numbers m).map fun t =>
    match m.body.segments with
    | none => encodeUtf8 t
    | some segments => encodeUtf8 t ++ 10 :: segments.flatten

end Encode

/-! ## Reading -/

section Decode

variable (numbers : Numbers)

/-- `list` -/
def list : Json → Option (List Json)
  | .arr xs => some xs
  | _ => none

def pair : Json → Option (Json × Json)
  | .arr [x, y] => some (x, y)
  | _ => none

/-- `pairs` -/
def pairs (x : Json) : Option (List (Json × Json)) := (list x).bind (·.mapM pair)

/-- `failures` -/
def failures : Option Json → Option (List (FailedMember unchecked))
  | none => some []
  | some x => (pairs x).map (·.map fun p => ⟨p.1, p.2⟩)

def readMembers (x : Json) : Option (List (Member unchecked)) :=
  (pairs x).bind (·.mapM fun p => (textPart numbers p.2).map fun part => ⟨p.1, part⟩)

def readBoundEntry : Json → Option (BoundEntry unchecked)
  | .arr (hold :: variant :: members :: rest) =>
    if rest.length ≤ 1 then
      (readMembers numbers members).bind fun members =>
        (failures rest.head?).map fun failed => ⟨hold, variant, members, failed⟩
    else none
  | _ => none

def readStateEntry : Json → Option (StateEntry unchecked)
  | .arr (hold :: members :: rest) =>
    if rest.length ≤ 2 then
      (readMembers numbers members).bind fun members =>
        (failures rest.head?).bind fun failed =>
          ((rest[1]?.map list).getD (some [])).map fun retired => ⟨hold, members, failed, retired⟩
    else none
  | _ => none

/-- The length of a segment. -/
def segmentLength : Json → Option Nat
  | .num q => if q.den = 1 ∧ 0 ≤ q ∧ q < 2 ^ 53 then some q.num.toNat else none
  | _ => none

/-- The segments of these lengths, from an offset on. -/
def cutSegments (rest : List UInt8) : Nat → List Nat → List (List UInt8)
  | _, [] => []
  | offset, n :: lengths => (rest.drop offset).take n :: cutSegments rest (offset + n) lengths

/-- Where the last of them ends. -/
def endOffset : Nat → List Nat → Nat
  | offset, [] => offset
  | offset, n :: lengths => endOffset (offset + n) lengths

/-- `payload` -/
def payload (fields : List Json) (rest : List UInt8) : Option Payload :=
  match fields with
  | [] => if rest.isEmpty then some ⟨none, none⟩ else none
  | [x] => if rest.isEmpty then (textPart numbers x).map fun part => ⟨some part, none⟩ else none
  | x :: y :: _ =>
    (list y).bind fun lengths =>
      (lengths.mapM segmentLength).bind fun lengths =>
        if endOffset 0 lengths = rest.length then
          (textPart numbers x).map fun part => ⟨some part, some (cutSegments rest 0 lengths)⟩
        else none

/-- An optional field of a `hold`: null when it is absent. -/
def optionalField (f : List Json) (i : Nat) : Option Json := f[i]?.filter (· ≠ .null)

/-- A message that has neither origin nor trace yet. -/
def ownMessage (body : Body unchecked) : Message unchecked := ⟨none, none, body⟩

/-- The fields of a kind. -/
def fieldsOf (kind : Kind) (f : List Json) (rest : List UInt8) : Option (Message unchecked) :=
  match kind with
  | .hello =>
    match f with
    | [protocol, incarnation, calls] => some (ownMessage (.hello protocol incarnation calls))
    | _ => none
  | .hold =>
    match f with
    | hold :: type :: version :: fingerprint :: params :: address :: optional =>
      if optional.length ≤ 5 then
        (pair address).bind fun address =>
          (textPart numbers params).map fun params =>
            ⟨none, optionalField optional 4, .hold
              { hold, type, version, fingerprint, params, address := ⟨address.1, address.2⟩
                principal := optionalField optional 0, incarnation := optionalField optional 1
                chain := optionalField optional 2, limit := optionalField optional 3 }⟩
      else none
    | _ => none
  | .release =>
    match f with
    | [hold] => some (ownMessage (.release hold))
    | _ => none
  | .call =>
    match f with
    | call :: hold :: method :: fields =>
      match fields with
      | [part, lengths, trace] =>
        -- With a trace: the payload's fields by position, null when absent.
        (payload numbers (if part = .null then [] else if lengths = .null then [part] else [part, lengths]) rest).map
          fun args => ⟨none, some trace, .call call hold method args⟩
      | _ =>
        if fields.length ≤ 2 then
          (payload numbers fields rest).map fun args => ownMessage (.call call hold method args)
        else none
    | _ => none
  | .abort =>
    match f with
    | [call] => some (ownMessage (.abort call))
    | _ => none
  | .bound =>
    match f with
    | [holds] => (list holds).bind fun holds => (holds.mapM (readBoundEntry numbers)).map fun holds => ownMessage (.bound holds)
    | _ => none
  | .state =>
    match f with
    | [holds] => (list holds).bind fun holds => (holds.mapM (readStateEntry numbers)).map fun holds => ownMessage (.state holds)
    | _ => none
  | .failed =>
    match f with
    | hold :: kind :: error :: retryIn =>
      if retryIn.length ≤ 1 then
        (causeKinds.find? fun each => .str each.tag = kind).map fun kind =>
          ownMessage (.failed hold ⟨kind, error⟩ retryIn.head?)
      else none
    | _ => none
  | .result =>
    match f with
    | call :: fields =>
      if fields.length ≤ 2 then (payload numbers fields rest).map fun value => ownMessage (.result call value) else none
    | _ => none
  | .error =>
    match f with
    | [call, error] => some (ownMessage (.error call error))
    | _ => none
  | .gone =>
    match f with
    | [hold, error] => some (ownMessage (.gone hold error))
    | _ => none
  | .revoke =>
    match f with
    | [revocation] => some (ownMessage (.revoke revocation))
    | _ => none
  | .retry =>
    match f with
    | [hold, hops] => some (ownMessage (.retry hold hops))
    | _ => none
  | .loading =>
    match f with
    | [hold] => some (ownMessage (.loading hold))
    | _ => none
  | .ack => if f.isEmpty then some (ownMessage .ack) else none
  | .closed =>
    -- Its origin is the wrapper's; 0 without one, which the schema refuses.
    if f.isEmpty then some ⟨some (.num 0), none, .closed⟩ else none
  | .ping => if f.isEmpty then some (ownMessage .ping) else none
  | .pong => if f.isEmpty then some (ownMessage .pong) else none

/-- `fromFields` -/
def fromFields (tag : Json) (f : List Json) (rest : List UInt8) : Option (Message unchecked) :=
  if tag ≠ .str (text "c") ∧ tag ≠ .str (text "r") ∧ ¬ rest.isEmpty then none
  else (kinds.find? fun kind => .str kind.tag = tag).bind fun kind => fieldsOf numbers kind f rest

/-- `fromTuple` -/
def fromTuple (fields : List Json) (rest : List UInt8) : Option (Message unchecked) :=
  match fields with
  | [] => none
  | tag :: f =>
    if tag = .str (text "@") then
      match f with
      | [origin, .arr (tag :: f)] =>
        if tag = .str (text "@") then none
        else (fromFields numbers tag f rest).map fun m => { m with origin := some origin }
      | _ => none
    else fromFields numbers tag f rest

/-- `textCodec.decode` -/
def decodeText (bytes : List UInt8) : Option (Message unchecked) :=
  (parseJson numbers (bytes.takeWhile (· ≠ 10))).bind fun
    | .arr fields => fromTuple numbers fields ((bytes.dropWhile (· ≠ 10)).drop 1)
    | _ => none

end Decode

end PiBridge.Chord.Link
