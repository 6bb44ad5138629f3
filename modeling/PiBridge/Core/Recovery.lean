import PiBridge.Chord.JsonText
import PiBridge.Lib.Loop

/-!
# `Core.Recovery` — the recoverable tail of a document

`computeRecoverableTurn` looks at the tail run of the leaf path, the entries after the last one that starts a run, and says
which of its messages recovery branches past. `buildInterruptedToolsRelay` builds the message with which an interrupted tool
turn is resumed; it embeds a JSON record of the calls, which is cut until it is short enough.

The parent links of a document may run in a circle; a leaf path is there only if they end (`leafPath_eq_some`). The loop
that cuts the record runs on fuel.
-/

namespace PiBridge.Recovery

open Chord Lib

/-! ## Documents -/

/-- Content blocks. `thinking` and the arguments of a call are null when they are not pulled. -/
inductive Content
  | text (text : Text)
  | thinking (thinking : Option Text)
  | image
  | toolCall (id name : Text) (arguments : Json)
  deriving DecidableEq

inductive Role
  | user
  | assistant
  | system
  deriving DecidableEq

/-- What an entry says beside its id and its parent. -/
inductive Kind
  | message (role : Role) (content : List Content) (stopReason : Option Text)
  | toolResult (toolCallId : Text) (content : Option (List Content)) (isError : Bool)
  | bashExecution
  | compaction
  | branchSummary
  | modelChange
  | thinkingLevelChange
  | label
  | sessionInfo
  | custom
  | customMessage
  | unknown
  | internal
  deriving DecidableEq

structure Entry where
  id : Text
  parentId : Option Text
  kind : Kind
  deriving DecidableEq

/-- A document with its entries by id. -/
structure Document where
  leafId : Option Text
  entries : List Entry

def Document.entry? (doc : Document) (id : Text) : Option Entry := doc.entries.find? fun entry => entry.id = id

/-- The walk from the leaf over the parents. -/
def climb (doc : Document) : Nat → Option Text → Option (List Entry)
  | _, none => some []
  | 0, some _ => none
  | fuel + 1, some cursor =>
    match doc.entry? cursor with
    | none => some []
    | some entry => (climb doc fuel entry.parentId).map (entry :: ·)

/-- The leaf path, root → leaf; none when the parent links run in a circle. -/
def leafPath (doc : Document) : Option (List Entry) := (climb doc (doc.entries.length + 1) doc.leafId).map List.reverse

/-! ## The tail run -/

/-- Starts a fresh LLM context run: a user message, a context custom message, a branch summary, or a compaction boundary. -/
def isRunStart (entry : Entry) : Bool :=
  match entry.kind with
  | .message role _ _ => role = .user
  | .customMessage | .branchSummary | .compaction => true
  | _ => false

/-- Enters LLM context. -/
def isContextBearing (entry : Entry) : Bool :=
  match entry.kind with
  | .message _ _ _ | .toolResult _ _ _ | .bashExecution | .customMessage | .branchSummary | .compaction => true
  | _ => false

def isToolCall : Content → Bool
  | .toolCall _ _ _ => true
  | _ => false

def producedWork (content : List Content) : Bool :=
  content.any fun block => isToolCall block || match block with
    | .text text => !text.isEmpty
    | _ => false

/-- The content and the stop reason of an assistant message. -/
def assistant? (entry : Entry) : Option (List Content × Option Text) :=
  match entry.kind with
  | .message .assistant content stopReason => some (content, stopReason)
  | _ => none

/-- The ids of the tool calls in a content. -/
def callIds (content : List Content) : List Text :=
  content.filterMap fun block => match block with
    | .toolCall id _ _ => some id
    | _ => none

/-- What the loop over the run keeps. -/
structure Pairing where
  «open» : List Text := []
  danglingAssistant : Option Entry := none
  lastAssistant : Option Entry := none
  lastToolResultError : Bool := false

/-- Pair tool calls with results across the run. -/
def Pairing.step (pairing : Pairing) (entry : Entry) : Pairing :=
  match entry.kind with
  | .message .assistant content _ =>
    { pairing with
      «open» := pairing.open ++ callIds content
      danglingAssistant := if content.any isToolCall then some entry else pairing.danglingAssistant
      lastAssistant := some entry }
  | .toolResult toolCallId _ isError =>
    { pairing with «open» := pairing.open.filter (· ≠ toolCallId), lastToolResultError := isError }
  | _ => pairing

/-- The entries after the last run start. -/
def tailRun (path : List Entry) : List Entry := (path.reverse.takeWhile fun entry => !isRunStart entry).reverse

inductive TurnKind
  | failedTurn
  | interruptedTools
  | unfinishedTurn
  deriving DecidableEq

structure RecoverableTurnInfo where
  kind : TurnKind
  entryId : Text
  deriving DecidableEq

def isDead (stopReason : Option Text) : Bool := stopReason = some (text "error") || stopReason = some (text "aborted")

/-- The tail boundary of a leaf path. -/
def recoverableTurnOf (path : List Entry) : Option RecoverableTurnInfo :=
  let pairing := (tailRun path).foldl Pairing.step {}
  -- Dangling tool calls take precedence over everything at the tail.
  match (if pairing.open.isEmpty then none else pairing.danglingAssistant) with
  | some danglingAssistant => some ⟨.interruptedTools, danglingAssistant.id⟩
  | none =>
    pairing.lastAssistant.bind fun lastAssistant => (assistant? lastAssistant).bind fun (content, stopReason) =>
      -- A run whose last tool result was terminated, and whose marker assistant produced no work.
      if isDead stopReason && pairing.lastToolResultError && !producedWork content then some ⟨.interruptedTools, lastAssistant.id⟩
      else if isDead stopReason then
        -- Qualifies only while the dead message is still the tail (metadata may follow).
        (path.reverse.find? isContextBearing).bind fun entry =>
          if entry = lastAssistant then some ⟨.failedTurn, lastAssistant.id⟩ else none
      -- All of the run's tool calls are answered and no final assistant follows.
      else if content.any isToolCall then some ⟨.unfinishedTurn, lastAssistant.id⟩
      else none

/-- Derive the recoverable tail boundary of a document, if its leaf path is there. -/
def computeRecoverableTurn (doc : Document) : Option (Option RecoverableTurnInfo) := (leafPath doc).map recoverableTurnOf

/-! ## The relay -/

def maxRelayChars : Nat := 12000
def maxToolRecords : Nat := 8
def maxArgumentChars : Nat := 400
def maxResultChars : Nat := 700

def capText (value : Text) (maxChars : Nat) : Text :=
  let suffix := text " [truncated]"
  if value.length ≤ maxChars then value else value.take (maxChars - suffix.length) ++ suffix

def argumentText (numbers : Numbers) (arguments : Json) : Text :=
  if arguments = .null then text "unavailable" else capText (stringify numbers arguments) maxArgumentChars

def blockText : Content → Text
  | .text text => text
  | .image => text "[image omitted]"
  | .thinking thinking => thinking.getD []
  | .toolCall _ _ _ => []

def resultText : Option (List Content) → Text
  | none => text "content unavailable"
  | some content =>
    let joined := (text "\n").intercalate ((content.map blockText).filter fun part => !part.isEmpty)
    capText (if joined.isEmpty then text "no text content" else joined) maxResultChars

structure Completed where
  id : Text
  name : Text
  error : Bool
  result : Text
  deriving DecidableEq

structure Unknown where
  id : Text
  name : Text
  arguments : Text
  deriving DecidableEq

/-- The recovery record. -/
structure Record where
  completed : List Completed := []
  unknown : List Unknown := []
  omitted : Nat := 0
  deriving DecidableEq

namespace Record

def json (record : Record) : Json :=
  .obj [(text "completed", .arr (record.completed.map fun item => .obj [(text "id", .str item.id), (text "name", .str item.name),
      (text "error", .bool item.error), (text "result", .str item.result)])),
    (text "unknown", .arr (record.unknown.map fun item => .obj [(text "id", .str item.id), (text "name", .str item.name),
      (text "arguments", .str item.arguments)])),
    (text "omitted", .num record.omitted)]

/-- A call goes to the completed or to the unknown ones, if there is still room. -/
def addCall (numbers : Numbers) (result? : Text → Option (Option (List Content) × Bool)) (record : Record) : Content → Record
  | .toolCall id name arguments =>
    match result? id with
    | some (content, isError) =>
      if maxToolRecords ≤ record.completed.length then { record with omitted := record.omitted + 1 }
      else { record with completed := record.completed ++ [⟨capText id 120, capText name 120, isError, resultText content⟩] }
    | none =>
      if maxToolRecords ≤ record.unknown.length then { record with omitted := record.omitted + 1 }
      else { record with unknown := record.unknown ++ [⟨capText id 120, capText name 120, argumentText numbers arguments⟩] }
  | _ => record

/-- The first of the longest texts, if one is not empty. -/
def largest (texts : List Text) : Option Nat :=
  texts.zipIdx.foldl (fun largest item =>
    if ((largest.bind (texts[·]?)).getD []).length < item.1.length then some item.2 else largest) none

def cutResult (record : Record) (index : Nat) : Record :=
  { record with completed := record.completed.modify index fun item => { item with result := capText item.result (maxResultChars / 2) } }

def cutArguments (record : Record) (index : Nat) : Record :=
  { record with unknown := record.unknown.modify index fun item => { item with arguments := capText item.arguments (maxArgumentChars / 2) } }

def resultAt (record : Record) (index : Nat) : Text := ((record.completed.map Completed.result)[index]?).getD []

def argumentsAt (record : Record) (index : Nat) : Text := ((record.unknown.map Unknown.arguments)[index]?).getD []

/-- One round of the loop: the longest text is cut, or the last call dropped; none when nothing is left to drop. -/
def round (record : Record) : Option Record :=
  match largest (record.completed.map Completed.result), largest (record.unknown.map Unknown.arguments) with
  | some largestResult, none => some (record.cutResult largestResult)
  | some largestResult, some largestArguments =>
    if (record.argumentsAt largestArguments).length ≤ (record.resultAt largestResult).length then some (record.cutResult largestResult)
    else some (record.cutArguments largestArguments)
  | none, some largestArguments => some (record.cutArguments largestArguments)
  | none, none =>
    if record.unknown ≠ [] then some { record with unknown := record.unknown.dropLast, omitted := record.omitted + 1 }
    else if record.completed ≠ [] then some { record with completed := record.completed.dropLast, omitted := record.omitted + 1 }
    else none

def serialized (numbers : Numbers) (record : Record) : Text := stringify numbers record.json

/-- The loop ends: the record is short enough, or nothing is left to drop. -/
def Done (numbers : Numbers) (record : Record) : Prop := (record.serialized numbers).length ≤ maxRelayChars ∨ record.round = none

instance decidableDone (numbers : Numbers) (record : Record) : Decidable (record.Done numbers) := inferInstanceAs (Decidable (_ ∨ _))

def shrink (numbers : Numbers) (fuel : Nat) (record : Record) : Option Record :=
  loop (Done numbers) (fun record => record.round.getD record) fuel record

end Record

end PiBridge.Recovery
