import PiBridge.Session.File

/-!
# `Ai.TransformMessages` — a history, as it is replayed to a model

A first pass over the messages leaves out what only the model that produced it can read, and renames tool calls that
another model made, with their results. A second pass closes the calls that have no result, and leaves failed assistant
messages out. `V` stands for what a message or a call carries unread.
-/

namespace PiBridge.Ai

open Chord Lib

variable {V : Type}

/-! ## Messages -/

structure TextContent where
  text : Text
  textSignature : Option Text
deriving DecidableEq

structure ThinkingContent where
  thinking : Text
  thinkingSignature : Option Text
  redacted : Bool
deriving DecidableEq

structure ImageContent where
  data : Text
  mimeType : Text
deriving DecidableEq

structure ToolCall (V : Type) where
  id : Text
  name : Text
  thoughtSignature : Option Text
  rest : V
deriving DecidableEq

/-- A part of a user message or a tool result. -/
inductive Part where
  | text (part : TextContent)
  | image (part : ImageContent)
deriving DecidableEq

/-- `string | Part[]` -/
inductive MessageContent where
  | str (s : Text)
  | parts (parts : List Part)
deriving DecidableEq

/-- A part of an assistant message. -/
inductive Block (V : Type) where
  | text (block : TextContent)
  | thinking (block : ThinkingContent)
  | toolCall (call : ToolCall V)
deriving DecidableEq

inductive StopReason where
  | pending
  | stop
  | length
  | toolUse
  | error
  | aborted
  | deferred
deriving DecidableEq

structure AssistantMessage (V : Type) where
  content : Option (List (Block V))
  api : Text
  provider : Text
  model : Text
  stopReason : StopReason
  rest : V
deriving DecidableEq

structure ToolResultMessage (V : Type) where
  toolCallId : Text
  toolName : Text
  content : Option (List Part)
  isError : Bool
  timestamp : Nat
  /-- A synthesized result has nothing else. -/
  rest : Option V
deriving DecidableEq

inductive Message (V : Type) where
  | system (content : Option MessageContent) (rest : V)
  | user (content : Option MessageContent) (rest : V)
  | assistant (message : AssistantMessage V)
  | toolResult (message : ToolResultMessage V)
deriving DecidableEq

/-- The model that a history is replayed to. -/
structure Model where
  id : Text
  api : Text
  provider : Text
  input : List Text

/-- The tool calls among some blocks. -/
def toolCalls (content : List (Block V)) : List (ToolCall V) :=
  content.filterMap fun
    | .toolCall call => some call
    | _ => none

/-- Whether a property is there and not empty. -/
def isSet (s : Option Text) : Bool := s.any fun s => !s.isEmpty

/-! ## Images -/

def nonVisionUserImagePlaceholder : Text := text "(image omitted: model does not support images)"

def nonVisionToolImagePlaceholder : Text := text "(tool image omitted: model does not support images)"

/-- The loop of `replaceImagesWithPlaceholder`, which knows whether a placeholder is right before. -/
def replaceImagesFrom (placeholder : Text) : Bool → List Part → List Part
  | _, [] => []
  | previousWasPlaceholder, .image _ :: rest =>
    if previousWasPlaceholder then replaceImagesFrom placeholder true rest
    else .text ⟨placeholder, none⟩ :: replaceImagesFrom placeholder true rest
  | _, .text part :: rest => .text part :: replaceImagesFrom placeholder (decide (part.text = placeholder)) rest

def replaceImagesWithPlaceholder (content : List Part) (placeholder : Text) : List Part := replaceImagesFrom placeholder false content

/-- Content that is missing counts as empty. -/
def normalizeContent : Message V → Message V
  | .system none rest => .system (some (.parts [])) rest
  | .user none rest => .user (some (.parts [])) rest
  | .assistant m => .assistant { m with content := some (m.content.getD []) }
  | .toolResult m => .toolResult { m with content := some (m.content.getD []) }
  | msg => msg

def downgradeUnsupportedImages (model : Model) (msg : Message V) : Message V :=
  if text "image" ∈ model.input then msg
  else
    match msg with
    | .user (some (.parts parts)) rest => .user (some (.parts (replaceImagesWithPlaceholder parts nonVisionUserImagePlaceholder))) rest
    | .toolResult m =>
      .toolResult { m with content := m.content.map fun content => replaceImagesWithPlaceholder content nonVisionToolImagePlaceholder }
    | msg => msg

/-! ## The first pass -/

section FirstPass

variable (model : Model) (normalizeToolCallId : Option (Text → AssistantMessage V → Text))

def isSameModel (m : AssistantMessage V) : Bool :=
  decide (m.provider = model.provider) && decide (m.api = model.api) && decide (m.model = model.id)

/-- The ID that a call of a message has in the result. -/
def normalizedId (m : AssistantMessage V) (id : Text) : Text :=
  match normalizeToolCallId with
  | some normalize => if isSameModel model m then id else normalize id m
  | none => id

/-- What is left of a block of a message. -/
def transformBlock (m : AssistantMessage V) : Block V → List (Block V)
  | .thinking block =>
    -- Signatures and encrypted reasoning are only valid for the model that produced them.
    if !isSameModel model m then []
    else if block.redacted || isSet block.thinkingSignature then [.thinking block]
    else if (Session.trim block.thinking).isEmpty then []
    else [.thinking block]
  | .text block => if isSameModel model m then [.text block] else [.text ⟨block.text, none⟩]
  | .toolCall call =>
    [.toolCall { call with
      id := normalizedId model normalizeToolCallId m call.id
      thoughtSignature := if !isSameModel model m && isSet call.thoughtSignature then none else call.thoughtSignature }]

/-- The IDs that a message renames join the map. -/
def renameCalls (m : AssistantMessage V) (toolCallIdMap : Assoc Text Text) (calls : List (ToolCall V)) : Assoc Text Text :=
  calls.foldl (fun ids call =>
    if normalizedId model normalizeToolCallId m call.id = call.id then ids
    else Assoc.set ids call.id (normalizedId model normalizeToolCallId m call.id)) toolCallIdMap

def transformAssistant (m : AssistantMessage V) : AssistantMessage V :=
  { m with content := m.content.map fun content => content.flatMap (transformBlock model normalizeToolCallId m) }

/-- A result gets the ID of its call; an empty ID counts as none. -/
def renameResult (toolCallIdMap : Assoc Text Text) (m : ToolResultMessage V) : ToolResultMessage V :=
  { m with toolCallId := ((Assoc.get? toolCallIdMap m.toolCallId).filter fun id => !id.isEmpty).getD m.toolCallId }

/-- One turn of the first pass, whose content is there and whose images are downgraded. -/
def transformMessage (toolCallIdMap : Assoc Text Text) : Message V → Assoc Text Text × Message V
  | .assistant m =>
    (renameCalls model normalizeToolCallId m toolCallIdMap (toolCalls (m.content.getD [])),
      .assistant (transformAssistant model normalizeToolCallId m))
  | .toolResult m => (toolCallIdMap, .toolResult (renameResult toolCallIdMap m))
  | msg => (toolCallIdMap, msg)

def firstPass (toolCallIdMap : Assoc Text Text) : List (Message V) → List (Message V)
  | [] => []
  | msg :: messages =>
    let (toolCallIdMap, msg) := transformMessage model normalizeToolCallId toolCallIdMap msg
    msg :: firstPass toolCallIdMap messages

end FirstPass

/-! ## The second pass -/

/-- The state of the second pass. -/
structure Replay (V : Type) where
  result : List (Message V)
  pendingToolCalls : List (ToolCall V)
  existingToolResultIds : List Text
  /-- System messages between calls and their results. -/
  heldSystemMessages : List (Message V)

namespace Replay

variable (now : Nat) (r : Replay V)

def start : Replay V := ⟨[], [], [], []⟩

/-- An empty result for a call that has none. -/
def noResult (call : ToolCall V) : Message V :=
  .toolResult ⟨call.id, call.name, some [.text ⟨text "No result provided", none⟩], true, now, none⟩

def missingResults : List (Message V) :=
  (r.pendingToolCalls.filter fun call => decide (call.id ∉ r.existingToolResultIds)).map (noResult now)

def closePendingToolCalls : Replay V where
  result := r.result ++ r.missingResults now ++ r.heldSystemMessages
  pendingToolCalls := []
  existingToolResultIds := if r.pendingToolCalls.isEmpty then r.existingToolResultIds else []
  heldSystemMessages := []

def push (msg : Message V) : Replay V := { r with result := r.result ++ [msg] }

/-- These are incomplete turns that are not replayed. -/
def isFailed (m : AssistantMessage V) : Bool := decide (m.stopReason = .error) || decide (m.stopReason = .aborted)

/-- One turn of the second pass. -/
def next : Message V → Replay V
  | .assistant m =>
    let r := r.closePendingToolCalls now
    if isFailed m then r
    else
      match toolCalls (m.content.getD []) with
      | [] => r.push (.assistant m)
      | calls => { r with pendingToolCalls := calls, existingToolResultIds := [] }.push (.assistant m)
  | .toolResult m => { r with existingToolResultIds := r.existingToolResultIds ++ [m.toolCallId] }.push (.toolResult m)
  | .system content rest =>
    if r.pendingToolCalls.isEmpty then r.push (.system content rest)
    else { r with heldSystemMessages := r.heldSystemMessages ++ [.system content rest] }
  | .user content rest => (r.closePendingToolCalls now).push (.user content rest)

end Replay

/-- `transformMessages`; `now` is the time that synthesized results get. -/
def transformMessages (model : Model) (normalizeToolCallId : Option (Text → AssistantMessage V → Text)) (now : Nat)
    (messages : List (Message V)) : List (Message V) :=
  let transformed := firstPass model normalizeToolCallId []
    (messages.map fun msg => downgradeUnsupportedImages model (normalizeContent msg))
  ((transformed.foldl (Replay.next now) Replay.start).closePendingToolCalls now).result

end PiBridge.Ai
