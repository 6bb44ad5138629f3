import PiBridge.Durable.Storage

/-!
# `Durable.Context` — the model context of one conversation

A range of visible entries, the view derived from it, and the three ways to a range: derived from a scan, extended by the
entries after an earlier one, and advanced by the entries of a commit. `V` stands for what the derivation passes on
unread: the text of messages, the arguments of calls.

The source compares one pair of messages as objects (`leadWithSystem`), so a message carries the place its object has in
an entry's own `model`; a replacement of an edit and a synthesized result have none.
-/

namespace PiBridge.Durable

variable {V O : Type}

/-! ## Messages -/

inductive StopReason where
  | pending
  | stop
  | length
  | toolUse
  | error
  | aborted
  | deferred
deriving DecidableEq

structure ToolCall where
  id : String
  name : String

inductive AssistantContent (V : Type) where
  | toolCall (call : ToolCall) (rest : V)
  | other (rest : V)

inductive ResultContent (V : Type) where
  /-- The content of a synthesized result, and its reason. -/
  | unavailable (text : String) (reason : String)
  | other (rest : V)

inductive Message (V : Type) where
  | system (rest : V)
  | user (rest : V)
  | assistant (content : List (AssistantContent V)) (stopReason : StopReason) (timestamp : Nat) (rest : V)
  | toolResult (toolCallId toolName : String) (content : ResultContent V) (isError : Bool) (timestamp : Nat)

namespace Message

def isSystem : Message V → Bool
  | .system _ => true
  | _ => false

def isUser : Message V → Bool
  | .user _ => true
  | _ => false

def isAssistant : Message V → Bool
  | .assistant .. => true
  | _ => false

/-- Whether a message is the result of the call of an identity. -/
def isResultOf (id : String) : Message V → Bool
  | .toolResult toolCallId .. => toolCallId = id
  | _ => false

/-- The stop reasons whose assistant messages are left out. -/
def excludedStopReasons : List StopReason := [.aborted, .error, .deferred]

/-- Whether a message contributes. -/
def included : Message V → Bool
  | .assistant _ stopReason _ _ => decide (stopReason ∉ excludedStopReasons)
  | _ => true

end Message

/-- A message object; `place` is its entry and its index in that entry's own model. -/
structure MessageObject (V : Type) where
  place : Option (EntryId × Nat)
  message : Message V

inductive EditAction (V : Type) where
  | omit
  | replace (messages : List (Message V))

/-- An immutable override of one visible entry's contribution to model context. -/
structure ContextEdit (V : Type) where
  target : EntryId
  action : EditAction V

/-- What an entry says. -/
structure EntryContent (V : Type) where
  kind : String
  model : Option (List (Message V))
  edits : Option (List (ContextEdit V))

abbrev ContextEntry (V : Type) := EntryRecord (EntryContent V)

/-- An entry that carries a head, with that head. -/
structure HeadMarker (V : Type) where
  entry : ContextEntry V
  start : EntryId

/-! ## Tool results -/

def missingResultText : String := "Tool result unavailable: history ends before this call completed."

def missingResult (call : ToolCall) (timestamp : Nat) : MessageObject V :=
  ⟨none, .toolResult call.id call.name (.unavailable missingResultText "missing_result") true timestamp⟩

/-- The tool calls among an assistant's content. -/
def toolCalls (content : List (AssistantContent V)) : List ToolCall :=
  content.filterMap fun
    | .toolCall call _ => some call
    | .other _ => none

/-- The first result of a call before the next assistant message. -/
def findResult (id : String) (later : List (MessageObject V)) : Option (MessageObject V) :=
  (later.takeWhile fun m => !m.message.isAssistant).find? fun m => m.message.isResultOf id

/-- Place each assistant's tool results directly after it in call order. A missing result is synthesized and unmatched
    results are dropped. -/
def orderToolResults : List (MessageObject V) → List (MessageObject V)
  | [] => []
  | m :: later =>
    match m.message with
    | .toolResult .. => orderToolResults later
    | .assistant content _ timestamp _ =>
      m :: (toolCalls content).map (fun call => (findResult call.id later).getD (missingResult call timestamp)) ++ orderToolResults later
    | _ => m :: orderToolResults later

/-- The index of the last assistant message. -/
def lastAssistant : List (MessageObject V) → Option Nat
  | [] => none
  | m :: later =>
    match lastAssistant later with
    | some i => some (i + 1)
    | none => if m.message.isAssistant then some 0 else none

/-- Move the ordered messages before the last assistant message of `opened` to `settled`. -/
def settle (settled opened : List (MessageObject V)) : List (MessageObject V) × List (MessageObject V) :=
  match lastAssistant opened with
  | none => (settled, opened)
  | some 0 => (settled, opened)
  | some last => (settled ++ orderToolResults (opened.take last), opened.drop last)

/-! ## Contributions -/

/-- An entry's own messages, as objects. -/
def modelOf (entry : ContextEntry V) : List (MessageObject V) :=
  (entry.rest.model.getD []).mapIdx fun i message => ⟨some (entry.id, i), message⟩

/-- One active entry's model messages after its edit and excluded stop reasons, before tool result ordering. -/
def contribute (entry : ContextEntry V) (edit : Option (ContextEdit V)) : List (MessageObject V) :=
  match edit with
  | some ⟨_, .omit⟩ => []
  | some ⟨_, .replace messages⟩ => (messages.map fun message => ⟨none, message⟩).filter fun m => m.message.included
  | none => (modelOf entry).filter fun m => m.message.included

/-- The edits of entries, oldest first. -/
def editsOf (entries : List (ContextEntry V)) : List (ContextEdit V) := entries.flatMap fun entry => entry.rest.edits.getD []

/-- The edit of a target: the newest one. -/
def editOf (entries : List (ContextEntry V)) (id : EntryId) : Option (ContextEdit V) :=
  (editsOf entries).reverse.find? fun edit => edit.target = id

/-- A baseline's system message: `some none` when the range cannot have one, `none` while a later entry may be one. -/
abbrev Baseline (V : Type) := Option (Option (MessageObject V))

/-- Whether an entry's own messages, or the replacement messages of its edits, include a system message. -/
def carriesSystemMessage (entry : ContextEntry V) : Bool :=
  (entry.rest.model.any fun messages => messages.any (·.isSystem)) ||
    (entry.rest.edits.any fun edits => edits.any fun edit =>
      match edit.action with
      | .omit => false
      | .replace messages => messages.any (·.isSystem))

/-- The kind of a positional prompt and tool change. -/
def systemKind : String := "pi.system"

/-- The system message of the first `pi.system` entry after the head marker, or of the transcript without one. -/
def findBaseline (head : Option (HeadMarker V)) : List (ContextEntry V) → Baseline V
  | [] => none
  | entry :: later =>
    if head.any fun marker => decide (entry.id ≤ marker.entry.id) then findBaseline head later
    else if entry.rest.kind = systemKind then some ((modelOf entry).find? fun m => m.message.isSystem)
    else if head.isNone && carriesSystemMessage entry then some none
    else findBaseline head later

/-- Whether a message is the baseline's, the same object. -/
def isBaseline (baseline : Baseline V) (m : MessageObject V) : Bool :=
  match baseline with
  | some (some system) => system.place = m.place
  | _ => false

/-- Move the first system message to the front when only user messages precede it, or when it is the baseline's. -/
def leadWithSystem (messages : List (MessageObject V)) (baseline : Baseline V) : List (MessageObject V) :=
  match messages.findIdx? fun m => m.message.isSystem with
  | none => messages
  | some 0 => messages
  | some index =>
    match messages[index]? with
    | none => messages
    | some system =>
      if !isBaseline baseline system && (messages.take index).any fun m => !m.message.isUser then messages
      else system :: messages.take index ++ messages.drop (index + 1)

/-! ## Ranges -/

/-- Head marker and newest visible entry that fix one committed context range. -/
structure ContextBounds (V : Type) where
  head : Option (HeadMarker V)
  tail : EntryId

/-- Raw active transcript and derived model context. -/
structure ContextView (V : Type) where
  head : Option (ContextEntry V)
  entries : List (ContextEntry V)
  contributions : List (List (MessageObject V))
  messages : List (MessageObject V)

/-- One context read: the visible entries it scanned, oldest first, and the view derived from them. -/
structure ContextRange (V : Type) where
  bounds : ContextBounds V
  entries : List (ContextEntry V)
  view : ContextView V
  /-- Targets of the edits in `entries`. -/
  edited : List EntryId
  /-- The ordered messages before the last assistant message. -/
  settled : List (MessageObject V)
  /-- The contributed messages from the last assistant message on. -/
  opened : List (MessageObject V)
  baseline : Baseline V
  /-- Whether the range reached the conversation's newest entry when it was read. -/
  current : Bool

/-- The head marker followed by the range's non-head entries, or the whole range without a marker. -/
def selectActive (head : Option (HeadMarker V)) (range : List (ContextEntry V)) : List (ContextEntry V) :=
  match head with
  | none => range
  | some marker => marker.entry :: range.filter fun entry => entry.head.isNone

/-- Derive the context view from the entries scanned within `bounds`. -/
def deriveRange (bounds : ContextBounds V) (entries : List (ContextEntry V)) (current : Bool) : ContextRange V :=
  let active := selectActive bounds.head entries
  let contributions := active.map fun entry => contribute entry (editOf entries entry.id)
  let (settled, opened) := settle [] contributions.flatten
  let baseline := findBaseline bounds.head active
  { bounds
    entries
    view := {
      head := bounds.head.map (·.entry)
      entries := active
      contributions
      messages := leadWithSystem (settled ++ orderToolResults opened) baseline }
    edited := (editsOf entries).map (·.target)
    settled
    opened
    baseline
    current }

/-- `previous` extended by the entries `added` after its tail under the same head marker. An added edit can change an
    earlier entry, so it derives the whole range again. -/
def extendRange (previous : ContextRange V) (bounds : ContextBounds V) (added : List (ContextEntry V)) (current : Bool) : ContextRange V :=
  let entries := previous.entries ++ added
  if added.any fun entry => entry.rest.edits.isSome || entry.head.isSome || decide (entry.id ∈ previous.edited) then
    deriveRange bounds entries current
  else
    let contributions := added.map fun entry => contribute entry none
    let (settled, opened) := settle previous.settled (previous.opened ++ contributions.flatten)
    let baseline := match previous.baseline with
      | some decided => some decided
      | none => findBaseline bounds.head added
    { bounds
      entries
      view := {
        head := bounds.head.map (·.entry)
        entries := previous.view.entries ++ added
        contributions := previous.view.contributions ++ contributions
        messages := leadWithSystem (settled ++ orderToolResults opened) baseline }
      edited := previous.edited
      settled
      opened
      baseline
      current }

/-- The marker an entry is, when it carries a head. -/
def HeadMarker.of? (entry : ContextEntry V) : Option (HeadMarker V) := entry.head.map fun start => ⟨entry, start⟩

/-- The newest marker after some entries. -/
def newestMarker (head : Option (HeadMarker V)) (added : List (ContextEntry V)) : Option (HeadMarker V) :=
  added.foldl (fun head entry => (HeadMarker.of? entry).or head) head

/-- `range` with the entries one commit appended to its conversation; `none` drops the range. -/
def advanceRange (range : ContextRange V) (appended : List (ContextEntry V)) : Option (ContextRange V) :=
  match appended.getLast? with
  | none => some range
  | some newest =>
    if range.current = false then some range
    else
      let bounds : ContextBounds V := ⟨newestMarker range.bounds.head appended, newest.id⟩
      match bounds.head with
      | none => some (extendRange range bounds appended true)
      | some marker =>
        if range.bounds.head.any fun known => known.entry.id = marker.entry.id then
          some (extendRange range bounds appended true)
        -- Heads only move forward: an older head is stale.
        else if range.bounds.head.any fun known => decide (marker.start < known.start) then none
        else some (deriveRange bounds ((range.entries ++ appended).filter fun entry => decide (marker.start ≤ entry.id)) true)

/-! ## Reads -/

namespace Storage

variable (s : Storage (EntryContent V) O)

/-- The entries visible from a conversation, oldest first. -/
def visibleEntries (id : ConversationId) : List (ContextEntry V) := (s.entries.map Prod.fst).filter fun entry => s.visible entry (id + 1) id

/-- The newest entry visible from a conversation. -/
def latestEntryId (id : ConversationId) : Option EntryId := (s.visibleEntries id).getLast?.map (·.id)

/-- The newest visible head marker at or before a cutoff. -/
def latestHeadMarker (id : ConversationId) (atOrBefore : EntryId) : Option (HeadMarker V) :=
  (((s.visibleEntries id).filter fun entry => decide (entry.id ≤ atOrBefore)).filterMap HeadMarker.of?).getLast?

/-- Visible entries between two identities, oldest first. -/
def scanRange (id : ConversationId) (least : Option EntryId) (greatest : EntryId) : List (ContextEntry V) :=
  (s.visibleEntries id).filter fun entry => (least.all fun n => decide (n ≤ entry.id)) && decide (entry.id ≤ greatest)

/-- The visible range of `bounds`. -/
def scanBounds (id : ConversationId) (bounds : ContextBounds V) : List (ContextEntry V) :=
  s.scanRange id (bounds.head.map (·.start)) bounds.tail

/-- Capture the bounds of the current context, or of the context cut off at a visible entry. -/
def captureContextBounds (id : ConversationId) (cutoff : Option EntryId) (known : Bool) : Except String (Option (ContextBounds V)) :=
  match cutoff with
  | none =>
    match s.latestEntryId id with
    | none => .ok none
    | some tail => .ok (some ⟨s.latestHeadMarker id tail, tail⟩)
  | some tail =>
    if !known && (s.visibleEntries id).all (·.id ≠ tail) then
      .error s!"Entry {tail} is not visible from conversation {id}"
    else .ok (some ⟨s.latestHeadMarker id tail, tail⟩)

end Storage

def emptyView : ContextView V := ⟨none, [], [], []⟩

/-- The active transcript and model context within captured bounds. -/
def deriveContext (s : Storage (EntryContent V) O) (id : ConversationId) (bounds : Option (ContextBounds V)) : ContextView V :=
  match bounds with
  | none => emptyView
  | some bounds => (deriveRange bounds (s.scanBounds id bounds) false).view

/-- Whether a range has an entry, which is visible from its conversation then. -/
def rangeHas (range : ContextRange V) (id : EntryId) : Bool := range.entries.any (·.id = id)

/-- A read that reuses an earlier range of the conversation, once its bounds are captured. `newest` is the newest entry
    the Session knows when the read returns. -/
def readContextFrom (s : Storage (EntryContent V) O) (id : ConversationId) (cutoff : Option EntryId)
    (previous : Option (ContextRange V)) (bounds : Option (ContextBounds V)) (newest : Option EntryId) :
    ContextView V × Option (ContextRange V) :=
  match bounds with
  | none => (emptyView, none)
  | some bounds =>
    let current := cutoff.isNone
    let range :=
      match previous with
      | none => deriveRange bounds (s.scanBounds id bounds) current
      | some previous =>
        if previous.bounds.head.map (·.entry.id) ≠ bounds.head.map (·.entry.id) then
          deriveRange bounds (s.scanBounds id bounds) current
        else if bounds.tail = previous.bounds.tail then previous
        else if bounds.tail < previous.bounds.tail then
          deriveRange bounds (previous.entries.filter fun entry => decide (entry.id ≤ bounds.tail)) false
        else extendRange previous bounds (s.scanRange id (some (previous.bounds.tail + 1)) bounds.tail) current
    -- Entries committed while the scan ran are not in the range: it is current only if none was.
    let range := if range.current && newest ≠ some range.bounds.tail then { range with current := false } else range
    (range.view, some range)

end PiBridge.Durable
