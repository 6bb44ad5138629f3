import PiBridge.Core.Entry
import PiBridge.Core.ObjectDiff

/-!
# `Core.Event` — the session lifecycle as patches

`applyEvent` turns one lifecycle event into path-addressed operations on the document. It is pure: it reads
the document and changes nothing.

The operations an event emits are of three kinds (`EventOp`): a status field is replaced, the entry the
event names is created as a live skeleton, or something *below a field* of that entry is changed. Which of
them can occur depends only on the event, so everything later proved about events is proved by this
classification (`eventOp_of_mem`) and not by running through the reducer again.
-/

namespace PiBridge

open Js Js.Value List

/-- What a `message_update` streams. -/
inductive AssistantMessageEvent where
  | textStart (contentIndex : Nat)
  | textDelta (contentIndex : Nat) (delta : String)
  | textEnd (contentIndex : Nat) (content : String)
  | thinkingStart (contentIndex : Nat)
  | thinkingDelta (contentIndex : Nat) (delta : String)
  | thinkingEnd (contentIndex : Nat) (content : String)
  | toolcallStart (contentIndex : Nat) (partialMessage : Value)
  | toolcallDelta (contentIndex : Nat) (partialMessage : Value)
  | toolcallEnd (contentIndex : Nat) (toolCall : Value)
  | other

/-- A session lifecycle event, with the entry id pi reserved for the item. `other` stands for the event
    types that have no effect on a document. -/
inductive SessionLifecycleEvent where
  | agentStart
  | agentSettled
  | messageStart (entryId : Option EntryId) (message : Value)
  | messageUpdate (entryId : Option EntryId) (assistantMessageEvent : AssistantMessageEvent)
  | messageEnd (entryId : Option EntryId) (message : Value)
  | toolExecutionStart (entryId : Option EntryId) (parentToolCallId : Option String) (toolCallId toolName : String)
  | toolExecutionUpdate (entryId : Option EntryId) (parentToolCallId : Option String) (partialResult : Value)
  | toolExecutionEnd (entryId : Option EntryId) (parentToolCallId : Option String) (result : Value)
      (isError : Bool) (durationMs : Value)
  | compactionStart
  | compactionEnd
  | thinkingLevelChanged (level : String)
  | entryAppended
  | sessionInfoChanged (name : Option String)
  | queueUpdate (steering : List String)
  | other

namespace SessionLifecycleEvent

/-- `event.entryId`. -/
def entryId : SessionLifecycleEvent → Option EntryId
  | messageStart id _ | messageUpdate id _ | messageEnd id _ | toolExecutionStart id _ _ _
  | toolExecutionUpdate id _ _ | toolExecutionEnd id _ _ _ _ => id
  | _ => none

/-- The event is about the content of an item. -/
def isContent : SessionLifecycleEvent → Bool
  | messageStart _ _ | messageUpdate _ _ | messageEnd _ _ | toolExecutionStart _ _ _ _
  | toolExecutionUpdate _ _ _ | toolExecutionEnd _ _ _ _ _ => true
  | _ => false

/-- The event starts an item. -/
def isStart : SessionLifecycleEvent → Bool
  | messageStart _ _ | toolExecutionStart _ _ _ _ => true
  | _ => false

end SessionLifecycleEvent

/-! ## Skeletons -/

/-- `assistantMessageSkeleton`. -/
def assistantMessageSkeleton (id : String) (parentId msg : Value) : Value :=
  .obj [("kind", .str "message"), ("id", .str id), ("parentId", parentId), ("timestamp", .str ""),
    ("isSealed", .bool false), ("role", .str "assistant"), ("content", .arr []), ("api", get msg "api"),
    ("provider", get msg "provider"), ("model", get msg "model"),
    ("responseModel", (get msg "responseModel").orElse .null), ("responseId", .null), ("usage", .null),
    ("stopReason", .null), ("errorMessage", .null), ("durationMs", .null)]

/-- `userMessageSkeleton`. -/
def userMessageSkeleton (id : String) (parentId msg : Value) : Value :=
  .obj [("kind", .str "message"), ("id", .str id), ("parentId", parentId), ("timestamp", .str ""),
    ("isSealed", .bool false), ("role", .str "user"), ("content", contentBlocks (get msg "content"))]

/-- `toolResultSkeleton`. -/
def toolResultSkeleton (id : String) (parentId : Value) (toolCallId toolName : String) : Value :=
  .obj [("kind", .str "tool_result"), ("id", .str id), ("parentId", parentId), ("timestamp", .str ""),
    ("isSealed", .bool false), ("toolCallId", .str toolCallId), ("toolName", .str toolName),
    ("content", .null), ("details", .null), ("isError", .bool false), ("durationMs", .null)]

/-- `toolCallBlockToJson`. -/
def toolCallBlockToJson (tc : Value) : Value := .obj [("type", .str "toolCall"), ("id", get tc "id"), ("name", get tc "name"),
    ("arguments", get tc "arguments"), ("thoughtSignature", (get tc "thoughtSignature").orElse .null)]

/-! ## The reducer -/

/-- `` `/entries/${id}/${field}` ``. -/
def fieldPath (id field : String) : String := sub (entryPath id) field

/-- `` `/entries/${id}/content/${i}` ``. -/
def blockPath (id : String) (i : Nat) : String := sub (fieldPath id "content") (toString i)

/-- `partial?.content[i]`. -/
def partialBlock (partialMessage : Value) (i : Nat) : Value := (get partialMessage "content").asArr.getD i .undefined

/-- `block?.type === "toolCall"`. -/
def isToolCall (block : Value) : Bool := get block "type" = .str "toolCall"

/-- The `message_update` case. -/
def messageUpdateOps (doc : Document) (id : String) : AssistantMessageEvent → Patch
  | .textStart i => [.add (blockPath id i) (.obj [("type", .str "text"), ("text", .str "")])]
  | .textDelta i delta => [.append (sub (blockPath id i) "text") delta false]
  | .textEnd i content => [.replace (sub (blockPath id i) "text") (.str content)]
  | .thinkingStart i => [.add (blockPath id i) (.obj [("type", .str "thinking"), ("thinking", .null)])]
  | .thinkingDelta i delta => [.append (sub (blockPath id i) "thinking") delta false]
  | .thinkingEnd i content => [.replace (sub (blockPath id i) "thinking") (.str content)]
  | .toolcallStart i partialMessage =>
    let block := partialBlock partialMessage i
    let pick := fun k d => if isToolCall block then get block k else d
    [.add (blockPath id i) (.obj [("type", .str "toolCall"), ("id", pick "id" (.str "")),
      ("name", pick "name" (.str "")), ("arguments", pick "arguments" .null)])]
  | .toolcallDelta i partialMessage =>
    let block := partialBlock partialMessage i
    let argsPath := sub (blockPath id i) "arguments"
    if isToolCall block then
      let currentArgs := (getAtPath doc.toValue argsPath).orElse (.obj [])
      computeObjectDiff currentArgs.asObj (get block "arguments").asObj argsPath
    else []
  | .toolcallEnd i toolCall => [.replace (blockPath id i) (toolCallBlockToJson toolCall)]
  | .other => []

/-- An operation that is emitted only when a value is there. -/
def replaceIf (present : Bool) (path : String) (value : Value) : Patch := if present then [.replace path value] else []

/-- `typeof v === "number"`. -/
def isNumber : Value → Bool
  | .num _ => true
  | _ => false

/-- The `message_end` case. -/
def messageEndOps (doc : Document) (id : String) (msg : Value) : Patch :=
  if get msg "role" = .str "assistant" then
    let field := fun k => fieldPath id k
    [.replace (field "api") (get msg "api"), .replace (field "provider") (get msg "provider"), .replace (field "model") (get msg "model")]
    ++ replaceIf (get msg "responseModel").truthy (field "responseModel") (get msg "responseModel")
    ++ replaceIf (get msg "responseId").truthy (field "responseId") (get msg "responseId")
    ++ [PatchOp.replace (field "stopReason") (get msg "stopReason")]
    ++ replaceIf (get msg "errorMessage").truthy (field "errorMessage") (get msg "errorMessage")
    ++ replaceIf (get msg "usage").truthy (field "usage") (get msg "usage")
    ++ replaceIf (isNumber (get msg "durationMs")) (field "durationMs") (get msg "durationMs")
    ++ [PatchOp.replace (statusPath "leafId") (.str id)]
  else
    -- a user, system or tool-result message advances the leaf to its own entry
    replaceIf ((doc.entry? id).isSome) (statusPath "leafId") (.str id)

/-- `streamedToolContentOp`: a body that grows by a suffix is appended to. -/
def streamedToolContentOp (doc : Document) (id : String) (content : Value) : Option PatchOp :=
  match doc.entry? id with
  | none => none
  | some entry =>
    if get entry "kind" ≠ .str "tool_result" then none else
      match get entry "content", content with
      | .arr [current], .arr [block] =>
        if get current "type" ≠ .str "text" ∨ get block "type" ≠ .str "text" then none else
          match get current "text", get block "text" with
          | .str existing, .str next =>
            let op := (suffix? existing next).map fun suffix =>
              .append (sub (blockPath id 0) "text") suffix true
            if existing = "" then (if next ≠ "" then none else op) else op
          | _, _ => none
      | _, _ => none

/-- The `tool_execution_update` case. -/
def toolExecutionUpdateOps (doc : Document) (id : String) (partialResult : Value) : Patch :=
  let content := get partialResult "content"
  let details := get partialResult "details"
  (if content ≠ .undefined then
    [(streamedToolContentOp doc id content).getD (.replace (fieldPath id "content") (jsonValue content))]
   else [])
  ++ replaceIf (details ≠ .undefined) (fieldPath id "details") (jsonValue details)

/-- The `tool_execution_end` case. -/
def toolExecutionEndOps (id : String) (result : Value) (isError : Bool) (durationMs : Value) : Patch :=
  let content := get result "content"
  let details := get result "details"
  let body := match content with
    | .arr blocks => .arr (blocks.map toContent)
    | content => jsonValue content
  replaceIf (content ≠ .undefined) (fieldPath id "content") body
  ++ replaceIf (details ≠ .undefined) (fieldPath id "details") (jsonValue details)
  ++ [PatchOp.replace (fieldPath id "isError") (.bool isError)]
  ++ replaceIf (isNumber durationMs) (fieldPath id "durationMs") durationMs

/-- The `message_start` case. -/
def messageStartOps (doc : Document) (id : String) (msg : Value) : Patch :=
  let leafId := at_ doc.status "leafId"
  if get msg "role" = .str "user" then [.add (entryPath id) (userMessageSkeleton id leafId msg)]
  else if get msg "role" = .str "assistant" then
    [.add (entryPath id) (assistantMessageSkeleton id leafId msg), .replace (statusPath "leafId") (.str id)]
  else []

/-- The operations of an event. -/
def eventOps (doc : Document) : SessionLifecycleEvent → Patch
  | .agentStart => [.replace (statusPath "isStreaming") (.bool true)]
  | .agentSettled => [.replace (statusPath "isStreaming") (.bool false)]
  | .messageStart (some id) msg => messageStartOps doc id msg
  | .messageUpdate (some id) ame => messageUpdateOps doc id ame
  | .messageEnd (some id) msg => messageEndOps doc id msg
  | .toolExecutionStart (some id) none toolCallId toolName =>
    [.add (entryPath id) (toolResultSkeleton id (at_ doc.status "leafId") toolCallId toolName)]
  | .toolExecutionUpdate (some id) none partialResult => toolExecutionUpdateOps doc id partialResult
  | .toolExecutionEnd (some id) none result isError durationMs =>
    toolExecutionEndOps id result isError durationMs
  | .compactionStart => [.replace (statusPath "isCompacting") (.bool true)]
  | .compactionEnd => [.replace (statusPath "isCompacting") (.bool false)]
  | .thinkingLevelChanged level => [.replace (statusPath "thinkingLevel") (.str level)]
  | .sessionInfoChanged (some name) => [.replace (statusPath "name") (.str name)]
  | .queueUpdate steering => [.replace (statusPath "pendingSteer") (.arr (steering.map .str))]
  -- no entry id, a nested tool call, or an event without effect on the document
  | _ => []

/-- `applyEvent`: the patch, if there is anything to change. -/
def applyEvent (doc : Document) (event : SessionLifecycleEvent) : Option Patch :=
  match eventOps doc event with
  | [] => none
  | op :: ops => some (op :: ops)

/-! ## What an event can emit -/

/-- The status fields events replace. -/
def statusFields : List String := ["isStreaming", "isCompacting", "thinkingLevel", "name", "pendingSteer", "leafId"]

/-- The fields of a live form that events change. -/
def liveFields : List String := ["content", "api", "provider", "model", "responseModel", "responseId", "stopReason", "errorMessage",
    "usage", "durationMs", "details", "isError"]

/-- A live form as it is created: unsealed, under its own id, on the leaf of the moment. -/
structure LiveSkeleton (doc : Document) (id : String) (v : Value) : Prop where
  isObj : ∃ m, v = .obj m
  id : get v "id" = .str id
  parentId : get v "parentId" = at_ doc.status "leafId"
  isSealed : get v "isSealed" = .bool false

/-- The operations an event can emit. -/
inductive EventOp (doc : Document) (event : SessionLifecycleEvent) : PatchOp → Prop where
  /-- A status field is replaced. -/
  | status {key : String} {value : Value} (hkey : key ∈ statusFields) : EventOp doc event (.replace (statusPath key) value)
  /-- The item's live form is created. -/
  | create {id : EntryId} {skeleton : Value} (hid : event.entryId = some id) (hstart : event.isStart = true)
      (hskeleton : LiveSkeleton doc id skeleton) : EventOp doc event (.add (entryPath id) skeleton)
  /-- A field of the item is changed, or something below it. -/
  | field {id : EntryId} {name : String} {op : PatchOp} (hid : event.entryId = some id)
      (hcontent : event.isContent = true) (hstart : event.isStart = false) (hname : name ∈ liveFields)
      (hpoints : PointsAt (fieldPath id name) op) : EventOp doc event op

theorem plain_of_mem_statusFields {key : String} (h : key ∈ statusFields) : Plain key := by
  revert key; decide

variable {name : String} {op : PatchOp} {doc : Document} {id : String}

theorem plain_of_mem_liveFields (h : name ∈ liveFields) : Plain name := by
  revert name; decide

theorem rooted_fieldPath (id name : String) : Rooted (fieldPath id name) := rooted_sub (rooted_entryPath id) name

theorem parsePath_fieldPath (id : EntryId) (h : Plain name) : parsePath (fieldPath id name) = ["entries", id.val, name] := by
  rw [fieldPath, parsePath_sub_plain (rooted_entryPath id) h, parsePath_entryPath id.plain]; rfl

theorem rooted_blockPath (id : String) (i : Nat) : Rooted (blockPath id i) := rooted_sub (rooted_fieldPath id "content") _

theorem parsePath_blockPath (id : EntryId) (i : Nat) : parsePath (blockPath id i) = ["entries", id.val, "content", toString i] := by
  rw [blockPath, parsePath_sub_plain (rooted_fieldPath id _) (plain_toString i), parsePath_fieldPath id (by decide)]; rfl

theorem parsePath_blockField (id : EntryId) (i : Nat) (h : Plain name) :
    parsePath (sub (blockPath id i) name) = ["entries", id.val, "content", toString i, name] := by
  rw [parsePath_sub_plain (rooted_blockPath id i) h, parsePath_blockPath]; rfl

/-- **What points at a field, or below it, addresses that field of that entry.** -/
theorem addresses_of_pointsAt {id : EntryId} (hname : Plain name)
    (h : PointsAt (fieldPath id name) op) : ∃ rest, Addresses op .entries id (name :: rest) := by
  obtain ⟨hpath, hmove⟩ := h
  rcases hpath with hpath | ⟨t, hpath⟩
  · exact ⟨[], by rw [hpath, parsePath_fieldPath id hname]; rfl, hmove⟩
  · refine ⟨(segments t).map unescape, ?_, hmove⟩
    rw [hpath, parsePath_sub (rooted_fieldPath id name), parsePath_fieldPath id hname]; rfl

theorem addresses_entryPath (id : EntryId) (v : Value) : Addresses (.add (entryPath id) v) .entries id [] :=
  ⟨parsePath_entryPath id.plain, by simp⟩

theorem addresses_statusPath {key : String} (h : Plain key) (v : Value) : Addresses (.replace (statusPath key) v) .status key [] :=
  ⟨parsePath_statusPath h, by simp⟩

theorem EventOp.scoped {ev : SessionLifecycleEvent} (h : EventOp doc ev op) : Scoped op := by
  cases h with
  | status hkey => exact ⟨_, _, _, addresses_statusPath (plain_of_mem_statusFields hkey) _⟩
  | create => exact ⟨_, _, _, addresses_entryPath _ _⟩
  | field _ _ _ hname hpoints =>
    obtain ⟨rest, haddr⟩ := addresses_of_pointsAt (plain_of_mem_liveFields hname) hpoints
    exact ⟨_, _, _, haddr⟩

theorem mem_replaceIf {present : Bool} {path : String} {v : Value}
    (h : op ∈ replaceIf present path v) : op = .replace path v := by
  unfold replaceIf at h
  split at h
  · exact mem_singleton.mp h
  · simp at h

variable (path : String)

theorem pointsAt_add (v : Value) : PointsAt path (.add path v) := ⟨Or.inl rfl, by simp⟩

theorem pointsAt_replace (v : Value) : PointsAt path (.replace path v) := ⟨Or.inl rfl, by simp⟩

theorem pointsAt_append (v : String) (isLazy : Bool) : PointsAt path (.append path v isLazy) := ⟨Or.inl rfl, by simp⟩

/-- What points below a field of a block points below the `content` field. -/
theorem pointsAt_content_of_block {i : Nat} (h : PointsAt (sub (blockPath id i) name) op) : PointsAt (fieldPath id "content") op :=
  (pointsBelow_of_sub (pointsBelow_of_sub h).pointsAt).pointsAt

theorem pointsAt_messageUpdateOps (doc : Document) (id : String) (ame : AssistantMessageEvent) :
    ∀ op ∈ messageUpdateOps doc id ame, PointsAt (fieldPath id "content") op := by
  intro op hop
  cases ame with
  | textStart | thinkingStart | toolcallStart =>
    obtain rfl := mem_singleton.mp hop
    exact (pointsBelow_of_sub (pointsAt_add _ _)).pointsAt
  | toolcallEnd =>
    obtain rfl := mem_singleton.mp hop
    exact (pointsBelow_of_sub (pointsAt_replace _ _)).pointsAt
  | textDelta | thinkingDelta =>
    obtain rfl := mem_singleton.mp hop
    exact pointsAt_content_of_block (pointsAt_append _ _ _)
  | textEnd | thinkingEnd =>
    obtain rfl := mem_singleton.mp hop
    exact pointsAt_content_of_block (pointsAt_replace _ _)
  | toolcallDelta =>
    unfold messageUpdateOps at hop
    dsimp only at hop
    split at hop
    · exact pointsAt_content_of_block (pointsBelow_computeObjectDiff _ _ _ op hop).pointsAt
    · simp at hop
  | other => simp [messageUpdateOps] at hop

/-- The operations of `message_end` replace fields of the message, then the leaf. -/
theorem mem_messageEndOps {msg : Value} (h : op ∈ messageEndOps doc id msg) :
    (∃ name ∈ liveFields, ∃ v, op = .replace (fieldPath id name) v) ∨ op = .replace (statusPath "leafId") (.str id) := by
  unfold messageEndOps at h
  split at h
  · simp only [mem_append, mem_cons, not_mem_nil, or_false] at h
    rcases h with ((((((((h | h | h) | h) | h) | h) | h) | h) | h) | h) <;>
      first
        | exact Or.inr h
        | exact Or.inl ⟨_, by decide, _, h⟩
        | exact Or.inl ⟨_, by decide, _, mem_replaceIf h⟩
  · exact Or.inr (mem_replaceIf h)

theorem streamedToolContentOp_eq {cont : Value} (h : streamedToolContentOp doc id cont = some op) :
    ∃ suffix, op = .append (sub (blockPath id 0) "text") suffix true := by
  have happ : ∀ existing next,
      (suffix? existing next).map (fun suffix => PatchOp.append (sub (blockPath id 0) "text") suffix true) = some op →
        ∃ suffix, op = .append (sub (blockPath id 0) "text") suffix true := by
    intro existing next h
    obtain ⟨suffix, -, rfl⟩ := Option.map_eq_some_iff.mp h
    exact ⟨suffix, rfl⟩
  unfold streamedToolContentOp at h
  repeat' split at h
  all_goals first | exact happ _ _ h | simp at h

/-- The operations of a tool update change its content or details. -/
theorem mem_toolExecutionUpdateOps {partialResult : Value} (h : op ∈ toolExecutionUpdateOps doc id partialResult) :
    ∃ name ∈ liveFields, PointsAt (fieldPath id name) op := by
  unfold toolExecutionUpdateOps at h
  rcases mem_append.mp h with h | h
  · refine ⟨"content", by decide, ?_⟩
    split at h
    · rw [mem_singleton] at h
      cases hs : streamedToolContentOp doc id (get partialResult "content") with
      | none => rw [hs] at h; exact h ▸ pointsAt_replace _ _
      | some op' =>
        rw [hs] at h
        obtain ⟨suffix, hop⟩ := streamedToolContentOp_eq hs
        obtain rfl : op = op' := h
        exact hop ▸ pointsAt_content_of_block (pointsAt_append _ _ _)
    · simp at h
  · exact ⟨"details", by decide, mem_replaceIf h ▸ pointsAt_replace _ _⟩

theorem mem_toolExecutionEndOps {res durationMs : Value} {isError : Bool}
    (h : op ∈ toolExecutionEndOps id res isError durationMs) :
    ∃ name ∈ liveFields, ∃ v, op = .replace (fieldPath id name) v := by
  unfold toolExecutionEndOps at h
  simp only [mem_append, mem_singleton] at h
  rcases h with ((h | h) | h) | h
  · exact ⟨_, by decide, _, mem_replaceIf h⟩
  · exact ⟨_, by decide, _, mem_replaceIf h⟩
  · exact ⟨_, by decide, _, h⟩
  · exact ⟨_, by decide, _, mem_replaceIf h⟩

theorem liveSkeleton_user (doc : Document) (id : String) (msg : Value) :
    LiveSkeleton doc id (userMessageSkeleton id (at_ doc.status "leafId") msg) := ⟨⟨_, rfl⟩, rfl, rfl, rfl⟩

theorem liveSkeleton_assistant (doc : Document) (id : String) (msg : Value) :
    LiveSkeleton doc id (assistantMessageSkeleton id (at_ doc.status "leafId") msg) :=
  ⟨⟨_, rfl⟩, rfl, rfl, rfl⟩

theorem liveSkeleton_toolResult (doc : Document) (id toolCallId toolName : String) :
    LiveSkeleton doc id (toolResultSkeleton id (at_ doc.status "leafId") toolCallId toolName) :=
  ⟨⟨_, rfl⟩, rfl, rfl, rfl⟩

/-- **Classification: every operation an event emits is one of the three kinds.** -/
theorem eventOp_of_mem {ev : SessionLifecycleEvent} (h : op ∈ eventOps doc ev) : EventOp doc ev op := by
  cases ev with
  | agentStart | agentSettled | compactionStart | compactionEnd | thinkingLevelChanged | queueUpdate =>
    obtain rfl := mem_singleton.mp h
    exact .status (by decide)
  | sessionInfoChanged name =>
    cases name with
    | none => simp [eventOps] at h
    | some name =>
      obtain rfl := mem_singleton.mp h
      exact .status (by decide)
  | entryAppended | other => simp [eventOps] at h
  | messageStart id? msg =>
    cases id? with
    | none => simp [eventOps] at h
    | some id =>
      simp only [eventOps, messageStartOps] at h
      split at h
      · obtain rfl := mem_singleton.mp h
        exact .create rfl rfl (liveSkeleton_user doc id msg)
      · split at h
        · rcases mem_cons.mp h with rfl | h
          · exact .create rfl rfl (liveSkeleton_assistant doc id msg)
          · obtain rfl := mem_singleton.mp h
            exact .status (by decide)
        · simp at h
  | messageUpdate id? ame =>
    cases id? with
    | none => simp [eventOps] at h
    | some id => exact .field rfl rfl rfl (by decide) (pointsAt_messageUpdateOps doc id ame op h)
  | messageEnd id? msg =>
    cases id? with
    | none => simp [eventOps] at h
    | some id =>
      rcases mem_messageEndOps h with ⟨name, hname, v, rfl⟩ | rfl
      · exact .field rfl rfl rfl hname (pointsAt_replace _ _)
      · exact .status (by decide)
  | toolExecutionStart id? parent? toolCallId toolName =>
    cases id? with
    | none => simp [eventOps] at h
    | some id => cases parent? with
      | some _ => simp [eventOps] at h
      | none =>
        obtain rfl := mem_singleton.mp h
        exact .create rfl rfl (liveSkeleton_toolResult doc id toolCallId toolName)
  | toolExecutionUpdate id? parent? partialResult =>
    cases id? with
    | none => simp [eventOps] at h
    | some id => cases parent? with
      | some _ => simp [eventOps] at h
      | none =>
        obtain ⟨name, hname, hpoints⟩ := mem_toolExecutionUpdateOps h
        exact .field rfl rfl rfl hname hpoints
  | toolExecutionEnd id? parent? result isError durationMs =>
    cases id? with
    | none => simp [eventOps] at h
    | some id => cases parent? with
      | some _ => simp [eventOps] at h
      | none =>
        obtain ⟨name, hname, v, rfl⟩ := mem_toolExecutionEndOps h
        exact .field rfl rfl rfl hname (pointsAt_replace _ _)

end PiBridge
