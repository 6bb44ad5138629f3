import PiBridge.Core.Types

/-!
# `Core.Entry` — projecting a persisted entry

`projectEntry` turns an entry of pi's list into a bridge entry: `toEntry` picks the fields by entry type,
and the projection seals the result and gives it its file position. `Installed` says of a value that it is
such a projection; `installed_facts` is all that the rest of the development uses about one.
-/

namespace PiBridge

open Js Js.Value

/-- `jsonValue(v)`: the value as `JSON` carries it, `null` if it has no text. -/
def jsonValue (v : Value) : Value := v.toJson.getD .null

/-- `v as boolean ?? false` and its like: a default for a missing value. -/
def orFalse (v : Value) : Value := v.orElse (.bool false)

/-- `typeof v === "number" ? v : null`. -/
def numberOrNull : Value → Value
  | .num q => .num q
  | _ => .null

/-- `toContent`: a block's type is a string where it has one. -/
def toContent (b : Value) : Value :=
  match get b "type" with
  | .str "text" => .obj [("type", .str "text"), ("text", get b "text"), ("textSignature", get b "textSignature")]
  | .str "thinking" =>
    .obj [("type", .str "thinking"), ("thinking", (get b "thinking").orElse (.str "")),
      ("thinkingSignature", get b "thinkingSignature"), ("redacted", get b "redacted")]
  | .str "image" => .obj [("type", .str "image"), ("data", get b "data"), ("mimeType", get b "mimeType")]
  | .str "toolCall" =>
    .obj [("type", .str "toolCall"), ("id", get b "id"), ("name", get b "name"),
      ("arguments", get b "arguments"), ("thoughtSignature", get b "thoughtSignature")]
  | type =>
    let name := type.asStr?.getD "content"
    .obj [("type", .str "text"), ("text", .str ("[unsupported " ++ name ++ " block]"))]

/-- `typeof content === "string" ? [{ type: "text", text: content }] : (content ?? []).map(toContent)`. -/
def contentBlocks (content : Value) : Value :=
  match content with
  | .str s => .arr [.obj [("type", .str "text"), ("text", .str s)]]
  | content => .arr (content.asArr.map toContent)

/-- `splitSectionNames`: the sections a prompt diff sets, and those it removes. -/
def splitSectionNames (sections : Value) : List Value × List Value :=
  let names := sections.asObj
  ((names.filter fun p => p.2 ≠ .null).map fun p => .str p.1, (names.filter fun p => p.2 = .null).map fun p => .str p.1)

/-- The fields every projected entry starts with. -/
def entryBase (kind : String) (entry : SessionEntry) : Obj :=
  [("kind", .str kind), ("id", .str entry.id), ("parentId", entry.field "parentId"), ("timestamp", entry.field "timestamp")]

/-- `toMessageEntry`. -/
def toMessageEntry (entry : SessionEntry) : Obj :=
  let msg := entry.field "message"
  let base : Obj := [("id", .str entry.id), ("parentId", entry.field "parentId"), ("timestamp", entry.field "timestamp"),
      ("kind", .str "message"), ("role", get msg "role"), ("content", contentBlocks (get msg "content"))]
  match get msg "role" with
  | .str "assistant" =>
    base ++ [("api", get msg "api"), ("provider", get msg "provider"), ("model", get msg "model"),
        ("responseModel", (get msg "responseModel").orElse .null),
        ("responseId", (get msg "responseId").orElse .null), ("usage", get msg "usage"),
        ("stopReason", get msg "stopReason"), ("errorMessage", (get msg "errorMessage").orElse .null),
        ("durationMs", numberOrNull (get msg "durationMs"))]
  | .str "system" =>
    let sections := (get msg "sections").orElse .null
    let names := splitSectionNames sections
    base ++ [("sectionNames", .arr names.1), ("removedSectionNames", .arr names.2), ("sections", sections)]
  | _ => base

/-- `toToolResultEntry`. -/
def toToolResultEntry (entry : SessionEntry) : Obj :=
  let m := entry.field "message"
  entryBase "tool_result" entry ++ [("toolCallId", get m "toolCallId"), ("toolName", get m "toolName"),
      ("content", .arr ((get m "content").asArr.map toContent)),
      ("details", (jsonValue (get m "details")).orElse (.obj [])), ("isError", orFalse (get m "isError")),
      ("durationMs", numberOrNull (get m "durationMs"))]

/-- `toBashExecutionEntry`. -/
def toBashExecutionEntry (entry : SessionEntry) : Obj :=
  let m := entry.field "message"
  entryBase "bash_execution" entry ++ [("command", (get m "command").orElse (.str "")), ("output", (get m "output").orElse (.str "")),
      ("exitCode", numberOrNull (get m "exitCode")), ("cancelled", orFalse (get m "cancelled")),
      ("truncated", orFalse (get m "truncated")), ("fullOutputPath", (get m "fullOutputPath").orElse .null),
      ("excludeFromContext", orFalse (get m "excludeFromContext"))]

/-- `toCompactionEntry`. -/
def toCompactionEntry (entry : SessionEntry) : Obj := entryBase "compaction" entry ++
    [("summary", entry.field "summary"), ("firstKeptEntryId", entry.field "firstKeptEntryId"),
      ("tokensBefore", entry.field "tokensBefore"), ("details", jsonValue (entry.field "details")),
      ("fromHook", orFalse (entry.field "fromHook"))]

/-- `toBranchSummaryEntry`. -/
def toBranchSummaryEntry (entry : SessionEntry) : Obj := entryBase "branch_summary" entry ++
    [("fromId", entry.field "fromId"), ("summary", entry.field "summary"),
      ("details", jsonValue (entry.field "details")), ("fromHook", orFalse (entry.field "fromHook"))]

/-- `toModelChangeEntry`. -/
def toModelChangeEntry (entry : SessionEntry) : Obj :=
  entryBase "model_change" entry ++ [("provider", entry.field "provider"), ("modelId", entry.field "modelId")]

/-- `toThinkingLevelChangeEntry`. -/
def toThinkingLevelChangeEntry (entry : SessionEntry) : Obj :=
  entryBase "thinking_level_change" entry ++ [("thinkingLevel", entry.field "thinkingLevel")]

/-- `toLabelEntry`. -/
def toLabelEntry (entry : SessionEntry) : Obj :=
  entryBase "label" entry ++ [("targetId", entry.field "targetId"), ("label", entry.field "label")]

/-- `toSessionInfoEntry`. -/
def toSessionInfoEntry (entry : SessionEntry) : Obj := entryBase "session_info" entry ++ [("name", entry.field "name")]

/-- `toCustomEntry`. -/
def toCustomEntry (entry : SessionEntry) : Obj := entryBase "custom" entry ++
    [("customType", entry.field "customType"), ("data", jsonValue (entry.field "data"))]

/-- `toCustomMessageEntry`. -/
def toCustomMessageEntry (entry : SessionEntry) : Obj := entryBase "custom_message" entry ++
    [("customType", entry.field "customType"), ("content", contentBlocks (entry.field "content")),
      ("details", jsonValue (entry.field "details")), ("display", entry.field "display")]

/-- `toInternalEntry`. -/
def toInternalEntry (entry : SessionEntry) : Obj := entryBase "internal" entry ++ [("sourceType", entry.type)]

/-- The entry of a type this bridge does not know: its raw record is kept. -/
def toUnknownEntry (entry : SessionEntry) : Obj := entryBase "unknown" entry ++ [("sourceType", entry.type), ("data", .obj entry.fields)]

/-- `toEntry`. -/
def toEntry (entry : SessionEntry) : Obj :=
  match entry.type with
  | .str "message" =>
    match get (entry.field "message") "role" with
    | .str "toolResult" => toToolResultEntry entry
    | .str "bashExecution" => toBashExecutionEntry entry
    | _ => toMessageEntry entry
  | .str "compaction" => toCompactionEntry entry
  | .str "branch_summary" => toBranchSummaryEntry entry
  | .str "model_change" => toModelChangeEntry entry
  | .str "thinking_level_change" => toThinkingLevelChangeEntry entry
  | .str "label" => toLabelEntry entry
  | .str "session_info" => toSessionInfoEntry entry
  | .str "custom" => toCustomEntry entry
  | .str "custom_message" => toCustomMessageEntry entry
  | .str "context_edit" | .str "usage" => toInternalEntry entry
  | _ => toUnknownEntry entry

/-- `projectEntry`: sealed, with its file position. -/
def projectEntry (entry : SessionEntry) (ord : Nat) : Value := .obj (((toEntry entry).set "isSealed" (.bool true)).set "ord" (.num ord))

/-! ## What a projected entry is -/

/-- A converted entry keeps its id and its parent, and says nothing about sealing. -/
structure Keeps (entry : SessionEntry) (m : Obj) : Prop where
  id : at_ m "id" = .str entry.id
  parentId : at_ m "parentId" = entry.field "parentId"

theorem keeps_entryBase (kind : String) (e : SessionEntry) (more : Obj) : Keeps e (entryBase kind e ++ more) := ⟨rfl, rfl⟩

variable (e : SessionEntry) (ord : Nat)

theorem keeps_toMessageEntry : Keeps e (toMessageEntry e) := by
  unfold toMessageEntry
  dsimp only
  split <;> exact ⟨rfl, rfl⟩

theorem keeps_toEntry : Keeps e (toEntry e) := by
  unfold toEntry
  split
  · split
    · exact keeps_entryBase _ _ _
    · exact keeps_entryBase _ _ _
    · exact keeps_toMessageEntry e
  all_goals exact keeps_entryBase _ _ _

/-- The value stored under `id` is the projection of an entry of that id. -/
def Installed (id : String) (v : Value) : Prop := ∃ entry ord, entry.id.val = id ∧ v = projectEntry entry ord

@[simp] theorem get_projectEntry_isSealed : get (projectEntry e ord) "isSealed" = .bool true := by
  rw [projectEntry, get_obj, at_set_ne _ _ (by decide), at_set_self]

@[simp] theorem get_projectEntry_ord : get (projectEntry e ord) "ord" = .num ord := by
  rw [projectEntry, get_obj, at_set_self]

theorem get_projectEntry_of_ne {k : String} (hs : k ≠ "isSealed")
    (ho : k ≠ "ord") : get (projectEntry e ord) k = at_ (toEntry e) k := by
  rw [projectEntry, get_obj, at_set_ne _ _ ho.symm, at_set_ne _ _ hs.symm]

@[simp] theorem get_projectEntry_id : get (projectEntry e ord) "id" = .str e.id := by
  rw [get_projectEntry_of_ne _ _ (by decide) (by decide), (keeps_toEntry e).id]

@[simp] theorem parentIdOf_projectEntry : parentIdOf (projectEntry e ord) = e.parentId := by
  rw [parentIdOf, get_projectEntry_of_ne _ _ (by decide) (by decide), (keeps_toEntry e).parentId]; rfl

@[simp] theorem isEntrySealed_projectEntry : isEntrySealed (projectEntry e ord) = true := by
  rw [isEntrySealed, get_projectEntry_isSealed]; decide

/-- **An installed entry is sealed, has a file position, and its id is its key.** -/
theorem installed_facts {id : String} {v : Value} (h : Installed id v) :
    get v "isSealed" = .bool true ∧ (∃ n : Nat, get v "ord" = .num n) ∧ get v "id" = .str id := by
  obtain ⟨e, ord, rfl, rfl⟩ := h
  exact ⟨get_projectEntry_isSealed _ _, ⟨ord, get_projectEntry_ord _ _⟩, get_projectEntry_id _ _⟩

end PiBridge
