import PiBridge.Session.File

/-!
# `Session.Manager` — a session that is kept in a file

A manager holds the records of its session with their index, and writes them: nothing before the session has a
conversation, then all of them in a file it creates, from then on one line an entry. A call may branch off: move the leaf,
or continue in a new session with the path to an entry.
-/

namespace PiBridge.Session

open Chord Lib

/-! ## Calls -/

/-- How a write fails: the file is not opened, or some bytes are written. -/
inductive Fault where
  | opening
  | after (bytes : ℕ)

/-- Random UUIDs: the short forms that are tried where some IDs are in use, and one in full, which is new. -/
structure UuidSource where
  draw : List Text → List Text × Text
  new : ∀ used, (draw used).2 ∉ used

structure Call where
  timestamp : Text
  uuids : UuidSource
  fault : Option Fault
  /-- The session and its file, where the call starts a new one; no file has this name. -/
  sessionId : Text
  sessionFile : Text

inductive Thrown where
  | error (message : Text)
  /-- The file could not be written. -/
  | io

/-- Generate a unique short ID; the full UUID, if all that are tried collide. -/
def generateId (uuids : UuidSource) (used : List Text) : Text :=
  ((uuids.draw used).1.find? fun id => decide (id ∉ used)).getD (uuids.draw used).2

/-! ## The manager -/

structure SessionManager extends Index where
  cwd : Text
  sessionFile : Text
  /-- What `sessionFile` holds. -/
  file : Option Text
  flushed : Bool
  fileEntries : List Json
  /-- IDs handed out by `reserveEntryId()` that no append consumed yet. -/
  reservedIds : List Text

def sessionHeader (id timestamp cwd : Text) (parentSession : Option Text) : Json :=
  record [("type", some (.str (text "session"))), ("version", some (.num 3)), ("id", some (.str id)),
    ("timestamp", some (.str timestamp)), ("cwd", some (.str cwd)), ("parentSession", parentSession.map .str)]

/-- A persisted session, before its file is created. -/
def newSession (call : Call) (cwd : Text) (parentSession : Option Text) : SessionManager where
  toIndex := .empty
  cwd := cwd
  sessionFile := call.sessionFile
  file := none
  flushed := false
  fileEntries := [sessionHeader call.sessionId call.timestamp cwd parentSession]
  reservedIds := []

namespace SessionManager

section Writing

variable (numbers : Numbers) (m : SessionManager)

/-- A session file is created only once there is a user or assistant message. -/
def hasConversation : Bool := m.fileEntries.any isConversation

/-- `_persist`; `false` is a throw. -/
def persist (entry : Json) (fault : Option Fault) : SessionManager × Bool :=
  if !m.flushed then
    if !m.hasConversation then (m, true)
    else
      match m.file, fault with
      -- The file is created exclusively.
      | some _, _ => (m, false)
      | none, some .opening => (m, false)
      | none, some (.after bytes) => ({ m with file := some (written (lines numbers m.fileEntries) bytes) }, false)
      | none, none => ({ m with file := some (lines numbers m.fileEntries), flushed := true }, true)
  else
    match fault with
    | some .opening => (m, false)
    | some (.after bytes) => ({ m with file := some (m.file.getD [] ++ written (line numbers entry) bytes) }, false)
    | none => ({ m with file := some (m.file.getD [] ++ line numbers entry) }, true)

/-- The entry joins the records, as the leaf. -/
def push (entry : Json) : SessionManager := { m with toIndex := m.toIndex.add entry, fileEntries := m.fileEntries ++ [entry] }

/-- The last record is taken back, and the leaf is where it was. -/
def pop (entry : Json) (previousLeafId : Option Text) : SessionManager :=
  { m with fileEntries := m.fileEntries.dropLast, byId := Assoc.erase m.byId (entryId entry), leafId := previousLeafId }

/-- `_appendEntry` -/
def appendEntry (entry : Json) (fault : Option Fault) : SessionManager × Except Thrown Text :=
  match (m.push entry).persist numbers entry fault with
  | (m', true) => (m', .ok (entryId entry))
  -- Keep memory in line with the file: an entry that was not written must not become the parent of later entries.
  | (m', false) => (m'.pop entry m.leafId, .error .io)

/-- `_rewriteFile`, of a file that is not there; `false` is a throw. -/
def rewriteFile (fault : Option Fault) : SessionManager × Bool :=
  match fault with
  | some .opening => (m, false)
  | some (.after bytes) => ({ m with file := some (written (lines numbers m.fileEntries) bytes) }, false)
  | none => ({ m with file := some (lines numbers m.fileEntries) }, true)

end Writing

/-! ## IDs -/

section Ids

variable (m : SessionManager) (call : Call)

def has (id : Text) : Bool := (Assoc.get? m.byId id).isSome

/-- An ID no persisted or reserved entry holds. -/
def newEntryId : Text := generateId call.uuids (m.byId.map Prod.fst ++ m.reservedIds)

def reserveEntryId : SessionManager × Except Thrown Text :=
  ({ m with reservedIds := m.reservedIds ++ [m.newEntryId call] }, .ok (m.newEntryId call))

def alreadyPersisted (id : Text) : Thrown := .error (text "Entry id " ++ id ++ text " is already persisted")

def notFound (id : Text) : Thrown := .error (text "Entry " ++ id ++ text " not found")

/-- Return an unused reservation. -/
def releaseEntryId (id : Text) : SessionManager × Except Thrown Text :=
  if m.has id then (m, .error (alreadyPersisted id)) else ({ m with reservedIds := m.reservedIds.filter (· ≠ id) }, .ok id)

/-- The ID of an entry, which a reservation may give. -/
def consumeEntryId (reservedId : Option Text) : Except Thrown (SessionManager × Text) :=
  match reservedId with
  | none => .ok (m, m.newEntryId call)
  | some id => if m.has id then .error (alreadyPersisted id) else .ok ({ m with reservedIds := m.reservedIds.filter (· ≠ id) }, id)

end Ids

/-! ## Entries -/

section Entries

variable (m : SessionManager) (call : Call)

def messageEntry (id : Text) (message : Json) : Json :=
  record [("type", some (.str (text "message"))), ("id", some (.str id)), ("parentId", some (nullable m.leafId)),
    ("timestamp", some (.str call.timestamp)), ("message", some message)]

def thinkingLevelChangeEntry (thinkingLevel : Text) : Json :=
  record [("type", some (.str (text "thinking_level_change"))), ("id", some (.str (m.newEntryId call))),
    ("parentId", some (nullable m.leafId)), ("timestamp", some (.str call.timestamp)), ("thinkingLevel", some (.str thinkingLevel))]

def modelChangeEntry (provider modelId : Text) : Json :=
  record [("type", some (.str (text "model_change"))), ("id", some (.str (m.newEntryId call))), ("parentId", some (nullable m.leafId)),
    ("timestamp", some (.str call.timestamp)), ("provider", some (.str provider)), ("modelId", some (.str modelId))]

def usageEntry (kind provider model : Text) (usage : Json) (note : Option Text) : Json :=
  record [("type", some (.str (text "usage"))), ("id", some (.str (m.newEntryId call))), ("parentId", some (nullable m.leafId)),
    ("timestamp", some (.str call.timestamp)), ("kind", some (.str kind)), ("provider", some (.str provider)), ("model", some (.str model)),
    ("usage", some usage), ("note", (note.filter fun note => !note.isEmpty).map .str)]

/-- `systemMessage` is the one in force on the branch, as of this call. -/
def compactionEntry (summary : Text) (firstKeptEntryId : Option Text) (tokensBefore : Json) (details usage : Option Json)
    (fromHook : Option Bool) (systemMessage : Option Json) : Json :=
  record [("type", some (.str (text "compaction"))), ("id", some (.str (m.newEntryId call))), ("parentId", some (nullable m.leafId)),
    ("timestamp", some (.str call.timestamp)), ("summary", some (.str summary)),
    ("firstKeptEntryId", some (.str (firstKeptEntryId.getD (m.newEntryId call)))), ("tokensBefore", some tokensBefore),
    ("details", details), ("usage", usage), ("fromHook", fromHook.map .bool), ("systemMessage", systemMessage)]

def customEntry (customType : Text) (data : Option Json) : Json :=
  record [("type", some (.str (text "custom"))), ("customType", some (.str customType)), ("data", data),
    ("id", some (.str (m.newEntryId call))), ("parentId", some (nullable m.leafId)), ("timestamp", some (.str call.timestamp))]

/-- `name.replace(/[\r\n]+/g, " ")` -/
def joinLines : Text → Text
  | [] => []
  | [c] => if c = 13 ∨ c = 10 then [32] else [c]
  | c :: d :: s =>
    if c = 13 ∨ c = 10 then
      if d = 13 ∨ d = 10 then joinLines (d :: s) else 32 :: joinLines (d :: s)
    else c :: joinLines (d :: s)

def sessionInfoEntry (name : Text) : Json :=
  record [("type", some (.str (text "session_info"))), ("id", some (.str (m.newEntryId call))), ("parentId", some (nullable m.leafId)),
    ("timestamp", some (.str call.timestamp)), ("name", some (.str (trim (joinLines name))))]

def customMessageEntry (id customType : Text) (content : Json) (display : Bool) (details : Option Json) : Json :=
  record [("type", some (.str (text "custom_message"))), ("customType", some (.str customType)), ("content", some content),
    ("display", some (.bool display)), ("details", details), ("id", some (.str id)), ("parentId", some (nullable m.leafId)),
    ("timestamp", some (.str call.timestamp))]

def labelEntry (target : Text) (label : Option Text) : Json :=
  record [("type", some (.str (text "label"))), ("id", some (.str (m.newEntryId call))), ("parentId", some (nullable m.leafId)),
    ("timestamp", some (.str call.timestamp)), ("targetId", some (.str target)), ("label", label.map .str)]

def contextEditEntry (target : Text) (replacement : Json) : Json :=
  record [("type", some (.str (text "context_edit"))), ("id", some (.str (m.newEntryId call))), ("parentId", some (nullable m.leafId)),
    ("timestamp", some (.str call.timestamp)), ("targetId", some (.str target)), ("replacement", some replacement)]

def branchSummaryEntry (branchFromId : Option Text) (summary : Text) (details usage : Option Json) (fromHook : Option Bool) : Json :=
  record [("type", some (.str (text "branch_summary"))), ("id", some (.str (m.newEntryId call))),
    ("parentId", some (nullable branchFromId)), ("timestamp", some (.str call.timestamp)),
    ("fromId", some (.str (m.leafId.getD (text "root")))), ("summary", some (.str summary)), ("details", details), ("usage", usage),
    ("fromHook", fromHook.map .bool)]

end Entries

/-! ## Appends -/

section Appends

variable (numbers : Numbers) (m : SessionManager) (call : Call)

def appendMessage (message : Json) (reservedId : Option Text) : SessionManager × Except Thrown Text :=
  match m.consumeEntryId call reservedId with
  | .error thrown => (m, .error thrown)
  | .ok (m', id) => m'.appendEntry numbers (m.messageEntry call id message) call.fault

def appendThinkingLevelChange (thinkingLevel : Text) : SessionManager × Except Thrown Text :=
  m.appendEntry numbers (m.thinkingLevelChangeEntry call thinkingLevel) call.fault

def appendModelChange (provider modelId : Text) : SessionManager × Except Thrown Text :=
  m.appendEntry numbers (m.modelChangeEntry call provider modelId) call.fault

def appendUsage (kind provider model : Text) (usage : Json) (note : Option Text) : SessionManager × Except Thrown Text :=
  m.appendEntry numbers (m.usageEntry call kind provider model usage note) call.fault

def appendCompaction (summary : Text) (firstKeptEntryId : Option Text) (tokensBefore : Json) (details usage : Option Json)
    (fromHook : Option Bool) (systemMessage : Option Json) : SessionManager × Except Thrown Text :=
  m.appendEntry numbers (m.compactionEntry call summary firstKeptEntryId tokensBefore details usage fromHook systemMessage) call.fault

def appendCustomEntry (customType : Text) (data : Option Json) : SessionManager × Except Thrown Text :=
  m.appendEntry numbers (m.customEntry call customType data) call.fault

def appendSessionInfo (name : Text) : SessionManager × Except Thrown Text := m.appendEntry numbers (m.sessionInfoEntry call name) call.fault

def appendCustomMessageEntry (customType : Text) (content : Json) (display : Bool) (details : Option Json) (reservedId : Option Text) :
    SessionManager × Except Thrown Text :=
  match m.consumeEntryId call reservedId with
  | .error thrown => (m, .error thrown)
  | .ok (m', id) => m'.appendEntry numbers (m.customMessageEntry call id customType content display details) call.fault

/-- Set or clear a label on an entry. -/
def appendLabelChange (target : Text) (label : Option Text) : SessionManager × Except Thrown Text :=
  if m.has target then
    match m.appendEntry numbers (m.labelEntry call target label) call.fault with
    | (m', .ok id) =>
      ({ m' with toIndex := m'.toIndex.relabel target (label.filter fun label => !label.isEmpty) call.timestamp }, .ok id)
    | (m', .error thrown) => (m', .error thrown)
  else (m, .error (notFound target))

end Appends

/-! ## Branches -/

section Branches

variable (numbers : Numbers) (m : SessionManager) (call : Call)

/-- The entries from an entry up to the root; the fuel bounds their number. -/
def walk : ℕ → Option Text → List Json
  | 0, _ => []
  | fuel + 1, id =>
    -- An empty ID counts as none.
    match (id.filter fun id => !id.isEmpty).bind (Assoc.get? m.byId) with
    | none => []
    | some entry => entry :: walk fuel (parentId entry)

/-- Walk from entry to root, returning all entries in path order. -/
def getBranch (fromId : Option Text) : List Json := (m.walk m.byId.length (fromId.or m.leafId)).reverse

/-- The role that decides how a replacement is kept. -/
def targetRole (target : Json) : Option Text :=
  if entryType target = some (text "message") then messageRole target else some (text "custom")

def isEditable (target : Json) : Bool :=
  decide (entryType target = some (text "custom_message")) ||
    (decide (entryType target = some (text "message")) &&
      (decide (messageRole target = some (text "user")) || decide (messageRole target = some (text "assistant")) ||
        decide (messageRole target = some (text "toolResult"))))

/-- `null`, or an object with content that is a string or an array. -/
def isReplacement (replacement : Json) : Bool :=
  match replacement, field "content" replacement with
  | .null, _ | _, some (.str _) | _, some (.arr _) => true
  | _, _ => false

/-- The content of a message that holds parts is kept as parts. -/
def normalizedReplacement (target replacement : Json) : Json :=
  if targetRole target = some (text "assistant") ∨ targetRole target = some (text "toolResult") then
    match field "content" replacement with
    | some (.str s) =>
      record [("content", some (.arr [record [("type", some (.str (text "text"))), ("text", some (.str s))]]))]
    | _ => replacement
  else replacement

/-- The entry that an edit is of. -/
def editTarget (target : Text) (replacement : Json) : Except Thrown Json :=
  if isReplacement replacement then
    match Assoc.get? m.byId target with
    | none => .error (notFound target)
    | some entry =>
      if !(m.getBranch none).any fun each => decide (entryId each = target) then
        .error (.error (text "Entry " ++ target ++ text " is not on the active branch"))
      else if !isEditable entry then
        .error (.error (text "Entry " ++ target ++ text " does not contribute editable model content"))
      else .ok entry
  else .error (.error (text "Context edit replacement must be null or contain string/array content"))

/-- Append a branch-local edit to an earlier model-visible entry. -/
def appendContextEdit (target : Text) (replacement : Json) : SessionManager × Except Thrown Text :=
  match m.editTarget target replacement with
  | .error thrown => (m, .error thrown)
  | .ok entry => m.appendEntry numbers (m.contextEditEntry call target (normalizedReplacement entry replacement)) call.fault

/-- Start a new branch from an earlier entry. -/
def branch (branchFromId : Text) : SessionManager × Except Thrown Text :=
  if m.has branchFromId then ({ m with leafId := some branchFromId }, .ok branchFromId) else (m, .error (notFound branchFromId))

/-- Reset the leaf pointer to null (before any entries). -/
def resetLeaf : SessionManager × Except Thrown Text := ({ m with leafId := none }, .ok [])

/-- Start a new branch with a summary of the abandoned path. -/
def branchWithSummary (branchFromId : Option Text) (summary : Text) (details usage : Option Json) (fromHook : Option Bool) :
    SessionManager × Except Thrown Text :=
  match branchFromId.filter fun id => !m.has id with
  | some id => (m, .error (notFound id))
  | none =>
    { m with leafId := branchFromId }.appendEntry numbers (m.branchSummaryEntry call branchFromId summary details usage fromHook) call.fault

end Branches

end SessionManager

/-! ## Branched sessions -/

/-- The path without its labels, as it is rebuilt. -/
structure Retained where
  pathWithoutLabels : List Json
  /-- Labels by ID, with the entry that follows them. -/
  replacementByLabelId : Assoc Text Text
  pendingLabelIds : List Text
  pathParentId : Option Text

namespace Retained

variable (r : Retained)

def start : Retained := ⟨[], [], [], none⟩

/-- What follows the pending labels, and what else they stand for. -/
def replacements (entry : Json) : Assoc Text Text :=
  r.pendingLabelIds.foldl (fun replacements labelId => Assoc.set replacements labelId (entryId entry)) r.replacementByLabelId

/-- The entry of a branched session: its parent is the entry retained before it. -/
def rechained (entry : Json) : Json :=
  let chained := withField "parentId" (nullable r.pathParentId) entry
  if entryType entry = some (text "compaction") then
    match textField "firstKeptEntryId" entry with
    | some kept =>
      withField "firstKeptEntryId"
        (.str (if kept = entryId entry then entryId entry else (Assoc.get? (r.replacements entry) kept).getD kept)) chained
    | none => chained
  else chained

def retain (entry : Json) : Retained :=
  if isLabel entry then { r with pendingLabelIds := r.pendingLabelIds ++ [entryId entry] }
  else ⟨r.pathWithoutLabels ++ [r.rechained entry], r.replacements entry, [], some (entryId entry)⟩

end Retained

/-- A label that a branched session takes over. -/
structure LabelToWrite where
  targetId : Text
  label : Text
  timestamp : Text

def LabelToWrite.entry (each : LabelToWrite) (id : Text) (parentId : Option Text) : Json :=
  record [("type", some (.str (text "label"))), ("id", some (.str id)), ("parentId", some (nullable parentId)),
    ("timestamp", some (.str each.timestamp)), ("targetId", some (.str each.targetId)), ("label", some (.str each.label))]

/-- The label entries of a branched session, as they are made. -/
structure LabelEntries where
  pathEntryIds : List Text
  entries : List Json
  parentId : Option Text

/-- An entry for a label, below the one before it. -/
def LabelEntries.addLabel (uuids : UuidSource) (l : LabelEntries) (each : LabelToWrite) : LabelEntries :=
  let id := generateId uuids l.pathEntryIds
  ⟨l.pathEntryIds ++ [id], l.entries ++ [each.entry id l.parentId], some id⟩

namespace SessionManager

section Branched

variable (numbers : Numbers) (m : SessionManager) (call : Call)

/-- The path to an entry, for a new session. -/
def branchedPath (leafId : Text) : List Json := ((m.getBranch (some leafId)).foldl Retained.retain .start).pathWithoutLabels

/-- The labels of entries in the path, in the order they are kept in. -/
def labelsToWrite (pathEntryIds : List Text) : List LabelToWrite :=
  (m.labelsById.filter fun label => decide (label.1 ∈ pathEntryIds)).map fun label =>
    ⟨label.1, label.2, (Assoc.get? m.labelTimestampsById label.1).getD []⟩

/-- The entries for the labels of a path, after it. -/
def branchedLabels (path : List Json) : List Json :=
  ((m.labelsToWrite (path.map entryId)).foldl (LabelEntries.addLabel call.uuids)
    ⟨path.map entryId, [], (path.getLast?.map entryId).filter fun id => !id.isEmpty⟩).entries

/-- The manager of the new session, before its file is written. -/
def branched (leafId : Text) : SessionManager :=
  let path := m.branchedPath leafId
  let entries := sessionHeader call.sessionId call.timestamp m.cwd (some m.sessionFile) :: (path ++ m.branchedLabels call path)
  { m with toIndex := buildIndex entries, fileEntries := entries, sessionFile := call.sessionFile, file := none }

/-- Continue in a new session that contains only the path from root to the entry. -/
def createBranchedSession (leafId : Text) : SessionManager × Except Thrown Text :=
  if (m.getBranch (some leafId)).isEmpty then (m, .error (notFound leafId))
  else if (m.branched call leafId).hasConversation then
    match (m.branched call leafId).rewriteFile numbers call.fault with
    | (m', true) => ({ m' with flushed := true }, .ok call.sessionFile)
    | (m', false) => (m', .error .io)
  else ({ m.branched call leafId with flushed := false }, .ok call.sessionFile)

end Branched

end SessionManager

/-! ## Sequences of calls -/

/-- A value that is kept as JSON, and read back from it. -/
abbrev Value (numbers : Numbers) := { x : Json // Chord.Plain numbers x }

inductive Operation (numbers : Numbers) where
  | reserveEntryId
  | releaseEntryId (id : Text)
  | appendMessage (message : Value numbers) (reservedId : Option Text)
  | appendThinkingLevelChange (thinkingLevel : Text)
  | appendModelChange (provider modelId : Text)
  | appendUsage (kind provider model : Text) (usage : Value numbers) (note : Option Text)
  | appendCompaction (summary : Text) (firstKeptEntryId : Option Text) (tokensBefore : Value numbers) (details usage : Option (Value numbers))
      (fromHook : Option Bool) (systemMessage : Option (Value numbers))
  | appendCustomEntry (customType : Text) (data : Option (Value numbers))
  | appendSessionInfo (name : Text)
  | appendCustomMessageEntry (customType : Text) (content : Value numbers) (display : Bool) (details : Option (Value numbers))
      (reservedId : Option Text)
  | appendContextEdit (targetId : Text) (replacement : Value numbers)
  | appendLabelChange (targetId : Text) (label : Option Text)
  | branch (branchFromId : Text)
  | resetLeaf
  | branchWithSummary (branchFromId : Option Text) (summary : Text) (details usage : Option (Value numbers)) (fromHook : Option Bool)
  | createBranchedSession (leafId : Text)

section Runs

variable {numbers : Numbers}

/-- The entry that a call appends, where it is not refused. -/
def SessionManager.entryToAppend (m : SessionManager) (call : Call) : Operation numbers → Option Json
  | .appendMessage message reservedId =>
    if reservedId.any m.has then none else some (m.messageEntry call (reservedId.getD (m.newEntryId call)) message.val)
  | .appendThinkingLevelChange thinkingLevel => some (m.thinkingLevelChangeEntry call thinkingLevel)
  | .appendModelChange provider modelId => some (m.modelChangeEntry call provider modelId)
  | .appendUsage kind provider model usage note => some (m.usageEntry call kind provider model usage.val note)
  | .appendCompaction summary firstKeptEntryId tokensBefore details usage fromHook systemMessage =>
    some (m.compactionEntry call summary firstKeptEntryId tokensBefore.val (details.map Subtype.val) (usage.map Subtype.val) fromHook
      (systemMessage.map Subtype.val))
  | .appendCustomEntry customType data => some (m.customEntry call customType (data.map Subtype.val))
  | .appendSessionInfo name => some (m.sessionInfoEntry call name)
  | .appendCustomMessageEntry customType content display details reservedId =>
    if reservedId.any m.has then none
    else some (m.customMessageEntry call (reservedId.getD (m.newEntryId call)) customType content.val display (details.map Subtype.val))
  | .appendContextEdit targetId replacement =>
    (m.editTarget targetId replacement.val).toOption.map fun target =>
      m.contextEditEntry call targetId (SessionManager.normalizedReplacement target replacement.val)
  | .appendLabelChange targetId label => if m.has targetId then some (m.labelEntry call targetId label) else none
  | .branchWithSummary branchFromId summary details usage fromHook =>
    if branchFromId.all m.has then
      some (m.branchSummaryEntry call branchFromId summary (details.map Subtype.val) (usage.map Subtype.val) fromHook)
    else none
  | _ => none

/-- One call. -/
def SessionManager.perform (m : SessionManager) (call : Call) : Operation numbers → SessionManager × Except Thrown Text
  | .reserveEntryId => m.reserveEntryId call
  | .releaseEntryId id => m.releaseEntryId id
  | .appendMessage message reservedId => m.appendMessage numbers call message.val reservedId
  | .appendThinkingLevelChange thinkingLevel => m.appendThinkingLevelChange numbers call thinkingLevel
  | .appendModelChange provider modelId => m.appendModelChange numbers call provider modelId
  | .appendUsage kind provider model usage note => m.appendUsage numbers call kind provider model usage.val note
  | .appendCompaction summary firstKeptEntryId tokensBefore details usage fromHook systemMessage =>
    m.appendCompaction numbers call summary firstKeptEntryId tokensBefore.val (details.map Subtype.val) (usage.map Subtype.val) fromHook
      (systemMessage.map Subtype.val)
  | .appendCustomEntry customType data => m.appendCustomEntry numbers call customType (data.map Subtype.val)
  | .appendSessionInfo name => m.appendSessionInfo numbers call name
  | .appendCustomMessageEntry customType content display details reservedId =>
    m.appendCustomMessageEntry numbers call customType content.val display (details.map Subtype.val) reservedId
  | .appendContextEdit targetId replacement => m.appendContextEdit numbers call targetId replacement.val
  | .appendLabelChange targetId label => m.appendLabelChange numbers call targetId label
  | .branch branchFromId => m.branch branchFromId
  | .resetLeaf => m.resetLeaf
  | .branchWithSummary branchFromId summary details usage fromHook =>
    m.branchWithSummary numbers call branchFromId summary (details.map Subtype.val) (usage.map Subtype.val) fromHook
  | .createBranchedSession leafId => m.createBranchedSession numbers call leafId

/-- The manager after a sequence of calls, each of which may have thrown. -/
def SessionManager.run (m : SessionManager) (calls : List (Call × Operation numbers)) : SessionManager :=
  calls.foldl (fun m each => (m.perform each.1 each.2).1) m

end Runs

end PiBridge.Session
