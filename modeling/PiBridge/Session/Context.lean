import PiBridge.Session.Manager

/-!
# `Session.Context` — what a session shows its model

The path to the leaf is cut at its newest compaction, which stands for what it summarizes; each entry that is left is
projected into messages, as its latest edit says. `getTime` is `new Date(timestamp).getTime()`.
-/

namespace PiBridge.Session

open Chord Lib

def isCompaction (entry : Json) : Bool := decide (entryType entry = some (text "compaction"))

def isContextEdit (entry : Json) : Bool := decide (entryType entry = some (text "context_edit"))

/-! ## Entries -/

section Entries

variable (getTime : Text → Json)

/-- Missing content is empty. -/
def withContent (message : Json) : Json :=
  match field "content" message with
  | none | some .null =>
    if textField "role" message = some (text "system") then withField "content" (.str []) message
    else if textField "role" message = some (text "user") ∨ textField "role" message = some (text "assistant") ∨
        textField "role" message = some (text "toolResult") then
      withField "content" (.arr []) message
    else message
  | _ => message

def createCustomMessage (entry : Json) : Json := record [("role", some (.str (text "custom"))), ("customType", field "customType" entry),
    ("content", some (((field "content" entry).filter fun content => content ≠ .null).getD (.arr []))),
    ("display", field "display" entry), ("details", field "details" entry), ("timestamp", some (getTime (entryTimestamp entry)))]

def createBranchSummaryMessage (entry : Json) : Json :=
  record [("role", some (.str (text "branchSummary"))), ("summary", field "summary" entry), ("fromId", field "fromId" entry),
    ("timestamp", some (getTime (entryTimestamp entry)))]

def createCompactionSummaryMessage (entry : Json) : Json :=
  record [("role", some (.str (text "compactionSummary"))), ("summary", field "summary" entry),
    ("tokensBefore", field "tokensBefore" entry), ("timestamp", some (getTime (entryTimestamp entry)))]

/-- Project one selected session entry into messages. -/
def sessionEntryToContextMessages (entry : Json) : List Json :=
  if entryType entry = some (text "message") then ((field "message" entry).map withContent).toList
  else if entryType entry = some (text "custom_message") then [createCustomMessage getTime entry]
  else if entryType entry = some (text "branch_summary") ∧ (textField "summary" entry).any (fun summary => !summary.isEmpty) = true then
    [createBranchSummaryMessage getTime entry]
  else if isCompaction entry then
    ((field "systemMessage" entry).filter isTruthy).toList ++ [createCompactionSummaryMessage getTime entry]
  else []

/-- A message, with the content of an edit. -/
def editMessage (replacement message : Json) : Json :=
  let role := textField "role" message
  if role = some (text "user") ∨ role = some (text "assistant") ∨ role = some (text "toolResult") ∨ role = some (text "custom") then
    match field "content" replacement with
    | some (.str s) =>
      withField "content"
        (if role = some (text "assistant") ∨ role = some (text "toolResult") then
          .arr [record [("type", some (.str (text "text"))), ("text", some (.str s))]]
        else .str s) message
    | some content => withField "content" content message
    | none => message
  else message

/-- Project one entry into model-visible messages, applying its latest context edit if any. -/
def projectContextEntry (entry : Json) (edit : Option Json) : List Json :=
  match edit.map (field "replacement") with
  | none => sessionEntryToContextMessages getTime entry
  | some (some .null) => []
  | some replacement => (sessionEntryToContextMessages getTime entry).map (editMessage (replacement.getD .null))

end Entries

/-! ## Paths -/

/-- The path to the leaf; `none` is `null`, and an empty ID counts as the last entry. -/
def buildSessionPath (m : SessionManager) (leafId : Option Text) : List Json :=
  match leafId with
  | none => []
  | some leafId =>
    match (if leafId.isEmpty then none else Assoc.get? m.byId leafId).or (entriesOf m.fileEntries).getLast? with
    | none => []
    | some leaf => (m.walk m.byId.length (parentId leaf)).reverse ++ [leaf]

/-- System messages are not kept. -/
def isKept (entry : Json) : Bool := !(decide (entryType entry = some (text "message")) && decide (messageRole entry = some (text "system")))

/-- The entries from the first kept one on. -/
def keptFrom (firstKept : Option Text) : Bool → List Json → List Json
  | _, [] => []
  | foundFirstKept, entry :: path =>
    let foundFirstKept := foundFirstKept || decide (some (entryId entry) = firstKept)
    if foundFirstKept && isKept entry then entry :: keptFrom firstKept foundFirstKept path
    else keptFrom firstKept foundFirstKept path

/-- The active, compaction-aware entries of a path. -/
def buildContextEntries (path : List Json) : List Json :=
  match path.reverse.find? isCompaction with
  | none => path
  | some compaction =>
    match path.findIdx? fun entry => decide (entryId entry = entryId compaction) with
    | none => path
    | some i => compaction :: (keptFrom (textField "firstKeptEntryId" compaction) false (path.take i) ++ path.drop (i + 1))

/-! ## The context -/

structure SessionContext where
  messages : List Json
  thinkingLevel : Option Json
  model : Option (Option Json × Option Json)

/-- The model and thinking level in force after an entry. -/
def settingsAfter (settings : Option Json × Option (Option Json × Option Json)) (entry : Json) :
    Option Json × Option (Option Json × Option Json) :=
  if entryType entry = some (text "thinking_level_change") then (field "thinkingLevel" entry, settings.2)
  else if entryType entry = some (text "model_change") then (settings.1, some (field "provider" entry, field "modelId" entry))
  else if entryType entry = some (text "message") ∧ messageRole entry = some (text "assistant") then
    (settings.1, some ((field "message" entry).bind (field "provider"), (field "message" entry).bind (field "model")))
  else settings

def getSessionContextSettings (path : List Json) : Option Json × Option (Option Json × Option Json) :=
  path.foldl settingsAfter (some (.str (text "off")), none)

section Context

variable (getTime : Text → Json)

/-- The latest edit of each entry. -/
def contextEdits (entries : List Json) : Assoc Text Json :=
  (entries.filter isContextEdit).foldl (fun edits edit => Assoc.set edits (targetId edit) edit) []

/-- The messages of an entry that is not the first: an older compaction contributes none. -/
def laterMessages (edits : Assoc Text Json) (entry : Json) : List Json :=
  if isCompaction entry then [] else projectContextEntry getTime entry (Assoc.get? edits (entryId entry))

def projectEntries (entries : List Json) : List (List Json) :=
  match entries with
  | [] => []
  | entry :: rest =>
    projectContextEntry getTime entry (Assoc.get? (contextEdits entries) (entryId entry)) ::
      rest.map (laterMessages getTime (contextEdits entries))

/-- Build provenance-preserving, compaction-aware model context. -/
def buildSessionProjection (path : List Json) : SessionContext :=
  let (thinkingLevel, model) := getSessionContextSettings path
  ⟨(projectEntries getTime (buildContextEntries path)).flatten, thinkingLevel, model⟩

/-- The context of a session for a leaf. -/
def SessionManager.buildSessionContext (m : SessionManager) (leafId : Option Text) : SessionContext :=
  buildSessionProjection getTime (buildSessionPath m leafId)

def SessionManager.getLabel (m : SessionManager) (id : Text) : Option Text := Assoc.get? m.labelsById id

end Context

end PiBridge.Session
