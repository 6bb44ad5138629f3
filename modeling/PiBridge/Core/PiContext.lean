import PiBridge.Core.Stats

/-!
# `Core.PiContext` — what pi keeps in context

`deriveStats` says that it mirrors `buildContextEntries` of pi's session manager. These are pi's functions:
they walk from entry to entry over an index of the list (`buildSessionPath`), and represent everything
before the latest compaction by that compaction and the range it kept (`buildContextEntries`).

Like the bridge's walk, pi's ends only if the parent links do; `none` means that it does not.
-/

namespace PiBridge

open Js Js.Value Lib List

/-- `buildEntryIndex`: the last entry of an id is the one the index holds. -/
def entryIndex (entries : List SessionEntry) (id : String) : Option SessionEntry := entries.reverse.find? fun e => e.id.val = id

/-- `current.parentId ? index.get(current.parentId) : undefined`. -/
def parentEntry (entries : List SessionEntry) (current : SessionEntry) : Option SessionEntry :=
  current.parentId.bind fun id => if id = "" then none else entryIndex entries id

/-- `buildSessionPath`. A leaf id that is not given, is empty or names no entry stands for the last entry;
    the leaf id `null` has no path. -/
def buildSessionPath (entries : List SessionEntry) (leafId : Option (Option String)) : Option (List SessionEntry) :=
  match leafId with
  | some none => some []
  | leafId =>
    let named := leafId.join.bind fun id => if id = "" then none else entryIndex entries id
    let leaf := named.or entries.getLast?
    (follow (fun e => some (parentEntry entries e)) (entries.length + 1) leaf).map fun r => r.1.reverse

/-- `entry.type === "compaction"`. -/
def isCompaction (entry : SessionEntry) : Bool := entry.type = .str "compaction"

/-- `entry.type === "message" && entry.message.role === "system"`. -/
def isSystemMessage (entry : SessionEntry) : Bool := entry.type = .str "message" ∧ get (entry.field "message") "role" = .str "system"

/-- The latest compaction of a path: the loop holds the last one it met. -/
def latestCompaction (path : List SessionEntry) : Option SessionEntry :=
  path.foldl (fun compaction entry => if isCompaction entry then some entry else compaction) none

/-- The entries before the compaction that it kept: from its `firstKeptEntryId` on, system messages left out. -/
def keptEntries (compaction : SessionEntry) (before : List SessionEntry) : List SessionEntry :=
  (before.dropWhile fun e => Value.str e.id ≠ compaction.field "firstKeptEntryId").filter fun e => !isSystemMessage e

/-- `buildContextEntries`, from the path on. -/
def contextOfPath (path : List SessionEntry) : List SessionEntry :=
  match latestCompaction path with
  | none => path
  | some compaction =>
    match path.findIdx? fun e => e.id.val = compaction.id.val with
    | none => path
    | some compactionIdx =>
      compaction :: keptEntries compaction (path.take compactionIdx) ++ path.drop (compactionIdx + 1)

/-- `buildContextEntries`; `none` when the path walk does not end. -/
def buildContextEntries (entries : List SessionEntry) (leafId : Option (Option String)) : Option (List SessionEntry) :=
  (buildSessionPath entries leafId).map contextOfPath

variable {es : List SessionEntry} {e : SessionEntry}

/-- The bridge entry of a pi entry: what the projected list holds under its id. -/
def projected (entries : List SessionEntry) (entry : SessionEntry) : Value := at_ (install [] 0 entries) entry.id

end PiBridge
