import Mathlib.Algebra.Order.Ring.Rat
import PiBridge.Chord.Delta.PathKey
import PiBridge.Chord.Registries.Contribution

/-!
# `Host.SessionCatalog` — the pages of a project's Sessions

`listSessions` sorts what a scan of the project finds, newest first, and returns a page of it and where the page ends.
-/

namespace PiBridge.SessionCatalog

open Chord

inductive ListError where
  | error (message : Text)
  | rangeError (message : Text)
deriving DecidableEq

/-! ## Times -/

def padded (width n : Nat) : Text := (decimal n).leftpad width 48

/-- Year, month and day of the Gregorian calendar, some days after 1970-01-01. -/
def calendar (days : Int) : Int × Nat × Nat :=
  -- Years start in March here, so that a leap day is the last of its year.
  let day := ((days + 719468) % 146097).toNat
  let year := (day - day / 1460 + day / 36524 - day / 146096) / 365
  let dayOfYear := day - (365 * year + year / 4 - year / 100)
  let month := (5 * dayOfYear + 2) / 153
  let dayOfMonth := dayOfYear - (153 * month + 2) / 5 + 1
  let era := 400 * ((days + 719468) / 146097)
  if month < 10 then (era + year, month + 3, dayOfMonth) else (era + year + 1, month - 9, dayOfMonth)

/-- `new Date(timeMs).toISOString()` -/
def toISOString (timeMs : Rat) : Except ListError Text :=
  if 8640000000000000 < |timeMs| then .error (.rangeError (text "Invalid time value"))
  else
    let ms := timeMs.num.tdiv timeMs.den
    let (year, month, day) := calendar (ms / 86400000)
    let ofDay := (ms % 86400000).toNat
    let yearText := if 0 ≤ year ∧ year ≤ 9999 then padded 4 year.toNat else (if year < 0 then 45 else 43) :: padded 6 year.natAbs
    .ok (yearText ++ text "-" ++ padded 2 month ++ text "-" ++ padded 2 day ++ text "T" ++ padded 2 (ofDay / 3600000) ++ text ":" ++
      padded 2 (ofDay / 60000 % 60) ++ text ":" ++ padded 2 (ofDay / 1000 % 60) ++ text "." ++ padded 3 (ofDay % 1000) ++ text "Z")

example : toISOString 951782400999 = .ok (text "2000-02-29T00:00:00.999Z") := by decide

/-! ## Rows -/

structure SessionRef where
  projectId : Text
  sessionId : Text
  stem : Text

structure ActorMetadata where
  isStreaming : Bool
  name : Option Text
  messageCount : Option Nat
  firstMessageText : Option Text
  lastMessageText : Option Text
  lastActivityAt : Option Text

structure CatalogLiveEntry where
  ref : SessionRef
  metadata : ActorMetadata

structure FileMeta where
  sessionId : Text
  name : Option Text
  firstMessageText : Option Text
  lastMessageText : Option Text
  lastActivityAt : Option Text
  messageCount : Option Nat

structure ScanEntry where
  stem : Text
  abs : Text
  sortTimeMs : Rat
  active : Option CatalogLiveEntry

structure SessionInfo where
  projectId : Text
  sessionId : Text
  stem : Text
  active : Bool
  isStreaming : Bool
  name : Option Text
  timestamp : Text
  firstMessageText : Option Text
  lastMessageText : Option Text
  lastActivityAt : Option Text
  messageCount : Option Nat
deriving DecidableEq, Inhabited

/-- What the catalog reads. -/
structure Catalog where
  /-- `scan` of a project; there may be none of that ID. -/
  scan : Text → Option (List ScanEntry)
  existsSync : Text → Bool
  readFileMeta : Text → Option FileMeta

def Catalog.toSessionInfo (catalog : Catalog) (projectId : Text) (entry : ScanEntry) : Except ListError SessionInfo := do
  let fileMeta := if catalog.existsSync entry.abs then catalog.readFileMeta entry.abs else none
  let timestamp ← toISOString entry.sortTimeMs
  if fileMeta.isNone && entry.active.isNone then
    -- An unreadable file is a row still.
    return ⟨projectId, entry.stem, entry.stem, false, false, none, timestamp, none, none, none, none⟩
  else
    let liveMeta := entry.active.map (·.metadata)
    return {
      projectId
      sessionId := ((fileMeta.map (·.sessionId)).or (entry.active.map (·.ref.sessionId))).getD entry.stem
      stem := entry.stem
      active := entry.active.isSome
      isStreaming := liveMeta.any (·.isStreaming)
      name := (fileMeta.bind (·.name)).or (liveMeta.bind (·.name))
      timestamp
      firstMessageText := (fileMeta.bind (·.firstMessageText)).or (liveMeta.bind (·.firstMessageText))
      lastMessageText := (liveMeta.bind (·.lastMessageText)).or (fileMeta.bind (·.lastMessageText))
      lastActivityAt := (liveMeta.bind (·.lastActivityAt)).or (fileMeta.bind (·.lastActivityAt))
      messageCount := (fileMeta.bind (·.messageCount)).or (liveMeta.bind (·.messageCount)) }

/-! ## Pages -/

structure SessionListCursor where
  sortTimeMs : Rat
  stem : Text
deriving DecidableEq

structure SessionPage where
  sessions : List SessionInfo
  hasMore : Bool
  nextCursor : Option SessionListCursor
deriving DecidableEq

namespace ScanEntry

/-- The comparison of the sort. -/
def compare (a b : ScanEntry) : Rat :=
  if a.sortTimeMs ≠ b.sortTimeMs then b.sortTimeMs - a.sortTimeMs
  else if a.stem = b.stem then 0
  else if Text.less a.stem b.stem then 1
  else -1

def le (a b : ScanEntry) : Bool := a.compare b ≤ 0

/-- The filter of a cursor. -/
def after (cursor : SessionListCursor) (e : ScanEntry) : Bool :=
  e.sortTimeMs < cursor.sortTimeMs || (e.sortTimeMs = cursor.sortTimeMs && Text.less e.stem cursor.stem)

def cursor (last : ScanEntry) : SessionListCursor := ⟨last.sortTimeMs, last.stem⟩

end ScanEntry

namespace Catalog

variable (catalog : Catalog) (projectId : Text)

def listSessions (max : Option Int) (cursor : Option SessionListCursor) : Except ListError SessionPage :=
  match catalog.scan projectId with
  | none => .error (.error (text "Unknown project: " ++ projectId))
  | some all => do
    let all := all.mergeSort ScanEntry.le
    let after := cursor.elim all fun cursor => all.filter (ScanEntry.after cursor)
    let limit := (max.filter (0 < ·)).elim after.length Int.toNat
    let sliced := after.take limit
    let sessions ← sliced.mapM (catalog.toSessionInfo projectId)
    return ⟨sessions, sliced.length < after.length, sliced.getLast?.map ScanEntry.cursor⟩

/-- The Sessions of the pages that follow a cursor, until there are no more; `none` when that takes more pages. -/
def follow : Nat → (Nat → Int) → Option SessionListCursor → Except ListError (Option (List SessionInfo))
  | 0, _, _ => return none
  | pages + 1, sizes, cursor => do
    let page ← catalog.listSessions projectId (some (sizes 0)) cursor
    if page.hasMore then
      let rest ← follow pages (fun n => sizes (n + 1)) page.nextCursor
      return rest.map (page.sessions ++ ·)
    else return some page.sessions

end Catalog

end PiBridge.SessionCatalog
