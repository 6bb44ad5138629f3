import PiBridge.Core.Event
import PiBridge.Core.Stats
import PiBridge.Lib.Steps

/-!
# `Core.Projection` — live forms and persisted entries become a document

The state machine of the entry projection: the document, the live forms in creation order, and the
bookkeeping of the last read of pi's list (`piLeaf`, `position`, `version`, the cached selected path).

An operation returns the next state and the patch it emits, if any. Two loops of the source follow parent
links and end only if the links do; where one does not, the operation returns `none`.
-/

namespace PiBridge

open Js Js.Value Lib

/-- One synchronous read of pi's entry list. -/
structure EntrySnapshot where
  entries : List SessionEntry
  next : Nat
  leafId : Option String
  version : Nat

/-- The state behind an entry projection. -/
structure Projection where
  document : Document
  /-- Live forms by id, in creation order. -/
  live : List String
  /-- pi's leaf as of the last refresh. -/
  piLeaf : Option String
  position : Nat
  version : Option Nat
  /-- pi's selected path, cached per leaf. -/
  selectedPath : Option (Option String × List String)
deriving DecidableEq

/-- `createEntryProjection`. -/
def createEntryProjection (document : Document) : Projection :=
  { document, live := [], piLeaf := none, position := 0, version := none, selectedPath := none }

/-- What an operation does: the next state and the emitted patch, or no return at all. -/
abbrev Outcome := Option (Projection × Option Patch)

namespace Projection

/-- `emit`. -/
def emit (p : Projection) (ops : Patch) : Projection × Option Patch :=
  match ops with
  | [] => (p, none)
  | _ => ({ p with document := applyPatch p.document ops }, some ops)

/-! ## The effective leaf -/

/-- One step along pi's selected path: an entry that is there leads to its parent. -/
def selectedNext (entries : Obj) (cursor : String) : Option (Option String) := (entries.get? cursor).map parentIdOf

/-- pi's leaf and its ancestors, the last of which may be missing. -/
def selectedIds (entries : Obj) (piLeaf : Option String) : Option (List String) :=
  (follow (selectedNext entries) (entries.length + 1) piLeaf).map fun r => r.1 ++ r.2.toList

/-- `selectedPathOf`: from the cache if it is about this leaf, else computed and cached. -/
def selectedPathOf (p : Projection) (entries : Obj) : Option (Projection × List String) :=
  match p.selectedPath with
  | some (leaf, ids) =>
    if leaf = p.piLeaf then some (p, ids) else compute
  | none => compute
where
  /-- Walk the path and cache it. -/
  compute : Option (Projection × List String) :=
    (selectedIds entries p.piLeaf).map fun ids => ({ p with selectedPath := some (p.piLeaf, ids) }, ids)

/-- One step up from a live form. -/
def liveNext (live : List String) (entries : Obj) (cursor : String) : Option (Option String) :=
  if cursor ∈ live then some ((entries.get? cursor).bind parentIdOf) else none

/-- The first cursor above `id` that is not a live form, if the chain gets there. -/
def firstSealed (live : List String) (entries : Obj) (id : String) : Option (Option String) :=
  (follow (liveNext live entries) (live.length + 1) (some id)).map (·.2)

/-- The first of `ids` whose chain of live forms reaches the selected path. -/
def findAttached (live : List String) (entries : Obj) (selected : List String) : List String → Option (Option String)
  | [] => some none
  | id :: ids =>
    match firstSealed live entries id with
    | none => none
    | some none => findAttached live entries selected ids
    | some (some cursor) =>
      if cursor ∈ selected then some (some id) else findAttached live entries selected ids

/-- `effectiveLeaf`: the deepest live entry attached to pi's selected path, else pi's leaf. -/
def effectiveLeaf (p : Projection) (entries : Obj) : Option (Projection × Option String) :=
  if p.live = [] then some (p, p.piLeaf) else
    (p.selectedPathOf entries).bind fun (p', selected) =>
      (findAttached p.live entries selected p.live.reverse).map fun found => (p', found.or p.piLeaf)

/-- `leafOp`, as the operations it adds. -/
def leafOps (doc : Document) (leaf : Option String) : Patch :=
  if doc.leafId = leaf then [] else [.replace (statusPath "leafId") (nullable leaf)]

/-! ## Refresh -/

/-- The operations that install entries, the first at file position `ord`. -/
def installOps (ord : Nat) : List SessionEntry → Patch
  | [] => []
  | entry :: entries => .add (entryPath entry.id) (projectEntry entry ord) :: installOps (ord + 1) entries

/-- The operations that remove entries. -/
def removeOps (ids : List String) : Patch := ids.map fun id => .remove (entryPath id)

/-- Delete several keys. -/
def eraseAll (entries : Obj) (ids : List String) : Obj := ids.foldl Props.erase entries

/-- The ids a snapshot installs. -/
def snapshotIds (snapshot : EntrySnapshot) : List String := snapshot.entries.map fun e => e.id.val

/-- The list was replaced wholesale since the last refresh. -/
def isRewrite (p : Projection) (snapshot : EntrySnapshot) : Bool := p.version ≠ none ∧ p.version ≠ some snapshot.version

/-- The file position of the first entry of a snapshot. -/
def baseOf (p : Projection) (snapshot : EntrySnapshot) : Nat := if p.isRewrite snapshot then 0 else p.position

/-- Change one field of the status and record the operation. -/
def setStatus (s : Obj × Patch) (key : String) (value : Value) : Obj × Patch :=
  (s.1.set key value, s.2 ++ [PatchOp.replace (statusPath key) value])

/-- Stats describe the rendered branch: they move with an installed entry or with the selection. -/
def statsStep (doc : Document) (after : Obj) (leaf : Option String) (s : Obj × Patch) : Option (Obj × Patch) :=
  if s.2 ≠ [] ∨ doc.leafId ≠ leaf then
    (deriveStatsForEntries after leaf).map fun stats =>
      if stats.toJson ≠ (at_ doc.status "stats").toJson then setStatus s "stats" stats else s
  else some s

/-- An installed `session_info` is an authoritative rename. -/
def nameStep (snapshot : EntrySnapshot) (after : Obj) (s : Obj × Patch) : Obj × Patch :=
  if snapshot.entries.any fun entry => entry.type = .str "session_info" then
    let name := deriveSessionName after
    if name ≠ at_ s.1 "name" then setStatus s "name" name else s
  else s

/-- The selected leaf. -/
def leafStep (doc : Document) (leaf : Option String) (s : Obj × Patch) : Obj × Patch :=
  if doc.leafId ≠ leaf then setStatus s "leafId" (nullable leaf) else s

/-- The status after a refresh, with the operations so far. -/
def refreshStatus (doc : Document) (ops : Patch) (snapshot : EntrySnapshot) (after : Obj)
    (leaf : Option String) : Option (Obj × Patch) :=
  (statsStep doc after leaf (doc.status, ops)).map fun s => leafStep doc leaf (nameStep snapshot after s)

/-- The live forms after a refresh: those the snapshot did not install. -/
def refreshedLive (p : Projection) (snapshot : EntrySnapshot) : List String := p.live.filter (· ∉ snapshotIds snapshot)

/-- The entry map after a refresh, before removals. -/
def installedEntries (p : Projection) (snapshot : EntrySnapshot) : Obj := install p.document.entries (p.baseOf snapshot) snapshot.entries

/-- The ids a refresh removes: on a rewrite, all that are neither in the new list nor live. -/
def removedIds (p : Projection) (snapshot : EntrySnapshot) : List String :=
  if p.isRewrite snapshot then
    (p.installedEntries snapshot).keys.filter fun id =>
      id ∉ snapshotIds snapshot ∧ id ∉ p.refreshedLive snapshot
  else []

/-- The entry map after a refresh. -/
def refreshedEntries (p : Projection) (snapshot : EntrySnapshot) : Obj := eraseAll (p.installedEntries snapshot) (p.removedIds snapshot)

/-- The bookkeeping after a refresh. -/
def refreshedState (p : Projection) (snapshot : EntrySnapshot) : Projection :=
  { p with
    live := p.refreshedLive snapshot
    piLeaf := snapshot.leafId
    position := snapshot.next
    version := some snapshot.version
    selectedPath := if p.isRewrite snapshot then none else p.selectedPath }

/-- `refresh`: install authoritative entries, derive status, and select pi's leaf. -/
def refresh (p : Projection) (snapshot : EntrySnapshot) : Outcome := do
  let after := p.refreshedEntries snapshot
  let ops := installOps (p.baseOf snapshot) snapshot.entries ++ removeOps (p.removedIds snapshot)
  let (p', leaf) ← effectiveLeaf (p.refreshedState snapshot) after
  let (status, ops) ← refreshStatus p.document ops snapshot after leaf
  match ops with
  | [] => some (p', none)
  | ops => some ({ p' with document := { status, entries := after } }, some ops)

/-- `refreshFrom`: read from the position, or from zero if the list was replaced. -/
def refreshFrom (p : Projection) (read : Nat → EntrySnapshot) : Outcome :=
  let snapshot := read p.position
  if p.isRewrite snapshot then p.refresh (read 0) else p.refresh snapshot

/-! ## Events and settling -/

/-- `targetsSealed`: the event's target entry is already authoritative. -/
def targetsSealed (p : Projection) (event : SessionLifecycleEvent) : Bool :=
  match event.entryId with
  | none => false
  | some id =>
    match p.document.entry? id with
    | none => false
    | some entry => isEntrySealed entry

/-- The patch adds an entry under the event's id. -/
def creates (event : SessionLifecycleEvent) (ops : Patch) : Option EntryId :=
  event.entryId.filter fun id => ops.any fun
    | .add path _ => path = entryPath id
    | _ => false

/-- `live.add(id)`. -/
def addLive (live : List String) : Option EntryId → List String
  | none => live
  | some id => if id.val ∈ live then live else live ++ [id.val]

/-- `applyEvent`: never writes an entry that already sealed. -/
def applyEvent (p : Projection) (event : SessionLifecycleEvent) : Outcome :=
  if event.isContent && p.targetsSealed event then some (p, none) else
    match PiBridge.applyEvent p.document event with
    | none => some (p, none)
    | some ops =>
      (effectiveLeaf { p with live := addLive p.live (creates event ops) } p.document.entries).map
        fun (p', leaf) => p'.emit (ops ++ leafOps p.document leaf)

/-- The live forms that have an entry. -/
def settledIds (p : Projection) : List String := p.live.filter p.document.entries.has

/-- `settle`: remove live forms that have no authoritative entry. -/
def settle (p : Projection) : Outcome :=
  let after := eraseAll p.document.entries p.settledIds
  let p₁ := { p with live := [] }
  match removeOps p.settledIds with
  | [] => some (p₁, none)
  | ops => do
    let (p₂, leaf) ← effectiveLeaf p₁ after
    let stats ← deriveStatsForEntries after leaf
    some (p₂.emit (ops ++ [PatchOp.replace (statusPath "stats") stats] ++ leafOps p.document leaf))

end Projection

/-- An operation on a projection. -/
inductive Operation where
  | applyEvent (event : SessionLifecycleEvent)
  | refresh (snapshot : EntrySnapshot)
  | refreshFrom (read : Nat → EntrySnapshot)
  | settle

/-- Run an operation. -/
def Operation.run (p : Projection) : Operation → Outcome
  | applyEvent event => p.applyEvent event
  | refresh snapshot => p.refresh snapshot
  | refreshFrom read => p.refreshFrom read
  | settle => p.settle

/-- One step of a projection, labelled with the operation and the patch it emitted. -/
def ProjectionStep (p : Projection) (l : Operation × Option Patch) (p' : Projection) : Prop := l.1.run p = some (p', l.2)

/-- Run operations in order. -/
def runAll (p : Projection) : List Operation → Option Projection
  | [] => some p
  | op :: ops => (op.run p).bind fun r => runAll r.1 ops

/-- What `runAll` computes is a run. -/
theorem steps_of_runAll {p p' : Projection} {ops : List Operation} (h : runAll p ops = some p') : ∃ ls, Steps ProjectionStep p ls p' := by
  induction ops generalizing p with
  | nil => exact ⟨[], Option.some.inj h ▸ Steps.refl⟩
  | cons op ops ih =>
    obtain ⟨⟨p₁, out⟩, hop, h⟩ := Option.bind_eq_some_iff.mp h
    obtain ⟨ls, hls⟩ := ih h
    exact ⟨(op, out) :: ls, Steps.head hop hls⟩

end PiBridge
