import PiBridge.Durable.ContextReads
import PiBridge.Lib.Recent

/-!
# `Durable.Tails` — the newest entry and head marker of each recently used conversation

`ConversationTails` is kept current from the Session's commits. A value it does not have is read from Storage and kept,
where no newer entry can change it.

A batch is admitted on the line, then stored, then published, in this order for all batches. A read is made on the line
once no unpublished batch touches the conversation, and while it is under way none that does is admitted. Storage is read
at some moment in between; other batches may be stored and published meanwhile.
-/

namespace PiBridge.Durable

open Lib

variable {V O : Type}

/-! ## `ConversationTails` -/

/-- `LATEST_CAPACITY` -/
def latestCapacity : Nat := 4096

/-- `MARKER_CAPACITY` -/
def markerCapacity : Nat := 256

structure ConversationTails (V : Type) where
  /-- Newest entry ID per conversation, `none` for none. -/
  latest : Assoc ConversationId (Option EntryId)
  /-- Newest head marker per conversation, `none` for none. -/
  markers : Assoc ConversationId (Option (HeadMarker V))

namespace ConversationTails

def empty : ConversationTails V := ⟨[], []⟩

variable (tails : ConversationTails V)

/-- `latest`, up to where it reads: what is known. -/
def askLatest (id : ConversationId) : Option (Option EntryId) × ConversationTails V :=
  let (known, latest) := Recent.use tails.latest id
  (known, { tails with latest })

/-- The rest of `latest`. -/
def keepLatest (id : ConversationId) (found : Option EntryId) : ConversationTails V :=
  { tails with latest := Recent.put latestCapacity tails.latest id found }

/-- The newest entry ID if known. -/
def peek (id : ConversationId) : Option (Option EntryId) := Assoc.get? tails.latest id

/-- `marker`, up to where it reads. The newest marker answers every cutoff at or after it, and no marker every cutoff. -/
def askMarker (id : ConversationId) (atOrBefore : Option EntryId) : Option (Option (HeadMarker V)) × ConversationTails V :=
  let (known, markers) := Recent.use tails.markers id
  let used := { tails with markers }
  match known with
  | none => (none, used)
  | some none => (some none, used)
  | some (some marker) =>
    if atOrBefore.all fun cutoff => decide (marker.entry.id ≤ cutoff) then (some (some marker), used) else (none, used)

/-- Whether no newer entry can change what was read; `latest` is what was known before. -/
def keeps (atOrBefore : Option EntryId) (latest : Option (Option EntryId)) : Bool :=
  match atOrBefore with
  | none => true
  | some cutoff => latest.any fun latest => decide (latest.getD 0 ≤ cutoff)

/-- The rest of `marker`. -/
def keepMarker (id : ConversationId) (atOrBefore : Option EntryId) (latest : Option (Option EntryId))
    (found : Option (HeadMarker V)) : ConversationTails V :=
  if keeps atOrBefore latest then { tails with markers := Recent.put markerCapacity tails.markers id found } else tails

/-- One write of a published batch. -/
def applyWrite : StorageWrite (EntryContent V) O → ConversationTails V
  | .conversation record =>
    -- A new root conversation sees no entries; a fork sees its parent's up to the fork point.
    if record.parent.isSome then tails
    else
      { latest := Recent.put latestCapacity tails.latest record.id none
        markers := Recent.put markerCapacity tails.markers record.id none }
  | .entry entry =>
    let latest := Recent.put latestCapacity tails.latest entry.conversationId (some entry.id)
    match HeadMarker.of? entry with
    | none => { tails with latest }
    | some marker => { latest, markers := Recent.put markerCapacity tails.markers entry.conversationId (some marker) }
  | _ => tails

/-- `apply`, at a commit's publication. -/
def apply (writes : List (StorageWrite (EntryContent V) O)) : ConversationTails V := writes.foldl applyWrite tails

end ConversationTails

/-! ## Reads of a Session -/

/-- What `findLatestHeadMarker` finds: the newest visible head marker, at or before a cutoff if there is one. -/
def Storage.findLatestHeadMarker (s : Storage (EntryContent V) O) (id : ConversationId) : Option EntryId → Option (HeadMarker V)
  | none => ((s.visibleEntries id).filterMap HeadMarker.of?).getLast?
  | some cutoff => s.latestHeadMarker id cutoff

/-- Whether a write creates a conversation or appends to it. -/
def touches (id : ConversationId) : StorageWrite V O → Bool
  | .conversation record => record.id = id
  | .entry record => record.conversationId = id
  | _ => false

/-- A read that was not answered from what is known. -/
inductive TailsRead (V : Type) where
  | latest (id : ConversationId)
  | latestFound (id : ConversationId) (found : Option EntryId)
  | marker (id : ConversationId) (atOrBefore : Option EntryId) (latest : Option (Option EntryId))
  | markerFound (id : ConversationId) (atOrBefore : Option EntryId) (latest : Option (Option EntryId))
      (found : Option (HeadMarker V))

def TailsRead.id : TailsRead V → ConversationId
  | .latest id | .latestFound id _ | .marker id _ _ | .markerFound id _ _ _ => id

structure TailsSystem (V O : Type) where
  /-- Storage after the published batches. -/
  published : Storage (EntryContent V) O
  /-- Batches that are stored and not yet published, oldest first. -/
  stored : List (List (StorageWrite (EntryContent V) O))
  /-- Batches that are admitted and not yet stored. -/
  admitted : List (List (StorageWrite (EntryContent V) O))
  tails : ConversationTails V
  reads : List (TailsRead V)

inductive TailsLabel (V O : Type) where
  | admits (writes : List (StorageWrite (EntryContent V) O))
  | store
  | publish
  | latest (id : ConversationId)
  | marker (id : ConversationId) (atOrBefore : Option EntryId)
  /-- Storage answers a read. -/
  | scan (read : Nat)
  | finish (read : Nat)
  /-- The read failed. -/
  | abandon (read : Nat)

namespace TailsSystem

def empty : TailsSystem V O := ⟨Storage.empty, [], [], .empty, []⟩

variable (sys : TailsSystem V O)

/-- What Storage holds. -/
def storage : Storage (EntryContent V) O := sys.published.applyAll sys.stored.flatten

/-- The writes that are not published. -/
def unpublished : List (StorageWrite (EntryContent V) O) := sys.stored.flatten ++ sys.admitted.flatten

/-- Whether a conversation can be read: it is stored, and no unpublished write touches it. -/
def Readable (id : ConversationId) : Prop := (sys.storage.conversation id).isSome ∧ ∀ write ∈ sys.unpublished, touches id write = false

/-- What may happen: a batch keeps the promises of a Session, and touches no conversation that is being read. -/
def Allowed : TailsLabel V O → Prop
  | .admits writes =>
    (sys.published.applyAll sys.unpublished).BatchOk writes ∧ ∀ read ∈ sys.reads, ∀ write ∈ writes, touches read.id write = false
  | .latest id => sys.Readable id
  | .marker id _ => sys.Readable id
  | _ => True

/-- What a read finds in Storage. -/
def scanned : TailsRead V → TailsRead V
  | .latest id => .latestFound id (sys.storage.latestEntryId id)
  | .marker id atOrBefore latest => .markerFound id atOrBefore latest (sys.storage.findLatestHeadMarker id atOrBefore)
  | read => read

/-- What is kept of a read that Storage answered. -/
def kept (tails : ConversationTails V) : TailsRead V → ConversationTails V
  | .latestFound id found => tails.keepLatest id found
  | .markerFound id atOrBefore latest found => tails.keepMarker id atOrBefore latest found
  | _ => tails

def step : TailsLabel V O → TailsSystem V O
  | .admits writes => { sys with admitted := sys.admitted ++ [writes] }
  | .store =>
    match sys.admitted with
    | [] => sys
    | writes :: admitted => { sys with stored := sys.stored ++ [writes], admitted }
  | .publish =>
    match sys.stored with
    | [] => sys
    | writes :: stored => { sys with published := sys.published.applyAll writes, stored, tails := sys.tails.apply writes }
  | .latest id =>
    match sys.tails.askLatest id with
    | (some _, tails) => { sys with tails }
    | (none, tails) => { sys with tails, reads := sys.reads ++ [.latest id] }
  | .marker id atOrBefore =>
    match sys.tails.askMarker id atOrBefore with
    | (some _, tails) => { sys with tails }
    | (none, tails) => { sys with tails, reads := sys.reads ++ [.marker id atOrBefore (tails.peek id)] }
  | .scan k =>
    match sys.reads[k]? with
    | none => sys
    | some read => { sys with reads := sys.reads.set k (sys.scanned read) }
  | .finish k =>
    match sys.reads[k]? with
    | none => sys
    | some read => { sys with tails := kept sys.tails read, reads := sys.reads.eraseIdx k }
  | .abandon k => { sys with reads := sys.reads.eraseIdx k }

end TailsSystem

end PiBridge.Durable
