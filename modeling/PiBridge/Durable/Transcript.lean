import Mathlib
import PiBridge.Lib.Steps

/-!
# `Durable.Transcript` — what a client has of one conversation

A client merges the windows of a view, and pages in what they leave out (`Transcript.cover`). It holds entries, a known
range `(low, tail]`, and gaps inside it; the items it renders are built from the three. A load works with the bounds it
was called with, however much the transcript has changed when its page arrives.

## Contents
- `Transcript`, `cover`, `subtractGap`, `build`: the client's state and what one range changes.
- `merge`, `earlierPage`, `fillPage`: the three ranges that are covered.
- `TranscriptSystem`, `Step`: a conversation that grows, the views merged, and the loads in flight.

`⊥` is the source's `-Infinity`.
-/

namespace PiBridge.Durable

open Lib

/-- Bounds are compared by the order of `ℤ` itself, so that a comparison is computed. -/
instance boundOrder : LinearOrder (WithBot ℤ) := @WithBot.linearOrder ℤ Int.instLinearOrder

instance boundPreorder : Preorder (WithBot ℤ) := @PartialOrder.toPreorder _ (@LinearOrder.toPartialOrder _ (@WithBot.linearOrder ℤ Int.instLinearOrder))

variable {V : Type}

/-- An entry: its ID, and the rest of its record. -/
structure TranscriptEntry (V : Type) where
  id : ℤ
  rest : V

/-- Entries strictly between `after` and `upTo` are missing. -/
structure Gap where
  after : ℤ
  upTo : ℤ
deriving DecidableEq

/-- One row of a client's transcript. -/
inductive TranscriptItem (V : Type) where
  | entry (entry : TranscriptEntry V)
  | gap (gap : Gap)
  | earlier

/-- The value of a view, as far as the transcript reads it. -/
structure WindowView (V : Type) where
  entries : List (TranscriptEntry V)
  /-- The entry just before the window. -/
  before : Option ℤ

/-- A page of entries; `next`: it comes with a cursor. -/
structure EntryPage (V : Type) where
  items : List (TranscriptEntry V)
  next : Bool

/-- What of a conversation is known. -/
structure KnownRange where
  /-- Gaps in ID order. -/
  gaps : List Gap
  /-- Whether anything was merged yet. -/
  started : Bool
  /-- Exclusive lower bound. -/
  low : WithBot ℤ
  /-- Inclusive upper bound. -/
  tail : WithBot ℤ

structure Transcript (V : Type) extends KnownRange where
  /-- Every entry held, in ID order. -/
  entries : List (TranscriptEntry V)
  ids : List ℤ
  items : List (TranscriptItem V)
  /-- Which array `items` is: arrays are counted as they are built. -/
  array : ℕ

/-! ## Items -/

/-- Entries with each gap before the entry after it. -/
def interleave : List Gap → List (TranscriptEntry V) → List (TranscriptItem V)
  | gaps, [] => gaps.map .gap
  | gaps, entry :: entries =>
    (gaps.takeWhile fun gap => decide (gap.after < entry.id)).map .gap ++
      .entry entry :: interleave (gaps.dropWhile fun gap => decide (gap.after < entry.id)) entries

/-- Items in ID order: "earlier" until the start is known, then entries and gaps. -/
def build (low : WithBot ℤ) (gaps : List Gap) (entries : List (TranscriptEntry V)) : List (TranscriptItem V) :=
  if low = ⊥ then interleave gaps entries else .earlier :: interleave gaps entries

/-! ## Ranges -/

/-- The first entry past a bound. -/
def firstPast (entries : List (TranscriptEntry V)) (bound : WithBot ℤ) : Option ℤ :=
  (entries.find? fun entry => decide (bound < entry.id)).map (·.id)

/-- IDs a gap misses are in `(lo, hi]`. -/
def Gap.overlaps (lo hi : WithBot ℤ) (gap : Gap) : Bool := !(decide (hi ≤ gap.after) || decide ((gap.upTo : WithBot ℤ) ≤ lo + 1))

/-- What `(lo, hi]` leaves of a gap. -/
def subtractGap (entries : List (TranscriptEntry V)) (lo hi : WithBot ℤ) (gap : Gap) : List Gap :=
  if gap.overlaps lo hi then
    -- Missing: IDs in (after, upTo); known now: IDs in (lo, hi]. A bound past `after` is finite.
    (if (gap.after : WithBot ℤ) < lo then [⟨gap.after, min gap.upTo ((firstPast entries lo).getD (lo.unbotD 0 + 1))⟩] else []) ++
      if hi + 1 < gap.upTo then [⟨hi.unbotD 0, gap.upTo⟩] else []
  else [gap]

/-- The gaps without `(lo, hi]`, and whether any of them changed. -/
def subtract (gaps : List Gap) (entries : List (TranscriptEntry V)) (lo hi : WithBot ℤ) : List Gap × Bool :=
  if hi ≤ lo then (gaps, false)
  else if gaps.any (Gap.overlaps lo hi) then (gaps.flatMap (subtractGap entries lo hi), true)
  else (gaps, false)

/-- The known range with `(lo, hi]`, and whether the items are built anew. `first` is the first entry in it. -/
def KnownRange.extend (range : KnownRange) (held entries : List (TranscriptEntry V)) (lo hi : WithBot ℤ) (first : Option ℤ) : KnownRange × Bool :=
  if !range.started || (held.isEmpty && range.gaps.isEmpty && decide (range.tail ≤ lo)) then
    -- The first range, or one after an empty transcript: it is all the client knows.
    (⟨range.gaps, true, lo, max range.tail hi⟩, !range.started || decide (lo ≠ range.low))
  else if range.tail < lo then
    -- Past the newest known ID: what lies between is missing.
    ({ range with gaps := range.gaps ++ [⟨range.tail.unbotD 0, first.getD (lo.unbotD 0 + 1)⟩], tail := hi }, true)
  else if hi ≠ ⊥ ∧ hi < range.low then
    -- Below the oldest known ID: what lies between is missing.
    ({ range with gaps := ⟨hi.unbotD 0, (firstPast held hi).getD (range.low.unbotD 0 + 1)⟩ :: range.gaps, low := lo }, true)
  else
    let (gaps, changed) := subtract range.gaps entries lo hi
    ({ range with gaps, low := min range.low lo, tail := max range.tail hi }, changed || decide (lo < range.low))

/-- Two lists in ID order merged in one pass. -/
def mergeById (left right : List (TranscriptEntry V)) : List (TranscriptEntry V) := left.merge right fun l r => decide (l.id < r.id)

namespace Transcript

variable (t : Transcript V)

def empty : Transcript V where
  gaps := []
  started := false
  low := ⊥
  tail := ⊥
  entries := []
  ids := []
  items := []
  array := 0

/-- The entries among `added` that are not held. -/
def fresh (added : List (TranscriptEntry V)) : List (TranscriptEntry V) := added.filter fun entry => decide (entry.id ∉ t.ids)

/-- New entries lie past every held one: the items grow at their end. -/
def appends (fresh : List (TranscriptEntry V)) : Bool :=
  match t.entries.getLast?, fresh.head? with
  | some last, some first => decide (last.id < first.id)
  | _, _ => true

/-- The entries held, with new ones. -/
def joined (fresh : List (TranscriptEntry V)) : List (TranscriptEntry V) :=
  if t.appends fresh then t.entries ++ fresh else mergeById t.entries fresh

/-- The known range with `(lo, hi]`, and whether the items are built anew. -/
def extended (lo hi : WithBot ℤ) (added : List (TranscriptEntry V)) : KnownRange × Bool :=
  t.extend t.entries (t.joined (t.fresh added)) lo hi (added.head?.map (·.id))

/-- Record that every entry with an ID in `(lo, hi]` is known, `added` being those entries in ID order. -/
def cover (lo hi : WithBot ℤ) (added : List (TranscriptEntry V)) : Transcript V :=
  let fresh := t.fresh added
  let entries := t.joined fresh
  let (range, rebuild) := t.extended lo hi added
  let (items, array) :=
    if rebuild || !t.appends fresh then (build range.low range.gaps entries, t.array + 1)
    else if fresh.isEmpty then (t.items, t.array)
    else (t.items ++ fresh.map .entry, t.array + 1)
  { toKnownRange := range, entries, ids := t.ids ++ fresh.map (·.id), items, array }

/-- The ID the transcript reaches. -/
def newest : Option ℤ := t.tail

/-- Take one value of the view: its window's entries join the transcript. -/
def merge (view : WindowView V) : Transcript V :=
  let before : WithBot ℤ := view.before
  let hi : WithBot ℤ := (view.entries.getLast?.map (·.id)).or view.before
  t.cover before hi view.entries

/-- The page of a load of what is before `low` arrives. -/
def earlierPage (low : ℤ) (page : EntryPage V) : Transcript V :=
  let items := page.items.reverse
  match page.next, items.head? with
  | true, some oldest => t.cover (oldest.id - 1 : ℤ) low items
  -- No next page, or an empty one: the transcript starts here.
  | _, _ => t.cover ⊥ low items

/-- The page of a load of a gap arrives. -/
def fillPage (gap : Gap) (page : EntryPage V) : Transcript V :=
  match page.next, page.items.getLast? with
  | true, some newest => t.cover gap.after newest.id page.items
  -- No next page, or an empty one: nothing else is missing.
  | _, _ => t.cover gap.after (gap.upTo - 1 : ℤ) page.items

/-- The gap a descriptor stands for now: itself, or a gap it has shrunk into. -/
def current (gap : Gap) : Option Gap :=
  (t.gaps.find? fun each => each = gap).or (t.gaps.find? fun each => decide (each.after < gap.upTo) && decide (gap.after < each.upTo))

end Transcript

/-! ## Views and pages of a conversation -/

/-- The window of a conversation that starts with its entry at `start`. -/
def windowOf (conversation : List (TranscriptEntry V)) (start : ℕ) : WindowView V :=
  ⟨conversation.drop start, (conversation.take start).getLast?.map (·.id)⟩

/-- A query: the entries between two bounds, in ID order or newest first. -/
structure RangeQuery where
  minEntryId : Option ℤ
  maxEntryId : ℤ
  descending : Bool

def RangeQuery.matching (query : RangeQuery) (conversation : List (TranscriptEntry V)) : List (TranscriptEntry V) :=
  let found := conversation.filter fun entry => query.minEntryId.all (fun least => decide (least ≤ entry.id)) && decide (entry.id ≤ query.maxEntryId)
  if query.descending then found.reverse else found

/-- A page answers a query: it holds the first of what matches, is empty only where nothing does, and comes without a
    cursor only where it holds all. -/
structure EntryPage.Answers (page : EntryPage V) (matching : List (TranscriptEntry V)) (limit : ℕ) : Prop where
  starts : page.items <+: matching
  bounded : page.items.length ≤ limit
  empty : page.items = [] → matching = []
  whole : page.next = false → page.items = matching

def earlierQuery (low : ℤ) : RangeQuery := ⟨none, low, true⟩

def fillQuery (gap : Gap) : RangeQuery := ⟨some (gap.after + 1), gap.upTo - 1, false⟩

/-! ## Runs -/

/-- A load in flight: the bounds it was called with, how much of the conversation there was then, and whether its page has
    arrived (or it failed) and its promise has yet to settle. -/
structure EntryLoad (B : Type) where
  bounds : B
  since : ℕ
  answered : Bool

/-- A client and its conversation. -/
structure TranscriptSystem (V : Type) where
  transcript : Transcript V
  earlier : Option (EntryLoad ℤ)
  filling : List (EntryLoad Gap)
  conversation : List (TranscriptEntry V)
  /-- How much of the conversation the newest merged view knew. -/
  seen : ℕ

inductive TranscriptLabel (V : Type) where
  | grows (entries : List (TranscriptEntry V))
  | merges (view : WindowView V)
  | callsEarlier
  | earlierArrives (page : EntryPage V)
  | earlierFails
  | earlierSettles
  | callsFill (gap : Gap)
  | fillArrives (gap : Gap) (page : EntryPage V)
  | fillFails (gap : Gap)
  | fillSettles (gap : Gap)

namespace TranscriptLabel

def isMerge : TranscriptLabel V → Bool
  | merges _ => true
  | _ => false

def isCall : TranscriptLabel V → Bool
  | callsEarlier | callsFill _ => true
  | _ => false

end TranscriptLabel

namespace TranscriptSystem

/-- A client before its first view. -/
def opened (conversation : List (TranscriptEntry V)) : TranscriptSystem V := ⟨.empty, none, [], conversation, 0⟩

variable (sys : TranscriptSystem V)

/-- `loadEarlier()`: concurrent calls share one load. -/
def callEarlier : TranscriptSystem V :=
  if !sys.transcript.started then sys
  else
    match sys.transcript.low, sys.earlier with
    | some low, none => { sys with earlier := some ⟨low, sys.conversation.length, false⟩ }
    | _, _ => sys

/-- `fillGap()`: calls for the same gap share one load. -/
def callFill (gap : Gap) : TranscriptSystem V :=
  match sys.transcript.current gap with
  | none => sys
  | some current =>
    if sys.filling.any fun load => decide (load.bounds = current) then sys
    else { sys with filling := sys.filling ++ [⟨current, sys.conversation.length, false⟩] }

/-- The load of a gap has its page, or has failed. -/
def answerFill (gap : Gap) : TranscriptSystem V :=
  { sys with filling := sys.filling.map fun load => if load.bounds = gap then { load with answered := true } else load }

/-- One step. Views are merged in increasing currency; a page may be of any state of the conversation since its load was
    called. -/
inductive Step (limit : ℕ) : TranscriptSystem V → TranscriptLabel V → TranscriptSystem V → Prop where
  | grows {sys : TranscriptSystem V} {entries : List (TranscriptEntry V)}
      (hsorted : (sys.conversation ++ entries).Pairwise fun e e' => e.id < e'.id) :
      Step limit sys (.grows entries) { sys with conversation := sys.conversation ++ entries }
  | merges {sys : TranscriptSystem V} {known start : ℕ} (hcurrent : sys.seen ≤ known) (hknown : known ≤ sys.conversation.length)
      (hstart : start ≤ known) :
      Step limit sys (.merges (windowOf (sys.conversation.take known) start))
        { sys with transcript := sys.transcript.merge (windowOf (sys.conversation.take known) start), seen := known }
  | callsEarlier {sys : TranscriptSystem V} : Step limit sys .callsEarlier sys.callEarlier
  | earlierArrives {sys : TranscriptSystem V} {low : ℤ} {since known : ℕ} {page : EntryPage V} (hload : sys.earlier = some ⟨low, since, false⟩)
      (hsince : since ≤ known) (hanswers : page.Answers ((earlierQuery low).matching (sys.conversation.take known)) limit) :
      Step limit sys (.earlierArrives page) { sys with transcript := sys.transcript.earlierPage low page, earlier := some ⟨low, since, true⟩ }
  | earlierFails {sys : TranscriptSystem V} {low : ℤ} {since : ℕ} (hload : sys.earlier = some ⟨low, since, false⟩) :
      Step limit sys .earlierFails { sys with earlier := some ⟨low, since, true⟩ }
  | earlierSettles {sys : TranscriptSystem V} {low : ℤ} {since : ℕ} (hload : sys.earlier = some ⟨low, since, true⟩) :
      Step limit sys .earlierSettles { sys with earlier := none }
  | callsFill {sys : TranscriptSystem V} {gap : Gap} : Step limit sys (.callsFill gap) (sys.callFill gap)
  | fillArrives {sys : TranscriptSystem V} {gap : Gap} {since known : ℕ} {page : EntryPage V} (hload : ⟨gap, since, false⟩ ∈ sys.filling)
      (hsince : since ≤ known) (hanswers : page.Answers ((fillQuery gap).matching (sys.conversation.take known)) limit) :
      Step limit sys (.fillArrives gap page) { sys.answerFill gap with transcript := sys.transcript.fillPage gap page }
  | fillFails {sys : TranscriptSystem V} {gap : Gap} {since : ℕ} (hload : ⟨gap, since, false⟩ ∈ sys.filling) :
      Step limit sys (.fillFails gap) (sys.answerFill gap)
  | fillSettles {sys : TranscriptSystem V} {gap : Gap} {since : ℕ} (hload : ⟨gap, since, true⟩ ∈ sys.filling) :
      Step limit sys (.fillSettles gap) { sys with filling := sys.filling.filter fun load => decide (load.bounds ≠ gap) }

end TranscriptSystem

end PiBridge.Durable
