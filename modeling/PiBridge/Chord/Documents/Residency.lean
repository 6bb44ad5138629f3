import PiBridge.Chord.Json
import PiBridge.Lib.Recent
import PiBridge.Lib.Steps

/-!
# `Chord.Documents.Residency` — which keyed documents are in memory

The keyed slots of one object and its residency. A slot has a resident for each document in memory, and a source for each
pinned key. A persisted document that nobody pinned is idle; a sweep evicts those that are idle for the retention.

A `Resident` is known by its slot, its key and its serial (`Ref`): two residents of one key are different objects. Keys are
what `key` leaves of them. `V` stands for the documents, `S` for what is stored of one. A load appears as the step in which
it installs what it read, a sweep as its job on the line. What the sources report to watches is left out.
-/

namespace PiBridge.Chord.Documents

open Lib

variable {V S : Type}

/-! ## `Residency` -/

/-- `RETENTION_MS` -/
def retention : Int := 600000

/-- `GRANULE_MS` -/
def granule : Int := min 1000 (retention / 10)

/-- A resident, as an object. -/
structure Ref where
  slot : Nat
  key : Text
  serial : Nat
deriving DecidableEq

/-- A pending sweep, as an object: when it is due. -/
structure Sweep where
  serial : Nat
  due : Int

structure Residency where
  /-- The idle residents, with when they were used last. -/
  idle : Assoc Ref Int
  sweep : Option Sweep
  ended : Bool
  /-- How many sweeps were scheduled. -/
  scheduled : Nat

namespace Residency

def new : Residency := ⟨[], none, false, 0⟩

variable (r : Residency)

/-- Schedules the eviction of the oldest idle document when its retention expires. -/
def schedule : Residency :=
  match r.idle with
  | [] => r
  | (_, since) :: _ =>
    if r.ended then r else { r with sweep := some ⟨r.scheduled, since + retention⟩, scheduled := r.scheduled + 1 }

/-- A sweep is scheduled unless one is pending. -/
def ensure : Residency := if r.sweep.isNone then r.schedule else r

/-- A use of an unpinned resident. -/
def touch (ref : Ref) (now : Int) : Residency :=
  -- A hot document moves at most once per granule.
  if (Assoc.get? r.idle ref).any fun since => decide (now - since < granule) then r
  else { r with idle := Assoc.erase r.idle ref ++ [(ref, now)] }.ensure

/-- A resident is pinned or left memory. -/
def forget (ref : Ref) : Residency := { r with idle := Assoc.erase r.idle ref }

/-- The object ended. -/
def endAll : Residency := { r with ended := true, idle := [], sweep := none }

/-- The idle residents whose retention passed, oldest first, and what is left; the next sweep is scheduled. -/
def evictExpired (now : Int) : List Ref × Residency :=
  if r.ended then ([], r)
  else
    let expired := now - retention
    let gone := r.idle.takeWhile fun p => decide (p.2 ≤ expired)
    (gone.map Prod.fst, { r with idle := r.idle.dropWhile fun p => decide (p.2 ≤ expired) }.ensure)

/-- The job of a scheduled sweep. -/
def runSweep (serial : Nat) (now : Int) : List Ref × Residency :=
  let r := if r.sweep.any fun sweep => decide (sweep.serial = serial) then { r with sweep := none } else r
  r.evictExpired now

end Residency

/-! ## Keyed slots -/

/-- One keyed document in memory. -/
structure Resident (V S : Type) where
  serial : Nat
  /-- The tracker's value. -/
  value : V
  stored : Option S
  /-- The definition version the value is at. -/
  version : Nat

/-- The source of a pinned key. -/
structure KeySource (V : Type) where
  serial : Nat
  pins : Nat
  ready : Bool
  initial : V

structure Definition (V : Type) where
  version : Nat
  initial : V
  /-- A value at an older version, migrated; `none` for a throw. -/
  migrate : V → Nat → Option V

structure KeyedSlot (V S : Type) where
  persisted : Bool
  definition : Definition V
  hydrated : Bool
  residents : Assoc Text (Resident V S)
  sources : Assoc Text (KeySource V)

/-- A release that `pin` returned. -/
structure Release where
  slot : Nat
  key : Text
  source : Nat
  released : Bool

/-- The documents of one object. A slot is known by its place; one that was dropped stays, without documents. -/
structure Documents (V S : Type) where
  slots : List (KeyedSlot V S)
  residency : Residency
  releases : List Release
  /-- How many residents and sources were made. -/
  made : Nat

namespace KeyedSlot

variable (slot : KeyedSlot V S)

def setResident (key : Text) (resident : Resident V S) : KeyedSlot V S := { slot with residents := Assoc.set slot.residents key resident }

def dropResident (key : Text) : KeyedSlot V S := { slot with residents := Assoc.erase slot.residents key }

def setSource (key : Text) (source : KeySource V) : KeyedSlot V S := { slot with sources := Assoc.set slot.sources key source }

def dropSource (key : Text) : KeyedSlot V S := { slot with sources := Assoc.erase slot.sources key }

/-- A pinned key is loaded. -/
def setReady (key : Text) : KeyedSlot V S :=
  match Assoc.get? slot.sources key with
  | none => slot
  | some source => slot.setSource key { source with ready := true }

/-- `#migrated`: a resident at the slot's version. -/
def migrated (resident : Resident V S) : Option (Resident V S) :=
  (slot.definition.migrate resident.value resident.version).map fun value =>
    { resident with value, version := slot.definition.version }

/-- `#resident`, of one that is there: migrated first when it is older; `none` for a throw. -/
def accessed (resident : Resident V S) : Option (Resident V S) :=
  if resident.version = slot.definition.version then some resident else slot.migrated resident

/-- The pinned keys' residents migrated, all or none. -/
def migratePinned : Option (Assoc Text (Resident V S)) :=
  slot.residents.mapM fun p =>
    if (Assoc.get? slot.sources p.1).isSome then (slot.migrated p.2).map fun resident => (p.1, resident) else some p

/-- `hydrate`, of a slot. -/
def hydrate (definition : Definition V) : KeyedSlot V S :=
  let next := { slot with definition, hydrated := true }
  if !slot.hydrated || slot.definition.version = definition.version then next
  else
    match next.migratePinned with
    | none => next
    | some residents =>
      { next with residents, sources := Assoc.mapValues (fun source => { source with initial := definition.initial }) slot.sources }

end KeyedSlot

namespace Documents

def new : Documents V S := ⟨[], .new, [], 0⟩

variable (d : Documents V S)

def setSlot (i : Nat) (slot : KeyedSlot V S) : Documents V S := { d with slots := d.slots.set i slot }

/-- `#touch`, of a slot: a use of a resident while unpinned. -/
def touch (i : Nat) (key : Text) (serial : Nat) (now : Int) : Documents V S :=
  match d.slots[i]? with
  | none => d
  | some slot =>
    if slot.persisted && (Assoc.get? slot.sources key).isNone then { d with residency := d.residency.touch ⟨i, key, serial⟩ now }
    else d

def forget (i : Nat) (key : Text) (serial : Nat) : Documents V S := { d with residency := d.residency.forget ⟨i, key, serial⟩ }

def declare (persisted : Bool) (definition : Definition V) : Documents V S :=
  { d with slots := d.slots ++ [⟨persisted, definition, false, [], []⟩] }

/-- A read of a document in memory. -/
def get (i : Nat) (key : Text) (now : Int) : Documents V S :=
  match d.slots[i]? with
  | none => d
  | some slot =>
    match Assoc.get? slot.residents key with
    | none => d
    | some resident =>
      match slot.accessed resident with
      | none => d
      | some resident => (d.setSlot i (slot.setResident key resident)).touch i key resident.serial now

/-- The end of `load`: what was read is installed while the key is absent from memory. -/
def load (i : Nat) (key : Text) (loaded : Option (V × S)) (now : Int) : Documents V S :=
  match d.slots[i]? with
  | none => d
  | some slot =>
    match loaded, Assoc.get? slot.residents key with
    | some (value, stored), none =>
      let resident : Resident V S := ⟨d.made, value, some stored, slot.definition.version⟩
      let d := { d with made := d.made + 1 }
      (d.setSlot i ((slot.setResident key resident).setReady key)).touch i key resident.serial now
    | _, _ => d.setSlot i (slot.setReady key)

def pin (i : Nat) (key : Text) : Documents V S :=
  match d.slots[i]? with
  | none => d
  | some slot =>
    let made : KeySource V := ⟨d.made, 0, !slot.persisted || (Assoc.get? slot.residents key).isSome, slot.definition.initial⟩
    let source := (Assoc.get? slot.sources key).getD made
    let pinned := (d.setSlot i (slot.setSource key { source with pins := source.pins + 1 }))
    let pinned := { pinned with made := d.made + 1, releases := d.releases ++ [⟨i, key, source.serial, false⟩] }
    match Assoc.get? slot.residents key with
    | none => pinned
    | some resident => pinned.forget i key resident.serial

/-- A release that `pin` returned runs. -/
def release (k : Nat) (now : Int) : Documents V S :=
  match d.releases[k]? with
  | none => d
  | some handle =>
    if handle.released then d
    else
      let d := { d with releases := d.releases.set k { handle with released := true } }
      match d.slots[handle.slot]? with
      | none => d
      | some slot =>
        match Assoc.get? slot.sources handle.key with
        | none => d
        | some source =>
          if source.serial ≠ handle.source then d
          else if 0 < source.pins - 1 then d.setSlot handle.slot (slot.setSource handle.key { source with pins := source.pins - 1 })
          else
            let d := d.setSlot handle.slot (slot.dropSource handle.key)
            match Assoc.get? slot.residents handle.key with
            | none => d
            | some resident => d.touch handle.slot handle.key resident.serial now

/-- A commit's value is adopted. -/
def adopt (i : Nat) (key : Text) (value : V) (stored : Option S) (now : Int) : Documents V S :=
  match d.slots[i]? with
  | none => d
  | some slot =>
    let version := slot.definition.version
    match Assoc.get? slot.residents key with
    | none =>
      let made := { d with made := d.made + 1 }
      (made.setSlot i (slot.setResident key ⟨d.made, value, stored, version⟩)).touch i key d.made now
    | some resident =>
      (d.setSlot i (slot.setResident key { resident with value, stored, version })).touch i key resident.serial now

def retire (i : Nat) (key : Text) : Documents V S :=
  match d.slots[i]? with
  | none => d
  | some slot =>
    match Assoc.get? slot.residents key with
    | none => d
    | some resident => (d.setSlot i (slot.dropResident key)).forget i key resident.serial

def drop (i : Nat) : Documents V S :=
  match d.slots[i]? with
  | none => d
  | some slot =>
    let residency := slot.residents.foldl (fun r p => r.forget ⟨i, p.1, p.2.serial⟩) d.residency
    { d.setSlot i { slot with residents := [], sources := [] } with residency }

def hydrate (i : Nat) (definition : Definition V) : Documents V S :=
  match d.slots[i]? with
  | none => d
  | some slot => d.setSlot i (slot.hydrate definition)

/-- `evict`, of a slot. -/
def evict (ref : Ref) : Documents V S :=
  match d.slots[ref.slot]? with
  | none => d
  | some slot =>
    match Assoc.get? slot.residents ref.key with
    | none => d
    | some resident => if resident.serial = ref.serial then d.setSlot ref.slot (slot.dropResident ref.key) else d

/-- The job of a scheduled sweep, on the line. -/
def sweep (serial : Nat) (now : Int) : Documents V S :=
  let (gone, residency) := d.residency.runSweep serial now
  gone.foldl evict { d with residency }

/-- The object ends: its residency, then every slot. -/
def endAll : Documents V S := (List.range d.slots.length).foldl drop { d with residency := d.residency.endAll }

end Documents

inductive Label (V S : Type) where
  | declare (persisted : Bool) (definition : Definition V)
  | get (slot : Nat) (key : Text)
  | load (slot : Nat) (key : Text) (loaded : Option (V × S))
  | pin (slot : Nat) (key : Text)
  | release (handle : Nat)
  | adopt (slot : Nat) (key : Text) (value : V) (stored : Option S)
  | retire (slot : Nat) (key : Text)
  | drop (slot : Nat)
  | hydrate (slot : Nat) (definition : Definition V)
  | sweep (serial : Nat)
  | endAll

def Documents.step (d : Documents V S) (now : Int) : Label V S → Documents V S
  | .declare persisted definition => d.declare persisted definition
  | .get slot key => d.get slot key now
  | .load slot key loaded => d.load slot key loaded now
  | .pin slot key => d.pin slot key
  | .release handle => d.release handle now
  | .adopt slot key value stored => d.adopt slot key value stored now
  | .retire slot key => d.retire slot key
  | .drop slot => d.drop slot
  | .hydrate slot definition => d.hydrate slot definition
  | .sweep serial => d.sweep serial now
  | .endAll => d.endAll

/-- The clock never goes back. -/
def Ticks (s : Documents V S × Int) (label : Int × Label V S) (s' : Documents V S × Int) : Prop :=
  s.2 ≤ label.1 ∧ s' = (s.1.step label.1 label.2, label.1)

end PiBridge.Chord.Documents
