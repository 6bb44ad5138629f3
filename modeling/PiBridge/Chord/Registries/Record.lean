import PiBridge.Chord.Registries.Contribution
import PiBridge.Lib.Assoc
import PiBridge.Lib.Steps

/-!
# `Chord.Registries.Record` — a registry on a host, and the values its readers follow

The table is marked when it changes and composed when it is read; a table that is entry for entry the last one composed
composes nothing. A `compose` that throws leaves the last good composition; a reader of an older version has it mapped
back, with a last good mapping of its own.

`RegistryTurn` is what happens to a registry between two of its reads, and a read. The marks and the lists of the
watches, the waiters and the host's close are left out: they say when to read, or end the reads. A source that reads the
registry it contributes to, while that composes, throws: what a contribution's source gives is its `raw`.
-/

namespace PiBridge.Chord

open Lib

variable {V ε Fn : Type}

/-- The last good composition, and the contributions in the table when it was composed. -/
structure Good (V Fn : Type) where
  value : V
  contributions : List RegistryContribution
  /-- Bookkeeping: the provider that composed it, and the table. -/
  provider : Provider Fn
  table : List (TableEntry V)

/-- A mapping for an older version, and the composition it was made from. -/
structure Mapped (V Fn : Type) where
  source : V
  map : Fn
  value : V
  contributions : Option (List RegistryContribution)
  /-- Bookkeeping: that composition. -/
  good : Option (Good V Fn)

/-- A mapping that threw. -/
structure MapFailure (V ε Fn : Type) where
  source : V
  map : Fn
  error : ε

/-- What the value of one version keeps. -/
structure ValueState (V ε Fn : Type) where
  mapped : Option (Mapped V Fn)
  mapFailure : Option (MapFailure V ε Fn)

/-- What a report is about. -/
inductive Subject where
  | contribution (contribution : RegistryContribution)
  | composition
  | mapping (version : Nat)
  | conflict (key : Text)
deriving DecidableEq

/-- What happened. -/
inductive RegistryEvent (V ε Fn : Type) where
  /-- A contribution gave its entry, or was left out. -/
  | built (contribution : RegistryContribution) (out : Out)
  | composed (good : Good V Fn) (conflicts : List Text)
  | threw
  | unserved
  /-- A mapping was made, threw, or was dropped. -/
  | mapped (version : Nat) (out : Out)
  | reported (about : Subject) (error : RegistryError ε)

/-- `RegistryRecord`, with its contributions and values. -/
structure Registry (V ε Fn : Type) where
  name : Text
  provider : Option (Provider Fn)
  contributions : List RegistryContribution
  states : RegistryContribution → ContributionState V ε Fn
  /-- The last table composed. -/
  table : Option (List (TableEntry V))
  dirty : Bool
  good : Option (Good V Fn)
  failure : Option ε
  /-- The conflicts the last good composition reported. -/
  conflicts : List Text
  values : Nat → ValueState V ε Fn
  log : List (RegistryEvent V ε Fn)

/-- An error a reader gets: what code threw, or the registry's own. -/
inductive ReadError (ε : Type) where
  | thrown (error : ε)
  | chord (code : Text) (reason : Option Text) (message : Text)
  /-- The `TypeError` of a composition without a value or a failure. -/
  | noComposition

/-- `NativeStart` -/
inductive NativeStart (V ε : Type) where
  | value (value : V)
  | failed (error : ReadError ε) (last : Option V)

/-- The key of a conflict: its message and plugins. -/
def RegistryConflict.key (conflict : RegistryConflict) : Text := conflict.message ++ 0 :: [(0 : UInt16)].intercalate conflict.plugins

namespace Registry

/-- A registry nobody serves; `raw` is what the sources of the contributions to come give. -/
def new (name : Text) (raw : RegistryContribution → Except ε V) : Registry V ε Fn where
  name := name
  provider := none
  contributions := []
  states := fun c => ⟨raw c, none, [], .none⟩
  table := none
  dirty := true
  good := none
  failure := none
  conflicts := []
  values := fun _ => ⟨none, none⟩
  log := []

def emit (s : Registry V ε Fn) (event : RegistryEvent V ε Fn) : Registry V ε Fn := { s with log := s.log ++ [event] }

def setState (s : Registry V ε Fn) (c : RegistryContribution) (state : ContributionState V ε Fn) : Registry V ε Fn :=
  { s with states := Function.update s.states c state }

def setValue (s : Registry V ε Fn) (version : Nat) (value : ValueState V ε Fn) : Registry V ε Fn :=
  { s with values := Function.update s.values version value }

/-- `#invalidate`, without its values' marks. -/
def invalidate (s : Registry V ε Fn) : Registry V ε Fn := { s with dirty := true }

/-! ## The provider and the table -/

def serve (s : Registry V ε Fn) (provider : Provider Fn) : Registry V ε Fn := { s with provider := some provider, table := none }.invalidate

def unserve (s : Registry V ε Fn) : Registry V ε Fn :=
  ({ s with provider := none, table := none, good := none, failure := none }.invalidate).emit .unserved

/-- Where a contribution goes: before the first one it comes before. -/
def place (c : RegistryContribution) : List RegistryContribution → List RegistryContribution
  | [] => [c]
  | other :: rest => if c.contributor.before other.contributor then c :: other :: rest else other :: place c rest

def add (s : Registry V ε Fn) (c : RegistryContribution) : Registry V ε Fn := { s with contributions := place c s.contributions }.invalidate

def remove (s : Registry V ε Fn) (c : RegistryContribution) : Registry V ε Fn :=
  if c ∈ s.contributions then { s with contributions := s.contributions.erase c }.invalidate else s

/-- A contribution's source changed, failed or healed: followed while it is in the table. -/
def change (s : Registry V ε Fn) (c : RegistryContribution) (raw : Except ε V) : Registry V ε Fn :=
  let changed := s.setState c { s.states c with raw := raw }
  if c ∈ s.contributions then changed.invalidate else changed

def inTable (s : Registry V ε Fn) (contributions : List RegistryContribution) : Bool := contributions.all fun c => c ∈ s.contributions

/-! ## The composition -/

/-- What a left out contribution is reported as. -/
def leftOut (s : Registry V ε Fn) (c : RegistryContribution) : RegistryContribution.Given V ε → Option (RegistryError ε)
  | .entry _ => none
  | .refused => some (.contributionRefused s.name c.contributor.plugin c.contributor.type c.version)
  | .failed error => some (.contributionFailed s.name c.contributor.plugin c.contributor.type error)

/-- The entry a contribution gave. -/
def given : RegistryContribution.Given V ε → Option (TableEntry V)
  | .entry entry => some entry
  | .refused | .failed _ => none

variable [DecidableEq Fn]

/-- A contribution's entry; it is reported where it is left out otherwise than last time. -/
def entryOf (code : PluginCode V ε Fn) (provider : Provider Fn) (s : Registry V ε Fn) (c : RegistryContribution) :
    Registry V ε Fn × Option (TableEntry V) :=
  let (entered, state) := c.entry code provider (s.states c)
  let built := (s.setState c state).emit (.built c state.out)
  match s.leftOut c entered with
  | some error => (if (s.states c).out ≠ state.out then built.emit (.reported (.contribution c) error) else built, given entered)
  | none => (built, given entered)

/-- The loop of `#build`. -/
def buildFrom (code : PluginCode V ε Fn) (provider : Provider Fn) :
    Registry V ε Fn → List RegistryContribution → Registry V ε Fn × List (TableEntry V)
  | s, [] => (s, [])
  | s, c :: rest =>
    let (s, entry) := s.entryOf code provider c
    let (s, table) := buildFrom code provider s rest
    (s, entry.toList ++ table)

/-- Whether a table is the last one: every entry the same object. -/
def isLast (s : Registry V ε Fn) (table : List (TableEntry V)) : Bool :=
  match s.table with
  | some last => last.map TableEntry.identity = table.map TableEntry.identity
  | none => false

/-- Reports the conflicts the last good composition did not. -/
def reportConflicts (s : Registry V ε Fn) (conflicts : Assoc Text RegistryConflict) : Registry V ε Fn :=
  { s with log := s.log ++ (conflicts.filter fun each => each.1 ∉ s.conflicts).map fun each =>
      .reported (.conflict each.1) (.conflict s.name each.2.message each.2.plugins) }

/-- Composes a new table. -/
def composeTable (code : PluginCode V ε Fn) (s : Registry V ε Fn) (provider : Provider Fn) (table : List (TableEntry V)) :
    Registry V ε Fn :=
  let s := { s with table := some table }
  match code.compose provider.compose (table.map TableEntry.entry) with
  | (_, .error error) =>
    let threw := s.emit .threw
    let reported := if s.failure.isNone then threw.emit (.reported .composition (.failed s.name error)) else threw
    { reported with good := s.good.filter fun good => s.inTable good.contributions, failure := some error }
  | (reports, .ok value) =>
    let conflicts := reports.foldl (fun conflicts conflict => Assoc.set conflicts conflict.key conflict) []
    let good := ⟨value, s.contributions, provider, table⟩
    let composed := (s.emit (.composed good (conflicts.map Prod.fst))).reportConflicts conflicts
    { composed with
      good := some good
      failure := none
      conflicts := conflicts.map Prod.fst }

/-- `#recompose` -/
def recompose (code : PluginCode V ε Fn) (s : Registry V ε Fn) (provider : Provider Fn) : Registry V ε Fn :=
  let (s, table) := buildFrom code provider { s with dirty := false } s.contributions
  if s.isLast table && (s.good.isSome || s.failure.isSome) then s else s.composeTable code provider table

/-- Where the composition stands. -/
def current (s : Registry V ε Fn) : NativeStart V ε :=
  match s.failure, s.good with
  | some error, good => .failed (.thrown error) (good.map Good.value)
  | none, some good => .value good.value
  | none, none => .failed .noComposition none

/-- `start` -/
def start (code : PluginCode V ε Fn) (s : Registry V ε Fn) : Registry V ε Fn × NativeStart V ε :=
  match s.provider with
  | none =>
    (s, .failed (.chord (text "unavailable") (some (text "undeclared"))
      (text "registry " ++ s.name ++ text ": no plugin serves it here")) none)
  | some provider =>
    let s := if s.dirty then s.recompose code provider else s
    (s, s.current)

/-! ## The value of a version -/

/-- The composition a mapping maps. -/
def NativeStart.source : NativeStart V ε → Option V
  | .value value => some value
  | .failed _ last => last

/-- The mapping of a composition: the one it has, its failure, or a new one. -/
def mapSource (code : PluginCode V ε Fn) (s : Registry V ε Fn) (version : Nat) (value : ValueState V ε Fn) (source : V) (map : Fn) :
    Registry V ε Fn :=
  let mapping :=
    match code.adapt map source with
    | .ok result =>
      (s.setValue version ⟨some ⟨source, map, result, s.good.map Good.contributions, s.good⟩, none⟩).emit (.mapped version .none)
    | .error error =>
      let threw := (s.setValue version { value with mapFailure := some ⟨source, map, error⟩ }).emit (.mapped version .failed)
      if value.mapFailure.isNone then threw.emit (.reported (.mapping version) (.failed s.name error)) else threw
  if value.mapped.any fun mapped => code.same mapped.source source && mapped.map = map then
    (s.setValue version { value with mapFailure := none }).emit (.mapped version .none)
  else if value.mapFailure.any fun failure => code.same failure.source source && failure.map = map then
    s.setValue version value
  else mapping

/-- What a mapped value starts with. -/
def mappedCurrent (s : Registry V ε Fn) (version : Nat) (current : NativeStart V ε) : NativeStart V ε :=
  let value := s.values version
  let last := value.mapped.map Mapped.value
  match value.mapFailure, current with
  | some failure, _ => .failed (.thrown failure.error) last
  | none, .failed error _ => .failed error last
  | none, .value _ =>
    match last with
    | some last => .value last
    | none => .failed .noComposition none

/-- What the value of a version keeps: no mapping of a composition one of whose contributions left. -/
def keptValue (s : Registry V ε Fn) (version : Nat) : ValueState V ε Fn :=
  let value := s.values version
  { value with mapped := value.mapped.filter fun mapped => mapped.contributions.all s.inTable }

/-- `#mappedStart` -/
def mappedStart (code : PluginCode V ε Fn) (s : Registry V ε Fn) (version : Nat) (current : NativeStart V ε) (map : Fn) :
    Registry V ε Fn × NativeStart V ε :=
  match NativeStart.source current with
  | none => (s, current)
  | some source =>
    let s := s.mapSource code version (s.keptValue version) source map
    (s, s.mappedCurrent version current)

/-- The adapter that maps the composition back for an older version. -/
def valueAdapter (provider : Provider Fn) (version : Nat) : Option Fn :=
  if version < provider.version then (provider.accepts version).value else none

/-- `RegistryValueSource.#start` -/
def valueStart (code : PluginCode V ε Fn) (s : Registry V ε Fn) (version : Nat) : Registry V ε Fn × NativeStart V ε :=
  match s.provider with
  | none => s.start code
  | some provider =>
    if provider.version = version then s.start code
    else
      match valueAdapter provider version with
      | none =>
        (s, .failed (.chord (text "contract_mismatch") none (text "registry " ++ s.name ++ text ": version " ++
          text (toString version) ++ text " is not served here (version " ++ text (toString provider.version) ++ text " is)")) none)
      | some map =>
        let (s, current) := s.start code
        s.mappedStart code version current map

/-- `#dropMapping`: nobody reads or follows the value of a version. -/
def dropMapping (s : Registry V ε Fn) (version : Nat) : Registry V ε Fn := (s.setValue version ⟨none, none⟩).emit (.mapped version .none)

end Registry

/-! ## Runs -/

/-- What happens to a registry. -/
inductive RegistryTurn (V ε Fn : Type) where
  | serve (provider : Provider Fn)
  | unserve
  | add (contribution : RegistryContribution)
  | remove (contribution : RegistryContribution)
  | change (contribution : RegistryContribution) (raw : Except ε V)
  | read (version : Nat)
  | dropMapping (version : Nat)

def Registry.step [DecidableEq Fn] (code : PluginCode V ε Fn) (s : Registry V ε Fn) : RegistryTurn V ε Fn → Registry V ε Fn
  | .serve provider => s.serve provider
  | .unserve => s.unserve
  | .add c => s.add c
  | .remove c => s.remove c
  | .change c raw => s.change c raw
  | .read version => (s.valueStart code version).1
  | .dropMapping version => s.dropMapping version

end PiBridge.Chord
