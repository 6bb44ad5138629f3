import PiBridge.Chord.Json

/-!
# `Chord.Registries.Contribution` — contributions to a registry and their table entries

A contribution's entry is made once per value, an older version's adapted once per value and adapter. What plugins
bring is `PluginCode`: function objects (`Fn`) and what they do, pure functions that may throw, over values and errors
of any type.
-/

namespace PiBridge.Chord

/-- The `<` of strings: by code unit. -/
def Text.less (a b : Text) : Bool := a.map UInt16.toNat < b.map UInt16.toNat

/-- Who contributes: a facet, by plugin, or an object, by plugin and type. -/
structure Contributor where
  plugin : Text
  type : Option Text
deriving DecidableEq

/-- A contribution: the object, with what it never changes. -/
structure RegistryContribution where
  id : Nat
  contributor : Contributor
  /-- The registry version its contributor was built against. -/
  version : Nat
deriving DecidableEq

structure RegistryEntry (V : Type) where
  plugin : Text
  type : Option Text
  version : Nat
  value : V

structure RegistryConflict where
  message : Text
  plugins : List Text

/-- What a registry reports to its host, once per episode. -/
inductive RegistryError (ε : Type) where
  | conflict (registry message : Text) (plugins : List Text)
  | failed (registry : Text) (error : ε)
  | contributionFailed (registry plugin : Text) (type : Option Text) (error : ε)
  | contributionRefused (registry plugin : Text) (type : Option Text) (version : Nat)

/-- Adapters of one older version. -/
structure Adapters (Fn : Type) where
  contribution : Option Fn
  value : Option Fn

/-- The provider as served. -/
structure Provider (Fn : Type) where
  version : Nat
  compose : Fn
  accepts : Nat → Adapters Fn

/-- What the plugins' functions do, and `===` of their values. -/
structure PluginCode (V ε Fn : Type) where
  same : V → V → Bool
  eq_of_same : ∀ a b, same a b = true → a = b
  adapt : Fn → V → Except ε V
  /-- The conflicts it reports, and what it returns or throws. -/
  compose : Fn → List (RegistryEntry V) → List RegistryConflict × Except ε V

/-- Whether a contribution is left out since its last entry. -/
inductive Out where
  | none
  | failed
  | refused
deriving DecidableEq

/-- The last adaptation of an older contribution. -/
structure Adapted (V Fn : Type) where
  source : V
  adapter : Fn
  value : V

/-- What changes in a contribution: its source, and what it keeps. -/
structure ContributionState (V ε Fn : Type) where
  /-- `#raw()` -/
  raw : Except ε V
  adapted : Option (Adapted V Fn)
  /-- The values of the entries it made; it keeps the last. -/
  entries : List V
  out : Out

/-- An entry of a table: the contribution it is of, and which of its entries it is. -/
structure TableEntry (V : Type) where
  contribution : RegistryContribution
  index : Nat
  value : V

variable {V ε Fn : Type}

def TableEntry.entry (e : TableEntry V) : RegistryEntry V :=
  ⟨e.contribution.contributor.plugin, e.contribution.contributor.type, e.contribution.version, e.value⟩

/-- The entry object. -/
def TableEntry.identity (e : TableEntry V) : RegistryContribution × Nat := (e.contribution, e.index)

namespace RegistryContribution

/-- The adapter of a contribution older than the provider. -/
def adapter (c : RegistryContribution) (provider : Provider Fn) : Option Fn :=
  if c.version < provider.version then (provider.accepts c.version).contribution else none

/-- Whether a provider does not accept a contribution. -/
def isRefused (c : RegistryContribution) (provider : Provider Fn) : Bool :=
  provider.version < c.version || (c.version < provider.version && (c.adapter provider).isNone)

/-- What a contribution gives a table: an entry, or none. -/
inductive Given (V ε : Type) where
  | entry (entry : TableEntry V)
  | refused
  | failed (error : ε)

variable [DecidableEq Fn]

/-- `#adapt` -/
def adapt (code : PluginCode V ε Fn) (state : ContributionState V ε Fn) (raw : V) (adapter : Fn) : Except ε V × ContributionState V ε Fn :=
  let call :=
    match code.adapt adapter raw with
    | .ok value => (.ok value, { state with adapted := some ⟨raw, adapter, value⟩ })
    | .error error => (.error error, state)
  match state.adapted with
  | some adapted => if code.same adapted.source raw && adapted.adapter = adapter then (.ok adapted.value, state) else call
  | none => call

/-- The value a contribution has for a provider, which accepts it. -/
def value (code : PluginCode V ε Fn) (c : RegistryContribution) (provider : Provider Fn) (state : ContributionState V ε Fn) :
    Except ε V × ContributionState V ε Fn :=
  match state.raw, c.adapter provider with
  | .error error, _ => (.error error, state)
  | .ok raw, none => (.ok raw, state)
  | .ok raw, some adapter => adapt code state raw adapter

/-- The entry for a value: the last one while its value is the same. -/
def keep (code : PluginCode V ε Fn) (c : RegistryContribution) (state : ContributionState V ε Fn) (value : V) :
    TableEntry V × ContributionState V ε Fn :=
  let made := (⟨c, state.entries.length, value⟩, { state with entries := state.entries ++ [value] })
  match state.entries.getLast? with
  | some last => if code.same last value then (⟨c, state.entries.length - 1, last⟩, state) else made
  | none => made

/-- `entry` -/
def entry (code : PluginCode V ε Fn) (c : RegistryContribution) (provider : Provider Fn) (state : ContributionState V ε Fn) :
    Given V ε × ContributionState V ε Fn :=
  if c.isRefused provider then (.refused, { state with out := .refused })
  else
    match c.value code provider state with
    | (.error error, state) => (.failed error, { state with out := .failed })
    | (.ok value, state) =>
      let (entry, state) := c.keep code { state with out := .none } value
      (.entry entry, state)

end RegistryContribution

/-- `compareContributors(a, b) < 0` -/
def Contributor.before (a b : Contributor) : Bool :=
  if a.plugin ≠ b.plugin then Text.less a.plugin b.plugin
  else if a.type.getD [] = b.type.getD [] then false
  else Text.less (a.type.getD []) (b.type.getD [])

end PiBridge.Chord
