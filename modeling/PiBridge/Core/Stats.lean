import PiBridge.Core.Entry
import PiBridge.Lib.Chain

/-!
# `Core.Stats` — status derived from an entry map

`deriveStatsForEntries` follows parent links from the leaf to the root and adds up the usage of the
messages still in context. The walk ends only if the links do: a parent cycle keeps the source's loop
going forever, and the model returns `none` exactly then (`deriveStats_isSome_iff`).

The other derivations (`deriveSessionName` and its like) pick the sealed entry with the highest file
position that matches.
-/

namespace PiBridge

open Js Js.Value Lib Option

/-! ## The branch path -/

/-- The loop condition and step of the path walk: `cursor && entries[cursor]`, then its parent. -/
def branchNext (entries : Obj) (cursor : String) : Option (Option String) :=
  if cursor = "" then none else (entries.get? cursor).map parentIdOf

/-- The entries from the root to the leaf; `none` if the walk does not end. -/
def branchPath (entries : Obj) (leafId : Option String) : Option (List Value) :=
  (follow (branchNext entries) (entries.length + 1) leafId).map fun r => (r.1.map (at_ entries)).reverse

/-- A cursor with a parent step names an entry of the map. -/
theorem mem_keys_of_branchNext {ents : Obj} {c : String} (h : (branchNext ents c).isSome) : c ∈ ents.keys := by
  unfold branchNext at h
  split at h
  · simp at h
  · rw [isSome_map, Props.get?_isSome] at h
    exact Props.has_iff_mem_keys.mp h

/-- **The path is missing only when the walk never ends.** -/
theorem branchPath_isSome_iff (ents : Obj) (leaf : Option String) :
    (branchPath ents leaf).isSome ↔ ∃ n, (follow (branchNext ents) n leaf).isSome := by
  rw [branchPath, isSome_map]
  refine ⟨fun h => ⟨_, h⟩, fun ⟨n, h⟩ => ?_⟩
  obtain ⟨r, hr⟩ := isSome_iff_exists.mp h
  have hfuel := follow_complete (fun c hc => mem_keys_of_branchNext hc) hr
  rw [Props.keys, List.length_map] at hfuel
  rw [hfuel]; rfl

/-! ## Usage and cost -/

/-- The ids in context: with a compaction on the path, what it kept, itself, and what follows it. -/
def contextEntryIds (path : List Value) : List Value :=
  let idOf := fun e => get e "id"
  -- the last compaction is the first one from the end
  match path.reverse.findIdx? fun e => get e "kind" = .str "compaction" with
  | none => path.map idOf
  | some fromEnd =>
    let compactionIdx := path.length - 1 - fromEnd
    let compaction := path.getD compactionIdx .undefined
    let kept := (path.take compactionIdx).dropWhile fun e => idOf e ≠ get compaction "firstKeptEntryId"
    idOf compaction :: kept.map idOf ++ (path.drop (compactionIdx + 1)).map idOf

/-- What the messages in context add up to. -/
structure UsageSum where
  lastUsage : Value
  output : Rat
  costTotal : Rat
  messages : Nat

/-- One entry of the path. -/
def UsageSum.add (sum : UsageSum) (e : Value) : UsageSum :=
  let usage := get e "usage"
  if get e "kind" = .str "message" ∧ usage.truthy then
    { lastUsage := usage
      output := sum.output + (get usage "output").asNum
      costTotal := sum.costTotal + (get (get usage "cost") "total").asNum
      messages := sum.messages + 1 }
  else sum

/-- An optional token count is carried only when it is not zero. -/
def nonZeroTokens (key : String) (n : Rat) : Obj := if n ≠ 0 then [(key, .num n)] else []

/-- The statistics of one path. -/
def statsOfPath (path : List Value) : Value :=
  let ids := contextEntryIds path
  let sum := (path.filter fun e => get e "id" ∈ ids).foldl UsageSum.add ⟨.undefined, 0, 0, 0⟩
  let last := fun k => (get sum.lastUsage k).asNum
  .obj [
    ("tokens", .obj ([("input", .num (last "input")), ("output", .num sum.output), ("total", .num (last "totalTokens"))]
      ++ nonZeroTokens "cacheRead" (last "cacheRead") ++ nonZeroTokens "cacheWrite" (last "cacheWrite"))),
    ("cost", .obj [("total", .num sum.costTotal)]),
    ("messages", .num sum.messages)]

/-- `deriveStatsForEntries`; `none` when the path walk does not end. -/
def deriveStatsForEntries (entries : Obj) (leafId : Option String) : Option Value := (branchPath entries leafId).map statsOfPath

theorem toJson_statsOfPath (path : List Value) : (statsOfPath path).toJson = some (statsOfPath path) := by
  have hopt : ∀ (m : Obj) k n, toJson.jsonObj m = m → toJson.jsonObj (m ++ nonZeroTokens k n) = m ++ nonZeroTokens k n := by
    intro m k n hm
    have happ : ∀ a b : Obj, toJson.jsonObj (a ++ b) = toJson.jsonObj a ++ toJson.jsonObj b := by
      intro a b
      induction a with
      | nil => rfl
      | cons p a ih =>
        rw [List.cons_append, toJson.jsonObj, toJson.jsonObj]
        cases p.2.toJson <;> simp [ih]
    rw [happ, hm]
    congr 1
    unfold nonZeroTokens
    split <;> rfl
  unfold statsOfPath
  simp only [toJson, toJson.jsonObj]
  rw [hopt _ _ _ (hopt _ _ _ rfl)]

theorem toJson_deriveStats {ents : Obj} {leaf : Option String} {sts : Value}
    (h : deriveStatsForEntries ents leaf = some sts) : sts.toJson = some sts := by
  obtain ⟨path, -, rfl⟩ := map_eq_some_iff.mp h
  exact toJson_statsOfPath path

/-! ## The latest entry of a kind -/

/-- `latestByOrd`: the sealed entry with the highest file position that `accepts` accepts. -/
def latestByOrd (entries : Obj) (accepts : Value → Bool) : Option Value :=
  entries.foldl (fun latest p =>
    let entry := p.2
    if !isEntrySealed entry || get entry "ord" = .undefined || !accepts entry then latest else
      match latest with
      | none => some entry
      | some best => if (get best "ord").asNum < (get entry "ord").asNum then some entry else some best) none

/-- The entry's kind is `kind`. -/
def isKind (kind : String) (entry : Value) : Bool := get entry "kind" = .str kind

/-- `deriveSessionName`: an empty name clears. -/
def deriveSessionName (entries : Obj) : Value :=
  match latestByOrd entries fun e => isKind "session_info" e && get e "name" ≠ .undefined with
  | some latest => (get latest "name").orElse (.str "")
  | none => .str ""

/-! ## Installing entries -/

/-- Install entries under their ids, the first at file position `ord`. -/
def install (m : Obj) (ord : Nat) : List SessionEntry → Obj
  | [] => m
  | entry :: entries => install (m.set entry.id (projectEntry entry ord)) (ord + 1) entries

/-- The document before anything is known of a session. -/
def emptyDocument : Document where
  status := [("leafId", .null), ("name", .str ""), ("model", .obj [("provider", .str ""), ("modelId", .str "")]),
      ("thinkingLevel", .str "off"), ("isStreaming", .bool false), ("isCompacting", .bool false),
      ("stats", statsOfPath []), ("contextUsage", .null), ("pendingSteer", .arr []),
      ("inFlightTools", .obj []), ("recoverableTurn", .null)]
  entries := []

/-- What a list of entries puts under `id`: the last entry of that id, at its file position. -/
def installed? (ord : Nat) : List SessionEntry → String → Option Value
  | [], _ => none
  | entry :: entries, id =>
    (installed? (ord + 1) entries id).or
      (if entry.id.val = id then some (projectEntry entry ord) else none)

attribute [local simp] install installed?

/-- **Installing overlays what the list puts there on what was there before.** -/
theorem get?_install (m : Obj) (ord : Nat) (es : List SessionEntry) (id : String) :
    (install m ord es).get? id = (installed? ord es id).or (m.get? id) := by
  induction es generalizing m ord with
  | nil => rfl
  | cons e es ih =>
    rw [install, ih, installed?, Props.get?_set, Option.or_assoc]
    by_cases h : e.id.val = id <;> simp [h]

variable {ord : Nat} {es : List SessionEntry} {id : String}

/-- A list puts something under exactly the ids of its entries. -/
theorem installed?_isSome : (installed? ord es id).isSome ↔ ∃ e ∈ es, e.id.val = id := by
  induction es generalizing ord with
  | nil => simp [installed?]
  | cons e es ih =>
    rw [installed?, isSome_or, Bool.or_eq_true, ih]
    by_cases h : e.id.val = id <;> simp [h]

/-- What a list puts under an id is the projection of one of its entries at its position. -/
theorem index_of_installed? {v : Value} (h : installed? ord es id = some v) :
    ∃ i e, es[i]? = some e ∧ e.id.val = id ∧ v = projectEntry e (ord + i) := by
  induction es generalizing ord with
  | nil => simp [installed?] at h
  | cons e es ih =>
    rcases or_eq_some_iff.mp h with h | ⟨-, h⟩
    · obtain ⟨i, e', he', hid, rfl⟩ := ih h
      exact ⟨i + 1, e', he', hid, by rw [Nat.add_right_comm, Nat.add_assoc]⟩
    · split at h
      · rename_i hid
        exact ⟨0, e, rfl, hid, (some.inj h).symm⟩
      · simp at h

/-- What a list puts under an id is an installed entry. -/
theorem installed_of_installed? {v : Value} (h : installed? ord es id = some v) : Installed id v := by
  obtain ⟨i, e, -, hid, rfl⟩ := index_of_installed? h
  exact ⟨e, ord + i, hid, rfl⟩

end PiBridge
