import PiBridge.Core.Stats
import PiBridge.Core.Strip

/-!
# `Core.Cache` — the entries a client keeps

A client keeps committed entries only, one record per file position, each in one deterministic projection
with every lazy field `null`. The cursor it presents on the next sync is derived from the records alone:
they have to cover the positions from zero without a gap.
-/

namespace PiBridge

open Js Js.Value List

/-- One cached entry. The storage key is the session and `ord`. -/
structure CacheEntryRecord where
  sessionId : String
  ord : Rat
  entryId : String
  entry : Value

/-- What a client says it has: the first `entryCount` entries, the last of them `lastKnownId`. -/
structure PrefixCursor where
  sessionId : String
  lastKnownId : String
  entryCount : Rat

/-- `Number.isInteger`. -/
def isInteger (n : Rat) : Bool := n.den = 1

/-- `entryForCache`: all lazy fields `null`, and sealed. -/
def entryForCache (entry : Value) : Value := .obj ((stripLazyFields entry).asObj.set "isSealed" (.bool true))

/-- `seedDocument`, the entries: inserted in the order of their positions. -/
def seedEntries (records : List CacheEntryRecord) : Obj :=
  Props.setAll [] ((records.mergeSort fun a b => a.ord ≤ b.ord).map fun r => (r.entryId, r.entry))

/-- The records a client has of the first `n` entries of a list. -/
def cachedRecords (sessionId : String) (piEntries : List SessionEntry) (n : Nat) : List CacheEntryRecord :=
  (piEntries.take n).zipIdx.map fun p =>
    { sessionId, ord := p.2, entryId := p.1.id, entry := entryForCache (projectEntry p.1 p.2) }

/-! ## The records of a prefix -/

/-- **A cached projection is the lazy-stripped one**: a projected entry is sealed already. -/
theorem entryForCache_projectEntry (e : SessionEntry) (ord : Nat) :
    Same (entryForCache (projectEntry e ord)) (stripLazyFields (projectEntry e ord)) := by
  have hseal : get (stripLazyFields (projectEntry e ord)) "isSealed" = .bool true := by
    rw [get_stripLazyFields _ (by decide) (by decide) (by decide)]
    exact get_projectEntry_isSealed e ord
  rw [entryForCache, stripLazyFields, same_obj_iff, sameObj_iff]
  intro k
  rw [at_set]
  split
  · rename_i hk
    rw [← hk, ← hseal]; rfl
  · rfl

theorem mem_cachedRecords {sessionId : String} {es : List SessionEntry} {n : Nat}
    {r : CacheEntryRecord} : r ∈ cachedRecords sessionId es n ↔ ∃ i e, i < n ∧ es[i]? = some e ∧
        r = ⟨sessionId, i, e.id, entryForCache (projectEntry e i)⟩ := by
  unfold cachedRecords
  rw [mem_map]
  constructor
  · rintro ⟨⟨e, i⟩, hmem, rfl⟩
    have hget := mem_zipIdx_iff_getElem?.mp hmem
    rw [getElem?_take] at hget
    split at hget
    · rename_i hlt
      exact ⟨i, e, hlt, hget, rfl⟩
    · simp at hget
  · rintro ⟨i, e, hlt, hget, rfl⟩
    exact ⟨(e, i), mem_zipIdx_iff_getElem?.mpr (by rw [getElem?_take, if_pos hlt, hget]), rfl⟩

theorem map_ord_cachedRecords (sessionId : String) (es : List SessionEntry) (n : Nat) :
    (cachedRecords sessionId es n).map (·.ord)
      = (List.range (es.take n).length).map fun i : Nat => (i : Rat) := by
  unfold cachedRecords
  rw [map_map, range_eq_range', ← zipIdx_map_snd 0 (es.take n), map_map]; rfl

/-- The records are in the order of their positions. -/
theorem sorted_cachedRecords (sessionId : String) (es : List SessionEntry) (n : Nat) :
    ((cachedRecords sessionId es n).mergeSort fun a b => a.ord ≤ b.ord)
      = cachedRecords sessionId es n := by
  apply mergeSort_of_pairwise
  have hords : ((cachedRecords sessionId es n).map (·.ord)).Pairwise (· ≤ ·) := by
    rw [map_ord_cachedRecords, pairwise_map]
    exact pairwise_lt_range.imp fun h => by exact_mod_cast Nat.le_of_lt h
  rw [pairwise_map] at hords
  exact hords.imp fun h => by simpa using h

end PiBridge
