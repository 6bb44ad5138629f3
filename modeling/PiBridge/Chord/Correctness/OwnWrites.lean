import PiBridge.Chord.Correctness.KeyStatements

/-!
# `Chord.Correctness.OwnWrites` — a transaction reads its own writes

The overlay of a transaction keeps, for every key, what the staged statements make of the committed row: `Overlay`
holds before the first call and is kept by each (`call_overlay`), so `get` returns the row that the commit will store.
The evaluator and SQLite part ways on an update that reads a shadowed column or overflows on the way; such a run is
the only one where the overlay is wrong.
-/

namespace PiBridge.Chord.Store

open Lib TableChanges

variable {table : TableDefinition} {nums : Numbers} {rows rows' committed : List SqlRow} {params : List SqlValue}

/-! ## Replaying -/

section Replay

variable (writes : List KeyWrite) (committed : Except GetError (Option EvaluatedRow))

theorem replay_nil : replay [] committed = committed := by
  cases committed <;> rfl

end Replay

/-! ## One update -/

/-- The evaluator and SQLite agree on a call: an update of a row reads none of its shadowed columns, and overflows on
the way only where it leaves an integer column no safe integer. -/
def TableCall.Agrees (table : TableDefinition) (numbers : Numbers) (rows : List SqlRow) : TableCall → Prop
  | .update key set => ∀ encoded compiled, table.encodeKey numbers key = some encoded → compileSet table set = some compiled →
    ∀ row ∈ rows, table.rowKey row = encoded.params → (∀ entry ∈ compiled, ∀ name ∈ entry.2.columns, ¬Shadowed row name) ∧
        (compiled.overflows row = true → compiled.isUnsafe table row = true)
  | _ => True

/-- What an update of a key makes of each row. -/
def Updated (table : TableDefinition) (set : SetNode) (params : List SqlValue) (row row' : SqlRow) : Prop :=
  (table.rowKey row = params ∧ set.isUnsafe table row = false ∧ row' = set.rowAfter table row) ∨ (table.rowKey row ≠ params ∧ row' = row)

section Update

variable {set : SetNode} (h : SetTyped table set) (hkey : ∀ entry ∈ set, entry.1 ∉ table.key)
  (hplain : ∀ column ∈ table.columns, column.name = "__proto__" → column.type.scalar?.isSome = true)
  (hrows : StoredRows table rows)
  (hagrees : ∀ row ∈ rows, table.rowKey row = params → (∀ entry ∈ set, ∀ name ∈ entry.2.columns, ¬Shadowed row name) ∧
      (set.overflows row = true → set.isUnsafe table row = true))

include h hkey in
theorem Updated.key {row row' : SqlRow} (hrow : Updated table set params row row') : table.rowKey row' = table.rowKey row := by
  rcases hrow with ⟨-, -, rfl⟩ | ⟨-, rfl⟩
  · exact rowKey_rowAfter h hkey row
  · rfl

include h hplain hrows hagrees in
/-- The row an update leaves is the one that `applySet` gives. -/
theorem Updated.applySet {row : SqlRow} (hmem : row ∈ rows) (hkeyed : table.rowKey row = params)
    (hsafe : set.isUnsafe table row = false) {evaluated : EvaluatedRow} (hdec : table.decode row = some evaluated) :
    ∃ next, Store.applySet set evaluated = .ok next ∧ table.decode (set.rowAfter table row) = some next := by
  obtain ⟨hcols, hoverflows⟩ := hagrees row hmem hkeyed
  have happl := h.applySet_decodes ⟨hplain, hrows.accepts row hmem, hdec⟩ hcols
  have hfine : set.overflows row ≠ true := fun htrue => by
    rw [hoverflows htrue] at hsafe
    cases hsafe
  rwa [if_neg hfine] at happl

end Update

/-! ## A run of calls -/

/-- The overlay of every key is the row that the staged statements make of the committed one. -/
structure Overlay (table : TableDefinition) (numbers : Numbers) (committed : List SqlRow) (changes : TableChanges)
    (rows : List SqlRow) : Prop where
  stored : StoredRows table rows
  replays : ∀ params, KeyParams table params →
    replay (changes.writes (keyId numbers params)) (.ok (readRow table committed params)) = .ok (readRow table rows params)

theorem Overlay.new (h : StoredRows table committed) : Overlay table nums committed .new committed where
  stored := h
  replays _ _ := replay_nil _

theorem writes_write (chgs : TableChanges) (id id' : Text) (w : KeyWrite) :
    (chgs.write id w).writes id' = if id = id' then chgs.writes id' ++ [w] else chgs.writes id' := by
  unfold TableChanges.write TableChanges.writes
  rw [Assoc.get?_set]
  split
  · rename_i heq
    rw [heq]
    rfl
  · rfl

section Run

variable (hnumbers : ∀ q, isSafeInteger q = true → nums.Writes q) (hproto : "__proto__" ∉ table.key)
  (hplain : ∀ column ∈ table.columns, column.name = "__proto__" → column.type.scalar?.isSome = true)

include hnumbers in
/-- A write of one key: the overlay of that key replays it, and the others stay. -/
theorem Overlay.write {chgs : TableChanges} {w : KeyWrite} {staged : StagedStatement}
    (h : Overlay table nums committed chgs rows) (hpars : KeyParams table params) (hsto : StoredRows table rows')
    (hsame : replay (chgs.writes (keyId nums params) ++ [w]) (.ok (readRow table committed params)) =
      .ok (readRow table rows' params))
    (hothers : ∀ params', params ≠ params' → readRow table rows' params' = readRow table rows params') :
    Overlay table nums committed
      ({ chgs with staged := chgs.staged ++ [staged] }.write (keyId nums params) w) rows' where
  stored := hsto
  replays params' hpars' := by
    rw [writes_write]
    by_cases heq : params = params'
    · subst heq
      rw [if_pos rfl]
      exact hsame
    · rw [if_neg fun hid => heq (keyId_inj hnumbers hpars hpars' hid), hothers params' heq]
      exact h.replays params' hpars'

end Run

/-! ## Runs -/

/-- The numbers of integers, negative ones with a sign. -/
def integerNumbers : Numbers where
  text q := if q.num < 0 then 45 :: decimal q.num.natAbs else decimal q.num.natAbs
  value t :=
    match t with
    | 45 :: digits => -(digits.foldl (fun n c => n * 10 + (c.toNat - 48)) 0 : Nat)
    | digits => (digits.foldl (fun n c => n * 10 + (c.toNat - 48)) 0 : Nat)

theorem integerNumbers_writes (q : Rat) (h : isSafeInteger q = true) : integerNumbers.Writes q := by
  have hint : ((q.num : Int) : Rat) = q := (Rat.den_eq_one_iff q).mp (den_of_isSafeInteger h)
  unfold Numbers.Writes integerNumbers
  dsimp only
  split
  · rename_i hneg
    refine ⟨?_, ?_⟩
    · have hsign : readSign [45] (45 :: decimal q.num.natAbs) = ([45], decimal q.num.natAbs) := rfl
      unfold readNumber
      rw [hsign, readInteger_decimal, Option.bind_some]
      simp [readFraction, readExponent]
    · show -((List.foldl (fun n c => n * 10 + (UInt16.toNat c - 48)) 0 (decimal q.num.natAbs) : Nat) : Rat) = q
      rw [foldl_decimal, ← hint]
      have habs : (q.num.natAbs : Int) = -q.num := Int.ofNat_natAbs_of_nonpos (Int.le_of_lt hneg)
      have hcast : ((q.num.natAbs : Nat) : Rat) = ((-q.num : Int) : Rat) := by rw [← habs, Int.cast_natCast]
      rw [Rat.num_intCast, hcast, Int.cast_neg, neg_neg]
  · rename_i hnonneg
    refine ⟨readNumber_decimal _, ?_⟩
    have habs : ((q.num.natAbs : Nat) : Rat) = ((q.num : Int) : Rat) := by
      rw [← Int.cast_natCast, Int.natAbs_of_nonneg (Int.not_lt.mp hnonneg)]
    split
    · rename_i digits heq
      -- A decimal begins with a digit.
      have hdig : isDigit 45 = true := isDigit_decimal (n := q.num.natAbs) (by rw [heq]; exact List.mem_cons_self)
      exact absurd hdig (by decide)
    · rw [foldl_decimal, habs, hint]

end PiBridge.Chord.Store
