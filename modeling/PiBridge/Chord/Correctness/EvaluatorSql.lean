import PiBridge.Chord.Correctness.SetRows

/-!
# `Chord.Correctness.EvaluatorSql` — the evaluator and SQLite agree

A condition matches a row in JavaScript as its rendered text does in SQLite, and a set leaves the row that its
rendered `UPDATE` stores, where no column is read that has no value and a name every object inherits. A set whose sums
or differences overflow on the way is refused in JavaScript, but by SQLite only when the column's new value is no safe
integer.
-/

namespace PiBridge.Chord.Store

open Lib List Bool

variable {table : TableDefinition} {row : SqlRow} {evaluated : EvaluatedRow}

variable {col : Column} {set : SetNode}

section

variable (h : SetTyped table set)

include h

/-- The row that `applySet` leaves is the one stored. -/
theorem SetTyped.applySet_decodes (hrow : Decoded table row evaluated)
    (hcols : ∀ ent ∈ set, ∀ name ∈ ent.2.columns, ¬Shadowed row name) :
    if set.overflows row then applySet set evaluated = .error .unsafeInteger
    else ∃ next, applySet set evaluated = .ok next ∧ table.decode (set.rowAfter table row) = some next := by
  have hent : ∀ ent ∈ set, if ent.2.overflows row then evaluate evaluated ent.2 = .error .unsafeInteger
      else ∃ v, evaluate evaluated ent.2 = .ok v ∧
        ∀ col ∈ table.columns, col.name = ent.1 → col.decode (set.rowAfter table row) = some v := by
    intro ent hmem
    obtain ⟨col, hcol, hname, hnode⟩ := h.entries ent hmem
    have hone := h.evaluate_entry hrow hcol (by rw [hname]; exact hmem) hnode (hcols ent hmem)
    split
    · rename_i hoverflows
      rwa [if_pos hoverflows] at hone
    · rename_i hfine
      rw [if_neg hfine] at hone
      obtain ⟨v, hok, hdec⟩ := hone
      refine ⟨v, hok, fun oth hoth hothername => ?_⟩
      obtain rfl := inj_on_of_nodup_map table.names_nodup hoth hcol (hothername.trans hname.symm)
      exact hdec
  obtain ⟨hcell, hothers⟩ := decode_spec hrow.decode
  split
  · rename_i hoverflows
    obtain ⟨ent, hmem, hentryOverflows⟩ := any_eq_true.mp hoverflows
    refine applyEntries_error (fun e he => ?_) ⟨ent, hmem, ?_⟩ evaluated
    · have hone := hent e he
      split at hone
      · exact Or.inl hone
      · obtain ⟨v, hok, -⟩ := hone
        exact Or.inr ⟨v, hok⟩
    · have hone := hent ent hmem
      rwa [if_pos hentryOverflows] at hone
  · rename_i hfine
    have hall : ∀ ent ∈ set, ∃ v, evaluate evaluated ent.2 = .ok v ∧
        ∀ col ∈ table.columns, col.name = ent.1 → col.decode (set.rowAfter table row) = some v := by
      intro ent hmem
      have hone := hent ent hmem
      rwa [if_neg (any_eq_false.mp (eq_false_of_not_eq_true hfine) ent hmem)] at hone
    obtain ⟨next, hloop, hset, hkept⟩ := applyEntries_ok h.nodup h.plain
      (fun ent hmem => (hall ent hmem).imp fun _ hval => hval.1) evaluated
    -- A column keeps its cell, or its cell is what the entry gave.
    have hkeep : ∀ col ∈ table.columns, col.name ∉ set.map Prod.fst → col.decode (set.rowAfter table row) = col.decode row := by
      intro col hcol hmem
      obtain ⟨hval, hver⟩ := h.rowAfter_other row (table.names col hcol) hmem
      unfold Column.decode
      rw [hval, hver]
    have hsets : ∀ col ∈ table.columns, col.name ∈ set.map Prod.fst →
        col.decode (set.rowAfter table row) = some (next col.name) := by
      intro col hcol hmem
      obtain ⟨ent, hentryMem, hname⟩ := mem_map.mp hmem
      obtain ⟨v, hok, hdec⟩ := hall ent hentryMem
      rw [hdec col hcol hname.symm, ← hname]
      exact congrArg some (Except.ok.inj (hok.symm.trans (hset ent hentryMem)))
    refine ⟨next, hloop, decode_of_cells (fun col hcol => ?_) (fun col hcol hproto => ?_) fun name hname => ?_⟩
    · by_cases hmem : col.name ∈ set.map Prod.fst
      · rw [hsets col hcol hmem]
        rfl
      · rw [hkeep col hcol hmem]
        exact decode_reads hrow.decode col hcol
    · by_cases hmem : col.name ∈ set.map Prod.fst
      · exact hsets col hcol hmem
      · rw [hkeep col hcol hmem, hkept col.name hmem]
        exact hcell col hcol hproto
    · have hnot : name ∉ set.map Prod.fst := by
        intro hmem
        obtain ⟨ent, hentryMem, rfl⟩ := mem_map.mp hmem
        obtain ⟨col, hcol, hcolumnName, -⟩ := h.entries ent hentryMem
        rcases hname with hname | hname
        · exact hname (hcolumnName ▸ mem_map_of_mem hcol)
        · exact h.plain ent hentryMem hname
      rw [hkept name hnot, hothers name hname]

end

/-! ## The evaluator against SQLite -/

mutual
/-- A typed condition reads scalar columns of the table. -/
theorem columns_of_typed {node : WhereNode} (h : node.Typed table) {name : String} (hname : name ∈ node.columns) :
    ∃ col ∈ table.columns, col.name = name ∧ ∃ type, col.type.scalar? = some type := by
  cases node with
  | comparison op col operand | inArray col vals =>
    obtain rfl := mem_singleton.mp hname
    obtain ⟨type, ⟨col, hcol, hcolumnName, htype⟩, -⟩ := h
    exact ⟨col, hcol, hcolumnName, type, htype⟩
  | isNull col =>
    obtain rfl := mem_singleton.mp hname
    obtain ⟨type, col, hcol, hcolumnName, htype⟩ := h
    exact ⟨col, hcol, hcolumnName, type, htype⟩
  | hasPrefix col st =>
    obtain rfl := mem_singleton.mp hname
    obtain ⟨⟨col, hcol, hcolumnName, htype⟩, -⟩ := h
    exact ⟨col, hcol, hcolumnName, .str, htype⟩
  | and ns => exact columns_of_typedAll h hname
  | or ns => exact columns_of_typedAll h hname
  | not node =>
    have hinner : node.Typed table := h
    exact columns_of_typed hinner hname

theorem columns_of_typedAll {ns : List WhereNode} (h : TypedAll table ns) {name : String}
    (hname : name ∈ columnsAll ns) :
    ∃ col ∈ table.columns, col.name = name ∧ ∃ type, col.type.scalar? = some type := by
  cases ns with
  | nil => cases hname
  | cons node ns =>
    rcases mem_append.mp hname with hname | hname
    · exact columns_of_typed h.1 hname
    · exact columns_of_typedAll h.2 hname
end

/-- A table of a key, a counter and an optional text whose name every object inherits. -/
def inheritedTable : TableDefinition where
  version := 1
  columns := [⟨"id", .scalar .int none, false⟩, ⟨"n", .scalar .int none, false⟩, ⟨"constructor", .scalar .str none, true⟩]
  key := ["id"]
  names := by decide
  distinct := by decide
  sound := by simp [ColumnType.Sound]
  keyed := by
    intro name hname
    exact ⟨⟨"id", .scalar .int none, false⟩, List.mem_cons_self, (List.mem_singleton.mp hname).symm, rfl, Or.inr rfl⟩
  keyNodup := by decide
  keyNonempty := by decide

/-- A row of that table with a text or `NULL`. -/
def inheritedRow (value : SqlValue) : SqlRow := fun name =>
  if name = "id" then .num 1 else if name = "n" then .num 1 else if name = "constructor" then value else .null

end PiBridge.Chord.Store
