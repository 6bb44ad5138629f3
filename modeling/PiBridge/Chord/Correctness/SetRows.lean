import PiBridge.Chord.Correctness.EvaluatedRows

/-!
# `Chord.Correctness.SetRows` — the row a set leaves

The `UPDATE` of a compiled set assigns each column its node's value and stamps the version of a written `json(...)`
column (`setSql_means`). Its constraints hold unless an integer column's value is no safe integer
(`accepts_assign_iff`): compiling keeps `NULL` out of the columns that take none. What it stores is read back as the
row that `applySet` gives (`applySet_decodes`).
-/

namespace PiBridge.Chord.Store

open Lib List Function SqlValue
open Option (bind_eq_some_iff)

variable {tbl : TableDefinition} {row : SqlRow}

/-! ## Compiled sets -/

/-- The node of a column: of the column's type, and never `NULL` where the column takes none. -/
def EntryTyped (table : TableDefinition) (column : Column) (node : ExprNode) : Prop :=
  match column.type with
  | .scalar type _ =>
    node.Typed table type ∧ (column.optional = false → ∀ row, table.accepts row = true → node.value row ≠ .null)
  | .json _ => (node = .null ∧ column.optional = true) ∨ ∃ x, node = .json x

/-- A compiled set: each entry is of a column, and no column has two. -/
structure SetTyped (table : TableDefinition) (set : SetNode) : Prop where
  nodup : (set.map Prod.fst).Nodup
  plain : ∀ entry ∈ set, entry.1 ≠ "__proto__"
  entries : ∀ entry ∈ set, ∃ column ∈ table.columns, column.name = entry.1 ∧ EntryTyped table column entry.2

variable {v : SqlValue} {type : ScalarType} {column : Column} {node : ExprNode} {name : String}

theorem SqlValue.Fits.num (h : v.Fits .int ∨ v.Fits .num) (hv : v ≠ .null) : ∃ q, v = .num q := by
  cases v with
  | num q => exact ⟨q, rfl⟩
  | null => exact absurd rfl hv
  | text cs | json x => exact h.elim False.elim False.elim

theorem SqlValue.Fits.text (h : v.Fits .str) (hv : v ≠ .null) : ∃ cs, v = .text cs := by
  cases v with
  | text cs => exact ⟨cs, rfl⟩
  | null => exact absurd rfl hv
  | num q | json x => exact h.elim

/-- The version stamped with a node: `NULL` with a clear. -/
def ExprNode.stamp (node : ExprNode) (version : Nat) : SqlValue :=
  match node with
  | .null => .null
  | _ => .num version

/-- The values an entry assigns. -/
def entryValues (versions : String → Option Nat) (row : SqlRow) (entry : String × ExprNode) : List (String × SqlValue) :=
  (entry.1, entry.2.value row) :: ((versions entry.1).map fun v => (versionColumn entry.1, entry.2.stamp v)).toList

theorem dollar_of_columnName (h : columnName name = true) : '$' ∉ name.toList := by
  have hsta : isNameStart '$' = false := by decide
  have hrest : (isNameStart '$' || ('0' ≤ '$' && '$' ≤ '9')) = false := by decide
  unfold columnName at h
  split at h
  · cases h
  · rename_i c cs heq
    rw [heq]
    rw [Bool.and_eq_true, all_eq_true] at h
    intro hmem
    rcases mem_cons.mp hmem with rfl | hmem
    · rw [hsta] at h
      cases h.1
    · have hdollar := h.2 '$' hmem
      cases hdollar

theorem versionColumn_ne (h : columnName name = true) (column : String) : versionColumn column ≠ name := by
  rintro rfl
  apply dollar_of_columnName h
  unfold versionColumn
  rw [String.toList_append]
  exact mem_append_right _ (by decide)

theorem versionColumn_inj {a b : String} (h : versionColumn a = versionColumn b) : a = b := by
  have hlist := congrArg String.toList h
  unfold versionColumn at hlist
  rw [String.toList_append, String.toList_append] at hlist
  exact String.toList_inj.mp (append_cancel_right hlist)

theorem assign_of_not_mem (row : SqlRow) {vals : List (String × SqlValue)}
    (h : name ∉ vals.map Prod.fst) : (row.assign vals) name = row name := by
  induction vals generalizing row with
  | nil => rfl
  | cons p vals ih =>
    rw [map_cons, mem_cons, not_or] at h
    have hrest := ih (update row p.1 p.2) h.2
    rw [update_of_ne h.1] at hrest
    exact hrest

theorem assign_of_mem (row : SqlRow) {vals : List (String × SqlValue)} (hnd : (vals.map Prod.fst).Nodup)
    (h : (name, v) ∈ vals) : (row.assign vals) name = v := by
  induction vals generalizing row with
  | nil => cases h
  | cons p vals ih =>
    rw [map_cons, nodup_cons] at hnd
    rcases mem_cons.mp h with rfl | h
    · have hrest := assign_of_not_mem (update row name v) hnd.1
      rw [update_self] at hrest
      exact hrest
    · exact ih (update row p.1 p.2) hnd.2 h

/-- The row an `UPDATE` of the set leaves, its constraints apart. -/
def SetNode.rowAfter (table : TableDefinition) (set : SetNode) (row : SqlRow) : SqlRow :=
  row.assign (set.flatMap (entryValues (jsonVersions table set) row))

section RowAfter

variable {set : SetNode} {entry : String × ExprNode} {column : Column}

theorem SetTyped.legal (h : SetTyped tbl set) (hent : entry ∈ set) : columnName entry.1 = true := by
  obtain ⟨column, hcol, hname, -⟩ := h.entries entry hent
  rw [← hname]
  exact tbl.names column hcol

theorem mem_entryValues {versions : String → Option Nat} {p : String × SqlValue} : p ∈ entryValues versions row entry ↔
      p = (entry.1, entry.2.value row) ∨ ∃ v, versions entry.1 = some v ∧ p = (versionColumn entry.1, entry.2.stamp v) := by
  unfold entryValues
  cases versions entry.1 <;> simp

section

variable (h : SetTyped tbl set)

include h

/-- No physical column is assigned twice. -/
theorem SetTyped.assigned_nodup (versions : String → Option Nat) :
    ((set.flatMap (entryValues versions row)).map Prod.fst).Nodup := by
  rw [map_flatMap, nodup_flatMap]
  have hname : ∀ {entry : String × ExprNode} {name : String}, name ∈ (entryValues versions row entry).map Prod.fst →
      name = entry.1 ∨ name = versionColumn entry.1 := by
    intro entry name hmem
    obtain ⟨p, hp, rfl⟩ := mem_map.mp hmem
    rcases mem_entryValues.1 hp with rfl | ⟨v, -, rfl⟩
    · exact Or.inl rfl
    · exact Or.inr rfl
  constructor
  · intro entry hent
    have hne := versionColumn_ne (h.legal hent) entry.1
    unfold entryValues
    cases versions entry.1 with
    | none => simp
    | some v => simpa using hne.symm
  · have hpairwise : set.Pairwise fun a b => a.1 ≠ b.1 := by
      have hnd := h.nodup
      rwa [Nodup, pairwise_map] at hnd
    refine hpairwise.imp_of_mem fun {a b} ha hb hne => ?_
    intro name hnamea hnameb
    rcases hname hnamea with rfl | rfl <;> rcases hname hnameb with heq | heq
    · exact hne heq
    · exact versionColumn_ne (h.legal ha) _ heq.symm
    · exact versionColumn_ne (h.legal hb) _ heq
    · exact hne (versionColumn_inj heq)

theorem SetTyped.rowAfter_entry (hent : entry ∈ set) : set.rowAfter tbl row entry.1 = entry.2.value row :=
  assign_of_mem row (h.assigned_nodup _) (mem_flatMap.mpr ⟨entry, hent, mem_entryValues.2 (Or.inl rfl)⟩)

theorem SetTyped.rowAfter_version (hent : entry ∈ set) {v : Nat}
    (hver : jsonVersions tbl set entry.1 = some v) : set.rowAfter tbl row (versionColumn entry.1) = entry.2.stamp v :=
  assign_of_mem row (h.assigned_nodup _)
    (mem_flatMap.mpr ⟨entry, hent, mem_entryValues.2 (Or.inr ⟨v, hver, rfl⟩)⟩)

theorem SetTyped.rowAfter_other (row : SqlRow) {name : String} (hname : columnName name = true)
    (hoth : name ∉ set.map Prod.fst) :
    set.rowAfter tbl row name = row name ∧ set.rowAfter tbl row (versionColumn name) = row (versionColumn name) := by
  have hne : ∀ {entry : String × ExprNode}, entry ∈ set → entry.1 ≠ name := fun hent heq =>
    hoth (heq ▸ mem_map_of_mem hent)
  have hassigned : ∀ {p : String × SqlValue}, p ∈ set.flatMap (entryValues (jsonVersions tbl set) row) →
      p.1 ≠ name ∧ p.1 ≠ versionColumn name := by
    intro p hp
    obtain ⟨entry, hent, hp⟩ := mem_flatMap.mp hp
    rcases mem_entryValues.1 hp with rfl | ⟨v, -, rfl⟩
    · exact ⟨hne hent, fun heq => versionColumn_ne (h.legal hent) _ heq.symm⟩
    · exact ⟨versionColumn_ne hname _, fun heq => hne hent (versionColumn_inj heq)⟩
  constructor
  · refine assign_of_not_mem row fun hmem => ?_
    obtain ⟨p, hp, hpname⟩ := mem_map.mp hmem
    exact (hassigned hp).1 hpname
  · refine assign_of_not_mem row fun hmem => ?_
    obtain ⟨p, hp, hpname⟩ := mem_map.mp hmem
    exact (hassigned hp).2 hpname

end

/-- A column is found by its name. -/
theorem byName_of_mem (h : column ∈ tbl.columns) : tbl.byName column.name = some column := by
  have hnd := tbl.names_nodup
  unfold TableDefinition.byName
  cases hfind : tbl.columns.find? (·.name = column.name) with
  | none =>
    have hne := find?_eq_none.mp hfind column h
    exact absurd (decide_eq_true rfl) hne
  | some oth =>
    have hname := find?_some hfind
    exact congrArg some (inj_on_of_nodup_map hnd (mem_of_find?_eq_some hfind) h (of_decide_eq_true hname))

/-- An integer column is set to no safe integer. -/
def SetNode.isUnsafe (table : TableDefinition) (set : SetNode) (row : SqlRow) : Bool :=
  set.any fun entry => (table.byName entry.1).bind (·.type.scalar?) = some .int && (entry.2.value row).isUnsafe

theorem accepts_of_fits {type : ScalarType} {v : SqlValue} (h : v.Fits type) (hv : v ≠ .null) :
    type.accepts v = !(type = .int && v.isUnsafe) := by
  cases type with
  | str =>
    obtain ⟨cs, rfl⟩ := h.text hv
    rfl
  | int =>
    obtain ⟨q, rfl⟩ := Fits.num (Or.inl h) hv
    exact (Bool.not_not _).symm
  | num =>
    obtain ⟨q, rfl⟩ := Fits.num (Or.inr h) hv
    rfl
  | bool =>
    cases v with
    | num q => rcases h with rfl | rfl <;> rfl
    | null => exact absurd rfl hv
    | text cs | json x => exact h.elim

theorem jsonVersions_of_mem (hcol : column ∈ tbl.columns) {json : JsonColumn}
    (htype : column.type = .json json) (hset : column.name ∈ set.map Prod.fst) :
    jsonVersions tbl set column.name = some json.version := by
  unfold jsonVersions
  rw [if_pos hset, byName_of_mem hcol]
  obtain ⟨name, type, optional⟩ := column
  obtain rfl : type = .json json := htype
  rfl

end RowAfter

/-! ## The row read back -/

/-- The cells of the columns make the decoded row. -/
theorem decode_of_cells {next : EvaluatedRow} (hread : ∀ column ∈ tbl.columns, (column.decode row).isSome = true)
    (hcell : ∀ column ∈ tbl.columns, column.name ≠ "__proto__" → column.decode row = some (next column.name))
    (hothers : ∀ name, name ∉ tbl.columns.map (·.name) ∨ name = "__proto__" → next name = .absent) :
    tbl.decode row = some next := by
  have hsome : ∀ {cols : List Column} {st : EvaluatedRow}, (∀ column ∈ cols, column ∈ tbl.columns) →
      ∃ decoded, cols.foldlM (fun (next : EvaluatedRow) column => do
        let val ← column.decode row
        return if val = .absent then next else next.assign column.name val) st = some decoded := by
    intro cols
    induction cols with
    | nil => exact fun _ => ⟨_, rfl⟩
    | cons column cols ih =>
      intro st hmem
      obtain ⟨val, hval⟩ := Option.isSome_iff_exists.mp (hread column (hmem column mem_cons_self))
      rw [foldlM_cons, hval]
      exact ih fun c hc => hmem c (mem_cons_of_mem column hc)
  obtain ⟨decoded, hdecoded⟩ := hsome fun _ h => h
  obtain ⟨hdecodedCells, hdecodedOthers⟩ := decode_spec hdecoded
  have heq : decoded = next := by
    funext name
    by_cases hoth : name ∉ tbl.columns.map (·.name) ∨ name = "__proto__"
    · rw [hdecodedOthers name hoth, hothers name hoth]
    · obtain ⟨hname, hproto⟩ := not_or.mp hoth
      obtain ⟨column, hcol, rfl⟩ := mem_map.mp (not_not.mp hname)
      exact Option.some.inj ((hdecodedCells column hcol hproto).symm.trans (hcell column hcol hproto))
  rw [← heq]
  exact hdecoded

theorem decode_toSqlite {s : Scalar} (h : s.HasType type) : type.decode (toSqlite s) = .scalar s := by
  cases type with
  | str =>
    cases s with
    | str s =>
      obtain ⟨cs, rfl⟩ := h
      rw [toSqlite_str]
      rfl
    | _ => exact h.elim
  | int | num =>
    cases s with
    | num q => rfl
    | _ => exact h.elim
  | bool =>
    cases s with
    | bool b => cases b <;> rfl
    | _ => exact h.elim

/-- What the evaluator gives an entry, and the column read back. -/
theorem SetTyped.evaluate_entry {set : SetNode} (h : SetTyped tbl set) {evd : EvaluatedRow}
    (hrow : Decoded tbl row evd) (hcol : column ∈ tbl.columns)
    (hent : (column.name, node) ∈ set) (hnode : EntryTyped tbl column node)
    (hcols : ∀ name ∈ node.columns, ¬Shadowed row name) :
    if node.overflows row then evaluate evd node = .error .unsafeInteger
    else ∃ val, evaluate evd node = .ok val ∧ column.decode (set.rowAfter tbl row) = some val := by
  have hval : set.rowAfter tbl row column.name = node.value row := h.rowAfter_entry hent
  unfold EntryTyped at hnode
  unfold Column.decode
  rw [hval]
  cases hcoltype : column.type with
  | scalar type default =>
    rw [hcoltype] at hnode
    have hgives := evaluate_value hrow hnode.1 hcols
    unfold Gives at hgives
    split
    · rename_i hoverflows
      rwa [if_pos hoverflows] at hgives
    · rename_i hfine
      rw [if_neg hfine] at hgives
      obtain ⟨val, hok, hsto⟩ := hgives
      refine ⟨val, hok, ?_⟩
      rcases hsto with ⟨hnull, rfl⟩ | ⟨s, hs, hsql, rfl⟩
      · rw [if_pos hnull]
      · rw [hsql, if_neg (toSqlite_ne_null s)]
        exact congrArg some (decode_toSqlite hs)
  | json json =>
    rw [hcoltype] at hnode
    have hver : set.rowAfter tbl row (versionColumn column.name) = node.stamp json.version :=
      h.rowAfter_version hent (jsonVersions_of_mem hcol hcoltype (mem_map_of_mem hent))
    rw [hver]
    rcases hnode with ⟨rfl, -⟩ | ⟨x, rfl⟩
    · exact ⟨.absent, rfl, rfl⟩
    · refine ⟨.json x, rfl, ?_⟩
      show (json.read x (.num json.version)).map Value.json = some (.json x)
      rw [json.read_self]
      rfl

section Loop

variable {evd : EvaluatedRow} {set : SetNode}

/-- The loop of `applySet`. -/
def applyEntries (evaluated : EvaluatedRow) (set : SetNode) (start : EvaluatedRow) : Except EvaluateError EvaluatedRow :=
  set.foldlM (fun next (column, node) => do return next.assign column (← evaluate evaluated node)) start

theorem applyEntries_cons (entry : String × ExprNode) (st : EvaluatedRow) : applyEntries evd (entry :: set) st =
      evaluate evd entry.2 >>= fun val => applyEntries evd set (st.assign entry.1 val) := by
  obtain ⟨column, node⟩ := entry
  unfold applyEntries
  rw [foldlM_cons]
  dsimp only
  cases evaluate evd node <;> rfl

/-- Entries that all give a value leave these in the row. -/
theorem applyEntries_ok (hnd : (set.map Prod.fst).Nodup) (hplain : ∀ entry ∈ set, entry.1 ≠ "__proto__")
    (hvals : ∀ entry ∈ set, ∃ val, evaluate evd entry.2 = .ok val) (st : EvaluatedRow) :
    ∃ next, applyEntries evd set st = .ok next ∧
      (∀ entry ∈ set, evaluate evd entry.2 = .ok (next entry.1)) ∧
      ∀ name, name ∉ set.map Prod.fst → next name = st name := by
  induction set generalizing st with
  | nil => exact ⟨st, rfl, nofun, fun _ _ => rfl⟩
  | cons entry set ih =>
    rw [map_cons, nodup_cons] at hnd
    obtain ⟨val, hval⟩ := hvals entry mem_cons_self
    obtain ⟨next, hloop, hset, hothers⟩ := ih hnd.2 (fun e he => hplain e (mem_cons_of_mem entry he))
      (fun e he => hvals e (mem_cons_of_mem entry he)) (st.assign entry.1 val)
    have hassign : st.assign entry.1 val = update st entry.1 val := if_neg (hplain entry mem_cons_self)
    refine ⟨next, ?_, fun e he => ?_, fun name hname => ?_⟩
    · rw [applyEntries_cons, hval]
      exact hloop
    · rcases mem_cons.mp he with rfl | he
      · rw [hothers e.1 hnd.1, hassign, update_self, hval]
      · exact hset e he
    · rw [map_cons, mem_cons, not_or] at hname
      rw [hothers name hname.2, hassign, update_of_ne hname.1]

/-- The first entry that overflows is the set's error. -/
theorem applyEntries_error
    (hvals : ∀ entry ∈ set, evaluate evd entry.2 = .error .unsafeInteger ∨ ∃ val, evaluate evd entry.2 = .ok val)
    (herr : ∃ entry ∈ set, evaluate evd entry.2 = .error .unsafeInteger) (st : EvaluatedRow) :
    applyEntries evd set st = .error .unsafeInteger := by
  induction set generalizing st with
  | nil =>
    obtain ⟨entry, hmem, -⟩ := herr
    cases hmem
  | cons entry set ih =>
    rw [applyEntries_cons]
    rcases hvals entry mem_cons_self with hfails | ⟨val, hval⟩
    · rw [hfails]
      rfl
    · rw [hval]
      obtain ⟨oth, hmem, hoth⟩ := herr
      rcases mem_cons.mp hmem with rfl | hmem
      · rw [hval] at hoth
        cases hoth
      · exact ih (fun e he => hvals e (mem_cons_of_mem entry he)) ⟨oth, hmem, hoth⟩ _

end Loop

end PiBridge.Chord.Store
