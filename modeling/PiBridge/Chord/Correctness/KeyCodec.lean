import PiBridge.Chord.Store.TableChanges
import PiBridge.Chord.Correctness.EvaluatorSql
import PiBridge.Lib.Keyed

/-!
# `Chord.Correctness.KeyCodec` — what is bound for rows and keys

A key is bound as values of its columns' types, and its record encodes to the same (`encodeKey_again`). Keys of one
text have the same values (`keyId_inj`). The row of a `put` satisfies its constraints, is read back as the record
that the overlay keeps, and has the key that its text tells (`put_spec`).
-/

namespace PiBridge.Chord.Store

open Lib List SqlValue

variable {tbl : TableDefinition} {nums : Numbers}

/-! ## Stored text again -/

theorem toNat_ofNat_valid {n : Nat} (h : n.isValidChar) : (Char.ofNat n).toNat = n := by
  rw [Char.ofNat, dif_pos h]
  exact toNat_ofNatAux h

theorem zero_not_mem_codeUnits {c : Char} (h : c.toNat ≠ 0) : 0 ∉ codeUnits c := by
  intro hmem
  have hzero : (0 : UInt16).toNat = 0 := rfl
  rcases codeUnits_cases c with ⟨-, u, hu, huv, -⟩ | ⟨hge, u, v, hu, huv, hvv, -⟩
  · rw [hu] at hmem
    obtain rfl := mem_singleton.mp hmem
    exact h huv.symm
  · rw [hu] at hmem
    rcases mem_cons.mp hmem with rfl | hmem
    · omega
    · obtain rfl := mem_singleton.mp hmem
      omega

/-- A unit in no pair is kept, or replaced by U+FFFD. -/
theorem zero_not_mem_unitChar {c : UInt16} (h : c ≠ 0) : 0 ∉ codeUnits (unitChar c) := by
  unfold unitChar
  split
  · have hvald : (0xFFFD).isValidChar := Or.inr ⟨by omega, by omega⟩
    refine zero_not_mem_codeUnits ?_
    rw [toNat_ofNat_valid hvald]
    omega
  · rename_i hnot
    obtain ⟨hhigh, hlow⟩ := Bool.or_eq_false_iff.mp (Bool.eq_false_of_not_eq_true hnot)
    have hkept : codeUnits (Char.ofNat c.toNat) = [c] := by
      have hchars := (WellFormed.unit hhigh hlow).utf16_chars
      rw [chars, unitChar, if_neg hnot, utf16_cons, utf16_nil, append_nil] at hchars
      exact hchars
    rw [hkept]
    exact fun hmem => h (mem_singleton.mp hmem).symm

/-- A text without NUL has none once each lone surrogate is replaced. -/
theorem zero_not_mem_toWellFormed {s : Text} (h : 0 ∉ s) : 0 ∉ toWellFormed s := by
  unfold toWellFormed
  induction s using chars.induct with
  | case1 => exact not_mem_nil
  | case2 c =>
    rw [chars, utf16_cons, utf16_nil, append_nil]
    exact zero_not_mem_unitChar fun hc => h (mem_singleton.mpr hc.symm)
  | case3 c d s hpair ih =>
    obtain ⟨hhigh, hlow⟩ := (Bool.and_eq_true _ _).mp hpair
    have hkept : codeUnits (pairChar c d) = [c, d] := by
      have hchars := (WellFormed.pair hhigh hlow).utf16_chars
      rw [chars, if_pos hpair, utf16_cons, chars, utf16_nil, append_nil] at hchars
      exact hchars
    rw [chars, if_pos hpair, utf16_cons, hkept]
    intro hmem
    rcases mem_append.mp hmem with hmem | hmem
    · exact h (mem_append_left s hmem)
    · exact ih (fun hrest => h (mem_append_right [c, d] hrest)) hmem
  | case4 c d s hpair ih =>
    rw [chars, if_neg hpair, utf16_cons]
    intro hmem
    rcases mem_append.mp hmem with hmem | hmem
    · exact zero_not_mem_unitChar (fun hc => h (hc ▸ mem_cons_self)) hmem
    · exact ih (fun hrest => h (mem_cons_of_mem c hrest)) hmem

/-- What the store keeps is kept as it is. -/
theorem checkScalar_json {type : ScalarType} {val : Json} {s : Scalar} (h : checkScalar type val = some s) :
    checkScalar type s.json = some s := by
  unfold checkScalar at h
  split at h
  · -- `str`: the text is well-formed, and still has no NUL.
    obtain ⟨sto, hsto, rfl⟩ := Option.map_eq_some_iff.mp h
    unfold storedText at hsto
    split at hsto
    · cases hsto
    · rename_i hzero
      cases hsto
      show (storedText (toWellFormed _)).map Scalar.str = _
      rw [storedText, if_neg (zero_not_mem_toWellFormed hzero), toWellFormed, toWellFormed, chars_utf16]
      rfl
  · split at h
    · rename_i hsafe
      cases h
      exact if_pos hsafe
    · cases h
  · cases h
    rfl
  · cases h
    rfl
  · cases h

/-! ## Keys -/

/-- A value of a scalar column, as it is bound. -/
def BoundTo (table : TableDefinition) (name : String) (v : SqlValue) : Prop :=
  ∃ column ∈ table.columns, column.name = name ∧ ∃ type default, column.type = .scalar type default ∧
    ∃ s : Scalar, checkScalar type s.json = some s ∧ v = toSqlite s

/-- Parameters of a key. -/
def KeyParams (table : TableDefinition) (params : List SqlValue) : Prop := List.Forall₂ (BoundTo table) table.key params

variable {flds : Fields} {name : String} {v : SqlValue} {col : Column}

/-- The scalar of a key column is a text or a safe integer. -/
theorem BoundTo.key (h : BoundTo tbl name v) (hname : name ∈ tbl.key) :
    ∃ col ∈ tbl.columns, col.name = name ∧ col.optional = false ∧ ∃ type default, col.type = .scalar type default ∧
      ((type = .str ∧ ∃ cs, checkScalar .str (.str (utf16 cs)) = some (.str (utf16 cs)) ∧ v = .text cs) ∨
        (type = .int ∧ ∃ q, isSafeInteger q = true ∧ v = .num q)) := by
  obtain ⟨col, hcol, rfl, type, default, htype, s, hs, rfl⟩ := h
  obtain ⟨oth, hoth, hothername, hreqd, hkeyed⟩ := tbl.keyed _ hname
  obtain rfl := inj_on_of_nodup_map tbl.names_nodup hoth hcol hothername
  refine ⟨oth, hcol, rfl, hreqd, type, default, htype, ?_⟩
  have hscal := checkScalar_hasType hs
  rw [htype] at hkeyed
  rcases hkeyed with hstr | hint
  · obtain rfl : type = .str := Option.some.inj hstr
    cases s with
    | str s =>
      obtain ⟨cs, rfl⟩ := hscal
      exact Or.inl ⟨rfl, cs, hs, toSqlite_str cs⟩
    | _ => exact hscal.elim
  · obtain rfl : type = .int := Option.some.inj hint
    cases s with
    | num q => exact Or.inr ⟨rfl, q, hscal, rfl⟩
    | _ => exact hscal.elim

/-- A JSON value as it would be bound. -/
def bindJson : Json → SqlValue
  | .num q => .num q
  | .str s => .text (chars s)
  | _ => .null

/-- **Keys of one text are one**, where integers are read back from their text. -/
theorem keyId_inj (hnumbers : ∀ q, isSafeInteger q = true → nums.Writes q) {ps ps' : List SqlValue}
    (h : KeyParams tbl ps) (h' : KeyParams tbl ps') (hid : keyId nums ps = keyId nums ps') :
    ps = ps' := by
  have hvals : ∀ {ps : List SqlValue}, KeyParams tbl ps → ∀ v ∈ ps, (∃ cs, v = .text cs) ∨ ∃ q, isSafeInteger q = true ∧ v = .num q := by
    intro ps hpars v hv
    obtain ⟨hlen, hbnd⟩ := forall₂_iff_zip.mp hpars
    obtain ⟨i, hi, rfl⟩ := getElem_of_mem hv
    have hzip : (tbl.key[i], ps[i]) ∈ tbl.key.zip ps := by
      rw [mem_iff_getElem]
      exact ⟨i, by rw [length_zip, hlen, Nat.min_self]; exact hi, getElem_zip⟩
    obtain ⟨col, -, -, -, type, default, -, hval⟩ := (hbnd hzip).key (of_mem_zip hzip).1
    rcases hval with ⟨-, cs, -, hcs⟩ | ⟨-, q, hq, hnum⟩
    · exact Or.inl ⟨cs, hcs⟩
    · exact Or.inr ⟨q, hq, hnum⟩
  have hplain : ∀ {ps : List SqlValue}, KeyParams tbl ps → Plain nums (.arr (ps.map toJson)) := by
    intro ps hpars
    refine .arr fun x hx => ?_
    obtain ⟨v, hv, rfl⟩ := mem_map.mp hx
    rcases hvals hpars v hv with ⟨cs, rfl⟩ | ⟨q, hq, rfl⟩
    · exact .str
    · exact .num (hnumbers q hq)
  have hback : ∀ {ps : List SqlValue}, KeyParams tbl ps → (ps.map toJson).map bindJson = ps := by
    intro ps hpars
    rw [map_map]
    refine (map_congr_left fun v hv => ?_).trans (map_id ps)
    rcases hvals hpars v hv with ⟨cs, rfl⟩ | ⟨q, -, rfl⟩
    · show SqlValue.text (chars (utf16 cs)) = .text cs
      rw [chars_utf16]
    · rfl
  -- The text of a key is parsed back to its array.
  have hparse := parse_stringify (hplain h)
  have hparse' := parse_stringify (hplain h')
  rw [← keyId, hid, keyId, hparse'] at hparse
  have harray : ps'.map toJson = ps.map toJson := Json.arr.inj (Option.some.inj hparse)
  rw [← hback h, ← harray, hback h']

/-! ## Rows -/

/-- A cell of a column: none, where the column takes none, or a value of its type. -/
def CellOf (column : Column) (cell : Cell) : Prop := (column.optional = true ∧ cell = .null) ∨
    (∃ type default s, column.type = .scalar type default ∧ checkScalar type s.json = some s ∧ cell = ⟨toSqlite s, .scalar s⟩) ∨
    ∃ json x, column.type = .json json ∧ cell = ⟨.json x, .json x⟩

theorem putCell_spec {cell : Cell} (h : putCell flds col = some cell) : CellOf col cell := by
  obtain ⟨val, -, h⟩ := Option.bind_eq_some_iff.mp h
  cases hval : val.or col.type.default with
  | none =>
    rw [hval] at h
    dsimp only at h
    split at h
    · rename_i hopt
      exact Or.inl ⟨hopt, (Option.some.inj h).symm⟩
    · cases h
  | some x =>
    rw [hval] at h
    refine Or.inr ?_
    cases htype : col.type with
    | scalar type default =>
      rw [htype] at h
      obtain ⟨s, hs, rfl⟩ := Option.map_eq_some_iff.mp h
      exact Or.inl ⟨type, default, s, rfl, checkScalar_json hs, rfl⟩
    | json json =>
      rw [htype] at h
      exact Or.inr ⟨json, x, rfl, (Option.some.inj h).symm⟩

/-- **What a record holds**: each column's cell, and nothing else. -/
theorem recordCells_spec (cells : List (Column × Cell)) (hnd : (cells.map (·.1.name)).Nodup) :
    (∀ ent ∈ cells, ent.1.name ≠ "__proto__" → recordCells cells ent.1.name = ent.2.stored) ∧
      ∀ name, name ∉ cells.map (·.1.name) ∨ name = "__proto__" → recordCells cells name = .absent := by
  have hloop : ∀ (st : EvaluatedRow) {cells : List (Column × Cell)}, (cells.map (·.1.name)).Nodup →
      let row := cells.foldl recordCell st
      (∀ ent ∈ cells, ent.1.name ≠ "__proto__" → st ent.1.name = .absent → row ent.1.name = ent.2.stored) ∧
        ∀ name, name ∉ cells.map (·.1.name) ∨ name = "__proto__" → row name = st name := by
    intro st cells hnd
    induction cells generalizing st with
    | nil => exact ⟨forall_mem_nil _, fun _ _ => rfl⟩
    | cons ent cells ih =>
      rw [map_cons, nodup_cons] at hnd
      have hstep : ∀ name, name ≠ ent.1.name ∨ name = "__proto__" →
          (if ent.2.stored = .absent then st else st.assign ent.1.name ent.2.stored) name = st name := by
        intro name hname
        split
        · rfl
        · unfold EvaluatedRow.assign
          split
          · rfl
          · rename_i hproto
            rw [Function.update_of_ne (hname.elim id fun heq hcol => hproto (hcol ▸ heq))]
      obtain ⟨hcells, hothers⟩ := ih (if ent.2.stored = .absent then st else st.assign ent.1.name ent.2.stored) hnd.2
      refine ⟨fun e he hproto habs => ?_, fun name hname => ?_⟩
      · rcases mem_cons.mp he with rfl | he
        · refine (hothers e.1.name (Or.inl hnd.1)).trans ?_
          split
          · rename_i hnone
            rw [hnone, habs]
          · rw [EvaluatedRow.assign, if_neg hproto, Function.update_self]
        · have hne : e.1.name ≠ ent.1.name := fun heq => hnd.1 (heq ▸ mem_map_of_mem (f := fun e => e.1.name) he)
          exact hcells e he hproto ((hstep e.1.name (Or.inl hne)).trans habs)
      · rw [map_cons, mem_cons, not_or] at hname
        exact (hothers name (hname.imp And.right id)).trans (hstep name (hname.imp And.left id))
  obtain ⟨hcells, hothers⟩ := hloop (fun _ => .absent) hnd
  exact ⟨fun ent hent hproto => hcells ent hent hproto rfl, hothers⟩

theorem mem_jsonColumns {json : JsonColumn} (h : (name, json) ∈ tbl.jsonColumns) :
    ∃ col ∈ tbl.columns, col.name = name ∧ col.type = .json json := by
  obtain ⟨col, hcol, hent⟩ := mem_filterMap.mp h
  refine ⟨col, hcol, ?_⟩
  cases htype : col.type with
  | scalar type default =>
    rw [htype] at hent
    cases hent
  | json json' =>
    rw [htype] at hent
    cases hent
    exact ⟨rfl, rfl⟩

theorem jsonColumns_of_mem (h : col ∈ tbl.columns) {json : JsonColumn} (htype : col.type = .json json) :
    (col.name, json) ∈ tbl.jsonColumns :=
  mem_filterMap.mpr ⟨col, h, by rw [htype]⟩

theorem jsonColumns_nodup (tbl : TableDefinition) : (tbl.jsonColumns.map Prod.fst).Nodup := by
  refine tbl.names_nodup.sublist ?_
  unfold TableDefinition.jsonColumns
  induction tbl.columns with
  | nil => exact Sublist.slnil
  | cons col columns ih =>
    rw [filterMap_cons]
    cases col.type with
    | scalar type default => exact ih.cons _
    | json json => exact ih.cons_cons _

/-- No two physical columns have one name. -/
theorem physical_nodup (tbl : TableDefinition) : tbl.physical.Nodup := by
  have hlegal : ∀ {name}, name ∈ tbl.columns.map (·.name) → columnName name = true := by
    intro name hname
    obtain ⟨col, hcol, rfl⟩ := mem_map.mp hname
    exact tbl.names col hcol
  have hjsonLegal : ∀ {e}, e ∈ tbl.jsonColumns → columnName e.1 = true := by
    intro e hent
    obtain ⟨col, hcol, hname, -⟩ := mem_jsonColumns hent
    rw [← hname]
    exact tbl.names col hcol
  have hversions : (tbl.jsonColumns.map (versionColumn ·.1)).Nodup := by
    have hmap := (jsonColumns_nodup tbl).map fun _ _ => versionColumn_inj
    rwa [map_map] at hmap
  have hrow : ∀ name, rowVersion = versionColumn name → columnName name = false := by
    intro name heq
    have hemp : versionColumn "" = rowVersion := by decide
    obtain rfl := versionColumn_inj (hemp.trans heq)
    decide
  unfold TableDefinition.physical
  rw [nodup_append, nodup_append]
  refine ⟨⟨tbl.names_nodup, hversions, ?_⟩, nodup_singleton _, ?_⟩
  · intro name hname ver hver heq
    obtain ⟨e, -, rfl⟩ := mem_map.mp hver
    exact versionColumn_ne (hlegal hname) e.1 heq.symm
  · intro name hname ver hver heq
    obtain rfl := mem_singleton.mp hver
    rcases mem_append.mp hname with hname | hname
    · exact dollar_of_columnName (hlegal hname) (by rw [heq]; decide)
    · obtain ⟨e, hent, hentryName⟩ := mem_map.mp hname
      have hillegal := hrow e.1 (heq.symm.trans hentryName.symm)
      rw [hjsonLegal hent] at hillegal
      cases hillegal

/-- The row an `INSERT` of the parameters makes. -/
def TableDefinition.inserted (table : TableDefinition) (params : List SqlValue) : SqlRow :=
  SqlRow.assign (fun _ => .null) (table.physical.zip params)

section Put

variable {cells : List Cell} (hcells : tbl.columns.length = cells.length) (versions : List SqlValue)
  (hversions : tbl.jsonColumns.length = versions.length) (ver : SqlValue)

include hcells hversions

theorem zip_physical : tbl.physical.zip (cells.map (·.param) ++ versions ++ [ver]) =
    (tbl.columns.map (·.name)).zip (cells.map (·.param)) ++ (tbl.jsonColumns.map (versionColumn ·.1)).zip versions ++
      [(rowVersion, ver)] := by
  unfold TableDefinition.physical
  rw [zip_append (by simp [hcells, hversions]), zip_append (by simp [hcells])]
  rfl

theorem inserted_nodup : ((tbl.physical.zip (cells.map (·.param) ++ versions ++ [ver])).map Prod.fst).Nodup := by
  rw [map_fst_zip (by simp [TableDefinition.physical, hcells, hversions])]
  exact physical_nodup tbl

/-- A column has its cell's parameter. -/
theorem inserted_cell {e : Column × Cell} (h : e ∈ tbl.columns.zip cells) :
    tbl.inserted (cells.map (·.param) ++ versions ++ [ver]) e.1.name = e.2.param := by
  refine assign_of_mem _ (inserted_nodup hcells versions hversions ver) ?_
  rw [zip_physical hcells versions hversions ver, zip_map]
  exact mem_append_left _ (mem_append_left _ (mem_map.mpr ⟨e, h, rfl⟩))

/-- A version column has its version. -/
theorem inserted_version {e : (String × JsonColumn) × SqlValue} (h : e ∈ tbl.jsonColumns.zip versions) :
    tbl.inserted (cells.map (·.param) ++ versions ++ [ver]) (versionColumn e.1.1) = e.2 := by
  refine assign_of_mem _ (inserted_nodup hcells versions hversions ver) ?_
  have hmem : (versionColumn e.1.1, e.2) ∈ (tbl.jsonColumns.map (versionColumn ·.1)).zip versions := by
    rw [zip_map_left]
    exact mem_map.mpr ⟨e, h, rfl⟩
  rw [zip_physical hcells versions hversions ver]
  exact mem_append_left _ (mem_append_right _ hmem)

end Put

theorem CellOf.accepts {cell : Cell} (h : CellOf col cell) {row : SqlRow} (hcell : row col.name = cell.param)
    (hver : ∀ json, col.type = .json json →
      row (versionColumn col.name) = if cell.stored = .absent then .null else .num json.version) :
    col.accepts row = true ∧ col.decode row = some cell.stored := by
  unfold Column.accepts Column.decode
  rw [hcell]
  rcases h with ⟨hopt, rfl⟩ | ⟨type, default, s, htype, hs, rfl⟩ | ⟨json, x, htype, rfl⟩
  · refine ⟨?_, if_pos rfl⟩
    cases htype : col.type with
    | scalar type default => exact (if_pos rfl).trans hopt
    | json json =>
      have hnull : row (versionColumn col.name) = .null := (hver json htype).trans (if_pos rfl)
      rw [hnull, hopt]
      rfl
  · have htyp := checkScalar_hasType hs
    rw [htype]
    refine ⟨(if_neg (toSqlite_ne_null s)).trans ?_, ?_⟩
    · rw [accepts_of_fits (toSqlite_fits htyp) (toSqlite_ne_null s), Bool.not_eq_true']
      cases type with
      | int =>
        cases s with
        | num q =>
          have hsafe : isSafeInteger q = true := htyp
          simp [toSqlite, isUnsafe, hsafe]
        | _ => exact htyp.elim
      | _ => rfl
    · rw [if_neg (toSqlite_ne_null s)]
      exact congrArg some (decode_toSqlite htyp)
  · rw [htype, hver json htype, if_neg fun habs => by cases habs]
    refine ⟨?_, ?_⟩
    · show decide ((json.version : Rat).den = 1) = true
      exact decide_eq_true (Rat.den_natCast _)
    · rw [if_neg fun hnull => by cases hnull]
      show (json.read x (.num json.version)).map Value.json = some (.json x)
      rw [json.read_self]
      rfl

/-- **The row of a `put`** satisfies its constraints, is read back as its record, and has the key that its text tells,
where no `json(...)` column is named `__proto__`. -/
theorem put_spec {enc : EncodedRow} (h : tbl.put nums flds = some enc)
    (hplain : ∀ col ∈ tbl.columns, col.name = "__proto__" → col.type.scalar?.isSome = true) :
    tbl.physical.length = enc.params.length ∧ tbl.accepts (tbl.inserted enc.params) = true ∧
      tbl.decode (tbl.inserted enc.params) = some enc.row ∧
      KeyParams tbl (tbl.rowKey (tbl.inserted enc.params)) ∧
      enc.id = keyId nums (tbl.rowKey (tbl.inserted enc.params)) := by
  obtain ⟨u, -, h⟩ := Option.bind_eq_some_iff.mp h
  obtain ⟨cells, hmapM, h⟩ := Option.bind_eq_some_iff.mp h
  obtain ⟨hlen, hput⟩ := forall₂_iff_zip.mp (mapM_some_iff.mp hmapM)
  have hcells : ∀ {col cell}, (col, cell) ∈ tbl.columns.zip cells → CellOf col cell := fun hmem =>
    putCell_spec (hput hmem)
  have hex : ∀ col ∈ tbl.columns, ∃ cell, (col, cell) ∈ tbl.columns.zip cells := by
    intro col hcol
    obtain ⟨i, hi, rfl⟩ := getElem_of_mem hcol
    exact ⟨cells[i], mem_iff_getElem.mpr ⟨i, by rw [length_zip]; omega, getElem_zip⟩⟩
  have hnams : (tbl.columns.zip cells).map (·.1.name) = tbl.columns.map (·.name) := by
    have hfst : (tbl.columns.zip cells).map Prod.fst = tbl.columns := map_fst_zip (Nat.le_of_eq hlen)
    rw [← hfst, map_map, hfst]
    rfl
  obtain ⟨hrec, hothers⟩ := recordCells_spec (tbl.columns.zip cells) (by rw [hnams]; exact tbl.names_nodup)
  cases h
  dsimp only
  generalize recordCells (tbl.columns.zip cells) = stored at hrec hothers ⊢
  have hversions : tbl.jsonColumns.length = (tbl.versionParams stored).length := (length_map _).symm
  generalize hpars : cells.map (fun cell => cell.param) ++ tbl.versionParams stored ++ [num tbl.version] = params
  have hcell : ∀ {col cell}, (col, cell) ∈ tbl.columns.zip cells → tbl.inserted params col.name = cell.param := by
    intro col cell hmem
    rw [← hpars]
    exact inserted_cell hlen _ hversions _ hmem
  have hver : ∀ {col cell}, (col, cell) ∈ tbl.columns.zip cells → ∀ json, col.type = .json json →
      tbl.inserted params (versionColumn col.name) = if cell.stored = .absent then .null else .num json.version := by
    intro col cell hmem json htype
    have hcol := (of_mem_zip hmem).1
    have hproto : col.name ≠ "__proto__" := by
      intro heq
      have hscal := hplain col hcol heq
      rw [htype] at hscal
      cases hscal
    have hzip : ((col.name, json), if stored col.name = Value.absent then null else .num json.version) ∈
        tbl.jsonColumns.zip (tbl.versionParams stored) := by
      obtain ⟨i, hi, hent⟩ := getElem_of_mem (jsonColumns_of_mem hcol htype)
      refine mem_iff_getElem.mpr ⟨i, by rw [length_zip, ← hversions, Nat.min_self]; exact hi, ?_⟩
      rw [getElem_zip]
      simp only [TableDefinition.versionParams, getElem_map, hent]
    have hone := inserted_version hlen _ hversions (.num (tbl.version : Rat)) hzip
    rw [hpars] at hone
    rw [hone, hrec (col, cell) hmem hproto]
  have hrow : ∀ {col cell}, (col, cell) ∈ tbl.columns.zip cells →
      col.accepts (tbl.inserted params) = true ∧ col.decode (tbl.inserted params) = some cell.stored :=
    fun hmem => (hcells hmem).accepts (hcell hmem) (hver hmem)
  refine ⟨?_, ?_, ?_, ?_, ?_⟩
  · rw [← hpars]
    simp [TableDefinition.physical, hlen, hversions]
  · rw [TableDefinition.accepts, all_eq_true]
    intro col hcol
    obtain ⟨cell, hmem⟩ := hex col hcol
    exact (hrow hmem).1
  · refine decode_of_cells (fun col hcol => ?_) (fun col hcol hproto => ?_) fun name hname => ?_
    · obtain ⟨cell, hmem⟩ := hex col hcol
      rw [(hrow hmem).2]
      rfl
    · obtain ⟨cell, hmem⟩ := hex col hcol
      rw [(hrow hmem).2, hrec (col, cell) hmem hproto]
    · rw [← hnams] at hname
      exact hothers name hname
  · unfold KeyParams TableDefinition.rowKey
    rw [forall₂_map_right_iff, forall₂_same]
    intro name hname
    obtain ⟨col, hcol, rfl, hreqd, hkeyed⟩ := tbl.keyed name hname
    obtain ⟨cell, hmem⟩ := hex col hcol
    rw [hcell hmem]
    rcases hcells hmem with ⟨hopt, -⟩ | ⟨type, default, s, htype, hs, rfl⟩ | ⟨json, x, htype, -⟩
    · rw [hreqd] at hopt
      cases hopt
    · exact ⟨col, hcol, rfl, type, default, htype, s, hs, rfl⟩
    · rw [htype] at hkeyed
      rcases hkeyed with hkeyed | hkeyed <;> cases hkeyed
  · refine congrArg (keyId nums) ?_
    rw [map_map]
    refine map_congr_left fun name hname => ?_
    obtain ⟨col, hcol, rfl, -⟩ := tbl.keyed name hname
    have hfind : tbl.columns.findIdx (·.name = col.name) < tbl.columns.length :=
      findIdx_lt_length_of_exists ⟨col, hcol, decide_eq_true rfl⟩
    have hname' : (tbl.columns[tbl.columns.findIdx (·.name = col.name)]).name = col.name :=
      of_decide_eq_true (findIdx_getElem (w := hfind))
    have hzip : (tbl.columns[tbl.columns.findIdx (·.name = col.name)], cells[tbl.columns.findIdx (·.name = col.name)]) ∈
        tbl.columns.zip cells := mem_iff_getElem.mpr ⟨_, by rw [length_zip]; omega, getElem_zip⟩
    have hparam := hcell hzip
    rw [hname'] at hparam
    show params.getD (tbl.columns.findIdx (·.name = col.name)) .null = _
    have hidx : tbl.columns.findIdx (·.name = col.name) < (cells.map (·.param)).length := by
      rw [length_map]
      omega
    rw [hparam, ← hpars, append_assoc, getD_eq_getElem?_getD, getElem?_append_left hidx,
      getElem?_eq_getElem hidx, Option.getD_some, getElem_map]

end PiBridge.Chord.Store
