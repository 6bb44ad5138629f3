import PiBridge.Chord.Store.Query
import PiBridge.Chord.Correctness.OwnWrites

/-!
# `Chord.Correctness.Paging` — following the cursors of a query's pages reads its rows

The order of a query is total on the rows of its table, as it ends with the key, and the condition of a page after a
row leaves the rows behind it (`execute_page`). A cursor gives back the order values it was made of, and is of no use with another
table, order or direction (`decodeCursor_encodeCursor`). So the pages that follow each other are the rows in order
(`follow_rows`).
-/

namespace PiBridge.Chord.Store

open Lib Link List SqlValue
open Option (bind_some bind_eq_bind)

/-! ## The order of rows -/

/-- A value of an order column: a text without NUL, or a safe integer. -/
def OrderValue (type : ScalarType) (v : SqlValue) : Prop :=
  (type = .str ∧ ∃ cs, v = .text cs ∧ Char.ofNat 0 ∉ cs) ∨ type = .int ∧ ∃ q, isSafeInteger q = true ∧ v = .num q

theorem sortKey_inj {type : ScalarType} {v w : SqlValue} (hv : OrderValue type v) (hw : OrderValue type w)
    (h : v.sortKey = w.sortKey) : v = w := by
  rcases hv with ⟨rfl, cs, rfl, -⟩ | ⟨rfl, q, -, rfl⟩
  · rcases hw with ⟨-, ds, rfl, -⟩ | ⟨htype, -⟩
    · -- a text is given back by its bytes
      have hranks : (utf8 cs).map UInt8.toNat = (utf8 ds).map UInt8.toNat := congrArg (fun k => (ofLex (ofLex k).2).2) h
      have hbytes : utf8 cs = utf8 ds := map_injective_iff.mpr (fun a b hab => UInt8.toNat_inj.mp hab) hranks
      have htexts := decodeUtf8_utf8 cs
      rw [hbytes, decodeUtf8_utf8] at htexts
      have hchars := congrArg chars (Option.some.inj htexts)
      rw [chars_utf16, chars_utf16] at hchars
      rw [hchars]
    · cases htype
  · rcases hw with ⟨htype, -⟩ | ⟨-, q', -, rfl⟩
    · cases htype
    · exact congrArg num (congrArg (fun k => (ofLex (ofLex k).2).1) h)

theorem lex_compares (xs ys : List UInt8) : Rows.Compares (lex UInt8.toNat xs ys) (xs.map UInt8.toNat) (ys.map UInt8.toNat) := by
  induction xs generalizing ys with
  | nil => cases ys <;> exact ⟨by simp, by simp⟩
  | cons x xs ih =>
    cases ys with
    | nil => exact ⟨by simp, by simp⟩
    | cons y ys =>
      rw [lex_cons]
      exact .cons ⟨Nat.compare_eq_lt, Nat.compare_eq_gt⟩ (ih ys)

/-- Order values compare as `ORDER BY` puts them. -/
theorem compare_sortKey {type : ScalarType} {v w : SqlValue} (hv : OrderValue type v) (hw : OrderValue type w) :
    ∃ order, v.compare w = some order ∧ Rows.Compares order v.sortKey w.sortKey := by
  rcases hv with ⟨rfl, cs, rfl, -⟩ | ⟨rfl, q, -, rfl⟩
  · rcases hw with ⟨-, ds, rfl, -⟩ | ⟨htype, -⟩
    · obtain ⟨hlt, hgt⟩ := lex_compares (utf8 cs) (utf8 ds)
      refine ⟨_, rfl, hlt.trans ?_, hgt.trans ?_⟩
      · simp [sortKey, Prod.Lex.toLex_lt_toLex]
      · simp [sortKey, Prod.Lex.toLex_lt_toLex]
    · cases htype
  · rcases hw with ⟨htype, -⟩ | ⟨-, q', -, rfl⟩
    · cases htype
    · refine ⟨_, rfl, compare_lt_iff_lt.trans ?_, compare_gt_iff_gt.trans ?_⟩
      · simp [sortKey, Prod.Lex.toLex_lt_toLex]
      · simp [sortKey, Prod.Lex.toLex_lt_toLex]

theorem compareRows_sortKey {types : List ScalarType} {vs ws : List SqlValue} (hv : List.Forall₂ OrderValue types vs)
    (hw : List.Forall₂ OrderValue types ws) :
    ∃ order, compareRows vs ws = some order ∧ Rows.Compares order (vs.map SqlValue.sortKey) (ws.map SqlValue.sortKey) := by
  induction hv generalizing ws with
  | nil =>
    cases hw
    exact ⟨.eq, rfl, .nil⟩
  | cons hfst _ ih =>
    cases hw with
    | cons hfst' hrest' =>
      obtain ⟨order, hcompare, hkeys⟩ := compare_sortKey hfst hfst'
      obtain ⟨order', hcompare', hkeys'⟩ := ih hrest'
      refine ⟨order.then order', ?_, hkeys.cons hkeys'⟩
      rw [compareRows, hcompare]
      cases order with
      | eq => exact hcompare'
      | lt => rfl
      | gt => rfl

namespace Order

variable (order : Order)

theorem le_refl (row : SqlRow) : order.le row row = true := by
  unfold le
  cases order.direction <;> simp

theorem le_trans (a b c : SqlRow) (hab : order.le a b = true) (hbc : order.le b c = true) : order.le a c = true := by
  unfold le at *
  cases hdirection : order.direction with
  | asc =>
    rw [hdirection] at hab hbc
    exact decide_eq_true ((of_decide_eq_true hab).trans (of_decide_eq_true hbc))
  | desc =>
    rw [hdirection] at hab hbc
    exact decide_eq_true ((of_decide_eq_true hbc).trans (of_decide_eq_true hab))

theorem le_total (a b : SqlRow) : (order.le a b || order.le b a) = true := by
  unfold le
  cases order.direction with
  | asc => simpa using LinearOrder.le_total (order.sortKey a) (order.sortKey b)
  | desc => simpa using LinearOrder.le_total (order.sortKey b) (order.sortKey a)

theorem sortKey_of_le {a b : SqlRow} (hab : order.le a b = true) (hba : order.le b a = true) : order.sortKey a = order.sortKey b := by
  unfold le at hab hba
  cases hdirection : order.direction with
  | asc =>
    rw [hdirection] at hab hba
    exact le_antisymm (of_decide_eq_true hab) (of_decide_eq_true hba)
  | desc =>
    rw [hdirection] at hab hba
    exact le_antisymm (of_decide_eq_true hba) (of_decide_eq_true hab)

end Order

/-! ## Cursors -/

theorem fromBase64_cursor (bytes : List UInt8) : fromBase64 (replaceUnit 95 47 (replaceUnit 45 43
    ((replaceUnit 47 95 (replaceUnit 43 45 (base64 bytes))).rdropWhile (· = 61)))) = some bytes := by
  have hall : (range 64).all (fun n =>
      replaceUnit 95 47 (replaceUnit 45 43 (replaceUnit 47 95 (replaceUnit 43 45 [sextetChar n]))) == [sextetChar n] &&
        (replaceUnit 47 95 (replaceUnit 43 45 [sextetChar n])).all fun c => c != 61) = true := by decide
  have hunit : ∀ n < 64, replaceUnit 95 47 (replaceUnit 45 43 (replaceUnit 47 95 (replaceUnit 43 45 [sextetChar n]))) =
      [sextetChar n] ∧ ∀ c ∈ replaceUnit 47 95 (replaceUnit 43 45 [sextetChar n]), c ≠ 61 := by
    intro n hn
    obtain ⟨hback, hpad⟩ := (Bool.and_eq_true_iff).mp (all_eq_true.mp hall n (mem_range.mpr hn))
    exact ⟨eq_of_beq hback, fun c hc => bne_iff_ne.mp (all_eq_true.mp hpad c hc)⟩
  have hmap : ∀ (old new : UInt16) (s t : Text), replaceUnit old new (s ++ t) = replaceUnit old new s ++ replaceUnit old new t :=
    fun _ _ _ _ => map_append
  have hsextets := sextets_lt bytes
  -- the digits come back, and none of them is the padding
  have hdigs : ∀ l : List Nat, (∀ n ∈ l, n < 64) →
      replaceUnit 95 47 (replaceUnit 45 43 (replaceUnit 47 95 (replaceUnit 43 45 (l.map sextetChar)))) = l.map sextetChar ∧
        ∀ c ∈ replaceUnit 47 95 (replaceUnit 43 45 (l.map sextetChar)), c ≠ 61 := by
    intro l hl
    induction l with
    | nil => exact ⟨rfl, nofun⟩
    | cons n l ih =>
      obtain ⟨hback, hpad⟩ := ih fun m hm => hl m (mem_cons_of_mem n hm)
      obtain ⟨hback', hpad'⟩ := hunit n (hl n mem_cons_self)
      have hcons : (n :: l).map sextetChar = [sextetChar n] ++ l.map sextetChar := rfl
      rw [hcons]
      simp only [hmap]
      refine ⟨by rw [hback, hback'], fun c hc => ?_⟩
      rcases mem_append.mp hc with hc | hc
      · exact hpad' c hc
      · exact hpad c hc
  obtain ⟨hback, hpad⟩ := hdigs _ hsextets
  have hbody : (replaceUnit 47 95 (replaceUnit 43 45 (base64 bytes))).rdropWhile (· = 61) =
      replaceUnit 47 95 (replaceUnit 43 45 ((sextets bytes).map sextetChar)) := by
    have hfill : ∀ n, replaceUnit 47 95 (replaceUnit 43 45 (replicate n 61)) = replicate n 61 := by
      intro n
      simp [replaceUnit]
    rw [base64, hmap, hmap, hfill]
    generalize (3 - bytes.length % 3) % 3 = n
    induction n with
    | zero =>
      rw [replicate_zero, append_nil]
      refine rdropWhile_eq_self_iff.mpr fun hne => ?_
      simpa using hpad _ (getLast_mem hne)
    | succ n ih => rw [replicate_succ', ← append_assoc, rdropWhile_concat_pos _ _ _ (by simp), ih]
  rw [hbody, hback]
  have hspace : ((sextets bytes).map sextetChar).filter (fun c => !isAsciiSpace c) = (sextets bytes).map sextetChar := by
    refine filter_eq_self.mpr fun c hc => ?_
    obtain ⟨n, hn, rfl⟩ := mem_map.mp hc
    rw [(sextetChar_spec (hsextets n hn)).2.1]
    rfl
  have hplain : dropPadding ((sextets bytes).map sextetChar) = (sextets bytes).map sextetChar := by
    have hdrop := dropPadding_append (s := (sextets bytes).map sextetChar) (n := 0) (fun c hc => ?_) (by decide)
    · rwa [replicate_zero, append_nil] at hdrop
    · obtain ⟨n, hn, rfl⟩ := mem_map.mp hc
      exact (sextetChar_spec (hsextets n hn)).2.2.1
  unfold fromBase64
  simp only [hspace, hplain, ite_self]
  rw [mapM_sextet? hsextets, bind_some, unpackSextets_sextets]

section Cursors

variable {numbers : Numbers} (hnumbers : ∀ q, isSafeInteger q = true → numbers.Writes q)

theorem arrayIndex_field {key : Text} (h : key ∈ [text "t", text "o", text "d", text "v"]) : arrayIndex? key = none := by
  have hletter : ∃ c ∈ key, isDigit c = false := by
    revert key
    decide
  obtain ⟨c, hc, hdig⟩ := hletter
  refine if_neg fun hidx => ?_
  rw [← hidx.1] at hc
  exact Bool.false_ne_true (hdig.symm.trans (isDigit_decimal hc))

variable {values : List SqlValue}

include hnumbers in
theorem plain_cursorJson (tbl : Text) (order : Order)
    (hvals : ∀ v ∈ values, ∃ type, OrderValue type v) : Plain numbers (cursorJson tbl order values) := by
  have hcols : Plain numbers (.arr (order.columns.map fun col => .str (text col))) := by
    refine .arr fun x hx => ?_
    obtain ⟨col, -, rfl⟩ := mem_map.mp hx
    exact .str
  have hv : Plain numbers (.arr (values.map toJson)) := by
    refine .arr fun x hx => ?_
    obtain ⟨v, hv, rfl⟩ := mem_map.mp hx
    obtain ⟨type, ⟨-, cs, rfl, -⟩ | ⟨-, q, hq, rfl⟩⟩ := hvals v hv
    · exact .str
    · exact .num (hnumbers q hq)
  have hkeys : ∀ p ∈ [(text "t", Json.str tbl), (text "o", .arr (order.columns.map fun col => .str (text col))),
      (text "d", .str order.direction.name), (text "v", .arr (values.map toJson))], arrayIndex? p.1 = none :=
    fun p hp => arrayIndex_field (mem_map_of_mem (f := Prod.fst) hp)
  refine .obj (by decide : [text "t", text "o", text "d", text "v"].Nodup) ?_ ?_
  · rw [enumerate, filter_eq_nil_iff.mpr fun p hp => by rw [hkeys p hp]; exact Bool.false_ne_true,
      filter_eq_self.mpr fun p hp => by rw [hkeys p hp]; rfl, mergeSort_nil, nil_append]
  · simp only [forall_mem_cons]
    exact ⟨.str, hcols, .str, hv, nofun⟩

end Cursors

section Round

variable {tbl : TableDefinition} {numbers : Numbers} (hnumbers : ∀ q, isSafeInteger q = true → numbers.Writes q)

/-- A column of an order, and a value of it. -/
def OrderColumn (table : TableDefinition) (name : String) (v : SqlValue) : Prop :=
  ∃ column ∈ table.columns, column.name = name ∧ ∃ type, column.type.scalar? = some type ∧ OrderValue type v

theorem OrderColumn.decode {name : String} {v : SqlValue} (h : OrderColumn tbl name v) :
    ((do
      let type ← (← tbl.byName name).type.scalar?
      return toSqlite (← checkScalar type v.toJson)) : Option SqlValue) = some v := by
  obtain ⟨col, hcol, rfl, type, htype, hval⟩ := h
  rw [byName_of_mem hcol, bind_eq_bind, bind_some, htype, bind_eq_bind, bind_some]
  rcases hval with ⟨rfl, cs, rfl, hnul⟩ | ⟨rfl, q, hq, rfl⟩
  · -- a text of the store is kept as it is
    have hzero : 0 ∉ utf16 cs := by
      intro hmem
      obtain ⟨c, hc, hunit⟩ := mem_flatMap.mp hmem
      refine zero_not_mem_codeUnits (fun hnat => hnul ?_) hunit
      rwa [← Char.toNat_inj.mp (show c.toNat = (Char.ofNat 0).toNat from hnat)]
    have hcheck : checkScalar .str (.str (utf16 cs)) = some (.str (utf16 cs)) := by
      rw [checkScalar, storedText, if_neg hzero, toWellFormed, chars_utf16]
      rfl
    rw [toJson, hcheck]
    exact congrArg some (toSqlite_str cs)
  · rw [toJson, checkScalar, if_pos hq]
    rfl

variable {values : List SqlValue}

include hnumbers in
/-- What a cursor of some table and order decodes to, for this one. -/
theorem decodeCursor_parsed (sn sn' : Text) (order order' : Order) (hvals : ∀ v ∈ values, ∃ type, OrderValue type v) :
    decodeCursor numbers tbl sn order (encodeCursor numbers sn' order' values) =
      if sn' = sn ∧ order'.columns = order.columns ∧ order'.direction = order.direction ∧
          values.length = order.columns.length then (order.columns.zip (values.map SqlValue.toJson)).mapM fun (name, val) => do
          let type ← (← tbl.byName name).type.scalar? return toSqlite (← checkScalar type val) else none := by
  have hplain := plain_cursorJson hnumbers sn' order' hvals
  have hmark : dropMark (stringify numbers (cursorJson sn' order' values)) = stringify numbers (cursorJson sn' order' values) := rfl
  have hnams : ∀ names : List String, Plain numbers (.arr (names.map fun col => .str (text col))) := by
    intro names
    refine .arr fun x hx => ?_
    obtain ⟨col, -, rfl⟩ := mem_map.mp hx
    exact .str
  have hcolumns : stringify numbers (.arr (order'.columns.map fun col => .str (text col))) =
      stringify numbers (.arr (order.columns.map fun col => .str (text col))) ↔ order'.columns = order.columns := by
    constructor
    · intro htext
      -- the texts are read back, and a name is given back by its text
      have hparsed := parse_stringify (hnams order'.columns)
      rw [htext, parse_stringify (hnams order.columns)] at hparsed
      have hmaps := Json.arr.inj (Option.some.inj hparsed)
      refine map_injective_iff.mpr (fun a b hab => ?_) hmaps.symm
      have hchars := congrArg chars (Json.str.inj hab)
      change chars (utf16 a.toList) = chars (utf16 b.toList) at hchars
      rw [chars_utf16, chars_utf16] at hchars
      exact String.toList_inj.mp hchars
    · intro hsame
      rw [hsame]
  have hdirections : order'.direction.name = order.direction.name ↔ order'.direction = order.direction := by
    cases order'.direction <;> cases order.direction <;> decide
  unfold decodeCursor encodeCursor
  rw [fromBase64_cursor, bind_eq_bind, bind_some, decodeUtf8_encodeUtf8 (stringify_wellFormed hplain),
    bind_eq_bind, bind_some, hmark, parse_stringify hplain, bind_eq_bind, bind_some]
  have ht : member (cursorJson sn' order' values) "t" = some (.str sn') := rfl
  have hd : member (cursorJson sn' order' values) "d" = some (.str order'.direction.name) := rfl
  have ho : member (cursorJson sn' order' values) "o" = some (.arr (order'.columns.map fun col => .str (text col))) := rfl
  have hv : member (cursorJson sn' order' values) "v" = some (.arr (values.map toJson)) := rfl
  simp only [ht, hd, ho, hv, guard, Option.some.injEq, Json.str.injEq, hdirections, hcolumns, length_map, bind_eq_bind,
    bind_some]
  by_cases hname : sn' = sn ∧ order'.direction = order.direction
  · by_cases hcols : order'.columns = order.columns
    · by_cases hlen : values.length = order.columns.length
      · simp only [hname, hcols, hlen, and_self, if_true]
        rfl
      · simp only [hname, hcols, hlen, and_self, and_false, if_true, if_false]
        rfl
    · simp only [hname, hcols, and_self, false_and, and_false, if_true, if_false]
      rfl
  · rw [if_neg hname]
    exact (if_neg fun h => hname ⟨h.1, h.2.2.1⟩).symm

theorem decode_values {names : List String} (h : List.Forall₂ (OrderColumn tbl) names values) :
    (names.zip (values.map SqlValue.toJson)).mapM (fun (name, v) => do
      let type ← (← tbl.byName name).type.scalar?
      return toSqlite (← checkScalar type v)) = some values := by
  induction h with
  | nil => rfl
  | cons hfst _ ih =>
    rw [map_cons, zip_cons_cons, mapM_cons, ih]
    dsimp only
    rw [hfst.decode]
    rfl

include hnumbers in
/-- **A cursor gives back its order values**, for its own table and order. -/
theorem decodeCursor_encodeCursor (sn : Text) (order : Order) (h : List.Forall₂ (OrderColumn tbl) order.columns values) :
    decodeCursor numbers tbl sn order (encodeCursor numbers sn order values) = some values := by
  have hvals : ∀ v ∈ values, ∃ type, OrderValue type v := by
    intro v hv
    obtain ⟨hlen, hcols⟩ := forall₂_iff_zip.mp h
    obtain ⟨i, hi, rfl⟩ := getElem_of_mem hv
    have hzip : (order.columns[i], values[i]) ∈ order.columns.zip values :=
      mem_iff_getElem.mpr ⟨i, by rw [length_zip, hlen, Nat.min_self]; exact hi, getElem_zip⟩
    obtain ⟨-, -, -, type, -, hval⟩ := hcols hzip
    exact ⟨type, hval⟩
  rw [decodeCursor_parsed hnumbers sn sn order order hvals, if_pos ⟨rfl, rfl, rfl, h.length_eq.symm⟩]
  exact decode_values h

end Round

/-! ## Pages -/

/-- Texts of the store have no NUL. -/
def PlainTexts (rows : List SqlRow) : Prop := ∀ row ∈ rows, ∀ name cs, row name = .text cs → Char.ofNat 0 ∉ cs

/-- A row meets the query's condition. -/
def Query.matches {table : TableDefinition} (q : Query table) (row : SqlRow) : Bool :=
  q.condition.all fun node => node.value row = some true

/-- The rows of a query, in its order. -/
def Query.sorted {table : TableDefinition} (q : Query table) (rows : List SqlRow) : List SqlRow :=
  (rows.filter q.matches).mergeSort q.order.le

/-- A stored row as reads return it. -/
def readRowOf (table : TableDefinition) (row : SqlRow) : EvaluatedRow := (table.decode row).getD fun _ => .absent

section Pages

variable {tbl : TableDefinition} {rows : List SqlRow} (hrows : StoredRows tbl rows) (htexts : PlainTexts rows) (q : Query tbl)

variable {name : String} {row a : SqlRow}

theorem Query.order_orders (h : name ∈ q.order.columns) : ∃ col ∈ tbl.columns, col.name = name ∧ col.orders := by
  rcases mem_append.mp h with hown | hkey
  · exact q.ordered name hown
  · obtain ⟨col, hcol, hname, hopt, htype⟩ := tbl.keyed name (mem_of_mem_filter hkey)
    exact ⟨col, hcol, hname, hopt, htype⟩

include hrows htexts in
/-- The order columns of a stored row hold order values. -/
theorem orderColumn_row (hrow : row ∈ rows) (h : name ∈ q.order.columns) : OrderColumn tbl name (row name) := by
  obtain ⟨col, hcol, rfl, hopt, htype⟩ := q.order_orders h
  have hacc : col.accepts row = true := all_eq_true.mp (hrows.accepts row hrow) col hcol
  unfold Column.accepts at hacc
  cases hcoltype : col.type with
  | json json =>
    rw [hcoltype] at htype
    rcases htype with htype | htype <;> cases htype
  | scalar type default =>
    rw [hcoltype] at htype hacc
    have hsome : type.accepts (row col.name) = true := by
      dsimp only at hacc
      split at hacc
      · rw [hopt] at hacc
        cases hacc
      · exact hacc
    refine ⟨col, hcol, rfl, type, by rw [hcoltype]; rfl, ?_⟩
    rcases htype with htype | htype
    · obtain rfl : type = .str := Option.some.inj htype
      cases hv : row col.name with
      | text cs => exact Or.inl ⟨rfl, cs, rfl, htexts row hrow _ cs hv⟩
      | null | num _ | json _ => simp [hv, ScalarType.accepts] at hsome
    · obtain rfl : type = .int := Option.some.inj htype
      cases hv : row col.name with
      | num n =>
        rw [hv] at hsome
        exact Or.inr ⟨rfl, n, hsome, rfl⟩
      | null | text _ | json _ => simp [hv, ScalarType.accepts] at hsome

/-- The type of a column. -/
def columnType (table : TableDefinition) (name : String) : ScalarType := ((table.byName name).bind (·.type.scalar?)).getD .str

theorem OrderColumn.value {v : SqlValue} (h : OrderColumn tbl name v) : OrderValue (columnType tbl name) v := by
  obtain ⟨col, hcol, rfl, type, htype, hval⟩ := h
  rw [columnType, byName_of_mem hcol, bind_some, htype]
  exact hval

include hrows htexts in
theorem orderValues_row (hrow : row ∈ rows) :
    List.Forall₂ OrderValue (q.order.columns.map (columnType tbl)) (q.order.columns.map row) := by
  rw [forall₂_map_left_iff, forall₂_map_right_iff, forall₂_same]
  exact fun name hname => (orderColumn_row hrows htexts q hrow hname).value

include hrows htexts in
/-- Two rows at one place in the order are one row, as the key is in the order. -/
theorem eq_of_le {b : SqlRow} (ha : a ∈ rows) (hb : b ∈ rows) (hab : q.order.le a b = true) (hba : q.order.le b a = true) : a = b := by
  have hkeys := q.order.sortKey_of_le hab hba
  have hcols : ∀ name ∈ q.order.columns, a name = b name := by
    intro name hname
    have hkey := map_inj_left.mp hkeys name hname
    exact sortKey_inj (orderColumn_row hrows htexts q ha hname).value (orderColumn_row hrows htexts q hb hname).value hkey
  refine inj_on_of_nodup_map hrows.keys ha hb (map_inj_left.mpr fun name hname => hcols name ?_)
  by_cases hown : name ∈ q.columns
  · exact mem_append_left _ hown
  · exact mem_append_right _ (mem_filter.mpr ⟨hname, by simpa using hown⟩)

include hrows htexts in
/-- The comparison with a row's order values finds the rows behind it. -/
theorem compareRows_le (hrow : row ∈ rows) (ha : a ∈ rows) :
    q.order.direction.comparison.sqlHolds (compareRows (q.order.columns.map row) (q.order.columns.map a)) = some (!q.order.le row a) := by
  obtain ⟨order, hcompare, hkeys⟩ := compareRows_sortKey (orderValues_row hrows htexts q hrow) (orderValues_row hrows htexts q ha)
  rw [map_map, map_map] at hkeys
  rw [hcompare]
  unfold Order.le
  cases q.order.direction with
  | asc =>
    show some (decide (order = .gt)) = some (!decide (q.order.sortKey row ≤ q.order.sortKey a))
    rw [← decide_not]
    exact congrArg some (decide_eq_decide.mpr (hkeys.gt.trans not_le.symm))
  | desc =>
    show some (decide (order = .lt)) = some (!decide (q.order.sortKey a ≤ q.order.sortKey row))
    rw [← decide_not]
    exact congrArg some (decide_eq_decide.mpr (hkeys.lt.trans not_le.symm))

theorem pushValues_means (values : List SqlValue) : Means (pushValues values) (fun _ => takeValues values.length) values := by
  induction values with
  | nil => exact .pure fun _ => rfl
  | cons v values ih => exact (push_value_means v).map₂ ih (f := fun _ u => u) (g := cons) fun _ _ => rfl

include hrows in
theorem renderCondition_means (hrow : row ∈ rows) : ∃ v,
    Means (renderCondition q.condition) (conditionHolds row) v ∧ decide (v = some true) = q.matches row := by
  unfold Query.matches
  cases hcondition : q.condition with
  | none => exact ⟨some true, .pure fun _ => rfl, rfl⟩
  | some node =>
    have hmeans := whereSql_means tbl (hrows.accepts row hrow) (q.typed node hcondition)
    exact ⟨node.value row, hmeans.map (f := some) (g := id) fun _ => (bind_pure _).symm, rfl⟩

include hrows htexts in
theorem renderAfter_means (hrow : row ∈ rows) (aft : Option SqlRow) (haft : ∀ a, aft = some a → a ∈ rows) :
    Means (renderAfter q.order (aft.map fun a => q.order.columns.map a)) (afterHolds row)
      (some (aft.all fun a => !q.order.le row a)) := by
  cases aft with
  | none => exact .pure fun _ => rfl
  | some a =>
    have hvals : Means (renderAfter q.order (some (q.order.columns.map a))) (afterHolds row)
        (q.order.direction.comparison.sqlHolds (compareRows (q.order.columns.map row) (q.order.columns.map a))) :=
      (pushValues_means (q.order.columns.map a)).map
        (f := fun _ => some (q.order.columns, q.order.direction.comparison, (q.order.columns.map a).length))
        (g := fun values => q.order.direction.comparison.sqlHolds (compareRows (q.order.columns.map row) values)) fun _ => rfl
    rw [compareRows_le hrows htexts q hrow (haft a rfl)] at hvals
    exact hvals

include hrows htexts in
/-- **A page's statement** selects the matching rows after a row, in order, up to its limit. -/
theorem execute_page (aft : Option SqlRow) (haft : ∀ a, aft = some a → a ∈ rows) (lim : Nat) :
    let rendered := (selectSql q.condition q.order (aft.map fun a => q.order.columns.map a) lim).run []
    rendered.1.execute rendered.2 rows =
      .ok (((rows.filter fun row => q.matches row && aft.all fun a => !q.order.le row a).mergeSort q.order.le).take lim) := by
  intro rendered
  have heval : ∀ row ∈ rows, ∃ val : Option Bool, rendered.1.eval row rendered.2 = some ((val, .num lim), []) ∧
      decide (val = some true) = (q.matches row && aft.all fun a => !q.order.le row a) := by
    intro row hrow
    obtain ⟨val, hcondition, hmatches⟩ := renderCondition_means hrows q hrow
    have hmeans : Means (selectSql q.condition q.order (aft.map fun a => q.order.columns.map a) lim) (SqlSelect.eval row)
        (sqlAnd val (some (aft.all fun a => !q.order.le row a)), .num lim) :=
      hcondition.map₃ (renderAfter_means hrows htexts q hrow aft haft) (push_value_means (.num lim))
        (f := fun cond aft _ => SqlSelect.mk cond aft q.order) (g := fun c a v => (sqlAnd c a, v)) fun _ _ _ => rfl
    obtain ⟨pc, psh, hrender, htakes⟩ := hmeans
    have hrendered : rendered = (pc, psh) := hrender []
    refine ⟨_, by rw [hrendered, ← htakes []]; exact congrArg _ (append_nil _).symm, ?_⟩
    rw [← hmatches]
    rcases val with _ | _ | _ <;> cases aft.all _ <;> rfl
  have hlast : rendered.2.getLast? = some (.value (.num lim)) := getLast?_concat
  have hordr : rendered.1.order = q.order := rfl
  unfold SqlSelect.execute
  rw [filterM_ok (p := fun row => q.matches row && aft.all fun a => !q.order.le row a), hlast, hordr]
  · show Except.ok (take ((lim : Rat).num.toNat) _) = _
    rw [Rat.num_natCast, Int.toNat_natCast]
  · intro row hrow
    obtain ⟨val, hval, hmatches⟩ := heval row hrow
    rw [hval, ← hmatches]

theorem mem_sorted : row ∈ q.sorted rows ↔ row ∈ rows ∧ q.matches row = true := (mergeSort_perm _ _).mem_iff.trans mem_filter

include hrows htexts in
/-- No row of the query comes twice, or at one place with another. -/
theorem sorted_strict : (q.sorted rows).Pairwise fun row row' => q.order.le row row' = true ∧ q.order.le row' row = false := by
  have hpairwise : (q.sorted rows).Pairwise (q.order.le · · = true) := pairwise_mergeSort q.order.le_trans q.order.le_total _
  have hnd : (q.sorted rows).Nodup := (mergeSort_perm _ _).nodup_iff.mpr (hrows.keys.of_map.filter _)
  refine (hpairwise.and hnd).imp_of_mem fun {row row'} hrow hrow' h => ⟨h.1, ?_⟩
  by_contra hge
  have hge : q.order.le row' row = true := by simpa using hge
  exact h.2 (eq_of_le hrows htexts q ((mem_sorted q).mp hrow).1 ((mem_sorted q).mp hrow').1 h.1 hge)

include hrows htexts in
/-- The rows behind a row of the query are what comes after it. -/
theorem sorted_after {bef aft : List SqlRow} (hsrt : q.sorted rows = bef ++ a :: aft) :
    (rows.filter fun row => q.matches row && !q.order.le row a).mergeSort q.order.le = aft := by
  have hstrict := sorted_strict hrows htexts q
  rw [hsrt] at hstrict
  have hfilter : (rows.filter fun row => q.matches row && !q.order.le row a) =
      (rows.filter q.matches).filter fun row => !q.order.le row a := by
    rw [filter_filter]
    simp only [Bool.and_comm]
  rw [hfilter, Rows.mergeSort_filter q.order.le_trans q.order.le_total
    fun row hrow row' hrow' => eq_of_le hrows htexts q (mem_of_mem_filter hrow) (mem_of_mem_filter hrow')]
  change (q.sorted rows).filter _ = aft
  rw [hsrt]
  exact Rows.filter_after (hstrict.imp And.left) (q.order.le_refl a) fun row hrow =>
    (rel_of_pairwise_cons (pairwise_append.mp hstrict).2.1 hrow).2

include hrows in
theorem decode_readRowOf (hrow : row ∈ rows) : tbl.decode row = some (readRowOf tbl row) := by
  obtain ⟨v, hval⟩ := Option.isSome_iff_exists.mp (hrows.reads row hrow)
  rw [readRowOf, hval]
  rfl

end Pages

/-! ## Following cursors -/

section Follow

variable {handle : TableHandle} {numbers : Numbers} {rows : List SqlRow} (hnumbers : ∀ q, isSafeInteger q = true → numbers.Writes q)
  (hrows : StoredRows handle.table rows) (htexts : PlainTexts rows) (q : Query handle.table)

/-- The cursor after some rows of the query. -/
def cursorAfter (handle : TableHandle) (numbers : Numbers) (q : Query handle.table) (before : List SqlRow) : Option Text :=
  before.getLast?.map fun last => encodeCursor numbers handle.sqlName q.order (q.order.columns.map last)

include hnumbers hrows htexts in
/-- **A page** after some rows of the query has the next ones, and a cursor when there are more. -/
theorem page_rows {bef after : List SqlRow} (hsrt : q.sorted rows = bef ++ after) {lim : Nat} (hpos : 0 < lim)
    (hsafe : lim ≤ maxSafeInteger) :
    handle.page numbers q rows lim (cursorAfter handle numbers q bef) = .ok ((after.take lim).map (readRowOf handle.table),
        if lim < after.length then cursorAfter handle numbers q (bef ++ after.take lim) else none) := by
  have hmem : ∀ row ∈ bef ++ after, row ∈ rows := fun row hrow => (mem_sorted q).mp (hsrt ▸ hrow) |>.1
  have hsel : (rows.filter fun row => q.matches row && bef.getLast?.all fun a => !q.order.le row a).mergeSort q.order.le = after := by
    rcases eq_nil_or_concat bef with rfl | ⟨front, a, rfl⟩
    · simpa [Query.sorted] using hsrt
    · rw [concat_eq_append, append_assoc] at hsrt
      have haft := sorted_after hrows htexts q hsrt
      simpa using haft
  have hlast : ∀ a, bef.getLast? = some a → a ∈ rows := fun a ha => hmem a (mem_append_left _ (mem_of_getLast? ha))
  have hexec := execute_page hrows htexts q bef.getLast? hlast (lim + 1)
  rw [hsel] at hexec
  have hcurs : handle.position numbers q (cursorAfter handle numbers q bef) = .ok (bef.getLast?.map fun a => q.order.columns.map a) := by
    unfold cursorAfter
    cases hget : bef.getLast? with
    | none => rfl
    | some a =>
      rw [Option.map_some, TableHandle.position, decodeCursor_encodeCursor hnumbers]
      · rfl
      · rw [forall₂_map_right_iff, forall₂_same]
        exact fun name hname => orderColumn_row hrows htexts q (hlast a hget) hname
  have hdec : ∀ row ∈ after.take lim, ((handle.table.decode row).elim (throw .unavailable) pure : Except GetError EvaluatedRow) =
      .ok (readRowOf handle.table row) := by
    intro row hrow
    rw [decode_readRowOf hrows (hmem row (mem_append_right _ (mem_of_mem_take hrow)))]
    rfl
  have hitems : ((after.take lim).mapM fun row => (handle.table.decode row).elim (throw .unavailable) pure :
      Except GetError (List EvaluatedRow)) = .ok ((after.take lim).map (readRowOf handle.table)) := by
    rw [mapM_ok_iff, forall₂_map_right_iff, forall₂_same]
    exact hdec
  have htake : (after.take (lim + 1)).take lim = after.take lim := by
    rw [take_take, Nat.min_eq_left (Nat.le_succ lim)]
  have hmore : lim < (after.take (lim + 1)).length ↔ lim < after.length := by
    rw [length_take]
    omega
  have hbind : ∀ {α β : Type} (a : α) (f : α → Except GetError β), (Except.ok a >>= f) = f a := fun _ _ => rfl
  have hmapError : ∀ rows : List SqlRow, (Except.ok rows : Except SqlError (List SqlRow)).mapError GetError.sql = .ok rows := fun _ => rfl
  unfold TableHandle.page
  rw [if_neg (by omega), hcurs]
  simp only [hbind, hexec, hmapError, htake, hitems]
  by_cases hlt : lim < after.length
  · have hlast : (after.take (lim + 1))[lim - 1]? = (bef ++ after.take lim).getLast? := by
      rw [getLast?_append, getLast?_eq_getElem?, length_take, Nat.min_eq_left hlt.le, getElem?_take_of_lt (by omega),
        getElem?_take_of_lt (by omega)]
      obtain ⟨row, hrow⟩ : ∃ row, after[lim - 1]? = some row := ⟨_, getElem?_eq_getElem (by omega)⟩
      rw [hrow]
      rfl
    rw [if_pos hlt, cursorAfter, ← hlast]
    exact if_pos (hmore.mpr hlt)
  · rw [if_neg hlt]
    exact if_neg fun h => hlt (hmore.mp h)

include hnumbers hrows htexts in
/-- The pages from a place in the query on are the rows behind it. -/
theorem follow_rows {bef aft : List SqlRow} (hsrt : q.sorted rows = bef ++ aft) {pages : Nat} (hpages : aft.length < pages)
    {limits : Nat → Nat} (hlimits : ∀ page, 0 < limits page ∧ limits page ≤ maxSafeInteger) :
    handle.follow numbers q rows pages limits (cursorAfter handle numbers q bef) = .ok (some (aft.map (readRowOf handle.table))) := by
  induction pages generalizing bef aft limits with
  | zero => exact absurd hpages (Nat.not_lt_zero _)
  | succ pages ih =>
    obtain ⟨hpos, hsafe⟩ := hlimits 0
    rw [TableHandle.follow, page_rows hnumbers hrows htexts q hsrt hpos hsafe]
    by_cases hlt : limits 0 < aft.length
    · rw [if_pos hlt]
      have hrest : q.sorted rows = (bef ++ aft.take (limits 0)) ++ aft.drop (limits 0) := by
        rw [hsrt, append_assoc, take_append_drop]
      have hfollow := ih hrest (by rw [length_drop]; omega) fun page => hlimits (page + 1)
      obtain ⟨cursor, hcurs⟩ : ∃ cursor, cursorAfter handle numbers q (bef ++ aft.take (limits 0)) = some cursor := by
        apply Option.isSome_iff_exists.mp
        have hne : bef ++ aft.take (limits 0) ≠ [] := by
          intro hnil
          have hlen := congrArg length hnil
          rw [length_append, length_take, length_nil] at hlen
          omega
        rw [cursorAfter, Option.isSome_map, getLast?_isSome]
        exact hne
      rw [hcurs] at hfollow ⊢
      show (handle.follow numbers q rows pages _ (some cursor) >>= _) = _
      rw [hfollow]
      show Except.ok (some ((aft.take (limits 0)).map _ ++ (aft.drop (limits 0)).map _)) = _
      rw [← map_append, take_append_drop]
    · rw [if_neg hlt, take_of_length_le (by omega)]
      rfl

end Follow

/-- **Paging by cursor is exact.** Where a table keeps its texts without NUL and safe integers are read back from their text,
    the rows of any query, each once and in its order, are what the pages that follow each other read, whatever their
    positive limits, and what one page without a cursor reads that has room for them. A cursor gives back its order values for
    its own table and order, and none for another table, order or direction. -/
theorem paging_exact {handle : TableHandle} {numbers : Numbers} {rows : List SqlRow}
    (hnumbers : ∀ n, isSafeInteger n = true → numbers.Writes n) (hrows : StoredRows handle.table rows) (htexts : PlainTexts rows)
    (q : Query handle.table) :
    (∃ (sorted : List SqlRow) (items : List EvaluatedRow), sorted.Perm (rows.filter q.matches) ∧ sorted.Pairwise (fun row row' => q.order.le row' row = false) ∧
      sorted.mapM handle.table.decode = some items ∧
      (∀ limits : Nat → Nat, (∀ page, 0 < limits page ∧ limits page ≤ maxSafeInteger) →
        ∀ pages, rows.length < pages → handle.follow numbers q rows pages limits none = .ok (some items)) ∧
      (∀ pages, rows.length < pages → handle.rows numbers q rows pages = .ok (some items)) ∧
      ∀ limit, 0 < limit → limit ≤ maxSafeInteger → rows.length ≤ limit → handle.page numbers q rows limit none = .ok (items, none)) ∧
    (∀ order values, List.Forall₂ (OrderColumn handle.table) order.columns values →
      decodeCursor numbers handle.table handle.sqlName order (encodeCursor numbers handle.sqlName order values) = some values) ∧
    ∀ order sqlName' order' values, (∀ v ∈ values, ∃ type, OrderValue type v) →
      ¬(sqlName' = handle.sqlName ∧ order'.columns = order.columns ∧ order'.direction = order.direction) →
      decodeCursor numbers handle.table handle.sqlName order (encodeCursor numbers sqlName' order' values) = none := by
  have hlength : (q.sorted rows).length ≤ rows.length := (mergeSort_perm _ _).length_eq.le.trans (length_filter_le _ _)
  have hfollow : ∀ limits : Nat → Nat, (∀ page, 0 < limits page ∧ limits page ≤ maxSafeInteger) → ∀ pages, rows.length < pages →
      handle.follow numbers q rows pages limits none = .ok (some ((q.sorted rows).map (readRowOf handle.table))) := by
    intro limits hlimits pages hpages
    have hsorted : q.sorted rows = [] ++ q.sorted rows := rfl
    exact follow_rows hnumbers hrows htexts q hsorted (by omega) hlimits
  refine ⟨⟨q.sorted rows, (q.sorted rows).map (readRowOf handle.table), mergeSort_perm _ _, ?_, ?_, hfollow, fun pages hpages => ?_,
    fun limit hpos hsafe hroom => ?_⟩, fun order values h => decodeCursor_encodeCursor hnumbers _ order h,
    fun order sqlName' order' values hvalues hother => ?_⟩
  · exact (sorted_strict hrows htexts q).imp And.right
  · rw [mapM_some_iff, forall₂_map_right_iff, forall₂_same]
    exact fun row hrow => decode_readRowOf hrows ((mem_sorted q).mp hrow).1
  · exact hfollow _ (fun page => by decide) pages hpages
  · have hsorted : q.sorted rows = [] ++ q.sorted rows := rfl
    have hpage := page_rows hnumbers hrows htexts q hsorted hpos hsafe
    rw [if_neg (by omega), take_of_length_le (by omega)] at hpage
    exact hpage
  · rw [decodeCursor_parsed hnumbers _ _ _ _ hvalues]
    exact if_neg fun h => hother ⟨h.1, h.2.1, h.2.2.1⟩

/-- A row with an id. -/
def numberedRow (id : Nat) : SqlRow := fun name => if name = "id" then .num id else inheritedRow (.text ['a']) name

/-- Two rows, a page each. -/
theorem paging_exact_rows : ∃ items,
    (⟨inheritedTable, text "t1"⟩ : TableHandle).follow integerNumbers (query inheritedTable) [numberedRow 2, numberedRow 1] 3
      (fun _ => 1) none = .ok (some items) := by
  have hstored : StoredRows inheritedTable [numberedRow 2, numberedRow 1] := ⟨by decide, by decide, by decide⟩
  have htexts : PlainTexts [numberedRow 2, numberedRow 1] := by
    have hrow : ∀ id name cs, numberedRow id name = .text cs → Char.ofNat 0 ∉ cs := by
      intro id name cs h
      unfold numberedRow inheritedRow at h
      split_ifs at h
      cases h
      decide
    intro row hrow'
    simp only [mem_cons, not_mem_nil, or_false] at hrow'
    rcases hrow' with rfl | rfl
    · exact hrow 2
    · exact hrow 1
  obtain ⟨⟨-, items, -, -, -, hfollow, -⟩, -⟩ := @paging_exact ⟨inheritedTable, text "t1"⟩ integerNumbers
    [numberedRow 2, numberedRow 1] integerNumbers_writes hstored htexts (query inheritedTable)
  exact ⟨items, hfollow _ (fun _ => by decide) 3 (by decide)⟩

end PiBridge.Chord.Store
