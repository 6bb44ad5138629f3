import PiBridge.Chord.Correctness.RenderedSql

/-!
# `Chord.Correctness.EvaluatedRows` — the evaluator gives what conditions and expressions mean

A stored row decoded for the evaluator has, in each column it holds, the cell that is stored there. The evaluator then
gives the node's value (`truth_value`, `evaluate_value`), but for two things: a column without a value is read as what
an object inherits under its name, and a sum or difference is checked where it is evaluated.
-/

namespace PiBridge.Chord.Store

open List

variable {table : TableDefinition} {row : SqlRow} {evald : EvaluatedRow}

/-! ## Stored cells -/

/-- The stored value and the cell are the same scalar, or there is none. -/
def Stored (type : ScalarType) (v : SqlValue) (value : Value) : Prop :=
  (v = .null ∧ value = .absent) ∨ ∃ s : Scalar, s.HasType type ∧ v = toSqlite s ∧ value = .scalar s

variable {type : ScalarType} {q : Rat} {op : Operation}

/-- What a column accepts is read back as the scalar that is stored. -/
theorem stored_of_accepts {v : SqlValue} (h : type.accepts v = true) :
    ∃ s : Scalar, s.HasType type ∧ v = toSqlite s ∧ type.decode v = .scalar s := by
  cases type with
  | str =>
    cases v with
    | text cs => exact ⟨.str (utf16 cs), ⟨cs, rfl⟩, (toSqlite_str cs).symm, rfl⟩
    | _ => cases h
  | int =>
    cases v with
    | num q => exact ⟨.num q, h, rfl, rfl⟩
    | _ => cases h
  | num =>
    cases v with
    | num q => exact ⟨.num q, trivial, rfl, rfl⟩
    | _ => cases h
  | bool =>
    cases v with
    | num q =>
      simp only [ScalarType.accepts, Bool.or_eq_true, decide_eq_true_eq] at h
      rcases h with rfl | rfl
      · exact ⟨.bool false, trivial, rfl, rfl⟩
      · exact ⟨.bool true, trivial, rfl, rfl⟩
    | _ => cases h

/-- Names of columns are distinct. -/
theorem TableDefinition.names_nodup (table : TableDefinition) : (table.columns.map (·.name)).Nodup := by
  have hmap : table.columns.map (fun col => col.name.toList.map Char.toLower) =
      (table.columns.map (·.name)).map fun name => name.toList.map Char.toLower := by
    rw [map_map]
    rfl
  have hdist := table.distinct
  rw [hmap] at hdist
  exact hdist.of_map _

/-- The loop of `decode` over some columns. -/
theorem decode_loop {cols : List Column} (hnd : (cols.map (·.name)).Nodup) {st next : EvaluatedRow}
    (h : cols.foldlM (fun (next : EvaluatedRow) col => do
      let v ← col.decode row
      return if v = .absent then next else next.assign col.name v) st = some next) :
    (∀ col ∈ cols, col.name ≠ "__proto__" → st col.name = .absent → col.decode row = some (next col.name)) ∧
      ∀ name, name ∉ cols.map (·.name) ∨ name = "__proto__" → next name = st name := by
  induction cols generalizing st with
  | nil =>
    cases h
    exact ⟨forall_mem_nil _, fun _ _ => rfl⟩
  | cons col cols ih =>
    obtain ⟨st', hsta', h⟩ := Option.bind_eq_some_iff.mp h
    obtain ⟨v, hval, hassign⟩ := Option.bind_eq_some_iff.mp hsta'
    cases hassign
    rw [map_cons, nodup_cons] at hnd
    obtain ⟨hcell, hothers⟩ := ih hnd.2 h
    have hne : ∀ {c}, c ∈ cols → c.name ≠ col.name := fun hc heq =>
      hnd.1 (heq ▸ mem_map_of_mem hc)
    have hstep : ∀ name, name ≠ col.name ∨ name = "__proto__" →
        (if v = .absent then st else st.assign col.name v) name = st name := by
      intro name hname
      split
      · rfl
      · unfold EvaluatedRow.assign
        split
        · rfl
        · rename_i hproto
          rw [Function.update_of_ne (hname.elim id fun heq hcol => hproto (hcol ▸ heq))]
    refine ⟨fun c hc hproto habs => ?_, fun name hname => ?_⟩
    · rcases mem_cons.mp hc with rfl | hc
      · rw [hothers c.name (Or.inl hnd.1), hval]
        split
        · rename_i hnone
          rw [hnone, habs]
        · rw [EvaluatedRow.assign, if_neg hproto, Function.update_self]
      · exact hcell c hc hproto ((hstep c.name (Or.inl (hne hc))).trans habs)
    · rw [map_cons, mem_cons, not_or] at hname
      rw [hothers name (hname.imp And.right id), hstep name (hname.imp And.left id)]

/-- **What a decoded row holds**: each column's cell, and nothing else. -/
theorem decode_spec (h : table.decode row = some evald) :
    (∀ col ∈ table.columns, col.name ≠ "__proto__" → col.decode row = some (evald col.name)) ∧
      ∀ name, name ∉ table.columns.map (·.name) ∨ name = "__proto__" → evald name = .absent := by
  obtain ⟨hcell, hothers⟩ := decode_loop table.names_nodup h
  exact ⟨fun col hcol hproto => hcell col hcol hproto rfl, hothers⟩

/-- Every cell of a decoded row was read. -/
theorem decode_reads (h : table.decode row = some evald) : ∀ col ∈ table.columns, (col.decode row).isSome = true := by
  have hloop : ∀ {cols : List Column} {st : EvaluatedRow}, (∀ col ∈ cols, col ∈ table.columns) →
      cols.foldlM (fun (next : EvaluatedRow) col => do
        let v ← col.decode row
        return if v = .absent then next else next.assign col.name v) st = some evald →
      ∀ col ∈ cols, (col.decode row).isSome = true := by
    intro cols
    induction cols with
    | nil => exact nofun
    | cons col cols ih =>
      intro st hcols h c hc
      obtain ⟨st', hsta', h⟩ := Option.bind_eq_some_iff.mp h
      obtain ⟨v, hval, -⟩ := Option.bind_eq_some_iff.mp hsta'
      rcases mem_cons.mp hc with rfl | hc
      · rw [hval]
        rfl
      · exact ih (fun c hc => hcols c (mem_cons_of_mem col hc)) h c hc
  exact hloop (fun _ hc => hc) h

/-- A column that is read as what every object inherits: one of such a name without a value, or `__proto__`. -/
def Shadowed (row : SqlRow) (name : String) : Prop := (row name = .null ∨ name = "__proto__") ∧ name ∈ objectProperties

theorem ne_proto_of_not_shadowed {name : String} (h : ¬Shadowed row name) : name ≠ "__proto__" := fun heq =>
  h ⟨Or.inr heq, by rw [heq]; decide⟩

/-- A stored row that satisfies its constraints, as the evaluator reads it. A `json(...)` cell named `__proto__` would
become the row's prototype, which a row here does not have. -/
structure Decoded (table : TableDefinition) (row : SqlRow) (evaluated : EvaluatedRow) : Prop where
  plain : ∀ column ∈ table.columns, column.name = "__proto__" → column.type.scalar?.isSome = true
  accepts : table.accepts row = true
  decode : table.decode row = some evaluated

/-- A column that is not shadowed is read as what is stored. -/
theorem Decoded.get_stored (hrow : Decoded table row evald) {name : String}
    (hcol : table.HasColumn name type) (hshadowed : ¬Shadowed row name) : Stored type (row name) (evald.get name) := by
  obtain ⟨col, hmem, rfl, htype⟩ := hcol
  have hcell := (decode_spec hrow.decode).1 col hmem (ne_proto_of_not_shadowed hshadowed)
  have hacpt : col.accepts row = true := all_eq_true.mp hrow.accepts col hmem
  unfold Column.decode at hcell
  unfold Column.accepts at hacpt
  cases hcoltype : col.type with
  | json json =>
    rw [hcoltype] at htype
    cases htype
  | scalar t default =>
    rw [hcoltype] at htype hacpt hcell
    cases htype
    dsimp only at hacpt hcell
    by_cases hnull : row col.name = .null
    · rw [if_pos hnull] at hcell
      have habs : evald col.name = .absent := (Option.some.inj hcell).symm
      refine Or.inl ⟨hnull, ?_⟩
      rw [EvaluatedRow.get, habs]
      exact if_neg fun hmem => hshadowed ⟨Or.inl hnull, hmem⟩
    · rw [if_neg hnull] at hcell hacpt
      obtain ⟨s, hs, hv, hdecoded⟩ := stored_of_accepts hacpt
      rw [hdecoded] at hcell
      have hscal : evald col.name = .scalar s := (Option.some.inj hcell).symm
      exact Or.inr ⟨s, hs, hv, by rw [EvaluatedRow.get, hscal]⟩

/-! ## Conditions -/

/-- **Both orders of two scalars of a type are one.** -/
theorem compareScalar_toSqlite {a b : Scalar} (ha : a.HasType type) (hb : b.HasType type) :
    ∃ order, compareScalar (.scalar a) (.scalar b) = some order ∧ (toSqlite a).compare (toSqlite b) = some order := by
  cases type with
  | str =>
    cases a with
    | str a =>
      cases b with
      | str b =>
        obtain ⟨cs, rfl⟩ := ha
        obtain ⟨ds, rfl⟩ := hb
        refine ⟨_, rfl, ?_⟩
        rw [toSqlite_str, toSqlite_str, SqlValue.compare, compareBytes_utf8, compareText_chars]
      | _ => exact hb.elim
    | _ => exact ha.elim
  | int | num =>
    cases a with
    | num p =>
      cases b with
      | num q => exact ⟨compare p q, rfl, rfl⟩
      | _ => exact hb.elim
    | _ => exact ha.elim
  | bool =>
    cases a with
    | bool p =>
      cases b with
      | bool q => exact ⟨_, rfl, rfl⟩
      | _ => exact hb.elim
    | _ => exact ha.elim

theorem toSqlite_ne_null (s : Scalar) : toSqlite s ≠ .null := by
  cases s <;> exact fun h => by cases h

theorem compare_null (v : SqlValue) : SqlValue.null.compare v = none := by
  cases v <;> rfl

theorem sqlHolds_some (op : Comparison) (order : Ordering) : op.sqlHolds (some order) = some (op.holds (some order)) := by
  cases op <;> cases order <;> rfl

theorem both_eq (a b : Truth) : both a b = sqlAnd a b := by
  rcases a with _ | _ | _ <;> rcases b with _ | _ | _ <;> rfl

theorem either_eq (a b : Truth) : either a b = sqlOr a b := by
  rcases a with _ | _ | _ <;> rcases b with _ | _ | _ <;> rfl

/-- The operands an `IN` finds equal. -/
theorem any_compare {s : Scalar} (hs : s.HasType type) {vals : List Scalar} (hvals : ∀ val ∈ vals, val.HasType type) :
    vals.any (fun each => compareScalar (.scalar s) (.scalar each) = some .eq) =
      (vals.map toSqlite).any fun each => (toSqlite s).compare each = some .eq := by
  induction vals with
  | nil => rfl
  | cons val vals ih =>
    obtain ⟨order, hjs, hsql⟩ := compareScalar_toSqlite hs (hvals val mem_cons_self)
    rw [map_cons, any_cons, any_cons, hjs, hsql, ih fun v hv => hvals v (mem_cons_of_mem val hv)]

mutual
/-- **The evaluator gives a condition its value**, where no shadowed column is read. -/
theorem truth_value (hrow : Decoded table row evald) {node : WhereNode} (h : node.Typed table) (hcols : ∀ name ∈ node.columns, ¬Shadowed row name) :
    truth evald node = .ok (node.value row) := by
  cases node with
  | comparison op col operand =>
    obtain ⟨type, hcol, hoperand⟩ := h
    have hsto := hrow.get_stored hcol (hcols col (mem_singleton.mpr rfl))
    rw [truth, WhereNode.value]
    rcases hsto with ⟨hnull, habs⟩ | ⟨s, hs, hv, hscal⟩
    · rw [habs, hnull, compare_null]
      rfl
    · obtain ⟨order, hjs, hsql⟩ := compareScalar_toSqlite hs hoperand
      rw [hscal, hv, hsql, sqlHolds_some]
      show Except.ok (some (op.holds (compareScalar (.scalar s) (.scalar operand)))) = _
      rw [hjs]
  | inArray col vals =>
    obtain ⟨type, hcol, hvals⟩ := h
    have hsto := hrow.get_stored hcol (hcols col (mem_singleton.mpr rfl))
    rw [truth, WhereNode.value, SqlValue.inValues]
    by_cases hemp : vals = []
    · rw [if_pos hemp, if_pos (by rw [hemp, map_nil])]
      rfl
    · rw [if_neg hemp, if_neg fun hmap => hemp (map_eq_nil_iff.mp hmap)]
      rcases hsto with ⟨hnull, habs⟩ | ⟨s, hs, hv, hscal⟩
      · rw [habs, hnull, if_pos rfl]
        rfl
      · rw [hscal, hv, if_neg (toSqlite_ne_null s), ← any_compare hs hvals]
        rfl
  | isNull col =>
    obtain ⟨type, hcol⟩ := h
    have hsto := hrow.get_stored hcol (hcols col (mem_singleton.mpr rfl))
    rw [truth, WhereNode.value]
    rcases hsto with ⟨hnull, habs⟩ | ⟨s, -, hv, hscal⟩
    · rw [habs, hnull]
      rfl
    · rw [hscal, hv, decide_eq_false (toSqlite_ne_null s)]
      rfl
  | hasPrefix col st =>
    obtain ⟨hcol, ds, rfl⟩ := h
    have hsto := hrow.get_stored hcol (hcols col (mem_singleton.mpr rfl))
    rw [truth, WhereNode.value, chars_utf16]
    rcases hsto with ⟨hnull, habs⟩ | ⟨s, hs, hv, hscal⟩
    · rw [habs, hnull]
      rfl
    · cases s with
      | str s =>
        obtain ⟨cs, rfl⟩ := hs
        rw [hscal, hv, toSqlite_str]
        show Except.ok (some ((utf16 ds).isPrefixOf (utf16 cs))) = .ok (some (ds.isPrefixOf cs))
        rw [isPrefixOf_utf16]
      | num q => exact hs.elim
      | bool b => exact hs.elim
  | and ns =>
    exact truthAll_value hrow (some true) h hcols
  | or ns =>
    rw [truth, WhereNode.value]
    exact truthAny_value hrow (some false) h hcols
  | not node =>
    have hinner : truth evald node = .ok (node.value row) := truth_value hrow h hcols
    rw [truth, WhereNode.value, hinner]
    rfl

theorem truthAll_value (hrow : Decoded table row evald) (all : Truth) {ns : List WhereNode} (h : TypedAll table ns)
    (hcols : ∀ name ∈ columnsAll ns, ¬Shadowed row name) :
    truthAll evald all ns = .ok ((valueAll row ns).foldl sqlAnd all) := by
  cases ns with
  | nil => rfl
  | cons node ns =>
    have hfst := truth_value hrow h.1 fun name hname => hcols name (mem_append_left _ hname)
    have hrest := fun all => truthAll_value hrow all h.2 fun name hname => hcols name (mem_append_right _ hname)
    rw [truthAll, valueAll, foldl_cons]
    split
    · -- The reduction stops at `false`, as no further value changes it.
      rename_i hfalse
      rw [hrest, hfalse]
      rfl
    · rw [hfst]
      show truthAll evald (both all (node.value row)) ns = _
      rw [hrest, both_eq]

theorem truthAny_value (hrow : Decoded table row evald) (any : Truth) {ns : List WhereNode} (h : TypedAll table ns)
    (hcols : ∀ name ∈ columnsAll ns, ¬Shadowed row name) :
    truthAny evald any ns = .ok ((valueAll row ns).foldl sqlOr any) := by
  cases ns with
  | nil => rfl
  | cons node ns =>
    have hfst := truth_value hrow h.1 fun name hname => hcols name (mem_append_left _ hname)
    have hrest := fun any => truthAny_value hrow any h.2 fun name hname => hcols name (mem_append_right _ hname)
    rw [truthAny, valueAll, foldl_cons]
    split
    · rename_i htrue
      rw [hrest, htrue]
      rfl
    · rw [hfst]
      show truthAny evald (either any (node.value row)) ns = _
      rw [hrest, either_eq]
end

/-! ## Expressions -/

/-- A result: the value, unless a sum or difference was no safe integer. -/
def Gives (type : ScalarType) (overflows : Bool) (v : SqlValue) (result : Except EvaluateError Value) : Prop :=
  if overflows then result = .error .unsafeInteger else ∃ value, result = .ok value ∧ Stored type v value

theorem Gives.scalar {s : Scalar} (h : s.HasType type) : Gives type false (toSqlite s) (.ok (.scalar s)) :=
  ⟨.scalar s, rfl, Or.inr ⟨s, h, rfl, rfl⟩⟩

theorem Gives.absent (type : ScalarType) : Gives type false .null (.ok .absent) := ⟨.absent, rfl, Or.inl ⟨rfl, rfl⟩⟩

theorem isSafeInteger_iff (h : q.den = 1) : isSafeInteger q = false ↔ q > maxSafeInteger ∨ q < -(maxSafeInteger : Rat) := by
  have hden : decide (q.den = 1) = true := decide_eq_true h
  rw [isSafeInteger, hden, Bool.true_and, Bool.and_eq_false_iff, decide_eq_false_iff_not, decide_eq_false_iff_not, not_le, not_le]
  exact or_comm

theorem apply_arithmetic {p r : Rat} (hr : r.den = 1) (happl : op.apply (.scalar (.num p)) (.scalar (.num q)) =
      if r > maxSafeInteger ∨ r < -(maxSafeInteger : Rat) then .error .unsafeInteger else .ok (.scalar (.num r))) :
    Gives .int (SqlValue.isUnsafe (.num r)) (.num r) (op.apply (.scalar (.num p)) (.scalar (.num q))) := by
  have hiff := isSafeInteger_iff hr
  rw [happl, SqlValue.isUnsafe]
  cases hsafe : isSafeInteger r with
  | true =>
    have hin : ¬(r > maxSafeInteger ∨ r < -(maxSafeInteger : Rat)) := by
      rw [← hiff, hsafe]
      exact Bool.noConfusion
    rw [if_neg hin]
    exact Gives.scalar (s := .num r) hsafe
  | false =>
    rw [if_pos (hiff.mp hsafe)]
    rfl

theorem den_of_isSafeInteger (h : isSafeInteger q = true) : q.den = 1 := by
  unfold isSafeInteger at h
  simp only [Bool.and_eq_true, decide_eq_true_eq] at h
  exact h.1.1

/-- **An operation of two scalars** gives its value, a sum or difference only a safe one. -/
theorem apply_value (htype : type ∈ op.types) {a b : Scalar} (ha : a.HasType type) (hb : b.HasType type) :
    Gives type (op.isArithmetic && (op.value (toSqlite a) (toSqlite b)).isUnsafe) (op.value (toSqlite a) (toSqlite b))
      (op.apply (.scalar a) (.scalar b)) := by
  cases op with
  | add | sub =>
    obtain rfl := mem_singleton.mp htype
    cases a with
    | num p =>
      cases b with
      | num q =>
        first
          | exact apply_arithmetic (r := p + q) (den_add (den_of_isSafeInteger ha) (den_of_isSafeInteger hb)) rfl
          | exact apply_arithmetic (r := p - q) (den_sub (den_of_isSafeInteger ha) (den_of_isSafeInteger hb)) rfl
      | _ => exact hb.elim
    | _ => exact ha.elim
  | concat =>
    obtain rfl := mem_singleton.mp htype
    cases a with
    | str a =>
      cases b with
      | str b =>
        obtain ⟨cs, rfl⟩ := ha
        obtain ⟨ds, rfl⟩ := hb
        rw [toSqlite_str, toSqlite_str]
        show Gives .str false (.text (cs ++ ds)) (.ok (.scalar (.str (utf16 cs ++ utf16 ds))))
        rw [← utf16_append, ← toSqlite_str]
        exact Gives.scalar (s := .str (utf16 (cs ++ ds))) ⟨cs ++ ds, rfl⟩
      | _ => exact hb.elim
    | _ => exact ha.elim
  | max | min =>
    obtain ⟨order, hjs, hsql⟩ := compareScalar_toSqlite ha hb
    rw [Operation.value, SqlFunction.apply, Operation.apply, hjs, hsql]
    cases order <;> exact Gives.scalar (by assumption)

/-- An operation on `NULL` gives `NULL`. -/
theorem operation_null {a b : SqlValue} (h : a = .null ∨ b = .null) : op.value a b = .null := by
  rcases h with rfl | rfl
  · cases op <;> cases b <;> rfl
  · cases op <;> cases a <;> rfl

theorem isUnsafe_null : SqlValue.null.isUnsafe = false := rfl

/-- **The evaluator gives an expression its value**, where no shadowed column is read and no sum or difference that is
evaluated overflows. -/
theorem evaluate_value (hrow : Decoded table row evaluated) {node : ExprNode}
    (h : node.Typed table type) (hcols : ∀ name ∈ node.columns, ¬Shadowed row name) :
    Gives type (node.overflows row) (node.value row) (evaluate evaluated node) := by
  induction node with
  | null => exact Gives.absent type
  | literal s => exact Gives.scalar h
  | col column =>
    exact ⟨evaluated.get column, rfl, hrow.get_stored h (hcols column (mem_singleton.mpr rfl))⟩
  | json x => exact h.elim
  | operation op a b iha ihb =>
    have ha := iha h.2.1 fun name hname => hcols name (mem_append_left _ hname)
    have hb := ihb h.2.2 fun name hname => hcols name (mem_append_right _ hname)
    rw [evaluate, ExprNode.overflows, ExprNode.value]
    -- Both operands are evaluated, the first one first.
    cases hoa : a.overflows row with
    | true =>
      rw [hoa] at ha
      rw [show evaluate evaluated a = .error .unsafeInteger from ha]
      rfl
    | false =>
      rw [hoa] at ha
      obtain ⟨va, hva, hsa⟩ := ha
      rw [hva]
      cases hob : b.overflows row with
      | true =>
        rw [hob] at hb
        show Gives type _ _ (evaluate evaluated b >>= _)
        rw [show evaluate evaluated b = .error .unsafeInteger from hb]
        rfl
      | false =>
        rw [hob] at hb
        obtain ⟨vb, hvb, hsb⟩ := hb
        rw [hvb]
        show Gives type (op.isArithmetic && (op.value (a.value row) (b.value row)).isUnsafe) _
          (if va = .absent ∨ vb = .absent then .ok .absent else op.apply va vb)
        rcases hsa with ⟨hnull, rfl⟩ | ⟨s, hs, hsql, rfl⟩
        · rw [operation_null (Or.inl hnull), if_pos (Or.inl rfl), isUnsafe_null, Bool.and_false]
          exact Gives.absent type
        rcases hsb with ⟨hnull, rfl⟩ | ⟨t, ht, hsql', rfl⟩
        · rw [operation_null (Or.inr hnull), if_pos (Or.inr rfl), isUnsafe_null, Bool.and_false]
          exact Gives.absent type
        rw [if_neg (by rintro (h | h) <;> cases h), hsql, hsql']
        exact apply_value h.1 hs ht
  | coalesce a b iha ihb =>
    have ha := iha h.1 fun name hname => hcols name (mem_append_left _ hname)
    have hb := ihb h.2 fun name hname => hcols name (mem_append_right _ hname)
    rw [evaluate, ExprNode.overflows, ExprNode.value]
    cases hoa : a.overflows row with
    | true =>
      rw [hoa] at ha
      rw [show evaluate evaluated a = .error .unsafeInteger from ha]
      rfl
    | false =>
      rw [hoa] at ha
      obtain ⟨va, hva, hsa⟩ := ha
      rw [hva, Bool.false_or]
      rcases hsa with ⟨hnull, rfl⟩ | ⟨s, hs, hsql, rfl⟩
      · rw [hnull]
        exact hb
      · rw [hsql, decide_eq_false (toSqlite_ne_null s), Bool.false_and, SqlFunction.apply, if_neg (toSqlite_ne_null s)]
        exact Gives.scalar hs
  | replacePrefix subject old new ih =>
    obtain ⟨rfl, hsubject, ⟨old, rfl⟩, ⟨new, rfl⟩⟩ := h
    have hs := ih hsubject hcols
    rw [evaluate, ExprNode.overflows, ExprNode.value, chars_utf16, chars_utf16]
    cases hos : subject.overflows row with
    | true =>
      rw [hos] at hs
      rw [show evaluate evaluated subject = .error .unsafeInteger from hs]
      rfl
    | false =>
      rw [hos] at hs
      obtain ⟨v, hv, hsto⟩ := hs
      rw [hv]
      rcases hsto with ⟨hnull, rfl⟩ | ⟨s, hs, hsql, rfl⟩
      · rw [hnull]
        exact Gives.absent .str
      · cases s with
        | str s =>
          obtain ⟨cs, rfl⟩ := hs
          rw [hsql, toSqlite_str, SqlValue.replacePrefix]
          show Gives .str false _ (.ok (.scalar (.str (if (utf16 old).isPrefixOf (utf16 cs)
            then utf16 new ++ (utf16 cs).drop (utf16 old).length else utf16 cs))))
          have htext : (if (utf16 old).isPrefixOf (utf16 cs) then utf16 new ++ (utf16 cs).drop (utf16 old).length
              else utf16 cs) = utf16 (if old.isPrefixOf cs then new ++ cs.drop old.length else cs) := by
            rw [isPrefixOf_utf16]
            split
            · rename_i hbegins
              obtain ⟨rest, rfl⟩ := isPrefixOf_iff_prefix.mp hbegins
              rw [utf16_append, drop_left, drop_left, utf16_append]
            · rfl
          rw [htext, ← toSqlite_str]
          exact Gives.scalar ⟨_, rfl⟩
        | num q | bool b => exact hs.elim
  | when cond a b iha ihb =>
    have htruth := truth_value hrow h.1 fun name hname =>
      hcols name (mem_append_left _ (mem_append_left _ hname))
    have ha := iha h.2.1 fun name hname => hcols name (mem_append_left _ (mem_append_right _ hname))
    have hb := ihb h.2.2 fun name hname => hcols name (mem_append_right _ hname)
    have hbr : evaluate evaluated (.when cond a b) = if cond.value row = some true then evaluate evaluated a else evaluate evaluated b := by
      rw [evaluate, matchesRow, htruth]
      show (if decide (cond.value row = some true) = true then _ else _) = _
      simp only [decide_eq_true_eq]
    rw [hbr, ExprNode.overflows, ExprNode.value]
    split
    · exact ha
    · exact hb

end PiBridge.Chord.Store
