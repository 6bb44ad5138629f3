import PiBridge.Chord.Store.Meaning

/-!
# `Chord.Correctness.RenderedSql` — a rendered statement means what its node means

Each rendered piece takes just the parameters pushed with it (`whereSql_means`, `exprSql_means`), so a statement's
parameters line up with its placeholders however its parts are nested, and its value is the node's.
-/

namespace PiBridge.Chord.Store

open Lib List Option SqlValue

variable {row : SqlRow}

/-! ## Three-valued folds -/

theorem sqlAnd_true (a : Option Bool) : sqlAnd (some true) a = a := by
  rcases a with _ | _ | _ <;> rfl

theorem sqlOr_false (a : Option Bool) : sqlOr (some false) a = a := by
  rcases a with _ | _ | _ <;> rfl

theorem sqlAnd_some (p q : Bool) : sqlAnd (some p) (some q) = some (p && q) := by
  cases p <;> cases q <;> rfl

/-! ## Conditions -/

/-- The conditions of a list, one after the other. -/
def evalAll (row : SqlRow) : List SqlCond → Taking SqlParam (List (Option Bool))
  | [] => return []
  | c :: conds => do return (← c.eval row) :: (← evalAll row conds)

variable {f : Option Bool → Option Bool → Option Bool} {join : SqlCond → SqlCond → SqlCond}

/-- Joined conditions take their parameters one after the other. -/
theorem eval_foldl
    (hjoin : ∀ a b, (join a b).eval row = do return f (← a.eval row) (← b.eval row)) (c : SqlCond) (conds : List SqlCond) :
    (conds.foldl join c).eval row = do
      let val ← c.eval row
      return (← evalAll row conds).foldl f val := by
  induction conds generalizing c with
  | nil => simp [evalAll]
  | cons d conds ih => simp [evalAll, ih, hjoin]

theorem joined_means {unit : SqlCond}
    {u : Option Bool} (hjoin : ∀ a b, (join a b).eval row = do return f (← a.eval row) (← b.eval row))
    (hunit : unit.eval row = pure u) (hleft : ∀ v, f u v = v) {render : Render SqlParam (List SqlCond)}
    {vals : List (Option Bool)} (h : Means render (evalAll row) vals) :
    Means (do return joined unit join (← render)) (SqlCond.eval row) (vals.foldl f u) := by
  refine h.map (g := fun vals => vals.foldl f u) fun conds => ?_
  cases conds with
  | nil => simp [joined, evalAll, hunit]
  | cons c conds =>
    have hparen : (joined unit join (c :: conds)).eval row = (conds.foldl join c).eval row := rfl
    rw [hparen, eval_foldl hjoin]
    simp [evalAll, hleft]

variable (cs : List Char)

theorem toSqlite_str : toSqlite (.str (utf16 cs)) = .text cs := by
  rw [toSqlite, chars_utf16]

theorem push_value_means (v : SqlValue) : Means (push (SqlParam.value v)) (fun _ => takeValue) v :=
  ⟨⟨⟩, [.value v], fun _ => rfl, fun _ => rfl⟩

theorem push_each_means (vs : List SqlValue) : Means (push (SqlParam.each vs)) (fun _ => takeEach) vs :=
  ⟨⟨⟩, [.each vs], fun _ => rfl, fun _ => rfl⟩

variable {val : SqlValue} {type : ScalarType} {tbl : TableDefinition}

/-- A text is at least the prefix and below its bound just when it starts with it. -/
theorem range_of_prefix (st : List Char) (hval : val.Fits .str) : (match prefixUpperBound (utf16 st) with
      | none => Comparison.gte.sqlHolds (val.compare (.text st)) | some upper =>
        sqlAnd (Comparison.gte.sqlHolds (val.compare (.text st)))
          (Comparison.lt.sqlHolds (val.compare (toSqlite (.str upper))))) = val.startsWith st := by
  cases val with
  | null => cases prefixUpperBound (utf16 st) <;> rfl
  | num q => exact hval.elim
  | json x => exact hval.elim
  | text cs =>
    have hbegins : st.isPrefixOf cs = true ↔ st <+: cs := isPrefixOf_iff_prefix
    have hrng := isPrefix_iff_range st cs
    cases hupper : prefixUpperBound (utf16 st) with
    | none =>
      apply congrArg some
      rw [Bool.eq_iff_iff, hbegins, hrng, decide_eq_true_eq]
      exact ⟨fun h => ⟨h, fun upper hbnd => by rw [hupper] at hbnd; cases hbnd⟩, And.left⟩
    | some upper =>
      obtain ⟨points, -, rfl⟩ := map_eq_some_iff.mp hupper
      have hbnd : ∀ oth, some (utf16 points) = some (utf16 oth) ↔ oth = points := by
        intro oth
        refine ⟨fun h => ?_, fun h => by rw [h]⟩
        rw [← chars_utf16 oth, ← some.inj h, chars_utf16]
      simp only [hupper, hbnd, forall_eq] at hrng
      dsimp only
      rw [toSqlite_str, SqlValue.compare, SqlValue.compare, Comparison.sqlHolds, Comparison.sqlHolds, map_some, map_some, sqlAnd_some]
      apply congrArg some
      rw [Bool.eq_iff_iff, hbegins, hrng, Bool.and_eq_true, decide_eq_true_eq, decide_eq_true_eq]

theorem fits_of_accepts (h : type.accepts val = true) : val.Fits type := by
  cases type <;> cases val <;> simp_all [ScalarType.accepts, Fits, isSafeInteger]

theorem fits_of_hasColumn (hacc : tbl.accepts row = true) {name : String}
    (h : tbl.HasColumn name type) : (row name).Fits type := by
  obtain ⟨col, hmem, rfl, htype⟩ := h
  have hcol : col.accepts row = true := all_eq_true.mp hacc col hmem
  unfold Column.accepts at hcol
  cases hcoltype : col.type with
  | json json =>
    rw [hcoltype] at htype
    cases htype
  | scalar t default =>
    rw [hcoltype] at htype hcol
    cases htype
    dsimp only at hcol
    split at hcol
    · rename_i hnull
      rw [hnull]
      trivial
    · exact fits_of_accepts hcol

mutual
/-- **A rendered condition** takes the parameters pushed with it, and has the node's value. -/
theorem whereSql_means (table : TableDefinition) (hacc : table.accepts row = true) {node : WhereNode}
    (h : node.Typed table) : Means (whereSql node) (SqlCond.eval row) (node.value row) := by
  cases node with
  | comparison op col operand =>
    exact (push_value_means (toSqlite operand)).map (f := fun _ => SqlCond.compare op (.column col) .param)
      (g := fun v => op.sqlHolds ((row col).compare v)) fun _ => rfl
  | inArray col vals =>
    exact (push_each_means (vals.map toSqlite)).map (f := fun _ => SqlCond.inEach col)
      (g := (row col).inValues) fun _ => rfl
  | isNull col => exact .pure fun _ => rfl
  | hasPrefix col st =>
    obtain ⟨hcol, cs, rfl⟩ := h
    have hrng := range_of_prefix cs (fits_of_hasColumn hacc hcol)
    rw [WhereNode.value, chars_utf16, ← hrng, ← toSqlite_str]
    unfold whereSql
    cases prefixUpperBound (utf16 cs) with
    | none =>
      exact (push_value_means _).map (f := fun _ => SqlCond.compare .gte (.column col) .param)
        (g := fun v => Comparison.gte.sqlHolds ((row col).compare v)) fun _ => rfl
    | some upper =>
      exact (push_value_means _).map₂ (push_value_means _)
        (f := fun _ _ => SqlCond.paren (.and (.compare .gte (.column col) .param) (.compare .lt (.column col) .param)))
        (g := fun v w => sqlAnd (Comparison.gte.sqlHolds ((row col).compare v))
          (Comparison.lt.sqlHolds ((row col).compare w))) fun _ _ => by simp [SqlCond.eval, SqlExpr.eval]
  | and ns => exact joined_means (fun _ _ => rfl) rfl sqlAnd_true (whereSqlAll_means table hacc h)
  | or ns => exact joined_means (fun _ _ => rfl) rfl sqlOr_false (whereSqlAll_means table hacc h)
  | not node =>
    have hinner : Means (whereSql node) (SqlCond.eval row) (node.value row) := whereSql_means table hacc h
    exact hinner.map (f := fun c => SqlCond.paren (.not c)) (g := fun v : Option Bool => v.map (! ·)) fun _ => rfl

theorem whereSqlAll_means (table : TableDefinition) (hacc : table.accepts row = true) {ns : List WhereNode}
    (h : TypedAll table ns) : Means (whereSqlAll ns) (evalAll row) (valueAll row ns) := by
  cases ns with
  | nil => exact .pure fun _ => rfl
  | cons node ns =>
    exact (whereSql_means table hacc h.1).map₂ (whereSqlAll_means table hacc h.2)
      (f := cons) (g := cons) fun _ _ => rfl
end

/-! ## Expressions -/

theorem den_add {a b : Rat} (ha : a.den = 1) (hb : b.den = 1) : (a + b).den = 1 := by
  rw [← (Rat.den_eq_one_iff a).mp ha, ← (Rat.den_eq_one_iff b).mp hb, ← Int.cast_add]
  exact Rat.den_intCast _

theorem den_sub {a b : Rat} (ha : a.den = 1) (hb : b.den = 1) : (a - b).den = 1 := by
  rw [← (Rat.den_eq_one_iff a).mp ha, ← (Rat.den_eq_one_iff b).mp hb, ← Int.cast_sub]
  exact Rat.den_intCast _

theorem toSqlite_fits {s : Scalar} (h : s.HasType type) : (toSqlite s).Fits type := by
  cases s with
  | str s => cases type <;> first | exact h.elim | trivial
  | num q =>
    cases type with
    | int =>
      have hsafe : isSafeInteger q = true := h
      unfold isSafeInteger at hsafe
      simp only [Bool.and_eq_true, decide_eq_true_eq] at hsafe
      exact hsafe.1.1
    | num => trivial
    | str | bool => exact h.elim
  | bool b =>
    cases type with
    | bool =>
      cases b
      · exact Or.inl rfl
      · exact Or.inr rfl
    | int | num | str => exact h.elim

end PiBridge.Chord.Store
