import PiBridge.Chord.Store.Sql
import PiBridge.Chord.Store.Evaluate

/-!
# `Chord.Store.Meaning` — what conditions and expressions mean

The value of a compiled condition or expression on a stored row, with three-valued truth and exact arithmetic, apart
from how it is rendered or evaluated. A compiled node is typed: its columns are the table's, its operands and results
of their types.
-/

namespace PiBridge.Chord.Store

open List
open Option (bind_eq_some_iff)

/-! ## Meaning -/

/-- Whether a text starts with a prefix. -/
def SqlValue.startsWith (value : SqlValue) (start : List Char) : Option Bool :=
  match value with
  | .text cs => some (start.isPrefixOf cs)
  | _ => none

section Value

variable (row : SqlRow)

mutual
def WhereNode.value : WhereNode → Option Bool
  | .and nodes => (valueAll nodes).foldl sqlAnd (some true)
  | .or nodes => (valueAll nodes).foldl sqlOr (some false)
  | .not node => node.value.map (! ·)
  | .isNull column => some (row column = .null)
  | .inArray column values => (row column).inValues (values.map toSqlite)
  | .hasPrefix column start => (row column).startsWith (chars start)
  | .comparison op column operand => op.sqlHolds ((row column).compare (toSqlite operand))

def valueAll : List WhereNode → List (Option Bool)
  | [] => []
  | node :: nodes => node.value :: valueAll nodes
end

/-- An operation on stored values. -/
def Operation.value (op : Operation) (a b : SqlValue) : SqlValue :=
  match op with
  | .add => SqlOperator.plus.apply a b
  | .sub => SqlOperator.minus.apply a b
  | .concat => SqlOperator.join.apply a b
  | .max => SqlFunction.max.apply a b
  | .min => SqlFunction.min.apply a b

/-- A text with its prefix replaced; one without it stays as it is. -/
def SqlValue.replacePrefix (value : SqlValue) (old new : List Char) : SqlValue :=
  match value with
  | .text cs => .text (if old.isPrefixOf cs then new ++ cs.drop old.length else cs)
  | value => value

def ExprNode.value : ExprNode → SqlValue
  | .null => .null
  | .literal s => toSqlite s
  | .col column => row column
  | .json x => .json x
  | .operation op a b => op.value a.value b.value
  | .coalesce a b => SqlFunction.coalesce.apply a.value b.value
  | .replacePrefix subject old new => subject.value.replacePrefix (chars old) (chars new)
  | .when condition a b => if condition.value row = some true then a.value else b.value

/-- A number that is no safe integer. -/
def SqlValue.isUnsafe : SqlValue → Bool
  | .num q => !isSafeInteger q
  | _ => false

/-- Where an operation's result is checked. -/
def Operation.isArithmetic (op : Operation) : Bool := op = .add || op = .sub

/-- A sum or difference that is evaluated is no safe integer. -/
def ExprNode.overflows : ExprNode → Bool
  | .null | .literal _ | .col _ | .json _ => false
  | .operation op a b =>
    a.overflows || b.overflows || op.isArithmetic && (op.value (a.value row) (b.value row)).isUnsafe
  | .coalesce a b => a.overflows || a.value row = .null && b.overflows
  | .replacePrefix subject _ _ => subject.overflows
  | .when condition a b => if condition.value row = some true then a.overflows else b.overflows

def SetNode.overflows (set : SetNode) : Bool := set.any fun entry => entry.2.overflows row

end Value

/-! ## Columns read -/

mutual
def WhereNode.columns : WhereNode → List String
  | .and nodes | .or nodes => columnsAll nodes
  | .not node => node.columns
  | .isNull column | .inArray column _ | .hasPrefix column _ | .comparison _ column _ => [column]

def columnsAll : List WhereNode → List String
  | [] => []
  | node :: nodes => node.columns ++ columnsAll nodes
end

def ExprNode.columns : ExprNode → List String
  | .null | .literal _ | .json _ => []
  | .col column => [column]
  | .operation _ a b | .coalesce a b => a.columns ++ b.columns
  | .replacePrefix subject _ _ => subject.columns
  | .when condition a b => condition.columns ++ a.columns ++ b.columns

/-! ## Types -/

/-- A scalar of a column type. -/
def Scalar.HasType : Scalar → ScalarType → Prop
  | .str s, .str => WellFormed s
  | .num q, .int => isSafeInteger q = true
  | .num _, .num => True
  | .bool _, .bool => True
  | _, _ => False

/-- A stored value of a column type, or `NULL`; an integer may be of any size. -/
def SqlValue.Fits : SqlValue → ScalarType → Prop
  | .null, _ => True
  | .text _, .str => True
  | .num q, .int => q.den = 1
  | .num _, .num => True
  | .num q, .bool => q = 0 ∨ q = 1
  | _, _ => False

section Typed

variable (table : TableDefinition)

/-- The table has the scalar column. -/
def TableDefinition.HasColumn (name : String) (type : ScalarType) : Prop :=
  ∃ column ∈ table.columns, column.name = name ∧ column.type.scalar? = some type

mutual
def WhereNode.Typed : WhereNode → Prop
  | .and nodes | .or nodes => TypedAll nodes
  | .not node => node.Typed
  | .isNull column => ∃ type, table.HasColumn column type
  | .inArray column values => ∃ type, table.HasColumn column type ∧ ∀ value ∈ values, value.HasType type
  | .hasPrefix column start => table.HasColumn column .str ∧ WellFormed start
  | .comparison _ column operand => ∃ type, table.HasColumn column type ∧ operand.HasType type

def TypedAll : List WhereNode → Prop
  | [] => True
  | node :: nodes => node.Typed ∧ TypedAll nodes
end

def ExprNode.Typed (type : ScalarType) : ExprNode → Prop
  | .null => True
  | .literal s => s.HasType type
  | .col column => table.HasColumn column type
  | .json _ => False
  | .operation op a b => type ∈ op.types ∧ a.Typed type ∧ b.Typed type
  | .coalesce a b => a.Typed type ∧ b.Typed type
  | .replacePrefix subject old new => type = .str ∧ subject.Typed type ∧ WellFormed old ∧ WellFormed new
  | .when condition a b => condition.Typed table ∧ a.Typed type ∧ b.Typed type

end Typed

/-! ## Compiled nodes are typed -/

section Compile

variable {table : TableDefinition}

theorem guard_spec {p : Prop} [Decidable p] {u : Unit} (h : (guard p : Option Unit) = some u) : p := by
  by_contra hp
  rw [guard, if_neg hp] at h
  cases h

theorem exists_of_mem_mapM {α β : Type} {f : α → Option β} {xs : List α} {ys : List β} (h : xs.mapM f = some ys) {y : β}
    (hy : y ∈ ys) : ∃ x ∈ xs, f x = some y := by
  induction xs generalizing ys with
  | nil =>
    cases h
    cases hy
  | cons x xs ih =>
    rw [mapM_cons] at h
    obtain ⟨z, hz, h⟩ := bind_eq_some_iff.mp h
    obtain ⟨zs, hzs, h⟩ := bind_eq_some_iff.mp h
    cases h
    rcases mem_cons.mp hy with rfl | hy
    · exact ⟨x, mem_cons_self, hz⟩
    · obtain ⟨x', hx', hy'⟩ := ih hzs hy
      exact ⟨x', mem_cons_of_mem x hx', hy'⟩

theorem toWellFormed_wellFormed (s : Text) : WellFormed (toWellFormed s) := ⟨chars s, rfl⟩

variable {type : ScalarType} {value : Given}

theorem checkScalar_hasType {value : Json} {s : Scalar} (h : checkScalar type value = some s) : s.HasType type := by
  unfold checkScalar at h
  split at h
  · -- `str`
    obtain ⟨sto, hsto, rfl⟩ := Option.map_eq_some_iff.mp h
    unfold storedText at hsto
    split at hsto
    · cases hsto
    · cases hsto
      exact toWellFormed_wellFormed _
  · -- `int`
    split at h
    · rename_i hsafe
      cases h
      exact hsafe
    · cases h
  · cases h
    trivial
  · cases h
    trivial
  · cases h

theorem operand_hasType {s : Scalar} (h : operand type value = some s) : s.HasType type := by
  unfold operand at h
  split at h
  · cases h
  · cases h
  · exact checkScalar_hasType h

theorem byName_spec {name : String} {col : Column} (h : table.byName name = some col) : col ∈ table.columns ∧ col.name = name := by
  unfold TableDefinition.byName at h
  have hname := find?_some h
  exact ⟨mem_of_find?_eq_some h, of_decide_eq_true hname⟩

theorem scalarColumn_spec {name : String} {col : Column}
    (h : scalarColumn table name = some (col, type)) : table.HasColumn col.name type := by
  obtain ⟨c, hname, h⟩ := bind_eq_some_iff.mp h
  obtain ⟨t, htype, h⟩ := bind_eq_some_iff.mp h
  obtain ⟨rfl, rfl⟩ := Prod.mk.inj (Option.some.inj h)
  exact ⟨c, (byName_spec hname).1, rfl, htype⟩

mutual
theorem compileWhere_typed {cond : Condition} {node : WhereNode} (h : compileWhere table cond = some node) : node.Typed table := by
  cases cond with
  | comparison op name value =>
    obtain ⟨⟨col, type⟩, hcol, h⟩ := bind_eq_some_iff.mp h
    obtain ⟨s, hs, h⟩ := bind_eq_some_iff.mp h
    cases h
    exact ⟨type, scalarColumn_spec hcol, operand_hasType hs⟩
  | inArray name vals =>
    obtain ⟨⟨col, type⟩, hcol, h⟩ := bind_eq_some_iff.mp h
    obtain ⟨scalars, hscalars, h⟩ := bind_eq_some_iff.mp h
    cases h
    refine ⟨type, scalarColumn_spec hcol, fun s hs => ?_⟩
    obtain ⟨value, -, hval⟩ := exists_of_mem_mapM hscalars hs
    exact operand_hasType hval
  | isNull name =>
    obtain ⟨⟨col, type⟩, hcol, h⟩ := bind_eq_some_iff.mp h
    cases h
    exact ⟨type, scalarColumn_spec hcol⟩
  | hasPrefix name st =>
    obtain ⟨⟨col, type⟩, hcol, h⟩ := bind_eq_some_iff.mp h
    obtain ⟨u, hstr, h⟩ := bind_eq_some_iff.mp h
    obtain ⟨s, hs, h⟩ := bind_eq_some_iff.mp h
    obtain rfl : type = .str := guard_spec hstr
    have htype := operand_hasType hs
    cases s with
    | str s =>
      cases h
      exact ⟨scalarColumn_spec hcol, htype⟩
    | num q => cases h
    | bool b => cases h
  | and conditions | or conditions =>
    obtain ⟨ns, hnodes, h⟩ := bind_eq_some_iff.mp h
    cases h
    exact compileAll_typed hnodes
  | not cond =>
    obtain ⟨inner, hinner, h⟩ := bind_eq_some_iff.mp h
    cases h
    have htyp := compileWhere_typed hinner
    exact htyp

theorem compileAll_typed {conditions : List Condition} {ns : List WhereNode}
    (h : compileAll table conditions = some ns) : TypedAll table ns := by
  cases conditions with
  | nil =>
    cases h
    trivial
  | cons cond conditions =>
    obtain ⟨node, hnode, h⟩ := bind_eq_some_iff.mp h
    obtain ⟨ns, hnodes, h⟩ := bind_eq_some_iff.mp h
    cases h
    exact ⟨compileWhere_typed hnode, compileAll_typed hnodes⟩
end

end Compile

end PiBridge.Chord.Store
