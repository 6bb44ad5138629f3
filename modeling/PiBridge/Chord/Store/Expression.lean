import PiBridge.Chord.Store.Table

/-!
# `Chord.Store.Expression` — the table expression language

What plugins write `where` and `set` with, and its compilation into one data-only vocabulary. An operand is checked
against its column, an expression against the type of the column it is set to.
-/

namespace PiBridge.Chord.Store

/-- The comparison operators. -/
inductive Comparison where
  | eq
  | ne
  | lt
  | lte
  | gt
  | gte

/-- The arithmetic and text operations of two operands. -/
inductive Operation where
  | add
  | sub
  | max
  | min
  | concat
deriving DecidableEq

/-- A compiled condition: column comparisons with checked operands. -/
inductive WhereNode where
  | comparison (op : Comparison) (column : String) (operand : Scalar)
  | inArray (column : String) (values : List Scalar)
  | isNull (column : String)
  | hasPrefix (column : String) (start : Text)
  | and (nodes : List WhereNode)
  | or (nodes : List WhereNode)
  | not (node : WhereNode)

/-- A compiled value expression: a literal (`null` clears), a column, a `json(...)` cell, or an operation. -/
inductive ExprNode where
  | null
  | literal (s : Scalar)
  | col (column : String)
  | json (x : Json)
  | operation (op : Operation) (a b : ExprNode)
  | coalesce (a b : ExprNode)
  | replacePrefix (subject : ExprNode) (old new : Text)
  | when (condition : WhereNode) (a b : ExprNode)

/-- A compiled `set`: the new value of each changed column. -/
abbrev SetNode := List (String × ExprNode)

/-- What a plugin hands over; `undefined` is `none`. -/
abbrev Given := Option Json

/-- A condition as a plugin builds it. -/
inductive Condition where
  | comparison (op : Comparison) (column : String) (value : Given)
  | inArray (column : String) (values : List Given)
  | isNull (column : String)
  | hasPrefix (column : String) (start : Given)
  | and (conditions : List Condition)
  | or (conditions : List Condition)
  | not (condition : Condition)

/-- A plain value, or an expression as a plugin builds it. -/
inductive Operand where
  | plain (value : Given)
  | col (column : String)
  | operation (op : Operation) (a b : Operand)
  | coalesce (a b : Operand)
  | replacePrefix (subject : Operand) (old new : Given)
  | when (condition : Condition) (a b : Operand)

/-- A plugin's `set`: an object, one value for each of its own properties. -/
structure SetOf where
  entries : List (String × Operand)
  nodup : (entries.map Prod.fst).Nodup

/-! ## Compiling -/

section Compile

variable (table : TableDefinition)

/-- The column a condition compares, and its type. -/
def scalarColumn (name : String) : Option (Column × ScalarType) := do
  let column ← table.byName name
  let type ← column.type.scalar?
  return (column, type)

/-- An operand compared with a column; `undefined` and `null` are refused. -/
def operand (type : ScalarType) : Given → Option Scalar
  | none | some .null => none
  | some value => checkScalar type value

mutual
def compileWhere : Condition → Option WhereNode
  | .comparison op name value => do
    let (column, type) ← scalarColumn table name
    return .comparison op column.name (← operand type value)
  | .inArray name values => do
    let (column, type) ← scalarColumn table name
    return .inArray column.name (← values.mapM (operand type))
  | .isNull name => do
    let (column, _) ← scalarColumn table name
    return .isNull column.name
  | .hasPrefix name start => do
    let (column, type) ← scalarColumn table name
    guard (type = .str)
    match ← operand type start with
    | .str s => return .hasPrefix column.name s
    | _ => none
  | .and conditions => do return .and (← compileAll conditions)
  | .or conditions => do return .or (← compileAll conditions)
  | .not condition => do return .not (← compileWhere condition)

/-- `args.map(compileWhere)` -/
def compileAll : List Condition → Option (List WhereNode)
  | [] => some []
  | condition :: conditions => do return (← compileWhere condition) :: (← compileAll conditions)
end

/-- The types an operation gives. -/
def Operation.types : Operation → List ScalarType
  | .concat => [.str]
  | .add | .sub => [.int]
  | .max | .min => [.int, .num]

/-- A text argument. -/
def givenText (value : Given) : Option Text := do
  match ← value.bind (checkScalar .str) with
  | .str s => return s
  | _ => none

/-- A compiled expression, and whether its result may be `NULL`. -/
def compileExpr (type : ScalarType) : Operand → Option (ExprNode × Bool)
  | .plain none | .plain (some .null) => some (.null, true)
  | .plain (some value) => do return (.literal (← checkScalar type value), false)
  | .col name => do
    let column ← table.byName name
    guard (column.type.scalar? = some type)
    return (.col column.name, column.optional)
  | .operation op a b => do
    guard (type ∈ op.types)
    let a ← compileExpr type a
    let b ← compileExpr type b
    return (.operation op a.1 b.1, a.2 || b.2)
  | .coalesce a b => do
    let a ← compileExpr type a
    let b ← compileExpr type b
    return (.coalesce a.1 b.1, a.2 && b.2)
  | .replacePrefix subject old new => do
    guard (type = .str)
    let subject ← compileExpr type subject
    return (.replacePrefix subject.1 (← givenText old) (← givenText new), subject.2)
  | .when condition a b => do
    let condition ← compileWhere table condition
    let a ← compileExpr type a
    let b ← compileExpr type b
    return (.when condition a.1 b.1, a.2 || b.2)

/-- The new value of one column. -/
def compileColumn (column : Column) (value : Operand) : Option ExprNode :=
  match column.type, value with
  | _, .plain none => if column.optional then some .null else none
  | .json _, .plain (some value) => some (.json value)
  | .json _, _ => none
  | .scalar _ _, .plain (some .null) => none
  | .scalar type _, .plain (some value) => (checkScalar type value).map .literal
  | .scalar type _, value => do
    let compiled ← compileExpr table type value
    guard (!compiled.2 || column.optional)
    return compiled.1

/-- Compiles one entry of a plugin's `set`; an entry assigned to `__proto__` is none of the node's. -/
def compileEntry (entry : String × Operand) : Option SetNode := do
  let column ← table.byName entry.1
  guard (entry.1 ∉ table.key)
  let node ← compileColumn table column entry.2
  return if entry.1 = "__proto__" then [] else [(entry.1, node)]

/-- Compiles a plugin's `set`, of at least one column. -/
def compileSet (set : SetOf) : Option SetNode := do
  guard (set.entries ≠ [])
  return (← set.entries.mapM (compileEntry table)).flatten

end Compile

end PiBridge.Chord.Store
