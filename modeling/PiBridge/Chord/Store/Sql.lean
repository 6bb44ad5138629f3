import PiBridge.Chord.Store.Expression
import PiBridge.Lib.Placeholders

/-!
# `Chord.Store.Sql` — statements rendered from the compiled vocabulary

What SQLite reads of a rendered text is its syntax tree, which `sql` prints. A placeholder takes the next parameter,
so every part of a statement takes its own, also the branch of a `CASE` that is not chosen. Text is compared by its
bytes, an operation on `NULL` gives `NULL`, and integers are exact.

Operands of another type than the operation's do not occur: an operation gives `NULL` there.
-/

namespace PiBridge.Chord.Store

open Lib

/-- A value bound to a `?`; an array is bound as its JSON text, which `json_each` reads back. -/
inductive SqlParam where
  | value (value : SqlValue)
  | each (values : List SqlValue)

inductive SqlOperator where
  | plus
  | minus
  | join

inductive SqlFunction where
  | max
  | min
  | coalesce
  | substr

mutual
/-- A condition of a statement. -/
inductive SqlCond where
  | one
  | zero
  | isNull (column : String)
  | inEach (column : String)
  | compare (op : Comparison) (a b : SqlExpr)
  | and (a b : SqlCond)
  | or (a b : SqlCond)
  | not (a : SqlCond)
  | paren (a : SqlCond)

/-- A value of a statement; `substrTo` is `substr` from the first character. -/
inductive SqlExpr where
  | null
  | param
  | column (name : String)
  | operator (op : SqlOperator) (a b : SqlExpr)
  | call (function : SqlFunction) (a b : SqlExpr)
  | substrTo (a length : SqlExpr)
  | caseWhen (condition : SqlCond) (a b : SqlExpr)
  | paren (a : SqlExpr)
end

/-! ## The text -/

/-- A quoted SQL identifier. -/
def quote (name : String) : String := "\"" ++ name ++ "\""

def Comparison.sql : Comparison → String
  | .eq => "="
  | .ne => "<>"
  | .lt => "<"
  | .lte => "<="
  | .gt => ">"
  | .gte => ">="

def SqlOperator.sql : SqlOperator → String
  | .plus => " + "
  | .minus => " - "
  | .join => " || "

def SqlFunction.sql : SqlFunction → String
  | .max => "max"
  | .min => "min"
  | .coalesce => "coalesce"
  | .substr => "substr"

mutual
def SqlCond.sql : SqlCond → String
  | .one => "1"
  | .zero => "0"
  | .isNull column => quote column ++ " IS NULL"
  | .inEach column => quote column ++ " IN (SELECT value FROM json_each(?))"
  | .compare op a b => a.sql ++ " " ++ op.sql ++ " " ++ b.sql
  | .and a b => a.sql ++ " AND " ++ b.sql
  | .or a b => a.sql ++ " OR " ++ b.sql
  | .not a => "NOT " ++ a.sql
  | .paren a => "(" ++ a.sql ++ ")"

def SqlExpr.sql : SqlExpr → String
  | .null => "NULL"
  | .param => "?"
  | .column name => quote name
  | .operator op a b => a.sql ++ op.sql ++ b.sql
  | .call function a b => function.sql ++ "(" ++ a.sql ++ ", " ++ b.sql ++ ")"
  | .substrTo a length => "substr(" ++ a.sql ++ ", 1, " ++ length.sql ++ ")"
  | .caseWhen condition a b => "CASE WHEN " ++ condition.sql ++ " THEN " ++ a.sql ++ " ELSE " ++ b.sql ++ " END"
  | .paren a => "(" ++ a.sql ++ ")"
end

/-! ## Values -/

/-- The order of two values; `none` where one is `NULL`. A number is below a text. -/
def SqlValue.compare : SqlValue → SqlValue → Option Ordering
  | .num a, .num b => some (Ord.compare a b)
  | .text a, .text b => some (compareBytes (utf8 a) (utf8 b))
  | .num _, .text _ => some .lt
  | .text _, .num _ => some .gt
  | _, _ => none

def Comparison.sqlHolds (op : Comparison) (order : Option Ordering) : Option Bool :=
  order.map fun order =>
    match op with
    | .eq => order = .eq
    | .ne => order ≠ .eq
    | .lt => order = .lt
    | .lte => order ≠ .gt
    | .gt => order = .gt
    | .gte => order ≠ .lt

/-- `x IN (…)`, over values that are not `NULL`. -/
def SqlValue.inValues (value : SqlValue) (values : List SqlValue) : Option Bool :=
  if values = [] then some false
  else if value = .null then none
  else some (values.any fun each => value.compare each = some .eq)

def sqlAnd : Option Bool → Option Bool → Option Bool
  | some false, _ | _, some false => some false
  | some true, some true => some true
  | _, _ => none

def sqlOr : Option Bool → Option Bool → Option Bool
  | some true, _ | _, some true => some true
  | some false, some false => some false
  | _, _ => none

def SqlOperator.apply : SqlOperator → SqlValue → SqlValue → SqlValue
  | .plus, .num a, .num b => .num (a + b)
  | .minus, .num a, .num b => .num (a - b)
  | .join, .text a, .text b => .text (a ++ b)
  | _, _, _ => .null

/-- `substr`, from the character `start` on, which is 1 or more: all that follow, or `length` of them. -/
def SqlValue.substr : SqlValue → SqlValue → Option SqlValue → SqlValue
  | .text cs, .num start, none => .text (cs.drop (start.num.toNat - 1))
  | .text cs, .num start, some (.num length) => .text ((cs.drop (start.num.toNat - 1)).take length.num.toNat)
  | _, _, _ => .null

def SqlFunction.apply (function : SqlFunction) (a b : SqlValue) : SqlValue :=
  match function with
  | .coalesce => if a = .null then b else a
  | .substr => a.substr b none
  | .max =>
    match a.compare b with
    | none => .null
    | some order => if order = .lt then b else a
  | .min =>
    match a.compare b with
    | none => .null
    | some order => if order = .gt then b else a

/-! ## Evaluation -/

/-- The value of the next `?`. -/
def takeValue : Taking SqlParam SqlValue := do
  match ← takeParam with
  | .value value => return value
  | .each _ => failure

/-- The values `json_each` gives of the next `?`. -/
def takeEach : Taking SqlParam (List SqlValue) := do
  match ← takeParam with
  | .each values => return values
  | .value _ => failure

section Eval

variable (row : SqlRow)

mutual
def SqlCond.eval : SqlCond → Taking SqlParam (Option Bool)
  | .one => return some true
  | .zero => return some false
  | .isNull column => return some (row column = .null)
  | .inEach column => do return (row column).inValues (← takeEach)
  | .compare op a b => do return op.sqlHolds ((← a.eval).compare (← b.eval))
  | .and a b => do return sqlAnd (← a.eval) (← b.eval)
  | .or a b => do return sqlOr (← a.eval) (← b.eval)
  | .not a => do return (← a.eval).map (! ·)
  | .paren a => a.eval

def SqlExpr.eval : SqlExpr → Taking SqlParam SqlValue
  | .null => return .null
  | .param => takeValue
  | .column name => return row name
  | .operator op a b => do return op.apply (← a.eval) (← b.eval)
  | .call function a b => do return function.apply (← a.eval) (← b.eval)
  | .substrTo a length => do return (← a.eval).substr (.num 1) (some (← length.eval))
  | .caseWhen condition a b => do
    let condition ← condition.eval
    let a ← a.eval
    let b ← b.eval
    return if condition = some true then a else b
  | .paren a => a.eval
end

/-- The values a `SET` assigns, every right side evaluated on the row before. -/
def assignedValues : List (String × SqlExpr) → Taking SqlParam (List (String × SqlValue))
  | [] => return []
  | (column, e) :: assignments => do
    let value ← e.eval row
    return (column, value) :: (← assignedValues assignments)

end Eval

/-! ## Rendering -/

/-- Conditions joined in parentheses, or what stands for none. -/
def joined (none : SqlCond) (join : SqlCond → SqlCond → SqlCond) : List SqlCond → SqlCond
  | [] => none
  | c :: conds => .paren (conds.foldl join c)

mutual
/-- A condition with its operands bound. -/
def whereSql : WhereNode → Render SqlParam SqlCond
  | .and nodes => do return joined .one .and (← whereSqlAll nodes)
  | .or nodes => do return joined .zero .or (← whereSqlAll nodes)
  | .not node => do return .paren (.not (← whereSql node))
  | .isNull column => return .isNull column
  | .inArray column values => do
    push (.each (values.map toSqlite))
    return .inEach column
  | .hasPrefix column start => do
    push (.value (toSqlite (.str start)))
    match prefixUpperBound start with
    | none => return .compare .gte (.column column) .param
    | some upper =>
      push (.value (toSqlite (.str upper)))
      return .paren (.and (.compare .gte (.column column) .param) (.compare .lt (.column column) .param))
  | .comparison op column value => do
    push (.value (toSqlite value))
    return .compare op (.column column) .param

def whereSqlAll : List WhereNode → Render SqlParam (List SqlCond)
  | [] => return []
  | node :: nodes => do return (← whereSql node) :: (← whereSqlAll nodes)
end

/-- The text of an operation. -/
def Operation.sqlExpr (op : Operation) (a b : SqlExpr) : SqlExpr :=
  match op with
  | .add => .paren (.operator .plus a b)
  | .sub => .paren (.operator .minus a b)
  | .concat => .paren (.operator .join a b)
  | .max => .call .max a b
  | .min => .call .min a b

def exprSql : ExprNode → Render SqlParam SqlExpr
  | .null => return .null
  | .literal s => do
    push (.value (toSqlite s))
    return .param
  | .col column => return .column column
  | .json x => do
    push (.value (.json x))
    return .param
  | .when condition a b => do return .paren (.caseWhen (← whereSql condition) (← exprSql a) (← exprSql b))
  | .replacePrefix subject old new => do
    let length := (chars old).length
    let value ← exprSql subject
    push (.value (.num length))
    push (.value (toSqlite (.str old)))
    push (.value (toSqlite (.str new)))
    let rest ← exprSql subject
    push (.value (.num (length + 1)))
    let unchanged ← exprSql subject
    return .paren (.caseWhen (.compare .eq (.substrTo value .param) .param)
      (.operator .join .param (.call .substr rest .param)) unchanged)
  | .coalesce a b => do return .call .coalesce (← exprSql a) (← exprSql b)
  | .operation op a b => do return op.sqlExpr (← exprSql a) (← exprSql b)

/-- The versions of the `json(...)` columns that the set writes. -/
def jsonVersions (table : TableDefinition) (set : SetNode) (column : String) : Option Nat :=
  if column ∈ set.map Prod.fst then
    match table.byName column with
    | some { type := .json json, .. } => some json.version
    | _ => none
  else none

/-- The assignments of a set; a written `json(...)` column also stamps its version, a clear stamps `NULL`. -/
def setSql (versions : String → Option Nat) : SetNode → Render SqlParam (List (String × SqlExpr))
  | [] => return []
  | (column, node) :: set => do
    let e ← exprSql node
    match versions column with
    | none => return (column, e) :: (← setSql versions set)
    | some version =>
      push (.value (match node with | .null => .null | _ => .num version))
      return (column, e) :: (versionColumn column, .param) :: (← setSql versions set)

/-! ## Statements -/

/-- How SQLite refuses a statement: a constraint fails, or the text or its parameters are wrong. -/
inductive SqlError where
  | constraint
  | malformed
deriving DecidableEq

/-- The row with the assigned values. -/
def SqlRow.assign (row : SqlRow) (values : List (String × SqlValue)) : SqlRow :=
  values.foldl (fun row (column, value) => Function.update row column value) row

/-- The value of a condition on a row, with its parameters. -/
def SqlCond.value (cond : SqlCond) (row : SqlRow) (params : List SqlParam) : Except SqlError (Option Bool) :=
  match cond.eval row params with
  | some (value, []) => .ok value
  | _ => .error .malformed

end PiBridge.Chord.Store
