import PiBridge.Chord.Store.Engine
import Mathlib.Data.Rat.Floor

/-!
# `Chord.Store.Table` — table definitions and their columns

A row in JavaScript is an object with its own properties; a row in SQLite has a value in each physical column, `NULL`
where there is none. A `json(...)` cell is a text in SQLite, kept here as the value it parses to, beside the version it
was written at.

What a plugin hands over is JSON data or `undefined`. A refusal, `invalid/args` in the source, is `none`.
-/

namespace PiBridge.Chord.Store

/-- A scalar cell as the store keeps it in rows, writes and operands. -/
inductive Scalar where
  | str (s : Text)
  | num (q : Rat)
  | bool (b : Bool)
deriving DecidableEq

/-- What a column of SQLite holds. -/
inductive SqlValue where
  | null
  | num (q : Rat)
  | text (cs : List Char)
  | json (x : Json)
deriving DecidableEq

/-- A scalar as SQLite binds it: booleans as 0 and 1. -/
def toSqlite : Scalar → SqlValue
  | .str s => .text (chars s)
  | .num q => .num q
  | .bool b => .num (if b then 1 else 0)

inductive ScalarType where
  | str
  | int
  | num
  | bool
deriving DecidableEq

/-- A `json(...)` column's definition: `migrate` throws, or gives a value to check. -/
structure JsonColumn where
  version : Nat
  migrate : Option (Json → SqlValue → Option Json)
  check : Json → Bool

/-- The value of a stored cell written at `version`; one the code cannot read throws. -/
def JsonColumn.read (column : JsonColumn) (value : Json) (version : SqlValue) : Option Json :=
  if version = .num column.version then some value
  else
    match version, column.migrate with
    | .num q, some migrate =>
      if column.version < q then none else (migrate value (.num q)).filter column.check
    | version, some migrate => (migrate value version).filter column.check
    | _, none => none

/-- A cell of the code's own version is read as it is. -/
theorem JsonColumn.read_self (col : JsonColumn) (x : Json) : col.read x (.num col.version) = some x := if_pos rfl

/-- A column's type, with its default or its definition. -/
inductive ColumnType where
  | scalar (type : ScalarType) (default : Option Scalar)
  | json (json : JsonColumn)

structure Column where
  name : String
  type : ColumnType
  optional : Bool

def ColumnType.scalar? : ColumnType → Option ScalarType
  | .scalar type _ => some type
  | .json _ => none

/-- A safe integer. -/
def isSafeInteger (q : Rat) : Bool := q.den = 1 && -(maxSafeInteger : Rat) ≤ q && q ≤ maxSafeInteger

/-- A value of a scalar column type as the store keeps it. -/
def checkScalar : ScalarType → Json → Option Scalar
  | .str, .str s => (storedText s).map .str
  | .int, .num q => if isSafeInteger q then some (.num q) else none
  | .num, .num q => some (.num q)
  | .bool, .bool b => some (.bool b)
  | _, _ => none

/-! ## Definitions -/

/-- `[A-Za-z_]` -/
def isNameStart (c : Char) : Bool := ('A' ≤ c && c ≤ 'Z') || ('a' ≤ c && c ≤ 'z') || c = '_'

/-- The column name rule. -/
def columnName (name : String) : Bool :=
  match name.toList with
  | [] => false
  | c :: cs => isNameStart c && cs.all fun c => isNameStart c || ('0' ≤ c && c ≤ '9')

/-- The physical name of a `json(...)` column's version column. -/
def versionColumn (column : String) : String := column ++ "$v"

/-- A default is a value of its column's type, and stored as it is. -/
def ColumnType.Sound : ColumnType → Prop
  | .scalar .str (some default) => ∃ s, default = .str s ∧ storedText s = some s
  | .scalar .int (some default) => ∃ q, default = .num q ∧ isSafeInteger q = true
  | .scalar .num (some default) => ∃ q, default = .num q
  | .scalar .bool (some default) => ∃ b, default = .bool b
  | _ => True

/-- A declared table: its version, its columns in declaration order and its key. -/
structure TableDefinition where
  version : Nat
  columns : List Column
  key : List String
  names : ∀ column ∈ columns, columnName column.name = true
  /-- No two names are equal, ignoring case. -/
  distinct : (columns.map fun column => column.name.toList.map Char.toLower).Nodup
  sound : ∀ column ∈ columns, column.type.Sound
  /-- A key column is a `str` or `int` one, and not optional. -/
  keyed : ∀ name ∈ key, ∃ column ∈ columns, column.name = name ∧ column.optional = false ∧
    (column.type.scalar? = some .str ∨ column.type.scalar? = some .int)
  keyNodup : key.Nodup
  keyNonempty : key ≠ []

/-- The column of a name. -/
def TableDefinition.byName (table : TableDefinition) (name : String) : Option Column := table.columns.find? (·.name = name)

/-! ## Rows -/

/-- A row of SQLite: the value of each physical column. -/
abbrev SqlRow := String → SqlValue

/-- What a column of the type takes besides `NULL`: the values of its SQL type that its `CHECK` lets through. -/
def ScalarType.accepts : ScalarType → SqlValue → Bool
  | .str, .text _ => true
  | .int, .num q => isSafeInteger q
  | .num, .num _ => true
  | .bool, .num q => q = 0 || q = 1
  | _, _ => false

/-- The constraints of one column. A `json(...)` one is a text, with its version column. -/
def Column.accepts (column : Column) (row : SqlRow) : Bool :=
  match column.type with
  | .scalar type _ => if row column.name = .null then column.optional else type.accepts (row column.name)
  | .json _ =>
    (match row column.name with
      | .null => column.optional
      | .json _ => true
      | _ => false) &&
    match row (versionColumn column.name) with
    | .null => column.optional
    | .num q => q.den = 1
    | _ => false

/-- The row satisfies its column constraints. -/
def TableDefinition.accepts (table : TableDefinition) (row : SqlRow) : Bool := table.columns.all (·.accepts row)

/-- What a property of a row object holds: a cell, a property of `Object.prototype`, or what an operation makes of
one, a text or `NaN`. -/
inductive Value where
  | absent
  | scalar (s : Scalar)
  | json (x : Json)
  | inherited
  | derived
deriving DecidableEq

/-- A row as the evaluator reads it: its own properties, `absent` where there is none. -/
abbrev EvaluatedRow := String → Value

/-- The properties every object inherits. -/
def objectProperties : List String :=
  ["constructor", "__defineGetter__", "__defineSetter__", "hasOwnProperty", "__lookupGetter__", "__lookupSetter__",
    "isPrototypeOf", "propertyIsEnumerable", "toString", "valueOf", "__proto__", "toLocaleString"]

/-- `row[name]` -/
def EvaluatedRow.get (row : EvaluatedRow) (name : String) : Value :=
  match row name with
  | .absent => if name ∈ objectProperties then .inherited else .absent
  | value => value

/-- A property assigned; an assignment to `__proto__` makes no own property. -/
def EvaluatedRow.assign (row : EvaluatedRow) (name : String) (value : Value) : EvaluatedRow :=
  if name = "__proto__" then row else Function.update row name value

/-- A stored scalar as it is read back: a boolean from 0 and 1. -/
def ScalarType.decode : ScalarType → SqlValue → Value
  | .bool, value => .scalar (.bool (value = .num 1))
  | _, .num q => .scalar (.num q)
  | _, .text cs => .scalar (.str (utf16 cs))
  | _, _ => .absent

/-- A stored cell as it is read back, `absent` for `NULL`; `none` where the code cannot read it. -/
def Column.decode (column : Column) (stored : SqlRow) : Option Value :=
  if stored column.name = .null then some .absent
  else
    match column.type, stored column.name with
    | .scalar type _, value => some (type.decode value)
    | .json json, .json x => (json.read x (stored (versionColumn column.name))).map .json
    | .json _, _ => none

/-- A stored row as reads return it. -/
def TableDefinition.decode (table : TableDefinition) (stored : SqlRow) : Option EvaluatedRow :=
  table.columns.foldlM (fun row column => do
    let value ← column.decode stored
    return if value = .absent then row else EvaluatedRow.assign row column.name value) fun _ => .absent

end PiBridge.Chord.Store
