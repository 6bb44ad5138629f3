import PiBridge.Chord.Store.Evaluate
import PiBridge.Chord.Store.Sql

/-!
# `Chord.Store.RowCodec` — plugins' rows and keys, checked and encoded

A plugin hands over an object: a field it does not have is read as what every object inherits. That is a function,
which no column takes, or for `__proto__` an object that serializes as `{}`.
A row is bound in the order of its physical columns, and a key is identified by the JSON text of what is bound for it.
-/

namespace PiBridge.Chord.Store

open Lib

/-- An object as a plugin hands it over: one value for each of its own properties. -/
structure Fields where
  entries : List (String × Given)
  nodup : (entries.map Prod.fst).Nodup

/-- `fields[name]`; a function is `none`. -/
def Fields.get (fields : Fields) (name : String) : Option Given :=
  match Assoc.get? fields.entries name with
  | some value => some value
  | none => if name = "__proto__" then some (some (.obj [])) else if name ∈ objectProperties then none else some none

/-- `#closed`: the fields are known ones. -/
def Fields.closed (fields : Fields) (names : List String) : Bool := fields.entries.all (·.1 ∈ names)

/-- A checked cell: what is bound and what is recorded, `absent` for `NULL`. -/
structure Cell where
  param : SqlValue
  stored : Value

def Cell.null : Cell := ⟨.null, .absent⟩

/-- A scalar as a plugin hands it over. -/
def Scalar.json : Scalar → Json
  | .str s => .str s
  | .num q => .num q
  | .bool b => .bool b

/-- Checks and encodes a value of a column. -/
def encodeCell (type : ColumnType) (value : Json) : Option Cell :=
  match type with
  | .scalar type _ => (checkScalar type value).map fun s => ⟨toSqlite s, .scalar s⟩
  | .json _ => some ⟨.json value, .json value⟩

/-- The default of a column that is given none. -/
def ColumnType.default : ColumnType → Given
  | .scalar _ default => default.map Scalar.json
  | .json _ => none

/-- The cell of one column of a `put`. -/
def putCell (fields : Fields) (column : Column) : Option Cell := do
  match (← fields.get column.name).or column.type.default with
  | none => if column.optional then return .null else none
  | some value => encodeCell column.type value

/-- The row's eager-step version column. -/
def rowVersion : String := "$v"

/-- The `json(...)` columns. -/
def TableDefinition.jsonColumns (table : TableDefinition) : List (String × JsonColumn) :=
  table.columns.filterMap fun column =>
    match column.type with
    | .json json => some (column.name, json)
    | .scalar _ _ => none

/-- The declared columns, each `json(...)` column's version, then `$v`. -/
def TableDefinition.physical (table : TableDefinition) : List String :=
  table.columns.map (·.name) ++ table.jsonColumns.map (versionColumn ·.1) ++ [rowVersion]

/-- A parameter in JSON. -/
def SqlValue.toJson : SqlValue → Json
  | .null => .null
  | .num q => .num q
  | .text cs => .str (utf16 cs)
  | .json x => x

/-- A key as its parameters' JSON text. -/
def keyId (numbers : Numbers) (params : List SqlValue) : Text := stringify numbers (.arr (params.map SqlValue.toJson))

/-- A `put` ready for the step: its parameters in physical order, its record, each written `json(...)` column's version,
and its key's identity. -/
structure EncodedRow where
  params : List SqlValue
  row : EvaluatedRow
  columns : List (String × Nat)
  id : Text

/-- Records a cell, none that is absent. -/
def recordCell (row : EvaluatedRow) (entry : Column × Cell) : EvaluatedRow :=
  if entry.2.stored = .absent then row else row.assign entry.1.name entry.2.stored

/-- The record of a row's cells. -/
def recordCells (cells : List (Column × Cell)) : EvaluatedRow := cells.foldl recordCell fun _ => .absent

/-- What is bound for the version of each `json(...)` column: `NULL` with no cell. -/
def TableDefinition.versionParams (table : TableDefinition) (stored : EvaluatedRow) : List SqlValue :=
  table.jsonColumns.map fun (name, json) => if stored name = .absent then .null else .num json.version

/-- Checks and encodes a `put` row. -/
def TableDefinition.put (table : TableDefinition) (numbers : Numbers) (fields : Fields) : Option EncodedRow := do
  guard (fields.closed (table.columns.map (·.name)))
  let cells ← table.columns.mapM (putCell fields)
  let stored := recordCells (table.columns.zip cells)
  let params := cells.map (·.param) ++ table.versionParams stored ++ [.num table.version]
  let positions := table.key.map fun name => table.columns.findIdx (·.name = name)
  return {
    params := params
    row := stored
    columns := (table.jsonColumns.filter (stored ·.1 ≠ .absent)).map fun (name, json) => (name, json.version)
    id := keyId numbers (positions.map fun position => params.getD position .null)
  }

/-- A key ready for the store: its parameters in key order, its record and its identity within one table. -/
structure EncodedKey where
  params : List SqlValue
  key : List (String × SqlValue)
  id : Text

/-- What is bound for one key column. -/
def keyParam (table : TableDefinition) (fields : Fields) (name : String) : Option SqlValue := do
  let column ← table.byName name
  match column.type, ← fields.get name with
  | .scalar type _, some value => (checkScalar type value).map toSqlite
  | _, _ => none

/-- Checks and encodes a key; its record has no own property `__proto__`. -/
def TableDefinition.encodeKey (table : TableDefinition) (numbers : Numbers) (fields : Fields) : Option EncodedKey := do
  guard (fields.closed table.key)
  let params ← table.key.mapM (keyParam table fields)
  return ⟨params, (table.key.zip params).filter (·.1 ≠ "__proto__"), keyId numbers params⟩

end PiBridge.Chord.Store
