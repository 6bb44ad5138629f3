import PiBridge.Chord.Store.RowCodec

/-!
# `Chord.Store.TableChanges` — a transaction's writes to one table

Each write is checked when it is staged, and kept in staging order as the statement that the commit step runs. Writes
of one key are also kept by the key's identity, and `get` replays them over the committed row from the last `put` or
`delete` of the key on.
-/

namespace PiBridge.Chord.Store

open Lib

/-! ## Statements -/

/-- A statement of one table, with its parameters. -/
inductive Statement where
  | put (physical : List String) (params : List SqlValue)
  | update (assignments : List (String × SqlExpr)) (condition : SqlCond) (params : List SqlParam)
  | delete (condition : SqlCond) (params : List SqlParam)

/-- The values of a row's key columns. -/
def TableDefinition.rowKey (table : TableDefinition) (row : SqlRow) : List SqlValue := table.key.map row

/-- `INSERT OR REPLACE`: a row of the same key goes. -/
def executePut (table : TableDefinition) (physical : List String) (params : List SqlValue) (rows : List SqlRow) :
    Except SqlError (List SqlRow) :=
  let row := SqlRow.assign (fun _ => .null) (physical.zip params)
  if physical.length ≠ params.length then .error .malformed
  else if table.accepts row then .ok (rows.filter (fun other => table.rowKey other ≠ table.rowKey row) ++ [row])
  else .error .constraint

/-- An `UPDATE` of one row, where it meets the condition. -/
def executeUpdate (table : TableDefinition) (assignments : List (String × SqlExpr)) (condition : SqlCond)
    (params : List SqlParam) (row : SqlRow) : Except SqlError SqlRow :=
  match assignedValues row assignments params with
  | some (values, rest) => do
    let hit ← condition.value row rest
    if hit = some true then
      if table.accepts (row.assign values) then return row.assign values else throw .constraint
    else return row
  | none => throw .malformed

/-- A statement run on the rows of its table. -/
def Statement.execute (table : TableDefinition) (statement : Statement) (rows : List SqlRow) : Except SqlError (List SqlRow) :=
  match statement with
  | .put physical params => executePut table physical params rows
  | .update [] _ _ => .error .malformed
  | .update assignments condition params => rows.mapM (executeUpdate table assignments condition params)
  | .delete condition params => rows.filterM fun row => do return (← condition.value row params) ≠ some true

/-- `"a" = ? AND "b" = ?`, over the key columns. -/
def byKeySql (key : List String) : SqlCond :=
  match key with
  | [] => .one
  | name :: names =>
    names.foldl (fun cond name => .and cond (.compare .eq (.column name) .param)) (.compare .eq (.column name) .param)

/-- `SELECT … WHERE` the key: the first row. -/
def selectByKey (table : TableDefinition) (params : List SqlValue) (rows : List SqlRow) : Except SqlError (Option SqlRow) := do
  let hits ← rows.filterM fun row => do return (← (byKeySql table.key).value row (params.map .value)) = some true
  return hits.head?

/-! ## Staging -/

/-- A write as the outbox records it, the count of its rows apart. -/
inductive TableWrite where
  | put (row : EvaluatedRow) (version : Nat) (columns : List (String × Nat))
  | update (key : List (String × SqlValue)) (set : SetNode) (columns : List (String × Nat))
  | delete (key : List (String × SqlValue))
  | updateWhere (condition : WhereNode) (set : SetNode) (columns : List (String × Nat))
  | deleteWhere (condition : WhereNode)

/-- A write staged for the commit step. -/
structure StagedStatement where
  statement : Statement
  write : TableWrite

/-- One staged write of one key, as the overlay replays it. -/
inductive KeyWrite where
  | put (row : EvaluatedRow)
  | update (set : SetNode)
  | delete

def KeyWrite.isUpdate : KeyWrite → Bool
  | .update _ => true
  | _ => false

/-- The writes of one transaction to one table. -/
structure TableChanges where
  staged : List StagedStatement
  byKey : Assoc Text (List KeyWrite)
  bulk : Bool

/-- A transaction that has written nothing. -/
def TableChanges.new : TableChanges := ⟨[], [], false⟩

/-- The writes of a key. -/
def TableChanges.writes (changes : TableChanges) (id : Text) : List KeyWrite := (Assoc.get? changes.byKey id).getD []

def TableChanges.write (changes : TableChanges) (id : Text) (write : KeyWrite) : TableChanges :=
  { changes with byKey := Assoc.set changes.byKey id (changes.writes id ++ [write]) }

def TableChanges.stage (changes : TableChanges) (statement : Statement) (write : TableWrite) : TableChanges :=
  { changes with staged := changes.staged ++ [⟨statement, write⟩] }

/-- The versions a write records: a clear has none. -/
def recordedVersions (versions : String → Option Nat) (set : SetNode) : List (String × Nat) :=
  set.filterMap fun (column, node) =>
    match node with
    | .null => none
    | _ => (versions column).map (column, ·)

/-- A staged call of a plugin. -/
inductive TableCall where
  | put (row : Fields)
  | update (key : Fields) (set : SetOf)
  | delete (key : Fields)
  | updateWhere (condition : Condition) (set : SetOf)
  | deleteWhere (condition : Condition)

section Calls

variable (table : TableDefinition) (numbers : Numbers)

/-- Stages a call; one that is refused throws, and stages nothing. -/
def TableChanges.call (changes : TableChanges) : TableCall → Option TableChanges
  | .put row => do
    let encoded ← table.put numbers row
    let staged := changes.stage (.put table.physical encoded.params) (.put encoded.row table.version encoded.columns)
    return staged.write encoded.id (.put encoded.row)
  | .update key set => do
    let encoded ← table.encodeKey numbers key
    let compiled ← compileSet table set
    let versions := jsonVersions table compiled
    let (assignments, params) := (setSql versions compiled).run []
    let statement := .update assignments (byKeySql table.key) (params ++ encoded.params.map .value)
    let staged := changes.stage statement (.update encoded.key compiled (recordedVersions versions compiled))
    return staged.write encoded.id (.update compiled)
  | .delete key => do
    let encoded ← table.encodeKey numbers key
    let staged := changes.stage (.delete (byKeySql table.key) (encoded.params.map .value)) (.delete encoded.key)
    return staged.write encoded.id .delete
  | .updateWhere condition set => do
    let condition ← compileWhere table condition
    let compiled ← compileSet table set
    let versions := jsonVersions table compiled
    let (assignments, params) := (setSql versions compiled).run []
    let (cond, params) := (whereSql condition).run params
    let write := .updateWhere condition compiled (recordedVersions versions compiled)
    return { changes.stage (.update assignments cond params) write with bulk := true }
  | .deleteWhere condition => do
    let condition ← compileWhere table condition
    let (cond, params) := (whereSql condition).run []
    return { changes.stage (.delete cond params) (.deleteWhere condition) with bulk := true }

/-- Calls one after the other; a refused one changes nothing. -/
def TableChanges.calls (changes : TableChanges) (calls : List TableCall) : TableChanges :=
  calls.foldl (fun changes call => (changes.call table numbers call).getD changes) changes

/-! ## Reading -/

/-- What a read throws. -/
inductive GetError where
  | readAfterBulk
  | args
  | unavailable
  | sql (error : SqlError)
  | evaluate (error : EvaluateError)
deriving DecidableEq

/-- A selected row as reads return it. -/
def readStored : Except SqlError (Option SqlRow) → Except GetError (Option EvaluatedRow)
  | .error error => throw (.sql error)
  | .ok none => return none
  | .ok (some stored) => do return some (← (table.decode stored).elim (throw .unavailable) pure)

/-- The committed row of a recorded key. -/
def handleGet (key : List (String × SqlValue)) (committed : List SqlRow) : Except GetError (Option EvaluatedRow) := do
  let fields := key.map fun (name, param) => (name, some param.toJson)
  let encoded ← if h : (fields.map Prod.fst).Nodup then (table.encodeKey numbers ⟨fields, h⟩).elim (throw .args) pure
    else throw .args
  readStored table (selectByKey table encoded.params committed)

/-- Replays an update; of an absent row it changes nothing. -/
def replayWrite (row : Option EvaluatedRow) (write : KeyWrite) : Except GetError (Option EvaluatedRow) :=
  match row, write with
  | some row, .update set =>
    match applySet set row with
    | .ok next => .ok (some next)
    | .error error => .error (.evaluate error)
  | row, _ => .ok row

/-- The row the updates of a key start from, after its last `put` or `delete`. -/
def startRow (committed : Except GetError (Option EvaluatedRow)) : Option KeyWrite → Except GetError (Option EvaluatedRow)
  | none => committed
  | some (.put row) => .ok (some row)
  | some _ => .ok none

/-- The writes of a key replayed, from the last `put` or `delete` on. -/
def replay (writes : List KeyWrite) (committed : Except GetError (Option EvaluatedRow)) : Except GetError (Option EvaluatedRow) := do
  let row ← startRow committed (writes.reverse.dropWhile KeyWrite.isUpdate).head?
  (writes.reverse.takeWhile KeyWrite.isUpdate).reverse.foldlM replayWrite row

/-- The row with the key as this transaction leaves it. -/
def TableChanges.get (changes : TableChanges) (key : Fields) (committed : List SqlRow) : Except GetError (Option EvaluatedRow) :=
  if changes.bulk then throw .readAfterBulk
  else
    match table.encodeKey numbers key with
    | none => throw .args
    | some encoded => replay (changes.writes encoded.id) (handleGet table numbers encoded.key committed)

end Calls

end PiBridge.Chord.Store
