import PiBridge.Chord.Store.TableChanges
import PiBridge.Chord.Store.Meaning
import PiBridge.Chord.Link.Values
import Mathlib.Data.Prod.Lex
import Mathlib.Data.List.DropRight

/-!
# `Chord.Store.Query` — queries of a table, and the pages of one

A query keeps its compiled condition and its order, which ends with the key. A page reads one row more than its limit, and
gives a cursor when there is one: the order values of its last row, bound to the table, the order and the direction.
-/

namespace PiBridge.Chord.Store

open Lib Link

inductive Direction where
  | asc
  | desc
deriving DecidableEq

def Direction.name : Direction → Text
  | .asc => text "asc"
  | .desc => text "desc"

structure Order where
  columns : List String
  direction : Direction

/-- A column that orders rows: a `str` or `int` one, and not optional. -/
def Column.orders (column : Column) : Prop := column.optional = false ∧ (column.type.scalar? = some .str ∨ column.type.scalar? = some .int)

instance decidableOrders (column : Column) : Decidable column.orders := inferInstanceAs (Decidable (_ ∧ _))

/-! ## Queries -/

/-- A query of a table: its condition and its `orderBy` columns. -/
structure Query (table : TableDefinition) where
  condition : Option WhereNode
  columns : List String
  direction : Option Direction
  typed : ∀ node, condition = some node → node.Typed table
  ordered : ∀ name ∈ columns, ∃ column ∈ table.columns, column.name = name ∧ column.orders
  nodup : columns.Nodup

/-- `query` -/
def query (table : TableDefinition) : Query table := ⟨none, [], none, by simp, by simp, List.nodup_nil⟩

namespace Query

variable {table : TableDefinition} (q : Query table)

/-- This query with another condition too. -/
def where_ (condition : Condition) : Option (Query table) :=
  match h : compileWhere table condition with
  | none => none
  | some compiled =>
    some { q with
      condition := some (q.condition.elim compiled fun before => .and [before, compiled])
      typed := by
        have hcompiled := compileWhere_typed h
        intro node hnode
        cases hnode
        cases hbefore : q.condition with
        | none => exact hcompiled
        | some before => exact ⟨q.typed before hbefore, hcompiled, trivial⟩ }

/-- This query ordered by a column next: one direction, no column twice. -/
def orderBy (ref : Option String) (direction : Direction) : Option (Query table) :=
  match h : table.byName (ref.getD "") with
  | none => none
  | some column =>
    if horders : column.orders then
      if hnew : column.name ∈ q.columns then none
      else if q.direction.all (· = direction) then
        some { q with
          columns := q.columns ++ [column.name]
          direction := some direction
          ordered := by
            intro name hname
            rcases List.mem_append.mp hname with hold | hlast
            · exact q.ordered name hold
            · obtain rfl := List.mem_singleton.mp hlast
              exact ⟨column, (byName_spec h).1, rfl, horders⟩
          nodup := q.nodup.append (List.nodup_singleton _) (List.disjoint_singleton.mpr hnew) }
      else none
    else none

/-- The order of its rows: the `orderBy` columns, then the key columns not among them. -/
def order : Order := ⟨q.columns ++ table.key.filter (· ∉ q.columns), q.direction.getD .asc⟩

end Query

/-! ## Cursors -/

section Cursors

variable (numbers : Numbers)

/-- What a cursor holds. -/
def cursorJson (table : Text) (order : Order) (values : List SqlValue) : Json :=
  .obj [(text "t", .str table), (text "o", .arr (order.columns.map fun column => .str (text column))),
    (text "d", .str order.direction.name), (text "v", .arr (values.map SqlValue.toJson))]

/-- One character for another, everywhere. -/
def replaceUnit (old new : UInt16) (s : Text) : Text := s.map fun c => if c = old then new else c

/-- The cursor of the position after a row with these order values. -/
def encodeCursor (table : Text) (order : Order) (values : List SqlValue) : Text :=
  let binary := encodeUtf8 (stringify numbers (cursorJson table order values))
  (replaceUnit 47 95 (replaceUnit 43 45 (base64 binary))).rdropWhile (· = 61)

/-- Text without a byte order mark. -/
def dropMark : Text → Text
  | 0xfeff :: s => s
  | s => s

/-- A field of what a cursor holds. -/
def member (decoded : Json) (key : String) : Option Json :=
  match decoded with
  | .obj m => Assoc.get? m (text key)
  | _ => none

/-- The order values of a cursor of this table and order. -/
def decodeCursor (table : TableDefinition) (sqlName : Text) (order : Order) (cursor : Text) : Option (List SqlValue) := do
  let binary ← fromBase64 (replaceUnit 95 47 (replaceUnit 45 43 cursor))
  let decoded ← parse numbers (dropMark (← decodeUtf8 binary))
  guard (member decoded "t" = some (.str sqlName) ∧ member decoded "d" = some (.str order.direction.name))
  let columns ← member decoded "o"
  guard (stringify numbers columns = stringify numbers (.arr (order.columns.map fun column => .str (text column))))
  match member decoded "v" with
  | some (.arr values) => do
    guard (values.length = order.columns.length)
    (order.columns.zip values).mapM fun (name, value) => do
      let type ← (← table.byName name).type.scalar?
      return toSqlite (← checkScalar type value)
  | _ => none

end Cursors

/-! ## Selecting -/

/-- Row values, in the order of their first difference. -/
def compareRows : List SqlValue → List SqlValue → Option Ordering
  | a :: as, b :: bs =>
    match a.compare b with
    | some .eq => compareRows as bs
    | order => order
  | _, _ => some .eq

/-- `SELECT … WHERE … AND (…) > (?, …) ORDER BY … LIMIT ?` -/
structure SqlSelect where
  condition : Option SqlCond
  /-- The columns compared with as many parameters. -/
  after : Option (List String × Comparison × Nat)
  order : Order

def Direction.comparison : Direction → Comparison
  | .asc => .gt
  | .desc => .lt

/-- The next parameters. -/
def takeValues : Nat → Taking SqlParam (List SqlValue)
  | 0 => return []
  | n + 1 => do return (← takeValue) :: (← takeValues n)

/-- A condition that a row meets without one. -/
def conditionHolds (row : SqlRow) : Option SqlCond → Taking SqlParam (Option Bool)
  | none => return some true
  | some cond => cond.eval row

def afterHolds (row : SqlRow) : Option (List String × Comparison × Nat) → Taking SqlParam (Option Bool)
  | none => return some true
  | some (columns, op, count) => do return op.sqlHolds (compareRows (columns.map row) (← takeValues count))

/-- Whether a row meets the conditions, and the limit. -/
def SqlSelect.eval (row : SqlRow) (statement : SqlSelect) : Taking SqlParam (Option Bool × SqlValue) := do
  let condition ← conditionHolds row statement.condition
  let after ← afterHolds row statement.after
  return (sqlAnd condition after, ← takeValue)

/-- Where `ORDER BY` puts a value: `NULL` first, then numbers, then texts by their bytes. -/
def SqlValue.sortKey : SqlValue → Nat ×ₗ Rat ×ₗ List Nat
  | .null => toLex (0, toLex (0, []))
  | .num q => toLex (1, toLex (q, []))
  | .text cs => toLex (2, toLex (0, (utf8 cs).map UInt8.toNat))
  | .json _ => toLex (3, toLex (0, []))

def Order.sortKey (order : Order) (row : SqlRow) : List (Nat ×ₗ Rat ×ₗ List Nat) := order.columns.map fun column => (row column).sortKey

/-- Whether a row comes no later than another. -/
def Order.le (order : Order) (row row' : SqlRow) : Bool :=
  match order.direction with
  | .asc => order.sortKey row ≤ order.sortKey row'
  | .desc => order.sortKey row' ≤ order.sortKey row

def SqlSelect.execute (statement : SqlSelect) (params : List SqlParam) (rows : List SqlRow) : Except SqlError (List SqlRow) := do
  let hits ← rows.filterM fun row =>
    match statement.eval row params with
    | some ((value, .num _), []) => .ok (value = some true)
    | _ => .error .malformed
  match params.getLast? with
  | some (.value (.num limit)) => return (hits.mergeSort statement.order.le).take limit.num.toNat
  | _ => throw .malformed

def renderCondition : Option WhereNode → Render SqlParam (Option SqlCond)
  | none => return none
  | some node => do return some (← whereSql node)

def pushValues : List SqlValue → Render SqlParam PUnit
  | [] => return ⟨⟩
  | value :: values => do
    push (.value value)
    pushValues values

def renderAfter (order : Order) : Option (List SqlValue) → Render SqlParam (Option (List String × Comparison × Nat))
  | none => return none
  | some values => do
    pushValues values
    return some (order.columns, order.direction.comparison, values.length)

/-- `TableSql.select`: rows matching the condition in order, after the order values, at most `limit`. -/
def selectSql (condition : Option WhereNode) (order : Order) (after : Option (List SqlValue)) (limit : Nat) :
    Render SqlParam SqlSelect := do
  let condition ← renderCondition condition
  let after ← renderAfter order after
  push (.value (.num limit))
  return ⟨condition, after, order⟩

/-! ## Pages -/

/-- A table's handle: its definition and its name in SQL. -/
structure TableHandle where
  table : TableDefinition
  sqlName : Text

section Pages

variable (numbers : Numbers) (handle : TableHandle) (q : Query handle.table) (tableRows : List SqlRow)

/-- The order values a page comes after. -/
def TableHandle.position : Option Text → Except GetError (Option (List SqlValue))
  | none => return none
  | some cursor => (decodeCursor numbers handle.table handle.sqlName q.order cursor).elim (throw .args) (pure ∘ some)

/-- Up to `limit` rows of a query after a cursor, and the cursor of the next page when there is one. -/
def TableHandle.page (limit : Nat) (after : Option Text) : Except GetError (List EvaluatedRow × Option Text) := do
  if limit < 1 ∨ maxSafeInteger < limit then throw .args
  let after ← handle.position numbers q after
  let statement := (selectSql q.condition q.order after (limit + 1)).run []
  let stored ← (statement.1.execute statement.2 tableRows).mapError .sql
  let items ← (stored.take limit).mapM fun row => (handle.table.decode row).elim (throw .unavailable) pure
  if limit < stored.length then
    return (items, stored[limit - 1]?.map fun last => encodeCursor numbers handle.sqlName q.order (q.order.columns.map last))
  else return (items, none)

/-- The pages from a cursor on, each with its limit; `none` when that many pages are not all. -/
def TableHandle.follow : Nat → (Nat → Nat) → Option Text → Except GetError (Option (List EvaluatedRow))
  | 0, _, _ => return none
  | pages + 1, limits, after => do
    let (items, next) ← handle.page numbers q tableRows (limits 0) after
    match next with
    | none => return some items
    | some cursor => return (← follow pages (fun page => limits (page + 1)) (some cursor)).map (items ++ ·)

/-- `ROWS_PAGE` -/
def rowsPage : Nat := 100

/-- Every row of a query, read a page of 100 at a time. -/
def TableHandle.rows (pages : Nat) : Except GetError (Option (List EvaluatedRow)) :=
  handle.follow numbers q tableRows pages (fun _ => rowsPage) none

end Pages

end PiBridge.Chord.Store
