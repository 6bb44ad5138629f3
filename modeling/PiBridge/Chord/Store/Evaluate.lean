import PiBridge.Chord.Store.Expression

/-!
# `Chord.Store.Evaluate` — the JavaScript evaluator of conditions and sets

Conditions have SQL's three-valued truth, `none` where it is unknown. A read of a property that the row does not have
gives what it inherits: such a value is no cell, it compares as `NaN`, and it has no `startsWith`.
-/

namespace PiBridge.Chord.Store

/-- What the evaluator throws: `invalid/args` for a result outside ±(2^53 - 1), or a `TypeError`. -/
inductive EvaluateError where
  | unsafeInteger
  | notAFunction
deriving DecidableEq

/-- SQL's three-valued truth: `none` is unknown. -/
abbrev Truth := Option Bool

def both (a b : Truth) : Truth := if a = some false ∨ b = some false then some false else if a = none ∨ b = none then none else some true

def either (a b : Truth) : Truth := if a = some true ∨ b = some true then some true else if a = none ∨ b = none then none else some false

/-- `Number(a)`, for what is no text. -/
def Scalar.number? : Scalar → Option Rat
  | .str _ => none
  | .num q => some q
  | .bool b => some (if b then 1 else 0)

/-- Orders two cells of one column; `none` is `NaN`. -/
def compareScalar : Value → Value → Option Ordering
  | .scalar (.str a), .scalar (.str b) => some (compare (compareText a b) 0)
  | .scalar a, .scalar b => do return compare (← a.number?) (← b.number?)
  | _, _ => none

/-- The operator on an order of its operands. Only `ne` holds of a `NaN`. -/
def Comparison.holds : Comparison → Option Ordering → Bool
  | .eq, order => order = some .eq
  | .ne, order => order ≠ some .eq
  | .lt, order => order = some .lt
  | .lte, order => order = some .lt ∨ order = some .eq
  | .gt, order => order = some .gt
  | .gte, order => order = some .gt ∨ order = some .eq

section Evaluate

variable (row : EvaluatedRow)

mutual
def truth : WhereNode → Except EvaluateError Truth
  | .and nodes => truthAll (some true) nodes
  | .or nodes => truthAny (some false) nodes
  | .not node => do return (← truth node).map (! ·)
  | .isNull column => return some (row.get column = .absent)
  | .inArray column values =>
    if values = [] then return some false
    else
      match row.get column with
      | .absent => return none
      | value => return some (values.any fun each => compareScalar value (.scalar each) = some .eq)
  | .hasPrefix column start =>
    match row.get column with
    | .absent => return none
    | .scalar (.str s) => return some (start.isPrefixOf s)
    | _ => throw .notAFunction
  | .comparison op column operand =>
    match row.get column with
    | .absent => return none
    | value => return some (op.holds (compareScalar value (.scalar operand)))

/-- The reduction of an `and`. -/
def truthAll (all : Truth) : List WhereNode → Except EvaluateError Truth
  | [] => return all
  | each :: nodes =>
    if all = some false then truthAll (some false) nodes else do truthAll (both all (← truth each)) nodes

/-- The reduction of an `or`. -/
def truthAny (any : Truth) : List WhereNode → Except EvaluateError Truth
  | [] => return any
  | each :: nodes =>
    if any = some true then truthAny (some true) nodes else do truthAny (either any (← truth each)) nodes
end

/-- Whether the row matches; unknown does not. -/
def matchesRow (node : WhereNode) : Except EvaluateError Bool := do return (← truth row node) = some true

/-- An operation on two values that are there. -/
def Operation.apply (op : Operation) (a b : Value) : Except EvaluateError Value :=
  match op with
  | .concat =>
    match a, b with
    | .scalar (.str a), .scalar (.str b) => return .scalar (.str (a ++ b))
    | _, _ => return .derived
  | .max => return if compareScalar a b = some .gt ∨ compareScalar a b = some .eq then a else b
  | .min => return if compareScalar a b = some .lt ∨ compareScalar a b = some .eq then a else b
  | .add | .sub =>
    match a, b with
    | .scalar (.num a), .scalar (.num b) =>
      let result := if op = .add then a + b else a - b
      if result > maxSafeInteger ∨ result < -(maxSafeInteger : Rat) then throw .unsafeInteger
      else return .scalar (.num result)
    | _, _ => return .derived

def evaluate : ExprNode → Except EvaluateError Value
  | .null => return .absent
  | .literal s => return .scalar s
  | .col column => return row.get column
  | .json x => return .json x
  | .when condition a b => do if ← matchesRow row condition then evaluate a else evaluate b
  | .coalesce a b => do
    match ← evaluate a with
    | .absent => evaluate b
    | value => return value
  | .replacePrefix subject old new => do
    match ← evaluate subject with
    | .absent => return .absent
    | .scalar (.str s) => return .scalar (.str (if old.isPrefixOf s then new ++ s.drop old.length else s))
    | .derived => return .derived
    | _ => throw .notAFunction
  | .operation op a b => do
    let a ← evaluate a
    let b ← evaluate b
    if a = .absent ∨ b = .absent then return .absent else op.apply a b

end Evaluate

/-- The row after the set, every right side evaluated against the row before. -/
def applySet (set : SetNode) (row : EvaluatedRow) : Except EvaluateError EvaluatedRow :=
  set.foldlM (fun next (column, node) => do return next.assign column (← evaluate row node)) row

end PiBridge.Chord.Store
