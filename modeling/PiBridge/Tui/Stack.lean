import Mathlib.Data.Rat.Floor

/-!
# `Tui.Stack` — the sizes of a stack's entries

`allocateStackSizes` gives every entry its basis within its bounds and shares what is left, or what is too much, by weight.
Sizes are integers, weights and shares are exact; `"auto"` and no basis at all are the entry's intrinsic size.
-/

namespace PiBridge.Tui

inductive Basis where
  | auto
  | size (size : Int)

structure StackLayoutEntry where
  basis : Option Basis
  grow : Option Rat
  shrink : Option Rat
  minSize : Option Int
  maxSize : Option Int

inductive Mode where
  | grow
  | shrink

namespace StackLayoutEntry

variable (entry : StackLayoutEntry)

/-- `entry.minSize ?? 0` -/
def least : Int := entry.minSize.getD 0

/-- `entry.maxSize ?? Number.MAX_SAFE_INTEGER` -/
def most : Int := entry.maxSize.getD 9007199254740991

/-- The entry is a candidate. -/
def moves (mode : Mode) (size : Int) : Bool :=
  match mode with
  | .grow => 0 < entry.grow.getD 0 && size < entry.most
  | .shrink => 0 < entry.shrink.getD 1 && entry.least < size

def weight (mode : Mode) (size : Int) : Rat :=
  match mode with
  | .grow => entry.grow.getD 0
  | .shrink => entry.shrink.getD 1 * max 1 size

def capacity (mode : Mode) (size : Int) : Int :=
  match mode with
  | .grow => entry.most - size
  | .shrink => size - entry.least

end StackLayoutEntry

def Mode.move (mode : Mode) (size delta : Int) : Int :=
  match mode with
  | .grow => size + delta
  | .shrink => size - delta

/-- What an entry takes of what remains: nothing where nothing remains, it is no candidate, or it has no room. -/
def StackLayoutEntry.delta (entry : StackLayoutEntry) (mode : Mode) (totalWeight : Rat) (remaining size : Int) : Int :=
  let proposed := max 1 (remaining * entry.weight mode size / totalWeight).floor
  let delta := min remaining (min proposed (entry.capacity mode size))
  if 0 < remaining ∧ entry.moves mode size ∧ 0 < delta then delta else 0

/-- A round over the entries: their new sizes, and what remains. -/
def share (mode : Mode) (totalWeight : Rat) : Int → List (StackLayoutEntry × Int) → List Int × Int
  | remaining, [] => ([], remaining)
  | remaining, (entry, size) :: cells =>
    let delta := entry.delta mode totalWeight remaining size
    let (sizes, left) := share mode totalWeight (remaining - delta) cells
    (mode.move size delta :: sizes, left)

def candidates (mode : Mode) (cells : List (StackLayoutEntry × Int)) : List (StackLayoutEntry × Int) :=
  cells.filter fun cell => cell.1.moves mode cell.2

def round (mode : Mode) (cells : List (StackLayoutEntry × Int)) (remaining : Int) : List Int × Int :=
  share mode ((candidates mode cells).map fun cell => cell.1.weight mode cell.2).sum remaining cells

section Share

variable {mode : Mode} {totalWeight : Rat} {entry : StackLayoutEntry} {remaining size : Int} {cells : List (StackLayoutEntry × Int)}

end Share

end PiBridge.Tui
