import PiBridge.Chord.Delta.Apply

/-!
# `Chord.Delta.Pending` — the operations a slow consumer has not taken

While operations wait, a leaf operation (an append, a set of a primitive) is merged into the last pending leaf
operation on the same path; any other operation clears the index of leaves. `r` drops what is before it. Past
`maxPendingOps` only "replace with the current value" stays pending.
-/

namespace PiBridge.Chord

/-- `MAX_PENDING_OPS` -/
def maxPendingOps : Nat := 10000

/-- `PendingTake` -/
inductive PendingTake where
  | ops (ops : List Op)
  | replace
deriving DecidableEq

/-- The folded operations, and the position of the last pending leaf operation under each path key. -/
structure Folding where
  ops : List Op
  leaves : Text → Option Nat

namespace Folding

def start : Folding := { ops := [], leaves := fun _ => none }

end Folding

/-- `merge`: `next` folded into `previous`, both leaf operations on one path. -/
def merge : Op → Op → Option Op
  | _, .s path value => some (.s path value)
  | .a path suffix, .a _ suffix' => some (.a path (suffix ++ suffix'))
  | .s path (.str s), .a _ suffix => some (.s path (.str (s ++ suffix)))
  | _, _ => none

/-- `mergeLeaf`, for a leaf operation on `path`; the operation is pushed unless it merges. -/
def Folding.leaf (f : Folding) (path : Path) (op : Op) : Folding :=
  let pushed := { ops := f.ops ++ [op], leaves := Function.update f.leaves (pathKey path) (some f.ops.length) }
  match f.leaves (pathKey path) with
  | some at_ =>
    match f.ops[at_]?.bind (merge · op) with
    | some merged => { f with ops := f.ops.set at_ merged }
    | none => pushed
  | none => pushed

/-- The body of the loop of `#fold`, without the limit. -/
def Folding.step (f : Folding) (op : Op) : Folding :=
  match op with
  | .r _ => { ops := [op], leaves := fun _ => none }
  | .a path _ => f.leaf path op
  | .s path value => if value.isPrimitive then f.leaf path op else { ops := f.ops ++ [op], leaves := fun _ => none }
  | .d _ | .t _ _ | .p _ _ _ _ | .m _ _ => { ops := f.ops ++ [op], leaves := fun _ => none }

/-- `#fold`; `none` once the queue overflowed. -/
def Folding.fold (f : Folding) : List Op → Option Folding
  | [] => some f
  | op :: ops => if (f.step op).ops.length > maxPendingOps then none else (f.step op).fold ops

/-- `#state` -/
inductive PendingOps where
  | empty
  | batch (ops : List Op)
  | folding (f : Folding)
  | replace

namespace PendingOps

/-- The state after `#fold`. -/
def folded : Option Folding → PendingOps
  | some f => folding f
  | none => replace

/-- `push` -/
def push (pending : PendingOps) (ops : List Op) : PendingOps :=
  match ops with
  | [] => pending
  | .r _ :: _ => batch ops
  | _ =>
    match pending with
    | empty => batch ops
    | batch ops₀ => folded ((Folding.start.fold ops₀).bind fun f => f.fold ops)
    | folding f => folded (f.fold ops)
    | replace => replace

/-- What `take` hands over; the queue is `empty` afterwards. -/
def take : PendingOps → PendingTake
  | empty => .ops []
  | batch ops => .ops ops
  | folding f => .ops f.ops
  | replace => .replace

end PendingOps

end PiBridge.Chord
