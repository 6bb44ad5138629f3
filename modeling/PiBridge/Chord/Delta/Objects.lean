import PiBridge.Chord.Delta.Apply
import PiBridge.Lib.Heap

/-!
# `Chord.Delta.Objects` — the appliers, over objects

`apply` changes the objects it is given. `applyImmutable` and `applyImmutableBatches` copy every container on
the way to a change, once: a copy made by the same replay (`owned`) is changed in place by later operations, and an
append to an array that is not yet copied is built as one copy with the items. `applyImmutableTrusted` does
the same for operations it does not check.

A value is a primitive or a reference to an object in the heap; `none` is a throw. The values an operation brings
are objects of its own, which enter the heap when the operation is applied. An array holds its elements and nothing
else: a trusted operation that would leave a hole in one, or give it another property, ends the model's run.
-/

namespace PiBridge.Chord.Objects

open Lib Json

/-! ## Objects -/

/-- An array, or an object with its own properties. -/
inductive Node (α : Type) where
  | arr (xs : List α)
  | obj (m : List (Text × α))

namespace Node

variable {α β : Type}

def map (f : α → β) : Node α → Node β
  | arr xs => arr (xs.map f)
  | obj m => obj (Assoc.mapValues f m)

/-- The elements of an array, the property values of an object. -/
def elems : Node α → List α
  | arr xs => xs
  | obj m => m.map Prod.snd

/-- The own property a segment names; an array takes numbers only. -/
def child? : Node α → Seg → Option α
  | arr xs, .index n => xs[n]?
  | arr _, .key _ => none
  | obj m, seg => Assoc.get? m seg.name

/-- `assertIndexInRange`, and the segment's type at an array. -/
def accepts : Node α → Seg → Bool
  | arr xs, .index n => n ≤ xs.length
  | arr _, .key _ => false
  | obj _, _ => true

/-- `Object.defineProperty` with a plain value. -/
def put : Node α → Seg → α → Node α
  | arr xs, .index n, a => if n < xs.length then arr (xs.set n a) else arr (xs ++ [a])
  | arr xs, .key _, _ => arr xs
  | obj m, seg, a => obj (Assoc.set m seg.name a)

end Node

instance instFunctorNode : Functor Node where
  map := Node.map

/-- A primitive value. -/
abbrev Atom := {value : Json // value.isPrimitive = true}

abbrev Val := Lib.Heap.Val Atom

/-- The objects there are; a reference is a position. -/
abbrev Heap := List (Node Val)

/-- Kinds of values that strings are among. -/
class Strings (α : Type) where
  text? : α → Option Text
  ofText : Text → α

instance instStringsVal : Strings Val where
  text? v :=
    match v with
    | .atom ⟨.str cs, _⟩ => some cs
    | _ => none
  ofText cs := .atom ⟨.str cs, rfl⟩

mutual

/-- A value enters the heap, as objects of its own. -/
def alloc (heap : Heap) : Json → Heap × Val
  | .arr xs =>
    let (heap, vs) := allocArr heap xs
    (heap ++ [.arr vs], .ref heap.length)
  | .obj m =>
    let (heap, vs) := allocObj heap m
    (heap ++ [.obj vs], .ref heap.length)
  | .null => (heap, .atom ⟨.null, rfl⟩)
  | .bool b => (heap, .atom ⟨.bool b, rfl⟩)
  | .num q => (heap, .atom ⟨.num q, rfl⟩)
  | .str cs => (heap, .atom ⟨.str cs, rfl⟩)

def allocArr (heap : Heap) : List Json → Heap × List Val
  | [] => (heap, [])
  | x :: xs =>
    let (heap, v) := alloc heap x
    let (heap, vs) := allocArr heap xs
    (heap, v :: vs)

def allocObj (heap : Heap) : List (Text × Json) → Heap × List (Text × Val)
  | [] => (heap, [])
  | (k, x) :: m =>
    let (heap, v) := alloc heap x
    let (heap, vs) := allocObj heap m
    (heap, (k, v) :: vs)

end

/-! ## What an operation does to a container -/

/-- What an operation does where its path ends: at the parent for `s`, `d`, `a` and `t`, at the array for `p` and `m`. -/
inductive Edit (α : Type) where
  | assign (key : Seg) (value : α)
  | delete (key : Seg)
  | append (key : Seg) (suffix : Text)
  | trim (key : Seg) (count : Nat)
  | splice (index remove : Nat) (items : List α)
  | reorder (permutation : List Nat)

/-- The path to the container an operation changes, and what it does there; `r` has none. -/
def edit? : Op → Option (Path × Edit Json)
  | .r _ => none
  | .s path value => path.getLast?.map fun key => (path.dropLast, .assign key value)
  | .d path => path.getLast?.map fun key => (path.dropLast, .delete key)
  | .a path suffix => path.getLast?.map fun key => (path.dropLast, .append key suffix)
  | .t path count => path.getLast?.map fun key => (path.dropLast, .trim key count)
  | .p path index remove items => some (path, .splice index remove items)
  | .m path permutation => some (path, .reorder permutation)

/-- `target.splice(index, remove, ...items)`; a start past the end is the end. -/
def spliceOnce {α : Type} (xs : List α) (index remove : Nat) (items : List α) : List α := xs.take index ++ items ++ xs.drop (index + remove)

/-- `chunkSize` -/
def chunkSize : Nat := 10000

/-- The items are inserted a chunk at a time, so that no call takes too many arguments. -/
def insertChunks {α : Type} : Nat → List α → Nat → List α → List α
  | 0, xs, _, _ => xs
  | rounds + 1, xs, start, items =>
    if items.isEmpty then xs
    else insertChunks rounds (spliceOnce xs start 0 (items.take chunkSize)) (start + chunkSize) (items.drop chunkSize)

namespace Edit

variable {α : Type} [Strings α]

/-- What `applyOps` does to the container. -/
def run : Edit α → Node α → Option (Node α)
  | assign key value, n => if n.accepts key then some (n.put key value) else none
  | delete key, .arr xs =>
    match key with
    | .index i => if i < xs.length then some (.arr (xs.eraseIdx i)) else none
    | .key _ => none
  | delete key, .obj m => some (.obj (Assoc.erase m key.name))
  | append key suffix, n => ((n.child? key).bind Strings.text?).map fun cs => n.put key (Strings.ofText (cs ++ suffix))
  | trim key count, n => ((n.child? key).bind Strings.text?).map fun cs => n.put key (Strings.ofText (cs.drop count))
  | splice index remove items, .arr xs => some (.arr (insertChunks items.length (spliceOnce xs index remove []) index items))
  | splice _ _ _, .obj _ => none
  | reorder permutation, .arr xs =>
    if xs.length = permutation.length then some (.arr (permutation.filterMap fun i => xs[i]?)) else none
  | reorder _, .obj _ => none

end Edit

/-- The values an edit brings enter the heap. -/
def allocEdit (heap : Heap) : Edit Json → Heap × Edit Val
  | .assign key value =>
    let (heap, v) := alloc heap value
    (heap, .assign key v)
  | .splice index remove items =>
    let (heap, vs) := allocArr heap items
    (heap, .splice index remove vs)
  | .delete key => (heap, .delete key)
  | .append key suffix => (heap, .append key suffix)
  | .trim key count => (heap, .trim key count)
  | .reorder permutation => (heap, .reorder permutation)

/-! ## In place -/

/-- `resolve`: the container a path leads to. -/
def resolve (heap : Heap) : Val → Path → Option Nat
  | .atom _, _ => none
  | .ref r, [] => some r
  | .ref r, seg :: path => (heap[r]?).bind fun n => (n.child? seg).bind fun v => resolve heap v path

/-- `applyOps`, of one operation. -/
def applyOp (heap : Heap) (root : Val) (op : Op) : Option (Heap × Val) :=
  if op.isValid then
    match op with
    | .r value => some (alloc heap value)
    | op =>
      (edit? op).bind fun (path, edit) =>
        (resolve heap root path).bind fun r =>
          let (grown, edit) := allocEdit heap edit
          (heap[r]?).bind fun n => (edit.run n).map fun n => (grown.set r n, root)
  else none

/-- `apply` -/
def apply (heap : Heap) (root : Val) (ops : List Op) : Option (Heap × Val) := ops.foldlM (fun s op => applyOp s.1 s.2 op) (heap, root)

/-! ## Copied on write -/

/-- A replay: the objects, the value so far, and the containers copied by this replay. -/
structure Replay where
  heap : Heap
  root : Val
  owned : List Nat

/-- The loop of `copyContainers` and of `copyPath`, from a copied container down the path; `read` is how they read
    a property. It ends with the copy of the last container. -/
def copyBelow (read : Node Val → Seg → Option Val) : Heap → List Nat → Nat → Path → Option (Heap × List Nat × Nat)
  | heap, owned, destination, [] => some (heap, owned, destination)
  | heap, owned, destination, seg :: path =>
    (heap[destination]?).bind fun n =>
      (read n seg).bind fun
        | .atom _ => none
        | .ref child =>
          if child ∈ owned then copyBelow read heap owned child path
          else (heap[child]?).bind fun cell =>
            let copy := heap.length
            copyBelow read ((heap ++ [cell]).set destination (n.put seg (.ref copy))) (copy :: owned) copy path

/-- The copy of the root, and of the containers on the path; with the last of them. -/
def copyAlong (read : Node Val → Seg → Option Val) (s : Replay) (path : Path) : Option (Replay × Nat) :=
  match s.root with
  | .atom _ => none
  | .ref r =>
    if r ∈ s.owned then
      (copyBelow read s.heap s.owned r path).map fun (heap, owned, target) => (⟨heap, .ref r, owned⟩, target)
    else (s.heap[r]?).bind fun cell =>
      let copy := s.heap.length
      (copyBelow read (s.heap ++ [cell]) (copy :: s.owned) copy path).map fun (heap, owned, target) =>
        (⟨heap, .ref copy, owned⟩, target)

/-- `copyContainers` -/
def copyContainers (s : Replay) (path : Path) : Option Replay := (copyAlong Node.child? s path).map Prod.fst

/-- A plain walk over own properties: numbers at arrays, strings that are not reserved at objects. -/
def plainWalk (heap : Heap) : Val → Path → Option Val
  | v, [] => some v
  | .atom _, _ :: _ => none
  | .ref r, seg :: path =>
    (heap[r]?).bind fun n =>
      match n, seg with
      | .arr xs, .index i => (xs[i]?).bind fun v => plainWalk heap v path
      | .obj m, .key k => if reservedSegments.contains k then none else (Assoc.get? m k).bind fun v => plainWalk heap v path
      | _, _ => none

/-- The array at the end of a plain walk, if it is not a copy of this replay and ends at `index`. -/
def appendTarget (s : Replay) (path : Path) (index : Nat) : Option (List Val) :=
  (plainWalk s.heap s.root path).bind fun
    | .atom _ => none
    | .ref r =>
      (s.heap[r]?).bind fun
        | .arr xs => if r ∉ s.owned ∧ index = xs.length then some xs else none
        | .obj _ => none

/-- `appendCopy`, where it does not return `undefined`. -/
def appendCopy (s : Replay) (path : Path) (xs : List Val) (items : List Json) : Option Replay :=
  let (heap, vs) := allocArr s.heap items
  let appended := heap.length
  let s : Replay := ⟨heap ++ [.arr (xs ++ vs)], s.root, appended :: s.owned⟩
  match path.getLast? with
  | none => some { s with root := .ref appended }
  | some key =>
    (copyContainers s path.dropLast).bind fun s =>
      (resolve s.heap s.root path.dropLast).bind fun r =>
        (s.heap[r]?).map fun n => { s with heap := s.heap.set r (n.put key (.ref appended)) }

/-- The general path: the containers are copied, and the operation is applied in place. -/
def copyAndApply (s : Replay) (op : Op) : Option Replay :=
  (edit? op).bind fun (path, _) =>
    (copyContainers s path).bind fun s => (applyOp s.heap s.root op).map fun (heap, root) => { s with heap, root }

/-- One operation of `applyImmutableBatches`. -/
def replayOp (s : Replay) (op : Op) : Option Replay :=
  if op.isValid then
    match op with
    | .r value =>
      let (heap, v) := alloc s.heap value
      some { s with heap, root := v }
    | .p path index remove items =>
      match if remove = 0 then appendTarget s path index else none with
      | some xs => appendCopy s path xs items
      | none => copyAndApply s op
    | op => copyAndApply s op
  else none

/-- `applyImmutableBatches` -/
def applyImmutableBatches (heap : Heap) (root : Val) (batches : List (List Op)) : Option (Heap × Val) :=
  let start : Replay := ⟨heap, root, []⟩
  (batches.foldlM (fun s (ops : List Op) => ops.foldlM replayOp s) start).map fun s => (s.heap, s.root)

/-- `applyImmutable` -/
def applyImmutable (heap : Heap) (root : Val) (ops : List Op) : Option (Heap × Val) := applyImmutableBatches heap root [ops]

/-! ## Trusted -/

/-- The element a segment names, at an array of this length: a string can be its decimal digits. -/
def elementAt (length : Nat) : Seg → Option Nat
  | .index i => some i
  | .key k => (List.range (length + 1)).find? fun i => decimal i = k

/-- `read`, of own properties; any other is no container and no string. -/
def Node.read {α : Type} : Node α → Seg → Option α
  | arr xs, seg => (elementAt xs.length seg).bind fun i => xs[i]?
  | obj m, seg => Assoc.get? m seg.name

/-- `defineData`; an array keeps to elements without holes. -/
def Node.define {α : Type} : Node α → Seg → α → Option (Node α)
  | arr xs, seg, a => (elementAt xs.length seg).bind fun i => if i ≤ xs.length then some (put (arr xs) (.index i) a) else none
  | obj m, seg, a => some (put (obj m) seg a)

/-- `Array.prototype.copyWithin`, of slots. -/
def copyWithin {β : Type} (slots : List β) (target start stop : Nat) : List β :=
  let target := min target slots.length
  let start := min start slots.length
  let count := min (min stop slots.length - start) (slots.length - target)
  slots.take target ++ (slots.drop start).take count ++ slots.drop (target + count)

/-- `defineData`, of a slot of an array. -/
def setSlot {α : Type} (slots : List (Option α)) (i : Nat) (a : α) : List (Option α) :=
  if i < slots.length then slots.set i (some a)
  else slots ++ List.replicate (i - slots.length) none ++ [some a]

/-- The items are written from `start` on. -/
def setSlots {α : Type} : List (Option α) → Nat → List α → List (Option α)
  | slots, _, [] => slots
  | slots, start, a :: items => setSlots (setSlot slots start a) (start + 1) items

/-- `spliceTrusted`: the array is made longer or shorter, and what follows is moved. A slot is `none` where the array
    has a hole. -/
def spliceTrusted {α : Type} (xs : List α) (start remove : Nat) (items : List α) : Option (List α) :=
  let slots := xs.map some
  let moved :=
    if remove < items.length then
      let longer := slots ++ List.replicate (items.length - remove) none
      some (copyWithin longer (start + items.length) (start + remove) slots.length)
    else if items.length < remove then
      -- a length below zero is a `RangeError`
      if slots.length < remove - items.length then none
      else some ((copyWithin slots (start + items.length) (start + remove) slots.length).take
        (slots.length - (remove - items.length)))
    else some slots
  moved.bind fun slots => (setSlots slots start items).mapM fun slot => slot

/-- `permuteTrusted` -/
def permuteTrusted {α : Type} (xs : List α) (permutation : List Nat) : Option (List α) :=
  if xs.length = permutation.length then permutation.mapM fun i => xs[i]? else none

/-- What `applyImmutableTrusted` does to the container. -/
def Edit.runTrusted {α : Type} [Strings α] : Edit α → Node α → Option (Node α)
  | assign key value, n => n.define key value
  | delete key, .arr xs =>
    match key with
    | .index i => (spliceTrusted xs i 1 []).map .arr
    | .key _ => none
  | delete key, .obj m => some (.obj (Assoc.erase m key.name))
  | append key suffix, n => ((n.read key).bind Strings.text?).bind fun cs => n.define key (Strings.ofText (cs ++ suffix))
  | trim key count, n => ((n.read key).bind Strings.text?).bind fun cs => n.define key (Strings.ofText (cs.drop count))
  | splice index remove items, .arr xs => (spliceTrusted xs index remove items).map .arr
  | splice _ _ _, .obj _ => none
  | reorder permutation, .arr xs => (permuteTrusted xs permutation).map .arr
  | reorder _, .obj _ => none

/-- `copyPath` -/
def copyPath (s : Replay) (path : Path) : Option (Replay × Nat) := copyAlong Node.read s path

/-- One operation of `applyImmutableTrusted`. -/
def trustedOp (s : Replay) (op : Op) : Option Replay :=
  match op with
  | .r value =>
    let (heap, v) := alloc s.heap value
    some { s with heap, root := v }
  | op =>
    (edit? op).bind fun (path, edit) =>
      (copyPath s path).bind fun (s, target) =>
        let (grown, edit) := allocEdit s.heap edit
        (s.heap[target]?).bind fun n => (edit.runTrusted n).map fun n => { s with heap := grown.set target n }

/-- `applyImmutableTrusted` -/
def applyImmutableTrusted (heap : Heap) (root : Val) (ops : List Op) : Option (Heap × Val) :=
  let start : Replay := ⟨heap, root, []⟩
  (ops.foldlM trustedOp start).map fun s => (s.heap, s.root)

end PiBridge.Chord.Objects
