import PiBridge.Core.Types
import PiBridge.Session.File

/-!
# `Viewmodel.Tree` — the history tree

The user messages of a document as a tree (`computeHistoryTree`): the parent of a message is its nearest ancestor that is a
user message. `collapseSuperseded` folds runs of sibling messages that lead nowhere into the sibling after them.

`Forest.At` is the parent relation of a forest, and `HistoryTree` a forest with distinct ids in which a dead end has no
children.
-/

namespace PiBridge.Viewmodel

open Chord

/-! ## Trees -/

/-- What a node shows. -/
structure Turn where
  id : EntryId
  text : Text
  timestamp : String
  /-- No user message is anywhere below. -/
  deadEnd : Bool
  label : Option String

/-- A user message, with its children and the turns folded into it. -/
inductive HistoryNode
  | node (turn : Turn) (children supersededTurns : List HistoryNode)

namespace HistoryNode

def turn : HistoryNode → Turn
  | node turn _ _ => turn

def children : HistoryNode → List HistoryNode
  | node _ children _ => children

def supersededTurns : HistoryNode → List HistoryNode
  | node _ _ supersededTurns => supersededTurns

def id (node : HistoryNode) : EntryId := node.turn.id

def deadEnd (node : HistoryNode) : Bool := node.turn.deadEnd

/-- What a node is sorted by. -/
def stamp (node : HistoryNode) : String × EntryId := (node.turn.timestamp, node.turn.id)

/-- The ids of a node, of the turns folded into it and of all below it. -/
def ids : HistoryNode → List EntryId
  | node turn children supersededTurns => turn.id :: (all supersededTurns ++ all children)
where
  all : List HistoryNode → List EntryId
    | [] => []
    | first :: rest => ids first ++ all rest

@[elab_as_elim, induction_eliminator]
theorem induct {P : HistoryNode → Prop}
    (node : ∀ turn kids sup, (∀ ch ∈ kids, P ch) → (∀ turn ∈ sup, P turn) → P (node turn kids sup)) (root : HistoryNode) : P root :=
  match root with
  | .node turn kids sup => node turn kids sup (all kids) (all sup)
where
  all (nodes : List HistoryNode) : ∀ child ∈ nodes, P child := match nodes with
    | [] => nofun
    | first :: rest => fun child h => (List.mem_cons.mp h).elim (fun heq => heq ▸ induct node first) (all rest child)

end HistoryNode

/-- Sibling nodes. -/
abbrev Forest := List HistoryNode

namespace Forest

def ids (forest : Forest) : List EntryId := HistoryNode.ids.all forest

/-- A node of a forest, with the id of its parent. -/
inductive At (forest : Forest) : Option EntryId → HistoryNode → Prop
  | root {node : HistoryNode} : node ∈ forest → At forest none node
  | child {parent : Option EntryId} {node child : HistoryNode} : At forest parent node → child ∈ node.children → At forest (some node.id) child

end Forest

/-- The history tree of a document. -/
@[ext]
structure HistoryTree where
  roots : Forest
  ids_nodup : roots.ids.Nodup
  deadEnds : ∀ parent node, roots.At parent node → node.deadEnd = true → node.children = []

/-! ## The tree of a document -/

/-- `localeCompare`, which orders the strings; different strings may be equal to it. -/
structure Collation where
  localeCompare : String → String → Ordering
  trans : Std.TransCmp localeCompare

section

variable (collation : Collation)

/-- Timestamp, then id. -/
def byTs : String × EntryId → String × EntryId → Ordering :=
  compareLex (fun a b => collation.localeCompare a.1 b.1) fun a b => collation.localeCompare a.2 b.2

end

/-! ## The superseded turns -/

section

variable (keepVisible : List EntryId)

/-- A structural dead end that is not kept visible. -/
def superseded (node : HistoryNode) : Bool := node.deadEnd && !keepVisible.contains node.id

/-- `{ ...node, supersededTurns: [...node.supersededTurns, ...run] }` -/
def HistoryNode.supersedes : HistoryNode → List HistoryNode → HistoryNode
  | node turn children supersededTurns, run => node turn children (supersededTurns ++ run)

/-- What the loop over the siblings keeps: the nodes that stay, and the dead ends that await a node to attach to. -/
structure Collapsing where
  result : Forest := []
  run : List HistoryNode := []

def Collapsing.step (collapsing : Collapsing) (sibling : HistoryNode) : Collapsing :=
  if superseded keepVisible sibling then { collapsing with run := collapsing.run ++ [sibling] }
  else if collapsing.run ≠ [] then ⟨collapsing.result ++ [sibling.supersedes collapsing.run], []⟩
  else { collapsing with result := collapsing.result ++ [sibling] }

/-- A trailing run promotes its last member. -/
def Collapsing.finish (collapsing : Collapsing) : Forest :=
  match collapsing.run.getLast? with
  | none => collapsing.result
  | some last => collapsing.result ++ [last.supersedes collapsing.run.dropLast]

/-- Collapse one sibling list. -/
def collapseSiblings (siblings : Forest) : Forest := (siblings.foldl (Collapsing.step keepVisible) {}).finish

def collapseNode : HistoryNode → HistoryNode
  | .node turn children supersededTurns => .node turn (collapseSiblings keepVisible (all children)) supersededTurns
where
  all : List HistoryNode → List HistoryNode
    | [] => []
    | first :: rest => collapseNode first :: all rest

def collapseForest (roots : Forest) : Forest := collapseSiblings keepVisible (collapseNode.all keepVisible roots)

end

end PiBridge.Viewmodel
