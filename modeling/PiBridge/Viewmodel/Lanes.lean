import PiBridge.Viewmodel.Tree

/-!
# `Viewmodel.Lanes` — the lane layout

The nodes of a history tree in one row each, by their age, and on lanes. A root begins a lane; the primary child of a node
goes on with its lane, and every other child has one reserved for it when the node is placed. A lane is free again once the
last node of its primary chain is placed.
-/

namespace PiBridge.Viewmodel

open Lib

/-! ## Layouts -/

structure PlacedNode where
  node : HistoryNode
  lane : Nat
  row : Nat
  isOnActivePath : Bool

/-- One connected vertical run on a lane. -/
structure Lineage where
  lane : Nat
  startRow : Rat
  endRow : Nat

/-- A secondary child branching off. -/
structure Fork where
  fromRow : Nat
  fromLane : Nat
  toRow : Rat
  toLane : Nat

structure LaneLayout where
  nodes : List PlacedNode
  lineages : List Lineage
  forks : List Fork
  laneCount : Nat
  rowCount : Nat

/-! ## The tree by rows -/

/-- A node and all below it. -/
def collect : HistoryNode → List HistoryNode
  | .node turn children supersededTurns => .node turn children supersededTurns :: all children
where
  all : List HistoryNode → List HistoryNode
    | [] => []
    | first :: rest => collect first ++ all rest

/-- The parents of a node and of all below it. -/
def dfsParent (parent : Option EntryId) : HistoryNode → Assoc EntryId (Option EntryId)
  | .node turn children _ => (turn.id, parent) :: all turn.id children
where
  all (parent : EntryId) : List HistoryNode → Assoc EntryId (Option EntryId)
    | [] => []
    | first :: rest => dfsParent (some parent) first ++ all parent rest

/-- `parentOf.get(id) ?? null` -/
def parentOf (roots : Forest) (id : EntryId) : Option EntryId := (Assoc.get? (roots.flatMap (dfsParent none)) id).getD none

section

variable (activePath : List EntryId)

/-- The child on the active path, or the newest one. -/
def primaryChildOf (children : List HistoryNode) : Option EntryId :=
  ((children.find? fun child => activePath.contains child.id).or children.getLast?).map HistoryNode.id

/-- The row of the last primary descendant. -/
def primaryChainLastRow (rowOf : EntryId → Nat) : HistoryNode → Nat
  | .node turn children _ =>
    match primaryChildOf activePath children with
    | none => rowOf turn.id
    | some primary => (Assoc.get? (all children) primary).getD 0
where
  all : List HistoryNode → Assoc EntryId Nat
    | [] => []
    | first :: rest => (first.id, primaryChainLastRow rowOf first) :: all rest

/-! ## The rows -/

/-- What the loop over the rows keeps. A lane that is active is occupied by its lineage. -/
structure Layout where
  nodes : List PlacedNode := []
  lineages : List Lineage := []
  forks : List Fork := []
  nodeLane : Assoc EntryId Nat := []
  childLane : Assoc EntryId Nat := []
  activeLanes : List Lineage := []

namespace Layout

/-- `activeLanes.has(lane)` -/
def has (activeLanes : List Lineage) (lane : Nat) : Bool := activeLanes.any fun lineage => lineage.lane = lane

/-- The leftmost free lane from one on, as far as the fuel goes. -/
def freeLaneFrom (activeLanes : List Lineage) : Nat → Nat → Nat
  | 0, lane => lane
  | fuel + 1, lane => if has activeLanes lane then freeLaneFrom activeLanes fuel (lane + 1) else lane

/-- There are more lanes than are active. -/
def leftmostFreeLaneFrom (layout : Layout) (lane : Nat) : Nat :=
  freeLaneFrom layout.activeLanes (layout.activeLanes.foldr (fun lineage lanes => max (lineage.lane + 1) lanes) 0) lane

/-- Begin a lineage on its lane. -/
def begin (layout : Layout) (lineage : Lineage) : Layout :=
  { layout with
    lineages := layout.lineages ++ [lineage]
    activeLanes := layout.activeLanes.filter (fun other => other.lane ≠ lineage.lane) ++ [lineage] }

section

variable (lastRow : HistoryNode → Nat)

/-- Reserve a lane for a secondary child, above the lane of the branch point. -/
def reserve (row lane : Nat) (primary : Option EntryId) (layout : Layout) (child : HistoryNode) : Layout :=
  if some child.id = primary then layout
  else
    let childLaneVal := layout.leftmostFreeLaneFrom (lane + 1)
    begin
      { layout with
        childLane := layout.childLane.set child.id childLaneVal
        forks := layout.forks ++ [⟨row, lane, row + 1 / 2, childLaneVal⟩] }
      ⟨childLaneVal, row + 1 / 2, lastRow child⟩

/-- The lane of a node, which a root begins. -/
def arrive (parentOf : EntryId → Option EntryId) (row : Nat) (node : HistoryNode) (layout : Layout) : Layout × Nat :=
  match parentOf node.id with
  | none =>
    let lane := layout.leftmostFreeLaneFrom 0
    (layout.begin ⟨lane, row, lastRow node⟩, lane)
  | some parent =>
    match layout.childLane.get? node.id with
    -- Pre-reserved secondary child.
    | some lane => (layout, lane)
    -- Primary child: inherit the parent's lane.
    | none => (layout, (layout.nodeLane.get? parent).getD 0)

/-- Free the lanes whose primary chain has ended. -/
def free (row : Nat) (layout : Layout) : Layout :=
  { layout with activeLanes := layout.activeLanes.filter fun lineage => row < lineage.endRow }

/-- One row. -/
def place (parentOf : EntryId → Option EntryId) (layout : Layout) (item : HistoryNode × Nat) : Layout :=
  let arrived := layout.arrive lastRow parentOf item.2 item.1
  let placed := { arrived.1 with
    nodeLane := arrived.1.nodeLane.set item.1.id arrived.2
    nodes := arrived.1.nodes ++ [⟨item.1, arrived.2, item.2, activePath.contains item.1.id⟩] }
  free item.2 (item.1.children.reverse.foldl (reserve lastRow item.2 arrived.2 (primaryChildOf activePath item.1.children)) placed)

end

end Layout

/-- The nodes of the tree, by timestamp and id. -/
def byRow (collation : Collation) (roots : Forest) : List HistoryNode :=
  (roots.flatMap collect).mergeSort fun a b => (byTs collation a.stamp b.stamp).isLE

def rowIn (all : List HistoryNode) (id : EntryId) : Nat := all.findIdx fun node => node.id = id

def computeLaneLayout (collation : Collation) (tree : HistoryTree) : LaneLayout :=
  let all := byRow collation tree.roots
  let layout := all.zipIdx.foldl
    (Layout.place activePath (primaryChainLastRow activePath (rowIn all)) (parentOf tree.roots)) {}
  { nodes := layout.nodes
    lineages := layout.lineages
    forks := layout.forks
    laneCount := layout.nodeLane.foldl (fun laneCount item => max laneCount (item.2 + 1)) 0
    rowCount := all.length }

end

end PiBridge.Viewmodel
