import PiBridge.Durable.Records
import PiBridge.Lib.Assoc
import PiBridge.Lib.Forest
import PiBridge.Lib.OrderedSet

/-!
# `Durable.Ownership` — the ownership tree a task scheduler keeps in memory

Tasks and conversations form one tree: a task hangs from its owner task, or from its conversation, and a conversation
from its owner task, if it has one. The scheduler knows the part of it around live work. `live` mirrors the committed
records that are not terminal; an ended task (`settled`) and the owner of a conversation (`edges`) are known while
something hangs below them, and are loaded from Storage when work appears below them again. `below` lists the tree
downward, and is kept up to date node by node (`relist`).

Every change of the memory comes from a published commit (`observe`), from the load of an owner chain (`loadNext`), or
from the sweep of what is no longer needed. The sets `runnable`, `sleeping`, `finalizeChecks` and `failFastChecks` hold
the candidates of the passes to come. What only says when a pass is scheduled is left out, with the kept contexts, the
idle waits and the roots they read, the metrics and the queued submissions.
-/

namespace PiBridge.Durable

open Lib

variable {V : Type}

/-! ## Task records -/

inductive OutcomeStatus where
  | completed
  | failed
  | aborted
  | orphaned
  | faulted
deriving DecidableEq

/-- Durable reason and result recorded when a task's outcome is decided. -/
structure TaskOutcome (V : Type) where
  status : OutcomeStatus
  rest : V
deriving DecidableEq

inductive JoinPolicy where
  | failFast
  | allSettled
deriving DecidableEq

/-- Complete durable execution state of a task. -/
inductive TaskState (V : Type) where
  | pending (checkpoint : V)
  | running (checkpoint : V)
  | waiting (checkpoint : V) (on : List TaskId) (policy : JoinPolicy)
  | sleeping (checkpoint : V) (wakeAt : Nat)
  | completing (outcome : TaskOutcome V)
  | terminal (outcome : TaskOutcome V)
deriving DecidableEq

/-- The immutable ownership fields of a task. -/
structure TaskNode where
  conversationId : ConversationId
  /-- Owning task of a child task; absent for a task its conversation owns. -/
  owner : Option TaskId
  background : Bool

/-- Why a mark was set when not by an abort request. -/
inductive AbortReason where
  | restart
deriving DecidableEq

/-- The record of a task. -/
structure AnyTaskRecord (V : Type) extends TaskNode where
  id : TaskId
  abortRequested : Bool
  abortReason : Option AbortReason
  restarts : Option Nat
  memos : Assoc String V
  state : TaskState V
  /-- Its kind, version and input, and the times the Session stamps. -/
  rest : V

def TaskState.isTerminal : TaskState V → Bool
  | .terminal _ => true
  | _ => false

def TaskState.isCompleting : TaskState V → Bool
  | .completing _ => true
  | _ => false

def TaskState.isSleeping : TaskState V → Bool
  | .sleeping _ _ => true
  | _ => false

/-- The outcome a state holds or ends with. -/
def TaskState.outcome? : TaskState V → Option (TaskOutcome V)
  | .completing outcome | .terminal outcome => some outcome
  | _ => none

/-- A record that is not terminal. -/
def AnyTaskRecord.isLive (record : AnyTaskRecord V) : Bool := !record.state.isTerminal

/-- Whether the record holds or ends with an outcome other than `completed`. -/
def failedOutcome (record : AnyTaskRecord V) : Bool := record.state.outcome?.any fun outcome => outcome.status ≠ .completed

/-- A live owner's durable cancellation intent: its abort mark, or a held outcome other than `completed`. -/
def cancellationIntent (record : AnyTaskRecord V) : Bool := record.isLive && (record.abortRequested || failedOutcome record)

/-- Whether replacing `previous` (absent: a new task) with `next` changes the cancellation intent set or what it means: a
    mark set, upgraded, or cleared, or a held or ended outcome other than `completed`. -/
def intentChanges (previous : Option (AnyTaskRecord V)) (next : AnyTaskRecord V) : Bool :=
  (previous.elim false (·.abortRequested)) ≠ next.abortRequested ||
    previous.bind (·.abortReason) ≠ next.abortReason ||
    (previous.elim false failedOutcome) ≠ failedOutcome next ||
    (previous.elim false cancellationIntent) ≠ cancellationIntent next

/-- The record with an abort mark: `restart` for an abandonment; without a reason, a request, which replaces `restart`.
    The restart count starts over. -/
def withAbortMark (record : AnyTaskRecord V) (reason : Option AbortReason) : AnyTaskRecord V :=
  { record with abortReason := reason, restarts := none, abortRequested := true }

/-- Replace a live record's state; memos and the restart count disappear once an outcome is decided. -/
def withState (record : AnyTaskRecord V) (state : TaskState V) : AnyTaskRecord V :=
  match state.outcome? with
  | none => { record with state }
  | some _ => { record with state, memos := [], restarts := none }

/-! ## Nodes -/

/-- A node of the ownership tree. -/
inductive Node where
  | task (id : TaskId)
  | conversation (id : ConversationId)
deriving DecidableEq

/-- Tasks and conversations share one numeric namespace. -/
def Node.id : Node → Nat
  | .task id | .conversation id => id

/-- The node a task hangs from: its owner task, or its conversation. -/
def parentNode (node : TaskNode) : Node := node.owner.elim (.conversation node.conversationId) .task

/-- The task and conversation records of Storage, of a conversation its owner task. -/
structure Tables (V : Type) where
  conversations : Assoc ConversationId (Option TaskId)
  tasks : Assoc TaskId (AnyTaskRecord V)

/-- The tasks and conversations a commit writes, in order. -/
structure Commit (V : Type) where
  conversations : Assoc ConversationId (Option TaskId)
  tasks : List (AnyTaskRecord V)

/-- The records after a commit. -/
def Tables.apply (tables : Tables V) (commit : Commit V) : Tables V where
  conversations := commit.conversations.foldl (fun conversations c => Assoc.set conversations c.1 c.2) tables.conversations
  tasks := commit.tasks.foldl (fun tasks record => Assoc.set tasks record.id record) tables.tasks

/-- Candidate records a commit staged; they override committed records in ownership walks. -/
structure Overlay (V : Type) where
  tasks : Assoc TaskId (AnyTaskRecord V)
  edges : Assoc ConversationId (Option TaskId)

/-- No candidates. -/
def Overlay.none : Overlay V := ⟨[], []⟩

/-! ## The memory -/

structure TaskScheduler (V : Type) where
  /-- Every committed non-terminal task record. -/
  live : Assoc TaskId (AnyTaskRecord V)
  /-- Ownership fields of the known terminal tasks, which walks pass through. -/
  settled : TaskId → Option TaskNode
  /-- Owner task of each known conversation, `some none` when ownerless. -/
  edges : ConversationId → Option (Option TaskId)
  /-- Each node's child nodes that are live tasks or have nodes listed below them. -/
  below : Node → List Node
  /-- Known tasks whose chain may not be loaded. -/
  unloaded : List TaskId
  /-- Ended tasks and conversations found unneeded. -/
  dropQueue : List Node
  /-- Nodes chain loads installed for jobs whose commits are not published yet, with how many such jobs. -/
  pins : Node → Nat
  /-- Live tasks with cancellation intent. -/
  intent : List TaskId
  /-- Live tasks that are not `completing`, the candidates of a reservation pass. -/
  runnable : List TaskId
  /-- Sleeping live tasks. -/
  sleeping : List TaskId
  /-- `completing` tasks the next finalize pass checks. -/
  finalizeChecks : List TaskId
  /-- Live waiting tasks by each task in their `on`. -/
  waiters : TaskId → List TaskId
  /-- `failFast` waiters the next reconcile checks. -/
  failFastChecks : List TaskId

namespace TaskScheduler

/-- The memory before anything was published. -/
def empty : TaskScheduler V where
  live := []
  settled := fun _ => none
  edges := fun _ => none
  below := fun _ => []
  unloaded := []
  dropQueue := []
  pins := fun _ => 0
  intent := []
  runnable := []
  sleeping := []
  finalizeChecks := []
  waiters := fun _ => []
  failFastChecks := []

variable (s : TaskScheduler V)

def task? (id : TaskId) : Option (AnyTaskRecord V) := Assoc.get? s.live id

/-- The ownership fields of a known task, in the overlay's view. -/
def node? (overlay : Overlay V) (id : TaskId) : Option TaskNode :=
  (((Assoc.get? overlay.tasks id).or (s.task? id)).map (·.toTaskNode)).or (s.settled id)

/-- Owner task of a conversation, `some none` when ownerless, `none` while not loaded. -/
def edge (overlay : Overlay V) (id : ConversationId) : Option (Option TaskId) := (Assoc.get? overlay.edges id).or (s.edges id)

/-- What a node hangs from: `none` while not known, `some none` at a root. -/
def parent? (overlay : Overlay V) : Node → Option (Option Node)
  | .task id => (s.node? overlay id).map fun node => some (parentNode node)
  | .conversation id => (s.edge overlay id).map fun owner => owner.map .task

def isLiveNode : Node → Bool
  | .task id => (s.task? id).isSome
  | .conversation _ => false

/-- A live task, or a node with something listed below it. -/
def needed (node : Node) : Bool := s.isLiveNode node || !(s.below node).isEmpty

/-! ## Listing -/

/-- Queue an ended task or a conversation for the sweep when nothing is listed below it. -/
def dropIfUnneeded (node : Node) : TaskScheduler V := if s.needed node then s else { s with dropQueue := OrderedSet.add s.dropQueue node }

/-- List `node` under `parent`, or unlist it. -/
def setListed (parent node : Node) (listed : Bool) : TaskScheduler V :=
  { s with below := Function.update s.below parent (OrderedSet.toggle (s.below parent) node listed) }

/-- List `node` under its parent node while it is a live task or has nodes listed below it, and unlist it otherwise; then
    its parent, as far up as that changes. A parent that loses its last listed node is queued for the sweep. -/
def relist : Nat → Node → TaskScheduler V → TaskScheduler V
  | 0, _, s => s
  | fuel + 1, node, s =>
    match s.parent? .none node with
    | some (some parent) =>
      if decide (node ∈ s.below parent) = s.needed node then s
      else if s.needed node then
        let listed := s.setListed parent node true
        if (s.below parent).isEmpty then relist fuel parent listed else listed
      else
        let unlisted := s.setListed parent node false
        if (unlisted.below parent).isEmpty then relist fuel parent (unlisted.dropIfUnneeded parent) else unlisted
    -- A root, or a node whose parent is not known.
    | _ => s

/-- `relist`, with fuel for the whole way up: a parent's identity is smaller than its child's. -/
def relistFrom (node : Node) : TaskScheduler V := relist (node.id + 1) node s

def setEdge (id : ConversationId) (owner : Option TaskId) : TaskScheduler V :=
  (({ s with edges := Function.update s.edges id (some owner) } : TaskScheduler V).relistFrom (.conversation id)).dropIfUnneeded
    (.conversation id)

/-! ## Walks up -/

/-- One step of a walk up: an owner task with its node, a conversation, or an owner edge that is not loaded yet. -/
inductive UpStep where
  | task (id : TaskId) (node : TaskNode)
  | conversation (id : ConversationId)
  | unknown

/-- Walk up from a node: owner tasks and conversations, ending at an ownerless root or an edge not loaded yet. -/
def above (overlay : Overlay V) : Nat → Node → List UpStep
  | 0, _ => []
  | fuel + 1, .task id =>
    match s.node? overlay id with
    | none => [.unknown]
    | some node => .task id node :: above overlay fuel (parentNode node)
  | fuel + 1, .conversation id =>
    .conversation id ::
      match s.edge overlay id with
      | none => [.unknown]
      | some none => []
      | some (some owner) => above overlay fuel (.task owner)

/-- `above`, with fuel for the whole way. -/
def stepsAbove (overlay : Overlay V) (start : Node) : List UpStep := s.above overlay (start.id + 1) start

/-- Whether the chain above a node is loaded: known tasks outside `unloaded` have a loaded chain. -/
def known : Node → Bool
  | .task id => (s.node? .none id).isSome && !decide (id ∈ s.unloaded)
  | .conversation id =>
    match s.edges id with
    | none => false
    | some none => true
    | some (some owner) => (s.node? .none owner).isSome && !decide (owner ∈ s.unloaded)

/-- The nearest live task above ended ordinary work, in the overlay's view: the one that work held, if any. Work at or
    below a background task holds nothing above it. -/
def nearestLiveAbove (overlay : Overlay V) : Nat → TaskNode → Option (AnyTaskRecord V)
  | 0, _ => none
  | fuel + 1, node =>
    if node.background then none
    else
      match node.owner.elim (s.edge overlay node.conversationId) fun owner => some (some owner) with
      | some (some owner) =>
        match (Assoc.get? overlay.tasks owner).or (s.task? owner) with
        | some record => if record.isLive then some record else nearestLiveAbove overlay fuel record.toTaskNode
        | none =>
          match s.settled owner with
          | some above => nearestLiveAbove overlay fuel above
          | none => none
      | _ => none

/-- The nearest owner on a walk up whose cancellation intent reaches its start, before a background owner without it. -/
def firstCancelling : List UpStep → Option (AnyTaskRecord V)
  | .task id node :: rest =>
    match (s.task? id).filter cancellationIntent with
    | some record => some record
    | none => if node.background then none else firstCancelling rest
  | .conversation _ :: rest => firstCancelling rest
  | _ => none

/-- The nearest live owner at or above `start` whose cancellation intent reaches what hangs from it, if any. -/
def cancellingOwner (start : Node) : Option (AnyTaskRecord V) :=
  -- Nothing cancels, the common case: no walk.
  if s.intent.isEmpty then none else s.firstCancelling (s.stepsAbove .none start)

def belowCancelled (start : Node) : Bool := (s.cancellingOwner start).isSome

/-! ## Publications -/

/-- The nearest live task above ended ordinary work may be free now: one holding its outcome, or an aborting one. -/
def release (node : TaskNode) : TaskScheduler V :=
  match s.nearestLiveAbove .none ((parentNode node).id + 1) node with
  | none => s
  | some above =>
    match above.state with
    | .completing _ => { s with finalizeChecks := OrderedSet.add s.finalizeChecks above.id }
    | _ => if above.abortRequested then { s with runnable := OrderedSet.add s.runnable above.id } else s

/-- Enter a task under each member of its wait, or take it out. -/
def setWaiters (state : TaskState V) (id : TaskId) (on : Bool) : TaskScheduler V :=
  match state with
  | .waiting _ members _ =>
    { s with
      waiters := members.foldl (fun waiters m => Function.update waiters m (OrderedSet.toggle (waiters m) id on)) s.waiters }
  | _ => s

/-- A task that ended. -/
def trackEnded (record : AnyTaskRecord V) : TaskScheduler V :=
  let id := record.id
  let ended := ({ s with
    live := Assoc.erase s.live id
    sleeping := OrderedSet.delete s.sleeping id
    intent := OrderedSet.delete s.intent id
    runnable := OrderedSet.delete s.runnable id
    finalizeChecks := OrderedSet.delete s.finalizeChecks id
    settled := Function.update s.settled id (some record.toTaskNode) } : TaskScheduler V).release record.toTaskNode
  let freed : TaskScheduler V := { ended with runnable := (ended.waiters id).foldl OrderedSet.add ended.runnable }
  (freed.relistFrom (.task id)).dropIfUnneeded (.task id)

/-- Store a live task's record; a new task (`previous` is absent) is listed where it hangs. -/
def place (previous : Option (AnyTaskRecord V)) (record : AnyTaskRecord V) : TaskScheduler V :=
  let stored : TaskScheduler V := { s with live := Assoc.set s.live record.id record }
  if previous.isNone then
    ({ stored with unloaded := if stored.known (parentNode record.toTaskNode) then stored.unloaded
        else OrderedSet.add stored.unloaded record.id } : TaskScheduler V).relistFrom (.task record.id)
  else stored

/-- A task that is live, new or changed. -/
def trackLive (previous : Option (AnyTaskRecord V)) (record : AnyTaskRecord V) : TaskScheduler V :=
  let id := record.id
  let placed := s.place previous record
  ({ placed with
    intent := OrderedSet.toggle placed.intent id (cancellationIntent record)
    runnable := OrderedSet.toggle placed.runnable id !record.state.isCompleting
    finalizeChecks := if record.state.isCompleting then OrderedSet.add placed.finalizeChecks id else placed.finalizeChecks
    sleeping := OrderedSet.toggle placed.sleeping id record.state.isSleeping } : TaskScheduler V).setWaiters record.state id true

/-- Bring the sets in line with a task's committed record. -/
def track (previous : Option (AnyTaskRecord V)) (record : AnyTaskRecord V) : TaskScheduler V :=
  let unwaited := previous.elim s fun previous => s.setWaiters previous.state record.id false
  if record.state.isTerminal then unwaited.trackEnded record else unwaited.trackLive previous record

/-- Whether a record waits `failFast`. -/
def waitsFailFast (record : AnyTaskRecord V) : Bool :=
  match record.state with
  | .waiting _ _ .failFast => true
  | _ => false

def isWaiting (record : AnyTaskRecord V) : Bool :=
  match record.state with
  | .waiting _ _ _ => true
  | _ => false

/-- One task of a publication. -/
def observeTask (record : AnyTaskRecord V) : TaskScheduler V :=
  let previous := s.task? record.id
  let tracked := s.track previous record
  if record.state.isTerminal then { tracked with failFastChecks := OrderedSet.delete tracked.failFastChecks record.id }
  else if waitsFailFast record && !previous.any isWaiting then
    { tracked with failFastChecks := OrderedSet.add tracked.failFastChecks record.id }
  else tracked

/-- The tasks of a publication whose outcome is newly another one than `completed`. -/
def newlyFailed : TaskScheduler V → List (AnyTaskRecord V) → List TaskId
  | _, [] => []
  | s, record :: rest =>
    let later := newlyFailed (s.observeTask record) rest
    if failedOutcome record && !(s.task? record.id).any failedOutcome then record.id :: later else later

/-- Have the next pass check the `failFast` waits on a task that failed. -/
def checkWaiters (failed : TaskId) : TaskScheduler V :=
  (s.waiters failed).foldl
    (fun s waiter => if (s.task? waiter).any waitsFailFast then { s with failFastChecks := OrderedSet.add s.failFastChecks waiter } else s)
    s

/-- Drop a queued node that is still unneeded: not live, nothing listed below, not pinned. -/
def sweepNode (node : Node) : TaskScheduler V :=
  if !(s.below node).isEmpty || s.pins node ≠ 0 then s
  else
    match node with
    | .conversation id => { s with edges := Function.update s.edges id none }
    | .task id =>
      if s.isLiveNode node then s
      else { s with settled := Function.update s.settled id none, unloaded := OrderedSet.delete s.unloaded id }

/-- Drop the queued nodes that are still unneeded. -/
def sweep : TaskScheduler V := { s.dropQueue.foldl sweepNode s with dropQueue := [] }

/-- What a published commit does to the memory. Edges first, so the tasks a commit creates in a new conversation hang
    from it. -/
def observe (commit : Commit V) : TaskScheduler V :=
  let linked := commit.conversations.foldl (fun s c => if (s.edges c.1).isNone then s.setEdge c.1 c.2 else s) s
  let tracked := commit.tasks.foldl observeTask linked
  ((linked.newlyFailed commit.tasks).foldl checkWaiters tracked).sweep

/-! ## Chain loads -/

/-- A chain load underway: the tasks passed, and where it goes on. -/
structure ChainLoad where
  passed : List TaskId
  next : Option Node

/-- Know a terminal task a chain load read, so walks pass through it; its own chain is not loaded yet. -/
def settle (id : TaskId) (node : TaskNode) : TaskScheduler V :=
  (({ s with
    settled := Function.update s.settled id (some node)
    unloaded := OrderedSet.add s.unloaded id } : TaskScheduler V).relistFrom (.task id)).dropIfUnneeded (.task id)

def pin (node : Node) : TaskScheduler V := { s with pins := Function.update s.pins node (s.pins node + 1) }

/-- The commit of a job that pinned a node is published or never will be. -/
def unpin (node : Node) : TaskScheduler V :=
  let unpinned : TaskScheduler V := { s with pins := Function.update s.pins node (s.pins node - 1) }
  if s.pins node ≤ 1 then unpinned.dropIfUnneeded node else unpinned

/-- One turn of a chain load, which reads Storage for a node that is not known; with the node it installs, if any. A
    known task outside `unloaded` ends the walk, as its chain is loaded. -/
def loadNext (tables : Tables V) (overlay : Overlay V) (load : ChainLoad) : TaskScheduler V × ChainLoad × Option Node :=
  match load.next with
  | none => (s, load, none)
  | some (.task id) =>
    match s.node? .none id with
    | some node =>
      if id ∈ s.unloaded then (s, ⟨load.passed ++ [id], some (parentNode node)⟩, none) else (s, { load with next := none }, none)
    | none =>
      -- Created in this commit: the load from its own record covers what is above it.
      if (Assoc.get? overlay.tasks id).isSome then (s, { load with next := none }, none)
      else
        match Assoc.get? tables.tasks id with
        -- The walk stops, and nothing it passed counts as loaded.
        | none => (s, ⟨[], none⟩, none)
        | some record =>
          let load := ⟨load.passed ++ [id], some (parentNode record.toTaskNode)⟩
          if record.isLive then (s, load, none) else ((s.settle id record.toTaskNode).pin (.task id), load, some (.task id))
  | some (.conversation id) =>
    match s.edge overlay id with
    | some owner => (s, { load with next := owner.map .task }, none)
    | none =>
      -- A missing record is one without an owner.
      let owner := (Assoc.get? tables.conversations id).join
      ((s.setEdge id owner).pin (.conversation id), { load with next := owner.map .task }, some (.conversation id))

/-- The chains of the tasks passed are loaded. -/
def loaded (passed : List TaskId) : TaskScheduler V := { s with unloaded := passed.foldl OrderedSet.delete s.unloaded }

/-! ## Walks down -/

/-- Add links up from a new task, each node under its parent node, until one that `below` lists, a live task, or the
    chain's end. -/
def linkUp (overlay : Overlay V) : Nat → Node → Option Node → Assoc Node (List Node) → Assoc Node (List Node)
  | fuel + 1, child, some parent, links =>
    let children := (Assoc.get? links parent).getD []
    if child ∈ children then links
    else
      let links := Assoc.set links parent (children ++ [child])
      let stop := match parent with
        | .task id => (s.task? id).isSome || (Assoc.get? overlay.tasks id).isSome
        | .conversation _ => false
      if stop then links
      else
        let above := match parent with
          | .conversation id => ((s.edge overlay id).join).map Node.task
          | .task id => (s.settled id).map parentNode
        if above.any fun above => decide (parent ∈ s.below above) then links else linkUp overlay fuel parent above links
  | _, _, _, links => links

/-- The links walks down need for the commit's new tasks. -/
def links (overlay : Overlay V) : Assoc Node (List Node) :=
  overlay.tasks.foldl
    (fun links task =>
      if (s.task? task.1).isSome || (s.settled task.1).isSome then links
      else s.linkUp overlay (task.1 + 1) (.task task.1) (some (parentNode task.2.toTaskNode)) links)
    []

/-- A task a walk down reaches, with its record while it is live. -/
structure Visit (V : Type) where
  id : TaskId
  node : TaskNode
  live : Option (AnyTaskRecord V)

/-- The child nodes of a walk down: those `below` lists and the commit's new tasks. -/
def children (links : Assoc Node (List Node)) (node : Node) : List Node := s.below node ++ (Assoc.get? links node).getD []

/-- Whether a walk down goes on below a child. Background tasks are reached but not entered, unless `crossBackground`, and
    neither are the tasks `enter` rejects. -/
def enters (overlay : Overlay V) (crossBackground : Bool) (enter : TaskId → Bool) : Node → Bool
  | .conversation _ => true
  | .task id => (s.node? overlay id).any fun node => (crossBackground || !node.background) && enter id

def visit (overlay : Overlay V) : Node → Option (Visit V)
  | .conversation _ => none
  | .task id => (s.node? overlay id).map fun node => ⟨id, node, ((Assoc.get? overlay.tasks id).or (s.task? id)).filter (·.isLive)⟩

/-- No walk down is deeper: what is listed has a live task or a candidate below it, and identities grow downward. -/
def depth (overlay : Overlay V) : Nat := (s.live.map Prod.fst ++ overlay.tasks.map Prod.fst).foldr max 0 + 1

/-- The nodes a walk down expands, in order. -/
def expanded (overlay : Overlay V) (crossBackground : Bool) (enter : TaskId → Bool) (start : Node) : List Node :=
  walk (s.children (s.links overlay)) (s.enters overlay crossBackground enter) (s.depth overlay) start

/-- The tasks below `start` that a walk down reaches, with the commit's candidates in place of committed records. -/
def walkDown (overlay : Overlay V) (crossBackground : Bool) (enter : TaskId → Bool) (start : Node) : List (Visit V) :=
  (s.expanded overlay crossBackground enter start).flatMap fun node =>
    (s.children (s.links overlay) node).filterMap (s.visit overlay)

end TaskScheduler

end PiBridge.Durable
