import PiBridge.Viewmodel.Correctness.LaneRuns

/-!
# `Viewmodel.Correctness.Lanes` — the lane layout has no collisions

The nodes of a history tree, sorted by age, are the rows that the loop relies on if every node is younger than its parent
(`rows_byRow`). `lanes_do_not_collide` puts together what the loop keeps. The nodes of the active path are on one lane, as
each of them is the primary child of the one before: it is the only child on the path (`RootPath.primary`).
-/

namespace PiBridge.Viewmodel

open Lib Layout List

section

variable {roots : Forest}

/-! ## The nodes of a tree -/

theorem collect_all (ns : List HistoryNode) : collect.all ns = ns.flatMap collect := by
  induction ns with
  | nil => rfl
  | cons node ns ih => rw [flatMap_cons, ← ih]; rfl

variable {node : HistoryNode} {parent : Option EntryId}

theorem mem_collect {oth : HistoryNode} : oth ∈ collect node ↔ oth = node ∨ oth ∈ node.children.flatMap collect := by
  obtain ⟨turn, kids, sup⟩ := node
  have : collect (.node turn kids sup) = .node turn kids sup :: collect.all kids := rfl
  rw [this, mem_cons, collect_all]
  rfl

theorem mem_nodes_iff : node ∈ roots.flatMap collect ↔ ∃ parent, roots.At parent node := by
  constructor
  · intro h
    have hbel : ∀ (top : HistoryNode) (parent : Option EntryId), roots.At parent top → node ∈ collect top → ∃ parent, roots.At parent node := by
      intro top
      induction top with
      | node turn kids sup hkids _ =>
        intro parent hat hmem
        rcases mem_collect.1 hmem with rfl | hmem
        · exact ⟨parent, hat⟩
        · obtain ⟨child, hch, hmem⟩ := mem_flatMap.mp hmem
          exact hkids child hch _ (.child hat hch) hmem
    obtain ⟨root, hroot, hmem⟩ := mem_flatMap.mp h
    exact hbel root none (.root hroot) hmem
  · rintro ⟨parent, h⟩
    have habv : ∀ oth ∈ collect node, oth ∈ roots.flatMap collect := by
      induction h with
      | root hroot => exact fun oth hoth => mem_flatMap.mpr ⟨_, hroot, hoth⟩
      | child _ hch ih =>
        exact fun oth hoth => ih oth (mem_collect.2 (.inr (mem_flatMap.mpr ⟨_, hch, hoth⟩)))
    exact habv node (mem_collect.2 (.inl rfl))

theorem collect_ids (node : HistoryNode) : ((collect node).map HistoryNode.id).Sublist node.ids := by
  induction node with
  | node turn kids sup hkids _ =>
    have hall : ∀ ns : List HistoryNode, (∀ ch ∈ ns, ((collect ch).map HistoryNode.id).Sublist ch.ids) →
        ((collect.all ns).map HistoryNode.id).Sublist (Forest.ids ns) := by
      intro ns
      induction ns with
      | nil => exact fun _ => Sublist.refl _
      | cons fst rest ih =>
        intro h
        have hcollect : collect.all (fst :: rest) = collect fst ++ collect.all rest := rfl
        rw [hcollect, map_append]
        exact (h fst mem_cons_self).append (ih fun ch hch => h ch (mem_cons_of_mem _ hch))
    exact ((hall kids hkids).trans (sublist_append_right _ _)).cons_cons _

theorem nodes_ids (roots : Forest) : ((roots.flatMap collect).map HistoryNode.id).Sublist roots.ids := by
  induction roots with
  | nil => exact Sublist.refl _
  | cons root roots ih =>
    rw [flatMap_cons, map_append]
    exact (collect_ids root).append ih

/-! ## Parents -/

theorem keys_dfsParent (parent : Option EntryId) (node : HistoryNode) :
    (dfsParent parent node).map Prod.fst = (collect node).map HistoryNode.id := by
  induction node generalizing parent with
  | node turn kids sup hkids _ =>
    have hall : ∀ ns : List HistoryNode,
        (∀ ch ∈ ns, ∀ parent, (dfsParent parent ch).map Prod.fst = (collect ch).map HistoryNode.id) →
        (dfsParent.all turn.id ns).map Prod.fst = (collect.all ns).map HistoryNode.id := by
      intro ns
      induction ns with
      | nil => exact fun _ => rfl
      | cons first rest ih =>
        intro h
        have hparents : dfsParent.all turn.id (first :: rest) = dfsParent (some turn.id) first ++ dfsParent.all turn.id rest := rfl
        have hcollect : collect.all (first :: rest) = collect first ++ collect.all rest := rfl
        rw [hparents, hcollect, map_append, map_append, h first mem_cons_self, ih fun ch hch => h ch (mem_cons_of_mem _ hch)]
    exact congrArg (turn.id :: ·) (hall kids fun ch hch parent => hkids ch hch parent)

theorem mem_dfsParent_child {ch : HistoryNode} (h : ch ∈ node.children) : dfsParent (some node.id) ch ⊆ dfsParent parent node := by
  obtain ⟨turn, kids, sup⟩ := node
  refine Subset.trans ?_ (subset_cons_self _ _)
  have hall : ∀ ns : List HistoryNode, ch ∈ ns → dfsParent (some turn.id) ch ⊆ dfsParent.all turn.id ns := by
    intro ns
    induction ns with
    | nil => exact nofun
    | cons fst rest ih =>
      intro hmem
      rcases mem_cons.mp hmem with rfl | hmem
      · exact subset_append_left _ _
      · exact Subset.trans (ih hmem) (subset_append_right _ _)
  exact hall kids h

theorem parentOf_at (hids : roots.ids.Nodup) (h : roots.At parent node) : parentOf roots node.id = parent := by
  have hkeys : ((roots.flatMap (dfsParent none)).map Prod.fst).Nodup := by
    have heq : (roots.flatMap (dfsParent none)).map Prod.fst = (roots.flatMap collect).map HistoryNode.id := by
      rw [map_flatMap, map_flatMap]
      exact flatMap_congr fun root _ => keys_dfsParent none root
    rw [heq]
    exact (nodes_ids roots).nodup hids
  have hsub : dfsParent parent node ⊆ roots.flatMap (dfsParent none) := by
    induction h with
    | root hroot => exact fun item hitem => mem_flatMap.mpr ⟨_, hroot, hitem⟩
    | child _ hch ih => exact Subset.trans (mem_dfsParent_child hch) ih
  have hmem : (node.id, parent) ∈ roots.flatMap (dfsParent none) := by
    apply hsub
    obtain ⟨turn, kids, sup⟩ := node
    exact mem_cons_self
  rw [parentOf, Assoc.get?_of_mem hkeys hmem]
  rfl

/-- A node is one node, with one parent. -/
theorem at_unique (hids : roots.ids.Nodup) {parent' : Option EntryId} {node' : HistoryNode} (h : roots.At parent node)
    (h' : roots.At parent' node') (hid : node.id = node'.id) : node = node' ∧ parent = parent' := by
  refine ⟨?_, ?_⟩
  · exact inj_on_of_nodup_map ((nodes_ids roots).nodup hids) (mem_nodes_iff.2 ⟨parent, h⟩) (mem_nodes_iff.2 ⟨parent', h'⟩) hid
  · rw [← parentOf_at hids h, hid, parentOf_at hids h']

theorem sublist_collect (ns : List HistoryNode) : ns.Sublist (ns.flatMap collect) := by
  induction ns with
  | nil => exact Sublist.refl _
  | cons fst rest ih =>
    obtain ⟨turn, kids, sup⟩ := fst
    exact ((nil_sublist (collect.all kids)).append ih).cons_cons _

theorem ids_sublist {ns : List HistoryNode} (h : node ∈ ns) : node.ids.Sublist (Forest.ids ns) := by
  induction ns with
  | nil => cases h
  | cons fst rest ih =>
    rcases mem_cons.mp h with rfl | h
    · exact sublist_append_left _ _
    · exact (ih h).trans (sublist_append_right _ _)

theorem children_nodup (hids : roots.ids.Nodup) (h : node ∈ roots.flatMap collect) : (node.children.map HistoryNode.id).Nodup := by
  have hnode : ∀ (top : HistoryNode), top.ids.Nodup → node ∈ collect top → (node.children.map HistoryNode.id).Nodup := by
    intro top
    induction top with
    | node turn kids sup hkids _ =>
      intro htop hmem
      have hbel : (Forest.ids kids).Nodup := (nodup_append.mp (nodup_cons.mp htop).2).2.1
      rcases mem_collect.1 hmem with rfl | hmem
      · exact (((sublist_collect kids).map HistoryNode.id).trans (nodes_ids kids)).nodup hbel
      · obtain ⟨ch, hch, hmem⟩ := mem_flatMap.mp hmem
        exact hkids ch hch ((ids_sublist hch).nodup hbel) hmem
  obtain ⟨root, hroot, hmem⟩ := mem_flatMap.mp h
  exact hnode root ((ids_sublist hroot).nodup hids) hmem

/-! ## Primary chains -/

variable {activePath : List EntryId}

theorem mem_of_primaryChildOf {kids : List HistoryNode} {primary : EntryId} (h : primaryChildOf activePath kids = some primary) :
    ∃ ch ∈ kids, ch.id = primary := by
  obtain ⟨ch, hch, rfl⟩ := Option.map_eq_some_iff.mp h
  refine ⟨ch, ?_, rfl⟩
  rcases Option.or_eq_some_iff.mp hch with hfind | ⟨-, hlast⟩
  · exact mem_of_find?_eq_some hfind
  · exact mem_of_getLast? hlast

theorem primaryChainLastRow_all (rowOf : EntryId → Nat) (ns : List HistoryNode) :
    primaryChainLastRow.all activePath rowOf ns = ns.map fun node => (node.id, primaryChainLastRow activePath rowOf node) := by
  induction ns with
  | nil => rfl
  | cons node ns ih => rw [map_cons, ← ih]; rfl

theorem primaryChainLastRow_none {rowOf : EntryId → Nat} (h : primaryChildOf activePath node.children = none) :
    primaryChainLastRow activePath rowOf node = rowOf node.id := by
  obtain ⟨turn, kids, sup⟩ := node
  rw [primaryChainLastRow]
  have hnone : primaryChildOf activePath kids = none := h
  rw [hnone]
  rfl

theorem primaryChainLastRow_child {rowOf : EntryId → Nat} {ch : HistoryNode} (hids : (node.children.map HistoryNode.id).Nodup)
    (hch : ch ∈ node.children) (h : primaryChildOf activePath node.children = some ch.id) :
    primaryChainLastRow activePath rowOf node = primaryChainLastRow activePath rowOf ch := by
  obtain ⟨turn, kids, sup⟩ := node
  rw [primaryChainLastRow]
  have hsome : primaryChildOf activePath kids = some ch.id := h
  have hget : (primaryChainLastRow.all activePath rowOf kids).get? ch.id = some (primaryChainLastRow activePath rowOf ch) := by
    rw [primaryChainLastRow_all]
    apply Assoc.get?_of_mem
    · rw [map_map]
      exact hids
    · exact mem_map_of_mem hch
  rw [hsome]
  dsimp only
  rw [hget]
  rfl

/-! ## Rows -/

section

variable {coll : Collation} {tree : HistoryTree}

/-- Every node is younger than its parent. -/
def Aged (collation : Collation) (tree : HistoryTree) : Prop :=
  ∀ parent node child, tree.roots.At parent node → child ∈ node.children → byTs collation node.stamp child.stamp = .lt

variable {node : HistoryNode}

theorem mem_byRow : node ∈ byRow coll tree.roots ↔ ∃ parent, tree.roots.At parent node := by
  rw [byRow, mem_mergeSort, mem_nodes_iff]

section

variable (coll)

theorem byRow_ids (tree : HistoryTree) : ((byRow coll tree.roots).map HistoryNode.id).Nodup := by
  rw [byRow, ((mergeSort_perm _ _).map HistoryNode.id).nodup_iff]
  exact (nodes_ids tree.roots).nodup tree.ids_nodup

theorem byTs_trans : Std.TransCmp (byTs coll) := by
  have htrans := coll.trans
  have hfst : Std.TransCmp fun a b : String × EntryId => coll.localeCompare a.1 b.1 :=
    { eq_swap := htrans.eq_swap, isLE_trans := htrans.isLE_trans }
  have hsecond : Std.TransCmp fun a b : String × EntryId => coll.localeCompare a.2 b.2 :=
    { eq_swap := htrans.eq_swap, isLE_trans := htrans.isLE_trans }
  exact inferInstanceAs (Std.TransCmp (compareLex _ _))

theorem byRow_sorted (tree : HistoryTree) : (byRow coll tree.roots).Pairwise fun a b => (byTs coll a.stamp b.stamp).isLE = true := by
  refine pairwise_mergeSort ?_ ?_ _
  · intro a b c hab hbc
    exact (byTs_trans coll).isLE_trans hab hbc
  · intro a b
    rw [Bool.or_eq_true, (byTs_trans coll).eq_swap (a := b.stamp)]
    cases byTs coll a.stamp b.stamp <;> simp

end

theorem rows_byRow (haged : Aged coll tree) (activePath : List EntryId) :
    Rows activePath (primaryChainLastRow activePath (rowIn (byRow coll tree.roots))) (parentOf tree.roots) (byRow coll tree.roots) where
  ids := byRow_ids coll tree
  children_ids := by
    intro node hnode
    exact children_nodup tree.ids_nodup (mem_nodes_iff.2 (mem_byRow.1 hnode))
  child := by
    intro i node ch hi hch
    obtain ⟨parent, hat⟩ := mem_byRow.1 (mem_of_getElem? hi)
    have hat' := Forest.At.child hat hch
    refine ⟨parentOf_at tree.ids_nodup hat', ?_⟩
    obtain ⟨j, hj⟩ := mem_iff_getElem?.mp (mem_byRow.2 ⟨_, hat'⟩)
    refine ⟨j, ?_, hj⟩
    -- Rows are sorted, and the child is younger.
    have hyounger := haged parent node ch hat hch
    have hne : (byTs coll ch.stamp node.stamp).isLE = false := by
      have hlex : byTs coll ch.stamp node.stamp = (byTs coll node.stamp ch.stamp).swap := (byTs_trans coll).eq_swap
      rw [hlex, hyounger]
      rfl
    by_contra hle
    rcases Nat.lt_or_eq_of_le (Nat.le_of_not_lt hle) with hlt | rfl
    · obtain ⟨hi', hnode⟩ := List.getElem?_eq_some_iff.mp hi
      obtain ⟨hj', hch'⟩ := List.getElem?_eq_some_iff.mp hj
      have hsrt := pairwise_iff_getElem.mp (byRow_sorted coll tree) j i hj' hi' hlt
      rw [hnode, hch', hne] at hsrt
      cases hsrt
    · cases hi.symm.trans hj
      rw [hyounger] at hne
      cases hne
  parent := by
    intro j ch parent hj hpar
    obtain ⟨above, hat⟩ := mem_byRow.1 (mem_of_getElem? hj)
    rw [parentOf_at tree.ids_nodup hat] at hpar
    cases hat with
    | root _ => cases hpar
    | @child grandparent node _ hnode hch =>
      obtain ⟨i, hi⟩ := mem_iff_getElem?.mp (mem_byRow.2 ⟨_, hnode⟩)
      exact ⟨i, node, hi, Option.some.inj hpar, hch⟩
  primary := by
    intro node hnode ch hch hprim
    refine primaryChainLastRow_child ?_ hch (not_not.mp hprim)
    exact children_nodup tree.ids_nodup (mem_nodes_iff.2 (mem_byRow.1 hnode))

theorem rowIn_eq {i : Nat} (h : (byRow coll tree.roots)[i]? = some node) : rowIn (byRow coll tree.roots) node.id = i := by
  obtain ⟨hi, hnode⟩ := List.getElem?_eq_some_iff.mp h
  rw [rowIn, findIdx_eq hi]
  refine ⟨by rw [hnode]; exact decide_eq_true rfl, ?_⟩
  intro j hj
  refine decide_eq_false fun hid => ?_
  have hids := byRow_ids coll tree
  have := inj_on_of_nodup_map hids (getElem_mem _) (mem_of_getElem? h) hid
  have := (hids.of_map.getElem_inj_iff).mp (this.trans hnode.symm)
  omega

/-- A primary chain ends at or after its node. -/
theorem row_le_last (haged : Aged coll tree) (activePath : List EntryId) {i : Nat}
    (h : (byRow coll tree.roots)[i]? = some node) :
    i ≤ primaryChainLastRow activePath (rowIn (byRow coll tree.roots)) node := by
  have hrows := rows_byRow haged activePath
  induction node generalizing i with
  | node turn kids sup hchildren _ =>
    generalize hnode : HistoryNode.node turn kids sup = node at h
    have hkids : node.children = kids := by rw [← hnode]; rfl
    cases hprim : primaryChildOf activePath node.children with
    | none => rw [primaryChainLastRow_none hprim, rowIn_eq h]
    | some primary =>
      obtain ⟨ch, hch, rfl⟩ := mem_of_primaryChildOf hprim
      obtain ⟨-, j, hlt, hj⟩ := hrows.child h hch
      have hmem := mem_of_getElem? h
      rw [hrows.primary node hmem ch hch (not_not.mpr hprim)]
      have := hchildren ch (hkids ▸ hch) hj
      omega

end

/-! ## The active path -/

/-- The ids from a root down to a node. -/
inductive RootPath (roots : Forest) : List EntryId → HistoryNode → Prop
  | root {node : HistoryNode} : node ∈ roots → RootPath roots [node.id] node
  | child {path : List EntryId} {node child : HistoryNode} : RootPath roots path node → child ∈ node.children →
    RootPath roots (path ++ [child.id]) child

namespace RootPath

variable {path : List EntryId} {node : HistoryNode}

theorem at_ (h : RootPath roots path node) : ∃ parent, roots.At parent node := by
  induction h with
  | root hroot => exact ⟨none, .root hroot⟩
  | child _ hch ih =>
    obtain ⟨parent, hat⟩ := ih
    exact ⟨_, .child hat hch⟩

theorem end_mem (h : RootPath roots path node) : node.id ∈ path := by
  cases h with
  | root _ => exact mem_singleton_self _
  | child _ _ => exact mem_append_right _ (mem_singleton_self _)

theorem unique (hids : roots.ids.Nodup) {path' : List EntryId} {node' : HistoryNode} (h : RootPath roots path node)
    (h' : RootPath roots path' node') (hid : node.id = node'.id) : path = path' := by
  induction h generalizing path' node' with
  | root hroot =>
    cases h' with
    | root _ => rw [hid]
    | child hnode hch =>
      obtain ⟨parent, hat⟩ := hnode.at_
      cases (at_unique hids (.root hroot) (.child hat hch) hid).2
  | child hnode hch ih =>
    obtain ⟨parent, hat⟩ := hnode.at_
    cases h' with
    | root hroot => cases (at_unique hids (.child hat hch) (.root hroot) hid).2
    | child hnode' hch' =>
      obtain ⟨parent', hat'⟩ := hnode'.at_
      have hparents := (at_unique hids (.child hat hch) (.child hat' hch') hid).2
      rw [ih hnode' (Option.some.inj hparents), hid]

/-- What is on a path is the end of a part of it. -/
theorem mem (h : RootPath roots path node) {id : EntryId} (hmem : id ∈ path) :
    ∃ st oth, RootPath roots st oth ∧ oth.id = id ∧ st <+: path := by
  induction h with
  | root hroot => exact ⟨_, _, .root hroot, (mem_singleton.mp hmem).symm, prefix_refl _⟩
  | @child path node ch hnode hch ih =>
    rcases mem_append.mp hmem with hmem | hmem
    · obtain ⟨st, oth, hsta, hid, hpre⟩ := ih hmem
      exact ⟨st, oth, hsta, hid, hpre.trans (prefix_append _ _)⟩
    · exact ⟨_, _, .child hnode hch, (mem_singleton.mp hmem).symm, prefix_refl _⟩

/-- The only child on a path is the primary child. -/
theorem primary (hids : roots.ids.Nodup) {path st : List EntryId} {last node ch : HistoryNode} (h : RootPath roots path last)
    (hact : ∀ id, id ∈ activePath ↔ id ∈ path) (hnode : RootPath roots st node) (hch : ch ∈ node.children)
    (hpre : st ++ [ch.id] <+: path) : primaryChildOf activePath node.children = some ch.id := by
  have hon : ∀ oth ∈ node.children, oth.id ∈ path → oth.id = ch.id := by
    intro oth hoth hmem
    obtain ⟨st', oth', hsta', hid, hpre'⟩ := h.mem hmem
    obtain rfl := hsta'.unique hids (.child hnode hoth) hid
    have hsame := (prefix_of_prefix_length_le hpre' hpre (by simp)).eq_of_length (by simp)
    exact singleton_injective (append_cancel_left hsame)
  have hmem : ch.id ∈ path := hpre.subset (mem_append_right _ (mem_singleton_self _))
  obtain ⟨fnd, hfnd⟩ : ∃ fnd, node.children.find? (fun oth => activePath.contains oth.id) = some fnd := by
    refine Option.isSome_iff_exists.mp (find?_isSome.mpr ⟨ch, hch, ?_⟩)
    exact contains_iff_mem.mpr ((hact _).mpr hmem)
  have hact' := find?_some hfnd
  rw [primaryChildOf, hfnd, Option.some_or, Option.map_some]
  exact congrArg some (hon fnd (mem_of_find?_eq_some hfnd) ((hact _).mp (contains_iff_mem.mp hact')))

end RootPath

/-! ## The layout -/

/-- A fork that joins two places. -/
def Joins (layout : LaneLayout) (above below : PlacedNode) : Nat := layout.forks.countP (joins above.row above.lane below.lane)

/-- A layout without collisions. -/
structure Tidy (tree : HistoryTree) (activePath : List EntryId) (layout : LaneLayout) : Prop where
  placed : ∀ parent node, tree.roots.At parent node → ∃ placed ∈ layout.nodes, placed.node = node
  once : (layout.nodes.map fun placed => placed.node.id).Nodup
  rows : (layout.nodes.map PlacedNode.row).Nodup
  /-- Of two lineages on a lane, one ends before the other starts. -/
  apart : layout.lineages.Pairwise fun a b => a.lane = b.lane → (a.endRow : Rat) < b.startRow
  covered : ∀ placed ∈ layout.nodes, ∃ lineage ∈ layout.lineages,
    lineage.lane = placed.lane ∧ lineage.startRow ≤ placed.row ∧ placed.row ≤ lineage.endRow
  joined : ∀ placed ∈ layout.nodes, ∀ below ∈ layout.nodes, below.node ∈ placed.node.children →
    (below.lane = placed.lane ∧ Joins layout placed below = 0) ∨ (below.lane ≠ placed.lane ∧ Joins layout placed below = 1)
  path : ∃ lane, ∀ placed ∈ layout.nodes, placed.node.id ∈ activePath → placed.lane = lane

end

/-- The lanes of an aged tree do not collide, and the active path is on one of them. -/
theorem lanes_do_not_collide (collation : Collation) (tree : HistoryTree) (haged : Aged collation tree) (activePath : List EntryId)
    (hpath : activePath = [] ∨ ∃ path node, RootPath tree.roots path node ∧ ∀ id, id ∈ activePath ↔ id ∈ path) :
    Tidy tree activePath (computeLaneLayout activePath collation tree) := by
  have hrows := rows_byRow haged activePath
  have hinv := Inv.run hrows
  have hplaced : ∀ {node : HistoryNode}, (∃ parent, tree.roots.At parent node) →
      ∃ placed ∈ (computeLaneLayout activePath collation tree).nodes, placed.node = node := fun hnode => hinv.placed (mem_byRow.2 hnode)
  have hnodes : (computeLaneLayout activePath collation tree).nodes.map PlacedNode.node = byRow collation tree.roots := by
    have := congrArg (map Prod.fst) hinv.nodes
    rwa [map_map, zipIdx_map_fst] at this
  have hrow : (computeLaneLayout activePath collation tree).nodes.map PlacedNode.row = range (byRow collation tree.roots).length := by
    have := congrArg (map Prod.snd) hinv.nodes
    rwa [map_map, zipIdx_map_snd, ← range_eq_range'] at this
  have hids : ((computeLaneLayout activePath collation tree).nodes.map fun placed => placed.node.id).Nodup := by
    have hsame : (computeLaneLayout activePath collation tree).nodes.map (fun placed => placed.node.id) =
        (byRow collation tree.roots).map HistoryNode.id := by
      rw [← hnodes, map_map]
      rfl
    rw [hsame]
    exact byRow_ids collation tree
  have honce : ∀ placed ∈ (computeLaneLayout activePath collation tree).nodes, ∀ other ∈ (computeLaneLayout activePath collation tree).nodes,
      placed.node.id = other.node.id → placed = other := fun _ hplaced _ hother heq => inj_on_of_nodup_map hids hplaced hother heq
  refine ⟨fun parent node hat => hplaced ⟨parent, hat⟩, hids, ?_, hinv.apart, ?_, ?_, ?_⟩
  · rw [hrow]
    exact nodup_range
  · intro placed hmem
    obtain ⟨lineage, hlineage, hlane, hstart, hend⟩ := hinv.covered placed hmem
    refine ⟨lineage, hlineage, hlane, hstart, ?_⟩
    rw [hend]
    exact row_le_last haged activePath (hinv.mem_done hmem).2.2
  · intro placed hmem below hbelow hchild
    obtain ⟨hsecondary, hprimary⟩ := hinv.pairs placed hmem below hbelow hchild
    by_cases hkind : Secondary activePath placed.node below.node
    · obtain ⟨lane, hlane, habove, -, hforks⟩ := hinv.reserved placed hmem below.node hchild hkind
      cases (hsecondary hkind).symm.trans hlane
      exact .inr ⟨habove.ne', hforks⟩
    · have hsame := hprimary hkind
      refine .inl ⟨hsame, countP_eq_zero.mpr ?_⟩
      -- A fork goes to another lane.
      intro fork hfork hjoins
      have hlanes := (hinv.forks fork hfork).2
      obtain ⟨-, hfrom, hto⟩ := of_decide_eq_true hjoins
      omega
  · rcases hpath with rfl | ⟨path, last, hroot, hactive⟩
    · exact ⟨0, nofun⟩
    · -- Along the path every node has the lane of the one before.
      have hlane : ∀ {start : List EntryId} {node : HistoryNode}, RootPath tree.roots start node → start <+: path →
          ∃ lane, ∀ placed ∈ (computeLaneLayout activePath collation tree).nodes, placed.node.id ∈ start → placed.lane = lane := by
        intro start node hstart
        induction hstart with
        | @root node hmem =>
          obtain ⟨placed, hplacedMem, rfl⟩ := hplaced ⟨none, .root hmem⟩
          refine fun _ => ⟨placed.lane, fun other hother hid => ?_⟩
          rw [honce placed hplacedMem other hother (mem_singleton.mp hid).symm]
        | @child start node child hnode hchild ih =>
          intro hpre
          obtain ⟨lane, hlanes⟩ := ih ((prefix_append _ _).trans hpre)
          obtain ⟨placed, hplacedMem, rfl⟩ := hplaced hnode.at_
          refine ⟨lane, fun other hother hid => ?_⟩
          rcases mem_append.mp hid with hid | hid
          · exact hlanes other hother hid
          · obtain ⟨parent, hat⟩ := hnode.at_
            obtain ⟨below, hbelow, hsame⟩ := hplaced ⟨_, .child hat hchild⟩
            have hother' : below = other := honce below hbelow other hother (by rw [hsame, mem_singleton.mp hid])
            obtain rfl := hother'
            subst hsame
            have hprimary := hroot.primary tree.ids_nodup hactive hnode hchild hpre
            rw [(hinv.pairs placed hplacedMem below hbelow hchild).2 (not_not.mpr hprimary)]
            exact hlanes placed hplacedMem hnode.end_mem
      obtain ⟨lane, hsame⟩ := hlane hroot (prefix_refl _)
      exact ⟨lane, fun placed hmem hid => hsame placed hmem ((hactive _).mp hid)⟩

/-- A message `a` with the answers `b` and `c`. -/
def forkedTree : HistoryTree where
  roots := [.node ⟨⟨"a", by decide, by decide, by decide⟩, [], "1", false, none⟩
    [.node ⟨⟨"b", by decide, by decide, by decide⟩, [], "2", true, none⟩ [] [],
      .node ⟨⟨"c", by decide, by decide, by decide⟩, [], "3", true, none⟩ [] []] []]
  ids_nodup := by decide
  deadEnds := by
    intro parent node hat hend
    have hmem := mem_nodes_iff.2 ⟨parent, hat⟩
    simp only [List.flatMap_cons, List.flatMap_nil, collect, collect.all, List.append_nil, List.cons_append, List.nil_append, List.mem_cons,
      List.not_mem_nil, or_false] at hmem
    rcases hmem with rfl | rfl | rfl
    · cases hend
    · rfl
    · rfl

theorem lanes_do_not_collide_forked :
    Tidy forkedTree [⟨"a", by decide, by decide, by decide⟩, ⟨"b", by decide, by decide, by decide⟩]
      (computeLaneLayout [⟨"a", by decide, by decide, by decide⟩, ⟨"b", by decide, by decide, by decide⟩] ⟨compare, inferInstance⟩ forkedTree) := by
  refine lanes_do_not_collide ⟨compare, inferInstance⟩ forkedTree ?_ _ (.inr ⟨_, _, .child (.root mem_cons_self) mem_cons_self, fun _ => Iff.rfl⟩)
  intro parent node child hat hchild
  have hmem := mem_nodes_iff.2 ⟨parent, hat⟩
  simp only [forkedTree, flatMap_cons, flatMap_nil, collect, collect.all, append_nil, cons_append, nil_append,
    mem_cons, not_mem_nil, or_false] at hmem
  rcases hmem with rfl | rfl | rfl
  · simp only [HistoryNode.children, mem_cons, not_mem_nil, or_false] at hchild
    rcases hchild with rfl | rfl <;> decide
  · cases hchild
  · cases hchild

end PiBridge.Viewmodel
