import PiBridge.Viewmodel.Correctness.LaneSteps

/-!
# `Viewmodel.Correctness.LaneRuns` — the rows of a layout

`Rows` is what the loop relies on: the nodes have distinct ids, and a child comes in a later row than its parent. `Inv` is
what it keeps. A lineage that is no longer active ended in an earlier row (`Inv.busy`), so that a lineage that takes a free
lane is apart from all before it on this lane; and every node placed is on a lineage that goes on to the end of its primary
chain (`Inv.covered`).
-/

namespace PiBridge.Viewmodel.Layout

open Lib
open List (mem_iff_getElem? mem_map mem_append_left mem_append_right mem_append length_append)

section

variable {apath : List EntryId} {lastRow : HistoryNode → Nat} {parentOf : EntryId → Option EntryId} {all : List HistoryNode}

/-- A child that has a lane of its own. -/
def Secondary (activePath : List EntryId) (parent child : HistoryNode) : Prop := primaryChildOf activePath parent.children ≠ some child.id

/-- The nodes by row. -/
structure Rows (activePath : List EntryId) (lastRow : HistoryNode → Nat) (parentOf : EntryId → Option EntryId) (all : List HistoryNode) : Prop where
  ids : (all.map HistoryNode.id).Nodup
  children_ids : ∀ node ∈ all, (node.children.map HistoryNode.id).Nodup
  child : ∀ {i : Nat} {node child : HistoryNode}, all[i]? = some node → child ∈ node.children →
    parentOf child.id = some node.id ∧ ∃ j, i < j ∧ all[j]? = some child
  parent : ∀ {j : Nat} {child : HistoryNode} {parent : EntryId}, all[j]? = some child → parentOf child.id = some parent →
    ∃ (i : Nat) (node : HistoryNode), all[i]? = some node ∧ node.id = parent ∧ child ∈ node.children
  primary : ∀ node ∈ all, ∀ child ∈ node.children, ¬Secondary activePath node child → lastRow node = lastRow child

namespace Rows

section

variable (h : Rows apath lastRow parentOf all)

include h

theorem eq_of_id {a b : HistoryNode} (ha : a ∈ all) (hb : b ∈ all) (hid : a.id = b.id) : a = b :=
  List.inj_on_of_nodup_map h.ids ha hb hid

theorem eq_of_row {i j : Nat} {node : HistoryNode} (hi : all[i]? = some node)
    (hj : all[j]? = some node) : i = j := by
  obtain ⟨hi, hnode⟩ := List.getElem?_eq_some_iff.mp hi
  obtain ⟨hj, hnode'⟩ := List.getElem?_eq_some_iff.mp hj
  exact (h.ids.of_map.getElem_inj_iff).mp (hnode.trans hnode'.symm)

theorem child_mem {node child : HistoryNode} (hnode : node ∈ all) (hch : child ∈ node.children) :
    child ∈ all := by
  obtain ⟨i, hi⟩ := mem_iff_getElem?.mp hnode
  obtain ⟨-, j, -, hj⟩ := h.child hi hch
  exact List.mem_of_getElem? hj

theorem parent_unique {a b child child' : HistoryNode} (ha : a ∈ all) (hb : b ∈ all)
    (hch : child ∈ a.children) (hch' : child' ∈ b.children) (hid : child.id = child'.id) : a = b := by
  obtain ⟨i, hi⟩ := mem_iff_getElem?.mp ha
  obtain ⟨j, hj⟩ := mem_iff_getElem?.mp hb
  have hpar := (h.child hi hch).1
  rw [hid, (h.child hj hch').1] at hpar
  exact (h.eq_of_id hb ha (Option.some.inj hpar)).symm

end

end Rows

/-- What the loop over the rows keeps. -/
structure Inv (activePath : List EntryId) (lastRow : HistoryNode → Nat) (done : List HistoryNode) (layout : Layout) : Prop where
  nodes : layout.nodes.map (fun placed => (placed.node, placed.row)) = done.zipIdx
  nodeLane : ∀ placed ∈ layout.nodes, layout.nodeLane.get? placed.node.id = some placed.lane
  /-- Two lineages on one lane: the earlier one ends before the other starts. -/
  apart : layout.lineages.Pairwise fun a b => a.lane = b.lane → (a.endRow : Rat) < b.startRow
  busy : ∀ lineage ∈ layout.lineages, lineage ∈ layout.activeLanes ∨ lineage.endRow < done.length
  covered : ∀ placed ∈ layout.nodes, ∃ lineage ∈ layout.lineages,
    lineage.lane = placed.lane ∧ lineage.startRow ≤ placed.row ∧ lineage.endRow = lastRow placed.node
  reserved : ∀ placed ∈ layout.nodes, ∀ child ∈ placed.node.children, Secondary activePath placed.node child →
    ∃ lane, layout.childLane.get? child.id = some lane ∧ placed.lane < lane ∧
      (∃ lineage ∈ layout.lineages, lineage.lane = lane ∧ lineage.startRow = placed.row + 1 / 2 ∧ lineage.endRow = lastRow child) ∧
      layout.forks.countP (fun fork => fork.fromRow = placed.row ∧ fork.fromLane = placed.lane ∧ fork.toLane = lane) = 1
  childLane : ∀ id lane, layout.childLane.get? id = some lane →
    ∃ placed ∈ layout.nodes, ∃ child ∈ placed.node.children, child.id = id ∧ Secondary activePath placed.node child
  forks : ∀ fork ∈ layout.forks, fork.fromRow < done.length ∧ fork.fromLane < fork.toLane
  pairs : ∀ placed ∈ layout.nodes, ∀ below ∈ layout.nodes, below.node ∈ placed.node.children →
    (Secondary activePath placed.node below.node → layout.childLane.get? below.node.id = some below.lane) ∧
      (¬Secondary activePath placed.node below.node → below.lane = placed.lane)

theorem Inv.nil (apath : List EntryId) (lastRow : HistoryNode → Nat) : Inv apath lastRow [] {} where
  nodes := rfl
  nodeLane := nofun
  apart := List.Pairwise.nil
  busy := nofun
  covered := nofun
  reserved := nofun
  childLane := fun _ _ h => by cases h
  forks := nofun
  pairs := nofun

end

section Step

variable {apath : List EntryId} {lastRow : HistoryNode → Nat} {parentOf : EntryId → Option EntryId}
  {done rest : List HistoryNode} {node : HistoryNode} {lay lay' : Layout} {lane : Nat} {begun : List Lineage} {reservations : List Reservation}

variable {pl : PlacedNode}

theorem Inv.mem_done (h : Inv apath lastRow done lay) (hplac : pl ∈ lay.nodes) :
    pl.node ∈ done ∧ pl.row < done.length ∧ done[pl.row]? = some pl.node := by
  have hmem : (pl.node, pl.row) ∈ done.zipIdx := h.nodes ▸ List.mem_map_of_mem hplac
  have hget := List.mem_zipIdx_iff_getElem?.mp hmem
  exact ⟨List.mem_of_getElem? hget, (List.getElem?_eq_some_iff.mp hget).1, hget⟩

variable {other child : HistoryNode}

theorem Inv.placed (h : Inv apath lastRow done lay) (hoth : other ∈ done) : ∃ pl ∈ lay.nodes, pl.node = other := by
  obtain ⟨i, hi⟩ := mem_iff_getElem?.mp hoth
  have hmem : (other, i) ∈ lay.nodes.map fun pl => (pl.node, pl.row) := h.nodes ▸ List.mem_zipIdx_iff_getElem?.mpr hi
  obtain ⟨pl, hplac, heq⟩ := mem_map.mp hmem
  exact ⟨pl, hplac, congrArg Prod.fst heq⟩

variable (hrows : Rows apath lastRow parentOf all) (hall : all = done ++ node :: rest)

include hall in
theorem getElem?_node : all[done.length]? = some node := by rw [hall, List.getElem?_append_right (le_refl _), Nat.sub_self]; rfl

include hall in
theorem getElem?_done {i : Nat} (h : done[i]? = some other) : all[i]? = some other := by
  rw [hall, List.getElem?_append_left (List.getElem?_eq_some_iff.mp h).1, h]

include hall in
theorem mem_all_of_done (h : other ∈ done) : other ∈ all := by
  rw [hall]
  exact mem_append_left _ h

include hall in
theorem node_mem_all : node ∈ all := by
  rw [hall]
  exact mem_append_right _ List.mem_cons_self

include hrows hall in
theorem id_ne_of_done (h : other ∈ done) : other.id ≠ node.id := by
  have hids := hrows.ids
  rw [hall, List.map_append, List.map_cons] at hids
  exact (List.nodup_append.mp hids).2.2 _ (List.mem_map_of_mem h) _ List.mem_cons_self

variable (h : Inv apath lastRow done lay)
  (hstep : Placed apath lastRow parentOf lay node done.length lane begun reservations lay')

include hstep in
/-- Lanes are reserved for the secondary children of the node. -/
theorem mem_reservations : (∃ lane, (child, lane) ∈ reservations) ↔ child ∈ node.children ∧ Secondary apath node child := by
  have hmem : child ∈ reservations.map Prod.fst ↔ child ∈ node.children ∧ Secondary apath node child := by
    rw [hstep.children, List.mem_filter, List.mem_reverse, Secondary, decide_eq_true_eq, ne_comm]
  rw [← hmem, mem_map]
  constructor
  · rintro ⟨lane, h⟩
    exact ⟨_, h, rfl⟩
  · rintro ⟨⟨other, lane⟩, h, rfl⟩
    exact ⟨lane, h⟩

include hrows hall h hstep in
/-- The children of earlier nodes keep their lanes. -/
theorem childLane_stable (hplac : pl ∈ lay.nodes) (hch : child ∈ pl.node.children) :
    lay'.childLane.get? child.id = lay.childLane.get? child.id := by
  rw [hstep.childLane]
  apply noted_of_notMem
  intro resv hmem hid
  have hmine := ((mem_reservations hstep).mp ⟨resv.2, hmem⟩).1
  have hdone := (h.mem_done hplac).1
  have hsame := hrows.parent_unique (node_mem_all hall) (mem_all_of_done hall hdone) hmine hch hid
  exact id_ne_of_done hrows hall hdone (by rw [hsame])

include hstep in
theorem mem_lineages {lin : Lineage} : lin ∈ lay'.lineages ↔
    lin ∈ lay.lineages ∨ lin ∈ begun ∨ ∃ resv ∈ reservations, lineageOf lastRow done.length resv = lin := by
  rw [hstep.lineages, mem_append, mem_append, mem_map, or_assoc]

include hrows hall h in
/-- The parent of the node has been placed. -/
theorem parent_placed {par : EntryId} (hpar : parentOf node.id = some par) :
    ∃ pl ∈ lay.nodes, pl.node.id = par ∧ node ∈ pl.node.children := by
  obtain ⟨i, other, hi, hid, hch⟩ := hrows.parent (getElem?_node hall) hpar
  obtain ⟨-, j, hlt, hj⟩ := hrows.child hi hch
  rw [← hrows.eq_of_row (getElem?_node hall) hj] at hlt
  have hdone : other ∈ done := by
    rw [hall, List.getElem?_append_left hlt] at hi
    exact List.mem_of_getElem? hi
  obtain ⟨pl, hplac, rfl⟩ := h.placed hdone
  exact ⟨pl, hplac, hid, hch⟩

include hrows hall h in
/-- The parent of the node is determined. -/
theorem parent_eq (hplac : pl ∈ lay.nodes) (hch : node ∈ pl.node.children) : parentOf node.id = some pl.node.id :=
  (hrows.child (getElem?_done hall (h.mem_done hplac).2.2) hch).1

include hrows hall h in
/-- A lane has been reserved for the node exactly if it is a secondary child. -/
theorem reserved_iff (hplac : pl ∈ lay.nodes) (hch : node ∈ pl.node.children) :
    lay.childLane.get? node.id ≠ none ↔ Secondary apath pl.node node := by
  constructor
  · intro hlane
    obtain ⟨lane, hlane⟩ := Option.ne_none_iff_exists'.mp hlane
    obtain ⟨other, hoth, child, hmem, hid, hsec⟩ := h.childLane _ _ hlane
    have hoth' := mem_all_of_done hall (h.mem_done hoth).1
    have hsame := hrows.parent_unique hoth' (mem_all_of_done hall (h.mem_done hplac).1) hmem hch hid
    obtain rfl := hrows.eq_of_id (hrows.child_mem hoth' hmem) (node_mem_all hall) hid
    rwa [hsame] at hsec
  · intro hsec
    obtain ⟨lane, hlane, -⟩ := h.reserved pl hplac node hch hsec
    rw [hlane]
    exact Option.some_ne_none lane

/-! ### The clauses -/

include h hstep in
theorem apart_step : lay'.lineages.Pairwise fun a b => a.lane = b.lane → (a.endRow : Rat) < b.startRow := by
  -- What is on a lane that is free has ended.
  have hend : ∀ lin ∈ lay.lineages, has lay.activeLanes lin.lane = false → (lin.endRow : Rat) < done.length := by
    intro lin hmem hfree
    rcases h.busy lin hmem with hact | hend
    · exact absurd rfl (has_eq_false.mp hfree lin hact)
    · exact_mod_cast hend
  rw [hstep.lineages, List.pairwise_append, List.pairwise_append]
  refine ⟨⟨h.apart, ?_, ?_⟩, ?_, ?_⟩
  · cases hstep.arrives with
    | root _ _ => exact List.pairwise_singleton _ _
    | secondary _ _ | primary _ _ => exact List.Pairwise.nil
  · intro lin hmem new hnew hlane
    cases hstep.arrives with
    | root _ hfree =>
      obtain rfl := List.mem_singleton.mp hnew
      exact hend lin hmem (hlane ▸ hfree)
    | secondary _ _ => cases hnew
    | primary _ _ => cases hnew
  · rw [List.pairwise_map]
    have hlanes := hstep.apart.nodup
    rw [List.Nodup, List.pairwise_map] at hlanes
    exact hlanes.imp fun hne heq => absurd heq hne
  · intro lin hmem new hnew hlane
    obtain ⟨resv, hreservation, rfl⟩ := mem_map.mp hnew
    have hfree := has_eq_false.mp (hstep.apart.free resv hreservation)
    rcases mem_append.mp hmem with hmem | hmem
    · have := hend lin hmem (has_eq_false.mpr fun other hoth heq =>
        hfree other (mem_append_left _ hoth) (heq.trans hlane))
      show (lin.endRow : Rat) < done.length + 1 / 2
      linarith
    · exact absurd hlane (hfree lin (mem_append_right _ hmem))

include h hstep in
theorem busy_step : ∀ lin ∈ lay'.lineages, lin ∈ lay'.activeLanes ∨ lin.endRow < (done ++ [node]).length := by
  intro lin hmem
  rw [length_append, List.length_singleton]
  have hact : lin ∈ lay.activeLanes ++ begun ++ reservations.map (lineageOf lastRow done.length) ∨ lin.endRow < done.length := by
    rw [hstep.lineages] at hmem
    rcases mem_append.mp hmem with hmem | hmem
    · rcases mem_append.mp hmem with hmem | hmem
      · exact (h.busy lin hmem).imp_left fun hact => mem_append_left _ (mem_append_left _ hact)
      · exact .inl (mem_append_left _ (mem_append_right _ hmem))
    · exact .inl (mem_append_right _ hmem)
  rcases hact with hact | hend
  · by_cases hrow : done.length < lin.endRow
    · refine .inl ?_
      rw [hstep.activeLanes, List.mem_filter]
      exact ⟨hact, decide_eq_true hrow⟩
    · exact .inr (by omega)
  · exact .inr (by omega)

include hrows hall h hstep in
/-- The node is on a lineage of its lane, which goes on to the end of its primary chain. -/
theorem covered_node : ∃ lin ∈ lay'.lineages, lin.lane = lane ∧ lin.startRow ≤ done.length ∧ lin.endRow = lastRow node := by
  have harrives := hstep.arrives
  generalize hrow : done.length = row at harrives
  cases harrives with
  | root _ _ =>
    exact ⟨_, (mem_lineages hstep).mpr (.inr (.inl (List.mem_singleton_self _))), rfl, le_refl _, rfl⟩
  | @secondary _ par hpar hlane =>
    -- The lineage began when the parent was placed.
    obtain ⟨pl, hplac, -, hch⟩ := parent_placed hrows hall h hpar
    have hsec := (reserved_iff hrows hall h hplac hch).mp (by rw [hlane]; exact Option.some_ne_none _)
    obtain ⟨other, hoth, -, ⟨lin, hmem, hon, hsta, hend⟩, -⟩ := h.reserved pl hplac node hch hsec
    cases hoth.symm.trans hlane
    refine ⟨lin, (mem_lineages hstep).mpr (.inl hmem), hon, ?_, hend⟩
    have hlt : (pl.row : Rat) + 1 ≤ row := by
      have := (h.mem_done hplac).2.1
      rw [hrow] at this
      exact_mod_cast this
    linarith
  | @primary par hpar hlane =>
    -- The lineage is that of the parent.
    obtain ⟨pl, hplac, rfl, hch⟩ := parent_placed hrows hall h hpar
    have hprim : ¬Secondary apath pl.node node := fun hsec =>
      (reserved_iff hrows hall h hplac hch).mpr hsec hlane
    obtain ⟨lin, hmem, hon, hsta, hend⟩ := h.covered pl hplac
    refine ⟨lin, (mem_lineages hstep).mpr (.inl hmem), ?_, ?_, ?_⟩
    · rw [hon, h.nodeLane pl hplac]
      rfl
    · have hlt : (pl.row : Rat) ≤ row := by
        have := (h.mem_done hplac).2.1
        rw [hrow] at this
        exact_mod_cast this.le
      exact hsta.trans hlt
    · rw [hend]
      exact hrows.primary _ (mem_all_of_done hall (h.mem_done hplac).1) _ hch hprim

include hstep in
theorem mem_nodes : pl ∈ lay'.nodes ↔ pl ∈ lay.nodes ∨ pl = ⟨node, lane, done.length, apath.contains node.id⟩ := by
  rw [hstep.nodes, mem_append, List.mem_singleton]

include hrows hall hstep in
/-- The lanes reserved for the children of the node. -/
theorem reserved_node (hch : child ∈ node.children) (hsec : Secondary apath node child) :
    ∃ clane, lay'.childLane.get? child.id = some clane ∧ lane < clane ∧ (child, clane) ∈ reservations := by
  obtain ⟨clane, hmem⟩ := (mem_reservations hstep).mpr ⟨hch, hsec⟩
  have hids : (reservations.map fun resv => resv.1.id).Nodup := by
    have hmap : reservations.map (fun resv => resv.1.id) = (reservations.map Prod.fst).map HistoryNode.id := by
      rw [List.map_map]
      rfl
    rw [hmap, hstep.children]
    refine (List.filter_sublist.map HistoryNode.id).nodup ?_
    rw [List.map_reverse, List.nodup_reverse]
    exact hrows.children_ids node (node_mem_all hall)
  refine ⟨clane, ?_, hstep.apart.above _ hmem, hmem⟩
  rw [hstep.childLane]
  exact noted_of_mem hids hmem

/-- A fork from a place to a lane. -/
abbrev joins (row lane toLane : Nat) (fork : Fork) : Bool := fork.fromRow = row ∧ fork.fromLane = lane ∧ fork.toLane = toLane

include hstep in
/-- The forks of earlier rows are as they were. -/
theorem countP_forks_of_lt {row lane' toLane : Nat} (hlt : row < done.length) :
    lay'.forks.countP (joins row lane' toLane) = lay.forks.countP (joins row lane' toLane) := by
  rw [hstep.forks, List.countP_append]
  refine Nat.add_eq_left.mpr (List.countP_eq_zero.mpr ?_)
  intro fork hfork
  obtain ⟨resv, -, rfl⟩ := mem_map.mp hfork
  exact fun hjoins => hlt.ne' (of_decide_eq_true hjoins).1

include h hstep in
/-- One fork goes to each lane reserved in this row. -/
theorem countP_forks_node {resv : Reservation} (hmem : resv ∈ reservations) : lay'.forks.countP (joins done.length lane resv.2) = 1 := by
  rw [hstep.forks, List.countP_append, List.countP_eq_zero.mpr, Nat.zero_add]
  · have hcnt : (reservations.map (forkOf done.length lane)).countP (joins done.length lane resv.2) =
        (reservations.map Prod.snd).count resv.2 := by
      rw [List.countP_map, List.count, List.countP_map]
      refine List.countP_congr fun other _ => ?_
      simp [joins, forkOf]
    rw [hcnt, List.count_eq_one_of_mem hstep.apart.nodup (List.mem_map_of_mem hmem)]
  · intro fork hfork
    exact fun hjoins => (h.forks fork hfork).1.ne (of_decide_eq_true hjoins).1

include hrows hall h hstep in
theorem pairs_step : ∀ pl ∈ lay'.nodes, ∀ bel ∈ lay'.nodes, bel.node ∈ pl.node.children →
    (Secondary apath pl.node bel.node → lay'.childLane.get? bel.node.id = some bel.lane) ∧
      (¬Secondary apath pl.node bel.node → bel.lane = pl.lane) := by
  intro pl hplac bel hbel hch
  rcases (mem_nodes hstep).mp hplac with hold | rfl
  · rw [childLane_stable hrows hall h hstep hold hch]
    rcases (mem_nodes hstep).mp hbel with hbel | rfl
    · exact h.pairs pl hold bel hbel hch
    · dsimp only at hch ⊢
      have hpar := parent_eq hrows hall h hold hch
      have hresv := reserved_iff hrows hall h hold hch
      cases hstep.arrives with
      | root hroot _ => rw [hroot] at hpar; cases hpar
      | secondary _ hlane =>
        refine ⟨fun _ => hlane, fun hprim => absurd (hresv.mp ?_) hprim⟩
        rw [hlane]
        exact Option.some_ne_none _
      | @primary par hpar' hlane =>
        refine ⟨fun hsec => absurd hlane (hresv.mpr hsec), fun _ => ?_⟩
        cases hpar.symm.trans hpar'
        rw [h.nodeLane pl hold]
        rfl
  · -- A child of the node is in a later row.
    obtain ⟨-, j, hlt, hj⟩ := hrows.child (getElem?_node hall) hch
    rcases (mem_nodes hstep).mp hbel with hbel | rfl
    · obtain ⟨-, hrow, hget⟩ := h.mem_done hbel
      have := hrows.eq_of_row (getElem?_done hall hget) hj
      omega
    · have := hrows.eq_of_row (getElem?_node hall) hj
      omega

include hrows hall h hstep in
theorem Inv.step : Inv apath lastRow (done ++ [node]) lay' := by
  have hlen : (done ++ [node]).length = done.length + 1 := by rw [length_append, List.length_singleton]
  refine ⟨?_, ?_, apart_step h hstep, busy_step h hstep, ?_, ?_, ?_, ?_, pairs_step hrows hall h hstep⟩
  · rw [hstep.nodes, List.map_append, h.nodes, List.zipIdx_append, Nat.zero_add]
    rfl
  · intro pl hplac
    rw [hstep.nodeLane]
    rcases (mem_nodes hstep).mp hplac with hplac | rfl
    · rw [Assoc.get?_set_ne _ _ (id_ne_of_done hrows hall (h.mem_done hplac).1).symm, h.nodeLane pl hplac]
    · exact Assoc.get?_set_self _ _ _
  · intro pl hplac
    rcases (mem_nodes hstep).mp hplac with hplac | rfl
    · obtain ⟨lin, hmem, hcov⟩ := h.covered pl hplac
      exact ⟨lin, (mem_lineages hstep).mpr (.inl hmem), hcov⟩
    · exact covered_node hrows hall h hstep
  · intro pl hplac child hch hsec
    rcases (mem_nodes hstep).mp hplac with hplac | rfl
    · obtain ⟨clane, hlane, habv, ⟨lin, hmem, hlineage⟩, hforks⟩ := h.reserved pl hplac child hch hsec
      refine ⟨clane, ?_, habv, ⟨lin, (mem_lineages hstep).mpr (.inl hmem), hlineage⟩, ?_⟩
      · rw [childLane_stable hrows hall h hstep hplac hch, hlane]
      · exact (countP_forks_of_lt hstep (h.mem_done hplac).2.1).trans hforks
    · obtain ⟨clane, hlane, habv, hmem⟩ := reserved_node hrows hall hstep hch hsec
      exact ⟨clane, hlane, habv,
        ⟨_, (mem_lineages hstep).mpr (.inr (.inr ⟨_, hmem, rfl⟩)), rfl, rfl, rfl⟩, countP_forks_node h hstep hmem⟩
  · intro id clane hlane
    by_cases hmine : ∃ resv ∈ reservations, resv.1.id = id
    · obtain ⟨⟨child, lane'⟩, hmem, rfl⟩ := hmine
      obtain ⟨hch, hsec⟩ := (mem_reservations hstep).mp ⟨lane', hmem⟩
      exact ⟨_, (mem_nodes hstep).mpr (.inr rfl), child, hch, rfl, hsec⟩
    · rw [hstep.childLane, noted_of_notMem fun resv hmem hid => hmine ⟨resv, hmem, hid⟩] at hlane
      obtain ⟨pl, hplac, hrest⟩ := h.childLane id clane hlane
      exact ⟨pl, (mem_nodes hstep).mpr (.inl hplac), hrest⟩
  · intro fork hfork
    rw [hstep.forks] at hfork
    rw [hlen]
    rcases mem_append.mp hfork with hfork | hfork
    · obtain ⟨hrow, hlane⟩ := h.forks fork hfork
      exact ⟨by omega, hlane⟩
    · obtain ⟨resv, hmem, rfl⟩ := mem_map.mp hfork
      exact ⟨Nat.lt_succ_self _, hstep.apart.above resv hmem⟩

end Step

/-- Every row keeps the invariant. -/
theorem Inv.run {apath : List EntryId} {lastRow : HistoryNode → Nat} {parentOf : EntryId → Option EntryId} {all : List HistoryNode}
    (hrows : Rows apath lastRow parentOf all) :
    Inv apath lastRow all (all.zipIdx.foldl (place apath lastRow parentOf) {}) := by
  have hrun : ∀ (rest done : List HistoryNode) (lay : Layout), all = done ++ rest → Inv apath lastRow done lay →
      Inv apath lastRow all ((rest.zipIdx done.length).foldl (place apath lastRow parentOf) lay) := by
    intro rest
    induction rest with
    | nil =>
      intro done lay hall h
      rw [hall, List.append_nil]
      exact h
    | cons node rest ih =>
      intro done lay hall h
      obtain ⟨lane, begun, reservations, hplac⟩ := place_placed apath lastRow parentOf lay node done.length
      have := ih (done ++ [node]) _ (by rw [hall, List.append_assoc]; rfl) (h.step hrows hall hplac)
      rwa [length_append, List.length_singleton] at this
  exact hrun all [] {} rfl (Inv.nil apath lastRow)

end PiBridge.Viewmodel.Layout
