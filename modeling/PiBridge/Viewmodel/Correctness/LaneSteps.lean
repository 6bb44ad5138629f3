import PiBridge.Viewmodel.Lanes

/-!
# `Viewmodel.Correctness.LaneSteps` — what one row does

`Placed` says all that placing a node does to the layout: where the node goes, the lineage it begins if it is a root, and
the lanes reserved for its secondary children (`place_placed`). The lanes that are taken were free.
-/

namespace PiBridge.Viewmodel.Layout

open Lib List

/-! ## Free lanes -/

variable {activeLanes : List Lineage}

theorem has_eq_false {lane : Nat} : has activeLanes lane = false ↔ ∀ lin ∈ activeLanes, lin.lane ≠ lane := by
  simp [has]

theorem le_freeLaneFrom (activeLanes : List Lineage) (fuel lane : Nat) : lane ≤ freeLaneFrom activeLanes fuel lane := by
  induction fuel generalizing lane with
  | zero => exact le_refl lane
  | succ fuel ih =>
    rw [freeLaneFrom]
    split_ifs
    · exact (Nat.le_succ lane).trans (ih (lane + 1))
    · exact le_refl lane

theorem freeLaneFrom_free {fuel lane : Nat} (h : ∀ lin ∈ activeLanes, lin.lane < lane + fuel) :
    has activeLanes (freeLaneFrom activeLanes fuel lane) = false := by
  induction fuel generalizing lane with
  | zero => exact has_eq_false.2 fun lin hmem => Nat.ne_of_lt (h lin hmem)
  | succ fuel ih =>
    rw [freeLaneFrom]
    split_ifs with hhas
    · exact ih fun lin hmem => by have := h lin hmem; omega
    · exact Bool.eq_false_of_not_eq_true hhas

theorem lane_lt_bound {lin : Lineage} (h : lin ∈ activeLanes) :
    lin.lane < activeLanes.foldr (fun lin lanes => max (lin.lane + 1) lanes) 0 := by
  induction activeLanes with
  | nil => cases h
  | cons fst rest ih =>
    rw [foldr_cons]
    rcases mem_cons.mp h with rfl | h
    · exact lt_of_lt_of_le (Nat.lt_succ_self _) (le_max_left _ _)
    · exact lt_of_lt_of_le (ih h) (le_max_right _ _)

theorem leftmostFreeLaneFrom_free (lay : Layout) (lane : Nat) : has lay.activeLanes (lay.leftmostFreeLaneFrom lane) = false :=
  freeLaneFrom_free fun _ h => lt_of_lt_of_le (lane_lt_bound h) (Nat.le_add_left _ _)

theorem le_leftmostFreeLaneFrom (lay : Layout) (lane : Nat) : lane ≤ lay.leftmostFreeLaneFrom lane := le_freeLaneFrom _ _ _

/-- A lineage on a free lane takes no other's place. -/
theorem begin_of_free {lay : Layout} {lin : Lineage} (h : has lay.activeLanes lin.lane = false) :
    lay.begin lin = { lay with
      lineages := lay.lineages ++ [lin]
      activeLanes := lay.activeLanes ++ [lin] } := by
  rw [begin, filter_eq_self.mpr]
  intro oth hoth
  simpa using has_eq_false.1 h oth hoth

/-! ## Reserving -/

/-- A secondary child, and the lane reserved for it. -/
abbrev Reservation := HistoryNode × Nat

def noted (childLane : Assoc EntryId Nat) (reservations : List Reservation) : Assoc EntryId Nat :=
  reservations.foldl (fun childLane reservation => childLane.set reservation.1.id reservation.2) childLane

theorem noted_of_notMem {clane : Assoc EntryId Nat} {resvs : List Reservation} {id : EntryId}
    (h : ∀ resv ∈ resvs, resv.1.id ≠ id) : (noted clane resvs).get? id = clane.get? id := by
  induction resvs generalizing clane with
  | nil => rfl
  | cons resv resvs ih =>
    exact (ih fun oth hoth => h oth (mem_cons_of_mem _ hoth)).trans (Assoc.get?_set_ne _ _ (h resv mem_cons_self))

theorem noted_of_mem {clane : Assoc EntryId Nat} {resvs : List Reservation} {resv : Reservation}
    (hids : (resvs.map fun resv => resv.1.id).Nodup) (h : resv ∈ resvs) :
    (noted clane resvs).get? resv.1.id = some resv.2 := by
  induction resvs generalizing clane with
  | nil => cases h
  | cons fst resvs ih =>
    obtain ⟨hfst, hids⟩ := nodup_cons.mp hids
    rcases mem_cons.mp h with rfl | h
    · have hrest : ∀ oth ∈ resvs, oth.1.id ≠ resv.1.id := fun oth hoth heq =>
        hfst (mem_map.mpr ⟨oth, hoth, heq⟩)
      rw [noted, foldl_cons]
      exact (noted_of_notMem hrest).trans (Assoc.get?_set_self _ _ _)
    · exact ih hids h

section

variable (lastRow : HistoryNode → Nat) (row lane : Nat)

def lineageOf (reservation : Reservation) : Lineage := ⟨reservation.2, row + 1 / 2, lastRow reservation.1⟩

def forkOf (reservation : Reservation) : Fork := ⟨row, lane, row + 1 / 2, reservation.2⟩

/-- The layout with lanes reserved for children. -/
def reserved (layout : Layout) (reservations : List Reservation) : Layout :=
  { layout with
    childLane := noted layout.childLane reservations
    forks := layout.forks ++ reservations.map (forkOf row lane)
    lineages := layout.lineages ++ reservations.map (lineageOf lastRow row)
    activeLanes := layout.activeLanes ++ reservations.map (lineageOf lastRow row) }

/-- The lanes of reservations are distinct, free before, and above the lane of the branch point. -/
structure Apart (activeLanes : List Lineage) (reservations : List Reservation) : Prop where
  nodup : (reservations.map Prod.snd).Nodup
  free : ∀ reservation ∈ reservations, has activeLanes reservation.2 = false
  above : ∀ reservation ∈ reservations, lane < reservation.2

theorem reserve_foldl (primary : Option EntryId) (kids : List HistoryNode) (lay : Layout) :
    ∃ resvs, kids.foldl (reserve lastRow row lane primary) lay = lay.reserved lastRow row lane resvs ∧
      resvs.map Prod.fst = kids.filter (fun ch => some ch.id ≠ primary) ∧
      Apart lane lay.activeLanes resvs := by
  induction kids generalizing lay with
  | nil =>
    refine ⟨[], ?_, rfl, nodup_nil, nofun, nofun⟩
    simp [reserved, noted]
  | cons ch kids ih =>
    rw [foldl_cons]
    by_cases hprim : some ch.id = primary
    · obtain ⟨resvs, hfold, hkids, hapart⟩ := ih lay
      refine ⟨resvs, ?_, ?_, hapart⟩
      · rw [reserve, if_pos hprim, hfold]
      · rw [hkids, filter_cons_of_neg (by simpa using hprim)]
    · -- The lane that the child gets is active for the children after it.
      have hfree := leftmostFreeLaneFrom_free lay (lane + 1)
      have habv := le_leftmostFreeLaneFrom lay (lane + 1)
      generalize hlane : lay.leftmostFreeLaneFrom (lane + 1) = childLane at hfree habv
      have hstep : reserve lastRow row lane primary lay ch = lay.reserved lastRow row lane [(ch, childLane)] := by
        rw [reserve, if_neg hprim, hlane]
        exact begin_of_free hfree
      obtain ⟨resvs, hfold, hkids, hapart⟩ := ih (lay.reserved lastRow row lane [(ch, childLane)])
      have hothers : ∀ resv ∈ resvs, has lay.activeLanes resv.2 = false ∧ resv.2 ≠ childLane := by
        intro resv hmem
        have := has_eq_false.1 (hapart.free resv hmem)
        refine ⟨has_eq_false.2 fun lin hlineage => this lin (mem_append_left _ hlineage), ?_⟩
        exact fun heq => this (lineageOf lastRow row (ch, childLane)) (mem_append_right _ (mem_singleton_self _)) heq.symm
      refine ⟨(ch, childLane) :: resvs, ?_, ?_, ?_, ?_, ?_⟩
      · rw [hstep, hfold]
        simp [reserved, noted]
      · rw [map_cons, hkids, filter_cons_of_pos (by simpa using hprim)]
      · rw [map_cons, nodup_cons]
        refine ⟨?_, hapart.nodup⟩
        intro hmem
        obtain ⟨resv, hreservation, heq⟩ := mem_map.mp hmem
        exact (hothers resv hreservation).2 heq
      · intro resv hmem
        rcases mem_cons.mp hmem with rfl | hmem
        · exact hfree
        · exact (hothers resv hmem).1
      · intro resv hmem
        rcases mem_cons.mp hmem with rfl | hmem
        · exact habv
        · exact hapart.above resv hmem

end

/-! ## One row -/

/-- How a node gets its lane, and the lineage it begins. -/
inductive Arrives (lastRow : HistoryNode → Nat) (parentOf : EntryId → Option EntryId) (layout : Layout) (node : HistoryNode) (row : Nat) :
    Nat → List Lineage → Prop
  | root {lane : Nat} : parentOf node.id = none → has layout.activeLanes lane = false →
      Arrives lastRow parentOf layout node row lane [⟨lane, row, lastRow node⟩]
  | secondary {lane : Nat} {parent : EntryId} : parentOf node.id = some parent → layout.childLane.get? node.id = some lane →
      Arrives lastRow parentOf layout node row lane []
  | primary {parent : EntryId} : parentOf node.id = some parent → layout.childLane.get? node.id = none →
      Arrives lastRow parentOf layout node row ((layout.nodeLane.get? parent).getD 0) []

/-- What placing a node does. -/
structure Placed (activePath : List EntryId) (lastRow : HistoryNode → Nat) (parentOf : EntryId → Option EntryId)
    (layout : Layout) (node : HistoryNode) (row lane : Nat) (begun : List Lineage) (reservations : List Reservation) (layout' : Layout) : Prop where
  arrives : Arrives lastRow parentOf layout node row lane begun
  nodes : layout'.nodes = layout.nodes ++ [⟨node, lane, row, activePath.contains node.id⟩]
  nodeLane : layout'.nodeLane = layout.nodeLane.set node.id lane
  childLane : layout'.childLane = noted layout.childLane reservations
  forks : layout'.forks = layout.forks ++ reservations.map (forkOf row lane)
  lineages : layout'.lineages = layout.lineages ++ begun ++ reservations.map (lineageOf lastRow row)
  activeLanes : layout'.activeLanes =
    (layout.activeLanes ++ begun ++ reservations.map (lineageOf lastRow row)).filter fun lineage => row < lineage.endRow
  children : reservations.map Prod.fst = node.children.reverse.filter fun child => some child.id ≠ primaryChildOf activePath node.children
  apart : Apart lane (layout.activeLanes ++ begun) reservations

theorem arrive_arrives (lastRow : HistoryNode → Nat) (parentOf : EntryId → Option EntryId) (lay : Layout) (node : HistoryNode) (row : Nat) :
    ∃ lane begun, Arrives lastRow parentOf lay node row lane begun ∧ lay.arrive lastRow parentOf row node =
        ({ lay with lineages := lay.lineages ++ begun, activeLanes := lay.activeLanes ++ begun }, lane) := by
  unfold arrive
  cases hpar : parentOf node.id with
  | none =>
    have hfree := leftmostFreeLaneFrom_free lay 0
    exact ⟨_, _, .root hpar hfree, Prod.ext (begin_of_free hfree) rfl⟩
  | some par =>
    dsimp only
    cases hlane : lay.childLane.get? node.id with
    | some lane => exact ⟨lane, [], .secondary hpar hlane, by simp⟩
    | none => exact ⟨_, [], .primary hpar hlane, by simp⟩

theorem place_placed (apath : List EntryId) (lastRow : HistoryNode → Nat) (parentOf : EntryId → Option EntryId) (lay : Layout)
    (node : HistoryNode) (row : Nat) : ∃ lane begun resvs,
      Placed apath lastRow parentOf lay node row lane begun resvs (lay.place apath lastRow parentOf (node, row)) := by
  obtain ⟨lane, begun, harrives, harrive⟩ := arrive_arrives lastRow parentOf lay node row
  unfold place
  dsimp only
  rw [harrive]
  obtain ⟨resvs, hfold, hkids, hapart⟩ := reserve_foldl lastRow row lane (primaryChildOf apath node.children) node.children.reverse
    { lay with
      lineages := lay.lineages ++ begun
      activeLanes := lay.activeLanes ++ begun
      nodeLane := lay.nodeLane.set node.id lane
      nodes := lay.nodes ++ [⟨node, lane, row, apath.contains node.id⟩] }
  rw [hfold]
  exact ⟨lane, begun, resvs, harrives, rfl, rfl, rfl, rfl, rfl, rfl, hkids, hapart⟩

end PiBridge.Viewmodel.Layout
