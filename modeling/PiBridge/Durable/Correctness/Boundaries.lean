import PiBridge.Durable.Correctness.InboxAgreement

/-!
# `Durable.Correctness.Boundaries` — what a boundary selects, places, and leaves

The positions a boundary computes are those of every write and of the chosen user items (`atPositions_selectUsers`), so
the items it leaves are exactly the others (`applyBoundary_places`).
-/

namespace PiBridge.Durable

open Lib List Function

variable {V O : Type}

namespace InboxTx

variable {base : Storage V O} {tx tx' : InboxTx V O} {items : List (InboxItem V)} {bdry : Boundary} {final : Bool} {mode : UserMode}

/-! ## Selection -/

/-- The user items of a mode a boundary chooses: the first, or all. -/
def chosen (items : List (InboxItem V)) (mode : UserMode) (queueMode : QueueMode) : List (InboxItem V) :=
  if queueMode = .all then items.filter (InboxItem.isMode mode) else (items.filter (InboxItem.isMode mode)).take 1

/-- The user items a boundary chooses. -/
def chosenUsers (items : List (InboxItem V)) (boundary : Boundary) (final : Bool) : List (InboxItem V) :=
  chosen items .steer boundary.steeringMode ++ if final then chosen items .followUp boundary.followUpMode else []

theorem pick_sublist (items : List (InboxItem V)) (mode : UserMode) (queueMode : QueueMode) :
    (pick items mode queueMode).Sublist (positions (InboxItem.isMode mode) items) := by
  unfold pick
  split
  · exact Sublist.refl _
  · exact take_sublist ..

theorem atPositions_pick (items : List (InboxItem V)) (mode : UserMode) (queueMode : QueueMode) :
    atPositions items (pick items mode queueMode) = chosen items mode queueMode := by
  unfold pick chosen
  split
  · exact atPositions_positions ..
  · rw [atPositions_take, atPositions_positions]
    intro i hi
    obtain ⟨x, hx, -⟩ := lt_of_mem_positions hi
    rw [hx]
    rfl

theorem mem_selectUsers {i : Nat} (h : i ∈ selectUsers items bdry final) : ∃ item, items[i]? = some item ∧ item.isWrite = false := by
  have hmode : ∀ mode, i ∈ positions (InboxItem.isMode mode) items → ∃ item, items[i]? = some item ∧ item.isWrite = false := by
    intro mode hi
    obtain ⟨item, hitem, hmode⟩ := lt_of_mem_positions hi
    cases item with
    | user => exact ⟨_, hitem, rfl⟩
    | write => cases hmode
  unfold selectUsers at h
  rw [mem_mergeSort, mem_append] at h
  obtain hsteer | hfollow := h
  · exact hmode .steer ((pick_sublist items ..).subset hsteer)
  · split at hfollow
    · exact hmode .followUp ((pick_sublist items ..).subset hfollow)
    · cases hfollow

section

variable (items)

theorem nodup_pick (mode : UserMode) (queueMode : QueueMode) : (pick items mode queueMode).Nodup :=
  (((positions_sorted _ items).imp fun hlt => Nat.ne_of_lt hlt).sublist (pick_sublist items mode queueMode) : Pairwise _ _)

/-- No position is that of a steer and of a follow-up. -/
theorem nodup_selected (bdry : Boundary) (final : Bool) :
    (pick items .steer bdry.steeringMode ++ if final then pick items .followUp bdry.followUpMode else []).Nodup := by
  refine nodup_append.mpr ⟨nodup_pick .., ?_, fun i hi j hj heq => ?_⟩
  · split
    · exact nodup_pick ..
    · exact nodup_nil
  · subst heq
    split at hj
    · obtain ⟨item, hitem, hsteer⟩ := lt_of_mem_positions ((pick_sublist items ..).subset hi)
      have hfollow := (mem_positions hitem).mp ((pick_sublist items ..).subset hj)
      cases item with
      | write => cases hsteer
      | user id oth cont e =>
        have hsteer' : oth = .steer := of_decide_eq_true hsteer
        have hfollow' : oth = .followUp := of_decide_eq_true hfollow
        rw [hsteer'] at hfollow'
        cases hfollow'
    · cases hj

theorem selectUsers_sorted (bdry : Boundary) (final : Bool) :
    (selectUsers items bdry final).Pairwise (· < ·) := by
  have hsrt : ((pick items .steer bdry.steeringMode ++ if final then pick items .followUp bdry.followUpMode else []).mergeSort).Pairwise
      fun a b => decide (a ≤ b) = true :=
    pairwise_mergeSort (by intro a b c; simp; omega) (by intro a b; simp; omega) _
  have hnd := (mergeSort_perm (pick items .steer bdry.steeringMode ++ if final then pick items .followUp bdry.followUpMode else [])
    (fun a b : Nat => decide (a ≤ b))).nodup_iff.mpr (nodup_selected items bdry final)
  exact (hsrt.and hnd).imp fun h => Nat.lt_of_le_of_ne (of_decide_eq_true h.1) h.2

end

/-- What is read at a permutation of positions. -/
theorem mem_atPositions_perm {α : Type} {xs : List α} {is js : List Nat} (h : is.Perm js) (x : α) : x ∈ atPositions xs is ↔ x ∈ atPositions xs js :=
  (h.filterMap _).mem_iff

/-- **The items at the positions selected** are the chosen ones, in the order of the queue. -/
theorem atPositions_selectUsers (hnd : (items.map (·.id)).Nodup) (bdry : Boundary) (final : Bool) :
    atPositions items (selectUsers items bdry final) =
      items.filter fun item => decide (item.id ∈ (chosenUsers items bdry final).map (·.id)) := by
  have hsub : (atPositions items (selectUsers items bdry final)).Sublist items := atPositions_sublist (selectUsers_sorted items bdry final)
  rw [eq_filter_of_sublist InboxItem.id hsub hnd]
  refine filter_congr fun item _ => ?_
  have hmem : ∀ x, x ∈ atPositions items (selectUsers items bdry final) ↔ x ∈ chosenUsers items bdry final := by
    intro x
    unfold selectUsers chosenUsers
    rw [mem_atPositions_perm (mergeSort_perm ..), atPositions_append, mem_append, mem_append, atPositions_pick]
    split
    · rw [atPositions_pick]
    · rfl
  have hids : item.id ∈ (atPositions items (selectUsers items bdry final)).map InboxItem.id ↔
      item.id ∈ (chosenUsers items bdry final).map InboxItem.id := by
    simp only [mem_map, hmem]
  exact decide_eq_decide.mpr hids

/-- What removing a boundary's positions leaves. -/
theorem eraseAt_selected (hnd : (items.map (·.id)).Nodup) (bdry : Boundary) (final : Bool) :
    eraseAt items ((positions InboxItem.isWrite items ++ selectUsers items bdry final).mergeSort (· ≥ ·)) =
      items.filter fun item => decide (item.id ∉ (atPositions items (positions InboxItem.isWrite items) ++
        atPositions items (selectUsers items bdry final)).map (·.id)) := by
  have hperm := mergeSort_perm (positions InboxItem.isWrite items ++ selectUsers items bdry final) (fun a b : Nat => decide (a ≥ b))
  have hdist : (positions InboxItem.isWrite items ++ selectUsers items bdry final).Nodup := by
    refine nodup_append.mpr ⟨(positions_sorted _ items).imp fun hlt => Nat.ne_of_lt hlt,
      (selectUsers_sorted ..).imp fun hlt => Nat.ne_of_lt hlt, fun i hi j hj heq => ?_⟩
    subst heq
    obtain ⟨item, hitem, huser⟩ := mem_selectUsers hj
    have hwrite := (mem_positions hitem).mp hi
    rw [huser] at hwrite
    cases hwrite
  have hsrt : ((positions InboxItem.isWrite items ++ selectUsers items bdry final).mergeSort (· ≥ ·)).Pairwise
      fun a b => decide (a ≥ b) = true :=
    pairwise_mergeSort (by intro a b c; simp; omega) (by intro a b; simp; omega) _
  have hdescending := (hsrt.and (hperm.nodup_iff.mpr hdist)).imp
    fun {a b : Nat} (h : decide (a ≥ b) = true ∧ a ≠ b) => (Nat.lt_of_le_of_ne (of_decide_eq_true h.1) (Ne.symm h.2) : a > b)
  rw [eraseAt_eq_filter InboxItem.id hdescending (fun i hi => ?_) hnd]
  · refine filter_congr fun item _ => decide_eq_decide.mpr (not_congr ?_)
    simp only [mem_map, mem_atPositions_perm hperm, atPositions_append]
  · obtain hwrite | huser := mem_append.mp (hperm.mem_iff.mp hi)
    · obtain ⟨item, hitem, -⟩ := lt_of_mem_positions hwrite
      exact (List.getElem?_eq_some_iff.mp hitem).1
    · obtain ⟨item, hitem, -⟩ := mem_selectUsers huser
      exact (List.getElem?_eq_some_iff.mp hitem).1

/-! ## What a boundary does to the commit -/

variable (input : V → Option (InputEntry V) → Nat → V)

/-- Whether a boundary selects follow-ups. -/
def isFinal (items : List (InboxItem V)) (at_ : BoundaryAt) : Bool := at_ = .final || hasQueuedReset items

/-- The commit once the selected items are placed, and the first entry placed. -/
def placed (tx : InboxTx V O) (boundary : Boundary) (at_ : BoundaryAt) (now : Nat) : InboxTx V O × Option EntryId :=
  let items := tx.inbox boundary.conversationId
  let written := (atPositions items (positions InboxItem.isWrite items)).foldl (placeWrite boundary.conversationId) (tx, boundary.head, none)
  (atPositions items (selectUsers items boundary (isFinal items at_))).foldl (placeUser input boundary.conversationId now) (written.1, written.2.2)

/-- The submissions a boundary changes. -/
def selectedIds (items : List (InboxItem V)) (boundary : Boundary) (at_ : BoundaryAt) : List SubmissionId :=
  (atPositions items (positions InboxItem.isWrite items) ++ atPositions items (selectUsers items boundary (isFinal items at_))).map (·.id)

theorem applyBoundary_eq (tx : InboxTx V O) (bdry : Boundary) (at_ : BoundaryAt) (now : Nat) : tx.applyBoundary input bdry at_ now =
      ((placed input tx bdry at_ now).1.setItems bdry.conversationId (eraseAt (tx.inbox bdry.conversationId)
        ((positions InboxItem.isWrite (tx.inbox bdry.conversationId) ++
          selectUsers (tx.inbox bdry.conversationId) bdry (isFinal (tx.inbox bdry.conversationId) at_)).mergeSort (· ≥ ·))),
        ⟨(atPositions (tx.inbox bdry.conversationId) (selectUsers (tx.inbox bdry.conversationId) bdry
          (isFinal (tx.inbox bdry.conversationId) at_))).map (·.id), (placed input tx bdry at_ now).2,
          hasQueuedReset (tx.inbox bdry.conversationId)⟩) := rfl

theorem placed_places (tx : InboxTx V O) (bdry : Boundary) (at_ : BoundaryAt) (now : Nat) :
    Places tx (placed input tx bdry at_ now).1 (selectedIds (tx.inbox bdry.conversationId) bdry at_) := by
  unfold selectedIds
  rw [map_append]
  refine Places.trans (placeWrites_places _ (fun item hitem => ?_) tx bdry.head none) (placeUsers_places input _ now (fun item hitem => ?_) _ _)
  · rw [atPositions_positions] at hitem
    exact (mem_filter.mp hitem).2
  · obtain ⟨i, hi, hat⟩ := mem_atPositions.mp hitem
    obtain ⟨same, hsame, huser⟩ := mem_selectUsers hi
    rw [hat] at hsame
    exact Option.some.inj hsame ▸ huser

theorem selectedIds_subset {items : List (InboxItem V)} {at_ : BoundaryAt} {id : SubmissionId} (h : id ∈ selectedIds items bdry at_) :
    id ∈ items.map (·.id) := by
  obtain ⟨item, hitem, rfl⟩ := mem_map.mp h
  have hread : ∀ is, item ∈ atPositions items is → item ∈ items := by
    intro is hin
    obtain ⟨i, -, hat⟩ := mem_atPositions.mp hin
    exact mem_of_getElem? hat
  exact mem_map_of_mem ((mem_append.mp hitem).elim (hread _) (hread _))

/-- **A boundary keeps the agreement**, and what it placed is not queued. -/
theorem Sound.applyBoundary (h : Sound base tx) (bdry : Boundary) (at_ : BoundaryAt) (now : Nat) :
    Sound base (tx.applyBoundary input bdry at_ now).1 ∧
    NotQueued (tx.applyBoundary input bdry at_ now).1 (tx.applyBoundary input bdry at_ now).2.users ∧
    (tx.applyBoundary input bdry at_ now).1.live = tx.live ∧
    ∃ ids, Stages tx (tx.applyBoundary input bdry at_ now).1 ids := by
  rw [applyBoundary_eq]
  have hplaces := placed_places input tx bdry at_ now
  generalize (placed input tx bdry at_ now).1 = after at hplaces ⊢
  have hstgs : Stages tx (after.setItems bdry.conversationId (eraseAt (tx.inbox bdry.conversationId)
      ((positions InboxItem.isWrite (tx.inbox bdry.conversationId) ++
        selectUsers (tx.inbox bdry.conversationId) bdry (isFinal (tx.inbox bdry.conversationId) at_)).mergeSort (· ≥ ·))))
      (selectedIds (tx.inbox bdry.conversationId) bdry at_) :=
    { hplaces with }
  refine ⟨h.stage hstgs (fun view hagree id => ?_) (fun id run hrun => .inl ⟨run, hplaces.live ▸ hrun, fun _ hin => hin⟩), ?_,
    hplaces.live, _, hstgs⟩
  · show update after.inbox bdry.conversationId _ id = _
    by_cases heq : id = bdry.conversationId
    · subst heq
      rw [update_self]
      exact eraseAt_selected (hagree.nodup _) bdry _
    · rw [update_of_ne heq, hplaces.inbox]
      refine (filter_none fun item hitem hin => heq ?_).symm
      exact hagree.apart (mem_map_of_mem hitem) (selectedIds_subset hin)
  · intro res hreso id hid
    refine hstgs.notQueued res hreso id ?_
    unfold selectedIds
    rw [map_append]
    exact mem_append_right _ hid

end InboxTx

end PiBridge.Durable
