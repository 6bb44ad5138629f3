import PiBridge.Viewmodel.Tree

/-!
# `Viewmodel.Collapse` — collapsing superseded turns loses nothing

One sibling list keeps its nodes but those that are folded, and each that stays has only been given turns
(`mem_collapseSiblings`, `stays_collapseSiblings`); the ids are the same (`ids_collapseSiblings`), and only its last node may
be a dead end, so that a second pass finds nothing to fold (`collapseSiblings_again`). The tree follows by induction.
-/

namespace PiBridge.Viewmodel

open Chord List Forest

section

variable {keepVisible : List EntryId}

/-! ## Ids -/

theorem Forest.ids_append (a b : Forest) : (a ++ b : Forest).ids = a.ids ++ b.ids := by
  induction a with
  | nil => rfl
  | cons node ns ih =>
    have : ids (node :: (ns ++ b)) = node.ids ++ ids (ns ++ b) := rfl
    rw [cons_append, this, ih, ← append_assoc]
    rfl

theorem Forest.ids_singleton (node : HistoryNode) : Forest.ids [node] = node.ids := append_nil _

theorem ids_supersedes (node : HistoryNode) (run : Forest) : (node.supersedes run).ids.Perm (node.ids ++ run.ids) := by
  obtain ⟨turn, kids, sup⟩ := node
  have hids : (HistoryNode.node turn kids (sup ++ run)).ids = turn.id :: (ids (sup ++ run) ++ ids kids) := rfl
  have hnode : (HistoryNode.node turn kids sup).ids = turn.id :: (ids sup ++ ids kids) := rfl
  rw [HistoryNode.supersedes, hids, hnode, ids_append, cons_append, append_assoc, append_assoc]
  have hswap : (run.ids ++ ids kids).Perm (ids kids ++ run.ids) := perm_append_comm
  exact (hswap.append_left _).cons _

/-! ## One sibling list -/

namespace Collapsing

/-- What stays is not superseded, and what awaits a node is. -/
structure Sorts (keepVisible : List EntryId) (collapsing : Collapsing) : Prop where
  result : ∀ node ∈ collapsing.result, superseded keepVisible node = false
  run : ∀ node ∈ collapsing.run, superseded keepVisible node = true

theorem superseded_supersedes (node : HistoryNode) (run : Forest) :
    superseded keepVisible (node.supersedes run) = superseded keepVisible node := by cases node; rfl

theorem supersedes_nil (node : HistoryNode) : node.supersedes [] = node := by
  cases node
  rw [HistoryNode.supersedes, append_nil]

variable {collapsing : Collapsing} {sib : HistoryNode}

/-- A sibling that is kept is given the run, which may be empty. -/
theorem step_of_kept (h : superseded keepVisible sib = false) :
    collapsing.step keepVisible sib = ⟨collapsing.result ++ [sib.supersedes collapsing.run], []⟩ := by
  obtain ⟨res, run⟩ := collapsing
  rw [step, h, if_neg Bool.false_ne_true]
  split_ifs with hrun
  · rfl
  · obtain rfl := not_not.mp hrun
    rw [supersedes_nil]

theorem step_of_superseded (h : superseded keepVisible sib = true) :
    collapsing.step keepVisible sib = { collapsing with run := collapsing.run ++ [sib] } := if_pos h

theorem Sorts.step {collapsing : Collapsing} (h : collapsing.Sorts keepVisible) (sib : HistoryNode) :
    (collapsing.step keepVisible sib).Sorts keepVisible := by
  cases hsib : superseded keepVisible sib with
  | true =>
    rw [step_of_superseded hsib]
    refine ⟨h.result, ?_⟩
    intro node hnode
    rcases mem_append.mp hnode with hnode | hnode
    · exact h.run node hnode
    · rwa [mem_singleton.mp hnode]
  | false =>
    rw [step_of_kept hsib]
    refine ⟨?_, nofun⟩
    intro node hnode
    rcases mem_append.mp hnode with hnode | hnode
    · exact h.result node hnode
    · rwa [mem_singleton.mp hnode, superseded_supersedes]

theorem Sorts.foldl (h : collapsing.Sorts keepVisible) (siblings : Forest) :
    (siblings.foldl (Collapsing.step keepVisible) collapsing).Sorts keepVisible := by
  induction siblings generalizing collapsing with
  | nil => exact h
  | cons sib siblings ih => exact ih (h.step sib)

/-- What the loop keeps comes from the siblings before. -/
structure Comes (collapsing : Collapsing) (done : Forest) : Prop where
  result : ∀ node ∈ collapsing.result, ∃ sibling ∈ done, ∃ run, node = sibling.supersedes run
  run : ∀ node ∈ collapsing.run, node ∈ done

theorem Comes.none : Comes {} [] := ⟨nofun, nofun⟩

theorem Comes.step {collapsing : Collapsing} {done : Forest} (h : collapsing.Comes done) (keepVisible : List EntryId) (sib : HistoryNode) :
    (collapsing.step keepVisible sib).Comes (done ++ [sib]) := by
  have hres : ∀ node ∈ collapsing.result, ∃ oth ∈ done ++ [sib], ∃ run, node = oth.supersedes run := by
    intro node hnode
    obtain ⟨org, horigin, hrest⟩ := h.result node hnode
    exact ⟨org, mem_append_left _ horigin, hrest⟩
  have hhere : sib ∈ done ++ [sib] := mem_append_right _ (mem_singleton_self _)
  cases hsib : superseded keepVisible sib with
  | true =>
    rw [step_of_superseded hsib]
    refine ⟨hres, ?_⟩
    intro node hnode
    rcases mem_append.mp hnode with hnode | hnode
    · exact mem_append_left _ (h.run node hnode)
    · rwa [mem_singleton.mp hnode]
  | false =>
    rw [step_of_kept hsib]
    refine ⟨?_, nofun⟩
    intro node hnode
    rcases mem_append.mp hnode with hnode | hnode
    · exact hres node hnode
    · exact ⟨sib, hhere, _, mem_singleton.mp hnode⟩

theorem Comes.foldl {done : Forest} (h : collapsing.Comes done) (keepVisible : List EntryId) (siblings : Forest) :
    (siblings.foldl (Collapsing.step keepVisible) collapsing).Comes (done ++ siblings) := by
  induction siblings generalizing collapsing done with
  | nil => rwa [append_nil]
  | cons sib siblings ih =>
    have := ih (h.step keepVisible sib)
    rwa [append_assoc, singleton_append] at this

section

variable (collapsing)

theorem ids_step (sib : HistoryNode) :
    (Forest.ids (collapsing.step keepVisible sib).result ++ Forest.ids (collapsing.step keepVisible sib).run).Perm
      (Forest.ids collapsing.result ++ Forest.ids collapsing.run ++ sib.ids) := by
  cases hsib : superseded keepVisible sib with
  | true => rw [step_of_superseded hsib, ids_append, ids_singleton, append_assoc]
  | false =>
    rw [step_of_kept hsib, ids_append, ids_singleton, append_assoc, append_assoc]
    refine Perm.append_left _ ?_
    have hnil : ids [] = [] := rfl
    rw [hnil, append_nil]
    exact (ids_supersedes sib _).trans perm_append_comm

theorem ids_foldl (siblings : Forest) :
    (Forest.ids (siblings.foldl (Collapsing.step keepVisible) collapsing).result ++
      Forest.ids (siblings.foldl (Collapsing.step keepVisible) collapsing).run).Perm
      (Forest.ids collapsing.result ++ Forest.ids collapsing.run ++ Forest.ids siblings) := by
  induction siblings generalizing collapsing with
  | nil =>
    have hnil : ids [] = [] := rfl
    rw [hnil, append_nil]
    rfl
  | cons sib siblings ih =>
    refine (ih _).trans ?_
    have hcons : ids (sib :: siblings) = sib.ids ++ ids siblings := rfl
    rw [hcons, ← append_assoc]
    exact (ids_step collapsing sib).append_right _

theorem finish_concat (res rest : Forest) (last : HistoryNode) : finish ⟨res, rest ++ [last]⟩ = res ++ [last.supersedes rest] := by
  simp [finish]

theorem ids_finish :
    (Forest.ids collapsing.finish).Perm (Forest.ids collapsing.result ++ Forest.ids collapsing.run) := by
  obtain ⟨res, run⟩ := collapsing
  rcases eq_nil_or_concat run with rfl | ⟨rest, last, rfl⟩
  · exact .of_eq (append_nil _).symm
  · rw [concat_eq_append, finish_concat, ids_append, ids_append, ids_singleton, ids_singleton]
    exact Perm.append_left _ ((ids_supersedes last rest).trans perm_append_comm)

end

theorem Comes.finish {done : Forest} (h : collapsing.Comes done) :
    ∀ node ∈ collapsing.finish, ∃ sib ∈ done, ∃ run, node = sib.supersedes run := by
  obtain ⟨res, run⟩ := collapsing
  rcases eq_nil_or_concat run with rfl | ⟨rest, last, rfl⟩
  · exact h.result
  · rw [concat_eq_append] at h ⊢
    rw [finish_concat]
    intro node hnode
    rcases mem_append.mp hnode with hnode | hnode
    · exact h.result node hnode
    · exact ⟨last, h.run last (mem_append_right _ (mem_singleton_self _)), rest, mem_singleton.mp hnode⟩

end Collapsing

open Collapsing

theorem ids_collapseSiblings (keepVisible : List EntryId) (siblings : Forest) : (Forest.ids (collapseSiblings keepVisible siblings)).Perm (Forest.ids siblings) :=
  (ids_finish _).trans (ids_foldl {} siblings)

variable {siblings : Forest} {node : HistoryNode} {roots : Forest}

/-- A node that stays is one of the siblings, with turns. -/
theorem mem_collapseSiblings (h : node ∈ collapseSiblings keepVisible siblings) : ∃ sib ∈ siblings, ∃ run, node = sib.supersedes run := by
  have hcomes := (Comes.none.foldl keepVisible siblings).finish
  rw [nil_append] at hcomes
  exact hcomes node h

theorem result_sub_finish {collapsing : Collapsing} (h : node ∈ collapsing.result) : node ∈ collapsing.finish := by
  obtain ⟨res, run⟩ := collapsing
  rcases eq_nil_or_concat run with rfl | ⟨rest, last, rfl⟩
  · exact h
  · rw [concat_eq_append, finish_concat]
    exact mem_append_left _ h

theorem result_sub_foldl {collapsing : Collapsing} (h : node ∈ collapsing.result) :
    node ∈ (siblings.foldl (Collapsing.step keepVisible) collapsing).result := by
  induction siblings generalizing collapsing with
  | nil => exact h
  | cons sib siblings ih =>
    apply ih
    cases hsib : superseded keepVisible sib with
    | true => rwa [step_of_superseded hsib]
    | false =>
      rw [step_of_kept hsib]
      exact mem_append_left _ h

/-- A sibling that is not superseded stays, with turns. -/
theorem stays_collapseSiblings (hmem : sib ∈ siblings)
    (hkept : superseded keepVisible sib = false) : ∃ run, sib.supersedes run ∈ collapseSiblings keepVisible siblings := by
  obtain ⟨bef, aft, rfl⟩ := append_of_mem hmem
  rw [collapseSiblings, foldl_append, foldl_cons, step_of_kept hkept]
  exact ⟨_, result_sub_finish (result_sub_foldl (mem_append_right _ (mem_singleton_self _)))⟩

/-- The nodes that stay, of which only the last may be superseded. -/
theorem collapseSiblings_shape (keepVisible : List EntryId) (siblings : Forest) : ∃ kept last, collapseSiblings keepVisible siblings = kept ++ last ∧ last.length ≤ 1 ∧
    (∀ node ∈ kept, superseded keepVisible node = false) ∧ ∀ node ∈ last, superseded keepVisible node = true := by
  have hnil : Collapsing.Sorts keepVisible {} := ⟨nofun, nofun⟩
  have hsorts := hnil.foldl siblings
  rw [collapseSiblings]
  generalize siblings.foldl (Collapsing.step keepVisible) {} = collapsing at hsorts
  obtain ⟨res, run⟩ := collapsing
  rcases eq_nil_or_concat run with rfl | ⟨rest, final, rfl⟩
  · exact ⟨res, [], (append_nil _).symm, Nat.zero_le _, hsorts.result, nofun⟩
  · refine ⟨res, [final.supersedes rest], ?_, le_refl _, hsorts.result, ?_⟩
    · rw [concat_eq_append, finish_concat]
    · intro node hnode
      rw [mem_singleton.mp hnode, superseded_supersedes]
      exact hsorts.run final (by simp)

theorem foldl_kept {kept : Forest} (h : ∀ node ∈ kept, superseded keepVisible node = false) (res : Forest) :
    kept.foldl (Collapsing.step keepVisible) ⟨res, []⟩ = ⟨res ++ kept, []⟩ := by
  induction kept generalizing res with
  | nil => rw [append_nil]; rfl
  | cons node kept ih =>
    rw [foldl_cons, step_of_kept (h node mem_cons_self), supersedes_nil, ih fun oth hoth => h oth (mem_cons_of_mem _ hoth),
      append_assoc, singleton_append]

theorem collapseSiblings_again (siblings : Forest) :
    collapseSiblings keepVisible (collapseSiblings keepVisible siblings) = collapseSiblings keepVisible siblings := by
  obtain ⟨kept, last, hshape, hlen, hkept, hlast⟩ := collapseSiblings_shape keepVisible siblings
  rw [hshape, collapseSiblings, foldl_append, foldl_kept hkept]
  match last, hlen, hlast with
  | [], _, _ => exact (append_nil _).symm
  | [final], _, hlast =>
    rw [foldl_cons, foldl_nil, step_of_superseded (hlast final mem_cons_self), finish_concat, supersedes_nil]
    rfl

theorem collapseSiblings_ne_nil (h : siblings ≠ []) : collapseSiblings keepVisible siblings ≠ [] := by
  intro hnil
  have hids := ids_collapseSiblings keepVisible siblings
  rw [hnil] at hids
  cases siblings with
  | nil => exact h rfl
  | cons node siblings =>
    obtain ⟨turn, kids, sup⟩ := node
    exact absurd hids.length_eq (by simp [ids, HistoryNode.ids.all, HistoryNode.ids])

/-! ## The tree -/

theorem collapseNode_all (ns : Forest) : collapseNode.all keepVisible ns = ns.map (collapseNode keepVisible) := by
  induction ns with
  | nil => rfl
  | cons node ns ih => rw [map_cons, ← ih]; rfl

section

variable (node) (run : Forest)

theorem collapseNode_supersedes :
    collapseNode keepVisible (node.supersedes run) = (collapseNode keepVisible node).supersedes run := by cases node; rfl

theorem turn_collapsed : ((collapseNode keepVisible node).supersedes run).turn = node.turn := by
  cases node; rfl

theorem children_collapsed :
    ((collapseNode keepVisible node).supersedes run).children = collapseForest keepVisible node.children := by cases node; rfl

end

theorem superseded_collapseNode (node : HistoryNode) :
    superseded keepVisible (collapseNode keepVisible node) = superseded keepVisible node := by cases node; rfl

theorem ids_map {ns : Forest} {f : HistoryNode → HistoryNode} (h : ∀ node ∈ ns, (f node).ids.Perm node.ids) :
    (Forest.ids (ns.map f)).Perm (Forest.ids ns) := by
  induction ns with
  | nil => rfl
  | cons node ns ih =>
    exact (h node mem_cons_self).append (ih fun oth hoth => h oth (mem_cons_of_mem _ hoth))

theorem ids_collapseNode (node : HistoryNode) : (collapseNode keepVisible node).ids.Perm node.ids := by
  induction node with
  | node turn kids sup hkids _ =>
    refine Perm.cons _ (Perm.append_left _ ?_)
    refine (ids_collapseSiblings keepVisible _).trans ?_
    rw [collapseNode_all]
    exact ids_map hkids

theorem ids_collapseForest (roots : Forest) : (Forest.ids (collapseForest keepVisible roots)).Perm (Forest.ids roots) := by
  refine (ids_collapseSiblings keepVisible _).trans ?_
  rw [collapseNode_all]
  exact ids_map fun node _ => ids_collapseNode node

theorem collapseForest_ne_nil (h : roots ≠ []) : collapseForest keepVisible roots ≠ [] := by
  apply collapseSiblings_ne_nil
  rw [collapseNode_all]
  exact fun hnil => h (map_eq_nil_iff.mp hnil)

theorem mem_collapseForest (h : node ∈ collapseForest keepVisible roots) :
    ∃ org ∈ roots, ∃ run, node = (collapseNode keepVisible org).supersedes run := by
  obtain ⟨sib, hsib, run, rfl⟩ := mem_collapseSiblings h
  rw [collapseNode_all] at hsib
  obtain ⟨org, horigin, rfl⟩ := mem_map.mp hsib
  exact ⟨org, horigin, run, rfl⟩

theorem stays_collapseForest (hmem : node ∈ roots) (hkept : superseded keepVisible node = false) :
    ∃ run, (collapseNode keepVisible node).supersedes run ∈ collapseForest keepVisible roots := by
  apply stays_collapseSiblings
  · rw [collapseNode_all]
    exact mem_map_of_mem hmem
  · rwa [superseded_collapseNode]

/-- Every node of the collapsed tree comes from one with the same parent. -/
theorem At.origin {par : Option EntryId} (h : (collapseForest keepVisible roots).At par node) :
    ∃ org, roots.At par org ∧ ∃ run, node = (collapseNode keepVisible org).supersedes run := by
  induction h with
  | root hmem =>
    obtain ⟨org, horigin, hrun⟩ := mem_collapseForest hmem
    exact ⟨org, .root horigin, hrun⟩
  | child _ hch ih =>
    obtain ⟨org, horigin, run, rfl⟩ := ih
    rw [children_collapsed] at hch
    obtain ⟨child, hmem, hrun⟩ := mem_collapseForest hch
    refine ⟨child, ?_, hrun⟩
    rw [HistoryNode.id, turn_collapsed]
    exact .child horigin hmem

/-- A node that is not superseded stays below its parent, where dead ends have no children. -/
theorem At.stays {roots : Forest} (hdead : ∀ par node, roots.At par node → node.deadEnd = true → node.children = [])
    {par : Option EntryId} {node : HistoryNode} (h : roots.At par node) (hkept : superseded keepVisible node = false) :
    ∃ run, (collapseForest keepVisible roots).At par ((collapseNode keepVisible node).supersedes run) := by
  induction h with
  | root hmem =>
    obtain ⟨run, hstays⟩ := stays_collapseForest hmem hkept
    exact ⟨run, .root hstays⟩
  | @child par node ch hnode hch ih =>
    -- A node with a child is no dead end, so it stays.
    have halive : superseded keepVisible node = false := by
      cases hend : node.deadEnd with
      | true =>
        rw [hdead par node hnode hend] at hch
        cases hch
      | false => rw [superseded, hend, Bool.false_and]
    obtain ⟨run, hnode'⟩ := ih halive
    obtain ⟨turns, hstays⟩ := stays_collapseForest hch hkept
    rw [← children_collapsed node run] at hstays
    have hat := At.child hnode' hstays
    rw [HistoryNode.id, turn_collapsed] at hat
    exact ⟨turns, hat⟩

theorem collapseForest_again_of {ns : Forest}
    (h : ∀ node ∈ ns, collapseNode keepVisible (collapseNode keepVisible node) = collapseNode keepVisible node) :
    collapseForest keepVisible (collapseForest keepVisible ns) = collapseForest keepVisible ns := by
  have hmap : (collapseForest keepVisible ns).map (collapseNode keepVisible) = collapseForest keepVisible ns := by
    refine (map_congr_left ?_).trans (map_id _)
    intro node hnode
    obtain ⟨org, horigin, run, rfl⟩ := mem_collapseForest hnode
    rw [collapseNode_supersedes, h org horigin, id]
  rw [collapseForest, collapseNode_all, hmap]
  exact collapseSiblings_again _

theorem collapseNode_again (node : HistoryNode) :
    collapseNode keepVisible (collapseNode keepVisible node) = collapseNode keepVisible node := by
  induction node with
  | node turn kids sup hkids _ =>
    exact congrArg (HistoryNode.node turn · sup) (collapseForest_again_of hkids)

theorem collapseForest_again (roots : Forest) :
    collapseForest keepVisible (collapseForest keepVisible roots) = collapseForest keepVisible roots :=
  collapseForest_again_of fun node _ => collapseNode_again node

end

/-- Collapse superseded dead-end sibling runs into the following node. -/
def collapseSuperseded (tree : HistoryTree) (keepVisible : List EntryId) : HistoryTree where
  roots := collapseForest keepVisible tree.roots
  ids_nodup := (ids_collapseForest tree.roots).nodup_iff.mpr tree.ids_nodup
  deadEnds := by
    intro parent node hnode hend
    obtain ⟨origin, horigin, run, rfl⟩ := At.origin hnode
    rw [HistoryNode.deadEnd, turn_collapsed] at hend
    rw [children_collapsed, tree.deadEnds parent origin horigin hend]
    rfl

variable {id : EntryId}

theorem Forest.mem_ids_iff {forest : Forest} : id ∈ forest.ids ↔ ∃ node ∈ forest, id ∈ node.ids := by
  induction forest with
  | nil => simp [ids, HistoryNode.ids.all]
  | cons node forest ih =>
    have hcons : ids (node :: forest) = node.ids ++ ids forest := rfl
    simp only [hcons, mem_append, ih, mem_cons, exists_eq_or_imp]

theorem HistoryNode.mem_ids {node : HistoryNode} :
    id ∈ node.ids ↔ node.id = id ∨ id ∈ Forest.ids node.supersededTurns ∨ id ∈ Forest.ids node.children := by
  obtain ⟨turn, kids, sup⟩ := node
  have hids : (HistoryNode.node turn kids sup).ids = turn.id :: (Forest.ids sup ++ Forest.ids kids) := rfl
  rw [hids, mem_cons, mem_append, eq_comm]
  rfl

/-- An id of a forest is that of a node, or of a turn folded into one. -/
theorem Forest.mem_ids {forest : Forest} :
    id ∈ forest.ids ↔ ∃ par node, forest.At par node ∧ (node.id = id ∨ id ∈ Forest.ids node.supersededTurns) := by
  constructor
  · intro h
    have hbel : ∀ (node : HistoryNode) (par : Option EntryId), forest.At par node → id ∈ node.ids →
        ∃ par node, forest.At par node ∧ (node.id = id ∨ id ∈ ids node.supersededTurns) := by
      intro node
      induction node with
      | node turn kids sup hkids _ =>
        intro par hat hid
        rcases HistoryNode.mem_ids.1 hid with hid | hid | hid
        · exact ⟨par, _, hat, .inl hid⟩
        · exact ⟨par, _, hat, .inr hid⟩
        · obtain ⟨child, hch, hid⟩ := mem_ids_iff.1 hid
          exact hkids child hch _ (.child hat hch) hid
    obtain ⟨node, hnode, hid⟩ := mem_ids_iff.1 h
    exact hbel node none (.root hnode) hid
  · rintro ⟨par, node, hat, hid⟩
    have habv : ∀ id ∈ node.ids, id ∈ forest.ids := by
      clear hid
      induction hat with
      | root hmem => exact fun id hid => mem_ids_iff.2 ⟨_, hmem, hid⟩
      | child _ hch ih =>
        exact fun id hid => ih id (HistoryNode.mem_ids.2 (.inr (.inr (mem_ids_iff.2 ⟨_, hch, hid⟩))))
    exact habv id (HistoryNode.mem_ids.2 (hid.imp_right .inl))

/-- Collapsing loses nothing: every id is there once, what is kept visible or no dead end stays below its parent, siblings do
    not vanish, and collapsing again changes nothing. -/
theorem collapse_loses_nothing (tree : HistoryTree) (keepVisible : List EntryId) :
    ((collapseSuperseded tree keepVisible).roots.ids.Perm tree.roots.ids ∧
      ∀ id ∈ tree.roots.ids, (collapseSuperseded tree keepVisible).roots.ids.count id = 1 ∧
        ∃ parent node, (collapseSuperseded tree keepVisible).roots.At parent node ∧ (node.id = id ∨ id ∈ Forest.ids node.supersededTurns)) ∧
    (∀ parent node, tree.roots.At parent node → node.id ∈ keepVisible ∨ node.deadEnd = false →
      ∃ node', (collapseSuperseded tree keepVisible).roots.At parent node' ∧ node'.turn = node.turn) ∧
    ((tree.roots ≠ [] → (collapseSuperseded tree keepVisible).roots ≠ []) ∧ ∀ parent node, tree.roots.At parent node → node.children ≠ [] →
        ∃ node', (collapseSuperseded tree keepVisible).roots.At parent node' ∧ node'.turn = node.turn ∧ node'.children ≠ []) ∧
    collapseSuperseded (collapseSuperseded tree keepVisible) keepVisible = collapseSuperseded tree keepVisible := by
  have hperm : (collapseSuperseded tree keepVisible).roots.ids.Perm tree.roots.ids := ids_collapseForest tree.roots
  refine ⟨⟨hperm, ?_⟩, ?_, ⟨collapseForest_ne_nil, ?_⟩, ?_⟩
  · intro id hid
    rw [hperm.count_eq]
    exact ⟨count_eq_one_of_mem tree.ids_nodup hid, mem_ids.1 (hperm.mem_iff.mpr hid)⟩
  · intro parent node hnode hkept
    have hstays : superseded keepVisible node = false := by
      rcases hkept with hkept | hkept <;> simp [superseded, hkept]
    obtain ⟨run, hat⟩ := At.stays tree.deadEnds hnode hstays
    exact ⟨_, hat, turn_collapsed node run⟩
  · intro parent node hnode hchildren
    have hstays : superseded keepVisible node = false := by
      cases hend : node.deadEnd with
      | true => exact absurd (tree.deadEnds parent node hnode hend) hchildren
      | false => rw [superseded, hend, Bool.false_and]
    obtain ⟨run, hat⟩ := At.stays tree.deadEnds hnode hstays
    refine ⟨_, hat, turn_collapsed node run, ?_⟩
    rw [children_collapsed]
    exact collapseForest_ne_nil hchildren
  · exact HistoryTree.ext (collapseForest_again tree.roots)

end PiBridge.Viewmodel
