import PiBridge.Session.Correctness.BranchedContexts
import PiBridge.Session.Correctness.Sessions

/-!
# `Session.Correctness.BranchedSessions` — what a branched session preserves

The path to an entry is what its ID leads to (`Leads`). The entries of a branched session are linked one below the other, so
the path to its last entry is all of them; with `projection_retained` it shows its model the same (`branched_preserves`).
That edits stay with their targets needs an invariant of runs: the target of an edit is above it (`EditsFound`).
-/

namespace PiBridge.Session

open Chord Lib List Assoc SessionManager

/-! ## Paths -/

section Paths

/-- The entry of an ID; an empty ID counts as none. -/
def lookup (byId : Assoc Text Json) (id : Option Text) : Option Json := (id.filter fun id => !id.isEmpty).bind (Assoc.get? byId)

/-- What an ID leads to: an entry and those above it. -/
inductive Leads (byId : Assoc Text Json) : Option Text → List Json → Prop
  | root {id : Option Text} (hnone : lookup byId id = none) : Leads byId id []
  | up {id : Option Text} {entry : Json} {above : List Json} (hentry : lookup byId id = some entry)
      (habove : Leads byId (parentId entry) above) : Leads byId id (entry :: above)

variable {byId : Assoc Text Json} {id : Option Text} {up up' : List Json} {nums : Numbers} {m : SessionManager}

namespace Leads

theorem unique (h : Leads byId id up) (h' : Leads byId id up') : up = up' := by
  induction h generalizing up' with
  | root hnone =>
    cases h' with
    | root => rfl
    | up hent => simp [hnone] at hent
  | up hent _ ih =>
    cases h' with
    | root hnone => simp [hnone] at hent
    | up hent' habv =>
      obtain rfl : _ = _ := Option.some.inj (hent.symm.trans hent')
      rw [ih habv]

theorem walk (h : Leads m.byId id up) {fuel : ℕ} (hfuel : up.length ≤ fuel) : m.walk fuel id = up := by
  induction h generalizing fuel with
  | root hnone =>
    cases fuel with
    | zero => rfl
    | succ fuel =>
      unfold lookup at hnone
      rw [SessionManager.walk, hnone]
  | up hent _ ih =>
    cases fuel with
    | zero => simp at hfuel
    | succ fuel =>
      unfold lookup at hent
      rw [SessionManager.walk, hent]
      exact congrArg (_ :: ·) (ih (by simpa using hfuel))

/-- A walk that the fuel does not end leads to the root. -/
theorem of_walk {fuel : ℕ} (h : (m.walk fuel id).length < fuel) : Leads m.byId id (m.walk fuel id) := by
  induction fuel generalizing id with
  | zero => simp at h
  | succ fuel ih =>
    unfold SessionManager.walk at h ⊢
    split at h
    · exact .root ‹_›
    · exact .up ‹_› (ih (by simpa using h))

theorem above {entry : Json} {bel above : List Json} (h : Leads byId id (bel ++ entry :: above)) : Leads byId (parentId entry) above := by
  induction bel generalizing id with
  | nil =>
    cases h with
    | up _ habv => exact habv
  | cons fst bel ih =>
    cases h with
    | up _ habv => exact ih habv

/-- Entries are found by their IDs. -/
theorem ids (h : Leads m.byId id up) {es : List Json} (hknows : m.Knows es) : ∀ entry ∈ up, entry ∈ es ∧ entryId entry ≠ [] := by
  induction h with
  | root => exact nofun
  | up hent _ ih =>
    rw [forall_mem_cons]
    refine ⟨?_, ih⟩
    obtain ⟨tgt, htgt, hget⟩ := Option.bind_eq_some_iff.mp hent
    obtain ⟨hmem, rfl⟩ := hknows _ _ hget
    exact ⟨hmem, by simpa using (Option.mem_filter_iff.mp (Option.mem_def.mpr htgt)).2⟩

end Leads

theorem lookup_some {id : Text} (hid : id ≠ []) : lookup byId (some id) = Assoc.get? byId id := by
  have hset : (!id.isEmpty) = true := by simpa using hid
  rw [lookup, Option.filter_some, if_pos hset, Option.bind_some]

/-- The walk of a session leads to the root. -/
theorem leads_walk (h : m.Shaped nums) (id : Option Text) : Leads m.byId id (m.walk m.byId.length id) := by
  cases hent : lookup m.byId id with
  | none =>
    have hwalk : m.walk m.byId.length id = [] := (Leads.root hent).walk (Nat.zero_le _)
    rw [hwalk]
    exact .root hent
  | some entry =>
    obtain ⟨tgt, htgt, hget⟩ := Option.bind_eq_some_iff.mp hent
    obtain rfl := (Option.mem_filter_iff.mp (Option.mem_def.mpr htgt)).1
    have hid : ∀ each ∈ some tgt, each ∈ (entriesOf m.fileEntries).map entryId := by
      rintro _ ⟨⟩
      rw [← h.mem_keys, ← has_iff, has, hget]
      rfl
    obtain ⟨hwithin, hnd⟩ := walk_within h.knows h.tree (m.byId.length + 1) (append_nil _).symm hid
    have hents : (entriesOf m.fileEntries).length ≤ m.byId.length := by
      have hsub := h.tree.ids.subperm fun id hid => (h.mem_keys id).mpr hid
      simpa using hsub.length_le
    have hlen : (m.walk (m.byId.length + 1) (some tgt)).length ≤ (entriesOf m.fileEntries).length := by
      have hsub := hnd.subperm fun id hid => by
        obtain ⟨entry, hmem, rfl⟩ := mem_map.mp hid
        exact mem_map_of_mem (f := entryId) (hwithin entry hmem)
      simpa using hsub.length_le
    have hlead : Leads m.byId (some tgt) (m.walk (m.byId.length + 1) (some tgt)) := .of_walk (by omega)
    rwa [hlead.walk (by omega)]

/-- The branch to an entry is what its ID leads to, from the root on. -/
theorem buildSessionPath_eq (h : m.Shaped nums) {id : Text} (hpath : m.getBranch (some id) ≠ []) :
    buildSessionPath m (some id) = m.getBranch (some id) := by
  have hlead := leads_walk h (some id)
  rw [getBranch, Option.some_or] at hpath ⊢
  cases hwalk : m.walk m.byId.length (some id) with
  | nil => simp [hwalk] at hpath
  | cons entry above =>
    rw [hwalk] at hlead
    cases hlead with
    | up hent habv =>
      obtain ⟨tgt, htgt, hget⟩ := Option.bind_eq_some_iff.mp hent
      obtain ⟨hid, hset⟩ := Option.mem_filter_iff.mp (Option.mem_def.mpr htgt)
      cases hid
      have hemp : id.isEmpty = false := by simpa using hset
      have habv' := (leads_walk h (parentId entry)).unique habv
      simp only [buildSessionPath, hemp, Bool.false_eq_true, if_false, hget, Option.some_or, habv', reverse_cons]

/-! ## Linked entries -/

/-- Each entry is below the one before it. -/
inductive Linked : List Json → Prop
  | nil : Linked []
  | concat {entries : List Json} {entry : Json} (h : Linked entries) (hparent : parentId entry = entries.getLast?.map entryId) :
      Linked (entries ++ [entry])

/-- An ID of linked entries leads to those up to it. -/
theorem Linked.leads {es : List Json} (h : Linked es)
    (hfnd : ∀ entry ∈ es, lookup byId (some (entryId entry)) = some entry) :
    Leads byId (es.getLast?.map entryId) es.reverse ∧
      ∀ bef entry aft, es = bef ++ entry :: aft → Leads byId (parentId entry) bef.reverse := by
  induction h with
  | nil => exact ⟨.root rfl, by simp⟩
  | @concat es last _ hpar ih =>
    obtain ⟨hlead, hinner⟩ := ih fun entry hent => hfnd entry (mem_append_left _ hent)
    rw [← hpar] at hlead
    refine ⟨?_, ?_⟩
    · rw [getLast?_concat, reverse_concat]
      exact .up (hfnd last (by simp)) hlead
    · intro bef entry aft heq
      rcases eq_nil_or_concat aft with rfl | ⟨aft, final, rfl⟩
      · obtain ⟨rfl, hlast⟩ := append_inj' heq rfl
        cases hlast
        exact hlead
      · rw [concat_eq_append, ← cons_append, ← append_assoc] at heq
        exact hinner bef entry aft (append_inj' heq rfl).1

variable {path : List Json} {entry : Json} {call : Call} {m' : SessionManager} {leafId : Text}

/-- What is retained of a path is linked. -/
theorem linked_retained (hpath : ∀ entry ∈ path, EntryRecord nums entry) (hids : (path.map entryId).Nodup) :
    Linked (path.foldl Retained.retain .start).pathWithoutLabels := by
  induction path using reverseRecOn with
  | nil => exact .nil
  | append_singleton path entry ih =>
    rw [map_append, nodup_append] at hids
    have hbef : ∀ each ∈ path, EntryRecord nums each := fun each heach => hpath each (mem_append_left _ heach)
    have hsound := retain_sound hbef hids.1
    rw [foldl_concat]
    generalize path.foldl Retained.retain .start = r at ih hsound
    unfold Retained.retain
    split
    · exact ih hbef hids.1
    · exact (ih hbef hids.1).concat ((rechained_spec (hpath entry (by simp)) r).2.2.trans hsound.parent)

/-- The labels of a branched session are linked below its path. -/
theorem linked_labels {uuids : UuidSource} (hpath : Linked path)
    (hids : ∀ entry ∈ path, entryId entry ≠ []) (labs : List LabelToWrite) {l : LabelEntries}
    (hl : labs.foldl (LabelEntries.addLabel uuids) ⟨path.map entryId, [], (path.getLast?.map entryId).filter fun id => !id.isEmpty⟩ = l) :
    Linked (path ++ l.entries) ∧ l.parentId = (path ++ l.entries).getLast?.map entryId ∧
      ∀ lab ∈ l.entries, isLabel lab = true ∧ ∃ used, entryId lab = generateId uuids used := by
  subst hl
  induction labs using reverseRecOn with
  | nil =>
    rw [foldl_nil, append_nil]
    refine ⟨hpath, ?_, nofun⟩
    cases hlast : path.getLast? with
    | none => rfl
    | some last =>
      have hset := hids last (mem_of_getLast? hlast)
      rw [Option.map_some, Option.filter_some, if_pos (by simpa using hset)]
  | append_singleton labs each ih =>
    rw [foldl_concat]
    generalize labs.foldl (LabelEntries.addLabel uuids) _ = l at ih
    obtain ⟨hlinked, hpar, hlabs⟩ := ih
    have hid := labelEntry_id each (generateId uuids l.pathEntryIds) l.parentId
    have hents : path ++ (l.addLabel uuids each).entries = path ++ l.entries ++ [each.entry (generateId uuids l.pathEntryIds) l.parentId] :=
      (append_assoc ..).symm
    rw [hents]
    refine ⟨hlinked.concat ((labelEntry_parentId ..).trans hpar), ?_, ?_⟩
    · rw [getLast?_concat, Option.map_some, hid]
      rfl
    · intro lab hlab
      rcases mem_snoc.mp hlab with hlab | rfl
      · exact hlabs lab hlab
      · rw [hid]
        exact ⟨by simp [LabelToWrite.entry, isLabel, entryType, textField], _, rfl⟩

theorem indexEntry_labels (idx : Index) (entry : Json) : (indexEntry idx entry).labelsById = idx.labelsById ∨
    isLabel entry = true ∧ (indexEntry idx entry).labelsById = match entryLabel entry with
      | some lab => set idx.labelsById (targetId entry) lab
      | none => erase idx.labelsById (targetId entry) := by
  unfold indexEntry
  split
  · exact .inl rfl
  · split
    · refine .inr ⟨‹_›, ?_⟩
      cases entryLabel entry <;> rfl
    · exact .inl rfl

/-- The labels in force are set, one for each entry. -/
theorem labels_buildIndex (recs : List Json) : ((buildIndex recs).labelsById.map Prod.fst).Nodup ∧
    ∀ lab ∈ (buildIndex recs).labelsById, lab.2 ≠ [] := by
  induction recs using reverseRecOn with
  | nil => exact ⟨nodup_nil, nofun⟩
  | append_singleton recs entry ih =>
    rw [buildIndex_concat]
    rcases indexEntry_labels (buildIndex recs) entry with hlabs | ⟨-, hlabs⟩
    · rwa [hlabs]
    · rw [hlabs]
      cases hlab : entryLabel entry with
      | none =>
        have hsub := erase_sublist (buildIndex recs).labelsById (targetId entry)
        exact ⟨(hsub.map _).nodup ih.1, fun lab hmem => ih.2 lab (hsub.subset hmem)⟩
      | some lab =>
        refine ⟨nodup_keys_set ih.1 _ _, fun each heach => ?_⟩
        rcases mem_set heach with heach | rfl
        · exact ih.2 each heach
        · simpa using (Option.mem_filter_iff.mp hlab).2

/-- The labels that are made for a branched session. -/
theorem labels_branched (m : SessionManager) (call : Call) (hpath : ∀ entry ∈ path, isLabel entry = false)
    (hkeys : (m.labelsById.map Prod.fst).Nodup) (hset : ∀ lab ∈ m.labelsById, lab.2 ≠ []) {header : Json}
    (hheader : isHeader header = true) : (buildIndex (header :: (path ++ m.branchedLabels call path))).labelsById =
      m.labelsById.filter fun lab => decide (lab.1 ∈ path.map entryId) := by
  have hplain : (buildIndex (header :: path)).labelsById = [] := by
    induction path using reverseRecOn with
    | nil => simp [buildIndex, indexEntry, hheader, Index.empty]
    | append_singleton path entry ih =>
      rw [← cons_append, buildIndex_concat]
      rcases indexEntry_labels (buildIndex (header :: path)) entry with hlabs | ⟨hlab, -⟩
      · rw [hlabs]
        exact ih fun each heach => hpath each (mem_append_left _ heach)
      · simp [hpath entry (by simp)] at hlab
  have hfold : ∀ (labs : List LabelToWrite) (l : LabelEntries), (labs.map (·.targetId)).Nodup → (∀ each ∈ labs, each.label ≠ []) →
      (buildIndex (header :: (path ++ (labs.foldl (LabelEntries.addLabel call.uuids) ⟨l.pathEntryIds, [], l.parentId⟩).entries))).labelsById =
        labs.map fun each => (each.targetId, each.label) := by
    intro labs l hnd hlabs
    induction labs using reverseRecOn with
    | nil => simpa using hplain
    | append_singleton labs each ih =>
      rw [map_append, nodup_append] at hnd
      have hbef := ih hnd.1 fun each heach => hlabs each (mem_append_left _ heach)
      rw [foldl_concat]
      generalize labs.foldl (LabelEntries.addLabel call.uuids) _ = l at hbef
      have hents : header :: (path ++ (l.addLabel call.uuids each).entries) =
          (header :: (path ++ l.entries)) ++ [each.entry (generateId call.uuids l.pathEntryIds) l.parentId] := by
        simp [LabelEntries.addLabel]
      have hlab := hlabs each (by simp)
      have hent : ∀ idx : Index, (indexEntry idx (each.entry (generateId call.uuids l.pathEntryIds) l.parentId)).labelsById =
          set idx.labelsById each.targetId each.label := by
        intro idx
        have hset : (!each.label.isEmpty) = true := by simpa using hlab
        simp [indexEntry, isHeader, isLabel, entryType, entryLabel, targetId, textField, LabelToWrite.entry, text_inj, Index.relabel,
          Index.add, Option.filter_some, hset]
      rw [hents, buildIndex_concat, hent, hbef, set_eq_append, map_append, map_singleton]
      rw [map_map]
      exact fun hmem => hnd.2.2 _ hmem _ (by simp) rfl
  have htargets : ((m.labelsToWrite (path.map entryId)).map (·.targetId)).Nodup := by
    rw [labelsToWrite, map_map]
    exact (filter_sublist.map Prod.fst).nodup hkeys
  refine (hfold _ ⟨_, [], _⟩ htargets fun each heach => ?_).trans ?_
  · obtain ⟨lab, hlab, rfl⟩ := mem_map.mp heach
    exact hset lab (mem_filter.mp hlab).1
  · simp [labelsToWrite, Function.comp_def]

theorem get?_filter (labs : Assoc Text Text) (ids : List Text) (id : Text) :
    Assoc.get? (labs.filter fun lab => decide (lab.1 ∈ ids)) id = if id ∈ ids then Assoc.get? labs id else none := by
  induction labs with
  | nil => simp
  | cons lab labs ih =>
    by_cases hlab : lab.1 = id
    · subst hlab
      by_cases hmem : lab.1 ∈ ids <;> simp_all [get?]
    · by_cases hmem : lab.1 ∈ ids <;> simp_all [get?]

/-! ## Edits -/

/-- The target of an edit is above it, and no label. -/
def EditsFound (m : SessionManager) : Prop := ∀ edit ∈ entriesOf m.fileEntries, isContextEdit edit = true →
  ∀ above, Leads m.byId (parentId edit) above → ∃ target ∈ above, entryId target = targetId edit ∧ isLabel target = false

/-- An entry that was there leads to what it led to. -/
theorem leads_before (h : m.Shaped nums) (hnew : entryId entry ∉ m.byId.map Prod.fst)
    (hid : ∀ each ∈ id, each ∈ (entriesOf m.fileEntries).map entryId) (hlead : Leads (Assoc.set m.byId (entryId entry) entry) id up) :
    Leads m.byId id up := by
  have hsame : ∀ {id : Option Text}, (∀ each ∈ id, each ∈ (entriesOf m.fileEntries).map entryId) →
      lookup (set m.byId (entryId entry) entry) id = lookup m.byId id := by
    intro id hid
    cases id with
    | none => rfl
    | some id =>
      have hne : entryId entry ≠ id := by
        rintro rfl
        exact hnew ((h.mem_keys _).mpr (hid _ rfl))
      rw [lookup, lookup, Option.filter_some]
      split
      · exact get?_set_ne _ _ hne
      · rfl
  induction hlead with
  | root hnone => exact .root (hsame hid ▸ hnone)
  | up hent _ ih =>
    rw [hsame hid] at hent
    refine .up hent (ih ?_)
    obtain ⟨tgt, -, hget⟩ := Option.bind_eq_some_iff.mp hent
    obtain ⟨hmem, -⟩ := h.knows _ _ hget
    obtain ⟨bef, aft, heq⟩ := append_of_mem hmem
    intro each heach
    rw [heq, map_append]
    exact mem_append_left _ (h.tree.parents _ _ _ heq each heach)

/-- The target of an edit is above the leaf, and no label. -/
theorem target_of_editTarget (h : m.Shaped nums) {tgt : Text} {rpl : Json}
    (hok : (m.editTarget tgt rpl).toOption = some entry) :
    ∃ each ∈ m.walk m.byId.length m.leafId, entryId each = tgt ∧ isLabel each = false := by
  unfold editTarget at hok
  split at hok
  · split at hok
    · cases hok
    · rename_i fnd hget
      split at hok
      · cases hok
      · rename_i hany
        split at hok
        · cases hok
        · rename_i heditable
          have hany' : (m.getBranch none).any (fun each => decide (entryId each = tgt)) = true := by simpa using hany
          obtain ⟨each, heach, hid⟩ := any_eq_true.mp hany'
          have hmem : each ∈ m.walk m.byId.length m.leafId := by simpa [getBranch] using heach
          refine ⟨each, hmem, of_decide_eq_true hid, ?_⟩
          obtain ⟨hfnd, hfoundId⟩ := h.knows _ _ hget
          have hin := ((leads_walk h m.leafId).ids h.knows each hmem).1
          obtain rfl := inj_on_of_nodup_map h.tree.ids hin hfnd ((of_decide_eq_true hid).trans hfoundId.symm)
          by_contra hlab
          have htype : entryType each = some (text "label") := by simpa [isLabel] using hlab
          simp [isEditable, htype, text_inj] at heditable
  · cases hok

/-- An edit is appended below its target. -/
theorem EditsFound.push (hedits : EditsFound m) (h : m.Shaped nums) {call : Call} {op : Operation nums} {entry : Json}
    (hent : m.entryToAppend call op = some entry) {m' : SessionManager} (hrecs : m'.fileEntries = m.fileEntries ++ [entry])
    (hbyId : m'.byId = Assoc.set m.byId (entryId entry) entry) : EditsFound m' := by
  have hnew := newEntry_of_entryToAppend hent
  intro edit hedit hkind above habv
  rw [hrecs, entriesOf_concat hnew.header, mem_append, mem_singleton] at hedit
  rw [hbyId] at habv
  rcases hedit with hold | rfl
  · refine hedits edit hold hkind above (leads_before h hnew.new (fun each heach => ?_) habv)
    obtain ⟨bef, aft, heq⟩ := append_of_mem hold
    rw [heq, map_append]
    exact mem_append_left _ (h.tree.parents _ _ _ heq each heach)
  · rw [hnew.parent] at habv
    have hlead := leads_before h hnew.new (fun each heach => (h.mem_keys each).mp (h.parentOf hent each heach)) habv
    cases op with
    | appendContextEdit tgt rpl =>
      obtain ⟨entry, hok, rfl⟩ := Option.map_eq_some_iff.mp hent
      have htgt : targetId (m.contextEditEntry call tgt (normalizedReplacement entry rpl.val)) = tgt := by
        simp [targetId, textField, contextEditEntry]
      obtain ⟨each, heach, hid, hlab⟩ := target_of_editTarget h hok
      have hwalk := (leads_walk h m.leafId).unique hlead
      exact ⟨each, hwalk ▸ heach, hid.trans htgt.symm, hlab⟩
    | _ =>
      simp only [entryToAppend] at hent
      repeat' split at hent
      all_goals cases hent
      all_goals
        simp [isContextEdit, entryType, textField, text_inj, messageEntry, thinkingLevelChangeEntry,
          modelChangeEntry, usageEntry, SessionManager.compactionEntry, customEntry,
          sessionInfoEntry, customMessageEntry, labelEntry,
          branchSummaryEntry] at hkind

theorem lookup_entry (h : m.Shaped nums) (hent : entry ∈ entriesOf m.fileEntries) (hid : entryId entry ≠ []) :
    lookup m.byId (some (entryId entry)) = some entry := by
  rw [lookup_some hid]
  cases hget : get? m.byId (entryId entry) with
  | none => exact absurd ((h.mem_keys _).mpr (mem_map_of_mem hent)) (get?_eq_none_iff.mp hget)
  | some each =>
    obtain ⟨heach, hsame⟩ := h.knows _ _ hget
    rw [inj_on_of_nodup_map h.tree.ids heach hent hsame]

/-- An entry that is retained comes from one at the same place. -/
theorem exists_of_same {bef aft : List Json} (h : List.Forall₂ Same (unlabelled path) (bef ++ entry :: aft)) :
    ∃ bef' entry' aft', path = bef' ++ entry' :: aft' ∧ List.Forall₂ Same (unlabelled bef') bef ∧ Same entry' entry := by
  have hsplit : ∀ {es : List Json}, Forall₂ Same es (bef ++ entry :: aft) →
      ∃ bef' entry' aft', es = bef' ++ entry' :: aft' ∧ Forall₂ Same bef' bef ∧ Same entry' entry := by
    clear h
    induction bef with
    | nil =>
      intro es h
      cases h with
      | cons hsame _ => exact ⟨[], _, _, rfl, .nil, hsame⟩
    | cons fst bef ih =>
      intro es h
      cases h with
      | cons hfst hrest =>
        obtain ⟨bef', entry', aft', rfl, hbef, hsame⟩ := ih hrest
        exact ⟨_ :: bef', entry', aft', rfl, .cons hfst hbef, hsame⟩
  obtain ⟨kept, entry', lat, hkept, hbef, hsame⟩ := hsplit h
  obtain ⟨st, rest, rfl, hsta, hrest⟩ := filter_eq_append_iff.mp hkept
  obtain ⟨labs, aft', rfl, hlabs, -, -⟩ := filter_eq_cons_iff.mp hrest
  refine ⟨st ++ labs, entry', aft', (append_assoc ..).symm, ?_, hsame⟩
  have hnone : unlabelled labs = [] := filter_eq_nil_iff.mpr hlabs
  rwa [unlabelled_append, hnone, append_nil, unlabelled, hsta]

/-- What a branched session is made of. -/
structure Branching (numbers : Numbers) (m : SessionManager) (call : Call) (leafId : Text) (path labels : List Json) : Prop where
  records : ∀ entry ∈ m.getBranch (some leafId), EntryRecord numbers entry
  ids : ((m.getBranch (some leafId)).map entryId).Nodup
  leads : Leads m.byId (some leafId) (m.getBranch (some leafId)).reverse
  entries : entriesOf (m.branched call leafId).fileEntries = path ++ labels
  shaped : (m.branched call leafId).Shaped numbers
  retained : path = ((m.getBranch (some leafId)).foldl Retained.retain .start).pathWithoutLabels
  same : List.Forall₂ Same (unlabelled (m.getBranch (some leafId))) path
  named : ∀ entry ∈ path, entryId entry ≠ []
  linked : Linked path
  linkedLabels : Linked (path ++ labels)
  labels : ∀ label ∈ labels, isLabel label = true ∧ ∃ used, entryId label = generateId call.uuids used

theorem branching (hnum : nums.Exact) (h : m.Shaped nums) (call : Call) (leafId : Text) :
    Branching nums m call leafId (m.branchedPath leafId) (m.branchedLabels call (m.branchedPath leafId)) := by
  obtain ⟨hwithin, hids⟩ := h.getBranch_within leafId
  have hrecs : ∀ entry ∈ m.getBranch (some leafId), EntryRecord nums entry := fun entry hent => h.entries entry (hwithin entry hent)
  have hshaped := h.branched hnum call leafId
  have hlead : Leads m.byId (some leafId) (m.getBranch (some leafId)).reverse := by
    rw [getBranch, Option.some_or, reverse_reverse]
    exact leads_walk h _
  have hsame := (retains _ hids).same
  have hnamed : ∀ entry ∈ m.branchedPath leafId, entryId entry ≠ [] := by
    intro entry hent
    have hmem : entryId entry ∈ (unlabelled (m.getBranch (some leafId))).map entryId := same_ids hsame ▸ mem_map_of_mem hent
    obtain ⟨each, heach, heq⟩ := mem_map.mp (unlabelled_ids hmem)
    rw [← heq]
    exact (hlead.ids h.knows each (mem_reverse.mpr heach)).2
  have hlinked : Linked (m.branchedPath leafId) := linked_retained hrecs hids
  obtain ⟨hlinkedLabels, -, hlabs⟩ := linked_labels hlinked hnamed _ rfl
  refine ⟨hrecs, hids, hlead, ?_, hshaped, rfl, hsame, hnamed, hlinked, hlinkedLabels, hlabs⟩
  obtain ⟨header, es, heq, hheader, -, -, hents⟩ := hshaped.header
  cases heq
  exact entriesOf_cons hheader hents

/-- The edits of a branched session are found above them. -/
theorem EditsFound.branched (hedits : EditsFound m) (hnum : nums.Exact) (h : m.Shaped nums) (call : Call) (leafId : Text) :
    EditsFound (m.branched call leafId) := by
  have hb := branching hnum h call leafId
  intro edit hedit hkind above habv
  rw [hb.entries, mem_append] at hedit
  rcases hedit with hedit | hedit
  · obtain ⟨bef, aft, heq⟩ := append_of_mem hedit
    have hup := (hb.linked.leads fun entry hent => lookup_entry hb.shaped (by simp [hb.entries, hent]) (hb.named entry hent)).2 _ _ _ heq
    obtain rfl := hup.unique habv
    obtain ⟨bef', edit', aft', hpath, hbef, hsame⟩ := exists_of_same (heq ▸ hb.same)
    have hlead := hb.leads
    rw [hpath, reverse_append, reverse_cons, append_assoc, singleton_append] at hlead
    have hold : edit' ∈ entriesOf m.fileEntries := (h.getBranch_within leafId).1 _ (hpath ▸ by simp)
    have hkind' : isContextEdit edit' = true := by rwa [isContextEdit, ← hsame.entryType]
    obtain ⟨tgt, htgt, hid, hlab⟩ := hedits edit' hold hkind' _ hlead.above
    have hkept : tgt ∈ unlabelled bef' := mem_filter.mpr ⟨mem_reverse.mp htgt, by simp [hlab]⟩
    have hids := same_ids hbef ▸ mem_map_of_mem (f := entryId) hkept
    obtain ⟨tgt', htgt', hid'⟩ := mem_map.mp hids
    refine ⟨tgt', mem_reverse.mpr htgt', ?_, ?_⟩
    · rw [hid', hid, targetId, targetId, textField, textField, hsame "targetId" (by decide) (by decide)]
    · have hunlabelled := unlabelled_same hbef
      rw [← hunlabelled] at htgt'
      simpa using (mem_filter.mp htgt').2
  · have htype : entryType edit = some (text "label") := by simpa [isLabel] using (hb.labels edit hedit).1
    simp [isContextEdit, htype, text_inj] at hkind

/-- **The target of an edit is above it, in every run.** -/
theorem EditsFound.performed (hedit : EditsFound m) (hnum : nums.Exact) (h : m.Shaped nums) {op : Operation nums}
    {res : Except Thrown Text} (hperfd : Performed m call op m' res) : EditsFound m' := by
  cases hperfd with
  | stays | fails => exact hedit
  | appends hent _ => exact hedit.push h hent rfl (indexEntry_byId (newEntry_of_entryToAppend hent).header m.toIndex)
  | branches | branchesWritten | branchesFails => exact hedit.branched hnum h call _

/-! ## Branched sessions -/

/-- What a branched session keeps of the session it branches from. -/
structure BranchKept (m : SessionManager) (leafId : Text) (m' : SessionManager) : Prop where
  context : ∀ getTime, m'.buildSessionContext getTime m'.leafId = m.buildSessionContext getTime (some leafId)
  labels : ∀ id, m'.getLabel id = if id ∈ (unlabelled (m.getBranch (some leafId))).map entryId then m.getLabel id else none
  ids : ((entriesOf m'.fileEntries).map entryId).Nodup
  parents : ∀ entry ∈ entriesOf m'.fileEntries, ∀ id ∈ parentId entry, id ∈ (entriesOf m'.fileEntries).map entryId
  kept : ∀ entry ∈ entriesOf m'.fileEntries, isLabel entry = true ∨ entryId entry ∈ (unlabelled (m.getBranch (some leafId))).map entryId
  /-- A label is redirected to the entry that follows it, if it comes before the compaction. -/
  compactions : ∀ before compaction after, m.getBranch (some leafId) = before ++ compaction :: after → isCompaction compaction = true →
    ∀ id, textField "firstKeptEntryId" compaction = some id → id ∈ (m.getBranch (some leafId)).map entryId →
      (∀ label ∈ after, isLabel label = true → entryId label ≠ id) →
      ∃ compaction' ∈ entriesOf m'.fileEntries, entryId compaction' = entryId compaction ∧
        ∃ id' ∈ textField "firstKeptEntryId" compaction', id' ∈ (entriesOf m'.fileEntries).map entryId
  edits : ∀ edit ∈ m.getBranch (some leafId), isContextEdit edit = true → targetId edit ∈ (m.getBranch (some leafId)).map entryId →
    ∃ edit' ∈ entriesOf m'.fileEntries, entryId edit' = entryId edit ∧ targetId edit' ∈ (entriesOf m'.fileEntries).map entryId

theorem exists_same {es es' : List Json} (h : List.Forall₂ Same es es') (hent : entry ∈ es) : ∃ entry' ∈ es', Same entry entry' := by
  induction h with
  | nil => cases hent
  | cons hsame _ ih =>
    rcases mem_cons.mp hent with rfl | hent
    · exact ⟨_, mem_cons_self, hsame⟩
    · obtain ⟨entry', hent', hsame'⟩ := ih hent
      exact ⟨entry', mem_cons_of_mem _ hent', hsame'⟩

/-- The path to the leaf of a branched session is all of it. -/
theorem Branching.path_eq {labs : List Json} (hb : Branching nums m call leafId path labs)
    (huuids : ∀ used, generateId call.uuids used ≠ []) :
    buildSessionPath (m.branched call leafId) (m.branched call leafId).leafId = path ++ labs := by
  have hnamed : ∀ entry ∈ path ++ labs, entryId entry ≠ [] := by
    intro entry hent
    rcases mem_append.mp hent with hent | hent
    · exact hb.named entry hent
    · obtain ⟨-, used, hid⟩ := hb.labels entry hent
      rw [hid]
      exact huuids used
  have hlead := (hb.linkedLabels.leads fun entry hent => lookup_entry hb.shaped (hb.entries ▸ hent) (hnamed entry hent)).1
  have hleaf : (m.branched call leafId).leafId = (path ++ labs).getLast?.map entryId := by
    rw [← hb.entries]
    exact buildIndex_leafId _
  rw [hleaf]
  cases hlast : (path ++ labs).getLast? with
  | none =>
    rw [getLast?_eq_none_iff.mp hlast]
    rfl
  | some last =>
    rw [hlast] at hlead
    have hwalk := (leads_walk hb.shaped _).unique hlead
    have hbr : (m.branched call leafId).getBranch (some (entryId last)) = path ++ labs := by
      exact (congrArg reverse hwalk).trans (reverse_reverse _)
    rw [← hbr]
    exact buildSessionPath_eq hb.shaped (by rw [hbr]; rintro hnone; simp [hnone] at hlast)

/-- A compaction keeps what it kept, or the entry that follows. -/
theorem Branching.compaction {labs : List Json} (hb : Branching nums m call leafId path labs)
    {bef aft : List Json} {comp : Json} (hpath : m.getBranch (some leafId) = bef ++ comp :: aft)
    (hcomp : isCompaction comp = true) {id : Text} (hid : textField "firstKeptEntryId" comp = some id)
    (hmem : id ∈ (m.getBranch (some leafId)).map entryId) (haft : ∀ lab ∈ aft, isLabel lab = true → entryId lab ≠ id) :
    ∃ comp' ∈ path, entryId comp' = entryId comp ∧ ∃ id' ∈ textField "firstKeptEntryId" comp', id' ∈ path.map entryId := by
  have hids := hb.ids
  have hpathIds := same_ids hb.same
  have hretn := hb.retained
  rw [hpath] at hids hmem hpathIds hretn
  have hlab : isLabel comp = false := isLabel_false (by simpa [isCompaction] using hcomp) (by decide)
  have hretains := retains bef (nodup_append.mp (map_append ▸ hids)).1
  obtain ⟨more, hmore, -⟩ := foldl_retain ((bef.foldl Retained.retain .start).retain comp) aft
  rw [foldl_append, foldl_cons, hmore, Retained.retain, if_neg (by simp [hlab])] at hretn
  generalize bef.foldl Retained.retain .start = r at hretains hretn
  have hsame := same_rechained r comp
  have hin : r.rechained comp ∈ path := hretn ▸ by simp
  have hself : entryId comp ∈ path.map entryId := hsame.entryId ▸ mem_map_of_mem hin
  have hrec : ∃ m, comp = .obj m := by
    cases (hb.records comp (hpath ▸ by simp)).record with
    | obj => exact ⟨_, rfl⟩
  refine ⟨_, hin, hsame.entryId, _, firstKept_rechained hrec hcomp hid r, ?_⟩
  split
  · exact hself
  · rename_i hne
    rw [get?_replacements]
    split
    · exact hself
    · rename_i hpend
      have hlead : r.leadsTo id = some ((get? r.replacementByLabelId id).getD id) := by rw [Retained.leadsTo, if_neg hpend]
      by_cases hbef : id ∈ bef.map entryId
      · have hkept := hretains.leads id hbef _ hlead
        rw [hretn]
        simp only [map_append]
        exact mem_append_left _ (mem_append_left _ hkept)
      · have hnone : get? r.replacementByLabelId id = none := by
          by_contra hsome
          obtain ⟨entry, hent, -, rfl⟩ := hretains.replaced id hsome
          exact hbef (mem_map_of_mem hent)
        obtain ⟨entry, hent, rfl⟩ : ∃ entry ∈ aft, entryId entry = id := by
          simp only [map_append, map_cons, mem_append, mem_cons, hbef, hne, false_or] at hmem
          exact mem_map.mp hmem
        have hplain : isLabel entry = false := Bool.eq_false_iff.mpr fun hlab => haft entry hent hlab rfl
        rw [hnone, Option.getD_none, hpathIds]
        exact mem_map_of_mem (mem_filter.mpr ⟨by simp [hent], by simp [hplain]⟩)

theorem branchKept (hnum : nums.Exact) (h : m.Shaped nums) (hedits : EditsFound m)
    (huuids : ∀ used, generateId call.uuids used ≠ []) (hpath : m.getBranch (some leafId) ≠ []) :
    BranchKept m leafId (m.branched call leafId) := by
  have hb := branching hnum h call leafId
  have htree := hb.shaped.tree
  rw [hb.entries] at htree
  constructor
  · intro getTime
    have hrecs : ∀ entry ∈ m.getBranch (some leafId), ∃ m, entry = .obj m := by
      intro entry hent
      cases (hb.records entry hent).record with
      | obj => exact ⟨_, rfl⟩
    have hids := htree.ids
    rw [buildSessionContext, hb.path_eq huuids, buildSessionContext, buildSessionPath_eq h hpath, hb.retained]
    exact projection_retained getTime hrecs hb.ids (fun lab hlab => (hb.labels lab hlab).1) hids
  · intro id
    obtain ⟨hkeys, hset⟩ := labels_buildIndex m.fileEntries
    rw [← h.index.2.1] at hkeys hset
    have hplain : ∀ entry ∈ m.branchedPath leafId, isLabel entry = false := by
      intro entry hent
      rw [← unlabelled_same hb.same] at hent
      simpa using (mem_filter.mp hent).2
    have hlabs := labels_branched m call hplain hkeys hset (sessionHeader_header call.sessionId call.timestamp m.cwd (some m.sessionFile))
    rw [getLabel, ← same_ids hb.same, getLabel, ← get?_filter, ← hlabs]
    rfl
  · exact hb.shaped.tree.ids
  · intro entry hent id hid
    obtain ⟨bef, aft, heq⟩ := append_of_mem hent
    rw [heq, map_append]
    exact mem_append_left _ (hb.shaped.tree.parents _ _ _ heq id hid)
  · intro entry hent
    rw [hb.entries, mem_append] at hent
    rcases hent with hent | hent
    · exact .inr (same_ids hb.same ▸ mem_map_of_mem hent)
    · exact .inl (hb.labels entry hent).1
  · intro bef comp aft heq hcomp id hid hmem haft
    obtain ⟨comp', hin, hsame, id', hid', hkept⟩ := hb.compaction heq hcomp hid hmem haft
    rw [hb.entries]
    exact ⟨comp', mem_append_left _ hin, hsame, id', hid', by simp_all⟩
  · intro edit hedit hkind _
    obtain ⟨bef, aft, heq⟩ := append_of_mem hedit
    have hlead := hb.leads
    rw [heq, reverse_append, reverse_cons, append_assoc, singleton_append] at hlead
    obtain ⟨tgt, htgt, hid, hlab⟩ := hedits edit ((h.getBranch_within leafId).1 edit hedit) hkind _ hlead.above
    have hplain : isLabel edit = false := isLabel_false (by simpa [isContextEdit] using hkind) (by decide)
    obtain ⟨edit', hedit', hsame⟩ := exists_same hb.same (mem_filter.mpr ⟨hedit, by simp [hplain]⟩)
    rw [hb.entries]
    refine ⟨edit', mem_append_left _ hedit', hsame.entryId, ?_⟩
    have hkept : entryId tgt ∈ (m.branchedPath leafId).map entryId := by
      rw [same_ids hb.same]
      exact mem_map_of_mem (mem_filter.mpr ⟨by simp_all, by simp [hlab]⟩)
    have htargetId : targetId edit' = targetId edit := by simp [targetId, textField, hsame "targetId"]
    rw [htargetId, ← hid, map_append]
    exact mem_append_left _ hkept

theorem editsFound_run (hnum : numbers.Exact) (h : m.Shaped numbers) (hedit : EditsFound m) (cs : List (Call × Operation numbers)) :
    EditsFound (m.run cs) := by
  induction cs generalizing m with
  | nil => exact hedit
  | cons each cs ih =>
    have hperfd := performed m each.1 each.2
    exact ih (h.performed hnum hperfd) (hedit.performed hnum h hperfd)

theorem walk_congr (hbyId : m'.byId = m.byId) (fuel : ℕ) (id : Option Text) : m'.walk fuel id = m.walk fuel id := by
  induction fuel generalizing id with
  | zero => rfl
  | succ fuel ih => simp only [SessionManager.walk, hbyId, ih]

/-- What a session keeps does not depend on its file. -/
theorem BranchKept.congr {m'' : SessionManager} (h : BranchKept m leafId m') (hidx : m''.toIndex = m'.toIndex)
    (hrecs : m''.fileEntries = m'.fileEntries) : BranchKept m leafId m'' := by
  have hctx : ∀ getTime, m''.buildSessionContext getTime m''.leafId = m'.buildSessionContext getTime m'.leafId := by
    intro getTime
    simp only [buildSessionContext, buildSessionPath, walk_congr (congrArg Index.byId hidx), hidx, hrecs]
  constructor
  · exact fun getTime => (hctx getTime).trans (h.context getTime)
  · intro id
    rw [getLabel, hidx]
    exact h.labels id
  · exact hrecs ▸ h.ids
  · exact hrecs ▸ h.parents
  · exact hrecs ▸ h.kept
  · exact hrecs ▸ h.compactions
  · exact hrecs ▸ h.edits

theorem rewriteFile_index (numbers : Numbers) (m : SessionManager) (fault : Option Fault) :
    (m.rewriteFile numbers fault).1.toIndex = m.toIndex ∧ (m.rewriteFile numbers fault).1.fileEntries = m.fileEntries := by
  unfold rewriteFile
  split <;> exact ⟨rfl, rfl⟩

theorem generateId_ne_nil {uuids : UuidSource} (h : ∀ used, [] ∉ (uuids.draw used).1 ∧ (uuids.draw used).2 ≠ []) (used : List Text) :
    generateId uuids used ≠ [] := by
  rw [generateId]
  cases hfind : (uuids.draw used).1.find? fun id => decide (id ∉ used) with
  | none => exact (h used).2
  | some id =>
    rintro hid
    exact (h used).1 (hid ▸ mem_of_find?_eq_some hfind)

end Paths

/-- **A session that is made of a branch shows its model what the branch shows**, in every run: the context, the labels, and the entries
    that its entries name are those of the path. -/
theorem branched_preserves {numbers : Numbers} (hnumbers : numbers.Exact) (start : Call) (cwd : Text) (parentSession : Option Text)
    (calls : List (Call × Operation numbers)) {call : Call} (huuids : ∀ used, [] ∉ (call.uuids.draw used).1 ∧ (call.uuids.draw used).2 ≠ [])
    {leafId : Text} (hleaf : leafId ∈ (entriesOf ((newSession start cwd parentSession).run calls).fileEntries).map entryId) :
    if leafId = [] then ((newSession start cwd parentSession).run calls).createBranchedSession numbers call leafId =
      ((newSession start cwd parentSession).run calls, .error (SessionManager.notFound leafId))
    else BranchKept ((newSession start cwd parentSession).run calls) leafId
      (((newSession start cwd parentSession).run calls).createBranchedSession numbers call leafId).1 := by
  have hnew : (newSession start cwd parentSession).Shaped numbers := .newSession hnumbers cwd parentSession
  have hshaped := hnew.run hnumbers calls
  have hedits := editsFound_run hnumbers hnew (fun edit hedit => by cases hedit) calls
  generalize (newSession start cwd parentSession).run calls = m at *
  split
  · have hpath : m.getBranch (some leafId) = [] := by
      rename_i hempty
      subst hempty
      exact congrArg reverse ((Leads.root rfl).walk (Nat.zero_le _))
    simp [createBranchedSession, hpath]
  · rename_i hset
    obtain ⟨entry, hentry, rfl⟩ := mem_map.mp hleaf
    have hpath : m.getBranch (some (entryId entry)) ≠ [] := by
      intro hnil
      have hleads := leads_walk hshaped (some (entryId entry))
      rw [getBranch, Option.some_or, reverse_eq_nil_iff] at hnil
      rw [hnil] at hleads
      cases hleads with
      | root hnone => simp [lookup_entry hshaped hentry hset] at hnone
    have hkept := branchKept hnumbers hshaped hedits (generateId_ne_nil huuids) hpath
    have hwritten := rewriteFile_index numbers (m.branched call (entryId entry)) call.fault
    rw [createBranchedSession, if_neg (by simpa using hpath)]
    split
    · split
      all_goals
        rename_i hrewritten
        rw [hrewritten] at hwritten
        exact hkept.congr hwritten.1 hwritten.2
    · exact hkept.congr rfl rfl

theorem longerUuids_nonempty (used : List Text) : [] ∉ (longerUuids.draw used).1 ∧ (longerUuids.draw used).2 ≠ [] :=
  ⟨not_mem_nil, append_ne_nil_of_right_ne_nil _ (cons_ne_nil _ _)⟩

theorem branched_preserves_message :
    [97] ∈ (entriesOf ((newSession (exampleCall none) [] none).run (twoAppends none)).fileEntries).map entryId ∧
    BranchKept ((newSession (exampleCall none) [] none).run (twoAppends none)) [97]
      (((newSession (exampleCall none) [] none).run (twoAppends none)).createBranchedSession decimalNumbers (exampleCall none) [97]).1 := by
  have hleaf : [97] ∈ (entriesOf ((newSession (exampleCall none) [] none).run (twoAppends none)).fileEntries).map entryId := by decide
  exact ⟨hleaf, branched_preserves decimalNumbers_exact (exampleCall none) [] none (twoAppends none) longerUuids_nonempty hleaf⟩

/-- **An edit edits an entry of its own path** in every run. -/
theorem edits_found {numbers : Numbers} (hnumbers : numbers.Exact) (start : Call) (cwd : Text) (parentSession : Option Text)
    (calls : List (Call × Operation numbers)) : EditsFound ((newSession start cwd parentSession).run calls) :=
  editsFound_run hnumbers (.newSession hnumbers cwd parentSession) (fun edit hedit => by cases hedit) calls

theorem edits_found_message : EditsFound ((newSession (exampleCall none) [] none).run (twoAppends none)) :=
  edits_found decimalNumbers_exact _ _ _ _

/-- A message, a compaction that keeps what is yet to come, and a label that comes by the ID. -/
def keptLabel : List (Call × Operation decimalNumbers) := [(exampleCall none, .appendMessage userMessage none),
    (exampleCall none, .appendCompaction [] (some [97, 97, 97, 97]) userMessage none none none none),
    (exampleCall none, .appendLabelChange [97] none)]

/-- A label after the compaction that keeps it is gone, and nothing takes its place. -/
theorem kept_label_dangles : ¬ ∀ (calls : List (Call × Operation decimalNumbers)) (call : Call),
    (∀ used, [] ∉ (call.uuids.draw used).1 ∧ (call.uuids.draw used).2 ≠ []) →
    ∀ leafId ∈ (entriesOf ((newSession (exampleCall none) [] none).run calls).fileEntries).map entryId, leafId ≠ [] →
      BranchKept ((newSession (exampleCall none) [] none).run calls) leafId
        (((newSession (exampleCall none) [] none).run calls).createBranchedSession decimalNumbers call leafId).1 ∧
      ∀ compaction ∈ ((newSession (exampleCall none) [] none).run calls).getBranch (some leafId), isCompaction compaction = true →
        ∀ id ∈ textField "firstKeptEntryId" compaction,
          id ∈ (((newSession (exampleCall none) [] none).run calls).getBranch (some leafId)).map entryId →
          ∃ compaction' ∈ entriesOf
              (((newSession (exampleCall none) [] none).run calls).createBranchedSession decimalNumbers call leafId).1.fileEntries,
            entryId compaction' = entryId compaction ∧ ∃ id' ∈ textField "firstKeptEntryId" compaction',
              id' ∈ (entriesOf
                (((newSession (exampleCall none) [] none).run calls).createBranchedSession decimalNumbers call leafId).1.fileEntries).map entryId := by
  intro h
  have hkept := (h keptLabel (exampleCall none) longerUuids_nonempty [97, 97, 97, 97] (by decide) (by decide)).2
  revert hkept
  decide

end PiBridge.Session
