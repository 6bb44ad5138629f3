import PiBridge.Session.Context
import PiBridge.Session.Correctness.Trees

/-!
# `Session.Correctness.BranchedContexts` — a branched session shows its model the same

What is retained of a path are its entries but for the labels, each the same but for its parent and what it keeps (`Same`);
the entries that a compaction keeps are found again by the ID it is redirected to (`Retains`). The new entries are linked
one below the other, so its path is all of them.
-/

namespace PiBridge.Session

open Chord Lib List Assoc Retained

/-! ## The same entries -/

section Same

/-- The same entry, but for its parent and what it keeps. -/
def Same (entry entry' : Json) : Prop := ∀ key, key ≠ "parentId" → key ≠ "firstKeptEntryId" → field key entry' = field key entry

namespace Same

variable {entry entry' : Json} (h : Same entry entry')

include h

theorem entryType : Session.entryType entry' = Session.entryType entry := by
  simp [Session.entryType, textField, h "type"]

theorem entryId : Session.entryId entry' = Session.entryId entry := by
  simp [Session.entryId, textField, h "id"]

variable (getTime : Text → Json)

theorem messages : sessionEntryToContextMessages getTime entry' = sessionEntryToContextMessages getTime entry := by
  simp [sessionEntryToContextMessages, isCompaction, createCustomMessage, createBranchSummaryMessage, createCompactionSummaryMessage,
    entryTimestamp, textField, h.entryType, h "message", h "customType", h "content", h "display", h "details", h "timestamp", h "summary",
    h "fromId", h "tokensBefore", h "systemMessage"]

theorem project {edit edit' : Option Json} (hedit : edit'.map (field "replacement") = edit.map (field "replacement")) :
    projectContextEntry getTime entry' edit' = projectContextEntry getTime entry edit := by
  simp only [projectContextEntry, h.messages, hedit]

theorem later {edits edits' : Assoc Text Json}
    (hedit : ∀ id, (Assoc.get? edits' id).map (field "replacement") = (Assoc.get? edits id).map (field "replacement")) :
    laterMessages getTime edits' entry' = laterMessages getTime edits entry := by
  unfold laterMessages isCompaction
  rw [h.entryType, h.entryId, h.project getTime (hedit _)]

theorem settings (settings : Option Json × Option (Option Json × Option Json)) :
    settingsAfter settings entry' = settingsAfter settings entry := by
  unfold settingsAfter messageRole
  rw [h.entryType, h "thinkingLevel" (by decide) (by decide), h "provider" (by decide) (by decide), h "modelId" (by decide) (by decide),
    h "message" (by decide) (by decide)]

end Same

theorem same_rechained (r : Retained) (entry : Json) : Same entry (r.rechained entry) := by
  intro key hpar hkept
  unfold rechained
  split
  · split <;> simp [field_withField_ne _ _ (Ne.symm hpar), field_withField_ne _ _ (Ne.symm hkept)]
  · simp [field_withField_ne _ _ (Ne.symm hpar)]

end Same

/-! ## Contexts without labels -/

section Contexts

variable (getTime : Text → Json) {path es es' : List Json}

/-- The entries but for the labels. -/
def unlabelled (path : List Json) : List Json := path.filter fun entry => !isLabel entry

theorem unlabelled_append (path path' : List Json) : unlabelled (path ++ path') = unlabelled path ++ unlabelled path' := filter_append ..

/-- An entry of another type is no label. -/
theorem isLabel_false {entry : Json} {type : String} (h : entryType entry = some (text type)) (htype : type ≠ "label") :
    isLabel entry = false := by
  simp [isLabel, h, text_inj, htype]

theorem laterMessages_label (edits : Assoc Text Json) {entry : Json} (h : isLabel entry = true) : laterMessages getTime edits entry = [] := by
  have htype : entryType entry = some (text "label") := by simpa [isLabel] using h
  have hnone : sessionEntryToContextMessages getTime entry = [] := by
    simp [sessionEntryToContextMessages, isCompaction, htype, text_inj]
  simp only [laterMessages, projectContextEntry, hnone]
  split
  · rfl
  · split <;> rfl

theorem flatMap_unlabelled (edits : Assoc Text Json) (es : List Json) :
    (unlabelled es).flatMap (laterMessages getTime edits) = es.flatMap (laterMessages getTime edits) := by
  induction es with
  | nil => rfl
  | cons entry es ih =>
    cases h : isLabel entry with
    | true => simpa [unlabelled, h, laterMessages_label getTime edits h] using ih
    | false => simpa [unlabelled, h] using ih

theorem contextEdits_unlabelled (es : List Json) : contextEdits (unlabelled es) = contextEdits es := by
  have hfilter : (unlabelled es).filter isContextEdit = es.filter isContextEdit := by
    rw [unlabelled, filter_filter]
    refine filter_congr fun entry _ => ?_
    cases h : isContextEdit entry with
    | false => rfl
    | true => simp [isLabel_false (by simpa [isContextEdit] using h)]
  rw [contextEdits, contextEdits, hfilter]

/-- The same entries have the same edits. -/
theorem contextEdits_same (h : List.Forall₂ Same es es') (id : Text) :
    (Assoc.get? (contextEdits es') id).map (field "replacement") = (Assoc.get? (contextEdits es) id).map (field "replacement") := by
  have hfrom : ∀ edits edits' : Assoc Text Json,
      (get? edits' id).map (field "replacement") = (get? edits id).map (field "replacement") →
      (get? ((es'.filter isContextEdit).foldl (fun edits edit => set edits (targetId edit) edit) edits') id).map
        (field "replacement") =
      (get? ((es.filter isContextEdit).foldl (fun edits edit => set edits (targetId edit) edit) edits) id).map
        (field "replacement") := by
    induction h with
    | nil => exact fun _ _ hedits => hedits
    | @cons entry entry' _ _ hsame _ ih =>
      intro edits edits' hedits
      have hedit : isContextEdit entry' = isContextEdit entry := by simp [isContextEdit, hsame.entryType]
      cases hkind : isContextEdit entry with
      | false => simpa [hedit, hkind] using ih edits edits' hedits
      | true =>
        have htgt : targetId entry' = targetId entry := by simp [targetId, textField, hsame "targetId"]
        simp only [filter_cons, hedit, hkind, if_true, foldl_cons]
        refine ih _ _ ?_
        rw [htgt, get?_set, get?_set]
        split
        · simp [hsame "replacement"]
        · exact hedits
  exact hfrom [] [] rfl

theorem flatMap_same {edits edits' : Assoc Text Json} (h : List.Forall₂ Same es es')
    (hedit : ∀ id, (Assoc.get? edits' id).map (field "replacement") = (Assoc.get? edits id).map (field "replacement")) :
    es'.flatMap (laterMessages getTime edits') = es.flatMap (laterMessages getTime edits) := by
  induction h with
  | nil => rfl
  | cons hsame _ ih => rw [flatMap_cons, flatMap_cons, ih, hsame.later getTime hedit]

/-- What the entries after the first come to. -/
theorem projectEntries_cons (entry : Json) (rest : List Json) : (projectEntries getTime (entry :: rest)).flatten =
    projectContextEntry getTime entry (Assoc.get? (contextEdits (entry :: rest)) (entryId entry)) ++
      rest.flatMap (laterMessages getTime (contextEdits (entry :: rest))) := by
  rw [projectEntries, flatten_cons, flatMap_def]

/-- Without a compaction all entries count alike. -/
theorem projectEntries_plain (h : ∀ entry ∈ es, isCompaction entry = false) :
    (projectEntries getTime es).flatten = es.flatMap (laterMessages getTime (contextEdits es)) := by
  cases es with
  | nil => rfl
  | cons entry rest => rw [projectEntries_cons, flatMap_cons, laterMessages, h entry mem_cons_self, if_neg Bool.false_ne_true]

/-- The context of a path without a compaction. -/
theorem buildContextEntries_plain (h : ∀ entry ∈ path, isCompaction entry = false) : buildContextEntries path = path := by
  have hnone : path.reverse.find? isCompaction = none := by simpa using h
  simp only [buildContextEntries, hnone]

/-- The context of a path from its newest compaction. -/
theorem buildContextEntries_compaction {bef aft : List Json} {comp : Json}
    (hids : ((bef ++ comp :: aft).map entryId).Nodup) (hcomp : isCompaction comp = true)
    (haft : ∀ entry ∈ aft, isCompaction entry = false) : buildContextEntries (bef ++ comp :: aft) =
      comp :: (keptFrom (textField "firstKeptEntryId" comp) false bef ++ aft) := by
  have hfind : (bef ++ comp :: aft).reverse.find? isCompaction = some comp := by
    have hnone : aft.reverse.find? isCompaction = none := by simpa using haft
    simp [find?_append, hnone, hcomp]
  have hidx : (bef ++ comp :: aft).findIdx? (fun entry => decide (entryId entry = entryId comp)) = some bef.length := by
    rw [findIdx?_eq_some_iff_getElem]
    refine ⟨by simp, by simp, fun j hj => ?_⟩
    rw [getElem_append_left hj]
    have hne : entryId bef[j] ≠ entryId comp := by
      rw [map_append, nodup_append] at hids
      exact hids.2.2 _ (mem_map_of_mem (getElem_mem hj)) _ mem_cons_self
    simpa using hne
  have hdrop : (bef ++ comp :: aft).drop (bef.length + 1) = aft := by simp
  simp only [buildContextEntries, hfind, hidx, take_left, hdrop]

end Contexts

/-! ## What is retained -/

section Retained

/-- The first kept entry is on the path. -/
def isFound (firstKept : Option Text) (path : List Json) : Bool := firstKept.any fun id => decide (id ∈ path.map entryId)

theorem keptFrom_concat (kept : Option Text) (path : List Json) (entry : Json) : keptFrom kept false (path ++ [entry]) =
    keptFrom kept false path ++ if isFound kept (path ++ [entry]) && isKept entry then [entry] else [] := by
  have hfnd : ∀ path fst, (isFound kept (fst :: path)) = (decide (some (entryId fst) = kept) || isFound kept path) := by
    intro path fst
    cases kept <;> simp [isFound, eq_comm]
  have hfrom : ∀ fnd, keptFrom kept fnd (path ++ [entry]) = keptFrom kept fnd path ++
      if (fnd || isFound kept (path ++ [entry])) && isKept entry then [entry] else [] := by
    induction path with
    | nil =>
      intro fnd
      simp only [nil_append, keptFrom, hfnd, show isFound kept [] = false by simp [isFound], Bool.or_false]
    | cons fst path ih =>
      intro fnd
      simp only [cons_append, keptFrom, ih, hfnd, Bool.or_assoc]
      split <;> rfl
  exact hfrom false

variable {path es es' : List Json}

theorem keptFrom_absent {kept : Option Text} (h : isFound kept path = false) : keptFrom kept false path = [] := by
  induction path using reverseRecOn with
  | nil => rfl
  | append_singleton path entry ih =>
    have hbef : isFound kept path = false := by
      cases kept <;> simp_all [isFound]
    rw [keptFrom_concat, h, ih hbef]
    rfl

/-- The entry that an ID to keep leads to, once it is retained. -/
def Retained.leadsTo (r : Retained) (id : Text) : Option Text :=
  if id ∈ r.pendingLabelIds then none else some ((Assoc.get? r.replacementByLabelId id).getD id)

/-- What is retained of a path. -/
structure Retains (path : List Json) (r : Retained) : Prop where
  same : List.Forall₂ Same (unlabelled path) r.pathWithoutLabels
  pending : ∀ id ∈ r.pendingLabelIds, ∃ entry ∈ path, isLabel entry = true ∧ entryId entry = id
  replaced : ∀ id, Assoc.get? r.replacementByLabelId id ≠ none → ∃ entry ∈ path, isLabel entry = true ∧ entryId entry = id
  leads : ∀ id ∈ path.map entryId, ∀ id' ∈ r.leadsTo id, id' ∈ r.pathWithoutLabels.map entryId
  kept : ∀ id, List.Forall₂ Same (unlabelled (keptFrom (some id) false path)) (keptFrom (r.leadsTo id) false r.pathWithoutLabels)

theorem same_ids (h : List.Forall₂ Same es es') : es'.map entryId = es.map entryId := by
  induction h with
  | nil => rfl
  | cons hsame _ ih => rw [map_cons, map_cons, ih, hsame.entryId]

theorem unlabelled_ids {id : Text} (h : id ∈ (unlabelled path).map entryId) : id ∈ path.map entryId := (filter_sublist.map entryId).subset h

theorem get?_replacements (r : Retained) (entry : Json) (id : Text) : Assoc.get? (r.replacements entry) id =
    if id ∈ r.pendingLabelIds then some (entryId entry) else Assoc.get? r.replacementByLabelId id := by
  unfold replacements
  generalize r.replacementByLabelId = map
  induction r.pendingLabelIds generalizing map with
  | nil => rfl
  | cons labelId labelIds ih =>
    rw [foldl_cons, ih, get?_set]
    by_cases hid : labelId = id
    · simp [hid]
    · simp [hid, Ne.symm hid]

theorem Retains.retain {r : Retained} {entry : Json} (h : Retains path r) (hnew : entryId entry ∉ path.map entryId) :
    Retains (path ++ [entry]) (r.retain entry) := by
  have hmore : ∀ {id}, (∃ each ∈ path, isLabel each = true ∧ entryId each = id) →
      ∃ each ∈ path ++ [entry], isLabel each = true ∧ entryId each = id := by
    rintro id ⟨each, hmem, hlab⟩
    exact ⟨each, mem_append_left _ hmem, hlab⟩
  have hids : ∀ {id}, (∃ each ∈ path, isLabel each = true ∧ entryId each = id) → id ∈ path.map entryId := by
    rintro id ⟨each, hmem, -, rfl⟩
    exact mem_map_of_mem hmem
  -- an ID that is not there yet leads to itself
  have hunkn : ∀ id, id ∉ path.map entryId → r.leadsTo id = some id := by
    intro id hid
    have hnone : get? r.replacementByLabelId id = none := by
      by_contra hsome
      exact hid (hids (h.replaced id hsome))
    rw [leadsTo, if_neg fun hmem => hid (hids (h.pending id hmem)), hnone]
    rfl
  have hretn := same_ids h.same
  unfold Retained.retain
  split
  · rename_i hlab
    have hlead : ∀ id, ({ r with pendingLabelIds := r.pendingLabelIds ++ [entryId entry] } : Retained).leadsTo id =
        if id = entryId entry then none else r.leadsTo id := by
      intro id
      simp only [leadsTo, mem_append, mem_singleton]
      split_ifs <;> simp_all
    refine ⟨?_, ?_, fun id hid => hmore (h.replaced id hid), ?_, ?_⟩
    · simpa [unlabelled, hlab] using h.same
    · intro id hid
      rcases mem_append.mp hid with hid | hid
      · exact hmore (h.pending id hid)
      · exact ⟨entry, by simp, hlab, (mem_singleton.mp hid).symm⟩
    · intro id hid id' hid'
      rw [hlead] at hid'
      split at hid'
      · cases hid'
      · exact h.leads id (by simp_all) id' hid'
    · intro id
      rw [keptFrom_concat, unlabelled_append, hlead]
      have hnone : ∀ p : Bool, unlabelled (if p then [entry] else []) = [] := by
        intro p
        cases p <;> simp [unlabelled, hlab]
      rw [hnone, append_nil]
      split
      · rename_i hid
        rw [keptFrom_absent (by simpa [isFound, hid] using hnew), keptFrom_absent rfl]
        exact .nil
      · exact h.kept id
  · rename_i hlab
    have hsame := same_rechained r entry
    have hlab' : isLabel entry = false := by simpa using hlab
    have hkind : isKept (r.rechained entry) = isKept entry := by
      unfold isKept messageRole
      rw [hsame.entryType, hsame "message" (by decide) (by decide)]
    have hlead : ∀ id, (⟨r.pathWithoutLabels ++ [r.rechained entry], r.replacements entry, [], some (entryId entry)⟩ : Retained).leadsTo id =
        if id ∈ r.pendingLabelIds then some (entryId entry) else r.leadsTo id := by
      intro id
      simp only [leadsTo, not_mem_nil, if_false, get?_replacements]
      split_ifs <;> rfl
    refine ⟨?_, forall_mem_nil _, ?_, ?_, ?_⟩
    · rw [unlabelled_append]
      refine rel_append h.same ?_
      simp only [unlabelled, filter_cons, hlab', Bool.not_false, if_true, filter_nil]
      exact .cons hsame .nil
    · intro id hid
      rw [get?_replacements] at hid
      split at hid
      · rename_i hpend
        exact hmore (h.pending id hpend)
      · exact hmore (h.replaced id hid)
    · intro id hid id' hid'
      rw [hlead] at hid'
      rw [map_append, mem_append]
      split at hid'
      · cases hid'
        exact .inr (by simp [hsame.entryId])
      · rcases mem_append.mp (map_append ▸ hid) with hid | hid
        · exact .inl (h.leads id hid id' hid')
        · obtain rfl : id = entryId entry := by simpa using hid
          rw [hunkn _ hnew] at hid'
          cases hid'
          exact .inr (by simp [hsame.entryId])
    · intro id
      have hent : ∀ p : Bool, Forall₂ Same (unlabelled (if p then [entry] else [])) (if p then [r.rechained entry] else []) := by
        intro p
        cases p
        · exact .nil
        · simpa [unlabelled, hlab'] using hsame
      have hbel : (r.pathWithoutLabels ++ [r.rechained entry]).map entryId = (unlabelled path).map entryId ++ [entryId entry] := by
        rw [map_append, hretn, map_singleton, hsame.entryId]
      rw [keptFrom_concat, unlabelled_append, hlead, keptFrom_concat, hkind]
      by_cases hpend : id ∈ r.pendingLabelIds
      · -- the label stands for the entry that follows it
        have hnone := h.kept id
        have hemp : keptFrom none false r.pathWithoutLabels = [] := keptFrom_absent rfl
        rw [leadsTo, if_pos hpend, hemp] at hnone
        have hfst : keptFrom (some (entryId entry)) false r.pathWithoutLabels = [] := by
          have hout : entryId entry ∉ (unlabelled path).map entryId := fun hin => hnew (unlabelled_ids hin)
          exact keptFrom_absent (by simp only [isFound, Option.any_some, hretn, hout, decide_false])
        have hsees : isFound (some id) (path ++ [entry]) = isFound (some (entryId entry)) (r.pathWithoutLabels ++ [r.rechained entry]) := by
          have hid := hids (h.pending id hpend)
          simp [isFound, mem_map.mp hid, hsame.entryId]
        rw [if_pos hpend, hfst, hsees]
        exact rel_append hnone (hent _)
      · have hsees : isFound (some id) (path ++ [entry]) = isFound (r.leadsTo id) (r.pathWithoutLabels ++ [r.rechained entry]) := by
          by_cases hmem : id ∈ path.map entryId
          · obtain ⟨id', hid'⟩ : ∃ id', r.leadsTo id = some id' := by simp [leadsTo, hpend]
            have hin := h.leads id hmem id' hid'
            rw [isFound, isFound, hid', Option.any_some, Option.any_some, map_append, map_append]
            simp [hmem, hin]
          · have hout : id ∉ (unlabelled path).map entryId := fun hin => hmem (unlabelled_ids hin)
            rw [hunkn id hmem]
            simp only [isFound, Option.any_some, hbel, map_append, mem_append, hmem, hout, false_or, map_singleton]
        rw [if_neg hpend, hsees]
        exact rel_append (h.kept id) (hent _)

theorem retains (path : List Json) (hids : (path.map entryId).Nodup) : Retains path (path.foldl Retained.retain .start) := by
  induction path using reverseRecOn with
  | nil => exact ⟨.nil, nofun, fun _ h => absurd rfl h, nofun, fun _ => .nil⟩
  | append_singleton path entry ih =>
    rw [map_append, nodup_append] at hids
    rw [foldl_concat]
    exact (ih hids.1).retain fun hmem => hids.2.2 _ hmem _ (by simp) rfl

theorem foldl_retain (r : Retained) (path : List Json) : ∃ more, (path.foldl Retained.retain r).pathWithoutLabels = r.pathWithoutLabels ++ more ∧
    List.Forall₂ Same (unlabelled path) more := by
  induction path generalizing r with
  | nil => exact ⟨[], (append_nil _).symm, .nil⟩
  | cons entry path ih =>
    obtain ⟨more, hmore, hsame⟩ := ih (r.retain entry)
    rw [foldl_cons, hmore]
    unfold retain
    split
    · rename_i hlab
      exact ⟨more, rfl, by simpa [unlabelled, hlab] using hsame⟩
    · rename_i hlab
      refine ⟨r.rechained entry :: more, append_assoc .., ?_⟩
      simpa [unlabelled, hlab] using ⟨same_rechained r entry, hsame⟩

/-- The entry that a compaction is redirected to. -/
theorem firstKept_rechained {comp : Json} (hrec : ∃ m, comp = .obj m) (hcomp : isCompaction comp = true)
    {kept : Text} (hkept : textField "firstKeptEntryId" comp = some kept) (r : Retained) :
    textField "firstKeptEntryId" (r.rechained comp) = some
      (if kept = entryId comp then entryId comp else (Assoc.get? (r.replacements comp) kept).getD kept) := by
  obtain ⟨m, rfl⟩ := hrec
  have htype : entryType (.obj m) = some (text "compaction") := by simpa [isCompaction] using hcomp
  have hfield (v : Json) :
      field "firstKeptEntryId" (withField "firstKeptEntryId" v (withField "parentId" (nullable r.pathParentId) (.obj m))) = some v :=
    field_withField_self
  rw [rechained, if_pos htype, hkept]
  dsimp only
  rw [textField, hfield]

/-- What a compaction keeps, it keeps of what is retained. -/
theorem Retains.compaction {r : Retained} {comp : Json} (h : Retains path r) (hrec : ∃ m, comp = .obj m)
    (hcomp : isCompaction comp = true) (hnew : entryId comp ∉ path.map entryId) :
    List.Forall₂ Same (unlabelled (keptFrom (textField "firstKeptEntryId" comp) false path))
      (keptFrom (textField "firstKeptEntryId" (r.rechained comp)) false r.pathWithoutLabels) := by
  obtain ⟨m, rfl⟩ := hrec
  have htype : entryType (.obj m) = some (text "compaction") := by simpa [isCompaction] using hcomp
  have hself : ∀ es : List Json, (∀ id ∈ es.map entryId, id ∈ path.map entryId) →
      keptFrom (some (entryId (.obj m))) false es = [] := by
    intro es hsub
    have hout : entryId (.obj m) ∉ es.map entryId := fun hin => hnew (hsub _ hin)
    exact keptFrom_absent (by simp only [isFound, Option.any_some, hout, decide_false])
  have hretn : ∀ id ∈ r.pathWithoutLabels.map entryId, id ∈ path.map entryId := by
    rw [same_ids h.same]
    exact fun id hid => unlabelled_ids hid
  cases hkept : textField "firstKeptEntryId" (.obj m) with
  | none =>
    have hnone : textField "firstKeptEntryId" (r.rechained (.obj m)) = none := by
      rw [rechained, if_pos htype, hkept]
      simpa [textField_withField_ne] using hkept
    rw [hnone, keptFrom_absent rfl, keptFrom_absent rfl]
    exact .nil
  | some kept =>
    have hsome := firstKept_rechained ⟨m, rfl⟩ hcomp hkept r
    rw [hsome]
    split
    · rename_i hself'
      rw [hself', hself _ fun _ hid => hid, hself _ hretn]
      exact .nil
    · have hlead := h.kept kept
      rw [get?_replacements]
      split
      · rename_i hpend
        rw [leadsTo, if_pos hpend, keptFrom_absent (rfl : isFound none r.pathWithoutLabels = false)] at hlead
        rw [Option.getD_some, hself _ hretn]
        exact hlead
      · rename_i hpend
        rw [leadsTo, if_neg hpend] at hlead
        exact hlead

/-- Entries that are the same but for labels have the same edits. -/
theorem contextEdits_alike (h : List.Forall₂ Same (unlabelled es) (unlabelled es')) (id : Text) :
    (Assoc.get? (contextEdits es') id).map (field "replacement") = (Assoc.get? (contextEdits es) id).map (field "replacement") := by
  rw [← contextEdits_unlabelled es, ← contextEdits_unlabelled es']
  exact contextEdits_same h id

variable (getTime : Text → Json)

theorem flatMap_alike {edits edits' : Assoc Text Json} (h : List.Forall₂ Same (unlabelled es) (unlabelled es'))
    (hedit : ∀ id, (Assoc.get? edits' id).map (field "replacement") = (Assoc.get? edits id).map (field "replacement")) :
    es'.flatMap (laterMessages getTime edits') = es.flatMap (laterMessages getTime edits) := by
  rw [← flatMap_unlabelled, ← flatMap_unlabelled getTime edits]
  exact flatMap_same getTime h hedit

/-- What is retained has no labels. -/
theorem unlabelled_same (h : List.Forall₂ Same (unlabelled es) es') : unlabelled es' = es' := by
  have hlabs : ∀ entry ∈ unlabelled es, isLabel entry = false := by simp [unlabelled]
  generalize unlabelled es = kept at h hlabs
  induction h with
  | nil => rfl
  | @cons entry entry' kept es' hsame _ ih =>
    have hlab : isLabel entry' = false := by
      rw [isLabel, hsame.entryType]
      exact hlabs entry mem_cons_self
    rw [unlabelled, filter_cons, hlab]
    exact congrArg (entry' :: ·) (ih fun each heach => hlabs each (mem_cons_of_mem _ heach))

theorem plain_same (h : List.Forall₂ Same es es')
    (hents : ∀ entry ∈ es, isCompaction entry = false) : ∀ entry ∈ es', isCompaction entry = false := by
  induction h with
  | nil => exact hents
  | cons hsame _ ih =>
    simp only [forall_mem_cons] at hents ⊢
    refine ⟨?_, ih hents.2⟩
    rw [isCompaction, hsame.entryType]
    exact hents.1

/-- **What is retained of a path, with labels after it, shows the same.** -/
theorem projection_retained {labs : List Json} (hpath : ∀ entry ∈ path, ∃ m, entry = .obj m) (hids : (path.map entryId).Nodup)
    (hlabs : ∀ lab ∈ labs, isLabel lab = true)
    (hnew : (((path.foldl Retained.retain .start).pathWithoutLabels ++ labs).map entryId).Nodup) :
    buildSessionProjection getTime ((path.foldl Retained.retain .start).pathWithoutLabels ++ labs) =
      buildSessionProjection getTime path := by
  have hnone : unlabelled labs = [] := by simpa [unlabelled] using hlabs
  have hsame := (retains path hids).same
  have hunlabelled := unlabelled_same hsame
  have hsettings : getSessionContextSettings ((path.foldl retain .start).pathWithoutLabels ++ labs) = getSessionContextSettings path := by
    have hlab : ∀ (es : List Json) settings, (unlabelled es).foldl settingsAfter settings = es.foldl settingsAfter settings := by
      intro es
      induction es with
      | nil => exact fun _ => rfl
      | cons entry es ih =>
        intro settings
        cases h : isLabel entry with
        | false => simpa [unlabelled, h] using ih _
        | true =>
          have htype : entryType entry = some (text "label") := by simpa [isLabel] using h
          have hstays : settingsAfter settings entry = settings := by simp [settingsAfter, htype, text_inj]
          simpa [unlabelled, h, hstays] using ih settings
    have hfold : ∀ {es es' : List Json}, Forall₂ Same es es' →
        ∀ settings, es'.foldl settingsAfter settings = es.foldl settingsAfter settings := by
      intro es es' h
      induction h with
      | nil => exact fun _ => rfl
      | cons hsame _ ih => exact fun settings => by rw [foldl_cons, foldl_cons, hsame.settings, ih]
    rw [getSessionContextSettings, ← hlab, unlabelled_append, hunlabelled, hnone, append_nil, hfold hsame, hlab]
    rfl
  have hmsgs : (projectEntries getTime (buildContextEntries ((path.foldl retain .start).pathWithoutLabels ++ labs))).flatten =
      (projectEntries getTime (buildContextEntries path)).flatten := by
    have hkind : ∀ {es es' : List Json}, Forall₂ Same (unlabelled es) es' →
        (∀ entry ∈ es, isCompaction entry = false) → ∀ entry ∈ es' ++ labs, isCompaction entry = false := by
      intro es es' hsame hents entry hent
      rcases mem_append.mp hent with hent | hent
      · exact plain_same hsame (fun each heach => hents each (mem_of_mem_filter heach)) entry hent
      · have htype : entryType entry = some (text "label") := by simpa [isLabel] using hlabs entry hent
        simp [isCompaction, htype, text_inj]
    rcases eq_nil_or_concat (path.filter isCompaction) with hcompactions | ⟨_, comp, hcompactions⟩
    · have hplain : ∀ entry ∈ path, isCompaction entry = false := by simpa [filter_eq_nil_iff] using hcompactions
      have hplain' := hkind hsame hplain
      have halike : Forall₂ Same (unlabelled path) (unlabelled ((path.foldl retain .start).pathWithoutLabels ++ labs)) := by
        rwa [unlabelled_append, hunlabelled, hnone, append_nil]
      rw [buildContextEntries_plain hplain, buildContextEntries_plain hplain', projectEntries_plain getTime hplain,
        projectEntries_plain getTime hplain']
      exact flatMap_alike getTime halike (contextEdits_alike halike)
    · rw [concat_eq_append] at hcompactions
      obtain ⟨bef, rest, rfl, -, hrest⟩ := filter_eq_append_iff.mp hcompactions
      obtain ⟨between, aft, rfl, hbtw, hcomp, haft⟩ := filter_eq_cons_iff.mp hrest
      have haft' : ∀ entry ∈ aft, isCompaction entry = false := by simpa [filter_eq_nil_iff] using haft
      rw [← append_assoc] at hids hpath hnew ⊢
      generalize bef ++ between = bef at *
      have hlab : isLabel comp = false := isLabel_false (by simpa [isCompaction] using hcomp) (by decide)
      have hbef : (bef.map entryId).Nodup ∧ entryId comp ∉ bef.map entryId := by
        rw [map_append, nodup_append] at hids
        exact ⟨hids.1, fun hmem => hids.2.2 _ hmem _ mem_cons_self rfl⟩
      have hretains := retains bef hbef.1
      have hretain : (bef.foldl retain .start).retain comp = ⟨_, _, _, _⟩ := if_neg (by simp [hlab])
      obtain ⟨more, hmore, hsameMore⟩ := foldl_retain ((bef.foldl retain .start).retain comp) aft
      rw [foldl_append, foldl_cons, hmore, hretain] at hnew ⊢
      rw [append_assoc, append_assoc, singleton_append] at hnew ⊢
      have hsameCompaction := same_rechained (bef.foldl retain .start) comp
      have hcomp' : isCompaction ((bef.foldl retain .start).rechained comp) = true := by
        rwa [isCompaction, hsameCompaction.entryType]
      have hkept := hretains.compaction (hpath comp (by simp)) hcomp hbef.2
      rw [buildContextEntries_compaction hids hcomp haft',
        buildContextEntries_compaction hnew hcomp' (hkind hsameMore haft'), projectEntries_cons, projectEntries_cons]
      generalize hfst : textField "firstKeptEntryId" ((bef.foldl retain .start).rechained comp) = firstKept at hkept ⊢
      have hrest : Forall₂ Same (unlabelled (keptFrom (textField "firstKeptEntryId" comp) false bef ++ aft))
          (unlabelled (keptFrom firstKept false (bef.foldl retain .start).pathWithoutLabels ++ (more ++ labs))) := by
        rw [unlabelled_append, unlabelled_append, unlabelled_append, unlabelled_same hkept, unlabelled_same hsameMore, hnone, append_nil]
        exact rel_append hkept hsameMore
      have halike : Forall₂ Same
          (unlabelled (comp :: (keptFrom (textField "firstKeptEntryId" comp) false bef ++ aft)))
          (unlabelled ((bef.foldl retain .start).rechained comp ::
            (keptFrom firstKept false (bef.foldl retain .start).pathWithoutLabels ++ (more ++ labs)))) := by
        have hlab' : isLabel ((bef.foldl retain .start).rechained comp) = false := by
          rwa [isLabel, hsameCompaction.entryType]
        rw [unlabelled, unlabelled, filter_cons, filter_cons, hlab, hlab']
        exact .cons hsameCompaction hrest
      have hedit := contextEdits_alike halike
      rw [hsameCompaction.entryId, hsameCompaction.project getTime (hedit _), flatMap_alike getTime hrest hedit]
  simp only [buildSessionProjection, hsettings, hmsgs]

end Retained

end PiBridge.Session
