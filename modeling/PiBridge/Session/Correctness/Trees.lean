import PiBridge.Session.Correctness.Calls

/-!
# `Session.Correctness.Trees` — the entries of a session are a tree

IDs are unique and parents come first (`Tree`), so the walk up from an entry meets every entry once and ends at a root
(`walk_within`, `walk_complete`). What a branched session retains of such a walk, and the labels it adds, are a tree again.
-/

namespace PiBridge.Session

open Chord Lib List Option

/-- IDs are unique, and every parent is an earlier entry. -/
structure Tree (entries : List Json) : Prop where
  ids : (entries.map entryId).Nodup
  parents : ∀ before entry after, entries = before ++ entry :: after → ∀ id ∈ parentId entry, id ∈ before.map entryId

namespace Tree

variable {entries : List Json} {entry : Json}

theorem nil : Tree [] := ⟨nodup_nil, fun bef _ _ heq => absurd heq.symm (append_ne_nil_of_right_ne_nil bef (cons_ne_nil _ _))⟩

theorem concat (h : Tree entries) (hnew : entryId entry ∉ entries.map entryId) (hpar : ∀ id ∈ parentId entry, id ∈ entries.map entryId) :
    Tree (entries ++ [entry]) := by
  constructor
  · rw [map_append, map_singleton, nodup_append]
    refine ⟨h.ids, nodup_singleton _, fun id hid id' hid' => ?_⟩
    rw [mem_singleton.mp hid']
    rintro rfl
    exact hnew hid
  · intro bef each aft heq
    rcases eq_nil_or_concat aft with rfl | ⟨aft, last, rfl⟩
    · obtain ⟨rfl, hlast⟩ := append_inj' heq rfl
      obtain rfl := (cons.inj hlast).1
      exact hpar
    · rw [concat_eq_append, ← cons_append, ← append_assoc] at heq
      exact h.parents bef each aft (append_inj' heq rfl).1

end Tree

/-! ## The walk -/

section Walk

variable {m : SessionManager} {entries : List Json}

/-- The entries are those the manager knows by their IDs. -/
def SessionManager.Knows (m : SessionManager) (entries : List Json) : Prop :=
  ∀ id entry, Assoc.get? m.byId id = some entry → entry ∈ entries ∧ entryId entry = id

/-- The walk from an entry stays among it and those before it, and meets none twice. -/
theorem walk_within (hknows : m.Knows entries) (htree : Tree entries) (fuel : ℕ) {id : Option Text} {bef aft : List Json}
    (hents : entries = bef ++ aft) (hid : ∀ each ∈ id, each ∈ bef.map entryId) :
    (∀ entry ∈ m.walk fuel id, entry ∈ bef) ∧ ((m.walk fuel id).map entryId).Nodup := by
  induction fuel generalizing id bef aft with
  | zero => exact ⟨nofun, nodup_nil⟩
  | succ fuel ih =>
    unfold SessionManager.walk
    split
    · exact ⟨nofun, nodup_nil⟩
    · rename_i entry hget
      obtain ⟨tgt, htgt, hget⟩ := bind_eq_some_iff.mp hget
      have hin := hid tgt (mem_filter_iff.mp (mem_def.mpr htgt)).1
      obtain ⟨hent, hentryId⟩ := hknows _ _ hget
      have hbef : entry ∈ bef := by
        obtain ⟨same, hsame, heq⟩ := mem_map.mp hin
        have hmem : same ∈ entries := by
          rw [hents]
          exact mem_append_left aft hsame
        rwa [← inj_on_of_nodup_map htree.ids hmem hent (heq.trans hentryId.symm)]
      obtain ⟨earl, between, rfl⟩ := append_of_mem hbef
      rw [append_assoc, cons_append] at hents
      obtain ⟨hwithin, hnd⟩ := ih hents (htree.parents _ _ _ hents)
      constructor
      · rintro each heach
        rcases mem_cons.mp heach with rfl | heach
        · exact hbef
        · exact mem_append_left _ (hwithin each heach)
      · rw [map_cons, nodup_cons]
        refine ⟨fun hmem => ?_, hnd⟩
        obtain ⟨each, heach, heq⟩ := mem_map.mp hmem
        have hids := htree.ids
        rw [hents, map_append, map_cons, nodup_append] at hids
        exact hids.2.2 _ (mem_map_of_mem (hwithin each heach)) _ mem_cons_self heq

end Walk

/-! ## Branched paths -/

section Retained

variable {nums : Numbers} {entry : Json}

theorem textField_withField_ne {key name : String} (hne : name ≠ key) (x entry : Json) :
    textField key (withField name x entry) = textField key entry := by
  unfold textField
  rw [field_withField_ne x entry hne]

theorem parentId_withField (h : Record nums entry) (par : Option Text) : parentId (withField "parentId" (nullable par) entry) = par := by
  cases h with
  | obj =>
    unfold parentId textField
    rw [field_withField_self]
    cases par <;> rfl

/-- A record that is an entry. -/
structure EntryRecord (numbers : Numbers) (entry : Json) : Prop where
  record : Record numbers entry
  header : isHeader entry = false

/-- A rechained entry is the entry, below the one retained before it. -/
theorem rechained_spec (h : EntryRecord nums entry) (r : Retained) :
    EntryRecord nums (r.rechained entry) ∧ entryId (r.rechained entry) = entryId entry ∧ parentId (r.rechained entry) = r.pathParentId := by
  have hchained := h.record.withField (by decide : IsName (text "parentId"))
    ((PlainField.nullable r.pathParentId) _ rfl)
  have hheader : isHeader (withField "parentId" (nullable r.pathParentId) entry) = false := by
    rw [isHeader, entryType, textField_withField_ne (by decide)]
    exact h.header
  have hid : entryId (withField "parentId" (nullable r.pathParentId) entry) = entryId entry := by
    rw [entryId, textField_withField_ne (by decide)]
    rfl
  have hpar := parentId_withField h.record r.pathParentId
  unfold Retained.rechained
  split
  · split
    · refine ⟨⟨hchained.withField (by decide) .str, ?_⟩, ?_, ?_⟩
      · rw [isHeader, entryType, textField_withField_ne (by decide)]
        exact hheader
      · rw [entryId, textField_withField_ne (by decide)]
        exact hid
      · rw [parentId, textField_withField_ne (by decide)]
        exact hpar
    · exact ⟨⟨hchained, hheader⟩, hid, hpar⟩
  · exact ⟨⟨hchained, hheader⟩, hid, hpar⟩

/-- What is retained of a path is a tree of its entries. -/
structure Retained.Sound (numbers : Numbers) (r : Retained) (path : List Json) : Prop where
  tree : Tree r.pathWithoutLabels
  entries : ∀ entry ∈ r.pathWithoutLabels, EntryRecord numbers entry ∧ entryId entry ∈ path.map entryId
  parent : r.pathParentId = r.pathWithoutLabels.getLast?.map entryId

variable {path : List Json}

theorem Retained.Sound.retain {r : Retained} (h : r.Sound nums path) (hent : EntryRecord nums entry)
    (hnew : entryId entry ∉ path.map entryId) : (r.retain entry).Sound nums (path ++ [entry]) := by
  have hmore : ∀ {id : Text}, id ∈ path.map entryId → id ∈ (path ++ [entry]).map entryId := by
    intro id hid
    rw [map_append]
    exact mem_append_left _ hid
  unfold Retained.retain
  split
  · exact ⟨h.tree, fun each heach => ⟨(h.entries each heach).1, hmore (h.entries each heach).2⟩, h.parent⟩
  · obtain ⟨hrec, hid, hpar⟩ := rechained_spec hent r
    refine ⟨h.tree.concat ?_ ?_, ?_, ?_⟩
    · rw [hid]
      intro hmem
      obtain ⟨each, heach, heq⟩ := mem_map.mp hmem
      exact hnew (heq ▸ (h.entries each heach).2)
    · rw [hpar, h.parent]
      intro id hid
      obtain ⟨last, hlast, rfl⟩ := map_eq_some_iff.mp hid
      exact mem_map_of_mem (mem_of_getLast? hlast)
    · intro each heach
      rcases mem_snoc.mp heach with heach | rfl
      · exact ⟨(h.entries each heach).1, hmore (h.entries each heach).2⟩
      · refine ⟨hrec, ?_⟩
        rw [hid]
        exact mem_map_of_mem (mem_append_right _ (mem_singleton_self _))
    · rw [getLast?_concat, map_some, hid]

theorem retain_sound (hpath : ∀ entry ∈ path, EntryRecord nums entry) (hnd : (path.map entryId).Nodup) :
    (path.foldl Retained.retain .start).Sound nums path := by
  induction path using reverseRecOn with
  | nil => exact ⟨.nil, nofun, rfl⟩
  | append_singleton path entry ih =>
    rw [map_append, map_singleton, nodup_append] at hnd
    rw [foldl_concat]
    refine (ih (fun each heach => hpath each (mem_append_left _ heach)) hnd.1).retain ?_ ?_
    · exact hpath entry (mem_append_right _ (mem_singleton_self _))
    · exact fun hmem => hnd.2.2 _ hmem _ (mem_singleton_self _) rfl

/-- The entries for labels continue the path. -/
structure LabelEntries.Sound (numbers : Numbers) (l : LabelEntries) (path : List Json) : Prop where
  ids : l.pathEntryIds = (path ++ l.entries).map entryId
  tree : Tree (path ++ l.entries)
  entries : ∀ entry ∈ l.entries, EntryRecord numbers entry
  parent : ∀ id ∈ l.parentId, id ∈ (path ++ l.entries).map entryId

variable (each : LabelToWrite) (id : Text) (par : Option Text)

theorem labelEntry_record : EntryRecord nums (each.entry id par) := by
  refine ⟨Record.literal ["type", "id", "parentId", "timestamp", "targetId", "label"] rfl (by decide) (by decide) fun name x hx => ?_, ?_⟩
  · have hplain : ∀ fld ∈ [("type", some (Json.str (text "label"))), ("id", some (.str id)), ("parentId", some (nullable par)),
        ("timestamp", some (.str each.timestamp)), ("targetId", some (.str each.targetId)), ("label", some (.str each.label))],
        PlainField nums fld.2 := by simp
    exact hplain _ hx x rfl
  · simp [LabelToWrite.entry, isHeader, entryType, textField, text_inj]

theorem labelEntry_id : entryId (each.entry id par) = id := by
  simp [LabelToWrite.entry, entryId, textField]

theorem labelEntry_parentId : parentId (each.entry id par) = par := by
  have hfield : field "parentId" (each.entry id par) = some (nullable par) := by simp [LabelToWrite.entry]
  unfold parentId textField
  rw [hfield]
  cases par <;> rfl

theorem LabelEntries.Sound.addLabel {l : LabelEntries} (h : l.Sound nums path) (uuids : UuidSource)
    (each : LabelToWrite) : (l.addLabel uuids each).Sound nums path := by
  have hnew := generateId_new uuids l.pathEntryIds
  have hid := labelEntry_id each (generateId uuids l.pathEntryIds) l.parentId
  refine ⟨?_, ?_, ?_, ?_⟩
  · show l.pathEntryIds ++ [generateId uuids l.pathEntryIds] = (path ++ (l.entries ++ [each.entry _ l.parentId])).map entryId
    rw [← append_assoc, map_append, map_singleton, hid, ← h.ids]
  · show Tree (path ++ (l.entries ++ [each.entry _ l.parentId]))
    rw [← append_assoc]
    refine h.tree.concat ?_ ?_
    · rw [hid, ← h.ids]
      exact hnew
    · rw [labelEntry_parentId]
      exact h.parent
  · intro entry hent
    rcases mem_snoc.mp hent with hent | rfl
    · exact h.entries entry hent
    · exact labelEntry_record each _ l.parentId
  · rintro id hmem
    cases hmem
    show generateId uuids l.pathEntryIds ∈ (path ++ (l.entries ++ [each.entry _ l.parentId])).map entryId
    rw [← append_assoc, map_append, map_singleton, hid]
    exact mem_append_right _ (mem_singleton_self _)

theorem addLabels_sound {path : List Json} (hpath : Tree path) (uuids : UuidSource) (labs : List LabelToWrite) :
    (labs.foldl (LabelEntries.addLabel uuids)
      ⟨path.map entryId, [], (path.getLast?.map entryId).filter fun id => !id.isEmpty⟩).Sound nums path := by
  induction labs using reverseRecOn with
  | nil =>
    refine ⟨?_, ?_, nofun, ?_⟩
    · rw [foldl_nil, append_nil]
    · rw [foldl_nil, append_nil]
      exact hpath
    · rw [foldl_nil, append_nil]
      intro id hid
      obtain ⟨last, hlast, rfl⟩ := map_eq_some_iff.mp (mem_filter_iff.mp hid).1
      exact mem_map_of_mem (mem_of_getLast? hlast)
  | append_singleton labs each ih =>
    rw [foldl_concat]
    exact ih.addLabel uuids each

end Retained

/-! ## Sessions -/

/-- The records are a header and a tree of entries; the index is theirs, and the leaf is one of them or none. -/
structure SessionManager.Shaped (numbers : Numbers) (m : SessionManager) : Prop where
  header : ∃ header entries, m.fileEntries = header :: entries ∧ isHeader header = true ∧ (textField "id" header).isSome = true ∧
    Record numbers header ∧ ∀ entry ∈ entries, EntryRecord numbers entry
  index : m.toIndex.SameEntries (buildIndex m.fileEntries)
  tree : Tree (entriesOf m.fileEntries)
  leaf : ∀ id ∈ m.leafId, id ∈ (entriesOf m.fileEntries).map entryId

section Headers

variable {nums : Numbers}

theorem sessionHeader_record (hnum : nums.Exact) (id ts cwd : Text) (psess : Option Text) :
    Record nums (sessionHeader id ts cwd psess) := by
  refine Record.literal ["type", "version", "id", "timestamp", "cwd", "parentSession"] rfl (by decide) (by decide) fun name x hx => ?_
  have hver : Chord.Plain nums (.num 3) := .num (hnum.writes (n := 3) (by decide))
  have hplain : ∀ fld ∈ [("type", some (Json.str (text "session"))), ("version", some (.num 3)), ("id", some (.str id)),
      ("timestamp", some (.str ts)), ("cwd", some (.str cwd)), ("parentSession", psess.map .str)],
      PlainField nums fld.2 := by simp [PlainField.some_iff.mpr hver]
  exact hplain _ hx x rfl

theorem sessionHeader_header (id ts cwd : Text) (psess : Option Text) : isHeader (sessionHeader id ts cwd psess) = true := by
  simp [sessionHeader, isHeader, entryType, textField]

theorem sessionHeader_id (id ts cwd : Text) (psess : Option Text) : (textField "id" (sessionHeader id ts cwd psess)).isSome = true := by
  simp [sessionHeader, textField]

/-- Records behind a header are its entries. -/
theorem entriesOf_cons {header : Json} {entries : List Json} (hheader : isHeader header = true)
    (hents : ∀ entry ∈ entries, EntryRecord nums entry) : entriesOf (header :: entries) = entries := by
  unfold entriesOf
  rw [filter_cons, hheader]
  exact filter_eq_self.mpr fun entry hent => by rw [(hents entry hent).header]; rfl

end Headers

namespace SessionManager.Shaped

variable {nums : Numbers} {m : SessionManager} {call : Call}

theorem newSession (hnum : nums.Exact) (cwd : Text) (psess : Option Text) : (newSession call cwd psess).Shaped nums where
  header := ⟨_, [], rfl, sessionHeader_header _ _ _ _, sessionHeader_id _ _ _ _, sessionHeader_record hnum _ _ _ _, nofun⟩
  index := by
    show Index.SameEntries .empty (buildIndex [sessionHeader call.sessionId call.timestamp cwd psess])
    exact ⟨rfl, rfl, rfl⟩
  tree := by
    show Tree (entriesOf [sessionHeader call.sessionId call.timestamp cwd psess])
    exact .nil
  leaf := fun id hid => nomatch hid

section

variable (h : m.Shaped nums)

include h

theorem entries : ∀ entry ∈ entriesOf m.fileEntries, EntryRecord nums entry := by
  obtain ⟨header, entries, heq, hheader, -, -, hents⟩ := h.header
  rw [heq, entriesOf_cons hheader hents]
  exact hents

theorem records : ∀ entry ∈ m.fileEntries, Record nums entry := by
  obtain ⟨header, entries, heq, -, -, hrec, hents⟩ := h.header
  rw [heq]
  intro entry hent
  rcases mem_cons.mp hent with rfl | hent
  · exact hrec
  · exact (hents entry hent).record

theorem mem_keys (id : Text) : id ∈ m.byId.map Prod.fst ↔ id ∈ (entriesOf m.fileEntries).map entryId := by
  rw [h.index.1, mem_buildIndex]

theorem knows : m.Knows (entriesOf m.fileEntries) := by
  intro id entry hget
  rw [h.index.1] at hget
  exact of_get_buildIndex hget

/-- Another leaf that is an entry. -/
theorem moved (reserved : List Text) {leaf : Option Text} (hleaf : leaf = m.leafId ∨ ∀ id ∈ leaf, m.has id = true) :
    (m.moved reserved leaf).Shaped nums where
  header := h.header
  index := h.index
  tree := h.tree
  leaf := by
    rcases hleaf with rfl | hleaf
    · exact h.leaf
    · exact fun id hid => (h.mem_keys id).mp (has_iff.mp (hleaf id hid))

end

/-- An entry joins, below the leaf or another entry. -/
theorem push (h : m.Shaped nums) {entry : Json} {par : Option Text} (hent : NewEntry nums m par entry)
    (hpar : ∀ id ∈ par, id ∈ m.byId.map Prod.fst) {m' : SessionManager} (hrecs : m'.fileEntries = m.fileEntries ++ [entry])
    (hidx : m'.toIndex = indexEntry m.toIndex entry) : m'.Shaped nums where
  header := by
    obtain ⟨header, entries, heq, hheader, hid, hrec, hents⟩ := h.header
    refine ⟨header, entries ++ [entry], ?_, hheader, hid, hrec, fun each heach => ?_⟩
    · rw [hrecs, heq, cons_append]
    · rcases mem_snoc.mp heach with heach | rfl
      · exact hents each heach
      · exact ⟨hent.record, hent.header⟩
  index := by
    obtain ⟨hbyId, hlabs, htimestamps⟩ := h.index
    rw [hidx, hrecs, buildIndex_concat]
    have hsame : indexEntry m.toIndex entry = indexEntry (buildIndex m.fileEntries) entry := by
      rw [← indexEntry_moved hent.header (buildIndex m.fileEntries) m.leafId]
      rw [← hbyId, ← hlabs, ← htimestamps]
    rw [hsame]
    exact ⟨rfl, rfl, rfl⟩
  tree := by
    rw [hrecs, entriesOf_concat hent.header]
    refine h.tree.concat ?_ ?_
    · rw [← h.mem_keys]
      exact hent.new
    · rw [hent.parent]
      exact fun id hid => (h.mem_keys id).mp (hpar id hid)
  leaf := by
    rw [hidx, indexEntry_leafId hent.header, hrecs, entriesOf_concat hent.header]
    rintro id hid
    cases hid
    exact mem_map_of_mem (mem_append_right _ (mem_singleton_self _))

/-- A branch is of entries, and meets none twice. -/
theorem getBranch_within (h : m.Shaped nums) (leaf : Text) :
    (∀ entry ∈ m.getBranch (some leaf), entry ∈ entriesOf m.fileEntries) ∧ ((m.getBranch (some leaf)).map entryId).Nodup := by
  unfold SessionManager.getBranch
  rw [some_or, map_reverse, nodup_reverse]
  by_cases hleaf : leaf ∈ (entriesOf m.fileEntries).map entryId
  · have hid : ∀ each ∈ some leaf, each ∈ (entriesOf m.fileEntries).map entryId := by
      intro each heach
      rwa [← some.inj heach]
    obtain ⟨hwithin, hnd⟩ := walk_within h.knows h.tree m.byId.length (append_nil _).symm hid
    exact ⟨fun entry hent => hwithin entry (mem_reverse.mp hent), hnd⟩
  · have hnone : m.walk m.byId.length (some leaf) = [] := by
      cases m.byId.length with
      | zero => rfl
      | succ fuel =>
        rw [SessionManager.walk]
        split
        · rfl
        · rename_i entry hget
          obtain ⟨tgt, htgt, hget⟩ := bind_eq_some_iff.mp hget
          obtain rfl := some.inj (mem_filter_iff.mp (mem_def.mpr htgt)).1
          obtain ⟨hent, rfl⟩ := h.knows _ _ hget
          exact absurd (mem_map_of_mem hent) hleaf
    rw [hnone]
    exact ⟨nofun, nodup_nil⟩

/-- A branched session is shaped, whether or not its file is written. -/
theorem branched (hnum : nums.Exact) (h : m.Shaped nums) (call : Call) (leaf : Text) : (m.branched call leaf).Shaped nums := by
  have hbr := h.getBranch_within leaf
  have hpath := retain_sound (fun entry hent => h.entries entry (hbr.1 entry hent)) hbr.2
  have hlabs := @addLabels_sound nums _ hpath.tree call.uuids (m.labelsToWrite ((m.branchedPath leaf).map entryId))
  have hents : ∀ entry ∈ m.branchedPath leaf ++ m.branchedLabels call (m.branchedPath leaf), EntryRecord nums entry := by
    intro entry hent
    rcases mem_append.mp hent with hent | hent
    · exact (hpath.entries entry hent).1
    · exact hlabs.entries entry hent
  have htree : Tree (m.branchedPath leaf ++ m.branchedLabels call (m.branchedPath leaf)) := hlabs.tree
  have hrecs : (m.branched call leaf).fileEntries = sessionHeader call.sessionId call.timestamp m.cwd (some m.sessionFile) ::
    (m.branchedPath leaf ++ m.branchedLabels call (m.branchedPath leaf)) := rfl
  have hidx : (m.branched call leaf).toIndex = buildIndex (m.branched call leaf).fileEntries := rfl
  have hall := entriesOf_cons (sessionHeader_header call.sessionId call.timestamp m.cwd (some m.sessionFile)) hents
  refine ⟨⟨_, _, hrecs, sessionHeader_header _ _ _ _, sessionHeader_id _ _ _ _, sessionHeader_record hnum _ _ _ _, hents⟩, ?_, ?_, ?_⟩
  · rw [hidx]
    exact ⟨rfl, rfl, rfl⟩
  · rw [hrecs, hall]
    exact htree
  · rw [hidx, buildIndex_leafId]
    intro id hid
    obtain ⟨last, hlast, rfl⟩ := map_eq_some_iff.mp hid
    exact mem_map_of_mem (mem_of_getLast? hlast)

/-- The entry that a call appends below is one. -/
theorem parentOf (h : m.Shaped nums) {op : Operation nums} {entry : Json} (hent : m.entryToAppend call op = some entry) :
    ∀ id ∈ op.parentOf m, id ∈ m.byId.map Prod.fst := by
  have hleaf : ∀ id ∈ m.leafId, id ∈ m.byId.map Prod.fst := fun id hid => (h.mem_keys id).mpr (h.leaf id hid)
  cases op with
  | branchWithSummary bid summary details usage fromHook =>
    simp only [SessionManager.entryToAppend] at hent
    split at hent
    · rename_i hkn
      rintro id hid
      obtain rfl := mem_def.mp hid
      exact has_iff.mp hkn
    · cases hent
  | _ => exact hleaf

/-- **A call keeps the shape**, whatever fails. -/
theorem performed (hnum : nums.Exact) (h : m.Shaped nums) {op : Operation nums} {m' : SessionManager}
    {res : Except Thrown Text} (hperfd : Performed m call op m' res) : m'.Shaped nums := by
  cases hperfd with
  | stays _ hleaf _ => exact h.moved _ hleaf
  | appends hent hpers => exact h.push (newEntry_of_entryToAppend hent) (h.parentOf hent) rfl rfl
  | @fails reserved entry file fls hent hpers =>
    have hleaf : ∀ id ∈ op.parentOf m, m.has id = true := fun id hid => has_iff.mpr (h.parentOf hent id hid)
    obtain ⟨hheader, hidx, htree, hleaf⟩ := h.moved reserved (.inr hleaf)
    exact ⟨hheader, hidx, htree, hleaf⟩
  | branches hop _ _ | branchesWritten hop _ _ _ | branchesFails hop _ _ _ =>
    obtain ⟨hheader, hidx, htree, hleaf⟩ := branched hnum h call _
    exact ⟨hheader, hidx, htree, hleaf⟩

theorem run (hnum : nums.Exact) (h : m.Shaped nums) (cs : List (Call × Operation nums)) : (m.run cs).Shaped nums := by
  induction cs generalizing m with
  | nil => exact h
  | cons each cs ih => exact ih (h.performed hnum (Session.performed m each.1 each.2))

end SessionManager.Shaped

end PiBridge.Session
