import PiBridge.Session.Manager

/-!
# `Session.Correctness.Calls` — what one call does

A call that appends builds its entry below the leaf, or below the entry it branches from, and persists it (`Persisted`). A
call ends in one of a few ways (`Performed`): the claims about sequences of calls are inductions over these.
-/

namespace PiBridge.Session

open Chord Lib List Option Assoc SessionManager

/-! ## IDs -/

section Ids

variable {m : SessionManager} {call : Call}

theorem generateId_new (uuids : UuidSource) (used : List Text) : generateId uuids used ∉ used := by
  unfold generateId
  cases h : (uuids.draw used).1.find? fun id => decide (id ∉ used) with
  | none =>
    show (uuids.draw used).2 ∉ used
    exact uuids.new used
  | some id =>
    show id ∉ used
    have hnew := find?_some h
    exact of_decide_eq_true hnew

theorem newEntryId_new : m.newEntryId call ∉ m.byId.map Prod.fst := by
  intro hmem
  exact generateId_new call.uuids _ (mem_append_left _ hmem)

theorem has_iff {id : Text} : m.has id = true ↔ id ∈ m.byId.map Prod.fst := by
  unfold has
  rw [← not_iff_not, Bool.not_eq_true, isSome_eq_false_iff, isNone_iff_eq_none, get?_eq_none_iff]

end Ids

/-! ## Writes -/

/-- How `_persist` leaves the file, and whether it returns. -/
inductive Persisted (numbers : Numbers) (m : SessionManager) (entry : Json) (fault : Option Fault) : Option Text → Bool → Bool → Prop
  | waits (hflushed : m.flushed = false) (hconversation : m.hasConversation = false) : Persisted numbers m entry fault m.file false true
  | creates (hflushed : m.flushed = false) (hconversation : m.hasConversation = true) (hfile : m.file = none) (hfault : fault = none) :
      Persisted numbers m entry fault (some (lines numbers m.fileEntries)) true true
  | appends (hflushed : m.flushed = true) (hfault : fault = none) :
      Persisted numbers m entry fault (some (m.file.getD [] ++ line numbers entry)) true true
  | isThere (hflushed : m.flushed = false) (hconversation : m.hasConversation = true) (hfile : m.file ≠ none) :
      Persisted numbers m entry fault m.file false false
  | unopened (hwrites : m.flushed = true ∨ m.hasConversation = true) (hfault : fault = some .opening) :
      Persisted numbers m entry fault m.file m.flushed false
  | createdPart {bytes : ℕ} (hflushed : m.flushed = false) (hconversation : m.hasConversation = true) (hfile : m.file = none)
      (hfault : fault = some (.after bytes)) :
      Persisted numbers m entry fault (some (written (lines numbers m.fileEntries) bytes)) false false
  | appendedPart {bytes : ℕ} (hflushed : m.flushed = true) (hfault : fault = some (.after bytes)) :
      Persisted numbers m entry fault (some (m.file.getD [] ++ written (line numbers entry) bytes)) true false

theorem persist_cases (nums : Numbers) (m : SessionManager) (e : Json) (fault : Option Fault) :
    ∃ file fls returns, Persisted nums m e fault file fls returns ∧
      m.persist nums e fault = ({ m with file := file, flushed := fls }, returns) := by
  obtain ⟨idx, cwd, sessionFile, file, fls, fileEntries, reservedIds⟩ := m
  unfold persist
  cases fls with
  | false =>
    rw [if_pos Bool.not_false]
    split
    · rename_i hconv
      rw [Bool.not_eq_true'] at hconv
      exact ⟨_, _, _, .waits rfl hconv, rfl⟩
    · rename_i hconv
      rw [Bool.not_eq_true', Bool.not_eq_false] at hconv
      cases file with
      | some cont => exact ⟨_, _, _, .isThere rfl hconv (some_ne_none cont), rfl⟩
      | none =>
        cases fault with
        | none => exact ⟨_, _, _, .creates rfl hconv rfl rfl, rfl⟩
        | some fault =>
          cases fault with
          | opening => exact ⟨_, _, _, .unopened (.inr hconv) rfl, rfl⟩
          | after bs => exact ⟨_, _, _, .createdPart rfl hconv rfl rfl, rfl⟩
  | true =>
    cases fault with
    | none => exact ⟨_, _, _, .appends rfl rfl, rfl⟩
    | some fault =>
      cases fault with
      | opening => exact ⟨_, _, _, .unopened (.inl rfl) rfl, rfl⟩
      | after bs => exact ⟨_, _, _, .appendedPart rfl rfl, rfl⟩

/-! ## Entries -/

/-- The entry that what a call appends is below. -/
def Operation.parentOf {numbers : Numbers} (m : SessionManager) : Operation numbers → Option Text
  | .branchWithSummary branchFromId _ _ _ _ => branchFromId
  | _ => m.leafId

/-- The manager, with other reservations and at another leaf. -/
def SessionManager.moved (m : SessionManager) (reserved : List Text) (leaf : Option Text) : SessionManager :=
  { m with reservedIds := reserved, leafId := leaf }

/-- An entry that may join the records. -/
structure NewEntry (numbers : Numbers) (m : SessionManager) (parent : Option Text) (entry : Json) : Prop where
  record : Record numbers entry
  header : isHeader entry = false
  new : entryId entry ∉ m.byId.map Prod.fst
  parent : parentId entry = parent

/-- The value of a property, where it has one, is plain. -/
def PlainField (numbers : Numbers) (x : Option Json) : Prop := ∀ y, x = some y → Chord.Plain numbers y

namespace PlainField

variable {nums : Numbers}

theorem some_iff {x : Json} : PlainField nums (some x) ↔ Chord.Plain nums x := ⟨fun h => h x rfl, fun h _ hy => some.inj hy ▸ h⟩

@[simp] theorem str (s : Text) : PlainField nums (some (.str s)) := some_iff.2 .str

@[simp] theorem bool (b : Bool) : PlainField nums (some (.bool b)) := some_iff.2 .bool

@[simp] theorem nullable (s : Option Text) : PlainField nums (some (nullable s)) := by
  cases s with
  | none => exact some_iff.2 .null
  | some s => exact str s

@[simp] theorem value (x : Value nums) : PlainField nums (some x.val) := some_iff.2 x.property

@[simp] theorem map_str (s : Option Text) : PlainField nums (s.map .str) := by
  rintro y hy
  obtain ⟨s, -, rfl⟩ := map_eq_some_iff.mp hy
  exact .str

@[simp] theorem map_bool (b : Option Bool) : PlainField nums (b.map .bool) := by
  rintro y hy
  obtain ⟨b, -, rfl⟩ := map_eq_some_iff.mp hy
  exact .bool

@[simp] theorem unattach (x : Option (Value nums)) : PlainField nums x.unattach := by
  cases x with
  | none => exact fun y hy => nomatch hy
  | some x => exact some_iff.2 x.property

end PlainField

section Entries

variable {nums : Numbers} {m : SessionManager} {call : Call}

/-- A literal with the properties of an entry. -/
theorem newEntry_literal {flds : List (String × Option Json)} {id : Text} {par : Option Text} (kind : String) (names : List String)
    (hnew : id ∉ m.byId.map Prod.fst) (hplain : ∀ each ∈ flds, PlainField nums each.2 := by simp)
    (hflds : flds.map Prod.fst = names := by rfl) (hkeys : names.Nodup := by decide)
    (hnams : ∀ name ∈ names, IsName (text name) := by decide) (hkind : kind ≠ "session" := by decide)
    (htype : field "type" (record flds) = some (.str (text kind)) := by simp)
    (hid : field "id" (record flds) = some (.str id) := by simp)
    (hpar : field "parentId" (record flds) = some (nullable par) := by simp [Operation.parentOf]) : NewEntry nums m par (record flds) where
  record := Record.literal names hflds hkeys hnams fun name x hx => hplain (name, some x) hx x rfl
  header := by
    unfold isHeader entryType textField
    rw [htype]
    exact decide_eq_false fun heq => hkind (text_inj.mp (some.inj heq))
  new := by
    unfold entryId textField
    rw [hid]
    exact hnew
  parent := by
    unfold parentId textField
    rw [hpar]
    cases par <;> rfl

/-- The ID that a call consumes is new. -/
theorem consumed_new {rid : Option Text} (h : ¬rid.any m.has = true) :
    rid.getD (m.newEntryId call) ∉ m.byId.map Prod.fst := by
  cases rid with
  | none => exact newEntryId_new
  | some id => exact fun hmem => h (has_iff.2 hmem)

theorem plainField_replacement (tgt : Json) (rpl : Value nums) :
    PlainField nums (some (SessionManager.normalizedReplacement tgt rpl.val)) := by
  rw [PlainField.some_iff]
  unfold normalizedReplacement
  split
  · split
    · refine (Record.literal ["content"] rfl (by decide) (by decide) fun name x hx => ?_).plain
      obtain rfl := some.inj (Prod.mk.inj (mem_singleton.mp hx)).2
      refine .arr fun part hpart => ?_
      rw [mem_singleton.mp hpart]
      refine (Record.literal ["type", "text"] rfl (by decide) (by decide) fun name x hx => ?_).plain
      simp only [mem_cons, Prod.mk.injEq, some.injEq, not_mem_nil, or_false] at hx
      rcases hx with ⟨-, rfl⟩ | ⟨-, rfl⟩
      all_goals exact .str
    · exact rpl.property
  · exact rpl.property

/-- The entry of a call that is not refused is new. -/
theorem newEntry_of_entryToAppend {op : Operation nums} {e : Json} (h : m.entryToAppend call op = some e) :
    NewEntry nums m (op.parentOf m) e := by
  have hnew := @newEntryId_new m call
  cases op with
  | reserveEntryId | releaseEntryId | branch | resetLeaf | createBranchedSession => exact nomatch h
  | appendMessage msg rid =>
    simp only [entryToAppend] at h
    split at h
    · exact nomatch h
    rename_i hfree
    have hconsumed := @consumed_new m call rid hfree
    cases h
    exact newEntry_literal "message" ["type", "id", "parentId", "timestamp", "message"] hconsumed
  | appendThinkingLevelChange thinkingLevel =>
    cases h
    exact newEntry_literal "thinking_level_change" ["type", "id", "parentId", "timestamp", "thinkingLevel"] hnew
  | appendModelChange prov modelId =>
    cases h
    exact newEntry_literal "model_change" ["type", "id", "parentId", "timestamp", "provider", "modelId"] hnew
  | appendUsage kind prov model usage note =>
    cases h
    exact newEntry_literal "usage" ["type", "id", "parentId", "timestamp", "kind", "provider", "model", "usage", "note"] hnew
  | appendCompaction summary firstKeptEntryId tokensBefore details usage fromHook systemMessage =>
    cases h
    exact newEntry_literal "compaction" ["type", "id", "parentId", "timestamp", "summary", "firstKeptEntryId", "tokensBefore", "details",
      "usage", "fromHook", "systemMessage"] hnew
  | appendCustomEntry customType data =>
    cases h
    exact newEntry_literal "custom" ["type", "customType", "data", "id", "parentId", "timestamp"] hnew
  | appendSessionInfo name =>
    cases h
    exact newEntry_literal "session_info" ["type", "id", "parentId", "timestamp", "name"] hnew
  | appendCustomMessageEntry customType cont display details rid =>
    simp only [entryToAppend] at h
    split at h
    · exact nomatch h
    rename_i hfree
    have hconsumed := @consumed_new m call rid hfree
    cases h
    exact newEntry_literal "custom_message" ["type", "customType", "content", "display", "details", "id", "parentId", "timestamp"] hconsumed
  | appendContextEdit targetId rpl =>
    obtain ⟨tgt, -, rfl⟩ := map_eq_some_iff.mp h
    exact newEntry_literal "context_edit" ["type", "id", "parentId", "timestamp", "targetId", "replacement"] hnew (by simp [plainField_replacement])
  | appendLabelChange targetId lab =>
    simp only [entryToAppend] at h
    split at h
    · cases h
      exact newEntry_literal "label" ["type", "id", "parentId", "timestamp", "targetId", "label"] hnew
    · exact nomatch h
  | branchWithSummary bid summary details usage fromHook =>
    simp only [entryToAppend] at h
    split at h
    · cases h
      exact newEntry_literal "branch_summary" ["type", "id", "parentId", "timestamp", "fromId", "summary", "details", "usage", "fromHook"] hnew
    · exact nomatch h

end Entries

/-! ## Calls -/

/-- How a call ends: without an append, with its entry or without, or in a branched session, whose file may be incomplete. -/
inductive Performed {numbers : Numbers} (m : SessionManager) (call : Call) (op : Operation numbers) :
    SessionManager → Except Thrown Text → Prop
  | stays {reserved : List Text} {leaf : Option Text} {result : Except Thrown Text} (hentry : m.entryToAppend call op = none)
      (hleaf : leaf = m.leafId ∨ ∀ id ∈ leaf, m.has id = true) (hresult : result ≠ .error .io) :
      Performed m call op (m.moved reserved leaf) result
  | appends {reserved : List Text} {entry : Json} {file : Option Text} {flushed : Bool} (hentry : m.entryToAppend call op = some entry)
      (hpersisted : Persisted numbers ((m.moved reserved (op.parentOf m)).push entry) entry call.fault file flushed true) :
      Performed m call op
        { (m.moved reserved (op.parentOf m)).push entry with toIndex := indexEntry m.toIndex entry, file := file, flushed := flushed }
        (.ok (entryId entry))
  | fails {reserved : List Text} {entry : Json} {file : Option Text} {flushed : Bool} (hentry : m.entryToAppend call op = some entry)
      (hpersisted : Persisted numbers ((m.moved reserved (op.parentOf m)).push entry) entry call.fault file flushed false) :
      Performed m call op { m.moved reserved (op.parentOf m) with file := file, flushed := flushed } (.error .io)
  | branches {leafId : Text} (hop : op = .createBranchedSession leafId) (hpath : m.getBranch (some leafId) ≠ [])
      (hconversation : (m.branched call leafId).hasConversation = false) :
      Performed m call op { m.branched call leafId with flushed := false } (.ok call.sessionFile)
  | branchesWritten {leafId : Text} (hop : op = .createBranchedSession leafId) (hpath : m.getBranch (some leafId) ≠ [])
      (hconversation : (m.branched call leafId).hasConversation = true) (hfault : call.fault = none) :
      Performed m call op
        { m.branched call leafId with file := some (lines numbers (m.branched call leafId).fileEntries), flushed := true }
        (.ok call.sessionFile)
  | branchesFails {leafId : Text} {file : Option Text} (hop : op = .createBranchedSession leafId) (hpath : m.getBranch (some leafId) ≠ [])
      (hconversation : (m.branched call leafId).hasConversation = true) (hfault : call.fault ≠ none) :
      Performed m call op { m.branched call leafId with file := file } (.error .io)

section Calls

variable {nums : Numbers} {m : SessionManager} {call : Call}

/-- An entry is persisted with the records, or taken back. -/
theorem appendEntry_cases {e : Json} (hnew : entryId e ∉ m.byId.map Prod.fst) (fault : Option Fault) : ∃ file flushed,
      (Persisted nums (m.push e) e fault file flushed true ∧
        m.appendEntry nums e fault = ({ m.push e with file := file, flushed := flushed }, .ok (entryId e))) ∨
      (Persisted nums (m.push e) e fault file flushed false ∧
        m.appendEntry nums e fault = ({ m with file := file, flushed := flushed }, .error .io)) := by
  obtain ⟨file, flushed, returns, hpers, hpersist⟩ := persist_cases nums (m.push e) e fault
  refine ⟨file, flushed, ?_⟩
  unfold appendEntry
  rw [hpersist]
  cases returns with
  | true => exact .inl ⟨hpers, rfl⟩
  | false =>
    refine .inr ⟨hpers, Prod.ext ?_ rfl⟩
    have hbyId : erase (set m.byId (entryId e) e) (entryId e) = m.byId := by
      rw [set_eq_append e hnew, erase_eq_filter, filter_append, filter_singleton]
      have hothers : ∀ each ∈ m.byId, decide (each.1 ≠ entryId e) = true :=
        fun each heach => decide_eq_true fun heq => hnew (heq ▸ mem_map_of_mem heach)
      rw [filter_eq_self.mpr hothers, decide_eq_false (not_not.mpr rfl)]
      exact append_nil _
    show ({ m with
      file := file
      flushed := flushed
      fileEntries := (m.fileEntries ++ [e]).dropLast
      byId := erase (set m.byId (entryId e) e) (entryId e) } : SessionManager) = _
    rw [hbyId, dropLast_concat]

theorem indexEntry_moved {e : Json} (h : isHeader e = false) (idx : Index) (leaf : Option Text) :
    indexEntry { idx with leafId := leaf } e = indexEntry idx e := by
  unfold indexEntry
  rw [if_neg (Bool.eq_false_iff.mp h), if_neg (Bool.eq_false_iff.mp h)]
  rfl

theorem indexEntry_plain {e : Json} (hheader : isHeader e = false) (hlab : isLabel e = false) (idx : Index) :
    indexEntry idx e = idx.add e := by
  unfold indexEntry
  rw [if_neg (Bool.eq_false_iff.mp hheader), if_neg (Bool.eq_false_iff.mp hlab)]

/-- A call that appends an entry which is no label. -/
theorem performed_append {op : Operation nums} {e : Json} {reserved : List Text} (hent : m.entryToAppend call op = some e)
    (hlab : isLabel e = false)
    (hperf : m.perform call op = (m.moved reserved (op.parentOf m)).appendEntry nums e call.fault) :
    Performed m call op (m.perform call op).1 (m.perform call op).2 := by
  have hnew := newEntry_of_entryToAppend hent
  rw [hperf]
  obtain ⟨file, flushed, ⟨hpers, happ⟩ | ⟨hpers, happ⟩⟩ :=
    @appendEntry_cases nums (m.moved reserved (op.parentOf m)) e hnew.new call.fault
  · rw [happ]
    have hidx : indexEntry m.toIndex e = (m.moved reserved (op.parentOf m)).toIndex.add e := by
      rw [← indexEntry_moved hnew.header m.toIndex (op.parentOf m), indexEntry_plain hnew.header hlab]
      rfl
    have := Performed.appends hent hpers
    rwa [hidx] at this
  · rw [happ]
    exact .fails hent hpers

/-- A label that was appended is in force. -/
theorem performed_label {tgt : Text} {lab : Option Text} (htgt : m.has tgt = true) :
    Performed m call (.appendLabelChange tgt lab : Operation nums) (m.perform call (.appendLabelChange tgt lab : Operation nums)).1
      (m.perform call (.appendLabelChange tgt lab : Operation nums)).2 := by
  have hent : m.entryToAppend call (.appendLabelChange tgt lab : Operation nums) = some (m.labelEntry call tgt lab) := if_pos htgt
  have hnew := newEntry_of_entryToAppend hent
  have hlab : isLabel (m.labelEntry call tgt lab) = true := by
    simp [labelEntry, isLabel, entryType, textField]
  have htargetId : targetId (m.labelEntry call tgt lab) = tgt := by
    simp [labelEntry, targetId, textField]
  have htimestamp : entryTimestamp (m.labelEntry call tgt lab) = call.timestamp := by
    simp [labelEntry, entryTimestamp, textField]
  have hentryLabel : entryLabel (m.labelEntry call tgt lab) = lab.filter fun lab => !lab.isEmpty := by
    cases lab <;> simp [labelEntry, entryLabel, textField]
  show Performed m call _ (m.appendLabelChange nums call tgt lab).1 (m.appendLabelChange nums call tgt lab).2
  unfold appendLabelChange
  rw [if_pos htgt]
  obtain ⟨file, flushed, ⟨hpers, happ⟩ | ⟨hpers, happ⟩⟩ := @appendEntry_cases nums m _ hnew.new call.fault
  · rw [happ]
    have happended := @Performed.appends nums m call _ m.reservedIds _ _ _ hent hpers
    have hidx : indexEntry m.toIndex (m.labelEntry call tgt lab) =
        (m.toIndex.add (m.labelEntry call tgt lab)).relabel tgt (lab.filter fun lab => !lab.isEmpty) call.timestamp := by
      unfold indexEntry
      rw [if_neg (Bool.eq_false_iff.mp hnew.header), if_pos hlab, htargetId, htimestamp, hentryLabel]
    rwa [hidx] at happended
  · rw [happ]
    exact @Performed.fails nums m call _ m.reservedIds _ _ _ hent hpers

theorem has_of_filter {id : Option Text} (h : (id.filter fun id => !m.has id) = none) : ∀ each ∈ id, m.has each = true := by
  rintro each heach
  obtain rfl := mem_def.mp heach
  by_contra hnot
  rw [filter_some, Bool.eq_false_iff.mpr hnot, Bool.not_false, if_pos rfl] at h
  exact nomatch h

/-- A call that is refused changes nothing. -/
theorem performed_refused {op : Operation nums} {thrown : Thrown} (hent : m.entryToAppend call op = none) (hthrown : thrown ≠ .io)
    (hperf : m.perform call op = (m, .error thrown)) : Performed m call op (m.perform call op).1 (m.perform call op).2 := by
  rw [hperf]
  exact @Performed.stays nums m call op m.reservedIds m.leafId _ hent (.inl rfl) fun heq => hthrown (Except.error.inj heq)

/-- A call that appends an entry under an ID that it may have reserved. -/
theorem performed_consumed {op : Operation nums} {rid : Option Text} (e : Text → Json)
    (hent : m.entryToAppend call op = if rid.any m.has then none else some (e (rid.getD (m.newEntryId call))))
    (hlab : ∀ id, isLabel (e id) = false) (hpar : op.parentOf m = m.leafId)
    (hperf : ∀ res, m.consumeEntryId call rid = res → (∀ thrown, res = .error thrown → m.perform call op = (m, .error thrown)) ∧
        ∀ m' id, res = .ok (m', id) → m.perform call op = m'.appendEntry nums (e id) call.fault) :
    Performed m call op (m.perform call op).1 (m.perform call op).2 := by
  obtain ⟨herr, hok⟩ := hperf _ rfl
  cases rid with
  | none =>
    refine @performed_append nums m call op _ m.reservedIds hent (hlab _) ?_
    rw [hpar]
    exact hok m _ rfl
  | some id =>
    cases hfree : m.has id with
    | true =>
      rw [any_some, hfree, if_pos rfl] at hent
      refine performed_refused hent Thrown.noConfusion (herr (alreadyPersisted id) ?_)
      exact if_pos hfree
    | false =>
      rw [any_some, hfree, if_neg Bool.false_ne_true] at hent
      refine @performed_append nums m call op _ (m.reservedIds.filter (· ≠ id)) hent (hlab _) ?_
      rw [hpar]
      exact hok _ _ (if_neg (Bool.eq_false_iff.mp hfree))

theorem ok_ne_io (s : Text) : (Except.ok s : Except Thrown Text) ≠ .error .io := by
  intro heq
  exact nomatch heq

/-- **How every call ends.** -/
theorem performed (m : SessionManager) (call : Call) (op : Operation nums) :
    Performed m call op (m.perform call op).1 (m.perform call op).2 := by
  cases op with
  | reserveEntryId => exact .stays rfl (.inl rfl) (ok_ne_io _)
  | releaseEntryId id =>
    cases hfree : m.has id with
    | true => exact performed_refused rfl Thrown.noConfusion (if_pos hfree)
    | false =>
      have hperf : m.perform call (.releaseEntryId id : Operation nums) =
          (m.moved (m.reservedIds.filter (· ≠ id)) m.leafId, .ok id) := if_neg (Bool.eq_false_iff.mp hfree)
      rw [hperf]
      exact .stays rfl (.inl rfl) (ok_ne_io _)
  | appendMessage msg rid =>
    refine performed_consumed (fun id => m.messageEntry call id msg.val) rfl ?_ rfl ?_
    · simp [messageEntry, isLabel, entryType, textField, text_inj]
    · rintro res rfl
      constructor
      · rintro thrown hthrown
        show m.appendMessage nums call msg.val rid = _
        rw [appendMessage, hthrown]
      · rintro m' id hok
        show m.appendMessage nums call msg.val rid = _
        rw [appendMessage, hok]
  | appendThinkingLevelChange | appendModelChange | appendUsage | appendCompaction | appendCustomEntry | appendSessionInfo =>
    refine @performed_append nums m call _ _ m.reservedIds rfl ?_ rfl
    simp [thinkingLevelChangeEntry, modelChangeEntry, usageEntry, SessionManager.compactionEntry, customEntry,
      sessionInfoEntry, isLabel, entryType, textField, text_inj]
  | appendCustomMessageEntry customType cont display details rid =>
    refine performed_consumed (fun id => m.customMessageEntry call id customType cont.val display (details.map Subtype.val)) rfl ?_ rfl ?_
    · simp [customMessageEntry, isLabel, entryType, textField, text_inj]
    · rintro res rfl
      constructor
      · rintro thrown hthrown
        show m.appendCustomMessageEntry nums call customType cont.val display (details.map Subtype.val) rid = _
        rw [appendCustomMessageEntry, hthrown]
      · rintro m' id hok
        show m.appendCustomMessageEntry nums call customType cont.val display (details.map Subtype.val) rid = _
        rw [appendCustomMessageEntry, hok]
  | appendContextEdit targetId rpl =>
    have hperf : m.perform call (.appendContextEdit targetId rpl : Operation nums) =
      m.appendContextEdit nums call targetId rpl.val := rfl
    rw [appendContextEdit] at hperf
    cases htgt : m.editTarget targetId rpl.val with
    | error thrown =>
      rw [htgt] at hperf
      refine performed_refused ?_ ?_ hperf
      · rw [entryToAppend, htgt]
        rfl
      · rintro rfl
        unfold editTarget at htgt
        repeat' split at htgt
        all_goals cases htgt
    | ok tgt =>
      rw [htgt] at hperf
      refine @performed_append nums m call _ _ m.reservedIds ?_ ?_ hperf
      · rw [entryToAppend, htgt]
        rfl
      · simp [contextEditEntry, isLabel, entryType, textField, text_inj]
  | appendLabelChange tgt lab =>
    cases htgt : m.has tgt with
    | true => exact performed_label htgt
    | false =>
      have hnot := Bool.eq_false_iff.mp htgt
      exact performed_refused (if_neg hnot) Thrown.noConfusion (if_neg hnot)
  | branch bid =>
    cases htgt : m.has bid with
    | true =>
      have hperf : m.perform call (.branch bid : Operation nums) =
        (m.moved m.reservedIds (some bid), .ok bid) := if_pos htgt
      rw [hperf]
      refine .stays rfl (.inr ?_) (ok_ne_io _)
      rintro id hid
      cases hid
      exact htgt
    | false => exact performed_refused rfl Thrown.noConfusion (if_neg (Bool.eq_false_iff.mp htgt))
  | resetLeaf =>
    exact .stays rfl (.inr fun id hid => absurd hid (not_mem_none id)) (ok_ne_io _)
  | branchWithSummary bid summary details usage fromHook =>
    have hperf : m.perform call (.branchWithSummary bid summary details usage fromHook : Operation nums) =
      m.branchWithSummary nums call bid summary (details.map Subtype.val) (usage.map Subtype.val) fromHook := rfl
    rw [branchWithSummary] at hperf
    cases htgt : bid.filter fun id => !m.has id with
    | some id =>
      rw [htgt] at hperf
      refine performed_refused ?_ Thrown.noConfusion hperf
      obtain ⟨hid, hmiss⟩ := filter_eq_some_iff.mp htgt
      rw [entryToAppend, hid, all_some]
      exact if_neg (by simpa using hmiss)
    | none =>
      rw [htgt] at hperf
      refine @performed_append nums m call _ _ m.reservedIds ?_ ?_ hperf
      · rw [entryToAppend, if_pos]
        have hkn := has_of_filter htgt
        cases bid with
        | none => rfl
        | some id => exact hkn id rfl
      · simp [branchSummaryEntry, isLabel, entryType, textField, text_inj]
  | createBranchedSession leaf =>
    have hperf : m.perform call (.createBranchedSession leaf : Operation nums) = m.createBranchedSession nums call leaf := rfl
    rw [createBranchedSession] at hperf
    by_cases hpath : m.getBranch (some leaf) = []
    · rw [if_pos (isEmpty_iff.mpr hpath)] at hperf
      exact performed_refused rfl Thrown.noConfusion hperf
    rw [if_neg fun hemp => hpath (isEmpty_iff.mp hemp)] at hperf
    cases hconv : (m.branched call leaf).hasConversation with
    | false =>
      rw [hconv, if_neg Bool.false_ne_true] at hperf
      rw [hperf]
      exact .branches rfl hpath hconv
    | true =>
      rw [hconv, if_pos rfl] at hperf
      cases hfault : call.fault with
      | none =>
        rw [hfault] at hperf
        rw [hperf]
        exact .branchesWritten rfl hpath hconv hfault
      | some fault =>
        have hne : call.fault ≠ none := by
          rw [hfault]
          exact some_ne_none fault
        rw [hfault] at hperf
        cases fault with
        | opening =>
          rw [hperf]
          exact @Performed.branchesFails nums m call _ leaf (m.branched call leaf).file rfl hpath hconv hne
        | after bs =>
          rw [hperf]
          exact .branchesFails rfl hpath hconv hne

end Calls

end PiBridge.Session
