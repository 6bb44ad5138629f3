import PiBridge.Durable.Tails
import PiBridge.Durable.Correctness.ContextRanges

/-!
# `Durable.Correctness.TailReads` — conversation tails agree with Storage

What is kept of a conversation is what Storage shows of it after the published batches (`TailsSound`). An entry becomes
its conversation's newest, as identities grow; a new root conversation shows nothing; what else is kept stays right, as a
batch adds to what a conversation shows only what it appends to it. A conversation that no unpublished batch touches shows
the same in Storage, so an answer from what is known is the answer of a scan, and what a scan finds can be kept.
-/

namespace PiBridge.Durable

open Lib Storage List Option Assoc

variable {V O : Type}

/-! ## What is kept -/

/-- Every entry belongs to a conversation that exists. -/
def Placed (s : Storage (EntryContent V) O) : Prop := ∀ e ∈ s.entries, (s.conversation e.1.conversationId).isSome

/-- What is kept is what Storage shows. -/
structure TailsSound (s : Storage (EntryContent V) O) (tails : ConversationTails V) : Prop where
  latest : ∀ p ∈ tails.latest, (s.conversation p.1).isSome ∧ p.2 = s.latestEntryId p.1
  markers : ∀ p ∈ tails.markers, (s.conversation p.1).isSome ∧ p.2 = s.findLatestHeadMarker p.1 none

namespace Storage

variable {s s' : Storage (EntryContent V) O} {id : ConversationId}

theorem latestEntryId_unchanged (h : Grows s s' id []) : s'.latestEntryId id = s.latestEntryId id := by
  rw [latestEntryId, h.visible, append_nil, latestEntryId]

theorem findLatestHeadMarker_unchanged (h : Grows s s' id []) (aob : Option EntryId) :
    s'.findLatestHeadMarker id aob = s.findLatestHeadMarker id aob := by
  cases aob with
  | none => rw [findLatestHeadMarker, h.visible, append_nil, findLatestHeadMarker]
  | some cut => rw [findLatestHeadMarker, latestHeadMarker, h.visible, append_nil, findLatestHeadMarker, latestHeadMarker]

/-- A new entry is its conversation's newest. -/
theorem latestEntryId_appended {e : ContextEntry V} (h : Grows s s' id [e]) : s'.latestEntryId id = some e.id := by
  rw [latestEntryId, h.visible, getLast?_concat]
  rfl

theorem findLatestHeadMarker_appended {e : ContextEntry V} (h : Grows s s' id [e]) :
    s'.findLatestHeadMarker id none = (HeadMarker.of? e).or (s.findLatestHeadMarker id none) := by
  rw [findLatestHeadMarker, h.visible, filterMap_append, findLatestHeadMarker]
  cases hmrk : HeadMarker.of? e with
  | none | some mk => simp [hmrk]

/-- A new root conversation shows nothing. -/
theorem visibleEntries_root (hplac : Placed s) {rec : ConversationRecord} (hnew : s.conversation rec.id = none)
    (hroot : rec.parent = none) (seq : CommitSeq) : (s.apply seq (.conversation rec)).visibleEntries rec.id = [] := by
  rw [visibleEntries, filter_eq_nil_iff]
  intro ent hent hvis
  obtain ⟨e, he, rfl⟩ := mem_map.mp hent
  have hfnd : (s.apply seq (.conversation rec)).conversation rec.id = some rec := by
    show (s.conversations ++ [rec]).find? _ = _
    rw [find?_append, show s.conversations.find? (fun c => decide (c.id = rec.id)) = none from hnew]
    simp
  rw [visible, hfnd] at hvis
  split at hvis
  · -- it would be an entry of a conversation that was not there
    rename_i hmine
    have hex := hplac e he
    rw [hmine, hnew] at hex
    cases hex
  · split at hvis
    · rename_i heq
      cases heq
      cases hroot
    · cases hvis

variable {w : StorageWrite (EntryContent V) O}

theorem Placed.apply (h : Placed s) (hok : s.WriteOk w) (seq : CommitSeq) : Placed (s.apply seq w) := by
  have hkeep : ∀ e ∈ s.entries, ((s.apply seq w).conversation e.1.conversationId).isSome :=
    fun e he => conversation_apply seq w (h e he)
  cases w with
  | entry rec =>
    intro e he
    rcases mem_snoc.mp he with hold | rfl
    · exact hkeep e hold
    · exact conversation_apply seq _ hok.1
  | conversation | task | submission | create | copy | change | retire => exact hkeep

/-! ## Batches -/

variable {writes : List (StorageWrite (EntryContent V) O)}

theorem batchOk_append {more : List (StorageWrite (EntryContent V) O)} :
    s.BatchOk (writes ++ more) ↔ s.BatchOk writes ∧ (s.applyAll writes).BatchOk more := by
  induction writes generalizing s with
  | nil => exact ⟨fun h => ⟨trivial, h⟩, fun h => h.2⟩
  | cons w rest ih =>
    show s.WriteOk w ∧ BatchOk _ (rest ++ more) ↔ (s.WriteOk w ∧ BatchOk _ rest) ∧ _
    rw [ih, and_assoc]
    rfl

theorem appendedTo_untouched (h : ∀ w ∈ writes, touches id w = false) : appendedTo id writes = [] := by
  rw [appendedTo, filterMap_eq_nil_iff]
  intro w hwrite
  have huntch := h w hwrite
  cases w with
  | entry rec =>
    have hne : ¬rec.conversationId = id := of_decide_eq_false huntch
    exact if_neg hne
  | conversation | task | submission | create | copy | change | retire => rfl

/-- A conversation that exists after a batch that does not create it was there before. -/
theorem conversation_untouched (h : ∀ wr ∈ writes, touches id wr = false) :
    (s.applyAll writes).conversation id = s.conversation id := by
  induction writes generalizing s with
  | nil => rfl
  | cons wr rest ih =>
    have hwrite := h wr mem_cons_self
    show ((s.apply s.nextSeq wr).applyAll rest).conversation id = _
    rw [ih fun w hw => h w (mem_cons_of_mem _ hw)]
    cases wr with
    | conversation rec =>
      have hne : ¬rec.id = id := of_decide_eq_false hwrite
      show (s.conversations ++ [rec]).find? _ = s.conversations.find? _
      rw [find?_append, find?_cons_of_neg (by simpa using hne)]
      exact or_none
    | entry | task | submission | create | copy | change | retire => rfl

end Storage

/-! ## Publications -/

section Publish

variable {s : Storage (EntryContent V) O} {tails : ConversationTails V}

section

variable (h : TailsSound s tails) (hchron : Storage.Chronicle s)

include h hchron

/-- What was kept of a conversation that a write does not append to stays right. -/
theorem TailsSound.unchanged (hok : s.WriteOk w) (seq : CommitSeq) : (∀ p ∈ tails.latest, appendedTo p.1 [w] = [] →
      ((s.apply seq w).conversation p.1).isSome ∧ p.2 = (s.apply seq w).latestEntryId p.1) ∧
    ∀ p ∈ tails.markers, appendedTo p.1 [w] = [] →
      ((s.apply seq w).conversation p.1).isSome ∧ p.2 = (s.apply seq w).findLatestHeadMarker p.1 none := by
  constructor
  · intro p hp hnone
    obtain ⟨hex, hval⟩ := h.latest p hp
    have hgrow := Storage.grows_apply hchron hok seq hex
    rw [hnone] at hgrow
    exact ⟨Storage.conversation_apply seq w hex, hval.trans (Storage.latestEntryId_unchanged hgrow).symm⟩
  · intro p hp hnone
    obtain ⟨hex, hval⟩ := h.markers p hp
    have hgrow := Storage.grows_apply hchron hok seq hex
    rw [hnone] at hgrow
    exact ⟨Storage.conversation_apply seq w hex, hval.trans (Storage.findLatestHeadMarker_unchanged hgrow none).symm⟩

/-- **A published write** makes what is kept what Storage then shows. -/
theorem TailsSound.applyWrite (hplac : Placed s)
    (hok : s.WriteOk w) (seq : CommitSeq) :
    TailsSound (s.apply seq w) (tails.applyWrite w) := by
  obtain ⟨hlatest, hmarkers⟩ := h.unchanged hchron hok seq
  cases w with
  | conversation rec =>
    rw [ConversationTails.applyWrite]
    split
    · exact ⟨fun p hp => hlatest p hp rfl, fun p hp => hmarkers p hp rfl⟩
    · rename_i hpar
      have hroot : rec.parent = none := by simpa using hpar
      have hnoth := Storage.visibleEntries_root hplac hok.1 hroot seq
      have hex : ((s.apply seq (.conversation rec)).conversation rec.id).isSome := by
        show ((s.conversations ++ [rec]).find? _).isSome
        simp
      constructor
      · intro p hp
        rcases Recent.mem_put hp with rfl | ⟨hold, -⟩
        · exact ⟨hex, by rw [Storage.latestEntryId, hnoth]; rfl⟩
        · exact hlatest p hold rfl
      · intro p hp
        rcases Recent.mem_put hp with rfl | ⟨hold, -⟩
        · exact ⟨hex, by rw [Storage.findLatestHeadMarker, hnoth]; rfl⟩
        · exact hmarkers p hold rfl
  | entry entry =>
    have hmine := hok.1
    have hgrow := Storage.grows_apply hchron hok seq hmine
    have happended : appendedTo entry.conversationId [(.entry entry : StorageWrite (EntryContent V) O)] = [entry] := by
      simp [appendedTo]
    rw [happended] at hgrow
    have hex := Storage.conversation_apply seq (.entry entry) hmine
    have hoth : ∀ id, id ≠ entry.conversationId → appendedTo id [(.entry entry : StorageWrite (EntryContent V) O)] = [] := by
      intro id hne
      exact Storage.appendedTo_untouched fun w hwrite => by
        obtain rfl := mem_singleton.mp hwrite
        exact decide_eq_false (Ne.symm hne)
    have hlatest' : ∀ p ∈ Recent.put latestCapacity tails.latest entry.conversationId (some entry.id),
        ((s.apply seq (.entry entry)).conversation p.1).isSome ∧ p.2 = (s.apply seq (.entry entry)).latestEntryId p.1 := by
      intro p hp
      rcases Recent.mem_put hp with rfl | ⟨hold, hne⟩
      · exact ⟨hex, (Storage.latestEntryId_appended hgrow).symm⟩
      · exact hlatest p hold (hoth p.1 hne)
    have hnewest := Storage.findLatestHeadMarker_appended hgrow
    rw [ConversationTails.applyWrite]
    cases hmrk : HeadMarker.of? entry with
    | none =>
      refine ⟨hlatest', fun p hp => ?_⟩
      by_cases heq : p.1 = entry.conversationId
      · -- its own conversation shows one more entry, and no other marker
        rw [hmrk, none_or, ← heq] at hnewest
        obtain ⟨hold, hval⟩ := h.markers p hp
        exact ⟨Storage.conversation_apply seq _ hold, hval.trans hnewest.symm⟩
      · exact hmarkers p hp (hoth p.1 heq)
    | some mk =>
      refine ⟨hlatest', fun p hp => ?_⟩
      rcases Recent.mem_put hp with rfl | ⟨hold, hne⟩
      · rw [hmrk, some_or] at hnewest
        exact ⟨hex, hnewest.symm⟩
      · exact hmarkers p hold (hoth p.1 hne)
  | task | submission | create | copy | change | retire =>
    exact ⟨fun p hp => hlatest p hp rfl, fun p hp => hmarkers p hp rfl⟩

/-- **A published batch** does. -/
theorem TailsSound.apply (hplac : Placed s)
    {writes : List (StorageWrite (EntryContent V) O)} (hok : s.BatchOk writes) :
    TailsSound (s.applyAll writes) (tails.apply writes) ∧ Placed (s.applyAll writes) := by
  induction writes generalizing s tails with
  | nil => exact ⟨h, hplac⟩
  | cons w rest ih =>
    obtain ⟨hwrite, hrest⟩ := hok
    exact ih (h.applyWrite hchron hplac hwrite s.nextSeq) (hchron.apply hwrite s.nextSeq)
      (Storage.Placed.apply hplac hwrite s.nextSeq) hrest

end

end Publish

/-! ## Reads -/

section Reads

variable {s : Storage (EntryContent V) O} {tails : ConversationTails V} {id : ConversationId}

theorem TailsSound.askLatest (h : TailsSound s tails) (id : ConversationId) :
    TailsSound s (tails.askLatest id).2 ∧ ∀ kn, (tails.askLatest id).1 = some kn → kn = s.latestEntryId id := by
  refine ⟨⟨fun p hp => h.latest p (Recent.mem_use hp), h.markers⟩, fun kn hkn => ?_⟩
  have hget : get? tails.latest id = some kn := (Recent.use_fst tails.latest id).symm.trans hkn
  exact (h.latest (id, kn) (mem_of_get? hget)).2

theorem TailsSound.peek (h : TailsSound s tails) {kn : Option EntryId} (hkn : tails.peek id = some kn) :
    kn = s.latestEntryId id := (h.latest (id, kn) (mem_of_get? hkn)).2

/-- The newest marker of all is the newest one up to a cutoff that it is not after. -/
theorem latestHeadMarker_of_newest {mk : HeadMarker V} {cut : EntryId} (h : s.findLatestHeadMarker id none = some mk)
    (hcutoff : mk.entry.id ≤ cut) : s.latestHeadMarker id cut = some mk := by
  obtain ⟨front, hsplit⟩ := getLast?_eq_some_iff.mp h
  obtain ⟨bef, behind, hvis, -, hbehind⟩ := filterMap_eq_append_iff.mp hsplit
  obtain ⟨between, ent, aft, rfl, hbtw, hmrk, haft⟩ := filterMap_eq_cons_iff.mp hbehind
  have hent : ent.id ≤ cut := by
    rw [← (HeadMarker.of?_eq_some hmrk).1]
    exact hcutoff
  have hkept : (ent :: aft).filter (fun ent => decide (ent.id ≤ cut)) =
      ent :: aft.filter fun ent => decide (ent.id ≤ cut) := by
    simp [hent]
  have hnone : (aft.filter fun ent => decide (ent.id ≤ cut)).filterMap HeadMarker.of? = [] := by
    rw [filterMap_eq_nil_iff] at haft ⊢
    exact fun e he => haft e (mem_of_mem_filter he)
  rw [Storage.latestHeadMarker, hvis, filter_append, filter_append, hkept,
    filterMap_append, filterMap_append, filterMap_cons_some hmrk, hnone, ← append_assoc, getLast?_concat]

/-- Without a marker there is none up to any cutoff. -/
theorem latestHeadMarker_of_none (cut : EntryId) (h : s.findLatestHeadMarker id none = none) : s.latestHeadMarker id cut = none := by
  have hnone := filterMap_eq_nil_iff.mp (getLast?_eq_none_iff.mp h)
  rw [Storage.latestHeadMarker, getLast?_eq_none_iff, filterMap_eq_nil_iff]
  exact fun e he => hnone e (mem_of_mem_filter he)

/-- A cutoff at or after the newest entry leaves nothing out. -/
theorem latestHeadMarker_of_latest (hchron : Storage.Chronicle s) {cut : EntryId}
    (h : (s.latestEntryId id).getD 0 ≤ cut) : s.latestHeadMarker id cut = s.findLatestHeadMarker id none := by
  have hall : (s.visibleEntries id).filter (fun e => decide (e.id ≤ cut)) = s.visibleEntries id := by
    refine filter_eq_self.mpr fun e hent => decide_eq_true ?_
    cases hlatest : s.latestEntryId id with
    | none =>
      have hemp : s.visibleEntries id = [] := getLast?_eq_none_iff.mp (map_eq_none_iff.mp hlatest)
      rw [hemp] at hent
      cases hent
    | some tail =>
      rw [hlatest] at h
      exact Nat.le_trans (le_latest hchron hlatest hent) h
  rw [Storage.latestHeadMarker, hall, Storage.findLatestHeadMarker]

theorem TailsSound.askMarker (h : TailsSound s tails) (id : ConversationId) (aob : Option EntryId) :
    TailsSound s (tails.askMarker id aob).2 ∧
      ∀ kn, (tails.askMarker id aob).1 = some kn → kn = s.findLatestHeadMarker id aob := by
  have hused : TailsSound s { tails with markers := (Recent.use tails.markers id).2 } :=
    ⟨h.latest, fun p hp => h.markers p (Recent.mem_use hp)⟩
  have hget := Recent.use_fst tails.markers id
  have hval : ∀ kn, (Recent.use tails.markers id).1 = some kn → kn = s.findLatestHeadMarker id none :=
    fun kn hkn => (h.markers (id, kn) (mem_of_get? (hget.symm.trans hkn))).2
  unfold ConversationTails.askMarker
  generalize Recent.use tails.markers id = used at hused hval
  obtain ⟨kn, markers⟩ := used
  cases kn with
  | none => exact ⟨hused, fun kn hkn => by cases hkn⟩
  | some kn =>
    have hnewest := hval kn rfl
    cases kn with
    | none =>
      refine ⟨hused, fun kn hkn => ?_⟩
      cases hkn
      cases aob with
      | none => exact hnewest
      | some cut => exact (latestHeadMarker_of_none cut hnewest.symm).symm
    | some mk =>
      dsimp only
      split
      · rename_i hcutoff
        refine ⟨hused, fun kn hkn => ?_⟩
        cases hkn
        cases aob with
        | none => exact hnewest
        | some cut => exact (latestHeadMarker_of_newest hnewest.symm (of_decide_eq_true hcutoff)).symm
      · exact ⟨hused, fun kn hkn => by cases hkn⟩

theorem TailsSound.keepLatest (h : TailsSound s tails) (hex : (s.conversation id).isSome) :
    TailsSound s (tails.keepLatest id (s.latestEntryId id)) := by
  refine ⟨fun p hp => ?_, h.markers⟩
  rcases Recent.mem_put hp with rfl | ⟨hold, -⟩
  · exact ⟨hex, rfl⟩
  · exact h.latest p hold

/-- **What is kept of a marker read** is the newest marker of all. -/
theorem TailsSound.keepMarker (h : TailsSound s tails) (hchron : Storage.Chronicle s) (hex : (s.conversation id).isSome)
    (aob : Option EntryId) {latest : Option (Option EntryId)} (hlatest : ∀ kn, latest = some kn → kn = s.latestEntryId id) :
    TailsSound s (tails.keepMarker id aob latest (s.findLatestHeadMarker id aob)) := by
  unfold ConversationTails.keepMarker
  split
  case isFalse => exact h
  rename_i hkeep
  refine ⟨h.latest, fun p hp => ?_⟩
  rcases Recent.mem_put hp with rfl | ⟨hold, -⟩
  · refine ⟨hex, ?_⟩
    cases aob with
    | none => rfl
    | some cut =>
      obtain ⟨kn, hkn, hcutoff⟩ := (any_eq_true _ _).mp hkeep
      rw [hlatest kn hkn] at hcutoff
      exact latestHeadMarker_of_latest hchron (of_decide_eq_true hcutoff)
  · exact h.markers p hold

end Reads

/-! ## Runs -/

namespace TailsSystem

variable {sys : TailsSystem V O}

/-- A read in flight: its conversation is there, no unpublished write touches it, and what it found is what Storage shows. -/
def ReadSound (sys : TailsSystem V O) (read : TailsRead V) : Prop :=
  (sys.published.conversation read.id).isSome ∧ (∀ write ∈ sys.unpublished, touches read.id write = false) ∧
    match read with
    | .latest _ => True
    | .latestFound id found => found = sys.published.latestEntryId id
    | .marker id _ latest => ∀ known, latest = some known → known = sys.published.latestEntryId id
    | .markerFound id atOrBefore latest found =>
      (∀ known, latest = some known → known = sys.published.latestEntryId id) ∧ found = sys.published.findLatestHeadMarker id atOrBefore

structure Sound (sys : TailsSystem V O) : Prop where
  chronicle : sys.published.Chronicle
  placed : Placed sys.published
  ok : sys.published.BatchOk sys.unpublished
  tails : TailsSound sys.published sys.tails
  reads : ∀ read ∈ sys.reads, ReadSound sys read

theorem sound_empty : Sound (empty : TailsSystem V O) where
  chronicle := Storage.chronicle_empty
  placed := fun e he => by cases he
  ok := trivial
  tails := ⟨(fun p hp => by cases hp), (fun p hp => by cases hp)⟩
  reads := fun read hread => by cases hread

/-- A conversation that no stored and unpublished write touches shows the same as after the published batches. -/
theorem Sound.untouched (h : sys.Sound) {id : ConversationId} (huntch : ∀ w ∈ sys.unpublished, touches id w = false) :
    sys.storage.conversation id = sys.published.conversation id ∧
      ((sys.published.conversation id).isSome → Grows sys.published sys.storage id []) := by
  have hsto : ∀ w ∈ sys.stored.flatten, touches id w = false := fun w hwrite => huntch w (mem_append_left _ hwrite)
  refine ⟨Storage.conversation_untouched hsto, fun hex => ?_⟩
  have hgrow := ((Storage.grows_applyAll h.chronicle (Storage.batchOk_append.1 h.ok).1).2 id hex).2
  rwa [Storage.appendedTo_untouched hsto] at hgrow

variable {read : TailsRead V}

/-- A read is as sound where the conversation shows the same, and no other write is waiting. -/
theorem ReadSound.congr {sys' : TailsSystem V O} (h : ReadSound sys read)
    (hgrow : Grows sys.published sys'.published read.id []) (hex : (sys'.published.conversation read.id).isSome)
    (hunpub : ∀ w ∈ sys'.unpublished, touches read.id w = false) : ReadSound sys' read := by
  obtain ⟨-, -, hread⟩ := h
  refine ⟨hex, hunpub, ?_⟩
  cases read with
  | latest id => trivial
  | latestFound id fnd => exact hread.trans (Storage.latestEntryId_unchanged hgrow).symm
  | marker id aob latest =>
    exact fun kn hkn => (hread kn hkn).trans (Storage.latestEntryId_unchanged hgrow).symm
  | markerFound id aob latest fnd =>
    refine ⟨fun kn hkn => (hread.1 kn hkn).trans (Storage.latestEntryId_unchanged hgrow).symm, ?_⟩
    exact hread.2.trans (Storage.findLatestHeadMarker_unchanged hgrow aob).symm

/-- **What Storage answers** is what it shows after the published batches. -/
theorem Sound.scanned (h : sys.Sound) (hread : ReadSound sys read) : ReadSound sys (sys.scanned read) := by
  obtain ⟨hex, huntch, hval⟩ := hread
  have hgrow := (h.untouched huntch).2 hex
  cases read with
  | latest id => exact ⟨hex, huntch, Storage.latestEntryId_unchanged hgrow⟩
  | marker id aob latest =>
    exact ⟨hex, huntch, hval, Storage.findLatestHeadMarker_unchanged hgrow aob⟩
  | latestFound id fnd | markerFound id aob latest fnd => exact ⟨hex, huntch, hval⟩

theorem Sound.kept (h : sys.Sound) (hread : ReadSound sys read) : TailsSound sys.published (kept sys.tails read) := by
  obtain ⟨hex, -, hval⟩ := hread
  cases read with
  | latest id => exact h.tails
  | marker id aob latest => exact h.tails
  | latestFound id fnd =>
    obtain rfl : fnd = _ := hval
    exact h.tails.keepLatest hex
  | markerFound id aob latest fnd =>
    obtain ⟨hlatest, rfl⟩ := hval
    exact h.tails.keepMarker h.chronicle hex aob hlatest

theorem Sound.readable (h : sys.Sound) {id : ConversationId} (hid : sys.Readable id) : (sys.published.conversation id).isSome := by
  rw [← (h.untouched hid.2).1]
  exact hid.1

/-- **Every step keeps what is kept sound.** -/
theorem Sound.step (h : sys.Sound) {lab : TailsLabel V O} (hallowed : sys.Allowed lab) : (sys.step lab).Sound := by
  cases lab with
  | admits writes =>
    obtain ⟨hok, hreads⟩ := hallowed
    have hunpub : (sys.step (.admits writes)).unpublished = sys.unpublished ++ writes := by
      simp [TailsSystem.step, unpublished]
    refine ⟨h.chronicle, h.placed, ?_, h.tails, fun read hread => ?_⟩
    · rw [hunpub]
      exact Storage.batchOk_append.2 ⟨h.ok, hok⟩
    · have hsound := h.reads read hread
      refine hsound.congr (Grows.refl rfl) hsound.1 fun write hwrite => ?_
      rw [hunpub] at hwrite
      rcases mem_append.mp hwrite with hold | hnew
      · exact hsound.2.1 write hold
      · exact hreads read hread write hnew
  | store =>
    unfold TailsSystem.step
    dsimp only
    split
    · exact h
    · rename_i writes admitted hadm
      -- the unpublished writes are the same, in the same order
      have hunpub : (stored sys ++ [writes]).flatten ++ admitted.flatten = sys.unpublished := by
        rw [unpublished, hadm]
        simp
      refine ⟨h.chronicle, h.placed, ?_, h.tails, fun read hread => ?_⟩
      · exact (congrArg sys.published.BatchOk hunpub).mpr h.ok
      · have hsound := h.reads read hread
        refine hsound.congr (Grows.refl rfl) hsound.1 fun write hwrite => hsound.2.1 write ?_
        rw [← hunpub]
        exact hwrite
  | publish =>
    unfold TailsSystem.step
    dsimp only
    split
    · exact h
    · rename_i writes stored hsto
      have hunpub : sys.unpublished = writes ++ (stored.flatten ++ sys.admitted.flatten) := by
        rw [unpublished, hsto, flatten_cons, append_assoc]
      have hok := h.ok
      rw [hunpub, Storage.batchOk_append] at hok
      obtain ⟨hchron, hgrow⟩ := Storage.grows_applyAll h.chronicle hok.1
      obtain ⟨htails, hplac⟩ := h.tails.apply h.chronicle h.placed hok.1
      refine ⟨hchron, hplac, hok.2, htails, fun read hread => ?_⟩
      have hsound := h.reads read hread
      have huntch := hsound.2.1
      rw [hunpub] at huntch
      obtain ⟨hex, hsame⟩ := hgrow read.id hsound.1
      rw [Storage.appendedTo_untouched fun write hwrite => huntch write (mem_append_left _ hwrite)] at hsame
      exact hsound.congr hsame hex fun write hwrite => huntch write (mem_append_right _ hwrite)
  | latest id =>
    have htails := (h.tails.askLatest id).1
    unfold TailsSystem.step
    dsimp only
    generalize sys.tails.askLatest id = asked at htails
    obtain ⟨known, tails⟩ := asked
    cases known with
    | some known => exact ⟨h.chronicle, h.placed, h.ok, htails, h.reads⟩
    | none =>
      refine ⟨h.chronicle, h.placed, h.ok, htails, fun read hread => ?_⟩
      rcases mem_snoc.mp hread with hold | rfl
      · exact h.reads read hold
      · exact ⟨h.readable hallowed, hallowed.2, trivial⟩
  | marker id atOrBefore =>
    have htails := (h.tails.askMarker id atOrBefore).1
    unfold TailsSystem.step
    dsimp only
    generalize sys.tails.askMarker id atOrBefore = asked at htails
    obtain ⟨known, tails⟩ := asked
    cases known with
    | some known => exact ⟨h.chronicle, h.placed, h.ok, htails, h.reads⟩
    | none =>
      refine ⟨h.chronicle, h.placed, h.ok, htails, fun read hread => ?_⟩
      rcases mem_snoc.mp hread with hold | rfl
      · exact h.reads read hold
      · exact ⟨h.readable hallowed, hallowed.2, fun known hkn => htails.peek hkn⟩
  | scan k =>
    unfold TailsSystem.step
    dsimp only
    split
    · exact h
    · rename_i read hread
      refine ⟨h.chronicle, h.placed, h.ok, h.tails, fun read' hread' => ?_⟩
      rcases mem_or_eq_of_mem_set hread' with hold | rfl
      · exact h.reads read' hold
      · exact h.scanned (h.reads read (mem_of_getElem? hread))
  | finish k =>
    unfold TailsSystem.step
    dsimp only
    split
    · exact h
    · rename_i read hread
      exact ⟨h.chronicle, h.placed, h.ok, h.kept (h.reads read (mem_of_getElem? hread)),
        fun read' hread' => h.reads read' (mem_of_mem_eraseIdx hread')⟩
  | abandon k => exact ⟨h.chronicle, h.placed, h.ok, h.tails, fun read hread => h.reads read (mem_of_mem_eraseIdx hread)⟩

/-- **Conversation tails agree with Storage.** In every run, a conversation that can be read is answered, where it is
    answered from what is known, as a scan of Storage would; and a read in flight that Storage answered returns what
    Storage shows now. -/
theorem tails_agree {labels : List (TailsLabel V O)}
    (h : Steps (fun sys label sys' => sys.Allowed label ∧ sys.step label = sys') empty labels sys) :
    (∀ id, sys.Readable id →
      (∀ known, (sys.tails.askLatest id).1 = some known → known = sys.storage.latestEntryId id) ∧
      ∀ atOrBefore known, (sys.tails.askMarker id atOrBefore).1 = some known → known = sys.storage.findLatestHeadMarker id atOrBefore) ∧
    (∀ id found, .latestFound id found ∈ sys.reads → found = sys.storage.latestEntryId id) ∧
    ∀ id atOrBefore latest found, .markerFound id atOrBefore latest found ∈ sys.reads →
      found = sys.storage.findLatestHeadMarker id atOrBefore := by
  have hsound : sys.Sound := h.invariant (I := Sound) (fun hs hstep => hstep.2 ▸ hs.step hstep.1) sound_empty
  refine ⟨fun id hid => ?_, fun id found hread => ?_, fun id atOrBefore latest found hread => ?_⟩
  · have hgrows := (hsound.untouched hid.2).2 (hsound.readable hid)
    refine ⟨fun known hknown => ?_, fun atOrBefore known hknown => ?_⟩
    · exact ((hsound.tails.askLatest id).2 known hknown).trans (Storage.latestEntryId_unchanged hgrows).symm
    · exact ((hsound.tails.askMarker id atOrBefore).2 known hknown).trans
        (Storage.findLatestHeadMarker_unchanged hgrows atOrBefore).symm
  · obtain ⟨hexists, huntouched, hvalue⟩ := hsound.reads _ hread
    have hgrows := (hsound.untouched huntouched).2 hexists
    exact hvalue.trans (Storage.latestEntryId_unchanged hgrows).symm
  · obtain ⟨hexists, huntouched, hvalue⟩ := hsound.reads _ hread
    have hgrows := (hsound.untouched huntouched).2 hexists
    exact hvalue.2.trans (Storage.findLatestHeadMarker_unchanged hgrows atOrBefore).symm

/-- A conversation with an entry, a fork of it, and a read of the fork that Storage answers. -/
def forkRead : List (TailsLabel Unit Unit) :=
  [.admits [.conversation ⟨1, none, none⟩, .entry ⟨2, 1, none, none, ⟨"pi.user", some [.user ()], none⟩⟩], .store,
    .admits [.conversation ⟨3, some ⟨1, 2⟩, none⟩], .store, .publish, .publish, .latest 3, .scan 0]

theorem tails_agree_fork : ((forkRead.foldl step empty).tails.askLatest 1).1 = some (some 2) ∧
      some 2 = (forkRead.foldl step empty).storage.latestEntryId 1 ∧
      some 2 = (forkRead.foldl step empty).storage.latestEntryId 3 := by
  have hrun : Steps (fun sys label sys' => sys.Allowed label ∧ sys.step label = sys') empty forkRead (forkRead.foldl step empty) := by
    refine .head ⟨⟨⟨⟨rfl, ?_⟩, ⟨rfl, ?_, ?_⟩, trivial⟩, ?_⟩, rfl⟩ (.head ⟨trivial, rfl⟩ (.head ⟨⟨⟨⟨rfl, ?_⟩, trivial⟩, ?_⟩, rfl⟩
      (.head ⟨trivial, rfl⟩ (.head ⟨trivial, rfl⟩ (.head ⟨trivial, rfl⟩ (.head ⟨⟨rfl, ?_⟩, rfl⟩ (.head ⟨trivial, rfl⟩ .refl)))))))
    · intro parent h
      cases h
    · intro e he
      cases he
    · intro head h
      cases h
    · intro read hread
      cases hread
    · intro parent h
      cases h
      exact ⟨rfl, by decide, _, mem_cons_self, rfl⟩
    · intro read hread
      cases hread
    · intro write hwrite
      cases hwrite
  have hagree := tails_agree hrun
  refine ⟨rfl, (hagree.1 1 ⟨rfl, fun write hwrite => by cases hwrite⟩).1 (some 2) rfl, hagree.2.1 3 (some 2) mem_cons_self⟩

end TailsSystem

end PiBridge.Durable
