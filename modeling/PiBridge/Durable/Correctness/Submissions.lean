import PiBridge.Durable.Correctness.InboxRuns

/-!
# `Durable.Correctness.Submissions` — requests, boundaries, and the inbox over whole runs

A boundary judges each write by the range that is active at its turn (`PlacesWrites`), which the commit's own entries may
have started; it places the chosen user items after the writes and leaves the others (`bounded`). With the agreement of
the inbox and the submissions, and with what a request and an entry keep, this is what holds in every run
(`inbox_agrees`).
-/

namespace PiBridge.Durable

open Lib List Option InboxTx

variable {V O : Type}

/-! ## The active range -/

theorem newestHead_append_none (es : List (EntryRecord V × CommitSeq)) {e : EntryRecord V × CommitSeq} (he : e.1.head = none)
    (id : ConversationId) (upper : Option EntryId) : newestHead (es ++ [e]) id upper = newestHead es id upper := by
  unfold newestHead
  rw [filter_append, filter_cons_of_neg (by simp [he]), filter_nil, append_nil]

theorem newestHead_append_some (es : List (EntryRecord V × CommitSeq)) {e : EntryRecord V × CommitSeq} {head : EntryId}
    (he : e.1.head = some head) : newestHead (es ++ [e]) e.1.conversationId none = some head := by
  unfold newestHead
  simp [he]

theorem Storage.latestHead_append_none {s s' : Storage V O} {e : EntryRecord V × CommitSeq} (he : e.1.head = none)
    (hents : s'.entries = s.entries ++ [e]) (hconversations : s'.conversations = s.conversations) (fuel : Nat) (id : ConversationId)
    (upper : Option EntryId) : s'.latestHead fuel id upper = s.latestHead fuel id upper := by
  induction fuel generalizing id upper with
  | zero => rfl
  | succ fuel ih =>
    unfold Storage.latestHead Storage.conversation
    rw [hents, newestHead_append_none _ he, hconversations]
    congr 1
    split
    · exact ih ..
    · rfl

namespace InboxTx

variable {tx tx' : InboxTx V O} (input : V → Option (InputEntry V) → Nat → V)

theorem activeStart_eq {id : ConversationId} (hstorage : tx'.storage = tx.storage) (hents : tx'.entries = tx.entries) :
    tx'.activeStart id = tx.activeStart id := by
  unfold activeStart
  rw [hstorage, hents]

/-- An entry without a head starts no range. -/
theorem activeStart_append_none (tx : InboxTx V O) (tgt : ConversationId) {draft : EntryDraft V} (hdraft : draft.head = none) (id : ConversationId) :
    (tx.appendEntry tgt draft).1.activeStart id = tx.activeStart id := by
  unfold activeStart appendEntry
  have hhead : draft.head.map (headEntry tx.nextId) = none := by rw [hdraft]; rfl
  refine @Storage.latestHead_append_none V O _ _
    (⟨tx.nextId, tgt, draft.head.map (headEntry tx.nextId), tx.scope, draft.rest⟩, tx.storage.nextSeq) hhead ?_ ?_ _ _ _
  · rw [map_append, map_singleton, append_assoc]
  · rfl

/-- An entry with a head starts the active range there. -/
theorem activeStart_append_some (tx : InboxTx V O) (id : ConversationId) {draft : EntryDraft V} {head : EntryId ⊕ Unit} (hdraft : draft.head = some head) :
    (tx.appendEntry id draft).1.activeStart id = some (headEntry tx.nextId head) := by
  unfold activeStart appendEntry
  unfold Storage.latestHead
  dsimp only
  rw [map_append, map_singleton, ← append_assoc]
  rw [@newestHead_append_some V _ (_, tx.storage.nextSeq) (headEntry tx.nextId head) (by dsimp only; rw [hdraft]; rfl)]
  rfl

/-! ## What a boundary places -/

/-- Placing queued writes, one after another: a write is stale exactly when its head lies before the start of the active
    range, ranges started by this commit included. -/
inductive PlacesWrites (id : ConversationId) : InboxTx V O → List (InboxItem V) → InboxTx V O → Prop where
  | nil {tx : InboxTx V O} : PlacesWrites id tx [] tx
  | stale {tx tx' : InboxTx V O} {submission : SubmissionId} {draft : WriteDraft V} {items : List (InboxItem V)} {target start : EntryId}
      (hhead : draft.head = some (.inl target)) (hstart : tx.activeStart id = some start) (hlt : target < start)
      (hrest : PlacesWrites id (tx.changeSubmission submission (.unanswered "stale" none)) items tx') :
      PlacesWrites id tx (.write submission draft :: items) tx'
  | placed {tx tx' : InboxTx V O} {submission : SubmissionId} {draft : WriteDraft V} {items : List (InboxItem V)}
      (hactive : ∀ target start, draft.head = some (.inl target) → tx.activeStart id = some start → start ≤ target)
      (hrest : PlacesWrites id ((tx.appendEntry id draft.toEntryDraft).1.changeSubmission submission (.placed tx.nextId)) items tx') :
      PlacesWrites id tx (.write submission draft :: items) tx'

/-- Placing user items, one after another. -/
inductive PlacesUsers (id : ConversationId) (now : Nat) : InboxTx V O → List (InboxItem V) → InboxTx V O → Prop where
  | nil {tx : InboxTx V O} : PlacesUsers id now tx [] tx
  | placed {tx tx' : InboxTx V O} {submission : SubmissionId} {mode : UserMode} {content : V} {entry : Option (InputEntry V)}
      {items : List (InboxItem V)}
      (hrest : PlacesUsers id now ((tx.appendEntry id ⟨none, input content entry now⟩).1.changeSubmission submission (.placed tx.nextId)) items tx') :
      PlacesUsers id now tx (.user submission mode content entry :: items) tx'

theorem isStale_iff {head : Option EntryId} {draft : EntryDraft V} :
    isStale head draft = true ↔ ∃ tgt st, draft.head = some (.inl tgt) ∧ head = some st ∧ tgt < st := by
  unfold isStale
  constructor
  · intro h
    split at h
    · rename_i tgt st hdraft
      exact ⟨tgt, st, hdraft, rfl, of_decide_eq_true h⟩
    · cases h
  · rintro ⟨tgt, st, hdraft, rfl, hlt⟩
    rw [hdraft]
    exact decide_eq_true hlt

variable {items : List (InboxItem V)}

/-- The newest head a boundary has seen is the start of the active range, all along. -/
theorem placesWrites (id : ConversationId) (hitems : ∀ item ∈ items, item.isWrite = true) (tx : InboxTx V O)
    {head : Option EntryId} (fst : Option EntryId) (hhead : head = tx.activeStart id) :
    PlacesWrites id tx items (items.foldl (placeWrite id) (tx, head, fst)).1 := by
  induction items generalizing tx head fst with
  | nil => exact .nil
  | cons item items ih =>
    have hrest := fun oth hoth => hitems oth (.tail _ hoth)
    cases item with
    | user => exact absurd (hitems _ (.head _)) Bool.false_ne_true
    | write submission draft =>
      rw [foldl_cons]
      unfold placeWrite
      dsimp only
      split
      · rename_i hstale
        obtain ⟨tgt, st, hdraft, hsta, hlt⟩ := isStale_iff.1 hstale
        exact .stale hdraft (hhead ▸ hsta) hlt (ih hrest _ _ hhead)
      · rename_i hfresh
        refine .placed (fun tgt st hdraft hsta => ?_) (ih hrest _ _ ?_)
        · rw [← hhead] at hsta
          exact Nat.le_of_not_lt fun hlt => hfresh (isStale_iff.2 ⟨tgt, st, hdraft, hsta, hlt⟩)
        · cases hdraft : draft.head with
          | none =>
            rw [map_none, none_or, hhead]
            exact (activeStart_append_none tx id hdraft id).symm
          | some tgt =>
            exact (activeStart_append_some tx id hdraft).symm

theorem placesUsers (id : ConversationId) (now : Nat) (hitems : ∀ item ∈ items, item.isWrite = false)
    (tx : InboxTx V O) (fst : Option EntryId) : PlacesUsers input id now tx items (items.foldl (placeUser input id now) (tx, fst)).1 := by
  induction items generalizing tx fst with
  | nil => exact .nil
  | cons item items ih =>
    cases item with
    | write => exact absurd (hitems _ (.head _)) (by intro h; cases h)
    | user submission mode cont e => exact .placed (ih (fun oth hoth => hitems oth (.tail _ hoth)) _ _)

/-- What a boundary reads of the commit it is applied in. -/
structure AtBoundary (tx : InboxTx V O) (boundary : Boundary) : Prop where
  head : boundary.head = tx.activeStart boundary.conversationId
  distinct : ((tx.inbox boundary.conversationId).map (·.id)).Nodup

/-- The user items a boundary selects, in the order of the queue. -/
def selected (items : List (InboxItem V)) (boundary : Boundary) (at_ : BoundaryAt) : List (InboxItem V) :=
  items.filter fun item => decide (item.id ∈ (chosenUsers items boundary (isFinal items at_)).map (·.id))

/-- Items whose identities differ are told apart by them. -/
theorem mem_of_id (hnd : (items.map (·.id)).Nodup) {item oth : InboxItem V} (hitem : item ∈ items)
    (hoth : oth ∈ items) (heq : item.id = oth.id) : item = oth :=
  inj_on_of_nodup_map hnd hitem hoth heq

/-- **What a boundary does**: it places the writes, then the selected user items, and leaves the others in place. -/
theorem bounded {boundary : Boundary} (h : AtBoundary tx boundary) (at_ : BoundaryAt) (now : Nat) : ∃ wrtn aft,
    PlacesWrites boundary.conversationId tx ((tx.inbox boundary.conversationId).filter InboxItem.isWrite) wrtn ∧
    PlacesUsers input boundary.conversationId now wrtn (selected (tx.inbox boundary.conversationId) boundary at_) aft ∧
    (tx.applyBoundary input boundary at_ now).1 = aft.setItems boundary.conversationId ((tx.inbox boundary.conversationId).filter fun item =>
      !item.isWrite && decide (item.id ∉ (selected (tx.inbox boundary.conversationId) boundary at_).map (·.id))) ∧
    (tx.applyBoundary input boundary at_ now).2.users = (selected (tx.inbox boundary.conversationId) boundary at_).map (·.id) := by
  have hsel : atPositions (tx.inbox boundary.conversationId) (selectUsers (tx.inbox boundary.conversationId) boundary
      (isFinal (tx.inbox boundary.conversationId) at_)) = selected (tx.inbox boundary.conversationId) boundary at_ :=
    atPositions_selectUsers h.distinct boundary _
  have hitems : ∀ item ∈ (tx.inbox boundary.conversationId).filter InboxItem.isWrite, item.isWrite = true :=
    fun item hitem => (mem_filter.mp hitem).2
  have hwrites := placesWrites boundary.conversationId hitems tx none h.head
  have husers : ∀ item ∈ selected (tx.inbox boundary.conversationId) boundary at_, item.isWrite = false := by
    intro item hitem
    rw [← hsel] at hitem
    obtain ⟨i, hi, hat⟩ := mem_atPositions.mp hitem
    obtain ⟨same, hsame, huser⟩ := mem_selectUsers hi
    rw [hat] at hsame
    exact some.inj hsame ▸ huser
  refine ⟨_, (placed input tx boundary at_ now).1, hwrites, ?_, ?_, ?_⟩
  · unfold placed
    dsimp only
    rw [hsel, atPositions_positions]
    exact placesUsers input _ now husers _ _
  · rw [applyBoundary_eq]
    dsimp only
    rw [eraseAt_selected h.distinct, hsel, atPositions_positions]
    congr 1
    refine filter_congr fun item hitem => ?_
    rw [map_append]
    by_cases hwrite : item.isWrite = true
    · have hin : item.id ∈ ((tx.inbox boundary.conversationId).filter InboxItem.isWrite).map (·.id) :=
        mem_map_of_mem (mem_filter.mpr ⟨hitem, hwrite⟩)
      simp [hwrite, hin]
    · have hout : item.id ∉ ((tx.inbox boundary.conversationId).filter InboxItem.isWrite).map (·.id) := by
        intro hin
        obtain ⟨oth, hoth, heq⟩ := mem_map.mp hin
        obtain ⟨hoth', hwrite'⟩ := mem_filter.mp hoth
        exact hwrite (mem_of_id h.distinct hoth' hitem heq ▸ hwrite')
      simp only [hwrite, Bool.not_false, Bool.true_and, mem_append, not_or, decide_eq_decide]
      exact ⟨fun hboth => hboth.2, fun hnot => ⟨hout, hnot⟩⟩
  · rw [applyBoundary_eq]
    rw [hsel]

end InboxTx

namespace Conversations

variable {sys sys' : Conversations V O} (input : V → Option (InputEntry V) → Nat → V)

open InboxTx (AtBoundary start)

/-! ## Where boundaries are applied -/

/-- The boundaries of a commit: the commit so far, and what was prepared. -/
inductive Applies (sys : Conversations V O) : InboxLabel V → InboxTx V O → Boundary → BoundaryAt → Prop where
  | continued {scope : Option TaskId} {id : ConversationId} {draft : SubmissionDraft V} {now : Nat} {modes : QueueModes} {submission : SubmissionId} :
      Applies sys (.submit scope id draft now modes submission) ((start sys scope).createSubmission (InboxTx.fields id draft .placed)).1
        ((start sys scope).prepareBoundary id modes) .final
  | behind {scope : Option TaskId} {id : ConversationId} {draft : SubmissionDraft V} {now : Nat} {modes : QueueModes} {submission : SubmissionId} :
      Applies sys (.submit scope id draft now modes submission) ((start sys scope).queue id draft).1 ((start sys scope).prepareBoundary id modes) .final
  | answer {id : ConversationId} {taskId : TaskId} {now : Nat} {modes : QueueModes} {message : V} {continuation : Option V} {afterRun : Bool} :
      Applies sys (.run id taskId now modes (.answer message continuation afterRun)) ((start sys (some taskId)).appendEntry id ⟨none, message⟩).1
        ((start sys (some taskId)).prepareBoundary id modes) .final
  | endAnswered {id : ConversationId} {taskId : TaskId} {now : Nat} {modes : QueueModes} {answer : EntryId} :
      Applies sys (.run id taskId now modes (.endAnswered answer)) (start sys (some taskId)) ((start sys (some taskId)).prepareBoundary id modes) .final
  | endFailed {id : ConversationId} {taskId : TaskId} {now : Nat} {modes : QueueModes} {before : List V} {policy : AfterFailedRun} {end_ : RunEnd V} :
      Applies sys (.run id taskId now modes (.endFailed before policy end_)) (((start sys (some taskId)).appendAll id before).endRun id taskId end_)
        ((start sys (some taskId)).prepareBoundary id modes) .final
  | terminated {id : ConversationId} {taskId : TaskId} {now : Nat} {modes : QueueModes} {assistant : EntryId} {handoff : Option V}
      {terminate afterRun : Bool} {turnLimit : Option (AfterFailedRun × RunEnd V)} :
      Applies sys (.run id taskId now modes (.afterTools assistant handoff terminate afterRun turnLimit))
        ((start sys (some taskId)).handedOff id modes handoff).1 ((start sys (some taskId)).handedOff id modes handoff).2 .final
  | turnLimit {id : ConversationId} {taskId : TaskId} {now : Nat} {modes : QueueModes} {assistant : EntryId} {handoff : Option V}
      {terminate afterRun : Bool} {policy : AfterFailedRun} {end_ : RunEnd V} :
      Applies sys (.run id taskId now modes (.afterTools assistant handoff terminate afterRun (some (policy, end_))))
        (((start sys (some taskId)).handedOff id modes handoff).1.endRun id taskId end_) ((start sys (some taskId)).handedOff id modes handoff).2 .final
  | postTools {id : ConversationId} {taskId : TaskId} {now : Nat} {modes : QueueModes} {assistant : EntryId} {handoff : Option V}
      {terminate afterRun : Bool} {turnLimit : Option (AfterFailedRun × RunEnd V)} :
      Applies sys (.run id taskId now modes (.afterTools assistant handoff terminate afterRun turnLimit))
        ((start sys (some taskId)).handedOff id modes handoff).1 ((start sys (some taskId)).handedOff id modes handoff).2 .postTools

/-- The range that is active as a commit starts. -/
theorem activeStart_start (sys : Conversations V O) (scope : Option TaskId) (id : ConversationId) :
    (start sys scope).activeStart id = sys.storage.latestHead (id + 1) id none := by
  show ({ sys.storage with entries := sys.storage.entries ++ [] } : Storage V O).latestHead (id + 1) id none = _
  rw [append_nil]

theorem atBoundary_start (h : Agrees sys) (scope : Option TaskId) (id : ConversationId) (modes : QueueModes) :
    AtBoundary (start sys scope) ((start sys scope).prepareBoundary id modes) :=
  ⟨(activeStart_start sys scope id).symm, h.nodup id⟩

variable {tx : InboxTx V O} {boundary : Boundary} {id : ConversationId} {draft : SubmissionDraft V} {submission : SubmissionId}
  {now : Nat} {modes : QueueModes}

/-- What is done between a boundary's reads and the boundary. -/
theorem AtBoundary.goOn {tx' : InboxTx V O} (h : AtBoundary tx boundary) (hinbox : tx'.inbox = tx.inbox)
    (hact : tx'.activeStart boundary.conversationId = tx.activeStart boundary.conversationId) : AtBoundary tx' boundary :=
  ⟨h.head.trans hact.symm, hinbox ▸ h.distinct⟩

theorem endRun_keeps (tx : InboxTx V O) (id : ConversationId) (taskId : TaskId) (end_ : RunEnd V) :
    (tx.endRun id taskId end_).inbox = tx.inbox ∧ (tx.endRun id taskId end_).storage = tx.storage ∧ (tx.endRun id taskId end_).entries = tx.entries := by
  have hsett : ∀ (ids : List SubmissionId) (tx : InboxTx V O) (chg : SubmissionChange V), (tx.settleAll ids chg).inbox = tx.inbox ∧
      (tx.settleAll ids chg).storage = tx.storage ∧ (tx.settleAll ids chg).entries = tx.entries := by
    intro ids
    induction ids with
    | nil => exact fun _ _ => ⟨rfl, rfl, rfl⟩
    | cons id ids ih => exact fun tx chg => ih (tx.changeSubmission id chg) chg
  unfold endRun
  split
  · exact ⟨rfl, rfl, rfl⟩
  · split
    · cases end_ with
      | done answer => exact hsett ..
      | unanswered rsn detail settlement =>
        dsimp only
        split
        · exact ⟨rfl, rfl, rfl⟩
        · exact hsett ..
    · exact ⟨rfl, rfl, rfl⟩

theorem AtBoundary.endRun (h : AtBoundary tx boundary) (id : ConversationId) (taskId : TaskId) (end_ : RunEnd V) :
    AtBoundary (tx.endRun id taskId end_) boundary := by
  obtain ⟨hinbox, hstorage, hents⟩ := endRun_keeps tx id taskId end_
  exact AtBoundary.goOn h hinbox (activeStart_eq hstorage hents)

theorem AtBoundary.appendAll (h : AtBoundary tx boundary) (id : ConversationId) (msgs : List V) :
    AtBoundary (tx.appendAll id msgs) boundary := by
  induction msgs generalizing tx with
  | nil => exact h
  | cons msg msgs ih => exact ih (AtBoundary.goOn h rfl (activeStart_append_none tx id rfl _))

theorem atBoundary_handedOff (h : Agrees sys) (scope : Option TaskId) (id : ConversationId) (modes : QueueModes) (handoff : Option V) :
    AtBoundary ((start sys scope).handedOff id modes handoff).1 ((start sys scope).handedOff id modes handoff).2 := by
  cases handoff with
  | none => exact atBoundary_start h scope id modes
  | some msg =>
    have hact := @activeStart_append_some V O (start sys scope) id ⟨some (.inr ()), msg⟩ _ rfl
    exact ⟨hact.symm, h.nodup id⟩

/-- Every boundary finds what it was prepared with. -/
theorem atBoundary_of_applies (h : Agrees sys) {lab : InboxLabel V} {at_ : BoundaryAt}
    (happlies : Applies sys lab tx boundary at_) : AtBoundary tx boundary := by
  cases happlies with
  | continued => exact AtBoundary.goOn (atBoundary_start h ..) rfl rfl
  | @behind scope id draft now modes submission =>
    have hsta := atBoundary_start h scope id modes
    unfold queue
    have hpush {item : InboxItem V} (hitem : item.id = sys.storage.nextId) :
        AtBoundary (((start sys scope).createSubmission (fields id draft .queued)).1.setItems id
          (((start sys scope).createSubmission (fields id draft .queued)).1.inbox id ++ [item])) ((start sys scope).prepareBoundary id modes) := by
      refine ⟨hsta.head, ?_⟩
      show ((Function.update sys.inbox id (sys.inbox id ++ [item]) id).map (·.id)).Nodup
      rw [Function.update_self, map_append]
      refine nodup_append.mpr ⟨h.nodup id, nodup_singleton _, fun old hold new hnew heq => ?_⟩
      obtain rfl := mem_singleton.mp hnew
      obtain ⟨rec, hrec, -⟩ := (h.agree id old).mp hold
      have hlt := (h.named old rec hrec).2
      have heq' : old = item.id := heq
      rw [heq', hitem] at hlt
      exact Nat.lt_irrefl _ hlt
    cases draft.body with
    | input cont whenBusy rejectIdle e | write e => exact hpush rfl
    | «continue» => exact AtBoundary.goOn hsta rfl rfl
  | answer => exact AtBoundary.goOn (atBoundary_start h ..) rfl (activeStart_append_none _ _ rfl _)
  | endAnswered => exact atBoundary_start h ..
  | endFailed => exact AtBoundary.endRun (AtBoundary.appendAll (atBoundary_start h ..) _ _) _ _ _
  | terminated | postTools => exact atBoundary_handedOff h ..
  | turnLimit => exact AtBoundary.endRun (atBoundary_handedOff h ..) _ _ _

/-! ## Requests -/

/-- What an admission created, as the commit goes on. -/
def Created (tx : InboxTx V O) (id : ConversationId) (draft : SubmissionDraft V) (submission : SubmissionId) : Prop :=
  ∃ record, Assoc.get? tx.submissions submission = some record ∧ record.conversationId = id ∧ record.requestId = draft.requestId ∧
    record.type = draft.body.type

theorem created_createSubmission (tx : InboxTx V O) {cr : SubmissionCreate V} {draft : SubmissionDraft V} (hreq : cr.requestId = draft.requestId)
    (htype : cr.type = draft.body.type) :
    Created (tx.createSubmission cr).1 cr.conversationId draft (tx.createSubmission cr).2 :=
  ⟨_, Assoc.get?_set_self .., rfl, hreq, htype⟩

theorem Created.goOn {tx' : InboxTx V O}
    (h : Created tx id draft submission) (hsubs : tx'.submissions = tx.submissions) : Created tx' id draft submission := by
  unfold Created
  rw [hsubs]
  exact h

theorem applyBoundary_submissions (tx : InboxTx V O) (boundary : Boundary) (at_ : BoundaryAt) (now : Nat) :
    (tx.applyBoundary input boundary at_ now).1.submissions = tx.submissions := by
  exact (placed_places input tx boundary at_ now).submissions

theorem startFor_submissions (tx : InboxTx V O) (id : ConversationId) (res : BoundaryResult) (keepFailure : Bool) :
    (tx.startFor id res keepFailure).submissions = tx.submissions := by
  unfold startFor
  split <;> rfl

section

variable (tx) (id) (draft)

theorem created_queue :
    Created (tx.queue id draft).1 id draft (tx.queue id draft).2 := by
  have hmade := @created_createSubmission V O tx (fields id draft .queued) draft rfl rfl
  unfold queue
  dsimp only
  split
  · exact hmade.goOn rfl
  · exact hmade.goOn rfl
  · exact hmade

section

variable (now) (modes)

theorem created_admitContinue :
    Created (tx.admitContinue input id draft now modes).1 id draft (tx.admitContinue input id draft now modes).2 :=
  (@created_createSubmission V O tx (fields id draft .placed) draft rfl rfl).goOn (applyBoundary_submissions input _ _ _ _)

theorem created_writeNow (e : WriteDraft V) :
    Created (tx.writeNow id draft e).1 id draft (tx.writeNow id draft e).2 :=
  @created_createSubmission V O (tx.appendEntry id e.toEntryDraft).1 { fields id draft .done with entry := some tx.nextId } draft rfl rfl

theorem created_admitIdle :
    Created (tx.admitIdle input id draft now modes).1 id draft (tx.admitIdle input id draft now modes).2 := by
  unfold admitIdle
  split
  · exact (@created_createSubmission V O _ { fields id draft .placed with entry := some tx.nextId } draft rfl rfl).goOn rfl
  · dsimp only
    split
    · exact created_createSubmission tx rfl rfl
    · exact created_writeNow tx id draft _
  · exact created_admitContinue input ..

theorem created_admitBehind :
    Created (tx.admitBehind input id draft now modes).1 id draft (tx.admitBehind input id draft now modes).2 :=
  (created_queue tx id draft).goOn ((startFor_submissions ..).trans (applyBoundary_submissions input _ _ _ _))

end

end

theorem created_admitNew
    {adm : InboxTx V O × SubmissionId} (hadm : tx.admitNew input id draft now modes = .ok adm) :
    Created adm.1 id draft adm.2 := by
  obtain ⟨e, rfl⟩ | rfl | ⟨-, rfl⟩ | rfl | ⟨-, rfl⟩ := admitNew_cases input hadm
  · exact created_writeNow tx id draft e
  · exact created_admitContinue input ..
  · exact created_queue tx id draft
  · exact created_admitIdle input ..
  · exact created_admitBehind input ..

/-- The submission an admission returns is the one of its request, and of its type. -/
theorem Step.submitted (h : Agrees sys) {scope : Option TaskId}
    (hstep : Step input sys (.submit scope id draft now modes submission) sys') {rid : String}
    (hreq : draft.requestId = some rid) : ∃ rec, sys'.storage.submission submission = some rec ∧ rec.conversationId = id ∧
      rec.requestId = some rid ∧ rec.type = draft.body.type := by
  cases hstep with
  | @submit _ _ _ _ _ _ tx _ hadm hcomm =>
    have htx := h.admitSubmission input hadm
    have hkn : ∃ rec, viewOf tx.storage tx.submissions submission = some rec ∧ rec.conversationId = id ∧
        rec.requestId = draft.requestId ∧ rec.type = draft.body.type := by
      unfold admitSubmission at hadm
      split at hadm
      · cases hadm
      · split at hadm
        · rename_i existing hexisting
          split at hadm
          · rename_i htype
            cases hadm
            rw [hreq, bind_some] at hexisting
            obtain ⟨hget, hconv, hreq'⟩ := (h.submissionByRequest).mp hexisting
            exact ⟨existing, hget, hconv, hreq'.trans hreq.symm, htype⟩
          · cases hadm
        · obtain ⟨rec, hget, hrest⟩ := created_admitNew input hadm
          refine ⟨rec, ?_, hrest⟩
          unfold viewOf
          rw [hget]
          rfl
    obtain ⟨rec, hrec, hconv, hreq', htype⟩ := hkn
    obtain ⟨res, hreso, -⟩ := commit_eq hcomm
    obtain ⟨new, hnew, hsucc⟩ := (changes_of_fold hreso).succeeds submission rec hrec
    refine ⟨new, ?_, hsucc.conversation.trans hconv, hsucc.request.trans (hreq'.trans hreq), hsucc.type.trans htype⟩
    rw [htx.stored hcomm hreso]
    exact hnew

/-- **A repeated request** writes nothing, and returns the same submission. -/
theorem repeated (h : Agrees sys) {scope : Option TaskId}
    {rec : SubmissionRecord V} (hrec : sys.storage.submission submission = some rec)
    (hconv : rec.conversationId = id) (hsome : rec.requestId.isSome = true) (hreq : rec.requestId = draft.requestId)
    (htype : rec.type = draft.body.type) (hcheck : InboxTx.SubmissionBody.check draft.body = none) :
    (start sys scope).admitSubmission input id draft now modes = .ok (start sys scope, submission) := by
  obtain ⟨rid, hrequestId⟩ := isSome_iff_exists.mp hsome
  have hname := (h.named submission rec hrec).1
  have hkn : (start sys scope).storage.submissionByRequest id rid = some rec := by
    refine (h.submissionByRequest).mpr ⟨?_, hconv, hrequestId⟩
    rw [hname]
    exact hrec
  unfold admitSubmission
  rw [hcheck]
  rw [← hreq, hrequestId, bind_some, hkn]
  dsimp only
  rw [if_pos htype, hname]

/-! ## Every run -/

/-- **The inbox and the submissions agree.** -/
theorem inbox_agrees {conversations : List ConversationRecord} {nextId : Nat} {labels : List (InboxLabel V)}
    (hrun : Steps (Step input) (opened conversations nextId) labels sys) :
    -- The items of an inbox are exactly the queued submissions of its conversation, each once, in the order of identities.
    (∀ id, ((sys.inbox id).map (·.id)).Pairwise (· < ·) ∧ ∀ submission, submission ∈ (sys.inbox id).map (·.id) ↔
      ∃ record, sys.storage.submission submission = some record ∧ record.conversationId = id ∧ record.status = .queued) ∧
    -- A repeated request of the same type writes nothing and returns the same submission, however much later.
    (∀ (scope : Option TaskId) (id : ConversationId) (draft : SubmissionDraft V) (now : Nat) (modes : QueueModes) (submission : SubmissionId)
      (sys₁ sys₂ : Conversations V O) (later : List (InboxLabel V)), Step input sys (.submit scope id draft now modes submission) sys₁ →
      Steps (Step input) sys₁ later sys₂ → draft.requestId.isSome = true →
      ∀ (scope' : Option TaskId) (draft' : SubmissionDraft V) (now' : Nat) (modes' : QueueModes), draft'.requestId = draft.requestId →
        draft'.body.type = draft.body.type → InboxTx.SubmissionBody.check draft'.body = none →
        (start sys₂ scope').admitSubmission input id draft' now' modes' = .ok (start sys₂ scope', submission)) ∧
    -- A boundary places the writes that are not stale, then the selected user items, each in order, and leaves the others.
    (∀ (label : InboxLabel V) (tx : InboxTx V O) (boundary : Boundary) (at_ : BoundaryAt) (now : Nat), Applies sys label tx boundary at_ →
      ∃ written after, InboxTx.PlacesWrites boundary.conversationId tx ((tx.inbox boundary.conversationId).filter InboxItem.isWrite) written ∧
        InboxTx.PlacesUsers input boundary.conversationId now written (InboxTx.selected (tx.inbox boundary.conversationId) boundary at_) after ∧
        (tx.applyBoundary input boundary at_ now).1 = after.setItems boundary.conversationId ((tx.inbox boundary.conversationId).filter fun item =>
          !item.isWrite && decide (item.id ∉ (InboxTx.selected (tx.inbox boundary.conversationId) boundary at_).map (·.id))) ∧
        (tx.applyBoundary input boundary at_ now).2.users = (InboxTx.selected (tx.inbox boundary.conversationId) boundary at_).map (·.id)) ∧
    -- A submission keeps its one entry, and is never queued again.
    ∀ (later : List (InboxLabel V)) (sys' : Conversations V O), Steps (Step input) sys later sys' →
      ∀ (submission : SubmissionId) (old : SubmissionRecord V), sys.storage.submission submission = some old →
        ∃ new, sys'.storage.submission submission = some new ∧ (old.status ≠ .queued → new.status ≠ .queued) ∧
          ∀ entry, old.entry = some entry → new.entry = some entry := by
  have hagrees := agrees_of_steps input hrun
  refine ⟨fun id => ⟨hagrees.sorted id, hagrees.agree id⟩, ?_, ?_, ?_⟩
  · intro scope id draft now modes submission sys₁ sys₂ later hsubmit hlater hsome scope' draft' now' modes' hrequest htype hcheck
    obtain ⟨requestId, hrequestId⟩ := isSome_iff_exists.mp hsome
    obtain ⟨record, hrecord, hconversation, hrequest', htype'⟩ := Step.submitted input hagrees hsubmit hrequestId
    have hagrees₁ := Agrees.step input hagrees hsubmit
    obtain ⟨new, hnew, hsucceeds⟩ := succeeds_of_steps input hagrees₁ hlater hrecord
    have hagrees₂ := hlater.invariant (fun h hstep => Agrees.step input h hstep) hagrees₁
    have hasked : new.requestId = some requestId := hsucceeds.request.trans hrequest'
    exact repeated input hagrees₂ hnew (hsucceeds.conversation.trans hconversation) (by rw [hasked]; rfl)
      (hasked.trans (hrequest.trans hrequestId).symm) (hsucceeds.type.trans (htype'.trans htype.symm)) hcheck
  · intro label tx boundary at_ now happlies
    exact bounded input (atBoundary_of_applies hagrees happlies) at_ now
  · intro later sys' hlater submission old hold
    obtain ⟨new, hnew, hsucceeds⟩ := succeeds_of_steps input hagrees hlater hold
    refine ⟨new, hnew, hsucceeds.unqueued, fun entry hentry => ?_⟩
    refine (hsucceeds.entry fun hqueued => ?_).trans hentry
    rw [hagrees.unplaced submission old hold hqueued] at hentry
    cases hentry

/-- Text as an entry holds it. -/
def textEntry (content : String) (_ : Option (InputEntry String)) (_ : Nat) : String := content

/-- An input that steers a busy conversation. -/
def steering (requestId content : String) : SubmissionDraft String := ⟨some requestId, .input content (some .steer) false none⟩

/-- The first input starts a run, and the second waits for it. -/
theorem inbox_agrees_queued : ∃ sys : Conversations String Unit, (sys.inbox 0).map (·.id) = [4] ∧
    ∀ submission, submission ∈ (sys.inbox 0).map (·.id) ↔
      ∃ record, sys.storage.submission submission = some record ∧ record.conversationId = 0 ∧ record.status = .queued := by
  have hstart : Steps (Step textEntry) (opened [] 1 : Conversations String Unit) [InboxLabel.submit none 0 (steering "a" "one") 0 ⟨.all, .all⟩ 2] _ :=
    .tail .refl (.submit rfl rfl)
  have hqueue := hstart.tail (.submit (@rfl _ ((start _ none).admitSubmission textEntry 0 (steering "b" "two") 0 ⟨.all, .all⟩)) rfl)
  exact ⟨_, rfl, ((inbox_agrees textEntry hqueue).1 0).2⟩

end Conversations

end PiBridge.Durable
