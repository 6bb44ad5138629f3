import PiBridge.Durable.Correctness.Boundaries

/-!
# `Durable.Correctness.InboxRuns` — the agreement in every run

One lemma for each helper (`Sound.endRun`, `Sound.withdrawQueuedInputs`, `Sound.queue`, ..), one for each kind of commit,
and the commit itself (`Sound.commit`); a run of commits keeps the agreement (`agreement_of_steps`).
-/

namespace PiBridge.Durable

open Lib List Option Assoc Function InboxTx
open Transaction (foldSubmissions)

variable {V O : Type}

namespace InboxTx

variable {base : Storage V O} {tx tx' : InboxTx V O} (input : V → Option (InputEntry V) → Nat → V)

/-! ## The run -/

/-- A commit that leaves its inboxes and changes nothing; its runs list what is not queued. -/
theorem Sound.runs (h : Sound base tx) (hstgs : Stages tx tx' []) (hinbox : tx'.inbox = tx.inbox)
    (hlive : ∀ id run, (tx'.live id).run = some run →
      (∃ old, (tx.live id).run = some old ∧ ∀ sub ∈ run.inputs, sub ∈ old.inputs) ∨ NotQueued tx run.inputs) : Sound base tx' := by
  refine h.stage hstgs (fun view _ id => ?_) fun id run hrun => (hlive id run hrun).imp_right fun hkn => hkn.stage hstgs
  rw [hinbox]
  exact (filter_none fun _ _ => not_mem_nil).symm

/-- The live document of one conversation is set. -/
theorem run_setLive {id id' : ConversationId} {live : LiveState V} {run : LiveRun} (h : ((tx.setLive id live).live id').run = some run) :
    id' = id ∧ live.run = some run ∨ (tx.live id').run = some run := by
  have h' : (update tx.live id live id').run = some run := h
  by_cases heq : id' = id
  · rw [heq, update_self] at h'
    exact .inl ⟨heq, h'⟩
  · rw [update_of_ne heq] at h'
    exact .inr h'

theorem Sound.startRun (h : Sound base tx) {inputs : List SubmissionId} (hkn : NotQueued tx inputs) (id : ConversationId) (fst : Option EntryId)
    (keepFailure : Bool) : Sound base (tx.startRun id inputs fst keepFailure) := by
  refine h.runs ⟨rfl, rfl, ⟨[], (append_nil _).symm, rfl⟩, Nat.le_succ _⟩ rfl fun id' run hrun => ?_
  obtain ⟨-, hset⟩ | hwas := run_setLive hrun
  · cases hset
    exact .inr hkn
  · exact .inl ⟨run, hwas, fun _ hin => hin⟩

theorem Sound.startFor (h : Sound base tx) {res : BoundaryResult} (hkn : NotQueued tx res.users) (id : ConversationId) (keepFailure : Bool) :
    Sound base (tx.startFor id res keepFailure) := by
  unfold InboxTx.startFor
  split
  · exact h
  · exact h.startRun hkn ..

theorem settleAll_places (tx : InboxTx V O) (ids : List SubmissionId) (chg : SubmissionChange V) : Places tx (tx.settleAll ids chg) ids := by
  induction ids generalizing tx with
  | nil => exact Places.refl tx
  | cons id ids ih => exact (Places.change tx id chg).trans (ih _)

/-- A run's inputs are in no inbox, so settling them leaves the inboxes as they are. -/
theorem Sound.settleRun (h : Sound base tx) {id : ConversationId} {run : LiveRun} (hrun : (tx.live id).run = some run) (chg : SubmissionChange V)
    {live : LiveState V} (hlive : ∀ next, live.run = some next → ∀ sub ∈ next.inputs, sub ∈ run.inputs) :
    Sound base ((tx.settleAll run.inputs chg).setLive id live) := by
  have hplaces := settleAll_places tx run.inputs chg
  have hstgs : Stages tx ((tx.settleAll run.inputs chg).setLive id live) run.inputs := { hplaces with }
  refine h.stage hstgs (fun view hagree id' => ?_) fun id' next hnext => .inl ?_
  · show (tx.settleAll run.inputs chg).inbox id' = _
    rw [hplaces.inbox]
    refine (filter_none fun item hitem hin => ?_).symm
    obtain ⟨rec, hrec, -, hqueu⟩ := (hagree.agree id' item.id).mp (mem_map_of_mem hitem)
    obtain ⟨same, hsame, hunqueued⟩ := hagree.inputs id run hrun item.id hin
    rw [hrec] at hsame
    exact hunqueued (some.inj hsame ▸ hqueu)
  · obtain ⟨rfl, hset⟩ | hwas := run_setLive hnext
    · exact ⟨run, hrun, hlive next hset⟩
    · rw [hplaces.live] at hwas
      exact ⟨next, hwas, fun _ hin => hin⟩

theorem Sound.endRun (h : Sound base tx) (id : ConversationId) (taskId : TaskId) (end_ : RunEnd V) : Sound base (tx.endRun id taskId end_) := by
  unfold InboxTx.endRun
  cases hrun : (tx.live id).run with
  | none => exact h
  | some run =>
    dsimp only
    split
    · cases end_ with
      | done answer => exact h.settleRun hrun _ fun next hnext => by cases hnext
      | unanswered rsn detail settlement =>
        dsimp only
        split
        · refine h.runs ⟨rfl, rfl, ⟨[], (append_nil _).symm, rfl⟩, Nat.le_refl _⟩ rfl fun id' next hnext => ?_
          obtain ⟨-, hset⟩ | hwas := run_setLive hnext
          · cases hset
          · exact .inl ⟨next, hwas, fun _ hin => hin⟩
        · exact h.settleRun hrun _ fun next hnext => by cases hnext
    · exact h

theorem Sound.handOver (h : Sound base tx) (id : ConversationId) (src tgt : TaskId) : Sound base (tx.handOver id src tgt) := by
  unfold InboxTx.handOver
  cases hrun : (tx.live id).run with
  | none => exact h
  | some run =>
    dsimp only
    split
    · refine h.runs ⟨rfl, rfl, ⟨[], (append_nil _).symm, rfl⟩, Nat.le_refl _⟩ rfl fun id' next hnext => .inl ?_
      obtain ⟨rfl, hset⟩ | hwas := run_setLive hnext
      · cases hset
        exact ⟨run, hrun, fun _ hin => hin⟩
      · exact ⟨next, hwas, fun _ hin => hin⟩
    · exact h

theorem Sound.joinRun (h : Sound base tx) {users : List SubmissionId} (hkn : NotQueued tx users) (id : ConversationId) (taskId : TaskId) :
    Sound base (tx.joinRun id taskId users) := by
  unfold InboxTx.joinRun
  cases hrun : (tx.live id).run with
  | none => exact h
  | some run =>
    dsimp only
    split
    · have hinputs : NotQueued tx run.inputs := fun res hreso => (h.agreement res hreso).inputs id run hrun
      refine h.runs ⟨rfl, rfl, ⟨[], (append_nil _).symm, rfl⟩, Nat.le_refl _⟩ rfl fun id' next hnext => ?_
      obtain ⟨-, hset⟩ | hwas := run_setLive hnext
      · cases hset
        exact .inr (hinputs.append hkn)
      · exact .inl ⟨next, hwas, fun _ hin => hin⟩
    · exact h

theorem Sound.holdRun (h : Sound base tx) {id : ConversationId} {taskId : TaskId} {answer : EntryId} {held : InboxTx V O}
    (hheld : tx.holdRun id taskId answer = some held) : Sound base held := by
  unfold InboxTx.holdRun at hheld
  cases hrun : (tx.live id).run with
  | none => rw [hrun] at hheld; cases hheld
  | some run =>
    rw [hrun] at hheld
    dsimp only at hheld
    split at hheld
    · cases hheld
      refine h.settleRun hrun _ fun next hnext => ?_
      cases hnext
      exact nofun
    · cases hheld

theorem Sound.append (h : Sound base tx) (id : ConversationId) (draft : EntryDraft V) : Sound base (tx.appendEntry id draft).1 :=
  h.places (Places.append tx id draft)

theorem Sound.appendAll (h : Sound base tx) (id : ConversationId) (msgs : List V) : Sound base (tx.appendAll id msgs) := by
  induction msgs generalizing tx with
  | nil => exact h
  | cons msg msgs ih => exact ih (h.append id _)

theorem Sound.mintId (h : Sound base tx) : Sound base tx.mintId.1 :=
  h.places ⟨⟨rfl, rfl, ⟨[], (append_nil _).symm, rfl⟩, Nat.le_succ _⟩, rfl, rfl⟩

/-! ## Withdrawals -/

/-- An item leaves its inbox with its submission's change. -/
theorem Sound.withdraw (h : Sound base tx) {id : ConversationId} {idx : Nat} {item : InboxItem V} (hitem : (tx.inbox id)[idx]? = some item)
    (chg : SubmissionChange V) : Sound base ((tx.changeSubmission item.id chg).setItems id ((tx.inbox id).eraseIdx idx)) := by
  have hstgs : Stages tx ((tx.changeSubmission item.id chg).setItems id ((tx.inbox id).eraseIdx idx)) [item.id] :=
    ⟨rfl, rfl, ⟨[(item.id, chg)], rfl, rfl⟩, Nat.le_refl _⟩
  refine h.stage hstgs (fun view hagree id' => ?_) fun id' run hrun => .inl ⟨run, hrun, fun _ hin => hin⟩
  show update tx.inbox id ((tx.inbox id).eraseIdx idx) id' = _
  by_cases heq : id' = id
  · subst heq
    rw [update_self, eraseIdx_eq_filter InboxItem.id hitem (hagree.nodup id')]
    exact filter_congr fun oth _ => decide_eq_decide.mpr (by rw [mem_singleton])
  · rw [update_of_ne heq]
    refine (filter_none fun oth hoth hin => heq ?_).symm
    refine hagree.apart (mem_map_of_mem hoth) ?_
    rw [mem_singleton.mp hin]
    exact mem_map_of_mem (mem_of_getElem? hitem)

theorem Sound.withdrawItems (id : ConversationId) (rsn : String) (idx : Nat) (h : Sound base tx) : Sound base (withdrawItems id rsn idx tx) := by
  induction idx generalizing tx with
  | zero => exact h
  | succ idx ih =>
    unfold withdrawItems
    split
    · rename_i sub _ _ _ hitem
      exact ih (h.withdraw hitem _)
    · exact ih h

theorem Sound.withdrawQueuedInputs (h : Sound base tx) (id : ConversationId) (rsn : String) : Sound base (tx.withdrawQueuedInputs id rsn) :=
  h.withdrawItems id rsn _

theorem Sound.withdrawAll (h : Sound base tx) (ids : List ConversationId) (rsn : String) :
    Sound base (ids.foldl (fun tx id => tx.withdrawQueuedInputs id rsn) tx) := by
  induction ids generalizing tx with
  | nil => exact h
  | cons id ids ih => exact ih (h.withdrawQueuedInputs id rsn)

/-! ## New submissions -/

/-- A submission under a new identity, and what the commit sees of it. -/
theorem viewOf_create (cr : SubmissionCreate V) (id : SubmissionId) : viewOf tx.storage (tx.createSubmission cr).1.submissions id =
      if tx.nextId = id then some { cr with id := tx.nextId } else viewOf tx.storage tx.submissions id := by
  unfold viewOf createSubmission
  rw [get?_set]
  split <;> rfl

/-- No submission of the conversation has the request. -/
def Unasked (tx : InboxTx V O) (id : ConversationId) (requestId : Option String) : Prop :=
  ∀ submission record, viewOf tx.storage tx.submissions submission = some record → record.conversationId = id →
    record.requestId = requestId → requestId.isSome = true → False

theorem resolved_of_unchanged (h : tx.submissionChanges = []) : tx.resolved = .ok tx.submissions := by
  unfold resolved
  rw [h]
  rfl

variable (h : Sound base tx) (hchgs : tx.submissionChanges = [])

include h hchgs in
/-- The stored submissions stay, as a new one has a new identity. -/
theorem Sound.fresh_create (cr : SubmissionCreate V) (id : SubmissionId)
    (rec : SubmissionRecord V) (hrec : tx.storage.submission id = some rec) :
    viewOf tx.storage (tx.createSubmission cr).1.submissions id = some rec := by
  have hview := h.fresh id rec hrec
  have hlt := ((h.agreement _ (resolved_of_unchanged hchgs)).named id rec hview).2
  rw [viewOf_create, if_neg (Nat.ne_of_gt hlt)]
  exact hview

include h hchgs in
/-- A new submission that is not queued. -/
theorem Sound.create {cr : SubmissionCreate V}
    (hask : tx.Unasked cr.conversationId cr.requestId) (hstat : cr.status ≠ .queued) :
    Sound base (tx.createSubmission cr).1 ∧ NotQueued (tx.createSubmission cr).1 [(tx.createSubmission cr).2] := by
  have hnow : (tx.createSubmission cr).1.resolved = .ok (tx.createSubmission cr).1.submissions := resolved_of_unchanged hchgs
  have hview := @viewOf_create V O tx cr
  refine ⟨⟨h.origin, nodup_keys_set h.keys _ _, h.fresh_create hchgs cr, fun res hreso => ?_⟩, fun res hreso id hid => ?_⟩
  · obtain rfl : (tx.createSubmission cr).1.submissions = res := Except.ok.inj (hnow.symm.trans hreso)
    exact (h.agreement _ (resolved_of_unchanged hchgs)).create rfl hview hask (fun hqueu => absurd hqueu hstat)
      (fun hqueu => absurd hqueu hstat) fun _ _ => rfl
  · obtain rfl : (tx.createSubmission cr).1.submissions = res := Except.ok.inj (hnow.symm.trans hreso)
    obtain rfl := mem_singleton.mp hid
    refine ⟨{ cr with id := tx.nextId }, ?_, hstat⟩
    show viewOf tx.storage _ tx.nextId = _
    rw [hview, if_pos rfl]

include h hchgs in
/-- A queued submission, with its item at the end of the inbox. -/
theorem Sound.push {cr : SubmissionCreate V}
    (hask : tx.Unasked cr.conversationId cr.requestId) (hstat : cr.status = .queued)
    (hent : cr.entry = none) {item : InboxItem V} (hid : item.id = tx.nextId) (htype : item.type = cr.type) :
    Sound base ((tx.createSubmission cr).1.setItems cr.conversationId ((tx.createSubmission cr).1.inbox cr.conversationId ++ [item])) := by
  have hnow : ((tx.createSubmission cr).1.setItems cr.conversationId
      ((tx.createSubmission cr).1.inbox cr.conversationId ++ [item])).resolved = .ok (tx.createSubmission cr).1.submissions :=
    resolved_of_unchanged hchgs
  refine ⟨h.origin, nodup_keys_set h.keys _ _, h.fresh_create hchgs cr, fun res hreso => ?_⟩
  obtain rfl : (tx.createSubmission cr).1.submissions = res := Except.ok.inj (hnow.symm.trans hreso)
  refine (h.agreement _ (resolved_of_unchanged hchgs)).create rfl (viewOf_create cr) hask (fun _ => hent)
    (fun _ => ⟨item, update_self .., hid, htype⟩) fun id hnot => update_of_ne (hnot hstat) _ _

variable {draft : SubmissionDraft V}

section

include h hchgs

theorem Sound.queue {id : ConversationId}
    (hask : tx.Unasked id draft.requestId) (hdraft : draft.body.type ≠ .continue) : Sound base (tx.queue id draft).1 := by
  unfold InboxTx.queue
  have hpush {item : InboxItem V} (hid : item.id = tx.nextId) (htype : item.type = draft.body.type) :
      Sound base ((tx.createSubmission (fields id draft .queued)).1.setItems id ((tx.createSubmission (fields id draft .queued)).1.inbox id ++ [item])) :=
    @Sound.push V O base tx h hchgs (fields id draft .queued) hask rfl rfl item hid htype
  cases hbody : draft.body with
  | input cont whenBusy rejectIdle e | write e => exact hpush rfl (by rw [hbody]; rfl)
  | «continue» => exact absurd (by rw [hbody]; rfl) hdraft

theorem Sound.writeNow {id : ConversationId}
    (hask : tx.Unasked id draft.requestId) (e : WriteDraft V) : Sound base (tx.writeNow id draft e).1 :=
  (@Sound.create V O base _ (h.append id e.toEntryDraft) hchgs { fields id draft .done with entry := some tx.nextId } hask
    fun hqueu => by cases hqueu).1

theorem Sound.admitContinue {id : ConversationId}
    (hask : tx.Unasked id draft.requestId) (now : Nat) (modes : QueueModes) : Sound base (tx.admitContinue input id draft now modes).1 := by
  obtain ⟨hmade, hself⟩ := @Sound.create V O base tx h hchgs (fields id draft .placed) hask fun hqueu => by cases hqueu
  obtain ⟨hbounded, husers, -, ids, hstgs⟩ := hmade.applyBoundary input (tx.prepareBoundary id modes) .final now
  exact hbounded.startRun (husers.append (hself.stage hstgs)) ..

theorem Sound.admitBehind {id : ConversationId}
    (hask : tx.Unasked id draft.requestId) (hdraft : draft.body.type ≠ .continue) (now : Nat) (modes : QueueModes) :
    Sound base (tx.admitBehind input id draft now modes).1 := by
  obtain ⟨hbounded, husers, -⟩ := (h.queue hchgs hask hdraft).applyBoundary input (tx.prepareBoundary id modes) .final now
  exact hbounded.startFor husers ..

theorem Sound.admitIdle {id : ConversationId}
    (hask : tx.Unasked id draft.requestId) (now : Nat) (modes : QueueModes) : Sound base (tx.admitIdle input id draft now modes).1 := by
  unfold InboxTx.admitIdle
  cases draft.body with
  | input cont whenBusy rejectIdle e =>
    obtain ⟨hmade, hself⟩ := @Sound.create V O base _ (h.append id ⟨none, input cont e now⟩) hchgs
      { fields id draft .placed with entry := some tx.nextId } hask fun hqueu => by cases hqueu
    exact hmade.startRun hself ..
  | write e =>
    dsimp only
    split
    · exact (h.create hchgs hask fun hqueu => by cases hqueu).1
    · exact h.writeNow hchgs hask e
  | «continue» => exact h.admitContinue input hchgs hask ..

end

variable {adm : InboxTx V O × SubmissionId} {modes : QueueModes}

theorem admitNew_cases {id : ConversationId} {now : Nat} (hadm : tx.admitNew input id draft now modes = .ok adm) :
    (∃ e, adm = tx.writeNow id draft e) ∨ adm = tx.admitContinue input id draft now modes ∨
      (draft.body.type ≠ .continue ∧ adm = tx.queue id draft) ∨ adm = tx.admitIdle input id draft now modes ∨
      draft.body.type ≠ .continue ∧ adm = tx.admitBehind input id draft now modes := by
  have hturn (hadm : tx.admitInTurn input id draft now modes = .ok adm) :
      adm = tx.admitContinue input id draft now modes ∨ (draft.body.type ≠ .continue ∧ adm = tx.queue id draft) ∨
        adm = tx.admitIdle input id draft now modes ∨
        draft.body.type ≠ .continue ∧ adm = tx.admitBehind input id draft now modes := by
    unfold admitInTurn at hadm
    dsimp only at hadm
    split at hadm
    · cases hadm
    · split at hadm
      · exact .inl (Except.ok.inj hadm).symm
      · rename_i hdraft
        split at hadm
        · exact .inr (.inl ⟨hdraft, (Except.ok.inj hadm).symm⟩)
        · split at hadm
          · exact .inr (.inr (.inl (Except.ok.inj hadm).symm))
          · exact .inr (.inr (.inr ⟨hdraft, (Except.ok.inj hadm).symm⟩))
  unfold admitNew at hadm
  split at hadm
  · rename_i e _
    split at hadm
    · exact .inl ⟨e, (Except.ok.inj hadm).symm⟩
    · exact .inr (hturn hadm)
  · exact .inr (hturn hadm)

include h hchgs in
theorem Sound.admitNew {id : ConversationId}
    (hask : tx.Unasked id draft.requestId) {now : Nat}
    (hadm : tx.admitNew input id draft now modes = .ok adm) : Sound base adm.1 := by
  obtain ⟨e, rfl⟩ | rfl | ⟨hdraft, rfl⟩ | rfl | ⟨hdraft, rfl⟩ := admitNew_cases input hadm
  · exact h.writeNow hchgs hask e
  · exact h.admitContinue input hchgs hask ..
  · exact h.queue hchgs hask hdraft
  · exact h.admitIdle input hchgs hask ..
  · exact h.admitBehind input hchgs hask hdraft ..

include h hchgs in
/-- A queued submission is withdrawn. -/
theorem Sound.abortSubmission (hnone : tx.submissions = []) (id : SubmissionId)
    (conversationId : Option ConversationId) : Sound base (tx.abortSubmission id conversationId) := by
  unfold InboxTx.abortSubmission
  split
  · exact h
  · rename_i rec hrec
    split
    · exact h
    · split
      · rename_i hqueu
        -- The submission is queued, so its item is in the inbox of its conversation.
        have hagree := h.agreement _ (resolved_of_unchanged hchgs)
        have hview : viewOf tx.storage tx.submissions id = some rec := by
          rw [hnone]
          exact hrec
        have hin := (hagree.agree rec.conversationId id).mpr ⟨rec, hview, rfl, hqueu⟩
        unfold removeInboxItem
        split
        · rename_i idx hidx
          have hfnd : (tx.inbox rec.conversationId).findIdx? (·.id = id) = some idx := hidx
          obtain ⟨hlt, hat, -⟩ := findIdx?_eq_some_iff_getElem.mp hfnd
          have hitem : (tx.inbox rec.conversationId)[idx]? = some (tx.inbox rec.conversationId)[idx] := getElem?_eq_getElem hlt
          have hid : (tx.inbox rec.conversationId)[idx].id = id := of_decide_eq_true hat
          have hwithdrawn := h.withdraw hitem (.unanswered "aborted" none)
          rw [hid] at hwithdrawn
          exact hwithdrawn
        · rename_i hidx
          obtain ⟨item, hitem, rfl⟩ := mem_map.mp hin
          have hnot := findIdx?_eq_none_iff.mp hidx item hitem
          simp at hnot
      · exact h

/-! ## The commits of a run -/

variable (id : ConversationId) (taskId : TaskId) (now : Nat) (modes : QueueModes)

theorem endRun_stages (tx : InboxTx V O) (end_ : RunEnd V) : ∃ ids, Stages tx (tx.endRun id taskId end_) ids := by
  have hsett (run : LiveRun) (chg : SubmissionChange V) (live : LiveState V) :
      Stages tx ((tx.settleAll run.inputs chg).setLive id live) run.inputs := by
    have hplaces := settleAll_places tx run.inputs chg
    exact { hplaces with }
  unfold endRun
  split
  · exact ⟨[], Stages.refl tx⟩
  · rename_i run _
    split
    · cases end_ with
      | done answer => exact ⟨_, hsett run _ _⟩
      | unanswered rsn detail settlement =>
        dsimp only
        split
        · exact ⟨[], rfl, rfl, ⟨[], (append_nil _).symm, rfl⟩, Nat.le_refl _⟩
        · exact ⟨_, hsett run _ _⟩
    · exact ⟨[], Stages.refl tx⟩

/-- What a boundary placed, once the run has ended. -/
theorem NotQueued.endRun {users : List SubmissionId} (h : NotQueued tx users) (end_ : RunEnd V) : NotQueued (tx.endRun id taskId end_) users := by
  obtain ⟨ids, hstgs⟩ := endRun_stages id taskId tx end_
  exact h.stage hstgs

section

variable (h : Sound base tx)

include h

theorem Sound.endDone (bdry : Boundary) (answer : EntryId) : Sound base (tx.endDone input id taskId now bdry answer) := by
  obtain ⟨hbounded, husers, -⟩ := h.applyBoundary input bdry .final now
  exact (hbounded.endRun id taskId (.done answer)).startFor (husers.endRun id taskId _) id false

theorem Sound.answer (msg : V) (continuation : Option V) (afterRun : Bool) :
    Sound base (tx.answer input id taskId now modes msg continuation afterRun) := by
  have happended := h.append id ⟨none, msg⟩
  unfold InboxTx.answer
  dsimp only
  split
  · rename_i cont _
    obtain ⟨hbounded, -⟩ := happended.applyBoundary input (tx.prepareBoundary id modes) .final now
    exact ((hbounded.append id ⟨none, input cont none now⟩).mintId).handOver ..
  · split
    · rename_i held hheld
      split at hheld
      · exact happended.holdRun hheld
      · cases hheld
    · exact happended.endDone ..

theorem Sound.endFailedRun (bdry : Boundary) (policy : AfterFailedRun) (end_ : RunEnd V) :
    Sound base (tx.endFailedRun input id taskId now bdry policy end_) := by
  have hend := h.endRun id taskId end_
  cases policy with
  | keep => exact hend
  | withdraw => exact hend.withdrawQueuedInputs ..
  | «continue» =>
    obtain ⟨hbounded, husers, -⟩ := hend.applyBoundary input bdry .final now
    exact hbounded.startFor husers ..

theorem Sound.roundOver (bdry : Boundary) (assistant : EntryId) (terminate afterRun : Bool)
    (turnLimit : Option (AfterFailedRun × RunEnd V)) :
    Sound base (tx.roundOver input id taskId now bdry assistant terminate afterRun turnLimit) := by
  unfold InboxTx.roundOver
  split
  · rename_i held hheld
    split at hheld
    · exact h.holdRun hheld
    · cases hheld
  · split
    · exact h.endDone ..
    · split
      · exact h.endFailedRun ..
      · obtain ⟨hbounded, husers, -⟩ := h.applyBoundary input bdry .postTools now
        dsimp only
        split
        · exact (hbounded.endRun id taskId _).startFor (husers.endRun id taskId _) id true
        · exact ((hbounded.joinRun husers id taskId).mintId).handOver ..

theorem Sound.afterTools (assistant : EntryId) (handoff : Option V) (terminate afterRun : Bool)
    (turnLimit : Option (AfterFailedRun × RunEnd V)) :
    Sound base (tx.afterTools input id taskId now modes assistant handoff terminate afterRun turnLimit) := by
  cases handoff with
  | none => exact h.roundOver ..
  | some msg => exact (h.append id ⟨some (.inr ()), msg⟩).roundOver ..

theorem Sound.runCommit (com : RunCommit V) : Sound base (tx.runCommit input id taskId now modes com) := by
  cases com with
  | answer msg continuation afterRun => exact h.answer ..
  | endAnswered answer => exact h.endDone ..
  | endFailed bef policy end_ => exact (h.appendAll id bef).endFailedRun ..
  | afterTools assistant handoff terminate afterRun turnLimit => exact h.afterTools ..
  | ends bef end_ => exact (h.appendAll id bef).endRun ..

end

end InboxTx

/-! ## What is stored -/

theorem get?_foldl_set (recs : Assoc SubmissionId (SubmissionRecord V)) (sto : Assoc SubmissionId (SubmissionRecord V))
    (hkeys : (recs.map Prod.fst).Nodup) (hnamed : ∀ p ∈ recs, p.2.id = p.1) (id : SubmissionId) :
    Assoc.get? (recs.foldl (fun sto p => Assoc.set sto p.2.id p.2) sto) id = (Assoc.get? recs id).or (Assoc.get? sto id) := by
  induction recs generalizing sto with
  | nil => rfl
  | cons p recs ih =>
    obtain ⟨key, rec⟩ := p
    rw [map_cons, nodup_cons] at hkeys
    have hid : rec.id = key := hnamed _ (.head _)
    rw [foldl_cons, ih _ hkeys.2 fun q hq => hnamed q (.tail _ hq), hid, get?_set]
    by_cases heq : key = id
    · subst heq
      have hnone : get? recs key = none := get?_eq_none_iff.mpr hkeys.1
      simp [get?, hnone]
    · simp [get?, heq]

namespace InboxTx

variable {base : Storage V O} {tx : InboxTx V O} {sys sys' : Conversations V O}

/-- The submissions a batch leaves. -/
theorem submissions_writes (tx : InboxTx V O) (res : Assoc SubmissionId (SubmissionRecord V)) :
    ((tx.writes res).foldl (fun s w => s.apply s.nextSeq w) tx.storage).submissions =
      res.foldl (fun sto p => Assoc.set sto p.2.id p.2) tx.storage.submissions := by
  have hents : ∀ (es : List (EntryRecord V)) (s : Storage V O),
      ((es.map StorageWrite.entry).foldl (fun s w => s.apply s.nextSeq w) s).submissions = s.submissions := by
    intro es
    induction es with
    | nil => exact fun _ => rfl
    | cons e es ih =>
      intro s
      rw [map_cons, foldl_cons, ih]
      rfl
  have hrecs : ∀ (recs : Assoc SubmissionId (SubmissionRecord V)) (s : Storage V O),
      ((recs.map fun p => StorageWrite.submission p.2).foldl (fun s w => s.apply s.nextSeq w) s).submissions =
        recs.foldl (fun sto p => Assoc.set sto p.2.id p.2) s.submissions := by
    intro recs
    induction recs with
    | nil => exact fun _ => rfl
    | cons p recs ih =>
      intro s
      rw [map_cons, foldl_cons, ih, foldl_cons]
      rfl
  unfold writes
  rw [foldl_append, hrecs, hents]

/-- The commit that settles, and what it stores. -/
theorem commit_eq (hcomm : tx.commit = .ok sys') : ∃ res, tx.resolved = .ok res ∧
    sys'.storage.submissions = res.foldl (fun sto p => Assoc.set sto p.2.id p.2) tx.storage.submissions ∧
    sys'.inbox = tx.inbox ∧ sys'.live = tx.live ∧ sys'.storage.nextId = tx.nextId := by
  unfold commit at hcomm
  cases hreso : foldSubmissions tx.storage tx.submissionChanges tx.submissions with
  | error e => rw [hreso] at hcomm; cases hcomm
  | ok res =>
    rw [hreso] at hcomm
    cases hcomm
    exact ⟨res, hreso, submissions_writes tx res, rfl, rfl, rfl⟩

theorem keys_of_fold {s : Storage V O} {chgs : List (SubmissionId × SubmissionChange V)}
    {subs res : Assoc SubmissionId (SubmissionRecord V)} (hkeys : (subs.map Prod.fst).Nodup)
    (h : foldSubmissions s chgs subs = .ok res) : (res.map Prod.fst).Nodup := by
  induction chgs generalizing subs with
  | nil => exact Except.ok.inj h ▸ hkeys
  | cons chg chgs ih =>
    obtain ⟨id, chg⟩ := chg
    unfold foldSubmissions at h
    split at h
    · cases h
    · rename_i cur _
      cases hnext : applySubmissionChange cur chg with
      | error e => rw [hnext] at h; cases h
      | ok next =>
        rw [hnext] at h
        have h' : (if cur.status = .done ∨ cur.status = .unanswered then foldSubmissions s chgs subs
            else foldSubmissions s chgs (set subs id next)) = .ok res := h
        split at h'
        · exact ih hkeys h'
        · exact ih (nodup_keys_set hkeys id next) h'

/-- What is stored is what the commit saw last. -/
theorem Sound.stored (h : Sound base tx) (hcomm : tx.commit = .ok sys') {res : Assoc SubmissionId (SubmissionRecord V)}
    (hreso : tx.resolved = .ok res) : sys'.storage.submission = viewOf tx.storage res := by
  obtain ⟨same, hsame, hsubs, -⟩ := commit_eq hcomm
  obtain rfl : res = same := Except.ok.inj (hreso.symm.trans hsame)
  have hagree := h.agreement res hreso
  have hkeys := keys_of_fold h.keys hreso
  funext id
  unfold Storage.submission viewOf
  rw [hsubs, get?_foldl_set _ _ hkeys fun p hp => ?_]
  · rfl
  · have hget : viewOf tx.storage res p.1 = some p.2 := by
      unfold viewOf
      rw [get?_of_mem hkeys hp]
      rfl
    exact (hagree.named p.1 p.2 hget).1

end InboxTx

/-- The submissions of a Storage, each once. -/
def Storage.Keyed (s : Storage V O) : Prop := (s.submissions.map Prod.fst).Nodup

theorem keyed_foldl_set (recs : Assoc SubmissionId (SubmissionRecord V)) {sto : Assoc SubmissionId (SubmissionRecord V)}
    (h : (sto.map Prod.fst).Nodup) : ((recs.foldl (fun sto p => Assoc.set sto p.2.id p.2) sto).map Prod.fst).Nodup := by
  induction recs generalizing sto with
  | nil => exact h
  | cons p recs ih => exact ih (nodup_keys_set h _ _)

namespace Conversations

variable {sys sys' : Conversations V O} (input : V → Option (InputEntry V) → Nat → V)

/-- The inboxes and the submissions of a Session agree. -/
structure Agrees (sys : Conversations V O) : Prop extends Agreement sys.storage.submission sys.inbox sys.live sys.storage.nextId where
  keyed : sys.storage.Keyed

theorem Agrees.start (h : Agrees sys) (scope : Option TaskId) : InboxTx.Sound sys.storage (InboxTx.start sys scope) := by
  refine ⟨rfl, nodup_nil, fun _ _ hrec => hrec, fun res hreso => ?_⟩
  cases hreso
  exact h.toAgreement

/-- A commit stored on top of what it read. -/
theorem Agrees.commit {base : Storage V O} {tx : InboxTx V O} (h : InboxTx.Sound base tx) (hkeyed : base.Keyed) (hcomm : tx.commit = .ok sys') : Agrees sys' := by
  obtain ⟨res, hreso, hsubs, hinbox, hlive, hnext⟩ := commit_eq hcomm
  refine ⟨?_, ?_⟩
  · rw [h.stored hcomm hreso, hinbox, hlive, hnext]
    exact h.agreement res hreso
  · unfold Storage.Keyed
    rw [hsubs, h.origin]
    exact keyed_foldl_set res hkeyed

/-- **The known submission of a request** is the one that has it. -/
theorem Agrees.submissionByRequest (h : Agrees sys) {id : ConversationId} {rid : String} {rec : SubmissionRecord V} :
    sys.storage.submissionByRequest id rid = some rec ↔
      sys.storage.submission rec.id = some rec ∧ rec.conversationId = id ∧ rec.requestId = some rid := by
  have hfnd {fnd : SubmissionRecord V} (hfnd : sys.storage.submissionByRequest id rid = some fnd) :
      sys.storage.submission fnd.id = some fnd ∧ fnd.conversationId = id ∧ fnd.requestId = some rid := by
    obtain ⟨p, hp, rfl⟩ := map_eq_some_iff.mp hfnd
    have hmatches := find?_some hp
    rw [Bool.and_eq_true, decide_eq_true_eq, decide_eq_true_eq] at hmatches
    have hget : sys.storage.submission p.1 = some p.2 := get?_of_mem h.keyed (mem_of_find?_eq_some hp)
    rw [(h.named p.1 p.2 hget).1]
    exact ⟨hget, hmatches⟩
  refine ⟨hfnd, fun ⟨hrec, hconv, hreq⟩ => ?_⟩
  cases hsearch : sys.storage.submissionByRequest id rid with
  | none =>
    rw [Storage.submissionByRequest, map_eq_none_iff, find?_eq_none] at hsearch
    have hnot := hsearch _ (mem_of_get? hrec)
    simp [hconv, hreq] at hnot
  | some fnd =>
    obtain ⟨hget, hconv', hreq'⟩ := hfnd hsearch
    have hsame := h.requests _ _ _ _ hget hrec (hconv'.trans hconv.symm) (hreq'.trans hreq.symm)
      (by rw [hreq']; rfl)
    rw [hsame, hrec] at hget
    exact hget.symm

theorem agrees_opened (convs : List ConversationRecord) (nextId : Nat) : Agrees (opened convs nextId : Conversations V O) := by
  refine ⟨⟨fun id => Pairwise.nil, fun id sub => ⟨nofun, ?_⟩, nofun, ?_, ?_, ?_, ?_⟩, nodup_nil⟩
  · rintro ⟨rec, hrec, -⟩
    cases hrec
  · intro id run hrun
    cases hrun
  · intro sub rec hrec
    cases hrec
  · intro sub rec hrec
    cases hrec
  · intro sub rec sub' rec' hrec
    cases hrec

/-- An admission: its request is new, or nothing is written. -/
theorem Agrees.admitSubmission (h : Agrees sys) {scope : Option TaskId} {id : ConversationId} {draft : SubmissionDraft V} {now : Nat}
    (hadm : (InboxTx.start sys scope).admitSubmission input id draft now modes = .ok adm) : InboxTx.Sound sys.storage adm.1 := by
  have hsta := h.start scope
  unfold InboxTx.admitSubmission at hadm
  split at hadm
  · cases hadm
  · split at hadm
    · split at hadm
      · exact Except.ok.inj hadm ▸ hsta
      · cases hadm
    · rename_i hunkn
      refine hsta.admitNew input rfl ?_ hadm
      intro oth rec hrec hconv hreq hsome
      obtain ⟨rid, hrequestId⟩ := isSome_iff_exists.mp hsome
      have hrec' : sys.storage.submission oth = some rec := hrec
      have hkn : (InboxTx.start sys scope).storage.submissionByRequest id rid = some rec := by
        refine (h.submissionByRequest).mpr ⟨?_, hconv, hreq.trans hrequestId⟩
        rw [(h.named oth rec hrec').1]
        exact hrec'
      rw [hrequestId, bind_some, hkn] at hunkn
      cases hunkn

variable {lab : InboxLabel V}

/-- A step's commit, and the Storage it read. -/
theorem Step.cases (h : Agrees sys) (hstep : Step input sys lab sys') :
    (∃ tx, InboxTx.Sound sys.storage tx ∧ tx.commit = .ok sys') ∨
      sys'.storage.submissions = sys.storage.submissions ∧ sys'.inbox = sys.inbox ∧ sys'.live = sys.live ∧ sys.storage.nextId ≤ sys'.storage.nextId := by
  cases hstep with
  | submit hadm hcomm => exact .inl ⟨_, h.admitSubmission input hadm, hcomm⟩
  | abort hcomm => exact .inl ⟨_, (h.start none).abortSubmission rfl rfl _ _, hcomm⟩
  | withdraw hcomm => exact .inl ⟨_, (h.start none).withdrawAll _ _, hcomm⟩
  | run hcomm => exact .inl ⟨_, (h.start _).runCommit input _ _ _ _ _, hcomm⟩
  | appends hcomm => exact .inl ⟨_, (h.start _).append _ _, hcomm⟩
  | conversation => exact .inr ⟨rfl, rfl, rfl, Nat.le_max_left ..⟩
  | mints => exact .inr ⟨rfl, rfl, rfl, Nat.le_add_right ..⟩

/-- **Every step keeps the agreement.** -/
theorem Agrees.step (h : Agrees sys) (hstep : Step input sys lab sys') : Agrees sys' := by
  obtain ⟨tx, htx, hcomm⟩ | ⟨hsubs, hinbox, hlive, hnext⟩ := Step.cases input h hstep
  · exact Agrees.commit htx h.keyed hcomm
  · have hsame : sys'.storage.submission = sys.storage.submission := by
      funext id
      unfold Storage.submission
      rw [hsubs]
    refine ⟨⟨hinbox ▸ h.sorted, by rw [hinbox, hsame]; exact h.agree, by rw [hinbox, hsame]; exact h.typed, by rw [hlive, hsame]; exact h.inputs,
      fun sub rec hrec => ?_, by rw [hsame]; exact h.unplaced, by rw [hsame]; exact h.requests⟩, ?_⟩
    · rw [hsame] at hrec
      obtain ⟨hname, hlt⟩ := h.named sub rec hrec
      exact ⟨hname, Nat.lt_of_lt_of_le hlt hnext⟩
    · unfold Storage.Keyed
      rw [hsubs]
      exact h.keyed

/-- **Every run** keeps it. -/
theorem agrees_of_steps {convs : List ConversationRecord} {nextId : Nat} {labs : List (InboxLabel V)}
    (hrun : Steps (Step input) (opened convs nextId) labs sys) : Agrees sys :=
  hrun.invariant (fun h hstep => Agrees.step input h hstep) (agrees_opened convs nextId)

/-- What a step makes of a stored submission. -/
theorem Step.succeeds (h : Agrees sys) (hstep : Step input sys lab sys') {id : SubmissionId} {old : SubmissionRecord V}
    (hold : sys.storage.submission id = some old) : ∃ new, sys'.storage.submission id = some new ∧ Succeeds old new := by
  obtain ⟨tx, htx, hcomm⟩ | ⟨hsubs, -⟩ := Step.cases input h hstep
  · obtain ⟨res, hreso, -⟩ := commit_eq hcomm
    have hchgs := changes_of_fold hreso
    rw [htx.stored hcomm hreso]
    exact hchgs.succeeds id old (htx.fresh id old (htx.origin ▸ hold))
  · refine ⟨old, ?_, Succeeds.refl old⟩
    unfold Storage.submission
    rw [hsubs]
    exact hold

/-- What a run makes of a stored submission. -/
theorem succeeds_of_steps {labs : List (InboxLabel V)} (h : Agrees sys) (hrun : Steps (Step input) sys labs sys') {id : SubmissionId}
    {old : SubmissionRecord V} (hold : sys.storage.submission id = some old) : ∃ new, sys'.storage.submission id = some new ∧ Succeeds old new := by
  induction hrun with
  | refl => exact ⟨old, hold, Succeeds.refl old⟩
  | tail hrun hstep ih =>
    obtain ⟨mid, hmid, hsucc⟩ := ih
    have hagr := hrun.invariant (fun h hstep => Agrees.step input h hstep) h
    obtain ⟨new, hnew, hsucc'⟩ := Step.succeeds input hagr hstep hmid
    exact ⟨new, hnew, hsucc.trans hsucc'⟩

end Conversations

end PiBridge.Durable
