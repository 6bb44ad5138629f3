import PiBridge.Durable.Inbox

/-!
# `Durable.Correctness.InboxAgreement` — an inbox holds what is queued

A change staged in a commit never leaves a submission queued (`Succeeds`), so after the changes of a commit exactly those
submissions are still queued that were and have none (`Changes`). Every helper of a commit removes from the inboxes
exactly the items whose submissions it changes, and a run settles only what is not queued (`Agreement.change`).
-/

namespace PiBridge.Durable

open Lib List Option Assoc
open Transaction (foldSubmissions)

variable {V O : Type}

/-! ## What changes make of the submissions -/

/-- What becomes of a submission: it stays what it is, it is never queued again, and its entry stays. -/
structure Succeeds (old new : SubmissionRecord V) : Prop where
  conversation : new.conversationId = old.conversationId
  request : new.requestId = old.requestId
  type : new.type = old.type
  id : new.id = old.id
  queued : new.status = .queued → new = old
  entry : old.status ≠ .queued → new.entry = old.entry

namespace Succeeds

variable {old mid new : SubmissionRecord V}

theorem refl (rec : SubmissionRecord V) : Succeeds rec rec := ⟨rfl, rfl, rfl, rfl, fun _ => rfl, fun _ => rfl⟩

theorem unqueued (h : Succeeds old new) (hold : old.status ≠ .queued) : new.status ≠ .queued := fun hnew => hold (h.queued hnew ▸ hnew)

theorem trans (h : Succeeds old mid) (h' : Succeeds mid new) : Succeeds old new where
  conversation := h'.conversation.trans h.conversation
  request := h'.request.trans h.request
  type := h'.type.trans h.type
  id := h'.id.trans h.id
  queued hnew := by
    obtain rfl := h'.queued hnew
    exact h.queued hnew
  entry hold := (h'.entry (h.unqueued hold)).trans (h.entry hold)

end Succeeds

theorem succeeds_change {cur next : SubmissionRecord V} {change : SubmissionChange V} (h : applySubmissionChange cur change = .ok next) :
    Succeeds cur next ∧ next.status ≠ .queued := by
  unfold applySubmissionChange at h
  split at h
  · rename_i hsett
    cases h
    refine ⟨Succeeds.refl _, fun hqueu => ?_⟩
    obtain hdone | hdone := hsett <;> rw [hqueu] at hdone <;> cases hdone
  · cases change with
    | placed e =>
      dsimp only at h
      split at h
      · cases h
      · rename_i hqueu
        cases h
        have hnot : (if cur.type = SubmissionType.input then SubmissionStatus.placed else .done) ≠ .queued := by
          split <;> exact fun h => by cases h
        exact ⟨⟨rfl, rfl, rfl, rfl, fun hnow => absurd hnow hnot, fun hwas => absurd hwas hqueu⟩, hnot⟩
    | done answer =>
      dsimp only at h
      split at h
      · cases h
      · cases h
        refine ⟨⟨rfl, rfl, rfl, rfl, fun hnow => ?_, fun _ => rfl⟩, fun hnow => ?_⟩ <;> cases hnow
    | unanswered reason detail =>
      cases h
      refine ⟨⟨rfl, rfl, rfl, rfl, fun hnow => ?_, fun _ => rfl⟩, fun hnow => ?_⟩ <;> cases hnow

/-- The submissions as a commit sees them: those it has written, then the stored ones. -/
def viewOf (s : Storage V O) (submissions : Assoc SubmissionId (SubmissionRecord V)) (id : SubmissionId) : Option (SubmissionRecord V) :=
  (Assoc.get? submissions id).or (s.submission id)

/-- What changes of some submissions make of all. -/
structure Changes (ids : List SubmissionId) (view view' : SubmissionId → Option (SubmissionRecord V)) : Prop where
  kept : ∀ id, id ∉ ids → view' id = view id
  succeeds : ∀ id old, view id = some old → ∃ new, view' id = some new ∧ Succeeds old new
  none : ∀ id, view id = none → view' id = none
  settled : ∀ id ∈ ids, ∃ new, view' id = some new ∧ new.status ≠ .queued

namespace Changes

variable {ids ids' : List SubmissionId} {view view' view'' : SubmissionId → Option (SubmissionRecord V)}

theorem refl (view : SubmissionId → Option (SubmissionRecord V)) : Changes [] view view :=
  ⟨fun _ _ => rfl, fun _ old hold => ⟨old, hold, Succeeds.refl old⟩, fun _ hnone => hnone, nofun⟩

section

variable (h : Changes ids view view')

include h

theorem back {id : SubmissionId} {new : SubmissionRecord V} (hnew : view' id = some new) :
    ∃ old, view id = some old ∧ Succeeds old new := by
  cases hold : view id with
  | none =>
    rw [h.none id hold] at hnew
    cases hnew
  | some old =>
    obtain ⟨same, hsame, hsucc⟩ := h.succeeds id old hold
    rw [hnew] at hsame
    exact ⟨old, rfl, some.inj hsame ▸ hsucc⟩

theorem trans (h' : Changes ids' view' view'') : Changes (ids ++ ids') view view'' where
  kept id hid := by
    rw [mem_append, not_or] at hid
    exact (h'.kept id hid.2).trans (h.kept id hid.1)
  succeeds id old hold := by
    obtain ⟨mid, hmid, hsucc⟩ := h.succeeds id old hold
    obtain ⟨new, hnew, hsucc'⟩ := h'.succeeds id mid hmid
    exact ⟨new, hnew, hsucc.trans hsucc'⟩
  none id hnone := h'.none id (h.none id hnone)
  settled id hid := by
    obtain hfst | hlate := mem_append.mp hid
    · obtain ⟨mid, hmid, hunqueued⟩ := h.settled id hfst
      obtain ⟨new, hnew, hsucc⟩ := h'.succeeds id mid hmid
      exact ⟨new, hnew, hsucc.unqueued hunqueued⟩
    · exact h'.settled id hlate

/-- **Exactly the queued submissions without a change are queued after it.** -/
theorem queued_iff (id : SubmissionId) (P : SubmissionRecord V → Prop) :
    (∃ rec, view' id = some rec ∧ P rec ∧ rec.status = .queued) ↔
      (∃ rec, view id = some rec ∧ P rec ∧ rec.status = .queued) ∧ id ∉ ids := by
  constructor
  · rintro ⟨rec, hrec, hP, hqueu⟩
    obtain ⟨old, hold, hsucc⟩ := h.back hrec
    obtain rfl := hsucc.queued hqueu
    refine ⟨⟨rec, hold, hP, hqueu⟩, fun hid => ?_⟩
    obtain ⟨new, hnew, hunqueued⟩ := h.settled id hid
    rw [hrec] at hnew
    exact hunqueued (some.inj hnew ▸ hqueu)
  · rintro ⟨⟨rec, hrec, hrest⟩, hid⟩
    exact ⟨rec, (h.kept id hid).trans hrec, hrest⟩

end

end Changes

theorem foldSubmissions_append (s : Storage V O) (changes later : List (SubmissionId × SubmissionChange V))
    (subs : Assoc SubmissionId (SubmissionRecord V)) :
    foldSubmissions s (changes ++ later) subs = (foldSubmissions s changes subs).bind (foldSubmissions s later) := by
  induction changes generalizing subs with
  | nil => rfl
  | cons change changes ih =>
    obtain ⟨id, change⟩ := change
    rw [cons_append]
    unfold foldSubmissions
    split
    · rfl
    · rename_i cur _
      cases hnext : applySubmissionChange cur change with
      | error e => rfl
      | ok next =>
        show (if _ then _ else _) = Except.bind (if _ then _ else _) _
        split
        · exact ih subs
        · exact ih _

/-- **What staged changes resolve to.** -/
theorem changes_of_fold {s : Storage V O} {changes : List (SubmissionId × SubmissionChange V)}
    {subs resolved : Assoc SubmissionId (SubmissionRecord V)} (h : foldSubmissions s changes subs = .ok resolved) :
    Changes (changes.map Prod.fst) (viewOf s subs) (viewOf s resolved) := by
  induction changes generalizing subs with
  | nil =>
    cases h
    exact Changes.refl _
  | cons change changes ih =>
    obtain ⟨id, change⟩ := change
    unfold foldSubmissions at h
    split at h
    · cases h
    · rename_i cur hcur
      cases hnext : applySubmissionChange cur change with
      | error e => rw [hnext] at h; cases h
      | ok next =>
        rw [hnext] at h
        obtain ⟨hsucc, hunqueued⟩ := succeeds_change hnext
        have hfst : ∀ later, foldSubmissions s changes later = .ok resolved → viewOf s later id = some next →
            (∀ other, other ≠ id → viewOf s later other = viewOf s subs other) →
            Changes (id :: changes.map Prod.fst) (viewOf s subs) (viewOf s resolved) := by
          intro later hlat hat hothers
          have hone : Changes [id] (viewOf s subs) (viewOf s later) := by
            refine ⟨fun other hoth => hothers other (by simpa using hoth), fun other old hold => ?_, fun other hnone => ?_,
              fun other hoth => ?_⟩
            · by_cases heq : other = id
              · subst heq
                have hsame : viewOf s subs other = some cur := hcur
                rw [hold] at hsame
                exact ⟨next, hat, some.inj hsame ▸ hsucc⟩
              · exact ⟨old, (hothers other heq).trans hold, Succeeds.refl old⟩
            · by_cases heq : other = id
              · subst heq
                have hsame : viewOf s subs other = some cur := hcur
                rw [hnone] at hsame
                cases hsame
              · exact (hothers other heq).trans hnone
            · obtain rfl := mem_singleton.mp hoth
              exact ⟨next, hat, hunqueued⟩
          exact hone.trans (ih hlat)
        have h' : (if cur.status = .done ∨ cur.status = .unanswered then foldSubmissions s changes subs
            else foldSubmissions s changes (set subs id next)) = .ok resolved := h
        split at h'
        · rename_i hsett
          refine hfst subs h' ?_ fun _ _ => rfl
          have hsame : next = cur := by
            unfold applySubmissionChange at hnext
            rw [if_pos hsett] at hnext
            exact (Except.ok.inj hnext).symm
          exact hsame ▸ hcur
        · refine hfst _ h' ?_ fun other hoth => ?_
          · rw [viewOf, get?_set_self]
            rfl
          · rw [viewOf, get?_set_ne _ _ (Ne.symm hoth)]
            rfl

/-! ## Agreement -/

/-- **The inbox and the submissions agree.** -/
structure Agreement (view : SubmissionId → Option (SubmissionRecord V)) (inbox : ConversationId → List (InboxItem V))
    (live : ConversationId → LiveState V) (nextId : Nat) : Prop where
  sorted : ∀ id, ((inbox id).map (·.id)).Pairwise (· < ·)
  agree : ∀ id submission, submission ∈ (inbox id).map (·.id) ↔
    ∃ record, view submission = some record ∧ record.conversationId = id ∧ record.status = .queued
  typed : ∀ id, ∀ item ∈ inbox id, ∀ record, view item.id = some record → record.type = item.type
  inputs : ∀ id run, (live id).run = some run → ∀ submission ∈ run.inputs, ∃ record, view submission = some record ∧ record.status ≠ .queued
  named : ∀ submission record, view submission = some record → record.id = submission ∧ submission < nextId
  unplaced : ∀ submission record, view submission = some record → record.status = .queued → record.entry = none
  requests : ∀ submission record submission' record', view submission = some record → view submission' = some record' →
    record.conversationId = record'.conversationId → record.requestId = record'.requestId → record.requestId.isSome = true → submission = submission'

namespace Agreement

variable {view view' : SubmissionId → Option (SubmissionRecord V)} {inbox inbox' : ConversationId → List (InboxItem V)}
  {live live' : ConversationId → LiveState V} {nextId nextId' : Nat} {ids : List SubmissionId}

section

variable (h : Agreement view inbox live nextId)

include h

theorem nodup (id : ConversationId) : ((inbox id).map (·.id)).Nodup :=
  (h.sorted id).imp fun hlt => Nat.ne_of_lt hlt

theorem apart {id id' : ConversationId} {sub : SubmissionId}
    (hmem : sub ∈ (inbox id).map (·.id)) (hmem' : sub ∈ (inbox id').map (·.id)) : id = id' := by
  obtain ⟨rec, hrec, hid, -⟩ := (h.agree id sub).mp hmem
  obtain ⟨same, hsame, hid', -⟩ := (h.agree id' sub).mp hmem'
  rw [hrec] at hsame
  cases hsame
  exact hid.symm.trans hid'

/-- **Changes keep the agreement** where exactly the changed items leave the inboxes. -/
theorem change (hchgs : Changes ids view view')
    (hinbox : ∀ id, inbox' id = (inbox id).filter fun item => decide (item.id ∉ ids))
    (hlive : ∀ id run, (live' id).run = some run → ∀ sub ∈ run.inputs,
      (∃ old, (live id).run = some old ∧ sub ∈ old.inputs) ∨ ∃ rec, view' sub = some rec ∧ rec.status ≠ .queued)
    (hnext : nextId ≤ nextId') : Agreement view' inbox' live' nextId' where
  sorted id := by
    rw [hinbox]
    exact (h.sorted id).sublist (filter_sublist.map _)
  agree id sub := by
    have hmem : sub ∈ (inbox' id).map (·.id) ↔ sub ∈ (inbox id).map (·.id) ∧ sub ∉ ids := by
      rw [hinbox]
      constructor
      · intro hin
        obtain ⟨item, hitem, rfl⟩ := mem_map.mp hin
        obtain ⟨hitem', hnot⟩ := mem_filter.mp hitem
        exact ⟨mem_map_of_mem hitem', of_decide_eq_true hnot⟩
      · rintro ⟨hin, hnot⟩
        obtain ⟨item, hitem, rfl⟩ := mem_map.mp hin
        exact mem_map_of_mem (mem_filter.mpr ⟨hitem, decide_eq_true hnot⟩)
    rw [hmem, h.agree, hchgs.queued_iff sub fun rec => rec.conversationId = id]
  typed id item hitem rec hrec := by
    rw [hinbox] at hitem
    obtain ⟨old, hold, hsucc⟩ := hchgs.back hrec
    exact hsucc.type.trans (h.typed id item (mem_filter.mp hitem).1 old hold)
  inputs id run hrun sub hsubmission := by
    obtain ⟨old, hold, hwas⟩ | hnow := hlive id run hrun sub hsubmission
    · obtain ⟨rec, hrec, hunqueued⟩ := h.inputs id old hold sub hwas
      obtain ⟨new, hnew, hsucc⟩ := hchgs.succeeds sub rec hrec
      exact ⟨new, hnew, hsucc.unqueued hunqueued⟩
    · exact hnow
  named sub rec hrec := by
    obtain ⟨old, hold, hsucc⟩ := hchgs.back hrec
    obtain ⟨hid, hlt⟩ := h.named sub old hold
    exact ⟨hsucc.id.trans hid, Nat.lt_of_lt_of_le hlt hnext⟩
  unplaced sub rec hrec hqueu := by
    obtain ⟨old, hold, hsucc⟩ := hchgs.back hrec
    obtain rfl := hsucc.queued hqueu
    exact h.unplaced sub rec hold hqueu
  requests sub rec sub' rec' hrec hrec' hconv hreq hsome := by
    obtain ⟨old, hold, hsucc⟩ := hchgs.back hrec
    obtain ⟨old', hold', hsucc'⟩ := hchgs.back hrec'
    rw [hsucc.conversation, hsucc'.conversation] at hconv
    rw [hsucc.request, hsucc'.request] at hreq
    rw [hsucc.request] at hsome
    exact h.requests sub old sub' old' hold hold' hconv hreq hsome

end

/-- **A new submission keeps the agreement** where its item goes to the end of its inbox, if it is queued. -/
theorem create (h : Agreement view inbox live nextId) {rec : SubmissionRecord V} (hid : rec.id = nextId)
    (hview : ∀ id, view' id = if nextId = id then some rec else view id)
    (hask : ∀ sub old, view sub = some old → old.conversationId = rec.conversationId → old.requestId = rec.requestId →
      rec.requestId.isSome = true → False)
    (hent : rec.status = .queued → rec.entry = none)
    (hqueu : rec.status = .queued → ∃ item, inbox' rec.conversationId = inbox rec.conversationId ++ [item] ∧ item.id = nextId ∧
      item.type = rec.type)
    (hothers : ∀ id, (rec.status = .queued → id ≠ rec.conversationId) → inbox' id = inbox id) : Agreement view' inbox' live (nextId + 1) := by
  have hfresh {id : SubmissionId} {old : SubmissionRecord V} (hold : view id = some old) : nextId ≠ id := Nat.ne_of_gt (h.named id old hold).2
  have hnew {id : SubmissionId} {old : SubmissionRecord V} (hold : view id = some old) : view' id = some old := by
    rw [hview, if_neg (hfresh hold)]
    exact hold
  have hcases {id : SubmissionId} {found : SubmissionRecord V} (hfnd : view' id = some found) : id = nextId ∧ found = rec ∨ view id = some found := by
    rw [hview] at hfnd
    split at hfnd
    · rename_i heq
      exact .inl ⟨heq.symm, (some.inj hfnd).symm⟩
    · exact .inr hfnd
  have hbel {id : ConversationId} {sub : SubmissionId} (hin : sub ∈ (inbox id).map (·.id)) : sub < nextId := by
    obtain ⟨old, hold, -⟩ := (h.agree id sub).mp hin
    exact (h.named sub old hold).2
  have hself : view' nextId = some rec := by rw [hview, if_pos rfl]
  -- Either the inbox is as it was, or it is the one that has the new item at its end.
  have hinbox (id : ConversationId) : ((rec.status = .queued → id ≠ rec.conversationId) ∧ inbox' id = inbox id) ∨
      rec.status = .queued ∧ id = rec.conversationId ∧ ∃ item, inbox' id = inbox id ++ [item] ∧ item.id = nextId ∧ item.type = rec.type := by
    by_cases hstat : rec.status = .queued
    · by_cases heq : id = rec.conversationId
      · subst heq
        exact .inr ⟨hstat, rfl, hqueu hstat⟩
      · exact .inl ⟨fun _ => heq, hothers id fun _ => heq⟩
    · exact .inl ⟨fun hnow => absurd hnow hstat, hothers id fun hnow => absurd hnow hstat⟩
  refine ⟨fun id => ?_, fun id sub => ?_, fun id other hoth found hfnd => ?_, fun id run hrun sub hsubmission => ?_,
    fun sub found hfnd => ?_, fun sub found hfnd hstat => ?_, ?_⟩
  · obtain ⟨-, hsame⟩ | ⟨-, -, item, hpush, hitem, -⟩ := hinbox id
    · rw [hsame]
      exact h.sorted id
    · rw [hpush, map_append, pairwise_append]
      refine ⟨h.sorted id, pairwise_singleton .., fun sub hin last hlast => ?_⟩
      obtain rfl := mem_singleton.mp hlast
      show sub < item.id
      rw [hitem]
      exact hbel hin
  · obtain ⟨hnot, hsame⟩ | ⟨hstat, heq, item, hpush, hitem, -⟩ := hinbox id
    · rw [hsame, h.agree]
      constructor
      · rintro ⟨old, hold, hrest⟩
        exact ⟨old, hnew hold, hrest⟩
      · rintro ⟨found, hfnd, hconv, hnow⟩
        obtain ⟨-, rfl⟩ | hwas := hcases hfnd
        · exact absurd hconv.symm (hnot hnow)
        · exact ⟨found, hwas, hconv, hnow⟩
    · rw [hpush, map_append, mem_append, h.agree]
      constructor
      · rintro (⟨old, hold, hrest⟩ | hlast)
        · exact ⟨old, hnew hold, hrest⟩
        · obtain rfl := mem_singleton.mp hlast
          exact ⟨rec, (congrArg view' hitem).trans hself, heq.symm, hstat⟩
      · rintro ⟨found, hfnd, hrest⟩
        obtain ⟨rfl, -⟩ | hwas := hcases hfnd
        · exact .inr (mem_singleton.mpr hitem.symm)
        · exact .inl ⟨found, hwas, hrest⟩
  · have hold (hin : other ∈ inbox id) : found.type = other.type := by
      obtain ⟨heq, -⟩ | hwas := hcases hfnd
      · exact absurd (heq ▸ hbel (mem_map_of_mem hin)) (Nat.lt_irrefl _)
      · exact h.typed id other hin found hwas
    obtain ⟨-, hsame⟩ | ⟨-, -, item, hpush, hitem, htype⟩ := hinbox id
    · exact hold (hsame ▸ hoth)
    · rw [hpush] at hoth
      obtain hin | rfl := mem_snoc.mp hoth
      · exact hold hin
      · rw [hitem, hself] at hfnd
        exact some.inj hfnd ▸ htype.symm
  · obtain ⟨old, hold, hunqueued⟩ := h.inputs id run hrun sub hsubmission
    exact ⟨old, hnew hold, hunqueued⟩
  · obtain ⟨rfl, rfl⟩ | hwas := hcases hfnd
    · exact ⟨hid, Nat.lt_succ_self _⟩
    · obtain ⟨hname, hlt⟩ := h.named sub found hwas
      exact ⟨hname, Nat.lt_succ_of_lt hlt⟩
  · obtain ⟨-, rfl⟩ | hwas := hcases hfnd
    · exact hent hstat
    · exact h.unplaced sub found hwas hstat
  · intro sub found sub' found' hfnd hfnd' hconv hreq hsome
    obtain ⟨rfl, rfl⟩ | hwas := hcases hfnd
    · obtain ⟨rfl, -⟩ | hwas' := hcases hfnd'
      · rfl
      · exact (hask sub' found' hwas' hconv.symm hreq.symm hsome).elim
    · obtain ⟨rfl, rfl⟩ | hwas' := hcases hfnd'
      · exact (hask sub found hwas hconv hreq (hreq ▸ hsome)).elim
      · exact h.requests sub found sub' found' hwas hwas' hconv hreq hsome

end Agreement

namespace InboxTx

variable {base : Storage V O} {tx tx' tx'' : InboxTx V O} {ids ids' : List SubmissionId}

/-! ## Commits -/

/-- The submissions of a commit's batch. -/
def resolved (tx : InboxTx V O) : Except String (Assoc SubmissionId (SubmissionRecord V)) :=
  foldSubmissions tx.storage tx.submissionChanges tx.submissions

/-- Some submissions are not queued, as the commit leaves them. -/
def NotQueued (tx : InboxTx V O) (ids : List SubmissionId) : Prop :=
  ∀ resolved, tx.resolved = .ok resolved → ∀ id ∈ ids, ∃ record, viewOf tx.storage resolved id = some record ∧ record.status ≠ .queued

/-- A commit goes on, with changes of some submissions. -/
structure Stages (tx tx' : InboxTx V O) (ids : List SubmissionId) : Prop where
  storage : tx'.storage = tx.storage
  submissions : tx'.submissions = tx.submissions
  changes : ∃ changes, tx'.submissionChanges = tx.submissionChanges ++ changes ∧ changes.map Prod.fst = ids
  nextId : tx.nextId ≤ tx'.nextId

namespace Stages

theorem refl (tx : InboxTx V O) : Stages tx tx [] := ⟨rfl, rfl, ⟨[], (append_nil _).symm, rfl⟩, Nat.le_refl _⟩

theorem trans (h : Stages tx tx' ids) (h' : Stages tx' tx'' ids') : Stages tx tx'' (ids ++ ids') := by
  obtain ⟨changes, hchgs, hids⟩ := h.changes
  obtain ⟨later, hlat, hids'⟩ := h'.changes
  refine ⟨h'.storage.trans h.storage, h'.submissions.trans h.submissions, ⟨changes ++ later, ?_, ?_⟩, Nat.le_trans h.nextId h'.nextId⟩
  · rw [hlat, hchgs, append_assoc]
  · rw [map_append, hids, hids']

theorem change (tx : InboxTx V O) (id : SubmissionId) (change : SubmissionChange V) : Stages tx (tx.changeSubmission id change) [id] :=
  ⟨rfl, rfl, ⟨[(id, change)], rfl, rfl⟩, Nat.le_refl _⟩

/-- The later changes resolve on top of the earlier ones. -/
theorem resolves (h : Stages tx tx' ids) {later : Assoc SubmissionId (SubmissionRecord V)} (hlat : tx'.resolved = .ok later) :
    ∃ resolved, tx.resolved = .ok resolved ∧ Changes ids (viewOf tx.storage resolved) (viewOf tx.storage later) := by
  obtain ⟨changes, hchgs, rfl⟩ := h.changes
  unfold InboxTx.resolved at hlat
  rw [hchgs, h.storage, h.submissions, foldSubmissions_append] at hlat
  cases hreso : tx.resolved with
  | error e =>
    unfold InboxTx.resolved at hreso
    rw [hreso] at hlat
    cases hlat
  | ok resolved =>
    have hfst := hreso
    unfold InboxTx.resolved at hfst
    rw [hfst] at hlat
    exact ⟨resolved, rfl, changes_of_fold hlat⟩

/-- What is changed is not queued. -/
theorem notQueued (h : Stages tx tx' ids) : NotQueued tx' ids := by
  intro later hlat id hid
  obtain ⟨resolved, -, hchgs⟩ := h.resolves hlat
  rw [h.storage]
  exact hchgs.settled id hid

end Stages

/-- What is not queued is never queued again. -/
theorem NotQueued.stage {known : List SubmissionId} (h : NotQueued tx known) (hstgs : Stages tx tx' ids) : NotQueued tx' known := by
  intro later hlat id hid
  obtain ⟨resolved, hreso, hchgs⟩ := hstgs.resolves hlat
  obtain ⟨rec, hrec, hunqueued⟩ := h resolved hreso id hid
  obtain ⟨new, hnew, hsucc⟩ := hchgs.succeeds id rec hrec
  rw [hstgs.storage]
  exact ⟨new, hnew, hsucc.unqueued hunqueued⟩

theorem NotQueued.append {known known' : List SubmissionId} (h : NotQueued tx known) (h' : NotQueued tx known') : NotQueued tx (known ++ known') := by
  intro resolved hreso id hid
  obtain hfst | hlate := mem_append.mp hid
  · exact h resolved hreso id hfst
  · exact h' resolved hreso id hlate

/-- **A commit that settles leaves the inboxes and the submissions in agreement**; `base`: the Storage it reads. -/
structure Sound (base : Storage V O) (tx : InboxTx V O) : Prop where
  origin : tx.storage = base
  keys : (tx.submissions.map Prod.fst).Nodup
  fresh : ∀ id record, tx.storage.submission id = some record → viewOf tx.storage tx.submissions id = some record
  agreement : ∀ resolved, tx.resolved = .ok resolved → Agreement (viewOf tx.storage resolved) tx.inbox tx.live tx.nextId

theorem Sound.stage (h : Sound base tx) (hstgs : Stages tx tx' ids)
    (hinbox : ∀ view, Agreement view tx.inbox tx.live tx.nextId → ∀ id, tx'.inbox id = (tx.inbox id).filter fun item => decide (item.id ∉ ids))
    (hlive : ∀ id run, (tx'.live id).run = some run →
      (∃ old, (tx.live id).run = some old ∧ ∀ sub ∈ run.inputs, sub ∈ old.inputs) ∨ NotQueued tx' run.inputs) : Sound base tx' := by
  refine ⟨hstgs.storage.trans h.origin, hstgs.submissions ▸ h.keys, by rw [hstgs.storage, hstgs.submissions]; exact h.fresh, fun later hlat => ?_⟩
  obtain ⟨resolved, hreso, hchgs⟩ := hstgs.resolves hlat
  have hagree := h.agreement resolved hreso
  rw [hstgs.storage]
  refine hagree.change hchgs (hinbox _ hagree) (fun id run hrun sub hsubmission => ?_) hstgs.nextId
  obtain ⟨old, hold, hsub⟩ | hnow := hlive id run hrun
  · exact .inl ⟨old, hold, hsub sub hsubmission⟩
  · obtain hkn := hnow later hlat sub hsubmission
    rw [hstgs.storage] at hkn
    exact .inr hkn

/-- A commit goes on without leaving its documents. -/
structure Places (tx tx' : InboxTx V O) (ids : List SubmissionId) : Prop extends Stages tx tx' ids where
  inbox : tx'.inbox = tx.inbox
  live : tx'.live = tx.live

theorem Places.refl (tx : InboxTx V O) : Places tx tx [] := ⟨Stages.refl tx, rfl, rfl⟩

theorem Places.trans (h : Places tx tx' ids) (h' : Places tx' tx'' ids') : Places tx tx'' (ids ++ ids') :=
  ⟨h.toStages.trans h'.toStages, h'.inbox.trans h.inbox, h'.live.trans h.live⟩

theorem Places.change (tx : InboxTx V O) (id : SubmissionId) (change : SubmissionChange V) : Places tx (tx.changeSubmission id change) [id] :=
  ⟨Stages.change tx id change, rfl, rfl⟩

theorem Places.append (tx : InboxTx V O) (id : ConversationId) (draft : EntryDraft V) : Places tx (tx.appendEntry id draft).1 [] :=
  ⟨⟨rfl, rfl, ⟨[], (append_nil _).symm, rfl⟩, Nat.le_succ _⟩, rfl, rfl⟩

variable {items : List (InboxItem V)}

theorem filter_none (h : ∀ item ∈ items, item.id ∉ ids) : items.filter (fun item => decide (item.id ∉ ids)) = items :=
  filter_eq_self.mpr fun item hitem => decide_eq_true (h item hitem)

/-- A commit that changes only what is not queued, and leaves its documents. -/
theorem Sound.places (h : Sound base tx) (hplaces : Places tx tx' []) : Sound base tx' := by
  refine h.stage hplaces.toStages (fun view _ id => ?_) fun id run hrun => .inl ⟨run, ?_, fun _ hin => hin⟩
  · rw [hplaces.inbox]
    exact (filter_none fun _ _ => not_mem_nil).symm
  · rw [← hplaces.live]
    exact hrun

/-! ## Boundaries -/

theorem placeWrite_places (id : ConversationId) (tx : InboxTx V O) (head first : Option EntryId) {item : InboxItem V} (hitem : item.isWrite = true) :
    Places tx (placeWrite id (tx, head, first) item).1 [item.id] := by
  cases item with
  | user => cases hitem
  | write sub draft =>
    unfold placeWrite
    dsimp only
    split
    · exact Places.change ..
    · exact (Places.append tx id draft.toEntryDraft).trans (Places.change _ sub _)

theorem placeWrites_places (id : ConversationId) (hitems : ∀ item ∈ items, item.isWrite = true) (tx : InboxTx V O)
    (head first : Option EntryId) : Places tx (items.foldl (placeWrite id) (tx, head, first)).1 (items.map (·.id)) := by
  induction items generalizing tx head first with
  | nil => exact Places.refl tx
  | cons item items ih =>
    have hfst := placeWrite_places id tx head first (hitems item (.head _))
    exact hfst.trans (ih (fun other hoth => hitems other (.tail _ hoth)) _ _ _)

variable (input : V → Option (InputEntry V) → Nat → V)

theorem placeUser_places (id : ConversationId) (now : Nat) (tx : InboxTx V O) (first : Option EntryId) {item : InboxItem V} (hitem : item.isWrite = false) :
    Places tx (placeUser input id now (tx, first) item).1 [item.id] := by
  cases item with
  | write => cases hitem
  | user sub mode cont e => exact (Places.append tx id ⟨none, input cont e now⟩).trans (Places.change _ sub _)

theorem placeUsers_places (id : ConversationId) (now : Nat) (hitems : ∀ item ∈ items, item.isWrite = false)
    (tx : InboxTx V O) (first : Option EntryId) : Places tx (items.foldl (placeUser input id now) (tx, first)).1 (items.map (·.id)) := by
  induction items generalizing tx first with
  | nil => exact Places.refl tx
  | cons item items ih =>
    have hfst := placeUser_places input id now tx first (hitems item (.head _))
    exact hfst.trans (ih (fun other hoth => hitems other (.tail _ hoth)) _ _)

end InboxTx

end PiBridge.Durable
