import PiBridge.Core.ProjectionSpec

/-!
# `Core.Correctness.Faithful` — an emitted patch is the whole difference

Whatever an operation of the projection does to the document, the patch it returns does to a copy: a
mirror that replays the patches never falls behind. Events and `settle` change the document *by* applying
their patch. `refresh` does not — it spreads the entry map, installs and deletes in it, and rebuilds the
status — so for it the two ways have to be compared (`refresh_faithful`).

The comparison needs one invariant: the keys of the entry map are entry ids (`WellKeyed`), because a
wholesale rewrite removes entries by paths made from whatever keys are there.
-/

namespace PiBridge

open Js Js.Value Lib List

/-- Every key of the entry map is an entry id. -/
def WellKeyed (doc : Document) : Prop := ∀ k ∈ doc.entries.keys, EntryId.Valid k

theorem wellKeyed_emptyDocument : WellKeyed emptyDocument := by unfold WellKeyed; decide

theorem EntryId.Valid.plain {k : String} (h : EntryId.Valid k) : Plain k := ⟨h.2.1, h.2.2⟩

namespace Projection

/-- What `applyEvent` emits is of the same kinds: the leaf operation it adds replaces a status field. -/
theorem eventOp_of_mem_applyEvent {doc : Document} {ev : SessionLifecycleEvent} {leaf : Option String}
    {op : PatchOp} (h : op ∈ eventOps doc ev ++ leafOps doc leaf) : EventOp doc ev op := by
  rcases mem_append.mp h with h | h
  · exact eventOp_of_mem h
  · unfold leafOps at h
    split at h
    · simp at h
    · obtain rfl := mem_singleton.mp h
      exact .status (by decide)

/-! ## Properties that every operation keeps -/

/-- A property of entry maps that assignments to entry ids and deletions keep. -/
structure Stable (P : Obj → Prop) : Prop where
  set : ∀ {m : Obj} {id : String} (v : Value), EntryId.Valid id → P m → P (m.set id v)
  erase : ∀ {m : Obj} (id : String), P m → P (m.erase id)

theorem stable_valid : Stable fun m => ∀ k ∈ m.keys, EntryId.Valid k where
  set := by
    intro m id v hid h k hk
    rcases Props.mem_keys_set.mp hk with rfl | hk
    · exact hid
    · exact h k hk
  erase := fun id h k hk => h k (Props.mem_keys_erase.mp hk).2

theorem stable_nodup : Stable fun m => m.keys.Nodup where
  set := fun v _ h => Props.nodup_keys_set v h
  erase := fun id h => Props.nodup_keys_erase id h

namespace Stable

variable {P : Obj → Prop} {m : Obj}

theorem opIn (hP : Stable P) (id : EntryId) (rest : List String) (op : PatchOp) (h : P m) : P (PiBridge.opIn m id rest op) := by
  have hset : ∀ v, P (m.set id.val v) := fun v => hP.set v id.valid h
  cases op with
  | add _ _ | replace _ _ => exact hset _
  | move _ _ => exact h
  | append _ value _ => rw [PiBridge.opIn]; split <;> exact hset _
  | remove _ =>
    rw [PiBridge.opIn]
    cases rest with
    | nil => exact hP.erase id.val h
    | cons next tail =>
      rw [removeIn]
      split
      · exact hset _
      · exact h

theorem install (hP : Stable P) (ord : Nat) (es : List SessionEntry) (h : P m) : P (PiBridge.install m ord es) := by
  induction es generalizing m ord with
  | nil => exact h
  | cons e es ih => exact ih (ord + 1) (hP.set _ e.id.valid h)

theorem eraseAll (hP : Stable P) (ids : List String) (h : P m) : P (Projection.eraseAll m ids) := by
  induction ids generalizing m with
  | nil => exact h
  | cons id ids ih => exact ih (hP.erase id h)

theorem eventOps (hP : Stable P) {doc doc₀ : Document} {ev : SessionLifecycleEvent} {ops : Patch}
    (hops : ∀ op ∈ ops, EventOp doc₀ ev op) (h : P doc.entries) : P (applyPatch doc ops).entries := by
  refine applyPatch_induction (fun doc => P doc.entries) (fun op hop => ?_) h
  cases hops op hop with
  | status hkey => exact ⟨.status, _, _, addresses_statusPath (plain_of_mem_statusFields hkey) _, fun _ h => h⟩
  | @create id skeleton =>
    refine ⟨.entries, _, _, addresses_entryPath id _, fun d h => ?_⟩
    exact hP.opIn id [] (.add (entryPath id) skeleton) h
  | @field id name _ _ _ _ hname hpoints =>
    obtain ⟨rest, haddr⟩ := addresses_of_pointsAt (plain_of_mem_liveFields hname) hpoints
    exact ⟨.entries, _, _, haddr, fun d h => hP.opIn id (name :: rest) op h⟩

end Stable

variable {p p' : Projection}

theorem plain_removedIds (h : WellKeyed p.document) (snap : EntrySnapshot) : ∀ id ∈ p.removedIds snap, Plain id := by
  intro id hid
  unfold removedIds at hid
  split at hid
  · exact (stable_valid.install _ _ h id (mem_filter.mp hid).1).plain
  · simp at hid

theorem plain_settledIds (h : WellKeyed p.document) : ∀ id ∈ p.settledIds, Plain id := by
  intro id hid
  exact (h id (Props.has_iff_mem_keys.mp (mem_filter.mp hid).2)).plain

variable {l : Operation × Option Patch}

/-- **One step keeps what assignments and deletions keep.** -/
theorem Stable.step {P : Obj → Prop} (hP : Stable P) {p p' : Projection}
    (hkeys : WellKeyed p.document) (h : P p.document.entries) (hstep : ProjectionStep p l p') :
    P p'.document.entries := by
  have hrefresh : ∀ {snap out}, p.refresh snap = some (p', out) → P p'.document.entries := by
    intro snap out hr
    obtain ⟨p₁, leaf, s, -, -, rfl, -⟩ := refresh_spec hr
    exact hP.eraseAll _ (hP.install _ _ h)
  obtain ⟨op, out⟩ := l
  cases op with
  | applyEvent ev =>
    rcases applyEvent_spec hstep with ⟨rfl, -⟩ | ⟨rfl, -⟩ | ⟨p₁, leaf, -, -, -, rfl, -⟩
    · exact h
    · exact h
    · exact hP.eventOps (fun op hop => eventOp_of_mem_applyEvent hop) h
  | refresh snap => exact hrefresh hstep
  | refreshFrom read => exact hrefresh ((refreshFrom_eq p read).symm.trans hstep)
  | settle =>
    rcases settle_spec hstep with ⟨-, rfl, -⟩ | ⟨sts, ops, -, -, rfl, rfl, -⟩
    · exact h
    · rw [applyPatch_settleOps (plain_settledIds hkeys)]
      exact hP.eraseAll _ h

/-- **One step keeps the keys ids.** -/
theorem wellKeyed_step (h : WellKeyed p.document)
    (hstep : ProjectionStep p l p') : WellKeyed p'.document := stable_valid.step h h hstep

/-! ## Faithfulness -/

/-- **A refresh's patch is what it did.** -/
theorem refresh_faithful {snap : EntrySnapshot} {out : Option Patch}
    (hkeys : WellKeyed p.document) (h : p.refresh snap = some (p', out)) : p'.document = applyPatch p.document (out.getD []) := by
  obtain ⟨p₁, leaf, s, -, hstat, rfl, rfl⟩ := refresh_spec h
  obtain ⟨chgs, hplain, hst, hops⟩ := records_refreshStatus hstat
  have hremove := plain_removedIds hkeys snap
  have hscoped : ∀ op ∈ p.refreshOps snap, Scoped op := by
    intro op hop
    rcases mem_append.mp hop with hop | hop
    · exact scoped_installOps _ _ op hop
    · exact scoped_removeOps hremove op hop
  have hreplay : applyPatch p.document s.2 = ⟨s.1, p.refreshedEntries snap⟩ := by
    rw [hops, applyPatch_append hscoped, refreshOps, applyPatch_append (scoped_installOps _ _),
      applyPatch_installOps, applyPatch_removeOps hremove, applyPatch_fieldOps hplain, hst]
    rfl
  have hout : (if s.2 = [] then none else some s.2).getD [] = s.2 := by
    by_cases hnil : s.2 = []
    · rw [if_pos hnil, hnil]; rfl
    · rw [if_neg hnil]; rfl
  rw [hout, hreplay]

/-- **One step's patch is what it did**; no patch means no change. -/
theorem step_faithful (hkeys : WellKeyed p.document)
    (hstep : ProjectionStep p l p') : p'.document = applyPatch p.document (l.2.getD []) := by
  obtain ⟨op, out⟩ := l
  cases op with
  | applyEvent ev =>
    rcases applyEvent_spec hstep with ⟨rfl, rfl, -⟩ | ⟨rfl, rfl, -⟩ | ⟨p₁, leaf, -, -, -, rfl, rfl⟩ <;> rfl
  | refresh snap => exact refresh_faithful hkeys hstep
  | refreshFrom read => exact refresh_faithful hkeys ((refreshFrom_eq p read).symm.trans hstep)
  | settle => rcases settle_spec hstep with ⟨-, rfl, rfl⟩ | ⟨sts, ops, -, -, rfl, rfl, rfl⟩ <;> rfl

theorem wellKeyed_run {doc₀ : Document} (h0 : WellKeyed doc₀) {ls : List (Operation × Option Patch)}
    (hrun : Steps ProjectionStep (createEntryProjection doc₀) ls p) : WellKeyed p.document := by
  have hinv : (fun p : Projection => WellKeyed p.document) p := hrun.invariant (fun h hstep => wellKeyed_step h hstep) h0
  exact hinv

/-- A mirror takes in what an operation emitted. -/
def receive (mirror : Document) (l : Operation × Option Patch) : Document :=
  match l.2 with
  | none => mirror
  | some ops => applyPatch mirror ops

/-- **Patch faithfulness.** In every state a projection reaches, an operation that returns no patch leaves
    the document as it was, and the patch of one that does turns the old document into the new one. A
    mirror that starts equal and replays every patch is equal to the document after any run. -/
theorem patches_are_faithful {doc₀ : Document} (hids : ∀ k ∈ doc₀.entries.keys, EntryId.Valid k)
    {ls : List (Operation × Option Patch)} {p : Projection}
    (hrun : Steps ProjectionStep (createEntryProjection doc₀) ls p) :
    (∀ (op : Operation) (p' : Projection) (out : Option Patch), op.run p = some (p', out) →
      (out = none → p'.document = p.document) ∧
      (∀ ops, out = some ops → applyPatch p.document ops = p'.document)) ∧
    ls.foldl receive doc₀ = p.document := by
  constructor
  · intro op p' out hop
    have hstep : p'.document = applyPatch p.document (out.getD []) :=
      step_faithful (wellKeyed_run hids hrun) (show ProjectionStep p (op, out) p' from hop)
    constructor
    · rintro rfl
      exact hstep
    · rintro ops rfl
      exact hstep.symm
  · -- the mirror is carried along with the invariant its replay needs
    let R : Projection → Document → Prop := fun p mirror => WellKeyed p.document ∧ mirror = p.document
    have hkeep : ∀ {p l p' mirror}, R p mirror → ProjectionStep p l p' → R p' (receive mirror l) := by
      rintro p l p' mirror ⟨hkeys, rfl⟩ hstep
      refine ⟨wellKeyed_step hkeys hstep, ?_⟩
      rw [step_faithful hkeys hstep, receive]
      cases l.2 <;> rfl
    have hR : R p (ls.foldl receive doc₀) := hrun.fold_rel hkeep ⟨hids, rfl⟩
    exact hR.2

/-- The empty document once the agent has started. -/
def streamingDocument : Document := { emptyDocument with status := emptyDocument.status.set "isStreaming" (.bool true) }

/-- A mirror of an empty session follows the start of the agent. -/
theorem patches_are_faithful_agentStart :
    [(Operation.applyEvent .agentStart, some [PatchOp.replace (statusPath "isStreaming") (.bool true)])].foldl
        receive emptyDocument = streamingDocument := by
  have hstep : ProjectionStep (createEntryProjection emptyDocument)
      (.applyEvent .agentStart, some [.replace (statusPath "isStreaming") (.bool true)])
      (createEntryProjection streamingDocument) := by
    show Operation.run _ _ = _
    rfl
  exact (patches_are_faithful (by decide) (Steps.single hstep)).2

end Projection

end PiBridge
