import PiBridge.Core.Correctness.Faithful

/-!
# `Core.Correctness.NoGhost` — every entry is live or installed

Every entry of the document is either a live form the projection holds, or was installed by a refresh.
Anything else would be a *ghost*: it counts as sealed, so no later event can touch it, and it is not live,
so `settle` does not remove it.

The invariant is `NoGhost`. Refresh, settle, and the two events that start an item keep it always. The
events that stream content write below the entry they name and create it when it is not there, so they
keep it only when the document holds that entry: `writesEntry` says which events write at all, and
`Targeted` is the condition on a step. Without it a delayed delta leaves a ghost
(`late_delta_leaves_ghost`).
-/

namespace PiBridge

open Js Js.Value Lib Projection List Option

/-- A live form's value. -/
def IsLive (v : Value) : Prop := ∃ m : Obj, v = .obj m ∧ at_ m "isSealed" = .bool false

/-- Every entry is a live form of `live`, or was installed and is not in `live`. -/
def Classified (live : List String) (entries : Obj) : Prop :=
  ∀ id v, entries.get? id = some v → (id ∈ live ∧ IsLive v) ∨ (id ∉ live ∧ Installed id v)

namespace Projection

/-- No entry of the document is a ghost. -/
def NoGhost (p : Projection) : Prop := Classified p.live p.document.entries

end Projection

variable {v : Value} {id : EntryId} {live : List String} {doc : Document} {name : String} {event : SessionLifecycleEvent}

theorem isEntrySealed_of_installed {id : String} (h : Installed id v) : isEntrySealed v = true := by
  obtain ⟨e, ord, -, rfl⟩ := h
  exact isEntrySealed_projectEntry e ord

/-! ## What keeps entries classified -/

theorem classified_set {m : Obj} {id : String} (h : Classified live m)
    (hid : id ∈ live) (hv : IsLive v) : Classified live (m.set id v) := by
  intro k w hk
  rw [Props.get?_set] at hk
  split at hk
  · rename_i heq
    subst heq
    cases hk
    exact Or.inl ⟨hid, hv⟩
  · exact h k w hk

theorem LiveSkeleton.isLive {id : String} (h : LiveSkeleton doc id v) : IsLive v := by
  obtain ⟨m, rfl⟩ := h.isObj
  exact ⟨m, rfl, h.isSealed⟩

theorem mem_addLive {mk : Option EntryId} {k : String} :
    k ∈ addLive live mk ↔ k ∈ live ∨ ∃ id, mk = some id ∧ id.val = k := by
  cases mk with
  | none => simp [addLive]
  | some id =>
    by_cases hid : id.val ∈ live
    · simp only [addLive, if_pos hid, some.injEq, exists_eq_left']
      exact ⟨Or.inl, fun h => h.elim (fun hk => hk) (fun hk => hk ▸ hid)⟩
    · simp [addLive, if_neg hid, eq_comm]

/-- A new live form under an id that holds nothing sealed. -/
theorem classified_addLive {m : Obj} (h : Classified live m) (hunsl : ∀ v, m.get? id = some v → isEntrySealed v = false) :
    Classified (addLive live (some id)) m := by
  intro k v hk
  rcases h k v hk with ⟨hlive, hv⟩ | ⟨hnot, hinst⟩
  · exact Or.inl ⟨mem_addLive.2 (Or.inl hlive), hv⟩
  · refine Or.inr ⟨fun hmem => ?_, hinst⟩
    rcases mem_addLive.1 hmem with hlive | ⟨id', hid', rfl⟩
    · exact hnot hlive
    · cases hid'
      have := hunsl v hk
      rw [isEntrySealed_of_installed hinst] at this
      exact Bool.noConfusion this

/-- Changing something below a field that is not `isSealed` keeps a live form live. -/
theorem isLive_opIn {em : Obj} {rest : List String} {op : PatchOp}
    (hname : name ≠ "isSealed") (h : at_ em "isSealed" = .bool false) : IsLive (.obj (opIn em name rest op)) := by
  refine ⟨_, rfl, ?_⟩
  rw [at_, get?_opIn_ne em rest op hname]
  exact h

theorem ne_isSealed_of_mem_liveFields (h : name ∈ liveFields) : name ≠ "isSealed" := by
  revert name; decide

/-! ## Events -/

namespace SessionLifecycleEvent

/-- The event writes below the entry it names. -/
def writesEntry : SessionLifecycleEvent → Bool
  | messageUpdate (some _) ame =>
    match ame with
    | .toolcallDelta i partialMessage =>
      let block := partialBlock partialMessage i
      -- on an entry that is not there, the new arguments are compared with `{}`
      isToolCall block && (get block "arguments").asObj ≠ []
    | .other => false
    | _ => true
  | messageEnd (some _) msg => get msg "role" = .str "assistant"
  | toolExecutionUpdate (some _) none partialResult =>
    get partialResult "content" ≠ .undefined || get partialResult "details" ≠ .undefined
  | toolExecutionEnd (some _) none _ _ _ => true
  | _ => false

end SessionLifecycleEvent

/-- An event that does not write below its entry does nothing when the entry is not there. -/
theorem eventOps_of_missing (hid : event.entryId = some id) (hsta : event.isStart = false) (hwrites : event.writesEntry = false)
    (hmiss : doc.entry? id = none) : eventOps doc event = [] := by
  cases event with
  | messageStart | toolExecutionStart => simp [SessionLifecycleEvent.isStart] at hsta
  | messageUpdate id? ame =>
    obtain rfl : id? = some id := hid
    cases ame with
    | toolcallDelta i partialMessage =>
      simp only [SessionLifecycleEvent.writesEntry, Bool.and_eq_false_iff, decide_eq_false_iff_not, not_not] at hwrites
      simp only [eventOps, messageUpdateOps]
      split
      · rename_i htool
        have hargs : (get (partialBlock partialMessage i) "arguments").asObj = [] := by
          rcases hwrites with h | h
          · rw [htool] at h; exact absurd h (by decide)
          · exact h
        -- nothing is read at the path of a missing entry, so `{}` is compared with `{}`
        have hcur : getAtPath doc.toValue (sub (blockPath id i) "arguments") = .undefined := by
          have hat : at_ doc.entries id.val = .undefined := by
            rw [at_, show doc.entries.get? id.val = none from hmiss]; rfl
          rw [getAtPath, parsePath_blockField id i (by decide)]
          refine (getAt_toValue doc .entries id.val _).trans ?_
          rw [show Part.entries.of doc = doc.entries from rfl, hat]; rfl
        rw [hcur, hargs]; rfl
      · rfl
    | other => rfl
    | _ => simp [SessionLifecycleEvent.writesEntry] at hwrites
  | messageEnd id? msg =>
    obtain rfl : id? = some id := hid
    simp only [SessionLifecycleEvent.writesEntry, decide_eq_false_iff_not] at hwrites
    rw [eventOps, messageEndOps, if_neg hwrites, hmiss]; rfl
  | toolExecutionUpdate id? parent? partialResult =>
    obtain rfl : id? = some id := hid
    cases parent? with
    | some _ => rfl
    | none =>
      simp only [SessionLifecycleEvent.writesEntry, Bool.or_eq_false_iff, decide_eq_false_iff_not, not_not] at hwrites
      simp [eventOps, toolExecutionUpdateOps, hwrites.1, hwrites.2, replaceIf]
  | toolExecutionEnd id? parent? result isError durationMs =>
    obtain rfl : id? = some id := hid
    cases parent? with
    | some _ => rfl
    | none => simp [SessionLifecycleEvent.writesEntry] at hwrites
  | _ => simp [SessionLifecycleEvent.entryId] at hid

/-- The path of an entry is not the path of a field of an entry. -/
theorem entryPath_ne_of_pointsAt {id' : EntryId} {op : PatchOp} (hname : Plain name)
    (h : PointsAt (fieldPath id' name) op) : op.path ≠ entryPath id := by
  intro heq
  obtain ⟨rest, haddr, -⟩ := addresses_of_pointsAt hname h
  rw [heq, parsePath_entryPath id.plain] at haddr
  simp at haddr

theorem isContent_of_entryId (h : event.entryId = some id) : event.isContent = true := by
  cases event with
  | messageStart | messageUpdate | messageEnd | toolExecutionStart | toolExecutionUpdate
  | toolExecutionEnd => rfl
  | _ => simp [SessionLifecycleEvent.entryId] at h

/-- A start event that does anything makes a live form. -/
theorem creates_of_isStart (hsta : event.isStart = true)
    (hne : eventOps doc event ≠ []) : creates event (eventOps doc event) = event.entryId := by
  cases event with
  | messageStart id? msg =>
    cases id? with
    | none => exact absurd rfl hne
    | some id =>
      simp only [eventOps, messageStartOps] at hne ⊢
      by_cases huser : get msg "role" = .str "user"
      · simp [huser, creates, SessionLifecycleEvent.entryId]
      · by_cases hasst : get msg "role" = .str "assistant"
        · simp [hasst, creates, SessionLifecycleEvent.entryId]
        · simp [huser, hasst] at hne
  | toolExecutionStart id? parent? toolCallId toolName =>
    cases id? with
    | none => exact absurd rfl hne
    | some id => cases parent? with
      | some _ => exact absurd rfl hne
      | none => simp [eventOps, creates, SessionLifecycleEvent.entryId]
  | _ => simp [SessionLifecycleEvent.isStart] at hsta

/-- What makes a live form is a start event. -/
theorem isStart_of_creates (h : Projection.creates event (eventOps doc event) = some id) :
    event.isStart = true ∧ event.entryId = some id := by
  obtain ⟨hid, hany⟩ := filter_eq_some_iff.mp h
  refine ⟨?_, hid⟩
  obtain ⟨op, hop, hpath⟩ := any_eq_true.mp hany
  cases op with
  | add path val =>
    have hpath : path = entryPath id := by simpa using hpath
    cases eventOp_of_mem hop with
    | create _ hsta _ => exact hsta
    | field _ _ _ hname hpoints =>
      exact absurd hpath (entryPath_ne_of_pointsAt (plain_of_mem_liveFields hname) hpoints)
  | _ => simp at hpath

namespace Projection

/-- **The condition on a step**: an event that writes below an entry names one the document holds. -/
def Targeted (p : Projection) : Operation → Prop
  | .applyEvent event =>
    event.writesEntry = true → ∀ id, event.entryId = some id → (p.document.entry? id).isSome
  | _ => True

/-- What the event's target holds while its operations are applied. -/
def TargetLive (live : List String) (event : SessionLifecycleEvent) (entries : Obj) : Prop :=
  event.isStart = false → ∀ id, event.entryId = some id → id.val ∈ live ∧ ∃ v, entries.get? id = some v ∧ IsLive v

/-- One operation of an event keeps entries classified. -/
theorem classified_eventOp {doc₀ : Document} {event : SessionLifecycleEvent} {op : PatchOp}
    {live : List String} (hop : EventOp doc₀ event op)
    (hmade : event.isStart = true → ∀ id, event.entryId = some id → id.val ∈ live) :
    ∃ part key rest, Addresses op part key rest ∧ ∀ doc,
      (Classified live doc.entries ∧ TargetLive live event doc.entries) →
      (Classified live (part.put doc (opIn (part.of doc) key rest op)).entries ∧
        TargetLive live event (part.put doc (opIn (part.of doc) key rest op)).entries) := by
  cases hop with
  | status hkey =>
    exact ⟨.status, _, _, addresses_statusPath (plain_of_mem_statusFields hkey) _, fun _ h => h⟩
  | @create id skeleton hid hsta hskeleton =>
    refine ⟨.entries, _, _, addresses_entryPath id _, fun doc h => ⟨?_, fun hnot => ?_⟩⟩
    · exact classified_set h.1 (hmade hsta id hid) hskeleton.isLive
    · rw [hsta] at hnot; exact Bool.noConfusion hnot
  | @field id name _ hid _ hsta hname hpoints =>
    obtain ⟨rest, haddr⟩ := addresses_of_pointsAt (plain_of_mem_liveFields hname) hpoints
    refine ⟨.entries, _, _, haddr, fun doc h => ?_⟩
    obtain ⟨hlive, v, hv, em, rfl, hseal⟩ := h.2 hsta id hid
    -- the target is a live object: the operation changes it below `name` and nowhere else
    have hset : opIn doc.entries id.val (name :: rest) op
        = doc.entries.set id.val (.obj (opIn em name rest op)) := opIn_below hv name rest op hpoints.2
    have hstill : IsLive (.obj (opIn em name rest op)) := isLive_opIn (ne_isSealed_of_mem_liveFields hname) hseal
    show Classified live (opIn doc.entries id.val (name :: rest) op) ∧ TargetLive live event (opIn doc.entries id.val (name :: rest) op)
    rw [hset]
    refine ⟨classified_set h.1 hlive hstill, fun _ id' hid' => ?_⟩
    obtain rfl : id = id' := some.inj (hid.symm.trans hid')
    exact ⟨hlive, _, Props.get?_set_self _ _ _, hstill⟩

variable {p p' : Projection} {out : Option Patch}

/-- **Events make no ghosts**, if they write only below entries that are there. -/
theorem noGhost_applyEvent {event : SessionLifecycleEvent}
    (h : NoGhost p) (htgt : Targeted p (.applyEvent event)) (hstep : p.applyEvent event = some (p', out)) : NoGhost p' := by
  rcases applyEvent_spec hstep with ⟨rfl, -⟩ | ⟨rfl, -⟩ | ⟨p₁, leaf, hseal, hne, hleaf, rfl, -⟩
  · exact h
  · exact h
  · have hlive : p₁.live = addLive p.live (creates event (eventOps p.document event)) := by
      rw [effectiveLeaf_same hleaf]
    show Classified p₁.live (applyPatch p.document _).entries
    rw [hlive]
    -- what the target holds is not sealed
    have hunsl : event.isContent = true → ∀ id, event.entryId = some id →
        ∀ v, p.document.entries.get? id = some v → isEntrySealed v = false := by
      intro hcont id hid v hv
      rw [hcont, Bool.true_and, targetsSealed, hid] at hseal
      simpa only [Document.entry?, hv] using hseal
    have hclass : Classified (addLive p.live (creates event (eventOps p.document event)))
        p.document.entries := by
      cases hcreate : creates event (eventOps p.document event) with
      | none => exact h
      | some id =>
        obtain ⟨hsta, hid⟩ := isStart_of_creates hcreate
        exact classified_addLive h (hunsl (isContent_of_entryId hid) id hid)
    have hmade : event.isStart = true → ∀ id, event.entryId = some id →
        id.val ∈ addLive p.live (creates event (eventOps p.document event)) := by
      intro hsta id hid
      rw [creates_of_isStart hsta hne, hid]
      exact mem_addLive.2 (Or.inr ⟨id, rfl, rfl⟩)
    have htargetLive : TargetLive (addLive p.live (creates event (eventOps p.document event))) event
        p.document.entries := by
      intro hsta id hid
      cases hv : p.document.entries.get? id with
      | none =>
        have hwrites : event.writesEntry = false := by
          by_contra hw
          have := htgt (by simpa using hw) id hid
          rw [Document.entry?, hv] at this
          exact Bool.noConfusion this
        exact absurd (eventOps_of_missing hid hsta hwrites hv) hne
      | some v =>
        rcases hclass id v hv with ⟨hlive, hisLive⟩ | ⟨-, hinst⟩
        · exact ⟨hlive, v, rfl, hisLive⟩
        · have := hunsl (isContent_of_entryId hid) id hid v hv
          rw [isEntrySealed_of_installed hinst] at this
          exact Bool.noConfusion this
    exact (applyPatch_induction (fun doc => Classified _ doc.entries ∧ TargetLive _ event doc.entries)
      (fun op hop => classified_eventOp (eventOp_of_mem_applyEvent hop) hmade) ⟨hclass, htargetLive⟩).1

/-! ## Refresh and settle -/

/-- **A refresh makes no ghosts**: what it installs is installed and no longer live. -/
theorem noGhost_refresh {snap : EntrySnapshot} (h : NoGhost p) (hstep : p.refresh snap = some (p', out)) : NoGhost p' := by
  obtain ⟨p₁, leaf, s, hleaf, -, rfl, -⟩ := refresh_spec hstep
  have hlive : p₁.live = p.refreshedLive snap := by rw [effectiveLeaf_same hleaf]; rfl
  show Classified p₁.live (p.refreshedEntries snap)
  rw [hlive]
  intro id v hv
  rw [refreshedEntries, get?_eraseAll] at hv
  split at hv
  · simp at hv
  · rw [installedEntries, get?_install] at hv
    have hmem : id ∈ p.refreshedLive snap ↔ id ∈ p.live ∧ id ∉ snapshotIds snap := by
      simp [refreshedLive]
    rw [hmem]
    rcases or_eq_some_iff.mp hv with hinst | ⟨hnone, hold⟩
    · -- installed by this refresh
      refine Or.inr ⟨fun hid => hid.2 ?_, installed_of_installed? hinst⟩
      exact (installed?_isSome_iff _ snap id).mp (isSome_of_eq_some hinst)
    · rcases h id v hold with ⟨hid, hv⟩ | ⟨hid, hinst⟩
      · refine Or.inl ⟨⟨hid, fun hmem => ?_⟩, hv⟩
        have := (installed?_isSome_iff (p.baseOf snap) snap id).mpr hmem
        rw [hnone] at this
        exact Bool.noConfusion this
      · exact Or.inr ⟨fun hmem => hid hmem.1, hinst⟩

/-- **After `settle` the map holds installed entries only.** -/
theorem installed_of_settle (hkeys : WellKeyed p.document) (h : NoGhost p) (hstep : p.settle = some (p', out)) :
    p'.live = [] ∧ ∀ id v, p'.document.entries.get? id = some v → Installed id v := by
  have hsett : ∀ id v, id ∈ p.live → p.document.entries.get? id = some v → id ∈ p.settledIds := by
    intro id v hid hv
    refine mem_filter.mpr ⟨hid, ?_⟩
    rw [← Props.get?_isSome, hv]; rfl
  rcases settle_spec hstep with ⟨hnil, rfl, -⟩ | ⟨sts, ops, -, -, rfl, rfl, -⟩
  · refine ⟨rfl, fun id v hv => ?_⟩
    rcases h id v hv with ⟨hid, -⟩ | ⟨-, hinst⟩
    · have := hsett id v hid hv
      rw [hnil] at this
      simp at this
    · exact hinst
  · refine ⟨rfl, fun id v hv => ?_⟩
    rw [applyPatch_settleOps (plain_settledIds hkeys)] at hv
    rw [get?_eraseAll] at hv
    split at hv
    · simp at hv
    · rename_i hnot
      rcases h id v hv with ⟨hid, -⟩ | ⟨-, hinst⟩
      · exact absurd (hsett id v hid hv) hnot
      · exact hinst

/-! ## Runs -/

/-- A step that satisfies the condition. -/
def TargetedStep (p : Projection) (l : Operation × Option Patch) (p' : Projection) : Prop := Targeted p l.1 ∧ ProjectionStep p l p'

/-- **One step that satisfies the condition makes no ghosts.** -/
theorem noGhost_step {l : Operation × Option Patch} (h : WellKeyed p.document ∧ NoGhost p) (hstep : TargetedStep p l p') :
    WellKeyed p'.document ∧ NoGhost p' := by
  obtain ⟨htgt, hstep⟩ := hstep
  refine ⟨wellKeyed_step h.1 hstep, ?_⟩
  obtain ⟨op, out⟩ := l
  cases op with
  | applyEvent event => exact noGhost_applyEvent h.2 htgt hstep
  | refresh snap => exact noGhost_refresh h.2 hstep
  | refreshFrom read => exact noGhost_refresh h.2 ((refreshFrom_eq p read).symm.trans hstep)
  | settle =>
    obtain ⟨hlive, hinst⟩ := installed_of_settle h.1 h.2 hstep
    exact fun id v hv => Or.inr ⟨by simp [hlive], hinst id v hv⟩

/-- A start event of the run named `id`. -/
def StartedIn (ls : List (Operation × Option Patch)) (id : String) : Prop :=
  ∃ event out, (Operation.applyEvent event, out) ∈ ls ∧ event.isStart = true ∧ ∃ entryId, event.entryId = some entryId ∧ entryId.val = id

/-- A step makes a form live only by a start event that names it. -/
theorem live_step {l : Operation × Option Patch} (hstep : ProjectionStep p l p') : ∀ id ∈ p'.live, id ∈ p.live ∨ StartedIn [l] id := by
  have hrefresh : ∀ {snap out}, p.refresh snap = some (p', out) → ∀ id ∈ p'.live, id ∈ p.live := by
    intro snap out hr id hid
    obtain ⟨p₁, leaf, s, hleaf, -, rfl, -⟩ := refresh_spec hr
    have hlive : p₁.live = p.refreshedLive snap := by rw [effectiveLeaf_same hleaf]; rfl
    rw [hlive] at hid
    exact (mem_filter.mp hid).1
  obtain ⟨op, out⟩ := l
  intro id hid
  cases op with
  | applyEvent event =>
    rcases applyEvent_spec hstep with ⟨rfl, -⟩ | ⟨rfl, -⟩ | ⟨p₁, leaf, -, -, hleaf, rfl, -⟩
    · exact Or.inl hid
    · exact Or.inl hid
    · have hlive : p₁.live = addLive p.live (creates event (eventOps p.document event)) := by
        rw [effectiveLeaf_same hleaf]
      rw [hlive] at hid
      rcases mem_addLive.1 hid with hid | ⟨eid, hcreate, rfl⟩
      · exact Or.inl hid
      · obtain ⟨hsta, hent⟩ := isStart_of_creates hcreate
        exact Or.inr ⟨event, out, by simp, hsta, eid, hent, rfl⟩
  | refresh snap => exact Or.inl (hrefresh hstep id hid)
  | refreshFrom read => exact Or.inl (hrefresh ((refreshFrom_eq p read).symm.trans hstep) id hid)
  | settle =>
    have hlive : p'.live = [] := by
      rcases settle_spec hstep with ⟨-, rfl, -⟩ | ⟨sts, ops, -, -, -, rfl, -⟩ <;> rfl
    rw [hlive] at hid
    simp at hid

theorem startedIn_of_live {p₀ : Projection} {ls : List (Operation × Option Patch)} (h0 : p₀.live = [])
    (hrun : Steps TargetedStep p₀ ls p) : ∀ id ∈ p.live, StartedIn ls id := by
  induction hrun with
  | refl => simp [h0]
  | @tail ls t u l _ hstep ih =>
    intro id hid
    rcases live_step hstep.2 id hid with hid | ⟨event, out, hmem, hrest⟩
    · obtain ⟨event, out, hmem, hrest⟩ := ih id hid
      exact ⟨event, out, by simp [hmem], hrest⟩
    · obtain rfl := mem_singleton.mp hmem
      exact ⟨event, out, by simp, hrest⟩

/-- **No ghosts.** In every run whose events write only below entries the document holds, every entry is a
    live form that a start event created, or was installed: sealed, with a file position, and its id the
    key it is stored under. Once settled, the map holds installed entries only. -/
theorem entries_live_or_installed {ls : List (Operation × Option Patch)} {p : Projection}
    (hrun : Steps TargetedStep (createEntryProjection emptyDocument) ls p) :
    (∀ id v, p.document.entry? id = some v →
      (id ∈ p.live ∧ get v "isSealed" = .bool false ∧ StartedIn ls id) ∨
      (Installed id v ∧ get v "isSealed" = .bool true ∧ (∃ n : Nat, get v "ord" = .num n) ∧ get v "id" = .str id)) ∧
    (∀ p' out, p.settle = some (p', out) → ∀ id v, p'.document.entry? id = some v → Installed id v) := by
  have hinv : (fun p : Projection => WellKeyed p.document ∧ NoGhost p) p :=
    hrun.invariant (fun h hstep => noGhost_step h hstep)
      ⟨wellKeyed_emptyDocument, fun id v hv => by simp [createEntryProjection, emptyDocument] at hv⟩
  obtain ⟨hkeys, hghost⟩ := hinv
  constructor
  · intro id v hv
    rcases hghost id v hv with ⟨hid, m, rfl, hm⟩ | ⟨-, hinst⟩
    · exact Or.inl ⟨hid, hm, startedIn_of_live rfl hrun id hid⟩
    · exact Or.inr ⟨hinst, installed_facts hinst⟩
  · intro p' out hsettle
    exact (installed_of_settle hkeys hghost hsettle).2

/-- An id as pi reserves one. -/
def exampleId : EntryId := ⟨"4f1c09ab", by decide, by decide, by decide⟩

/-- The first message of a session starts: its live form is the one entry there is. -/
theorem entries_live_or_installed_first_message : ∃ p : Projection, p.live = ["4f1c09ab"] ∧ ∀ id v, p.document.entry? id = some v →
      id ∈ p.live ∧ get v "isSealed" = .bool false ∨ Installed id v := by
  have hcompute : ((Operation.applyEvent (.messageStart (some exampleId)
      (.obj [("role", .str "assistant")]))).run (createEntryProjection emptyDocument)).map
        (fun r => r.1.live) = some ["4f1c09ab"] := by decide
  obtain ⟨⟨p, out⟩, hrun, hlive⟩ := map_eq_some_iff.mp hcompute
  refine ⟨p, hlive, fun id v hv => ?_⟩
  have hstep : TargetedStep (createEntryProjection emptyDocument)
      (.applyEvent (.messageStart (some exampleId) (.obj [("role", .str "assistant")])), out) p :=
    ⟨fun hwrites => absurd hwrites (by decide), hrun⟩
  rcases (entries_live_or_installed (Steps.single hstep)).1 id v hv with ⟨hid, hlive, -⟩ | ⟨hinst, -⟩
  · exact Or.inl ⟨hid, hlive⟩
  · exact Or.inr hinst

/-- An assistant message starts, is settled away, and one more delta of it arrives. -/
def lateDelta : List Operation := [.applyEvent (.messageStart (some exampleId) (.obj [("role", .str "assistant")])), .settle,
    .applyEvent (.messageUpdate (some exampleId) (.textDelta 0 "late"))]

/-- **A delayed delta leaves a ghost**: an entry that is neither live nor installed. -/
theorem late_delta_leaves_ghost : ¬ ∀ ls p, Steps ProjectionStep (createEntryProjection emptyDocument) ls p →
      ∀ id v, p.document.entry? id = some v →
        (id ∈ p.live ∧ get v "isSealed" = .bool false) ∨ (Installed id v ∧ get v "isSealed" = .bool true) := by
  intro hclaim
  have hcompute : (runAll (createEntryProjection emptyDocument) lateDelta).map
      (fun p => (p.live, p.document.entries))
        = some ([], [("4f1c09ab", .obj [("content", .arr [.obj [("text", .str "late")]])])]) := by
    decide +kernel
  obtain ⟨p, hp, hend⟩ := map_eq_some_iff.mp hcompute
  obtain ⟨hlive, hentries⟩ := Prod.mk.inj hend
  obtain ⟨ls, hrun⟩ := steps_of_runAll hp
  have hv : p.document.entry? "4f1c09ab"
      = some (.obj [("content", .arr [.obj [("text", .str "late")]])]) := by
    rw [Document.entry?, hentries]; rfl
  rcases hclaim ls p hrun _ _ hv with ⟨hid, -⟩ | ⟨-, hsealed⟩
  · rw [hlive] at hid
    simp at hid
  · revert hsealed; decide

end Projection

end PiBridge
