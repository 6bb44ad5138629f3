import PiBridge.Core.Projection

/-!
# `Core.ProjectionSpec` — what each operation of the projection does

One lemma per operation, saying everything a later proof uses: `refresh_spec`, `applyEvent_spec`,
`settle_spec`. `refresh` builds the next document directly, by spreading and deleting, while a client
replays the emitted operations; `applyPatch_refreshOps` is where the two are shown to agree.

`Records s s'` is the small relation that makes this go through: going from `s` to `s'` changed the status
exactly as the operations it recorded do.
-/

namespace PiBridge

open Js Js.Value Lib List
open Option (map_eq_some_iff bind_eq_some_iff)

namespace Projection

/-! ## Recorded status changes -/

/-- Replace status fields, in order. -/
def setFields (status : Obj) (changes : List (String × Value)) : Obj := changes.foldl (fun m c => m.set c.1 c.2) status

/-- The operations that do. -/
def fieldOps (changes : List (String × Value)) : Patch := changes.map fun c => .replace (statusPath c.1) c.2

/-- `s'` comes from `s` by status changes that were all recorded. -/
def Records (s s' : Obj × Patch) : Prop := ∃ changes : List (String × Value), (∀ c ∈ changes, Plain c.1) ∧
    s'.1 = setFields s.1 changes ∧ s'.2 = s.2 ++ fieldOps changes

theorem Records.refl (s : Obj × Patch) : Records s s := ⟨[], by simp, rfl, by simp [fieldOps]⟩

variable {s : Obj × Patch} {key : String} {doc : Document} {after : Obj} {leaf : Option String} {ops : Patch}
  {snapshot : EntrySnapshot} {ids : List String} {p p' : Projection} {out : Option Patch} {event : SessionLifecycleEvent}

theorem Records.trans {t u : Obj × Patch} (h : Records s t) (h' : Records t u) : Records s u := by
  obtain ⟨cs, hcs, hst, hops⟩ := h
  obtain ⟨ds, hds, hst', hops'⟩ := h'
  refine ⟨cs ++ ds, fun c hc => (mem_append.mp hc).elim (hcs c) (hds c), ?_, ?_⟩
  · rw [hst', hst, setFields, setFields, setFields, foldl_append]
  · rw [hops', hops, fieldOps, fieldOps, fieldOps, map_append, append_assoc]

theorem records_setStatus (s : Obj × Patch) (hkey : Plain key) (v : Value) : Records s (setStatus s key v) :=
  ⟨[(key, v)], by simpa using hkey, rfl, rfl⟩

theorem records_statsStep {s' : Obj × Patch} (h : statsStep doc after leaf s = some s') : Records s s' := by
  unfold statsStep at h
  split at h
  · obtain ⟨sts, -, rfl⟩ := map_eq_some_iff.mp h
    split
    · exact records_setStatus s (by decide) sts
    · exact Records.refl s
  · exact Option.some.inj h ▸ Records.refl s

theorem records_nameStep (snapshot : EntrySnapshot) (after : Obj) (s : Obj × Patch) : Records s (nameStep snapshot after s) := by
  unfold nameStep
  split
  · dsimp only
    split
    · exact records_setStatus s (by decide) _
    · exact Records.refl s
  · exact Records.refl s

theorem records_leafStep (doc : Document) (leaf : Option String) (s : Obj × Patch) : Records s (leafStep doc leaf s) := by
  unfold leafStep
  split
  · exact records_setStatus s (by decide) _
  · exact Records.refl s

theorem records_refreshStatus (h : refreshStatus doc ops snapshot after leaf = some s) : Records (doc.status, ops) s := by
  obtain ⟨s₁, hs₁, rfl⟩ := map_eq_some_iff.mp h
  exact ((records_statsStep hs₁).trans (records_nameStep snapshot after s₁)).trans
    (records_leafStep doc leaf _)

theorem applyPatch_fieldOps {chgs : List (String × Value)} (h : ∀ c ∈ chgs, Plain c.1)
    (doc : Document) : applyPatch doc (fieldOps chgs) = { doc with status := setFields doc.status chgs } := by
  induction chgs generalizing doc with
  | nil => rfl
  | cons c cs ih =>
    rw [fieldOps, map_cons, applyPatch_cons (addresses_statusPath (h c (by simp)) c.2)]
    exact ih (fun d hd => h d (by simp [hd])) _

/-! ## Installing and removing by operations -/

theorem scoped_installOps (ord : Nat) (es : List SessionEntry) : ∀ op ∈ installOps ord es, Scoped op := by
  induction es generalizing ord with
  | nil => simp [installOps]
  | cons e es ih =>
    intro op hop
    rcases mem_cons.mp hop with rfl | hop
    · exact ⟨_, _, _, addresses_entryPath e.id _⟩
    · exact ih _ op hop

theorem applyPatch_installOps (doc : Document) (ord : Nat) (es : List SessionEntry) :
    applyPatch doc (installOps ord es) = { doc with entries := install doc.entries ord es } := by
  induction es generalizing doc ord with
  | nil => rfl
  | cons e es ih =>
    rw [installOps, applyPatch_cons (addresses_entryPath e.id _), ih]; rfl

theorem addresses_remove {id : String} (h : Plain id) : Addresses (.remove (entryPath id)) .entries id [] :=
  ⟨parsePath_entryPath h, by simp⟩

theorem scoped_removeOps (h : ∀ id ∈ ids, Plain id) : ∀ op ∈ removeOps ids, Scoped op := by
  intro op hop
  obtain ⟨id, hid, rfl⟩ := mem_map.mp hop
  exact ⟨_, _, _, addresses_remove (h id hid)⟩

theorem applyPatch_removeOps (h : ∀ id ∈ ids, Plain id) (doc : Document) :
    applyPatch doc (removeOps ids) = { doc with entries := eraseAll doc.entries ids } := by
  induction ids generalizing doc with
  | nil => rfl
  | cons id ids ih =>
    rw [removeOps, map_cons, applyPatch_cons (addresses_remove (h id (by simp)))]
    exact ih (fun i hi => h i (by simp [hi])) _

theorem get?_eraseAll (m : Obj) (ids : List String) (k : String) : (eraseAll m ids).get? k = if k ∈ ids then none else m.get? k := by
  induction ids generalizing m with
  | nil => rfl
  | cons id ids ih =>
    rw [eraseAll, foldl_cons, ← eraseAll, ih, Props.get?_erase]
    by_cases h : k ∈ ids <;> by_cases h' : id = k <;> simp [h, h', eq_comm]
    exact fun e => absurd e.symm h'

/-- A snapshot puts something under exactly the ids it installs. -/
theorem installed?_isSome_iff (ord : Nat) (snapshot : EntrySnapshot) (id : String) :
    (installed? ord snapshot.entries id).isSome ↔ id ∈ snapshotIds snapshot := by
  rw [installed?_isSome, snapshotIds, mem_map]

/-! ## The effective leaf -/

/-- Two states that differ at most in the cached path. -/
def SameBut (p p' : Projection) : Prop := p' = { p with selectedPath := p'.selectedPath }

theorem SameBut.refl (p : Projection) : SameBut p p := rfl

theorem selectedPathOf_same {es : Obj} (h : p.selectedPathOf es = some (p', ids)) : SameBut p p' := by
  have hcompute : selectedPathOf.compute p es = some (p', ids) → SameBut p p' := by
    intro h
    obtain ⟨ids', -, heq⟩ := map_eq_some_iff.mp h
    cases heq
    rfl
  unfold selectedPathOf at h
  split at h
  · split at h
    · cases h
      exact SameBut.refl p
    · exact hcompute h
  · exact hcompute h

/-- Finding the effective leaf changes nothing but the cache. -/
theorem effectiveLeaf_same {es : Obj} (h : p.effectiveLeaf es = some (p', leaf)) : SameBut p p' := by
  unfold effectiveLeaf at h
  split at h
  · cases h
    exact SameBut.refl p
  · obtain ⟨⟨p₁, selected⟩, hsel, hfnd⟩ := bind_eq_some_iff.mp h
    obtain ⟨fnd, -, heq⟩ := map_eq_some_iff.mp hfnd
    cases heq
    exact selectedPathOf_same hsel

theorem effectiveLeaf_nil (h : p.live = []) (es : Obj) : p.effectiveLeaf es = some (p, p.piLeaf) := by
  rw [effectiveLeaf, if_pos h]

/-! ## The operations -/

/-- The operations of a refresh before those of the status. -/
def refreshOps (p : Projection) (snapshot : EntrySnapshot) : Patch :=
  installOps (p.baseOf snapshot) snapshot.entries ++ removeOps (p.removedIds snapshot)

/-- Without operations nothing was installed and nothing removed. -/
theorem refreshedEntries_of_refreshOps_nil (h : p.refreshOps snapshot = []) :
    snapshot.entries = [] ∧ p.refreshedEntries snapshot = p.document.entries := by
  obtain ⟨hinstall, hremove⟩ := append_eq_nil_iff.mp h
  have hnone : snapshot.entries = [] := by
    cases he : snapshot.entries with
    | nil => rfl
    | cons e es => rw [he] at hinstall; simp [installOps] at hinstall
  refine ⟨hnone, ?_⟩
  rw [refreshedEntries, map_eq_nil_iff.mp hremove, installedEntries, hnone]; rfl

/-- **`refresh`.** The next document has the refreshed entry map, and a status that differs from the old
    one by the recorded changes; it is the same document when nothing was recorded. -/
theorem refresh_spec (h : p.refresh snapshot = some (p', out)) : ∃ p₁ leaf s,
      (p.refreshedState snapshot).effectiveLeaf (p.refreshedEntries snapshot) = some (p₁, leaf) ∧
      refreshStatus p.document (p.refreshOps snapshot) snapshot (p.refreshedEntries snapshot) leaf = some s ∧
      p' = { p₁ with document := { status := s.1, entries := p.refreshedEntries snapshot } } ∧
      out = if s.2 = [] then none else some s.2 := by
  unfold refresh at h
  obtain ⟨⟨p₁, leaf⟩, hleaf, h⟩ := bind_eq_some_iff.mp h
  obtain ⟨⟨status, ops⟩, hstat, h⟩ := bind_eq_some_iff.mp h
  refine ⟨p₁, leaf, (status, ops), hleaf, hstat, ?_⟩
  cases ops with
  | cons op ops =>
    obtain ⟨rfl, rfl⟩ := Prod.mk.inj (Option.some.inj h)
    exact ⟨rfl, rfl⟩
  | nil =>
    obtain ⟨rfl, rfl⟩ := Prod.mk.inj (Option.some.inj h)
    refine ⟨?_, rfl⟩
    -- nothing recorded: nothing was installed, removed or set
    obtain ⟨chgs, -, hst, hops⟩ := records_refreshStatus hstat
    obtain ⟨hrefresh, hflds⟩ := append_eq_nil_iff.mp hops.symm
    obtain rfl : chgs = [] := map_eq_nil_iff.mp hflds
    have haft := (refreshedEntries_of_refreshOps_nil hrefresh).2
    have hsame := effectiveLeaf_same hleaf
    have hdoc : p₁.document = p.document := by rw [hsame]; rfl
    rw [haft]
    have : status = p.document.status := hst
    subst this
    rw [← hdoc]

/-- What the guard lets through is not sealed. -/
theorem unsealed_of_guard {id : EntryId} {v : Value} (hguard : p.targetsSealed event = false) (hid : event.entryId = some id)
    (hv : p.document.entries.get? id = some v) : isEntrySealed v = false := by
  rw [targetsSealed, hid] at hguard
  simpa only [Document.entry?, hv] using hguard

/-- The event's operations, the live forms after it and its leaf operations. -/
theorem applyEvent_spec (h : p.applyEvent event = some (p', out)) :
    (p' = p ∧ out = none ∧ (event.isContent && p.targetsSealed event) = true) ∨
    (p' = p ∧ out = none ∧ eventOps p.document event = []) ∨ ∃ p₁ leaf,
      (event.isContent && p.targetsSealed event) = false ∧ eventOps p.document event ≠ [] ∧
      effectiveLeaf { p with live := addLive p.live (creates event (eventOps p.document event)) }
        p.document.entries = some (p₁, leaf) ∧ p' = { p₁ with
        document := applyPatch p.document (eventOps p.document event ++ leafOps p.document leaf) } ∧
      out = some (eventOps p.document event ++ leafOps p.document leaf) := by
  unfold applyEvent at h
  split at h
  · rename_i hseal
    cases h
    exact Or.inl ⟨rfl, rfl, hseal⟩
  · rename_i hseal
    unfold PiBridge.applyEvent at h
    cases hops : eventOps p.document event with
    | nil =>
      rw [hops] at h
      cases h
      exact Or.inr (Or.inl ⟨rfl, rfl, rfl⟩)
    | cons op ops =>
      rw [hops] at h
      obtain ⟨⟨p₁, leaf⟩, hleaf, heq⟩ := map_eq_some_iff.mp h
      refine Or.inr (Or.inr ⟨p₁, leaf, by simpa using hseal, by simp, hleaf, ?_⟩)
      have hdoc : p₁.document = p.document := by rw [effectiveLeaf_same hleaf]
      dsimp only [emit, cons_append] at heq
      cases heq
      exact ⟨by rw [hdoc]; rfl, rfl⟩

/-- **`settle`.** No live form is left; when one had an entry, that entry is gone and the status is
    derived anew. -/
theorem settle_spec (h : p.settle = some (p', out)) : (p.settledIds = [] ∧ p' = { p with live := [] } ∧ out = none) ∨ ∃ sts ops,
      p.settledIds ≠ [] ∧ deriveStatsForEntries (eraseAll p.document.entries p.settledIds) p.piLeaf = some sts ∧
      ops = removeOps p.settledIds ++ [PatchOp.replace (statusPath "stats") sts] ++ leafOps p.document p.piLeaf ∧
      p' = { p with live := [], document := applyPatch p.document ops } ∧ out = some ops := by
  unfold settle at h
  dsimp only at h
  cases hids : p.settledIds with
  | nil =>
    rw [hids] at h
    cases h
    exact Or.inl ⟨rfl, rfl, rfl⟩
  | cons id ids =>
    rw [hids] at h
    dsimp only [removeOps, map_cons] at h
    rw [effectiveLeaf_nil rfl] at h
    obtain ⟨⟨p₂, leaf⟩, heq, h⟩ := bind_eq_some_iff.mp h
    cases heq
    obtain ⟨sts, hstats, h⟩ := bind_eq_some_iff.mp h
    refine Or.inr ⟨sts, _, by simp, hstats, rfl, ?_⟩
    dsimp only [emit, cons_append] at h
    cases h
    exact ⟨rfl, rfl⟩

/-! ## The bookkeeping after each operation -/

theorem applyEvent_bookkeeping (h : p.applyEvent event = some (p', out)) :
    p'.position = p.position ∧ p'.version = p.version ∧ p'.piLeaf = p.piLeaf := by
  rcases applyEvent_spec h with ⟨rfl, -⟩ | ⟨rfl, -⟩ | ⟨p₁, leaf, -, -, hleaf, rfl, -⟩
  · exact ⟨rfl, rfl, rfl⟩
  · exact ⟨rfl, rfl, rfl⟩
  · rw [effectiveLeaf_same hleaf]
    exact ⟨rfl, rfl, rfl⟩

theorem settle_bookkeeping (h : p.settle = some (p', out)) : p'.position = p.position ∧ p'.version = p.version ∧ p'.piLeaf = p.piLeaf := by
  rcases settle_spec h with ⟨-, rfl, -⟩ | ⟨sts, ops, -, -, -, rfl, -⟩
  · exact ⟨rfl, rfl, rfl⟩
  · exact ⟨rfl, rfl, rfl⟩

theorem refresh_bookkeeping (h : p.refresh snapshot = some (p', out)) :
    p'.position = snapshot.next ∧ p'.version = some snapshot.version ∧ p'.piLeaf = snapshot.leafId ∧
      p'.live = p.refreshedLive snapshot := by
  obtain ⟨p₁, leaf, s, hleaf, -, rfl, -⟩ := refresh_spec h
  rw [effectiveLeaf_same hleaf]
  exact ⟨rfl, rfl, rfl, rfl⟩

/-- The status change of `leafOps`. -/
def leafChange (doc : Document) (leaf : Option String) : List (String × Value) :=
  if doc.leafId = leaf then [] else [("leafId", nullable leaf)]

theorem leafOps_eq (doc : Document) (leaf : Option String) : leafOps doc leaf = fieldOps (leafChange doc leaf) := by
  unfold leafOps leafChange
  split <;> rfl

theorem plain_leafChange (doc : Document) (leaf : Option String) : ∀ c ∈ leafChange doc leaf, Plain c.1 := by
  unfold leafChange
  split
  · simp
  · intro c hc
    obtain rfl := mem_singleton.mp hc
    exact (by decide : Plain "leafId")

/-- The status changes of `settle`. -/
def settleChanges (p : Projection) (stats : Value) : List (String × Value) := ("stats", stats) :: leafChange p.document p.piLeaf

/-- The document `settle` arrives at. -/
theorem applyPatch_settleOps {p : Projection} (hplain : ∀ id ∈ p.settledIds, Plain id) (sts : Value) :
    applyPatch p.document
        (removeOps p.settledIds ++ [PatchOp.replace (statusPath "stats") sts] ++ leafOps p.document p.piLeaf)
      = { status := setFields p.document.status (p.settleChanges sts)
          entries := eraseAll p.document.entries p.settledIds } := by
  have hchgs : ∀ c ∈ p.settleChanges sts, Plain c.1 := by
    intro c hc
    rcases mem_cons.mp hc with rfl | hc
    · exact (by decide : Plain "stats")
    · exact plain_leafChange _ _ c hc
  have hops : [PatchOp.replace (statusPath "stats") sts] ++ leafOps p.document p.piLeaf
      = fieldOps (p.settleChanges sts) := by
    rw [leafOps_eq]; rfl
  rw [append_assoc, hops, applyPatch_append (scoped_removeOps hplain), applyPatch_removeOps hplain, applyPatch_fieldOps hchgs]

theorem leafId_settleChanges (p : Projection) (sts : Value) :
    (at_ (setFields p.document.status (p.settleChanges sts)) "leafId").asStr? = p.piLeaf := by
  unfold settleChanges leafChange
  split
  · rename_i hsame
    rw [setFields, foldl_cons, foldl_nil, at_set_ne _ _ (by decide : "stats" ≠ "leafId")]
    exact hsame
  · rw [setFields, foldl_cons, foldl_cons, foldl_nil, at_set_self, asStr?_nullable]

/-- `refreshFrom` is one `refresh`. -/
theorem refreshFrom_eq (p : Projection) (read : Nat → EntrySnapshot) :
    p.refreshFrom read = p.refresh (if p.isRewrite (read p.position) then read 0 else read p.position) := by
  unfold refreshFrom
  dsimp only
  split <;> rfl

/-! ## The status after each operation -/

theorem at_setFields_ne {status : Obj} {chgs : List (String × Value)}
    (h : ∀ c ∈ chgs, c.1 ≠ key) : at_ (setFields status chgs) key = at_ status key := by
  induction chgs generalizing status with
  | nil => rfl
  | cons c cs ih =>
    rw [setFields, foldl_cons, ← setFields, ih fun d hd => h d (by simp [hd]), at_set_ne _ _ (h c (by simp))]

theorem at_nameStep_ne (snapshot : EntrySnapshot) (after : Obj) (s : Obj × Patch)
    (hkey : "name" ≠ key) : at_ (nameStep snapshot after s).1 key = at_ s.1 key := by
  unfold nameStep
  split
  · dsimp only
    split
    · exact at_set_ne _ _ hkey
    · rfl
  · rfl

theorem at_statsStep_ne {s' : Obj × Patch} (hkey : "stats" ≠ key) (h : statsStep doc after leaf s = some s') :
    at_ s'.1 key = at_ s.1 key := by
  unfold statsStep at h
  split at h
  · obtain ⟨sts, -, rfl⟩ := map_eq_some_iff.mp h
    split
    · exact at_set_ne _ _ hkey
    · rfl
  · rw [← Option.some.inj h]

theorem at_leafStep_ne (doc : Document) (leaf : Option String) (s : Obj × Patch)
    (hkey : "leafId" ≠ key) : at_ (leafStep doc leaf s).1 key = at_ s.1 key := by
  unfold leafStep
  split
  · exact at_set_ne _ _ hkey
  · rfl

/-- **A refresh selects the leaf it computed.** -/
theorem leafId_refreshStatus (h : refreshStatus doc ops snapshot after leaf = some s) : (at_ s.1 "leafId").asStr? = leaf := by
  obtain ⟨s₁, hs₁, rfl⟩ := map_eq_some_iff.mp h
  have hold : at_ (nameStep snapshot after s₁).1 "leafId" = at_ doc.status "leafId" := by
    rw [at_nameStep_ne _ _ _ (by decide), at_statsStep_ne (by decide) hs₁]
  unfold leafStep
  split
  · rw [setStatus, at_set_self, asStr?_nullable]
  · rename_i hsame
    rw [hold]
    exact not_not.mp hsame

/-- **A refresh derives stats anew when it changed anything they depend on.** -/
theorem stats_refreshStatus (h : refreshStatus doc ops snapshot after leaf = some s)
    (hjson : (at_ doc.status "stats").toJson = some (at_ doc.status "stats")) :
    (at_ s.1 "stats").toJson = some (at_ s.1 "stats") ∧
    ((ops ≠ [] ∨ doc.leafId ≠ leaf) → deriveStatsForEntries after leaf = some (at_ s.1 "stats")) ∧
    (¬ (ops ≠ [] ∨ doc.leafId ≠ leaf) → at_ s.1 "stats" = at_ doc.status "stats") := by
  obtain ⟨s₁, hs₁, rfl⟩ := map_eq_some_iff.mp h
  rw [at_leafStep_ne _ _ _ (by decide), at_nameStep_ne _ _ _ (by decide)]
  unfold statsStep at hs₁
  split at hs₁
  · rename_i hcond
    obtain ⟨sts, hstats, rfl⟩ := map_eq_some_iff.mp hs₁
    split
    · rw [setStatus, at_set_self]
      exact ⟨toJson_deriveStats hstats, fun _ => hstats, fun hn => absurd hcond hn⟩
    · rename_i hsame
      -- equal texts: the stats already there are the derived ones
      have heq : sts = at_ doc.status "stats" := by
        have := not_not.mp hsame
        rw [toJson_deriveStats hstats, hjson] at this
        exact Option.some.inj this
      exact ⟨hjson, fun _ => heq ▸ hstats, fun hn => absurd hcond hn⟩
  · rename_i hcond
    cases hs₁
    exact ⟨hjson, fun h => absurd h hcond, fun _ => rfl⟩

end Projection

end PiBridge
