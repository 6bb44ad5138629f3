import PiBridge.Core.Correctness.NoGhost
import PiBridge.Core.World

/-!
# `Core.Correctness.Convergence` — every interleaving ends at pi's list

The projection and pi's entry list change independently: pi appends, moves its leaf, or replaces the whole
list under a new version; the projection applies events, reads, and settles. Whatever the order, once the
projection settles and reads again its entry map is exactly the projection of pi's list, and leaf and stats
describe that list. Nothing of the event history is left.

The invariant is `Tracks p K`: off the live forms, the entry map is what the list `K` of the last read puts
there. `Synced` adds what relates `K` to pi's present list — as long as the version is the same, `K` is a
prefix of it.
-/

namespace PiBridge

open Js Js.Value Lib Projection List Option

/-- Following parent links in an entry map always ends. -/
def Acyclic (entries : Obj) : Prop := ∀ c, ∃ n, (follow (branchNext entries) n c).isSome

theorem acyclic_of_rank {es : Obj} (rank : String → Nat)
    (h : ∀ a b, branchNext es a = some (some b) → rank b < rank a) : Acyclic es := by
  intro c
  obtain ⟨n, r, hr⟩ := follow_of_rank rank h c
  exact ⟨n, by rw [hr]; rfl⟩

/-- A content event other than a start names a live form or a sealed entry. -/
def Names (p : Projection) (event : SessionLifecycleEvent) : Prop :=
  event.isContent = true → event.isStart = false → ∀ id, event.entryId = some id →
    id.val ∈ p.live ∨ ∃ v, p.document.entry? id = some v ∧ isEntrySealed v = true

/-! ## The invariant -/

/-- The projection mirrors `K`, the list as it was last read, up to its live forms. -/
structure Tracks (p : Projection) (K : List SessionEntry) : Prop where
  position : p.position = K.length
  /-- Off the live forms the map is what the list puts there. -/
  entries : ∀ id, id ∉ p.live → p.document.entries.get? id = installed? 0 K id
  /-- A live form is not in the list. -/
  fresh : ∀ id ∈ p.live, installed? 0 K id = none
  /-- A live form is in the map, unsealed. -/
  present : ∀ id ∈ p.live, ∃ v, p.document.entries.get? id = some v ∧ IsLive v
  statsJson : (at_ p.document.status "stats").toJson = some (at_ p.document.status "stats")
  /-- With no live forms, leaf and stats describe pi's leaf. -/
  settled : p.live = [] → p.document.leafId = p.piLeaf ∧
    deriveStatsForEntries p.document.entries p.piLeaf = some (at_ p.document.status "stats")

/-- The projection mirrors `K`, and `K` is the list it last read. -/
structure Synced (w : World) (K : List SessionEntry) : Prop where
  tracks : Tracks w.projection K
  hasRead : HasRead w K
  wellKeyed : WellKeyed w.projection.document
  nodup : w.projection.document.entries.keys.Nodup

theorem synced_start (pi : PiList) : Synced (World.start pi) [] where
  tracks :=
    { position := rfl
      entries := fun _ _ => rfl
      fresh := fun _ h => by simp [World.start, createEntryProjection] at h
      present := fun _ h => by simp [World.start, createEntryProjection] at h
      statsJson := toJson_statsOfPath []
      settled := fun _ => ⟨rfl, rfl⟩ }
  hasRead := hasRead_start pi
  wellKeyed := wellKeyed_emptyDocument
  nodup := nodup_nil

variable {p : Projection} {K : List SessionEntry} {ev : SessionLifecycleEvent} {snap : EntrySnapshot} {id : String}
  {p' : Projection} {out : Option Patch} {doc₀ : Document} {ops : Patch} {w : World}

theorem Tracks.noGhost (h : Tracks p K) : NoGhost p := by
  intro id v hv
  by_cases hid : id ∈ p.live
  · obtain ⟨v', hv', hlive⟩ := h.present id hid
    cases hv.symm.trans hv'
    exact Or.inl ⟨hid, hlive⟩
  · rw [h.entries id hid] at hv
    exact Or.inr ⟨hid, installed_of_installed? hv⟩

/-- An event that is not about content only replaces status fields, and not the leaf. -/
theorem eventOps_of_not_content (doc : Document) (h : ev.isContent = false) : ∃ chgs : List (String × Value),
      eventOps doc ev = fieldOps chgs ∧ ∀ c ∈ chgs, Plain c.1 ∧ c.1 ≠ "leafId" ∧ c.1 ≠ "stats" := by
  have hone : ∀ (key : String) (v : Value), Plain key ∧ key ≠ "leafId" ∧ key ≠ "stats" →
      ∀ c ∈ [(key, v)], Plain c.1 ∧ c.1 ≠ "leafId" ∧ c.1 ≠ "stats" := by
    intro key v hkey c hc
    obtain rfl := mem_singleton.mp hc
    exact hkey
  cases ev with
  | messageStart | messageUpdate | messageEnd | toolExecutionStart | toolExecutionUpdate
  | toolExecutionEnd => simp [SessionLifecycleEvent.isContent] at h
  | agentStart | agentSettled | compactionStart | compactionEnd | thinkingLevelChanged | queueUpdate =>
    exact ⟨[(_, _)], rfl, hone _ _ (by decide)⟩
  | sessionInfoChanged name =>
    cases name with
    | none => exact ⟨[], rfl, by simp⟩
    | some name => exact ⟨[(_, _)], rfl, hone _ _ (by decide)⟩
  | entryAppended | other => exact ⟨[], rfl, by simp⟩

/-! ## Refresh -/

/-- **Off the live forms, a refreshed map is what the list puts there.** -/
theorem get?_refreshed_of_not_live (h : Tracks p K) (hid : id ∉ p.refreshedLive snap) :
    (p.refreshedEntries snap).get? id = installed? 0 (listAfter p K snap) id := by
  rw [get?_refreshedEntries, installed?_listAfter h.position]
  by_cases hsnap : id ∈ snapshotIds snap
  · have hsome := (installed?_isSome_iff (p.baseOf snap) snap id).mpr hsnap
    rw [if_neg fun hr => (mem_removedIds.mp hr).2.2.1 hsnap, or_of_isSome hsome, or_of_isSome hsome]
  · have hnone : installed? (p.baseOf snap) snap.entries id = none := by
      rw [← not_isSome_iff_eq_none, installed?_isSome_iff]
      exact hsnap
    rw [hnone, none_or, none_or]
    split
    · rename_i hr
      rw [if_pos (mem_removedIds.mp hr).1]
    · rename_i hr
      split
      · -- a rewrite removes what is there, so nothing was there
        rename_i hrew
        have habs : (p.installedEntries snap).get? id = none := by
          rw [← not_isSome_iff_eq_none, Props.get?_isSome]
          exact fun hhas => hr (mem_removedIds.mpr ⟨hrew, hhas, hsnap, hid⟩)
        rwa [installedEntries, get?_install, hnone, none_or] at habs
      · exact h.entries id fun hlive => hid (mem_refreshedLive.mpr ⟨hlive, hsnap⟩)

/-- **`refresh` moves the mirror to the list after it.** -/
theorem tracks_refresh (h : Tracks p K) (hnext : snap.next = (listAfter p K snap).length)
    (hstep : p.refresh snap = some (p', out)) : Tracks p' (listAfter p K snap) := by
  obtain ⟨hpos, -, hpiLeaf, hlive⟩ := refresh_bookkeeping hstep
  obtain ⟨p₁, leaf, s, hleaf, hstat, rfl, -⟩ := refresh_spec hstep
  have hstats := stats_refreshStatus hstat h.statsJson
  exact
    { position := hpos.trans hnext
      entries := fun id hid => get?_refreshed_of_not_live h (hlive ▸ hid)
      fresh := fun id hid => by
        have hid : id ∈ p.refreshedLive snap := hlive ▸ hid
        rw [installed?_listAfter h.position, (kept_of_mem_refreshedLive hid).1, none_or]
        split
        · rfl
        · exact h.fresh id (mem_refreshedLive.mp hid).1
      present := fun id hid => by
        have hid : id ∈ p.refreshedLive snap := hlive ▸ hid
        obtain ⟨hnew, hkept⟩ := kept_of_mem_refreshedLive hid
        show ∃ v, (p.refreshedEntries snap).get? id = some v ∧ IsLive v
        rw [get?_refreshedEntries, if_neg hkept, hnew, none_or]
        exact h.present id (mem_refreshedLive.mp hid).1
      statsJson := hstats.1
      settled := fun hnil => by
        have hnil : p.refreshedLive snap = [] := hlive.symm.trans hnil
        rw [effectiveLeaf_nil hnil] at hleaf
        obtain ⟨-, rfl⟩ := Prod.mk.inj (some.inj hleaf)
        rw [hpiLeaf]
        refine ⟨leafId_refreshStatus hstat, ?_⟩
        show deriveStatsForEntries (p.refreshedEntries snap) snap.leafId = some (at_ s.1 "stats")
        by_cases hcond : p.refreshOps snap ≠ [] ∨ p.document.leafId ≠ snap.leafId
        · exact hstats.2.1 hcond
        · -- nothing was installed or removed and the leaf stays: the old stats still hold
          rw [hstats.2.2 hcond]
          obtain ⟨hops, hsameLeaf⟩ := not_or.mp hcond
          obtain ⟨hnone, haft⟩ := refreshedEntries_of_refreshOps_nil (not_not.mp hops)
          have hlive₀ : p.live = [] := by
            rw [refreshedLive, snapshotIds, hnone] at hnil
            simpa using hnil
          obtain ⟨hleaf₀, hstats₀⟩ := h.settled hlive₀
          rw [haft, ← not_not.mp hsameLeaf, hleaf₀]
          exact hstats₀ }

/-! ## Settling -/

/-- A live form has an entry, so it is removed. -/
theorem Tracks.mem_settledIds (h : Tracks p K) : id ∈ p.settledIds ↔ id ∈ p.live := by
  refine ⟨fun hid => (mem_filter.mp hid).1, fun hid => mem_filter.mpr ⟨hid, ?_⟩⟩
  obtain ⟨v, hv, -⟩ := h.present id hid
  rw [← Props.get?_isSome, hv]; rfl

/-- Once settled, the map is what the list puts there. -/
theorem get?_settled (h : Tracks p K) (id : String) : (eraseAll p.document.entries p.settledIds).get? id = installed? 0 K id := by
  rw [get?_eraseAll]
  by_cases hid : id ∈ p.live
  · rw [if_pos (h.mem_settledIds.mpr hid), h.fresh id hid]
  · rw [if_neg fun hmem => hid (h.mem_settledIds.mp hmem), h.entries id hid]

/-- **`settle` leaves exactly the mirrored list.** -/
theorem tracks_settle (hkeys : WellKeyed p.document) (h : Tracks p K) (hstep : p.settle = some (p', out)) : Tracks p' K ∧ p'.live = [] := by
  rcases settle_spec hstep with ⟨hnil, rfl, -⟩ | ⟨sts, ops, -, hstats, rfl, rfl, -⟩
  · have hlive : p.live = [] := by
      refine eq_nil_iff_forall_not_mem.mpr fun id hid => ?_
      have hmem := h.mem_settledIds.mpr hid
      rw [hnil] at hmem
      simp at hmem
    have hsame : { p with live := [] } = p := by rw [← hlive]
    rw [hsame]
    exact ⟨h, hlive⟩
  · refine ⟨?_, rfl⟩
    have hdoc := applyPatch_settleOps (plain_settledIds hkeys) sts
    have hchgs : at_ (setFields p.document.status (p.settleChanges sts)) "stats" = sts := by
      rw [settleChanges, setFields, foldl_cons, ← setFields, at_setFields_ne, at_set_self]
      intro c hc
      unfold leafChange at hc
      split at hc
      · simp at hc
      · obtain rfl := mem_singleton.mp hc
        exact (by decide : "leafId" ≠ "stats")
    exact
      { position := h.position
        entries := fun id _ => by
          rw [hdoc]
          exact get?_settled h id
        fresh := fun id hid => by simp at hid
        present := fun id hid => by simp at hid
        statsJson := by
          rw [hdoc]
          show (at_ (setFields _ _) "stats").toJson = _
          rw [hchgs]
          exact toJson_deriveStats hstats
        settled := fun _ => by
          rw [hdoc]
          refine ⟨leafId_settleChanges p sts, ?_⟩
          show deriveStatsForEntries _ p.piLeaf = some (at_ (setFields _ _) "stats")
          rw [hchgs]
          exact hstats }

/-! ## Events -/

theorem Names.targeted (h : Names p ev)
    (hghost : ∀ id ∈ p.live, (p.document.entry? id).isSome) : Targeted p (.applyEvent ev) := by
  intro hwrites id hid
  have hsta : ev.isStart = false := by
    cases ev <;> simp_all [SessionLifecycleEvent.writesEntry, SessionLifecycleEvent.isStart]
  rcases h (isContent_of_entryId hid) hsta id hid with hlive | ⟨v, hv, -⟩
  · exact hghost id.val hlive
  · rw [hv]; rfl

section

variable (hops : ∀ op ∈ ops, EventOp doc₀ ev op)

include hops

/-- An event's operations touch only the entry it names. -/
theorem get?_applyPatch_eventOps {k : String}
    (hk : ∀ id, ev.entryId = some id → id.val ≠ k) (doc : Document) : (applyPatch doc ops).entries.get? k = doc.entries.get? k := by
  refine applyPatch_induction (fun d => d.entries.get? k = doc.entries.get? k) (fun op hop => ?_) rfl
  have hkeep : ∀ {id : EntryId} {rest : List String}, ev.entryId = some id → ∀ d : Document, d.entries.get? k = doc.entries.get? k →
        (opIn d.entries id.val rest op).get? k = doc.entries.get? k := by
    intro id rest hid d h
    rw [get?_opIn_ne _ _ _ (hk id hid), h]
  cases hops op hop with
  | status hkey =>
    exact ⟨.status, _, _, addresses_statusPath (plain_of_mem_statusFields hkey) _, fun _ h => h⟩
  | create hid => exact ⟨.entries, _, _, addresses_entryPath _ _, hkeep hid⟩
  | field hid _ _ hname hpoints =>
    obtain ⟨rest, haddr⟩ := addresses_of_pointsAt (plain_of_mem_liveFields hname) hpoints
    exact ⟨.entries, _, _, haddr, hkeep hid⟩

/-- An event's operations leave the stats alone. -/
theorem stats_applyPatch_eventOps (doc : Document) :
    at_ (applyPatch doc ops).status "stats" = at_ doc.status "stats" := by
  refine applyPatch_induction (fun d => at_ d.status "stats" = at_ doc.status "stats")
    (fun op hop => ?_) rfl
  cases hops op hop with
  | status hkey =>
    refine ⟨.status, _, _, addresses_statusPath (plain_of_mem_statusFields hkey) _, fun d h => ?_⟩
    show at_ (Props.set d.status _ _) "stats" = _
    rw [at_set_ne _ _ (by rintro rfl; revert hkey; decide), h]
  | create => exact ⟨.entries, _, _, addresses_entryPath _ _, fun _ h => h⟩
  | field _ _ _ hname hpoints =>
    obtain ⟨rest, haddr⟩ := addresses_of_pointsAt (plain_of_mem_liveFields hname) hpoints
    exact ⟨.entries, _, _, haddr, fun _ h => h⟩

/-- An event's operations remove no entry. -/
theorem has_applyPatch_eventOps {k : String} {doc : Document}
    (h : doc.entries.has k = true) : (applyPatch doc ops).entries.has k = true := by
  refine applyPatch_induction (fun d => d.entries.has k = true) (fun op hop => ?_) h
  cases hops op hop with
  | status hkey =>
    exact ⟨.status, _, _, addresses_statusPath (plain_of_mem_statusFields hkey) _, fun _ h => h⟩
  | create =>
    refine ⟨.entries, _, _, addresses_entryPath _ _, fun d h => ?_⟩
    show (Props.set d.entries _ _).has k = true
    rw [Props.has_set, h, Bool.or_true]
  | field _ _ _ hname hpoints =>
    obtain ⟨rest, haddr⟩ := addresses_of_pointsAt (plain_of_mem_liveFields hname) hpoints
    exact ⟨.entries, _, _, haddr, fun _ h => has_opIn_below h⟩

/-- The form a patch creates is in the map. -/
theorem has_applyPatch_created {doc : Document}
    {id : EntryId} (hcreate : creates ev ops = some id) :
    (applyPatch doc ops).entries.has id.val = true := by
  obtain ⟨-, hany⟩ := filter_eq_some_iff.mp hcreate
  obtain ⟨op, hop, hpath⟩ := any_eq_true.mp hany
  cases op with
  | add path v =>
    obtain rfl : path = entryPath id := by simpa using hpath
    -- up to the creation, the creation, and what follows it
    obtain ⟨pre, post, rfl⟩ := append_of_mem hop
    have hpre : ∀ op ∈ pre, EventOp doc₀ ev op := fun op hop => hops op (by simp [hop])
    have hpost : ∀ op ∈ post, EventOp doc₀ ev op := fun op hop => hops op (by simp [hop])
    rw [applyPatch_append fun op hop => (hpre op hop).scoped, applyPatch_cons (addresses_entryPath id v)]
    refine has_applyPatch_eventOps hpost ?_
    show (Props.set _ id.val v).has id.val = true
    rw [Props.has_set]
    simp
  | _ => simp at hpath

end

/-- Live forms stay live under an event. -/
theorem mem_live_applyEvent (ev : SessionLifecycleEvent) (h : id ∈ p.live) :
    id ∈ addLive p.live (creates ev (eventOps p.document ev)) := mem_addLive.mpr (Or.inl h)

/-- The entry an event changes is live afterwards. -/
theorem named_live {id : EntryId} (hnams : Names p ev)
    (hguard : (ev.isContent && p.targetsSealed ev) = false) (hne : eventOps p.document ev ≠ [])
    (hid : ev.entryId = some id) : id.val ∈ addLive p.live (creates ev (eventOps p.document ev)) := by
  cases hsta : ev.isStart with
  | true =>
    rw [creates_of_isStart hsta hne, hid]
    exact mem_addLive.mpr (Or.inr ⟨id, rfl, rfl⟩)
  | false =>
    rcases hnams (isContent_of_entryId hid) hsta id hid with hlive | ⟨v, hv, hseal⟩
    · exact mem_live_applyEvent ev hlive
    · -- a sealed target is guarded against
      rw [isContent_of_entryId hid, Bool.true_and] at hguard
      rw [unsealed_of_guard hguard hid hv] at hseal
      exact Bool.noConfusion hseal

/-- What an event makes live is not in the list: there it would be sealed, and the event guarded against. -/
theorem Tracks.fresh_applyEvent (h : Tracks p K) (hguard : (ev.isContent && p.targetsSealed ev) = false)
    (hid : id ∈ addLive p.live (creates ev (eventOps p.document ev))) : installed? 0 K id = none := by
  rcases mem_addLive.mp hid with hlive | ⟨eid, hcreate, rfl⟩
  · exact h.fresh id hlive
  · by_cases hlive : eid.val ∈ p.live
    · exact h.fresh _ hlive
    · obtain ⟨-, hent⟩ := isStart_of_creates hcreate
      cases hK : installed? 0 K eid with
      | none => rfl
      | some v =>
        rw [isContent_of_entryId hent, Bool.true_and] at hguard
        have hunsl := unsealed_of_guard hguard hent ((h.entries _ hlive).trans hK)
        rw [isEntrySealed_of_installed (installed_of_installed? hK)] at hunsl
        exact Bool.noConfusion hunsl

/-- What an event makes live is in the map. -/
theorem Tracks.has_applyEvent (h : Tracks p K) (leaf : Option String)
    (hid : id ∈ addLive p.live (creates ev (eventOps p.document ev))) :
    (applyPatch p.document (eventOps p.document ev ++ leafOps p.document leaf)).entries.has id = true := by
  rcases mem_addLive.mp hid with hlive | ⟨eid, hcreate, rfl⟩
  · obtain ⟨v, hv, -⟩ := h.present id hlive
    refine has_applyPatch_eventOps (fun op hop => eventOp_of_mem_applyEvent hop) ?_
    rw [← Props.get?_isSome, hv]; rfl
  · rw [applyPatch_append fun op hop => (eventOp_of_mem hop).scoped, leafOps_eq, applyPatch_fieldOps (plain_leafChange p.document leaf)]
    exact has_applyPatch_created (fun op hop => eventOp_of_mem hop) hcreate

/-- An event that leaves nothing live is not about content. -/
theorem not_content_of_live_nil (hnams : Names p ev)
    (hguard : (ev.isContent && p.targetsSealed ev) = false) (hne : eventOps p.document ev ≠ [])
    (hnil : addLive p.live (creates ev (eventOps p.document ev)) = []) : ev.isContent = false := by
  rw [← Bool.not_eq_true]
  intro hcont
  cases hid : ev.entryId with
  | none =>
    -- without an entry id a content event does nothing
    have hops : eventOps p.document ev = [] := by
      cases ev <;> simp_all [SessionLifecycleEvent.entryId, SessionLifecycleEvent.isContent, eventOps]
    exact hne hops
  | some id =>
    have hlive := named_live hnams hguard hne hid
    rw [hnil] at hlive
    simp at hlive

/-- **With nothing live, an event moves neither leaf nor stats.** -/
theorem Tracks.settled_applyEvent {p₁ : Projection} {leaf : Option String} (h : Tracks p K) (hnams : Names p ev)
    (hguard : (ev.isContent && p.targetsSealed ev) = false) (hne : eventOps p.document ev ≠ [])
    (hleaf : effectiveLeaf { p with live := addLive p.live (creates ev (eventOps p.document ev)) }
      p.document.entries = some (p₁, leaf)) (hnil : addLive p.live (creates ev (eventOps p.document ev)) = []) :
    (applyPatch p.document (eventOps p.document ev ++ leafOps p.document leaf)).leafId = p.piLeaf ∧ deriveStatsForEntries
        (applyPatch p.document (eventOps p.document ev ++ leafOps p.document leaf)).entries p.piLeaf
        = some (at_ (applyPatch p.document (eventOps p.document ev ++ leafOps p.document leaf)).status "stats") := by
  have hlive : p.live = [] := by
    refine eq_nil_iff_forall_not_mem.mpr fun id hid => ?_
    have hmem := mem_live_applyEvent ev hid
    rw [hnil] at hmem
    simp at hmem
  obtain ⟨hleaf₀, hstats₀⟩ := h.settled hlive
  rw [effectiveLeaf_nil hnil] at hleaf
  cases hleaf
  have hnoLeafOp : leafOps p.document p.piLeaf = [] := if_pos hleaf₀
  obtain ⟨chgs, heq, hchgs⟩ := eventOps_of_not_content p.document (not_content_of_live_nil hnams hguard hne hnil)
  rw [hnoLeafOp, append_nil, heq, applyPatch_fieldOps fun c hc => (hchgs c hc).1]
  constructor
  · show (at_ (setFields _ _) "leafId").asStr? = _
    rw [at_setFields_ne fun c hc => (hchgs c hc).2.1]
    exact hleaf₀
  · show deriveStatsForEntries p.document.entries p.piLeaf = some (at_ (setFields _ _) "stats")
    rw [at_setFields_ne fun c hc => (hchgs c hc).2.2]
    exact hstats₀

/-- **`applyEvent` moves nothing but live forms.** -/
theorem tracks_applyEvent (h : Tracks p K) (hnams : Names p ev) (hstep : p.applyEvent ev = some (p', out)) : Tracks p' K := by
  have hpresent : ∀ id ∈ p.live, (p.document.entry? id).isSome := by
    intro id hid
    obtain ⟨v, hv, -⟩ := h.present id hid
    rw [Document.entry?, hv]; rfl
  have hghost' : NoGhost p' := noGhost_applyEvent h.noGhost (hnams.targeted hpresent) hstep
  rcases applyEvent_spec hstep with ⟨rfl, -⟩ | ⟨rfl, -⟩ | ⟨p₁, leaf, hguard, hne, hleaf, rfl, -⟩
  · exact h
  · exact h
  · have hsame := effectiveLeaf_same hleaf
    have hlive : p₁.live = addLive p.live (creates ev (eventOps p.document ev)) := by rw [hsame]
    have hops : ∀ op ∈ eventOps p.document ev ++ leafOps p.document leaf, EventOp p.document ev op :=
      fun op hop => eventOp_of_mem_applyEvent hop
    exact
      { position := by rw [hsame]; exact h.position
        entries := fun id hid => by
          have hoth : ∀ id', ev.entryId = some id' → id'.val ≠ id := by
            rintro id' hid' rfl
            exact hid (hlive ▸ named_live hnams hguard hne hid')
          show (applyPatch p.document _).entries.get? id = _
          rw [get?_applyPatch_eventOps hops hoth]
          exact h.entries id fun hmem => hid (hlive ▸ mem_live_applyEvent ev hmem)
        fresh := fun id hid => h.fresh_applyEvent hguard (hlive ▸ hid)
        present := fun id hid => by
          have hhas := h.has_applyEvent leaf (hlive ▸ hid)
          rw [← Props.get?_isSome] at hhas
          obtain ⟨v, hv⟩ := isSome_iff_exists.mp hhas
          rcases hghost' id v hv with ⟨-, hv'⟩ | ⟨hnot, -⟩
          · exact ⟨v, hv, hv'⟩
          · exact absurd hid hnot
        statsJson := by
          show (at_ (applyPatch p.document _).status "stats").toJson = some (at_ (applyPatch p.document _).status "stats")
          rw [stats_applyPatch_eventOps hops]
          exact h.statsJson
        settled := fun hnil => by
          rw [show p₁.piLeaf = p.piLeaf by rw [hsame]]
          exact h.settled_applyEvent hnams hguard hne hleaf (hlive.symm.trans hnil) }

/-! ## Runs -/

/-- **Reading brings the mirror to pi's list.** -/
theorem tracks_refreshFrom (h : Synced w K) (hstep : w.projection.refreshFrom w.pi.readEntries = some (p, out)) :
    Tracks p w.pi.entries ∧ p.piLeaf = w.pi.leafId ∧ (w.projection.live = [] → p.live = []) := by
  obtain ⟨st, hread, hlist⟩ := refreshFrom_reads h.hasRead h.tracks.position
  have hrefresh := hread.symm.trans hstep
  have htracks := tracks_refresh h.tracks (by rw [hlist]; rfl) hrefresh
  obtain ⟨-, -, hpiLeaf, hlive⟩ := refresh_bookkeeping hrefresh
  rw [hlist] at htracks
  refine ⟨htracks, hpiLeaf, fun hnil => ?_⟩
  rw [hlive, refreshedLive, hnil]; rfl

/-- **One step keeps the projection in step with pi.** -/
theorem synced_step {w' : World} {a : WorldAction} (h : Synced w K)
    (hstep : WorldStep Names w a w') : Synced w' (a.lastRead w.pi K) := by
  have hread := hasRead_step h.hasRead hstep
  have hkeys : ∀ {op out p}, ProjectionStep w.projection (op, out) p → WellKeyed p.document ∧ p.document.entries.keys.Nodup := fun hstep =>
    ⟨wellKeyed_step h.wellKeyed hstep, stable_nodup.step h.wellKeyed h.nodup hstep⟩
  cases hstep with
  | append | replaceAll => exact ⟨h.tracks, hread, h.wellKeyed, h.nodup⟩
  | @applyEvent ev _ _ hnams hstep =>
    obtain ⟨hvald, hnd⟩ := hkeys (show ProjectionStep _ (.applyEvent ev, _) _ from hstep)
    exact ⟨tracks_applyEvent h.tracks hnams hstep, hread, hvald, hnd⟩
  | refreshFrom hstep =>
    obtain ⟨hvald, hnd⟩ := hkeys (show ProjectionStep _ (.refreshFrom _, _) _ from hstep)
    exact ⟨(tracks_refreshFrom h hstep).1, hread, hvald, hnd⟩
  | settle hstep =>
    obtain ⟨hvald, hnd⟩ := hkeys (show ProjectionStep _ (.settle, _) _ from hstep)
    exact ⟨(tracks_settle h.wellKeyed h.tracks hstep).1, hread, hvald, hnd⟩

/-- The lists a run sees all have parent links that end. -/
def WorldAction.Acyclic : WorldAction → Prop
  | .changed pi => PiBridge.Acyclic pi.entryMap
  | _ => True

/-- **A run keeps the projection in step with pi**, and if no list of the run had a parent cycle, neither
    has the one last read. -/
theorem synced_run {pi : PiList} {as : List WorldAction} (hrun : Steps (WorldStep Names) (World.start pi) as w) :
    ∃ K, Synced w K ∧ (Acyclic pi.entryMap → (∀ a ∈ as, a.Acyclic) → Acyclic (install [] 0 K) ∧ Acyclic w.pi.entryMap) := by
  induction hrun with
  | refl =>
    refine ⟨[], synced_start pi, fun hpi _ => ⟨?_, hpi⟩⟩
    exact acyclic_of_rank (fun _ => 0) fun a b hab => by simp [branchNext, install] at hab
  | @tail as w₁ w₂ a _ hstep ih =>
    obtain ⟨K, hsync, hacyclic⟩ := ih
    refine ⟨_, synced_step hsync hstep, fun hpi has => ?_⟩
    obtain ⟨hK, hpi₁⟩ := hacyclic hpi fun a ha => has a (by simp [ha])
    have ha := has a (by simp)
    cases hstep with
    | append | replaceAll => exact ⟨hK, ha⟩
    | applyEvent | settle => exact ⟨hK, hpi₁⟩
    | refreshFrom => exact ⟨hpi₁, hpi₁⟩

/-- Parent links are followed through lookups only. -/
theorem branchNext_congr {m m' : Obj} (h : ∀ id, m.get? id = m'.get? id) : branchNext m = branchNext m' := by
  funext c
  unfold branchNext
  rw [h]

/-- Stats of a map that mirrors an acyclic list can be derived. -/
theorem deriveStats_isSome {m : Obj} (h : ∀ id, m.get? id = installed? 0 K id)
    (hacyclic : Acyclic (install [] 0 K)) (leaf : Option String) : ∃ sts, deriveStatsForEntries m leaf = some sts := by
  rw [← isSome_iff_exists, deriveStatsForEntries, isSome_map, branchPath_isSome_iff,
    branchNext_congr fun id => (h id).trans (by rw [get?_install]; simp : installed? 0 K id = (install [] 0 K).get? id)]
  exact hacyclic leaf

/-- `settle` returns if stats of the settled map can be derived. -/
theorem settle_returns (h : ∃ sts, deriveStatsForEntries (eraseAll p.document.entries p.settledIds) p.piLeaf = some sts) :
    ∃ p' out, p.settle = some (p', out) := by
  obtain ⟨sts, hstats⟩ := h
  unfold settle
  dsimp only
  split
  · exact ⟨_, _, rfl⟩
  · rw [effectiveLeaf_nil rfl]
    show ∃ p' out, (deriveStatsForEntries _ p.piLeaf).bind _ = some (p', out)
    rw [hstats]
    exact ⟨_, _, rfl⟩

/-- `refresh` returns when no form is live and stats of the refreshed map can be derived. -/
theorem refresh_returns (hlive : p.live = [])
    (h : ∃ sts, deriveStatsForEntries (p.refreshedEntries snap) snap.leafId = some sts) :
    ∃ p' out, p.refresh snap = some (p', out) := by
  obtain ⟨sts, hstats⟩ := h
  have hst : (p.refreshedState snap).live = [] := by
    rw [refreshedState, refreshedLive, hlive]; rfl
  have hstat : ∃ s, refreshStatus p.document (p.refreshOps snap) snap (p.refreshedEntries snap)
      snap.leafId = some s := by
    unfold refreshStatus statsStep
    split
    · rw [hstats]
      exact ⟨_, rfl⟩
    · exact ⟨_, rfl⟩
  obtain ⟨s, hs⟩ := hstat
  unfold refresh
  dsimp only
  rw [effectiveLeaf_nil hst]
  show ∃ p' out, (refreshStatus p.document (p.refreshOps snap) snap (p.refreshedEntries snap)
      snap.leafId).bind _ = some (p', out)
  rw [hs]
  obtain ⟨status, ops⟩ := s
  cases ops with
  | nil | cons op ops => exact ⟨_, _, rfl⟩

/-- **Convergence.** After any interleaving of pi's changes and the projection's operations, settling and
    then reading leaves exactly pi's list: the entry map is the projection of each entry at its index, the
    leaf is pi's leaf, and the stats are those of that map and leaf. Both operations return as long as no
    list of the run has a cycle in its parent links. -/
theorem settle_then_refresh_converges {pi : PiList} {as : List WorldAction} {w : World}
    (hrun : Steps (WorldStep Names) (World.start pi) as w) :
    (∀ p₁ out₁ p₂ out₂, w.projection.settle = some (p₁, out₁) →
      p₁.refreshFrom w.pi.readEntries = some (p₂, out₂) →
      (∀ id, p₂.document.entry? id = w.pi.entryMap.get? id) ∧
      p₂.document.leafId = w.pi.leafId ∧
      deriveStatsForEntries p₂.document.entries w.pi.leafId = some (at_ p₂.document.status "stats")) ∧
    (Acyclic pi.entryMap → (∀ a ∈ as, a.Acyclic) → ∃ p₁ out₁ p₂ out₂,
      w.projection.settle = some (p₁, out₁) ∧ p₁.refreshFrom w.pi.readEntries = some (p₂, out₂)) := by
  obtain ⟨K, hsync, hacyclic⟩ := synced_run hrun
  have hsettled : ∀ {p₁ out₁}, w.projection.settle = some (p₁, out₁) → Synced { w with projection := p₁ } K ∧ p₁.live = [] := by
    intro p₁ out₁ hsettle
    have hstep : WorldStep Names w .settle { w with projection := p₁ } := .settle hsettle
    exact ⟨synced_step hsync hstep, (tracks_settle hsync.wellKeyed hsync.tracks hsettle).2⟩
  constructor
  · intro p₁ out₁ p₂ out₂ hsettle hrefresh
    obtain ⟨hsync₁, hlive₁⟩ := hsettled hsettle
    obtain ⟨htracks, hpiLeaf, hlive₂⟩ := tracks_refreshFrom hsync₁ hrefresh
    have hnil : p₂.live = [] := hlive₂ hlive₁
    obtain ⟨hleaf, hstats⟩ := htracks.settled hnil
    refine ⟨fun id => ?_, hleaf.trans hpiLeaf, hpiLeaf ▸ hstats⟩
    rw [PiList.entryMap, get?_install, Props.get?_nil, or_none]
    exact htracks.entries id (by rw [hnil]; simp)
  · intro hpi has
    obtain ⟨hK, hw⟩ := hacyclic hpi has
    obtain ⟨p₁, out₁, hsettle⟩ := settle_returns (deriveStats_isSome (get?_settled hsync.tracks) hK w.projection.piLeaf)
    obtain ⟨hsync₁, hlive₁⟩ := hsettled hsettle
    obtain ⟨start, hread, hlist⟩ := refreshFrom_reads hsync₁.hasRead hsync₁.tracks.position
    have hmap : ∀ id, (p₁.refreshedEntries (w.pi.readEntries start)).get? id = installed? 0 w.pi.entries id := by
      intro id
      have hnot : id ∉ p₁.refreshedLive (w.pi.readEntries start) := by simp [refreshedLive, hlive₁]
      exact (get?_refreshed_of_not_live hsync₁.tracks hnot).trans (by rw [hlist])
    obtain ⟨p₂, out₂, hrefresh⟩ := refresh_returns hlive₁ (deriveStats_isSome hmap hw w.pi.leafId)
    exact ⟨p₁, out₁, p₂, out₂, hsettle, hread.trans hrefresh⟩

/-- A root entry: a user's first message. -/
def exampleEntry : SessionEntry where
  fields := [("type", .str "message"), ("id", .str "7d20e1f4"), ("parentId", .null), ("timestamp", .str ""),
    ("message", .obj [("role", .str "user"), ("content", .str "hi")])]
  id := ⟨"7d20e1f4", by decide, by decide, by decide⟩
  id_eq := rfl

/-- The list that holds just that entry. -/
def examplePi : PiList := ⟨[exampleEntry], some "7d20e1f4", 0⟩

theorem acyclic_examplePi : Acyclic examplePi.entryMap := by
  refine acyclic_of_rank (fun _ => 0) fun a b hab => ?_
  have hpar : ∀ c, branchNext examplePi.entryMap c = none ∨ branchNext examplePi.entryMap c = some none := by
    intro c
    by_cases hc : c = ""
    · exact Or.inl (if_pos hc)
    · rw [branchNext, if_neg hc, PiList.entryMap, get?_install]
      by_cases hid : exampleEntry.id.val = c
      · right
        simp only [examplePi, installed?, hid, if_true, none_or, some_or, map_some, parentIdOf_projectEntry]
        rfl
      · left
        simp [examplePi, installed?, hid]
  rcases hpar a with h | h <;> rw [h] at hab <;> simp at hab

/-- A live assistant message is settled away once pi's list, which does not have it, is read. -/
theorem settle_then_refresh_converges_example : ∃ (p p₁ p₂ : Projection) (out₁ out₂ : Option Patch), p.live = ["4f1c09ab"] ∧
      p.settle = some (p₁, out₁) ∧ p₁.refreshFrom examplePi.readEntries = some (p₂, out₂) ∧
      (∀ id, p₂.document.entry? id = examplePi.entryMap.get? id) ∧
      p₂.document.leafId = some "7d20e1f4" := by
  let start : SessionLifecycleEvent := .messageStart (some exampleId) (.obj [("role", .str "assistant")])
  have hcompute : ((createEntryProjection emptyDocument).applyEvent start).map (fun r => r.1.live)
      = some ["4f1c09ab"] := by decide
  obtain ⟨⟨p, out⟩, hp, hlive⟩ := map_eq_some_iff.mp hcompute
  have hrun : Steps (WorldStep Names) (World.start ⟨[], none, 0⟩) [.applyEvent start, .changed examplePi]
      ⟨examplePi, p⟩ :=
    (Steps.single (WorldStep.applyEvent (fun _ hstart => Bool.noConfusion hstart) hp)).tail
      (WorldStep.append [exampleEntry] (some "7d20e1f4"))
  obtain ⟨hconverges, hreturns⟩ := settle_then_refresh_converges hrun
  obtain ⟨p₁, out₁, p₂, out₂, hsettle, hrefresh⟩ := hreturns
    (acyclic_of_rank (fun _ => 0) fun a b hab => by simp [branchNext, PiList.entryMap, install] at hab)
    (by
      intro a ha
      simp only [mem_cons, not_mem_nil, or_false] at ha
      rcases ha with rfl | rfl
      · exact trivial
      · exact acyclic_examplePi)
  obtain ⟨hentries, hleaf, -⟩ := hconverges p₁ out₁ p₂ out₂ hsettle hrefresh
  exact ⟨p, p₁, p₂, out₁, out₂, hlive, hsettle, hrefresh, hentries, hleaf⟩

end PiBridge
