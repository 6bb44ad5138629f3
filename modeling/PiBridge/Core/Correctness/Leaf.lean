import PiBridge.Core.Correctness.Convergence
import PiBridge.Core.EffectiveLeaf

/-!
# `Core.Correctness.Leaf` — when the selected leaf is the effective leaf

`status.leafId` is written in three places: the reducer writes it for an assistant's start and at the end
of a message, `applyEvent` adds what the effective leaf calls for, and `refresh` and `settle` select it.
The middle one looks at the document *before* the event's own operations are applied, so it never sees the
form the event creates, and the reducer's own writes go unchecked. The leaf is the effective leaf after
every step exactly as long as neither matters, which is what `LeafSafe` asks of an event.

Reads have to come from a list as pi keeps it (`PiList.WellFormed`): then a path cached for a leaf stays
right while the version does, and the leaf computed by a refresh is the effective one.
-/

namespace PiBridge

open Js Js.Value Lib Projection List Option Props

/-- A list as pi keeps it: ids are not reused, and parents and leaf are entries of the list. -/
structure PiList.WellFormed (pi : PiList) : Prop where
  nodup : (pi.entries.map fun e => e.id.val).Nodup
  closed : ∀ e ∈ pi.entries, ∀ c, e.parentId = some c → ∃ e' ∈ pi.entries, e'.id.val = c
  leaf : ∀ l, pi.leafId = some l → ∃ e ∈ pi.entries, e.id.val = l

/-- **The condition on an event** whose target is not sealed: an assistant starts on a leaf and as a new
    form; nothing else starts on one; and a message whose end is recorded is the leaf already. -/
def LeafSafe (p : Projection) (event : SessionLifecycleEvent) : Prop := p.targetsSealed event = false →
    match event with
    | .messageStart (some id) msg =>
      (get msg "role" = .str "assistant" → p.document.leafId ≠ none ∧ id.val ∉ p.live) ∧
      (get msg "role" = .str "user" → p.document.leafId = none)
    | .toolExecutionStart (some _) none _ _ => p.document.leafId = none
    | .messageEnd (some id) msg =>
      get msg "role" = .str "assistant" ∨ (p.document.entry? id).isSome → p.document.leafId = some id.val
    | _ => True

/-! ## Lists and the maps that hold them -/

/-- The map holds what the list puts into it. -/
def Holds (K : List SessionEntry) (m : Obj) : Prop := ∀ id v, installed? 0 K id = some v → m.get? id = some v

/-- Parents in the list are in the list. -/
def Closed (K : List SessionEntry) : Prop :=
  ∀ id v parent, installed? 0 K id = some v → parentIdOf v = some parent → (installed? 0 K parent).isSome

theorem holds_install (K : List SessionEntry) : Holds K (install [] 0 K) := by
  intro id v hv
  rw [get?_install, hv]; rfl

variable {es : List SessionEntry} {id : String} {v : Value} {K : List SessionEntry} {m : Obj} {leaf : Option String} {c : String}
  {ids : List String} {p : Projection} {name : String} {op : PatchOp} {ev : SessionLifecycleEvent} {p' : Projection}
  {out : Option Patch}

theorem exists_entry_of_installed? {ord : Nat} (h : installed? ord es id = some v) : ∃ e ∈ es, ∃ n, v = projectEntry e n := by
  obtain ⟨i, e, he, -, rfl⟩ := index_of_installed? h
  exact ⟨e, mem_of_getElem? he, ord + i, rfl⟩

theorem PiList.WellFormed.closed_entries {pi : PiList} (h : pi.WellFormed) : Closed pi.entries := by
  intro id v par hv hpar
  obtain ⟨e, he, n, rfl⟩ := exists_entry_of_installed? hv
  rw [parentIdOf_projectEntry] at hpar
  exact installed?_isSome.mpr (h.closed e he par hpar)

/-- Appending entries under new ids keeps what the list puts into a map. -/
theorem installed?_append_left (hnd : ((K ++ es).map fun e => e.id.val).Nodup) (h : installed? 0 K id = some v) :
    installed? 0 (K ++ es) id = some v := by
  have hnone : installed? (0 + K.length) es id = none := by
    rw [← not_isSome_iff_eq_none, installed?_isSome]
    rintro ⟨e, he, rfl⟩
    obtain ⟨e', he', hid⟩ := installed?_isSome.mp (isSome_of_eq_some h)
    rw [map_append] at hnd
    exact disjoint_of_nodup_append hnd (mem_map.mpr ⟨e', he', hid⟩) (mem_map.mpr ⟨e, he, rfl⟩)
  rw [installed?_append, hnone, none_or, h]

section

variable (hclo : Closed K) (hm : Holds K m)

include hclo hm

/-- **The path of a listed leaf stays in the list.** -/
theorem listed_of_onPath (hleaf : ∀ l, leaf = some l → (installed? 0 K l).isSome)
    (h : OnPath m leaf c) : (installed? 0 K c).isSome := by
  obtain ⟨l, hl, hpath⟩ := h
  induction hpath with
  | refl => exact hleaf l hl
  | tail _ hedge ih =>
    obtain ⟨v, hv⟩ := isSome_iff_exists.mp ih
    rw [parentAt, hm _ v hv] at hedge
    exact hclo _ v _ hv hedge

/-- Two maps that hold a list agree on the path of a listed leaf. -/
theorem onPath_of_holds {m' : Obj} (hm' : Holds K m')
    (hleaf : ∀ l, leaf = some l → (installed? 0 K l).isSome) (h : OnPath m leaf c) : OnPath m' leaf c := by
  obtain ⟨l, hl, hpath⟩ := h
  refine ⟨l, hl, ?_⟩
  induction hpath with
  | refl => exact Relation.ReflTransGen.refl
  | tail hreach hedge ih =>
    refine ih.tail ?_
    obtain ⟨v, hv⟩ := isSome_iff_exists.mp (listed_of_onPath hclo hm hleaf ⟨l, hl, hreach⟩)
    rw [parentAt, hm' _ v hv]
    rw [parentAt, hm _ v hv] at hedge
    exact hedge

theorem selectedOk_of_holds {m' : Obj} (hm' : Holds K m')
    (hleaf : ∀ l, leaf = some l → (installed? 0 K l).isSome) (h : SelectedOk m leaf ids) : SelectedOk m' leaf ids := by
  intro id
  rw [h id]
  exact ⟨onPath_of_holds hclo hm hm' hleaf, onPath_of_holds hclo hm' hm hleaf⟩

end

/-! ## The invariant -/

/-- `ids` is the path of `leaf` in the list. -/
def CachedIn (K : List SessionEntry) (leaf : Option String) (ids : List String) : Prop :=
  (∀ l, leaf = some l → (installed? 0 K l).isSome) ∧ SelectedOk (install [] 0 K) leaf ids

/-- The document selects the effective leaf, and everything its computation relies on is in place. `K` is
    the list as it was last read. -/
structure Anchored (p : Projection) (K : List SessionEntry) : Prop where
  position : p.position = K.length
  nodup : (K.map fun e => e.id.val).Nodup
  closed : Closed K
  piLeaf : ∀ l, p.piLeaf = some l → (installed? 0 K l).isSome
  /-- What the list installed is still there. -/
  holds : Holds K p.document.entries
  /-- A live form is not in the list, and has an entry. -/
  fresh : ∀ id ∈ p.live, installed? 0 K id = none
  present : ∀ id ∈ p.live, p.document.entries.has id = true
  /-- Entries are objects, and only live forms are unsealed. -/
  objects : ∀ id v, p.document.entries.get? id = some v → ∃ m, v = .obj m
  unsealed : ∀ id v, p.document.entries.get? id = some v → isEntrySealed v = false → id ∈ p.live
  /-- The cached path is the path of its leaf. -/
  cache : ∀ leaf ids, p.selectedPath = some (leaf, ids) → CachedIn K leaf ids
  leaf : p.document.leafId = theEffectiveLeaf p.live p.document.entries p.piLeaf

theorem Anchored.selectedOk (h : Anchored p K)
    (hcache : p.selectedPath = some (p.piLeaf, ids)) : SelectedOk p.document.entries p.piLeaf ids :=
  selectedOk_of_holds h.closed (holds_install K) h.holds h.piLeaf (h.cache _ ids hcache).2

/-- An id that is neither listed nor live has no entry, or a sealed one that no one owns. -/
theorem Anchored.not_listed_of_unsealed (h : Anchored p K)
    (hguard : ∀ v, p.document.entries.get? id = some v → isEntrySealed v = false) : installed? 0 K id = none := by
  cases hK : installed? 0 K id with
  | none => rfl
  | some v =>
    have hseal := hguard v (h.holds id v hK)
    rw [isEntrySealed_of_installed (installed_of_installed? hK)] at hseal
    exact Bool.noConfusion hseal

/-! ## Parents and entries under an event's operations -/

/-- An operation below a field of a missing entry creates a plain object, or nothing. -/
theorem opIn_missing {key : String} {rest : List String} (hkey : m.get? key = none) (hname : isDigits name = false) :
    opIn m key (name :: rest) op = m ∨ opIn m key (name :: rest) op = m.set key (.obj (opIn [] name rest op)) := by
  have hat : at_ m key = .undefined := by rw [at_, hkey]; rfl
  have hset : ∀ v, setIn m key (name :: rest) v = m.set key (.obj (setIn [] name rest v)) := by
    intro v
    rw [setIn, hat]
    show set m key (cloneSet (autoCreate (name :: rest)) (name :: rest) v) = _
    rw [autoCreate, if_neg (by rw [hname]; simp)]; rfl
  have hnoth : ∀ keys, getAt .undefined keys = .undefined := by
    intro keys
    cases keys <;> rfl
  cases op with
  | add _ _ | replace _ _ => exact Or.inr (hset _)
  | move _ _ => exact Or.inl rfl
  | append _ val _ =>
    right
    rw [opIn, hat, hnoth, opIn, at_nil, hnoth]
    exact hset _
  | remove _ =>
    left
    have hhas : has m key = false := by rw [← get?_isSome, hkey]; rfl
    rw [opIn, removeIn, hhas]; rfl

theorem isDigits_of_mem_liveFields (h : name ∈ liveFields) : isDigits name = false := by
  revert name; decide

/-- What an operation below a field does to an entry map: nothing, or the entry becomes an object that
    agrees with the old one (or with `{}`) on every other field. -/
theorem opIn_liveField (rest : List String) (hname : name ∈ liveFields) (hobj : ∀ v, m.get? id = some v → ∃ em, v = .obj em)
    (hmove : ∀ «from» path, op ≠ .move «from» path) : opIn m id (name :: rest) op = m ∨
    ∃ em', opIn m id (name :: rest) op = m.set id (.obj em') ∧ ((m.get? id = none ∧ ∀ k, k ≠ name → at_ em' k = .undefined) ∨
        ∃ em, m.get? id = some (.obj em) ∧ ∀ k, k ≠ name → at_ em' k = at_ em k) := by
  cases hget : m.get? id with
  | none =>
    rcases opIn_missing hget (isDigits_of_mem_liveFields hname) with h | h
    · exact Or.inl h
    · refine Or.inr ⟨_, h, Or.inl ⟨rfl, fun k hk => ?_⟩⟩
      rw [at_, get?_opIn_ne [] rest op (fun h => hk h.symm)]; rfl
  | some v =>
    obtain ⟨em, rfl⟩ := hobj v hget
    refine Or.inr ⟨_, opIn_below hget name rest op hmove, Or.inr ⟨em, rfl, fun k hk => ?_⟩⟩
    rw [at_, get?_opIn_ne em rest op (fun h => hk h.symm)]; rfl

/-- **Operations below a field move no parent.** -/
theorem parentAt_opIn {rest : List String} (hname : name ∈ liveFields) (hobj : ∀ v, m.get? id = some v → ∃ em, v = .obj em)
    (hmove : ∀ «from» path, op ≠ .move «from» path) (k : String) : parentAt (opIn m id (name :: rest) op) k = parentAt m k := by
  have hpar : "parentId" ≠ name := by rintro rfl; revert hname; decide
  rcases opIn_liveField rest hname hobj hmove with h | ⟨em', h, hrest⟩
  · rw [h]
  · rw [h, parentAt, get?_set]
    by_cases hk : id = k
    · subst hk
      rw [if_pos rfl]
      rcases hrest with ⟨hnone, hem⟩ | ⟨em, hsome, hem⟩
      · rw [parentAt, hnone]
        show (get (.obj em') "parentId").asStr? = none
        rw [get_obj, hem _ hpar]; rfl
      · rw [parentAt, hsome]
        show (get (.obj em') "parentId").asStr? = (get (.obj em) "parentId").asStr?
        rw [get_obj, hem _ hpar]; rfl
    · rw [if_neg hk]; rfl

/-- What an event's operations keep of an entry map: `before` is the map they start from. -/
structure Intact (K : List SessionEntry) (live : List String) (event : SessionLifecycleEvent)
    (before entries : Obj) : Prop where
  holds : Holds K entries
  objects : ∀ id v, entries.get? id = some v → ∃ m, v = .obj m
  unsealed : ∀ id v, entries.get? id = some v → isEntrySealed v = false → id ∈ live
  parents : event.isStart = false → ∀ id, parentAt entries id = parentAt before id

/-- Setting an object under an id the list does not have. -/
theorem intact_set {K : List SessionEntry} {live : List String} {ev : SessionLifecycleEvent}
    {bef ents : Obj} {id : String} {em : Obj} (h : Intact K live ev bef ents)
    (hid : installed? 0 K id = none) (hlive : isEntrySealed (.obj em) = false → id ∈ live)
    (hparents : ev.isStart = false → ∀ k, parentAt (ents.set id (.obj em)) k = parentAt bef k) :
    Intact K live ev bef (ents.set id (.obj em)) where
  holds := by
    intro k v hv
    have hne : id ≠ k := by
      rintro rfl
      rw [hid] at hv
      simp at hv
    rw [get?_set_ne _ _ hne]
    exact h.holds k v hv
  objects := by
    intro k v hv
    rw [get?_set] at hv
    split at hv
    · exact ⟨em, (some.inj hv).symm⟩
    · exact h.objects k v hv
  unsealed := by
    intro k v hv hunsl
    rw [get?_set] at hv
    split at hv
    · rename_i heq
      rw [← heq]
      exact hlive (some.inj hv ▸ hunsl)
    · exact h.unsealed k v hv hunsl
  parents := hparents

/-- One operation of an event keeps the entry map sound. -/
theorem intact_eventOp {doc₀ : Document} {live : List String} {bef : Obj} (hop : EventOp doc₀ ev op)
    (hid : ∀ id, ev.entryId = some id → installed? 0 K id = none)
    (hmade : ev.isStart = true → ∀ id, ev.entryId = some id → id.val ∈ live) :
    ∃ part key rest, Addresses op part key rest ∧ ∀ doc, Intact K live ev bef doc.entries →
        Intact K live ev bef (part.put doc (opIn (part.of doc) key rest op)).entries := by
  cases hop with
  | status hkey =>
    exact ⟨.status, _, _, addresses_statusPath (plain_of_mem_statusFields hkey) _, fun _ h => h⟩
  | @create id skeleton hent hsta hskeleton =>
    refine ⟨.entries, _, _, addresses_entryPath id _, fun doc h => ?_⟩
    obtain ⟨em, rfl⟩ := hskeleton.isObj
    refine intact_set h (hid id hent) (fun _ => hmade hsta id hent) fun hnot => ?_
    rw [hsta] at hnot
    exact Bool.noConfusion hnot
  | @field id name _ hent _ _ hname hpoints =>
    obtain ⟨rest, haddr⟩ := addresses_of_pointsAt (plain_of_mem_liveFields hname) hpoints
    refine ⟨.entries, _, _, haddr, fun doc h => ?_⟩
    show Intact K live ev bef (opIn doc.entries id.val (name :: rest) op)
    have hparents : ev.isStart = false → ∀ k, parentAt (opIn doc.entries id.val (name :: rest) op) k = parentAt bef k := by
      intro hsta k
      rw [parentAt_opIn hname (h.objects _) hpoints.2]
      exact h.parents hsta k
    rcases opIn_liveField rest hname (h.objects id.val) hpoints.2 with heq | ⟨em, heq, hrest⟩
    · rw [heq]
      exact h
    · rw [heq] at hparents ⊢
      refine intact_set h (hid id hent) (fun hunsl => ?_) hparents
      -- `isSealed` is not touched: an unsealed result was an unsealed entry
      rw [isEntrySealed, get_obj] at hunsl
      rcases hrest with ⟨-, hem⟩ | ⟨em₀, hsome, hem⟩
      · rw [hem _ (ne_isSealed_of_mem_liveFields hname).symm] at hunsl
        exact absurd hunsl (by decide)
      · rw [hem _ (ne_isSealed_of_mem_liveFields hname).symm] at hunsl
        exact h.unsealed _ _ hsome hunsl

/-! ## The leaf the reducer writes -/

/-- Operations below fields leave the status alone. -/
theorem status_applyPatch_fields {ops : Patch}
    (h : ∀ op ∈ ops, ∃ (id : EntryId) (name : String), name ∈ liveFields ∧ PointsAt (fieldPath id name) op)
    (doc : Document) : (applyPatch doc ops).status = doc.status := by
  refine applyPatch_induction (fun d => d.status = doc.status) (fun op hop => ?_) rfl
  obtain ⟨id, name, hname, hpoints⟩ := h op hop
  obtain ⟨rest, haddr⟩ := addresses_of_pointsAt (plain_of_mem_liveFields hname) hpoints
  exact ⟨.entries, _, _, haddr, fun _ h => h⟩

/-- Creating an entry leaves the leaf. -/
theorem leafId_create (doc : Document) (id : EntryId) (v : Value) : (applyPatch doc [.add (entryPath id) v]).leafId = doc.leafId := by
  rw [applyPatch_cons (addresses_entryPath id v), applyPatch_nil]; rfl

/-- The end of a message that records itself selects it. -/
theorem leafId_messageEnd (doc : Document) (id : EntryId) (msg : Value) : (applyPatch doc (messageEndOps doc id msg)).leafId =
      if get msg "role" = .str "assistant" ∨ (doc.entry? id).isSome then some id.val else doc.leafId := by
  have hleaf : ∀ d : Document, (applyPatch d [.replace (statusPath "leafId") (.str id)]).leafId = some id.val := by
    intro d
    show (at_ (set d.status "leafId" (.str id)) "leafId").asStr? = _
    rw [at_set_self]; rfl
  by_cases hrole : get msg "role" = .str "assistant"
  · rw [if_pos (Or.inl hrole), messageEndOps, if_pos hrole]
    rw [applyPatch_append]
    · exact hleaf _
    · intro op hop
      have hmem : op ∈ messageEndOps doc id msg := by
        rw [messageEndOps, if_pos hrole]
        exact mem_append.mpr (Or.inl hop)
      have hkind : EventOp doc (.messageEnd (some id) msg) op := eventOp_of_mem hmem
      exact hkind.scoped
  · rw [messageEndOps, if_neg hrole]
    cases hent : (doc.entry? id).isSome with
    | true =>
      rw [if_pos (Or.inr rfl)]
      exact hleaf doc
    | false =>
      rw [if_neg (by simp [hrole])]; rfl

/-- **An event that starts nothing leaves the leaf**, if a message whose end it records is the leaf. -/
theorem leafId_eventOps_of_not_start (hguard : (ev.isContent && p.targetsSealed ev) = false) (hsafe : LeafSafe p ev)
    (hsta : ev.isStart = false) : (applyPatch p.document (eventOps p.document ev)).leafId = p.document.leafId := by
  have hflds : ∀ (id : EntryId) {ops : Patch}, (∀ op ∈ ops, ∃ name ∈ liveFields, PointsAt (fieldPath id name) op) →
        (applyPatch p.document ops).leafId = p.document.leafId := by
    intro id ops h
    unfold Document.leafId
    rw [status_applyPatch_fields fun op hop => ⟨id, h op hop⟩]
  cases hcont : ev.isContent with
  | false =>
    obtain ⟨chgs, heq, hchgs⟩ := eventOps_of_not_content p.document hcont
    rw [heq, applyPatch_fieldOps fun c hc => (hchgs c hc).1]
    show (at_ (setFields _ _) "leafId").asStr? = _
    rw [at_setFields_ne fun c hc => (hchgs c hc).2.1]; rfl
  | true =>
    rw [hcont, Bool.true_and] at hguard
    have hsafe := hsafe hguard
    cases ev with
    | messageStart | toolExecutionStart => exact Bool.noConfusion hsta
    | agentStart | agentSettled | compactionStart | compactionEnd | thinkingLevelChanged | queueUpdate
    | sessionInfoChanged | entryAppended | other => exact Bool.noConfusion hcont
    | messageUpdate id? ame =>
      cases id? with
      | none => rfl
      | some id =>
        exact hflds id fun op hop => ⟨_, by decide, pointsAt_messageUpdateOps p.document id ame op hop⟩
    | messageEnd id? msg =>
      cases id? with
      | none => rfl
      | some id =>
        show (applyPatch p.document (messageEndOps p.document id msg)).leafId = _
        rw [leafId_messageEnd]
        split
        · rename_i hrecs
          exact (hsafe hrecs).symm
        · rfl
    | toolExecutionUpdate id? parent? partialResult =>
      cases id? with
      | none => rfl
      | some id =>
        cases parent? with
        | some _ => rfl
        | none => exact hflds id fun op hop => mem_toolExecutionUpdateOps hop
    | toolExecutionEnd id? parent? result isError durationMs =>
      cases id? with
      | none => rfl
      | some id =>
        cases parent? with
        | some _ => rfl
        | none =>
          refine hflds id fun op hop => ?_
          obtain ⟨name, hname, val, rfl⟩ := mem_toolExecutionEndOps hop
          exact ⟨name, hname, pointsAt_replace _ _⟩

/-! ## One step -/

section

variable (h : Anchored p K)

include h

/-- Nothing on the path of pi's leaf is live. -/
theorem Anchored.path_not_live (hc : OnPath p.document.entries p.piLeaf c) : c ∉ p.live := by
  intro hlive
  have hlist := listed_of_onPath h.closed h.holds h.piLeaf hc
  rw [h.fresh c hlive] at hlist
  exact Bool.noConfusion hlist

/-- A path that the code caches is right for the list as well. -/
theorem Anchored.cache_of_selectedPath {p₁ : Projection} (hpath : p₁.selectedPath = p.selectedPath ∨
      ∃ ids, p₁.selectedPath = some (p.piLeaf, ids) ∧ SelectedOk p.document.entries p.piLeaf ids) :
    ∀ leaf ids, p₁.selectedPath = some (leaf, ids) → CachedIn K leaf ids := by
  intro leaf ids heq
  rcases hpath with hsame | ⟨ids', hnew, hok⟩
  · exact h.cache leaf ids (hsame ▸ heq)
  · cases some.inj (hnew.symm.trans heq)
    exact ⟨h.piLeaf, selectedOk_of_holds h.closed h.holds (holds_install K) h.piLeaf hok⟩

/-- A target that is not sealed and not live has no entry. -/
theorem Anchored.no_entry {id : EntryId} (hguard : p.targetsSealed ev = false)
    (hid : ev.entryId = some id) (hfresh : id.val ∉ p.live) : p.document.entries.get? id = none := by
  cases hget : p.document.entries.get? id with
  | none => rfl
  | some v => exact absurd (h.unsealed id v hget (unsealed_of_guard hguard hid hget)) hfresh

/-- **An event computes the leaf the document already has**: the form it creates has no entry yet. -/
theorem Anchored.effectiveLeaf_event {p₁ : Projection} {mk : Option EntryId}
    (hmade : ∀ id, mk = some id → ∀ v, p.document.entries.get? id = some v → isEntrySealed v = false)
    (hleaf : effectiveLeaf { p with live := addLive p.live mk } p.document.entries = some (p₁, leaf)) :
    leaf = p.document.leafId ∧ (p₁.selectedPath = p.selectedPath ∨
      ∃ ids, p₁.selectedPath = some (p.piLeaf, ids) ∧ SelectedOk p.document.entries p.piLeaf ids) := by
  have hnot : ∀ c, OnPath p.document.entries p.piLeaf c → c ∉ addLive p.live mk := by
    intro c hc hmem
    rcases mem_addLive.mp hmem with hlive | ⟨id, hid, rfl⟩
    · exact h.path_not_live hc hlive
    · have hlist := listed_of_onPath h.closed h.holds h.piLeaf hc
      rw [h.not_listed_of_unsealed (hmade id hid)] at hlist
      exact Bool.noConfusion hlist
  have hcache : ∀ ids, ({ p with live := addLive p.live mk } : Projection).selectedPath
      = some (p.piLeaf, ids) → SelectedOk p.document.entries p.piLeaf ids := fun ids hids => h.selectedOk hids
  obtain ⟨heq, hpath⟩ := effectiveLeaf_eq hcache hnot hleaf
  refine ⟨heq.trans ?_, hpath⟩
  show theEffectiveLeaf (addLive p.live mk) p.document.entries p.piLeaf = _
  rw [h.leaf]
  cases mk with
  | none => rfl
  | some id =>
    rw [addLive]
    by_cases hlive : id.val ∈ p.live
    · rw [if_pos hlive]
    · rw [if_neg hlive]
      -- not live, so no entry: an unsealed one would be live
      have hnone : p.document.entries.get? id = none := by
        cases hget : p.document.entries.get? id with
        | none => rfl
        | some v => exact absurd (h.unsealed id v hget (hmade id rfl v hget)) hlive
      refine theEffectiveLeaf_append_orphan (by rw [parentAt, hnone]; rfl) fun hpath => ?_
      exact hnot id hpath (mem_addLive.mpr (Or.inr ⟨id, rfl, rfl⟩))

/-- With no leaf in the document, pi has none, and nothing is attached to anything. -/
theorem Anchored.rootless (hleaf : p.document.leafId = none) (live : List String) (ents : Obj) :
    theEffectiveLeaf live ents p.piLeaf = none := by
  have hnone : p.piLeaf = none := by
    rw [h.leaf] at hleaf
    exact (or_eq_none_iff.mp hleaf).2
  rw [hnone]
  exact theEffectiveLeaf_none live ents

/-- **A form created on the leaf is attached**, and being the last one it is the effective leaf. -/
theorem Anchored.extends
    {skeleton : Value} (hnone : p.document.entries.get? id = none) (hleaf : p.document.leafId ≠ none)
    (hpar : parentIdOf skeleton = p.document.leafId) (hholds : Holds K (p.document.entries.set id skeleton)) :
    theEffectiveLeaf (p.live ++ [id]) (p.document.entries.set id skeleton) p.piLeaf = some id := by
  obtain ⟨leaf, hleaf⟩ := ne_none_iff_exists'.mp hleaf
  obtain ⟨c, hc, hpath⟩ := attached_of_theEffectiveLeaf (h.leaf ▸ hleaf)
  have hparentAt : parentAt (p.document.entries.set id skeleton) id = some leaf := by
    rw [parentAt, get?_set_self]
    exact hpar.trans hleaf
  -- the chain of the old leaf is still there: none of its links starts at the new form
  have hkept : ∀ a b, a ∈ p.live ∧ parentAt p.document.entries a = some b →
      a ∈ p.live ++ [id] ∧ parentAt (p.document.entries.set id skeleton) a = some b := by
    rintro a b ⟨ha, hedge⟩
    refine ⟨mem_append_left _ ha, ?_⟩
    have hne : id ≠ a := by
      rintro rfl
      rw [parentAt, hnone] at hedge
      simp at hedge
    rw [parentAt, get?_set_ne _ _ hne]
    exact hedge
  have hattached : Attached (p.live ++ [id]) (p.document.entries.set id skeleton) p.piLeaf leaf :=
    ⟨c, Relation.ReflTransGen.mono hkept _ _ hc, onPath_of_holds h.closed h.holds hholds h.piLeaf hpath⟩
  apply theEffectiveLeaf_append
  exact attached_of_parent (mem_append_right _ (mem_singleton_self id)) hparentAt hattached

/-- The entries an event leaves behind. -/
theorem intact_applyEvent (hne : eventOps p.document ev ≠ [])
    (hlist : ∀ id, ev.entryId = some id → installed? 0 K id = none) :
    Intact K (addLive p.live (creates ev (eventOps p.document ev))) ev p.document.entries
      (applyPatch p.document (eventOps p.document ev)).entries := by
  refine applyPatch_induction (fun d => Intact K (addLive p.live (creates ev (eventOps p.document ev)))
    ev p.document.entries d.entries) (fun op hop => ?_) ?_
  · refine intact_eventOp (eventOp_of_mem hop) hlist fun hsta id hid => ?_
    rw [creates_of_isStart hsta hne, hid]
    exact mem_addLive.mpr (Or.inr ⟨id, rfl, rfl⟩)
  · exact
      { holds := h.holds
        objects := h.objects
        unsealed := fun id v hv hunsl => mem_addLive.mpr (Or.inl (h.unsealed id v hv hunsl))
        parents := fun _ _ => rfl }

/-- **The leaf an event leaves behind is the effective leaf.** -/
theorem leaf_applyEvent (hguard : (ev.isContent && p.targetsSealed ev) = false)
    (hne : eventOps p.document ev ≠ []) (hsafe : LeafSafe p ev)
    (haft : Intact K (addLive p.live (creates ev (eventOps p.document ev))) ev p.document.entries
      (applyPatch p.document (eventOps p.document ev)).entries) : (applyPatch p.document (eventOps p.document ev)).leafId
      = theEffectiveLeaf (addLive p.live (creates ev (eventOps p.document ev)))
          (applyPatch p.document (eventOps p.document ev)).entries p.piLeaf := by
  cases hsta : ev.isStart with
  | false =>
    have hcreates : creates ev (eventOps p.document ev) = none := by
      rw [← not_isSome_iff_eq_none, isSome_iff_exists]
      rintro ⟨id, hid⟩
      rw [(isStart_of_creates hid).1] at hsta
      exact Bool.noConfusion hsta
    rw [hcreates, leafId_eventOps_of_not_start hguard hsafe hsta, h.leaf]
    exact theEffectiveLeaf_of_parentAt fun id => (haft.parents hsta id).symm
  | true =>
    cases ev with
    | agentStart | agentSettled | compactionStart | compactionEnd | thinkingLevelChanged | queueUpdate
    | sessionInfoChanged | entryAppended | other | messageUpdate | messageEnd | toolExecutionUpdate
    | toolExecutionEnd => exact Bool.noConfusion hsta
    | messageStart id? msg =>
      cases id? with
      | none => exact absurd rfl hne
      | some id =>
        obtain ⟨hasst, huser⟩ := hsafe hguard
        by_cases hrole : get msg "role" = .str "user"
        · have hops : eventOps p.document (.messageStart (some id) msg)
              = [.add (entryPath id) (userMessageSkeleton id (at_ p.document.status "leafId") msg)] := by
            rw [eventOps, messageStartOps, if_pos hrole]
          rw [h.rootless (huser hrole), hops, leafId_create]
          exact huser hrole
        · by_cases hrole' : get msg "role" = .str "assistant"
          · obtain ⟨hleaf, hfresh⟩ := hasst hrole'
            have hops : eventOps p.document (.messageStart (some id) msg)
                = [.add (entryPath id) (assistantMessageSkeleton id (at_ p.document.status "leafId") msg),
                  .replace (statusPath "leafId") (.str id)] := by
              rw [eventOps, messageStartOps, if_neg hrole, if_pos hrole']
            have hcreates := creates_of_isStart rfl hne
            have hguard : p.targetsSealed (.messageStart (some id) msg) = false := hguard
            have hnone := h.no_entry hguard rfl hfresh
            have hdoc : applyPatch p.document (eventOps p.document (.messageStart (some id) msg))
                = { status := p.document.status.set "leafId" (.str id)
                    entries := p.document.entries.set id
                      (assistantMessageSkeleton id (at_ p.document.status "leafId") msg) } := by
              rw [hops, applyPatch_cons (addresses_entryPath id _), applyPatch_cons (addresses_statusPath (by decide) _)]; rfl
            rw [hcreates, hdoc]
            rw [hdoc] at haft
            have hlive : addLive p.live (some id) = p.live ++ [id.val] := if_neg hfresh
            show (at_ (set p.document.status "leafId" (.str id)) "leafId").asStr?
              = theEffectiveLeaf (addLive p.live (some id)) _ _
            rw [at_set_self, hlive, h.extends hnone hleaf rfl haft.holds]; rfl
          · refine absurd ?_ hne
            rw [eventOps, messageStartOps, if_neg hrole, if_neg hrole']
    | toolExecutionStart id? parent? toolCallId toolName =>
      cases id? with
      | none => exact absurd rfl hne
      | some id =>
        cases parent? with
        | some _ => exact absurd rfl hne
        | none =>
          have hleaf : p.document.leafId = none := hsafe hguard
          rw [h.rootless hleaf, eventOps, leafId_create]
          exact hleaf

/-- **An event under the condition keeps the selected leaf effective.** -/
theorem anchored_applyEvent (hsafe : LeafSafe p ev)
    (hstep : p.applyEvent ev = some (p', out)) : Anchored p' K := by
  rcases applyEvent_spec hstep with ⟨rfl, -⟩ | ⟨rfl, -⟩ | ⟨p₁, leaf, hguard, hne, hleaf, rfl, -⟩
  · exact h
  · exact h
  · have hunsl : ∀ id, ev.entryId = some id → ∀ v, p.document.entries.get? id = some v → isEntrySealed v = false := by
      intro id hid v hv
      rw [isContent_of_entryId hid, Bool.true_and] at hguard
      exact unsealed_of_guard hguard hid hv
    obtain ⟨heq, hpath⟩ := h.effectiveLeaf_event
      (fun id hid => hunsl id (isStart_of_creates hid).2) hleaf
    -- the leaf is the one the document has: the event's own operations are the whole patch
    have hnoLeafOp : leafOps p.document leaf = [] := if_pos heq.symm
    have hsame := effectiveLeaf_same hleaf
    have hlist : ∀ id, ev.entryId = some id → installed? 0 K id = none := fun id hid => h.not_listed_of_unsealed (hunsl id hid)
    have haft := intact_applyEvent h hne hlist
    have hselects := leaf_applyEvent h hguard hne hsafe haft
    have hcache := h.cache_of_selectedPath hpath
    rw [hnoLeafOp, append_nil]
    have hlive : p₁.live = addLive p.live (creates ev (eventOps p.document ev)) := by rw [hsame]
    have hpiLeaf : p₁.piLeaf = p.piLeaf := by rw [hsame]
    exact
      { position := by rw [hsame]; exact h.position
        nodup := h.nodup
        closed := h.closed
        piLeaf := by rw [hsame]; exact h.piLeaf
        holds := haft.holds
        fresh := fun id hid => by
          rcases mem_addLive.mp (hlive ▸ hid) with hid | ⟨eid, hcreate, rfl⟩
          · exact h.fresh id hid
          · exact hlist eid (isStart_of_creates hcreate).2
        present := fun id hid => by
          rcases mem_addLive.mp (hlive ▸ hid) with hid | ⟨eid, hcreate, rfl⟩
          · exact has_applyPatch_eventOps (fun op hop => eventOp_of_mem hop) (h.present id hid)
          · exact has_applyPatch_created (fun op hop => eventOp_of_mem hop) hcreate
        objects := haft.objects
        unsealed := fun id v hv hseal => hlive ▸ haft.unsealed id v hv hseal
        cache := hcache
        leaf := by
          show (applyPatch p.document (eventOps p.document ev)).leafId
            = theEffectiveLeaf p₁.live _ p₁.piLeaf
          rw [hlive, hpiLeaf]
          exact hselects }

end

/-! ## Reading and settling -/

/-- A cached path is the path in any map that holds the list. -/
theorem CachedIn.selectedOk (hclo : Closed K) (hm : Holds K m) (h : CachedIn K leaf ids) : SelectedOk m leaf ids :=
  selectedOk_of_holds hclo (holds_install K) hm h.1 h.2

/-- A path cached for a list stays right as the list grows. -/
theorem CachedIn.append (hclo : Closed K) (hnd : ((K ++ es).map fun e => e.id.val).Nodup) (h : CachedIn K leaf ids) :
    CachedIn (K ++ es) leaf ids := by
  constructor
  · intro l hl
    obtain ⟨v, hv⟩ := isSome_iff_exists.mp (h.1 l hl)
    exact isSome_of_eq_some (installed?_append_left hnd hv)
  · refine h.selectedOk hclo fun id v hv => ?_
    exact holds_install (K ++ es) id v (installed?_append_left hnd hv)

/-- The refreshed map holds the list after it. -/
theorem holds_refreshed (h : Anchored p K) (snap : EntrySnapshot) : Holds (listAfter p K snap) (p.refreshedEntries snap) := by
  intro id v hv
  rw [installed?_listAfter h.position] at hv
  rw [get?_refreshedEntries]
  cases hnew : installed? (p.baseOf snap) snap.entries id with
  | some v' =>
    have hsnap := (installed?_isSome_iff _ snap id).mp (isSome_of_eq_some hnew)
    rw [hnew] at hv
    rw [if_neg fun hr => (mem_removedIds.mp hr).2.2.1 hsnap]
    exact hv
  | none =>
    rw [hnew, none_or] at hv
    split at hv
    · simp at hv
    · rename_i hrew
      rw [if_neg fun hr => hrew (mem_removedIds.mp hr).1, none_or]
      exact h.holds id v hv

/-- What is in the refreshed map was installed by the snapshot or was there, and not installed. -/
theorem refreshed_cases {snap : EntrySnapshot} (h : (p.refreshedEntries snap).get? id = some v) :
    installed? (p.baseOf snap) snap.entries id = some v ∨ (p.document.entries.get? id = some v ∧ id ∉ snapshotIds snap) := by
  rw [get?_refreshedEntries] at h
  split at h
  · simp at h
  · rcases or_eq_some_iff.mp h with hnew | ⟨hnone, hold⟩
    · exact Or.inl hnew
    · refine Or.inr ⟨hold, ?_⟩
      rw [← installed?_isSome_iff (p.baseOf snap), hnone]
      simp

/-- **Reading keeps the selected leaf effective**, when what is read is a list as pi keeps it. -/
theorem anchored_refresh {snap : EntrySnapshot} (h : Anchored p K) (hnext : snap.next = (listAfter p K snap).length)
    (hnd : ((listAfter p K snap).map fun e => e.id.val).Nodup) (hclo : Closed (listAfter p K snap))
    (hlist : ∀ l, snap.leafId = some l → (installed? 0 (listAfter p K snap) l).isSome)
    (hstep : p.refresh snap = some (p', out)) : Anchored p' (listAfter p K snap) := by
  obtain ⟨hpos, -, hpiLeaf, hlive⟩ := refresh_bookkeeping hstep
  obtain ⟨p₁, leaf, s, hleaf, hstat, rfl, -⟩ := refresh_spec hstep
  have hholds := holds_refreshed h snap
  have hfresh : ∀ id ∈ p.refreshedLive snap, installed? 0 (listAfter p K snap) id = none := by
    intro id hid
    rw [installed?_listAfter h.position, (kept_of_mem_refreshedLive hid).1, none_or]
    split
    · rfl
    · exact h.fresh id (mem_refreshedLive.mp hid).1
  have hcache : ∀ leaf ids, (p.refreshedState snap).selectedPath = some (leaf, ids) → CachedIn (listAfter p K snap) leaf ids := by
    intro leaf ids hpath
    unfold refreshedState at hpath
    unfold listAfter at hnd ⊢
    split at hpath
    · simp at hpath
    · rename_i hrew
      rw [if_neg hrew] at hnd ⊢
      exact (h.cache leaf ids hpath).append h.closed hnd
  have hpathLive : ∀ c, OnPath (p.refreshedEntries snap) snap.leafId c → c ∉ p.refreshedLive snap := by
    intro c hc hmem
    have hlistedC := listed_of_onPath hclo hholds hlist hc
    rw [hfresh c hmem] at hlistedC
    exact Bool.noConfusion hlistedC
  obtain ⟨heq, hpath⟩ := effectiveLeaf_eq
    (fun ids hids => (hcache _ ids hids).selectedOk hclo hholds) hpathLive hleaf
  exact
    { position := hpos.trans hnext
      nodup := hnd
      closed := hclo
      piLeaf := fun l hl => hlist l (hpiLeaf.symm.trans hl)
      holds := hholds
      fresh := fun id hid => hfresh id (hlive ▸ hid)
      present := fun id hid => by
        have hid : id ∈ p.refreshedLive snap := hlive ▸ hid
        obtain ⟨hnew, hkept⟩ := kept_of_mem_refreshedLive hid
        show (p.refreshedEntries snap).has id = true
        rw [← get?_isSome, get?_refreshedEntries, if_neg hkept, hnew, none_or, get?_isSome]
        exact h.present id (mem_refreshedLive.mp hid).1
      objects := fun id v hv => by
        rcases refreshed_cases hv with hnew | ⟨hold, -⟩
        · obtain ⟨e, -, n, rfl⟩ := exists_entry_of_installed? hnew
          exact ⟨_, rfl⟩
        · exact h.objects id v hold
      unsealed := fun id v hv hunsl => by
        rcases refreshed_cases hv with hnew | ⟨hold, hsnap⟩
        · rw [isEntrySealed_of_installed (installed_of_installed? hnew)] at hunsl
          exact Bool.noConfusion hunsl
        · exact hlive ▸ mem_refreshedLive.mpr ⟨h.unsealed id v hold hunsl, hsnap⟩
      cache := fun leaf ids hids => by
        rcases hpath with hsame | ⟨ids', hnew, hok⟩
        · exact hcache leaf ids (hsame ▸ hids)
        · cases some.inj (hnew.symm.trans hids)
          exact ⟨hlist, selectedOk_of_holds hclo hholds (holds_install _) hlist hok⟩
      leaf := by
        show (at_ s.1 "leafId").asStr? = theEffectiveLeaf p₁.live (p.refreshedEntries snap) p₁.piLeaf
        rw [leafId_refreshStatus hstat, heq, hpiLeaf, hlive]; rfl }

/-- **Settling keeps the selected leaf effective.** -/
theorem anchored_settle (hkeys : WellKeyed p.document) (h : Anchored p K) (hstep : p.settle = some (p', out)) : Anchored p' K := by
  have hmem : ∀ id, id ∈ p.settledIds ↔ id ∈ p.live := fun id =>
    ⟨fun hid => (mem_filter.mp hid).1, fun hid => mem_filter.mpr ⟨hid, h.present id hid⟩⟩
  rcases settle_spec hstep with ⟨hnil, rfl, -⟩ | ⟨sts, ops, -, -, rfl, rfl, -⟩
  · have hlive : p.live = [] := by
      refine eq_nil_iff_forall_not_mem.mpr fun id hid => ?_
      have hsett := (hmem id).mpr hid
      rw [hnil] at hsett
      simp at hsett
    have hsame : { p with live := [] } = p := by rw [← hlive]
    rw [hsame]
    exact h
  · have hget : ∀ id v, (eraseAll p.document.entries p.settledIds).get? id = some v →
        id ∉ p.live ∧ p.document.entries.get? id = some v := by
      intro id v hv
      rw [get?_eraseAll] at hv
      split at hv
      · simp at hv
      · rename_i hnot
        exact ⟨fun hid => hnot ((hmem id).mpr hid), hv⟩
    rw [applyPatch_settleOps (plain_settledIds hkeys) sts]
    exact
      { position := h.position
        nodup := h.nodup
        closed := h.closed
        piLeaf := h.piLeaf
        holds := fun id v hv => by
          have hnot : id ∉ p.settledIds := by
            intro hid
            rw [h.fresh id ((hmem id).mp hid)] at hv
            simp at hv
          show (eraseAll p.document.entries p.settledIds).get? id = some v
          rw [get?_eraseAll, if_neg hnot]
          exact h.holds id v hv
        fresh := fun id hid => by simp at hid
        present := fun id hid => by simp at hid
        objects := fun id v hv => h.objects id v (hget id v hv).2
        unsealed := fun id v hv hunsl =>
          absurd (h.unsealed id v (hget id v hv).2 hunsl) (hget id v hv).1
        cache := h.cache
        leaf := leafId_settleChanges p sts }

/-! ## Runs -/

/-- The invariant of pi and its mirror together. -/
structure LeafInvariant (w : World) (K : List SessionEntry) : Prop where
  anchored : Anchored w.projection K
  hasRead : HasRead w K
  wellKeyed : WellKeyed w.projection.document
  wellFormed : w.pi.WellFormed

theorem anchored_start (pi : PiList) : Anchored (World.start pi).projection [] where
  position := rfl
  nodup := nodup_nil
  closed := fun id v par hv => by simp [installed?] at hv
  piLeaf := fun l hl => by simp [World.start, createEntryProjection] at hl
  holds := fun id v hv => by simp [installed?] at hv
  fresh := fun id hid => by simp [World.start, createEntryProjection] at hid
  present := fun id hid => by simp [World.start, createEntryProjection] at hid
  objects := fun id v hv => by simp [World.start, createEntryProjection, emptyDocument] at hv
  unsealed := fun id v hv => by simp [World.start, createEntryProjection, emptyDocument] at hv
  cache := fun leaf ids hids => by simp [World.start, createEntryProjection] at hids
  leaf := rfl

/-- A step under the condition, in a world where pi keeps its list well formed. -/
def LeafSafeStep (w : World) (a : WorldAction) (w' : World) : Prop := WorldStep LeafSafe w a w' ∧ w'.pi.WellFormed

/-- **One step keeps the invariant.** -/
theorem leafInvariant_step {w w' : World} {a : WorldAction} (h : LeafInvariant w K)
    (hstep : LeafSafeStep w a w') : LeafInvariant w' (a.lastRead w.pi K) := by
  obtain ⟨hstep, hformed⟩ := hstep
  have hread := hasRead_step h.hasRead hstep
  cases hstep with
  | append | replaceAll => exact ⟨h.anchored, hread, h.wellKeyed, hformed⟩
  | applyEvent hsafe hstep =>
    exact ⟨anchored_applyEvent h.anchored hsafe hstep, hread,
      wellKeyed_step h.wellKeyed (show ProjectionStep _ (.applyEvent _, _) _ from hstep), hformed⟩
  | settle hstep =>
    exact ⟨anchored_settle h.wellKeyed h.anchored hstep, hread,
      wellKeyed_step h.wellKeyed (show ProjectionStep _ (.settle, _) _ from hstep), hformed⟩
  | refreshFrom hstep =>
    obtain ⟨st, heq, hlist⟩ := refreshFrom_reads h.hasRead h.anchored.position
    have hanchored := anchored_refresh h.anchored (by rw [hlist]; rfl) (hlist ▸ h.wellFormed.nodup)
      (hlist ▸ h.wellFormed.closed_entries) (fun l hl => hlist ▸ installed?_isSome.mpr (h.wellFormed.leaf l hl))
      (heq.symm.trans hstep)
    rw [hlist] at hanchored
    exact ⟨hanchored, hread, wellKeyed_step h.wellKeyed (show ProjectionStep _ (.refreshFrom _, _) _ from hstep), hformed⟩

/-- **A run keeps the invariant.** -/
theorem leafInvariant_run {pi : PiList} {as : List WorldAction} {w : World} (hpi : pi.WellFormed)
    (hrun : Steps LeafSafeStep (World.start pi) as w) : ∃ K, LeafInvariant w K := by
  induction hrun with
  | refl => exact ⟨[], anchored_start pi, hasRead_start pi, wellKeyed_emptyDocument, hpi⟩
  | tail _ hstep ih =>
    obtain ⟨K, h⟩ := ih
    exact ⟨_, leafInvariant_step h hstep⟩

/-- **Leaf selection.** In every run whose events meet the condition, over a list that pi keeps well
    formed, the document selects the effective leaf after every step. -/
theorem leaf_is_effective {pi : PiList} {as : List WorldAction} {w : World} (hpi : pi.WellFormed)
    (hrun : Steps LeafSafeStep (World.start pi) as w) :
    w.projection.document.leafId
      = theEffectiveLeaf w.projection.live w.projection.document.entries w.projection.piLeaf := by
  obtain ⟨K, h⟩ := leafInvariant_run hpi hrun
  exact h.anchored.leaf

theorem wellFormed_examplePi : examplePi.WellFormed where
  nodup := nodup_singleton _
  closed := by
    intro e he c hc
    obtain rfl := mem_singleton.mp he
    have hroot : exampleEntry.parentId = none := rfl
    rw [hroot] at hc
    simp at hc
  leaf := by
    intro l hl
    exact ⟨exampleEntry, mem_singleton_self _, some.inj hl⟩

/-- The start of a message of this role, under a fresh id. -/
def startAs (role : String) : SessionLifecycleEvent := .messageStart (some exampleId) (.obj [("role", .str role), ("content", .str "more")])

/-- What reading the example list and then starting a message leaves of the selection. -/
theorem start_after_read (role leaf : String)
    (hcompute : ((createEntryProjection emptyDocument).refreshFrom examplePi.readEntries).bind
        (fun r => (r.1.applyEvent (startAs role)).map fun r' =>
          ([r.1.live, r'.1.live], [r.1.document.leafId, r'.1.document.leafId, r'.1.piLeaf, parentAt r'.1.document.entries "4f1c09ab"]))
      = some ([[], ["4f1c09ab"]], [some "7d20e1f4", some leaf, some "7d20e1f4", some "7d20e1f4"])) :
    ∃ p p' out out', (World.start examplePi).projection.refreshFrom examplePi.readEntries = some (p, out) ∧
      p.applyEvent (startAs role) = some (p', out') ∧
      p.live = [] ∧ p.document.leafId = some "7d20e1f4" ∧ p'.document.leafId = some leaf ∧
      p'.live = ["4f1c09ab"] ∧
      theEffectiveLeaf p'.live p'.document.entries p'.piLeaf = some "4f1c09ab" := by
  obtain ⟨⟨p, out⟩, hread, hmap⟩ := bind_eq_some_iff.mp hcompute
  obtain ⟨⟨p', out'⟩, hsta, heq⟩ := map_eq_some_iff.mp hmap
  simp only [Prod.mk.injEq, cons.injEq, and_true] at heq
  obtain ⟨⟨hlive, hlive'⟩, hleaf, hleaf', hpiLeaf, hpar⟩ := heq
  refine ⟨p, p', out, out', hread, hsta, hlive, hleaf, hleaf', hlive', ?_⟩
  rw [hlive', hpiLeaf]
  have hattached : Attached ([] ++ ["4f1c09ab"]) p'.document.entries (some "7d20e1f4") "4f1c09ab" :=
    attached_of_parent (mem_singleton_self _) hpar (attached_of_onPath (onPath_leaf _ _))
  exact theEffectiveLeaf_append hattached

/-- An assistant that starts on pi's leaf is the effective leaf, and selected. -/
theorem leaf_is_effective_assistant : ∃ p : Projection, p.live = ["4f1c09ab"] ∧
    p.document.leafId = theEffectiveLeaf p.live p.document.entries p.piLeaf := by
  obtain ⟨p, p', out, out', hread, hstart, hlive, hleaf, -, hlive', -⟩ := start_after_read "assistant" "4f1c09ab" (by decide)
  have hsafe : LeafSafe p (startAs "assistant") := by
    intro _
    refine ⟨fun _ => ⟨?_, ?_⟩, fun hrole => ?_⟩
    · rw [hleaf]
      simp
    · rw [hlive]
      simp
    · exact absurd hrole (by decide : ¬ get (.obj [("role", .str "assistant"), ("content", .str "more")]) "role"
        = .str "user")
  refine ⟨p', hlive', ?_⟩
  have hrun : Steps LeafSafeStep (World.start examplePi) [.refreshFrom, .applyEvent (startAs "assistant")]
      ⟨examplePi, p'⟩ :=
    (Steps.single ⟨WorldStep.refreshFrom hread, wellFormed_examplePi⟩).tail
      ⟨WorldStep.applyEvent hsafe hstart, wellFormed_examplePi⟩
  exact leaf_is_effective wellFormed_examplePi hrun

/-- **A user's message is not selected when it starts**: the leaf stays where it was, although the message
    extends it. -/
theorem user_start_is_not_selected : ∃ (as : List WorldAction) (w : World), examplePi.WellFormed ∧
    Steps (WorldStep fun _ _ => True) (World.start examplePi) as w ∧
      w.projection.document.leafId = some "7d20e1f4" ∧
      theEffectiveLeaf w.projection.live w.projection.document.entries w.projection.piLeaf
        = some "4f1c09ab" := by
  obtain ⟨p, p', out, out', hread, hstart, -, -, hleaf', -, heffective⟩ := start_after_read "user" "7d20e1f4" (by decide)
  have hrun : Steps (WorldStep fun _ _ => True) (World.start examplePi)
      [.refreshFrom, .applyEvent (startAs "user")] ⟨examplePi, p'⟩ :=
    (Steps.single (WorldStep.refreshFrom hread)).tail (WorldStep.applyEvent trivial hstart)
  exact ⟨_, _, wellFormed_examplePi, hrun, hleaf', heffective⟩

end PiBridge
