import PiBridge.Core.Correctness.Convergence
import PiBridge.Core.Sync

/-!
# `Core.Correctness.InitialSync` — a valid cursor saves bytes and nothing else

A client that kept the first entries of an append-only list, and applies the patch a valid cursor earns it,
holds what the full frame would have given it.

Both paths put the same value under each id, and the proof is by id: an entry of the client's prefix, an
entry of the suffix, a live form not stored yet, and anything else, which neither path has.
-/

namespace PiBridge

open Js Js.Value Lib Projection List Props

/-- The canonical document of a list: an entry of the list that is sealed is its projection. -/
structure Canonical (doc : Document) (piEntries : List SessionEntry) : Prop where
  keys : ∀ k ∈ doc.entries.keys, EntryId.Valid k
  nodup : doc.entries.keys.Nodup
  projected : ∀ i entry v, piEntries[i]? = some entry → doc.entry? entry.id = some v → isEntrySealed v = true → v = projectEntry entry i

namespace Canonical

variable {doc : Document} {piEntries : List SessionEntry}

/-- What travels for a listed entry is its projection. -/
theorem committedBase_eq (h : Canonical doc piEntries) {i : Nat} {e : SessionEntry}
    (hent : piEntries[i]? = some e) : committedBase doc e i = projectEntry e i := by
  unfold committedBase
  split
  · rename_i existing hexisting
    split
    · rename_i hseal
      exact h.projected i e existing hent hexisting hseal
    · rfl
  · rfl

theorem mem_collectCommitted (h : Canonical doc piEntries) {c : CommittedProjection} :
    c ∈ collectCommitted doc piEntries ↔ ∃ i e, piEntries[i]? = some e ∧ c = ⟨e.id, i, stripLazyFields (projectEntry e i)⟩ := by
  rw [PiBridge.mem_collectCommitted]
  constructor
  · rintro ⟨i, e, hent, rfl⟩
    exact ⟨i, e, hent, by rw [h.committedBase_eq hent]⟩
  · rintro ⟨i, e, hent, rfl⟩
    exact ⟨i, e, hent, by rw [h.committedBase_eq hent]⟩

end Canonical

variable {piEntries : List SessionEntry} {sessionId : String}

theorem index_unique (hids : (piEntries.map fun e => e.id.val).Nodup)
    {i j : Nat} {e e' : SessionEntry} (hi : piEntries[i]? = some e) (hj : piEntries[j]? = some e')
    (hid : e.id.val = e'.id.val) : i = j := by
  have hlt : i < (piEntries.map fun e => e.id.val).length := by
    rw [length_map]
    exact (List.getElem?_eq_some_iff.mp hi).1
  refine (getElem?_inj hlt hids).mp ?_
  rw [getElem?_map, getElem?_map, hi, hj]
  exact congrArg some hid

/-! ## What a client kept -/

theorem keys_cachedRecords (sessionId : String) (piEntries : List SessionEntry) (n : Nat) :
    ((cachedRecords sessionId piEntries n).map fun r => (r.entryId, r.entry)).map Prod.fst
      = (piEntries.take n).map fun e => e.id.val := by
  unfold cachedRecords
  rw [map_map, map_map]
  conv_rhs => rw [← zipIdx_map_fst 0 (piEntries.take n), map_map]
  rfl

theorem at_seedEntries {n : Nat} (hids : (piEntries.map fun e => e.id.val).Nodup) {i : Nat} {ent : SessionEntry} (hi : i < n)
    (hent : piEntries[i]? = some ent) :
    at_ (seedEntries (cachedRecords sessionId piEntries n)) ent.id = entryForCache (projectEntry ent i) := by
  have hmem : (⟨sessionId, i, ent.id, entryForCache (projectEntry ent i)⟩ : CacheEntryRecord)
      ∈ cachedRecords sessionId piEntries n := mem_cachedRecords.mpr ⟨i, ent, hi, hent, rfl⟩
  have hnd : (((cachedRecords sessionId piEntries n).map fun r => (r.entryId, r.entry)).map Prod.fst).Nodup := by
    rw [keys_cachedRecords]
    exact hids.sublist ((take_sublist n piEntries).map _)
  rw [seedEntries, sorted_cachedRecords]
  exact at_of_get? (get?_setAll_of_mem hnd (mem_map.mpr ⟨_, hmem, rfl⟩))

theorem at_seedEntries_of_not_kept {n : Nat} {id : String}
    (h : ∀ i e, i < n → piEntries[i]? = some e → e.id.val ≠ id) :
    at_ (seedEntries (cachedRecords sessionId piEntries n)) id = .undefined := by
  rw [seedEntries, sorted_cachedRecords, at_, get?_setAll_of_not_mem]
  · rfl
  · intro p hp
    obtain ⟨r, hr, rfl⟩ := mem_map.mp hp
    obtain ⟨i, e, hi, hent, rfl⟩ := mem_cachedRecords.mp hr
    exact h i e hi hent

/-! ## The two paths -/

section

variable {doc : Document} {piEntries : List SessionEntry}

/-- The assignments of the committed entries. -/
def committedPairs (cs : List CommittedProjection) : List (String × Value) := cs.map fun c => (c.id.val, c.value)

theorem nodup_committedPairs (hids : (piEntries.map fun e => e.id.val).Nodup) {cs : List CommittedProjection}
    (hcs : List.Sublist cs (collectCommitted doc piEntries)) : ((committedPairs cs).map Prod.fst).Nodup := by
  have hkeys : (committedPairs cs).map Prod.fst = cs.map fun c => c.id.val := by
    rw [committedPairs, map_map]; rfl
  rw [hkeys]
  refine Nodup.sublist (hcs.map _) ?_
  rw [map_id_collectCommitted]
  exact hids

theorem nodup_collectProvisional (h : Canonical doc piEntries) : ((collectProvisional doc).map Prod.fst).Nodup :=
  h.nodup.sublist (sublist_keys_collectProvisional doc)

theorem valid_of_mem_collectProvisional (h : Canonical doc piEntries) {p : String × Value}
    (hp : p ∈ collectProvisional doc) : EntryId.Valid p.1 :=
  h.keys p.1 ((sublist_keys_collectProvisional doc).subset (mem_map.mpr ⟨p, hp, rfl⟩))

/-- The entries of the full frame. -/
def fullEntries (doc : Document) (piEntries : List SessionEntry) : Obj :=
  setMissing (Props.setAll [] (committedPairs (collectCommitted doc piEntries))) (collectProvisional doc)

/-- The committed entries a client with `n` entries misses. -/
def missingAfter (doc : Document) (piEntries : List SessionEntry) (n : Nat) : List CommittedProjection :=
  (collectCommitted doc piEntries).filter fun c => (n : Rat) ≤ c.ord

theorem sublist_missingAfter (doc : Document) (piEntries : List SessionEntry) (n : Nat) :
    List.Sublist (missingAfter doc piEntries n) (collectCommitted doc piEntries) := filter_sublist

variable {n : Nat} {sessionId : String} {mine : Obj}

theorem mem_missingAfter {c : CommittedProjection} : c ∈ missingAfter doc piEntries n ↔ c ∈ collectCommitted doc piEntries ∧ n ≤ c.ord := by
  rw [missingAfter, mem_filter, decide_eq_true_eq, Rat.natCast_le_natCast]

/-- The live forms that are not stored yet. -/
def inFlight (doc : Document) (piEntries : List SessionEntry) : Obj :=
  (collectProvisional doc).filter fun p => p.1 ∉ (collectCommitted doc piEntries).map fun c => c.id.val

/-- The entries of a client after the patch. -/
def patchedEntries (doc : Document) (piEntries : List SessionEntry) (n : Nat) (mine : Obj) : Obj :=
  (mine.setAll (committedPairs (missingAfter doc piEntries n))).setAll (inFlight doc piEntries)

theorem mem_inFlight {p : String × Value} : p ∈ inFlight doc piEntries ↔
    p ∈ collectProvisional doc ∧ p.1 ∉ piEntries.map fun e => e.id.val := by
  rw [inFlight, mem_filter, map_id_collectCommitted, decide_eq_true_eq]

section

variable (h : Canonical doc piEntries)

include h

/-- Both paths put an entry's projection under the id of a listed entry. -/
theorem at_of_listed (hids : (piEntries.map fun e => e.id.val).Nodup)
    (hmine : SameObj mine (seedEntries (cachedRecords sessionId piEntries n))) {i : Nat} {ent : SessionEntry}
    (hent : piEntries[i]? = some ent) : at_ (fullEntries doc piEntries) ent.id = stripLazyFields (projectEntry ent i) ∧
      Same (at_ (patchedEntries doc piEntries n mine) ent.id) (stripLazyFields (projectEntry ent i)) := by
  have hcommitted : (⟨ent.id, i, stripLazyFields (projectEntry ent i)⟩ : CommittedProjection)
      ∈ collectCommitted doc piEntries := h.mem_collectCommitted.2 ⟨i, ent, hent, rfl⟩
  constructor
  · have hat : at_ (setAll [] (committedPairs (collectCommitted doc piEntries))) ent.id
        = stripLazyFields (projectEntry ent i) :=
      at_of_get? (get?_setAll_of_mem (nodup_committedPairs hids (Sublist.refl _))
        (mem_map.mpr ⟨_, hcommitted, rfl⟩))
    rw [fullEntries, at_setMissing_of_present (by rw [hat]; rfl), hat]
  · have hsto : ∀ p ∈ inFlight doc piEntries, p.1 ≠ ent.id.val := by
      intro p hp heq
      exact (mem_inFlight.1 hp).2 (heq ▸ mem_map.mpr ⟨ent, mem_of_getElem? hent, rfl⟩)
    rw [patchedEntries, at_, get?_setAll_of_not_mem hsto, ← at_]
    by_cases hi : n ≤ i
    · -- the client misses it, and the patch adds it
      have hmiss : (⟨ent.id, i, stripLazyFields (projectEntry ent i)⟩ : CommittedProjection)
          ∈ missingAfter doc piEntries n :=
        mem_missingAfter.2 ⟨hcommitted, hi⟩
      have hat : at_ (mine.setAll (committedPairs (missingAfter doc piEntries n))) ent.id
          = stripLazyFields (projectEntry ent i) :=
        at_of_get? (get?_setAll_of_mem (nodup_committedPairs hids (sublist_missingAfter doc piEntries n))
          (mem_map.mpr ⟨_, hmiss, rfl⟩))
      rw [hat]
    · -- the client kept it
      have hkept : ∀ p ∈ committedPairs (missingAfter doc piEntries n), p.1 ≠ ent.id.val := by
        rintro p hp heq
        obtain ⟨c, hc, rfl⟩ := mem_map.mp hp
        obtain ⟨hmem, hord⟩ := mem_missingAfter.1 hc
        obtain ⟨j, e, hj, rfl⟩ := h.mem_collectCommitted.1 hmem
        obtain rfl := index_unique hids hj hent heq
        exact hi hord
      rw [at_, get?_setAll_of_not_mem hkept, ← at_]
      refine ((sameObj_iff.mp hmine) ent.id).trans ?_
      rw [at_seedEntries hids (Nat.lt_of_not_le hi) hent]
      exact entryForCache_projectEntry ent i

/-- Both paths put the same live form, or nothing, under any other id. -/
theorem at_of_not_listed
    (hmine : SameObj mine (seedEntries (cachedRecords sessionId piEntries n))) {id : String}
    (hid : id ∉ piEntries.map fun e => e.id.val) :
    Same (at_ (patchedEntries doc piEntries n mine) id) (at_ (fullEntries doc piEntries) id) := by
  have hlist : ∀ c ∈ collectCommitted doc piEntries, c.id.val ≠ id := by
    rintro c hc rfl
    rw [← map_id_collectCommitted doc] at hid
    exact hid (mem_map.mpr ⟨c, hc, rfl⟩)
  have hpairs : ∀ {cs : List CommittedProjection}, cs ⊆ collectCommitted doc piEntries → ∀ p ∈ committedPairs cs, p.1 ≠ id := by
    intro cs hcs p hp
    obtain ⟨c, hc, rfl⟩ := mem_map.mp hp
    exact hlist c (hcs hc)
  have hundefined : at_ (setAll [] (committedPairs (collectCommitted doc piEntries))) id = .undefined := by
    rw [at_, get?_setAll_of_not_mem (hpairs (Subset.refl _))]; rfl
  by_cases hlive : ∃ p ∈ collectProvisional doc, p.1 = id
  · obtain ⟨p, hp, rfl⟩ := hlive
    have hflight : p ∈ inFlight doc piEntries := mem_inFlight.2 ⟨hp, hid⟩
    have hnd : ((inFlight doc piEntries).map Prod.fst).Nodup := (nodup_collectProvisional h).sublist (filter_sublist.map _)
    rw [patchedEntries, at_of_get? (get?_setAll_of_mem hnd hflight), fullEntries,
      at_setMissing_of_mem (nodup_collectProvisional h) hp hundefined]
  · have hnone : ∀ p ∈ collectProvisional doc, p.1 ≠ id := fun p hp heq => hlive ⟨p, hp, heq⟩
    have hflight : ∀ p ∈ inFlight doc piEntries, p.1 ≠ id := fun p hp => hnone p (mem_inFlight.1 hp).1
    rw [patchedEntries, at_, get?_setAll_of_not_mem hflight,
      get?_setAll_of_not_mem (hpairs (sublist_missingAfter doc piEntries n).subset), ← at_, fullEntries,
      at_setMissing_of_not_mem hnone, hundefined]
    have hkept : at_ (seedEntries (cachedRecords sessionId piEntries n)) id = .undefined :=
      at_seedEntries_of_not_kept fun i ent _ hent heq =>
        hid (mem_map.mpr ⟨ent, mem_of_getElem? hent, heq⟩)
    exact hkept ▸ (sameObj_iff.mp hmine) id

/-- **By id, both paths agree.** -/
theorem sameObj_patchedEntries (hids : (piEntries.map fun e => e.id.val).Nodup)
    (hmine : SameObj mine (seedEntries (cachedRecords sessionId piEntries n))) :
    SameObj (patchedEntries doc piEntries n mine) (fullEntries doc piEntries) := by
  rw [sameObj_iff]
  intro id
  by_cases hid : id ∈ piEntries.map fun e => e.id.val
  · obtain ⟨ent, hmem, rfl⟩ := mem_map.mp hid
    obtain ⟨i, hent⟩ := mem_iff_getElem?.mp hmem
    obtain ⟨hfull, hpatched⟩ := at_of_listed h hids hmine hent
    rw [hfull]
    exact hpatched
  · exact at_of_not_listed h hmine hid

end

end

/-- A valid cursor counts a number of entries. -/
theorem entryCount_of_valid {cursor : PrefixCursor} (h : validateCursor piEntries cursor sessionId = true) :
    cursor.entryCount = ((cursor.entryCount.num.toNat : Nat) : Rat) := by
  simp only [validateCursor, decide_eq_true_eq] at h
  obtain ⟨-, hint, hpos, -⟩ := h
  have hnum : cursor.entryCount = (cursor.entryCount.num : Rat) := (Rat.den_eq_one_iff _).mp (by simpa [isInteger] using hint) |>.symm
  have hnonneg : 0 ≤ cursor.entryCount.num := Rat.num_nonneg.mpr (Rat.le_of_lt hpos)
  rw [← Rat.intCast_natCast, Int.toNat_of_nonneg hnonneg]
  exact hnum

/-- The number of entries a cursor counts. -/
def PrefixCursor.length (cursor : PrefixCursor) : Nat := cursor.entryCount.num.toNat

theorem buildInitialSync_none (doc : Document) (piEntries : List SessionEntry) (sess : SessionRef) :
    buildInitialSync doc piEntries sess none
      = .replace sess { status := doc.status, entries := fullEntries doc piEntries } := rfl

theorem buildInitialSync_valid (doc : Document) {sess : SessionRef}
    {cursor : PrefixCursor} (h : validateCursor piEntries cursor sess.sessionId = true) :
    buildInitialSync doc piEntries sess (some cursor) = .patch sess (addOps (committedPairs (missingAfter doc piEntries cursor.length)) ++
        addOps (inFlight doc piEntries) ++ [PatchOp.replace "/status" (.obj doc.status)]) := by
  have hvald : (some cursor).filter (fun c => validateCursor piEntries c sess.sessionId) = some cursor := by
    rw [Option.filter_some, if_pos h]
  have hmiss : (collectCommitted doc piEntries).filter (fun c => cursor.entryCount ≤ c.ord)
      = missingAfter doc piEntries cursor.length := by
    rw [missingAfter, PrefixCursor.length, ← entryCount_of_valid h]
  unfold buildInitialSync
  rw [hvald]
  dsimp only
  rw [hmiss]; rfl

/-- What a client holds after the patch of a valid cursor. -/
theorem applyPatch_initialSync {doc : Document} (h : Canonical doc piEntries) (mine : Document) (n : Nat) :
    applyPatch mine (addOps (committedPairs (missingAfter doc piEntries n)) ++ addOps (inFlight doc piEntries) ++
        [PatchOp.replace "/status" (.obj doc.status)])
      = { status := doc.status, entries := patchedEntries doc piEntries n mine.entries } := by
  have hcommitted : ∀ p ∈ committedPairs (missingAfter doc piEntries n), EntryId.Valid p.1 := by
    intro p hp
    obtain ⟨c, -, rfl⟩ := mem_map.mp hp
    exact c.id.valid
  have hlive : ∀ p ∈ inFlight doc piEntries, EntryId.Valid p.1 := fun p hp => valid_of_mem_collectProvisional h (mem_inFlight.1 hp).1
  have hscoped : ∀ op ∈ addOps (committedPairs (missingAfter doc piEntries n)) ++ addOps (inFlight doc piEntries), Scoped op := by
    intro op hop
    rcases mem_append.mp hop with hop | hop
    · exact scoped_addOps hcommitted op hop
    · exact scoped_addOps hlive op hop
  rw [applyPatch_append hscoped, applyPatch_append (scoped_addOps hcommitted), applyPatch_addOps hcommitted,
    applyPatch_addOps hlive, applyPatch_status]; rfl

/-- **The two initial-sync paths agree.** A client that holds the cached projections of the entries its
    valid cursor counts, and applies the patch that cursor earns, holds a document structurally equal to
    the one the full frame carries. -/
theorem initial_sync_paths_agree {doc : Document} {piEntries : List SessionEntry} {session : SessionRef}
    {cursor : PrefixCursor} {mine : Document} (hcanonical : Canonical doc piEntries)
    (hids : (piEntries.map fun e => e.id.val).Nodup)
    (hvalid : validateCursor piEntries cursor session.sessionId = true)
    (hmine : SameObj mine.entries (seedEntries (cachedRecords session.sessionId piEntries cursor.length))) :
    ∃ ops full, buildInitialSync doc piEntries session (some cursor) = .patch session ops ∧
      buildInitialSync doc piEntries session none = .replace session full ∧
      Same (applyPatch mine ops).toValue full.toValue ∧ (applyPatch mine ops).status = full.status := by
  refine ⟨_, _, buildInitialSync_valid doc hvalid, buildInitialSync_none doc piEntries session, ?_, ?_⟩
  · rw [applyPatch_initialSync hcanonical]
    exact Document.same_toValue rfl (sameObj_patchedEntries hcanonical hids hmine)
  · rw [applyPatch_initialSync hcanonical]

/-- A session whose list holds the example entry, and a client that kept it. -/
def exampleSession : SessionRef := ⟨"p", "s", "stem"⟩

def exampleCursor : PrefixCursor := ⟨"s", "7d20e1f4", 1⟩

/-- A document in which an assistant's message is streaming, and nothing is stored yet. -/
def streaming : Document :=
  { status := [("leafId", .str "4f1c09ab")]
    entries := [("4f1c09ab", assistantMessageSkeleton "4f1c09ab" .null (.obj []))] }

/-- The client of the example entry gets the live form, and the same document as from scratch. -/
theorem initial_sync_paths_agree_example :
    ∃ ops full, buildInitialSync streaming [exampleEntry] exampleSession (some exampleCursor)
        = .patch exampleSession ops ∧
      buildInitialSync streaming [exampleEntry] exampleSession none = .replace exampleSession full ∧
      Same (applyPatch { status := [], entries := seedEntries (cachedRecords "s" [exampleEntry] 1) } ops).toValue
        full.toValue ∧
      (applyPatch { status := [], entries := seedEntries (cachedRecords "s" [exampleEntry] 1) } ops).status
        = full.status := by
  have hcanonical : Canonical streaming [exampleEntry] :=
    { keys := by decide
      nodup := by decide
      projected := by
        intro i entry v hentry hv _
        obtain rfl := mem_singleton.mp (mem_of_getElem? hentry)
        have hnone : streaming.entry? exampleEntry.id = none := by decide
        rw [hnone] at hv
        simp at hv }
  exact initial_sync_paths_agree hcanonical (nodup_singleton _) (by decide) rfl

/-! ## The documents of a run are canonical -/

end PiBridge
