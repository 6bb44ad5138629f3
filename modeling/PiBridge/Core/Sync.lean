import PiBridge.Core.Cache

/-!
# `Core.Sync` — one frame that brings a client up to date

`buildInitialSync` turns the canonical document and pi's list into one frame: a patch with what is missing
after the client's prefix when its cursor is valid, and the whole document otherwise.
-/

namespace PiBridge

open Js Js.Value List

/-- Which session a frame is about. -/
structure SessionRef where
  projectId : String
  sessionId : String
  stem : String

/-- The frame of an initial sync. -/
inductive InitialSyncFrame where
  | replace (session : SessionRef) (document : Document)
  | patch (session : SessionRef) (ops : Patch)

/-- `piEntries[n - 1]` for a positive integer `n`. -/
def anchorOf (piEntries : List SessionEntry) (entryCount : Rat) : Option SessionEntry := piEntries[entryCount.num.toNat - 1]?

/-- `validateCursor`. -/
def validateCursor (piEntries : List SessionEntry) (cursor : PrefixCursor) (sessionId : String) : Bool :=
  cursor.sessionId = sessionId ∧ isInteger cursor.entryCount ∧ 0 < cursor.entryCount ∧
    cursor.entryCount ≤ piEntries.length ∧
    (anchorOf piEntries cursor.entryCount).map (·.id.val) = some cursor.lastKnownId

/-- A committed entry on its way to a client. -/
structure CommittedProjection where
  id : EntryId
  ord : Nat
  value : Value

/-- `existing !== undefined && isEntrySealed(existing) ? existing : projectEntry(piEntry, i)`. -/
def committedBase (doc : Document) (piEntry : SessionEntry) (i : Nat) : Value :=
  match doc.entry? piEntry.id with
  | some existing => if isEntrySealed existing then existing else projectEntry piEntry i
  | none => projectEntry piEntry i

/-- `collectCommitted`: committed entries in file order, lazy fields stripped. -/
def collectCommitted (doc : Document) (piEntries : List SessionEntry) : List CommittedProjection :=
  piEntries.zipIdx.map fun p =>
    { id := p.1.id, ord := p.2, value := stripLazyFields (committedBase doc p.1 p.2) }

/-- `collectProvisional`: live forms, lazy fields stripped. -/
def collectProvisional (doc : Document) : Obj := (doc.entries.filter fun p => ¬ isEntrySealed p.2).map fun p => (p.1, stripLazyFields p.2)

/-- `entries[id] ??= value`, for each pair. -/
def setMissing (entries : Obj) (ps : List (String × Value)) : Obj :=
  ps.foldl (fun m p => if (at_ m p.1).isNullish then m.set p.1 p.2 else m) entries

/-- The operations that add entries. -/
def addOps (ps : List (String × Value)) : Patch := ps.map fun p => .add (entryPath p.1) p.2

/-- `buildInitialSync`. -/
def buildInitialSync (doc : Document) (piEntries : List SessionEntry) (session : SessionRef)
    (cursor : Option PrefixCursor) : InitialSyncFrame :=
  let committed := collectCommitted doc piEntries
  match cursor.filter fun cursor => validateCursor piEntries cursor session.sessionId with
  | none =>
    let entries := Props.setAll [] (committed.map fun c => (c.id.val, c.value))
    .replace session { status := doc.status, entries := setMissing entries (collectProvisional doc) }
  | some cursor =>
    let missing := committed.filter fun c => cursor.entryCount ≤ c.ord
    let inFlight := (collectProvisional doc).filter fun p => p.1 ∉ committed.map fun c => c.id.val
    .patch session (addOps (missing.map fun c => (c.id.val, c.value)) ++ addOps inFlight ++ [.replace "/status" (.obj doc.status)])

/-! ## What the pieces contain -/

/-- What a list commits under an id. -/
theorem mem_collectCommitted {doc : Document} {es : List SessionEntry} {c : CommittedProjection} :
    c ∈ collectCommitted doc es ↔ ∃ i e, es[i]? = some e ∧ c = ⟨e.id, i, stripLazyFields (committedBase doc e i)⟩ := by
  unfold collectCommitted
  rw [mem_map]
  constructor
  · rintro ⟨⟨e, i⟩, hmem, rfl⟩
    exact ⟨i, e, mem_zipIdx_iff_getElem?.mp hmem, rfl⟩
  · rintro ⟨i, e, hget, rfl⟩
    exact ⟨(e, i), mem_zipIdx_iff_getElem?.mpr hget, rfl⟩

variable (doc : Document)

theorem map_id_collectCommitted (es : List SessionEntry) :
    (collectCommitted doc es).map (fun c => c.id.val) = es.map fun e => e.id.val := by
  unfold collectCommitted
  rw [map_map]
  conv_rhs => rw [← zipIdx_map_fst 0 es, map_map]
  rfl

theorem sublist_keys_collectProvisional : List.Sublist ((collectProvisional doc).map Prod.fst) doc.entries.keys := by
  unfold collectProvisional
  rw [map_map]
  exact filter_sublist.map _

variable {m : Obj} {ps : List (String × Value)}

/-- Assigning what is missing leaves the rest. -/
theorem at_setMissing_of_not_mem {k : String} (h : ∀ p ∈ ps, p.1 ≠ k) : at_ (setMissing m ps) k = at_ m k := by
  induction ps generalizing m with
  | nil => rfl
  | cons p ps ih =>
    have hne : p.1 ≠ k := h p mem_cons_self
    rw [setMissing, foldl_cons, ← setMissing, ih fun q hq => h q (mem_cons_of_mem _ hq)]
    split
    · exact at_set_ne _ _ hne
    · rfl

/-- What is there is not assigned. -/
theorem at_setMissing_of_present {k : String} (h : (at_ m k).isNullish = false) : at_ (setMissing m ps) k = at_ m k := by
  induction ps generalizing m with
  | nil => rfl
  | cons p ps ih =>
    rw [setMissing, foldl_cons, ← setMissing]
    split
    · rename_i hmiss
      have hne : p.1 ≠ k := by
        rintro rfl
        rw [h] at hmiss
        simp at hmiss
      have hat : at_ (m.set p.1 p.2) k = at_ m k := at_set_ne _ _ hne
      rw [ih (by rw [hat, h]), hat]
    · exact ih h

/-- Where each key comes once, what is missing gets its value. -/
theorem at_setMissing_of_mem (hnd : (ps.map Prod.fst).Nodup)
    {p : String × Value} (h : p ∈ ps) (hmiss : at_ m p.1 = .undefined) : at_ (setMissing m ps) p.1 = p.2 := by
  induction ps generalizing m with
  | nil => simp at h
  | cons q ps ih =>
    rw [map_cons, nodup_cons] at hnd
    have hlat : ∀ r ∈ ps, r.1 ≠ q.1 := fun r hr heq => hnd.1 (mem_map.mpr ⟨r, hr, heq⟩)
    rw [setMissing, foldl_cons, ← setMissing]
    rcases mem_cons.mp h with rfl | h
    · rw [at_setMissing_of_not_mem hlat, if_pos (by rw [hmiss]; rfl), at_set_self]
    · have hne : q.1 ≠ p.1 := fun heq => hlat p h heq.symm
      refine ih hnd.2 h ?_
      split
      · rw [at_set_ne _ _ hne, hmiss]
      · exact hmiss

/-- Applying additions assigns the entries. -/
theorem applyPatch_addOps (h : ∀ p ∈ ps, EntryId.Valid p.1) (doc : Document) :
    applyPatch doc (addOps ps) = { doc with entries := doc.entries.setAll ps } := by
  induction ps generalizing doc with
  | nil => rfl
  | cons p ps ih =>
    have hvald := h p mem_cons_self
    have haddr : Addresses (.add (entryPath p.1) p.2) .entries p.1 [] := ⟨parsePath_entryPath ⟨hvald.2.1, hvald.2.2⟩, by simp⟩
    rw [addOps, map_cons, applyPatch_cons haddr, ← addOps, ih fun q hq => h q (mem_cons_of_mem _ hq)]
    rfl

theorem scoped_addOps (h : ∀ p ∈ ps, EntryId.Valid p.1) : ∀ op ∈ addOps ps, Scoped op := by
  intro op hop
  obtain ⟨p, hp, rfl⟩ := mem_map.mp hop
  have hvald := h p hp
  exact ⟨.entries, p.1, [], parsePath_entryPath ⟨hvald.2.1, hvald.2.2⟩, by simp⟩

theorem applyPatch_status (status : Obj) : applyPatch doc [.replace "/status" (.obj status)] = { doc with status } := by
  rw [applyPatch, foldl_cons, foldl_nil, applyOp, setAtPath, parsePath_status]; rfl

end PiBridge
