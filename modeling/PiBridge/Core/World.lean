import PiBridge.Core.ProjectionSpec

/-!
# `Core.World` — pi's entry list next to the projection that mirrors it

pi and the projection change independently: pi appends entries, selects another leaf, or replaces the whole
list under a new version; the projection applies events, reads, and settles. A `WorldStep` is one such
change; results about every order of them are results about runs of it.
-/

namespace PiBridge

open Js Js.Value Lib Projection List

/-- pi's entry list, its leaf and the version of the list. -/
structure PiList where
  entries : List SessionEntry
  leafId : Option String
  version : Nat

namespace PiList

/-- `readEntries`: the suffix from a position, and where to read next. -/
def readEntries (pi : PiList) (start : Nat) : EntrySnapshot :=
  { entries := pi.entries.drop (min start pi.entries.length)
    next := pi.entries.length
    leafId := pi.leafId
    version := pi.version }

/-- The entry map of the whole list: each id leads to the projection of its entry at its index. -/
def entryMap (pi : PiList) : Obj := install [] 0 pi.entries

end PiList

/-- pi and the projection that mirrors it. -/
structure World where
  pi : PiList
  projection : Projection

/-- Before the first read. -/
def World.start (pi : PiList) : World := ⟨pi, createEntryProjection emptyDocument⟩

/-- What happens in one step. -/
inductive WorldAction where
  /-- pi's list is now this one. -/
  | changed (pi : PiList)
  | applyEvent (event : SessionLifecycleEvent)
  | refreshFrom
  | settle

/-- The steps of pi and of the projection, in any order. `ok` is the condition on an event. -/
inductive WorldStep (ok : Projection → SessionLifecycleEvent → Prop) (w : World) : WorldAction → World → Prop where
  /-- pi appends under the same version, and may select another leaf. -/
  | append (es : List SessionEntry) (leafId : Option String) :
      WorldStep ok w (.changed { w.pi with entries := w.pi.entries ++ es, leafId })
        { w with pi := { w.pi with entries := w.pi.entries ++ es, leafId } }
  /-- pi replaces the list under a version not used before. -/
  | replaceAll (pi : PiList) (hversion : w.pi.version < pi.version) : WorldStep ok w (.changed pi) { w with pi }
  | applyEvent {event : SessionLifecycleEvent} {p : Projection} {out : Option Patch}
      (hok : ok w.projection event) (hstep : w.projection.applyEvent event = some (p, out)) :
      WorldStep ok w (.applyEvent event) { w with projection := p }
  | refreshFrom {p : Projection} {out : Option Patch}
      (hstep : w.projection.refreshFrom w.pi.readEntries = some (p, out)) :
      WorldStep ok w .refreshFrom { w with projection := p }
  | settle {p : Projection} {out : Option Patch} (hstep : w.projection.settle = some (p, out)) :
      WorldStep ok w .settle { w with projection := p }

/-! ## What a refresh reads -/

/-- A list splits into what was read and what is new. -/
theorem installed?_append (ord : Nat) (es es' : List SessionEntry) (id : String) :
    installed? ord (es ++ es') id = (installed? (ord + es.length) es' id).or (installed? ord es id) := by
  induction es generalizing ord with
  | nil => simp [installed?]
  | cons e es ih =>
    have hord : ord + 1 + es.length = ord + (e :: es).length := by simp only [length_cons]; omega
    rw [cons_append, installed?, ih, installed?, Option.or_assoc, hord]

/-- The list a projection mirrors after a refresh. -/
def listAfter (p : Projection) (K : List SessionEntry) (snapshot : EntrySnapshot) : List SessionEntry :=
  if p.isRewrite snapshot then snapshot.entries else K ++ snapshot.entries

variable {p : Projection} {snapshot : EntrySnapshot} {id : String} {K : List SessionEntry}

theorem mem_refreshedLive : id ∈ p.refreshedLive snapshot ↔ id ∈ p.live ∧ id ∉ snapshotIds snapshot := by
  simp [refreshedLive]

/-- What the list after a refresh puts under an id. -/
theorem installed?_listAfter (hpos : p.position = K.length) (id : String) : installed? 0 (listAfter p K snapshot) id
      = (installed? (p.baseOf snapshot) snapshot.entries id).or (if p.isRewrite snapshot then none else installed? 0 K id) := by
  unfold listAfter baseOf
  split
  · simp
  · rw [installed?_append, Nat.zero_add, hpos]

/-- What the snapshot does not install, and a refresh does not remove, is as it was. -/
theorem get?_refreshedEntries (p : Projection) (snapshot : EntrySnapshot) (id : String) : (p.refreshedEntries snapshot).get? id =
      if id ∈ p.removedIds snapshot then none
      else (installed? (p.baseOf snapshot) snapshot.entries id).or (p.document.entries.get? id) := by
  rw [refreshedEntries, get?_eraseAll, installedEntries, get?_install]

theorem mem_removedIds : id ∈ p.removedIds snapshot ↔ p.isRewrite snapshot = true ∧
      (p.installedEntries snapshot).has id = true ∧ id ∉ snapshotIds snapshot ∧ id ∉ p.refreshedLive snapshot := by
  unfold removedIds
  split
  · rename_i h
    simp [h, Props.has_iff_mem_keys]
  · rename_i h
    simp [h]

/-- What the snapshot does not install, and a refresh keeps live, is neither installed nor removed. -/
theorem kept_of_mem_refreshedLive (h : id ∈ p.refreshedLive snapshot) :
    installed? (p.baseOf snapshot) snapshot.entries id = none ∧ id ∉ p.removedIds snapshot := by
  refine ⟨?_, fun hr => (mem_removedIds.1 hr).2.2.2 h⟩
  rw [← Option.not_isSome_iff_eq_none, installed?_isSome_iff]
  exact (mem_refreshedLive.1 h).2

/-! ## The list last read -/

/-- `K` is the list the projection last read: nothing before the first read, and a prefix of pi's list
    unless that was replaced since. -/
structure HasRead (w : World) (K : List SessionEntry) : Prop where
  unread : w.projection.version = none → K = []
  prefixOf : ∀ v, w.projection.version = some v → v ≤ w.pi.version ∧ (v = w.pi.version → K <+: w.pi.entries)

theorem hasRead_start (pi : PiList) : HasRead (World.start pi) [] where
  unread := fun _ => rfl
  prefixOf := fun _ h => by simp [World.start, createEntryProjection] at h

/-- The list last read after a step that started with `K`. -/
def WorldAction.lastRead (pi : PiList) (K : List SessionEntry) : WorldAction → List SessionEntry
  | refreshFrom => pi.entries
  | _ => K

/-- **A step keeps track of the list last read.** -/
theorem hasRead_step {ok : Projection → SessionLifecycleEvent → Prop} {w w' : World} {a : WorldAction}
    (h : HasRead w K) (hstep : WorldStep ok w a w') : HasRead w' (a.lastRead w.pi K) := by
  have hsame : ∀ {p : Projection}, p.version = w.projection.version → HasRead { w with projection := p } K := by
    intro p hver
    exact ⟨fun hv => h.unread (hver.symm.trans hv), fun v hv => h.prefixOf v (hver.symm.trans hv)⟩
  cases hstep with
  | append es leaf =>
    refine ⟨h.unread, fun v hv => ?_⟩
    obtain ⟨hle, hpre⟩ := h.prefixOf v hv
    exact ⟨hle, fun heq => (hpre heq).trans (prefix_append _ _)⟩
  | replaceAll pi hver =>
    refine ⟨h.unread, fun v hv => ?_⟩
    obtain ⟨hle, -⟩ := h.prefixOf v hv
    show v ≤ pi.version ∧ (v = pi.version → _)
    exact ⟨by omega, fun heq => by omega⟩
  | applyEvent _ hstep => exact hsame (applyEvent_bookkeeping hstep).2.1
  | settle hstep => exact hsame (settle_bookkeeping hstep).2.1
  | @refreshFrom p out hstep =>
    rw [refreshFrom_eq] at hstep
    have hver : p.version = some w.pi.version := by
      split at hstep
      · exact (refresh_bookkeeping hstep).2.1
      · exact (refresh_bookkeeping hstep).2.1
    refine ⟨fun hv => ?_, fun v hv => ?_⟩
    · rw [show ({ w with projection := p } : World).projection.version = p.version from rfl, hver] at hv
      simp at hv
    · obtain rfl : w.pi.version = v := Option.some.inj (hver.symm.trans hv)
      exact ⟨Nat.le_refl _, fun _ => prefix_rfl⟩

/-- Whichever read `refreshFrom` uses, the list after it is pi's list. -/
theorem refreshFrom_reads {w : World} (h : HasRead w K) (hpos : w.projection.position = K.length) :
    ∃ st, w.projection.refreshFrom w.pi.readEntries = w.projection.refresh (w.pi.readEntries st) ∧
      listAfter w.projection K (w.pi.readEntries st) = w.pi.entries := by
  rw [refreshFrom_eq]
  split
  · rename_i hrew
    have hzero : w.projection.isRewrite (w.pi.readEntries 0) = true := hrew
    refine ⟨0, rfl, ?_⟩
    rw [listAfter, if_pos hzero]
    simp [PiList.readEntries]
  · rename_i hrew
    refine ⟨_, rfl, ?_⟩
    have hpre : K <+: w.pi.entries := by
      cases hv : w.projection.version with
      | none => rw [h.unread hv]; exact nil_prefix
      | some v =>
        refine (h.prefixOf v hv).2 ?_
        simpa [isRewrite, hv, PiList.readEntries] using hrew
    obtain ⟨ext, hext⟩ := hpre
    have hlen : K.length ≤ w.pi.entries.length := by rw [← hext, length_append]; omega
    rw [listAfter, if_neg hrew]
    show K ++ w.pi.entries.drop (min w.projection.position w.pi.entries.length) = w.pi.entries
    rw [hpos, Nat.min_eq_left hlen, ← hext, drop_left]

end PiBridge
