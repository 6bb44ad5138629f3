import Mathlib.Data.List.Nodup
import PiBridge.Durable.Correctness.ContextHistory

/-!
# `Durable.Correctness.ContextRanges` — every way to a range is the way from a scan

A range is `Faithful` when it is what deriving it from a scan of its bounds gives, and its bounds are ones that a capture
gives. The four ways a read takes to a range and the one a commit takes keep that (`readContextFrom_faithful`,
`advanceRange_faithful`), and growth of the history does (`Faithful.grow`).
-/

namespace PiBridge.Durable

open Lib Storage List

variable {V O : Type} {s s' : Storage (EntryContent V) O} {id : ConversationId}

/-! ## Visible entries -/

theorem sorted_visible (h : Chronicle s) (id : ConversationId) : ((s.visibleEntries id).map (·.id)).Pairwise (· < ·) := by
  have hmap : (s.entries.map fun e => e.1.id) = (s.entries.map Prod.fst).map (·.id) := by rw [map_map]; rfl
  have hsrt := h.sorted
  rw [hmap] at hsrt
  exact hsrt.sublist (filter_sublist.map _)

variable {e : ContextEntry V} {bounds : ContextBounds V} {added : List (ContextEntry V)} {rng : ContextRange V}

/-- A visible entry is known by its identity. -/
theorem visible_ext (h : Chronicle s) {e' : ContextEntry V} (he : e ∈ s.visibleEntries id) (he' : e' ∈ s.visibleEntries id)
    (heq : e.id = e'.id) : e = e' := by
  have hnd : ((s.visibleEntries id).map (·.id)).Nodup := (sorted_visible h id).imp Nat.ne_of_lt
  exact inj_on_of_nodup_map hnd he he' heq

theorem head_le (h : Chronicle s) (he : e ∈ s.visibleEntries id) {st : EntryId} (hsta : e.head = some st) : st ≤ e.id := by
  obtain ⟨sto, hsto, rfl⟩ := mem_entries_of_visible he
  exact h.heads sto hsto st hsta

/-- The newest entry is the last one, and no entry is newer. -/
theorem le_latest (h : Chronicle s) {tail : EntryId} (hlatest : s.latestEntryId id = some tail)
    (he : e ∈ s.visibleEntries id) : e.id ≤ tail := by
  obtain ⟨last, hlast, rfl⟩ := Option.map_eq_some_iff.mp hlatest
  obtain ⟨front, hsplit⟩ := getLast?_eq_some_iff.mp hlast
  have hsrt := sorted_visible h id
  rw [hsplit] at he hsrt
  obtain hin | hin := mem_append.mp he
  · rw [map_append, pairwise_append] at hsrt
    exact Nat.le_of_lt (hsrt.2.2 _ (mem_map_of_mem hin) _ mem_cons_self)
  · exact Nat.le_of_eq (congrArg EntryRecord.id (mem_singleton.mp hin))

theorem mem_of_latest {tail : EntryId} (hlatest : s.latestEntryId id = some tail) : ∃ e ∈ s.visibleEntries id, e.id = tail := by
  obtain ⟨last, hlast, rfl⟩ := Option.map_eq_some_iff.mp hlatest
  exact ⟨last, mem_of_getLast? hlast, rfl⟩

/-- Of a list in ascending order, what is at most `mid` comes first. -/
theorem filter_split {es : List (ContextEntry V)} (hsrt : (es.map (·.id)).Pairwise (· < ·)) (mid : EntryId) :
    es = (es.filter fun e => decide (e.id ≤ mid)) ++ es.filter fun e => decide (mid + 1 ≤ e.id) := by
  induction es with
  | nil => rfl
  | cons e es ih =>
    rw [map_cons, pairwise_cons] at hsrt
    by_cases hle : e.id ≤ mid
    · rw [filter_cons_of_pos (by simpa using hle), filter_cons_of_neg (by simpa [Nat.lt_succ_iff] using hle), cons_append, ← ih hsrt.2]
    · -- Everything after it is newer too.
      have hnone : es.filter (fun e => decide (e.id ≤ mid)) = [] := by
        refine filter_eq_nil_iff.mpr fun e' he' => ?_
        have hlt := hsrt.1 e'.id (mem_map_of_mem he')
        simpa using Nat.lt_trans (Nat.lt_of_not_le hle) hlt
      have hall := ih hsrt.2
      rw [hnone, nil_append] at hall
      rw [filter_cons_of_neg (by simpa using hle), hnone, nil_append,
        filter_cons_of_pos (by simpa using Nat.succ_le_of_lt (Nat.lt_of_not_le hle)), ← hall]

/-! ## Bounds -/

/-- Bounds that a capture gives. -/
structure Captured (s : Storage (EntryContent V) O) (id : ConversationId) (bounds : ContextBounds V) : Prop where
  head : bounds.head = s.latestHeadMarker id bounds.tail
  tail : ∃ e ∈ s.visibleEntries id, e.id = bounds.tail

theorem HeadMarker.of?_eq_some {ent : ContextEntry V} {mk : HeadMarker V} (h : HeadMarker.of? ent = some mk) :
    mk.entry = ent ∧ ent.head = some mk.start := by
  obtain ⟨st, hsta, rfl⟩ := Option.map_eq_some_iff.mp h
  exact ⟨rfl, hsta⟩

/-- The marker of captured bounds is a visible entry, and its range starts no later than itself. -/
theorem Captured.marker (h : Chronicle s) (hcapt : Captured s id bounds) {mk : HeadMarker V}
    (hmrk : bounds.head = some mk) :
    mk.entry ∈ s.visibleEntries id ∧ mk.entry.head = some mk.start ∧ mk.start ≤ mk.entry.id ∧
      mk.entry.id ≤ bounds.tail := by
  have hlast := hcapt.head.symm.trans hmrk
  obtain ⟨ent, hent, hof⟩ := mem_filterMap.mp (mem_of_getLast? hlast)
  obtain ⟨rfl, hsta⟩ := HeadMarker.of?_eq_some hof
  obtain ⟨hvis, hle⟩ := mem_filter.mp hent
  exact ⟨hvis, hsta, head_le h hvis hsta, of_decide_eq_true hle⟩

/-- Two markers of visible entries with one identity are the same. -/
theorem marker_ext (h : Chronicle s) {mk mk' : HeadMarker V} (hmem : mk.entry ∈ s.visibleEntries id)
    (hmem' : mk'.entry ∈ s.visibleEntries id) (hsta : mk.entry.head = some mk.start)
    (hsta' : mk'.entry.head = some mk'.start) (heq : mk.entry.id = mk'.entry.id) : mk = mk' := by
  obtain ⟨ent, st⟩ := mk
  obtain ⟨ent', st'⟩ := mk'
  obtain rfl : ent = ent' := visible_ext h hmem hmem' heq
  obtain rfl : st = st' := Option.some.inj (hsta.symm.trans hsta')
  rfl

/-- Captured bounds whose markers have one identity have one marker. -/
theorem Captured.head_ext (h : Chronicle s) {bounds' : ContextBounds V} (hcapt : Captured s id bounds)
    (hcapt' : Captured s id bounds') (heq : bounds.head.map (·.entry.id) = bounds'.head.map (·.entry.id)) :
    bounds.head = bounds'.head := by
  cases hhead : bounds.head with
  | none =>
    rw [hhead] at heq
    exact (Option.map_eq_none_iff.mp heq.symm).symm
  | some mk =>
    rw [hhead] at heq
    obtain ⟨mk', hhead', hid⟩ := Option.map_eq_some_iff.mp heq.symm
    obtain ⟨hmem, hsta, -⟩ := hcapt.marker h hhead
    obtain ⟨hmem', hsta', -⟩ := hcapt'.marker h hhead'
    rw [hhead', marker_ext h hmem hmem' hsta hsta' hid.symm]

/-- Entries newer than every visible one lie after the tail of captured bounds. -/
theorem Captured.newer (hgrow : Grows s s' id added)
    (hcapt : Captured s id bounds) {ent : ContextEntry V} (hent : ent ∈ added) : ¬ent.id ≤ bounds.tail := by
  obtain ⟨e, he, htail⟩ := hcapt.tail
  exact Nat.not_le.mpr (htail ▸ hgrow.newer e he ent hent)

/-- Entries at or below a tail are immutable: the bounds stay captured, and so does what a scan of them finds. -/
theorem Captured.grow (hgrow : Grows s s' id added)
    (hcapt : Captured s id bounds) : Captured s' id bounds ∧ s'.scanBounds id bounds = s.scanBounds id bounds := by
  refine ⟨⟨?_, ?_⟩, ?_⟩
  · have hnone : added.filter (fun ent => decide (ent.id ≤ bounds.tail)) = [] :=
      filter_eq_nil_iff.mpr fun ent hent => by simpa using hcapt.newer hgrow hent
    rw [latestHeadMarker, hgrow.visible, filter_append, hnone, append_nil]
    exact hcapt.head
  · obtain ⟨e, he, htail⟩ := hcapt.tail
    exact ⟨e, hgrow.visible ▸ mem_append_left _ he, htail⟩
  · rw [scanBounds, scanRange, hgrow.visible, filter_append, append_right_eq_self.mpr]
    · rfl
    · refine filter_eq_nil_iff.mpr fun ent hent hin => ?_
      exact hcapt.newer hgrow hent (of_decide_eq_true (Bool.and_eq_true_iff.mp hin).2)

/-! ## Ranges -/

/-- A range that deriving it from a scan of its bounds gives. -/
structure Faithful (s : Storage (EntryContent V) O) (id : ConversationId) (range : ContextRange V) : Prop where
  derived : range = deriveRange range.bounds (s.scanBounds id range.bounds) range.current
  captured : Captured s id range.bounds

theorem Faithful.of_derived (hcapt : Captured s id bounds) (cur : Bool) :
    Faithful s id (deriveRange bounds (s.scanBounds id bounds) cur) := ⟨rfl, hcapt⟩

theorem Faithful.entries (h : Faithful s id rng) : rng.entries = s.scanBounds id rng.bounds := by
  have hents := congrArg ContextRange.entries h.derived
  exact hents

/-- Its view is what a fresh scan of its bounds gives. -/
theorem Faithful.view (h : Faithful s id rng) : rng.view = deriveContext s id (some rng.bounds) := by
  have hview := congrArg ContextRange.view h.derived
  exact hview

theorem Faithful.stale (h : Faithful s id rng) : Faithful s id { rng with current := false } := by
  obtain ⟨hderived, hcapt⟩ := h
  refine ⟨?_, hcapt⟩
  have hstale := congrArg (fun r : ContextRange V => { r with current := false }) hderived
  exact hstale

theorem Faithful.grow (hgrow : Grows s s' id added) (h : Faithful s id rng) : Faithful s' id rng := by
  obtain ⟨hcapt, hscan⟩ := h.captured.grow hgrow
  exact ⟨hscan ▸ h.derived, hcapt⟩

/-- A scan up to a tail and one from there on make the scan of later bounds under the same marker. -/
theorem scan_append (h : Chronicle s) {bounds' : ContextBounds V} (hcapt : Captured s id bounds)
    (hhead : bounds'.head = bounds.head) (hlt : bounds.tail < bounds'.tail) :
    s.scanBounds id bounds' = s.scanBounds id bounds ++ s.scanRange id (some (bounds.tail + 1)) bounds'.tail := by
  have hsrt : ((s.scanBounds id bounds').map (·.id)).Pairwise (· < ·) := (sorted_visible h id).sublist (filter_sublist.map _)
  rw [filter_split hsrt bounds.tail]
  refine congrArg₂ (· ++ ·) ?_ ?_
  · rw [scanBounds, scanBounds, scanRange, scanRange, hhead, filter_filter]
    refine filter_congr fun e _ => ?_
    by_cases hle : e.id ≤ bounds.tail
    · have hle' : e.id ≤ bounds'.tail := Nat.le_trans hle (Nat.le_of_lt hlt)
      simp [hle, hle']
    · simp [hle]
  · rw [scanBounds, scanRange, scanRange, hhead, filter_filter]
    refine filter_congr fun e _ => ?_
    -- What is newer than the tail is newer than the marker, so no earlier than the range's start.
    have hsta : bounds.tail + 1 ≤ e.id → (bounds.head.map (·.start)).all (fun n => decide (n ≤ e.id)) = true := by
      intro hnewer
      cases hmrk : bounds.head with
      | none => rfl
      | some mk =>
        obtain ⟨-, -, hle, hle'⟩ := hcapt.marker h hmrk
        exact decide_eq_true (Nat.le_trans hle (Nat.le_trans hle' (Nat.le_of_succ_le hnewer)))
    by_cases hnewer : bounds.tail + 1 ≤ e.id
    · simp [hnewer, hsta hnewer]
    · simp [hnewer]

/-- **A read's range is the derived one**, whichever way it was taken, and so is its view. -/
theorem readContextFrom_faithful (h : Chronicle s) (cut nst : Option EntryId) {prev : Option (ContextRange V)}
    {bounds : Option (ContextBounds V)}
    (hprevious : ∀ rng, prev = some rng → Faithful s id rng) (hbounds : ∀ b, bounds = some b → Captured s id b) :
    (readContextFrom s id cut prev bounds nst).1 = deriveContext s id bounds ∧
      ∀ rng, (readContextFrom s id cut prev bounds nst).2 = some rng →
        Faithful s id rng ∧ bounds = some rng.bounds ∧ (rng.current = true → nst = some rng.bounds.tail) := by
  cases bounds with
  | none => exact ⟨rfl, fun rng hrng => by cases hrng⟩
  | some bounds =>
    have hcapt := hbounds bounds rfl
    -- The range before it is known to be current.
    have hway : ∀ way : ContextRange V, Faithful s id way → way.bounds = bounds → (way.view = deriveContext s id (some bounds)) ∧ ∀ rng,
          some (if way.current && nst ≠ some way.bounds.tail then { way with current := false } else way) = some rng →
            Faithful s id rng ∧ some bounds = some rng.bounds ∧ (rng.current = true → nst = some rng.bounds.tail) := by
      rintro way hfaith rfl
      refine ⟨hfaith.view, fun rng hrng => ?_⟩
      cases hrng
      split
      · exact ⟨hfaith.stale, rfl, fun hc => by cases hc⟩
      · rename_i hfresh
        refine ⟨hfaith, rfl, fun hc => ?_⟩
        simpa [hc] using hfresh
    have hfin : ∀ way : ContextRange V, Faithful s id way → way.bounds = bounds → readContextFrom s id cut prev (some bounds) nst =
          ((if way.current && nst ≠ some way.bounds.tail then { way with current := false } else way).view,
            some (if way.current && nst ≠ some way.bounds.tail then { way with current := false } else way)) →
        (readContextFrom s id cut prev (some bounds) nst).1 = deriveContext s id (some bounds) ∧
          ∀ rng, (readContextFrom s id cut prev (some bounds) nst).2 = some rng →
            Faithful s id rng ∧ some bounds = some rng.bounds ∧ (rng.current = true → nst = some rng.bounds.tail) := by
      intro way hfaith hsame hread
      rw [hread]
      obtain ⟨hview, hrng⟩ := hway way hfaith hsame
      refine ⟨?_, hrng⟩
      refine Eq.trans ?_ hview
      split <;> rfl
    cases prev with
    | none => exact hfin _ (.of_derived hcapt cut.isNone) rfl rfl
    | some prev =>
      have hprev := hprevious prev rfl
      by_cases hmrk : prev.bounds.head.map (·.entry.id) = bounds.head.map (·.entry.id)
      · have hhead : bounds.head = prev.bounds.head := (hprev.captured.head_ext h hcapt hmrk).symm
        by_cases htail : bounds.tail = prev.bounds.tail
        · have hsame : prev.bounds = bounds := by
            exact (congrArg₂ ContextBounds.mk hhead htail).symm
          refine hfin prev hprev hsame ?_
          simp only [readContextFrom, hmrk, ne_eq, not_true_eq_false, if_false, htail, if_true]
        · by_cases hlt : bounds.tail < prev.bounds.tail
          · -- The range is cut off at an earlier entry.
            have hscan : (prev.entries.filter fun ent => decide (ent.id ≤ bounds.tail)) = s.scanBounds id bounds := by
              rw [hprev.entries, scanBounds, scanBounds, scanRange, scanRange, hhead, filter_filter]
              refine filter_congr fun e _ => ?_
              by_cases hle : e.id ≤ bounds.tail
              · have hle' : e.id ≤ prev.bounds.tail := Nat.le_trans hle (Nat.le_of_lt hlt)
                simp [hle, hle']
              · simp [hle]
            refine hfin (deriveRange bounds (s.scanBounds id bounds) false) (.of_derived hcapt false) rfl ?_
            simp only [readContextFrom, hmrk, ne_eq, not_true_eq_false, if_false, htail, hlt, if_true, hscan]
          · -- The entries after the previous tail extend it.
            have hscan := scan_append h hprev.captured hhead (Nat.lt_of_le_of_ne (Nat.not_lt.mp hlt) (Ne.symm htail))
            have hextend := extendRange_eq prev.bounds bounds (s.scanBounds id prev.bounds)
              (s.scanRange id (some (prev.bounds.tail + 1)) bounds.tail) prev.current cut.isNone hhead
            rw [← hprev.derived, ← hscan] at hextend
            refine hfin (deriveRange bounds (s.scanBounds id bounds) cut.isNone) (.of_derived hcapt _) rfl ?_
            simp only [readContextFrom, hmrk, ne_eq, not_true_eq_false, if_false, htail, hlt, hextend]
      · refine hfin (deriveRange bounds (s.scanBounds id bounds) cut.isNone) (.of_derived hcapt _) rfl ?_
        simp only [readContextFrom, ne_eq, hmrk, not_false_eq_true, if_true]

/-! ## Commits -/

theorem newestMarker_eq (head : Option (HeadMarker V)) (added : List (ContextEntry V)) :
    newestMarker head added = (added.filterMap HeadMarker.of?).getLast?.or head := by
  induction added generalizing head with
  | nil => rfl
  | cons ent added ih =>
    rw [newestMarker, foldl_cons, ← newestMarker, ih]
    cases hof : HeadMarker.of? ent with
    | none => rw [filterMap_cons_none hof, Option.none_or]
    | some mk =>
      rw [filterMap_cons_some hof, getLast?_cons, Option.some_or]
      cases (added.filterMap HeadMarker.of?).getLast? <;> rfl

/-- The newest entry after a commit is the last one appended. -/
theorem latest_grow {nst : ContextEntry V} (hgrow : Grows s s' id added)
    (hlast : added.getLast? = some nst) : s'.latestEntryId id = some nst.id := by
  rw [latestEntryId, hgrow.visible, getLast?_append, hlast]
  rfl

/-- The bounds `advanceRange` makes are the ones a capture after the commit gives. -/
theorem captured_grow (h' : Chronicle s') {nst : ContextEntry V}
    (hgrow : Grows s s' id added) (hlast : added.getLast? = some nst) (hcapt : Captured s id bounds)
    (hlatest : s.latestEntryId id = some bounds.tail) (h : Chronicle s) :
    Captured s' id ⟨newestMarker bounds.head added, nst.id⟩ := by
  refine ⟨?_, nst, hgrow.visible ▸ mem_append_right _ (mem_of_getLast? hlast), rfl⟩
  have hall : (s'.visibleEntries id).filter (fun ent => decide (ent.id ≤ nst.id)) = s'.visibleEntries id :=
    filter_eq_self.mpr fun ent hent => decide_eq_true (le_latest h' (latest_grow hgrow hlast) hent)
  have hold : (s.visibleEntries id).filter (fun ent => decide (ent.id ≤ bounds.tail)) = s.visibleEntries id :=
    filter_eq_self.mpr fun ent hent => decide_eq_true (le_latest h hlatest hent)
  have hhead := hcapt.head
  rw [latestHeadMarker, hold] at hhead
  rw [latestHeadMarker, hall, hgrow.visible, filterMap_append, getLast?_append, newestMarker_eq, hhead]

/-- A scan of the same start after a commit finds the added entries too. -/
theorem scan_grow (h : Chronicle s) (h' : Chronicle s') (bounds' : ContextBounds V)
    (hgrow : Grows s s' id added) (hlatest : s.latestEntryId id = some bounds.tail)
    (hlatest' : s'.latestEntryId id = some bounds'.tail) (st : Option EntryId)
    (hfrom : ∀ n, st = some n → (bounds.head.map (·.start)).all fun n₀ => decide (n₀ ≤ n))
    (hsta : bounds'.head.map (·.start) = st) (hnone : st = none → bounds.head = none) :
    s'.scanBounds id bounds' = (s.scanBounds id bounds ++ added).filter fun ent => st.all fun n => decide (n ≤ ent.id) := by
  rw [scanBounds, scanRange, hsta, hgrow.visible, filter_append, filter_append]
  have hle' : ∀ ent ∈ s'.visibleEntries id, ent.id ≤ bounds'.tail := fun ent hent => le_latest h' hlatest' hent
  refine congrArg₂ (· ++ ·) ?_ ?_
  · rw [scanBounds, scanRange, filter_filter]
    refine filter_congr fun ent hent => ?_
    have hle : ent.id ≤ bounds.tail := le_latest h hlatest hent
    have hgrown := hle' ent (hgrow.visible ▸ mem_append_left _ hent)
    cases st with
    | none => simp [hnone rfl, hle, hgrown]
    | some n =>
      have hbel := hfrom n rfl
      cases hhead : bounds.head with
      | none => simp [hle, hgrown]
      | some mk =>
        rw [hhead] at hbel
        have hmrk : mk.start ≤ n := of_decide_eq_true hbel
        by_cases hn : n ≤ ent.id
        · have := Nat.le_trans hmrk hn
          simp [hn, hle, hgrown, this]
        · simp [hn]
  · refine filter_congr fun ent hent => ?_
    have hgrown := hle' ent (hgrow.visible ▸ mem_append_right _ hent)
    simp [hgrown]

/-- **An advanced range is the derived one**, and reaches the newest entry when it did. -/
theorem advanceRange_faithful (h : Chronicle s) (h' : Chronicle s') {rng' : ContextRange V}
    (hgrow : Grows s s' id added) (hfaith : Faithful s id rng)
    (hcur : rng.current = true → s.latestEntryId id = some rng.bounds.tail)
    (hadv : advanceRange rng added = some rng') :
    Faithful s' id rng' ∧ (rng'.current = true → s'.latestEntryId id = some rng'.bounds.tail) := by
  unfold advanceRange at hadv
  cases hlast : added.getLast? with
  | none =>
    obtain rfl := getLast?_eq_none_iff.mp hlast
    cases hadv
    refine ⟨hfaith.grow hgrow, fun hc => ?_⟩
    rw [latestEntryId, hgrow.visible, append_nil]
    exact hcur hc
  | some nst =>
    rw [hlast] at hadv
    dsimp only at hadv
    by_cases hc : rng.current = false
    · rw [if_pos hc] at hadv
      cases hadv
      exact ⟨hfaith.grow hgrow, fun htrue => nomatch hc.symm.trans htrue⟩
    rw [if_neg hc] at hadv
    have hlatest := hcur (Bool.not_eq_false _ ▸ hc)
    have hlatest' := latest_grow hgrow hlast
    have hcapt := captured_grow h' hgrow hlast hfaith.captured hlatest h
    -- Under the same marker the commit's entries extend the range.
    have hextend : newestMarker rng.bounds.head added = rng.bounds.head →
        extendRange rng ⟨newestMarker rng.bounds.head added, nst.id⟩ added true =
          deriveRange ⟨newestMarker rng.bounds.head added, nst.id⟩
            (s'.scanBounds id ⟨newestMarker rng.bounds.head added, nst.id⟩) true := by
      intro hsame
      have hscan := scan_grow h h' ⟨newestMarker rng.bounds.head added, nst.id⟩ hgrow hlatest hlatest'
        (rng.bounds.head.map (·.start)) (fun n hn => by simp [hn]) (by rw [hsame]) (fun hnone => Option.map_eq_none_iff.mp hnone)
      have hkeep : (s.scanBounds id rng.bounds ++ added).filter
          (fun ent => (rng.bounds.head.map (·.start)).all fun n => decide (n ≤ ent.id)) = s.scanBounds id rng.bounds ++ added := by
        refine filter_eq_self.mpr fun ent hent => ?_
        obtain hin | hin := mem_append.mp hent
        · exact (Bool.and_eq_true_iff.mp (mem_filter.mp hin).2).1
        · cases hhead : rng.bounds.head with
          | none => rfl
          | some mk =>
            obtain ⟨hmem, -, hle, -⟩ := hfaith.captured.marker h hhead
            exact decide_eq_true (Nat.le_trans hle (Nat.le_of_lt (hgrow.newer _ hmem ent hin)))
      have hext := extendRange_eq rng.bounds ⟨newestMarker rng.bounds.head added, nst.id⟩ (s.scanBounds id rng.bounds) added
        rng.current true hsame
      rw [← hfaith.derived] at hext
      rw [hext, hscan, hkeep]
    cases hmrk : newestMarker rng.bounds.head added with
    | none =>
      rw [hmrk] at hadv hextend hcapt
      have hnone : rng.bounds.head = none := by
        rw [newestMarker_eq, Option.or_eq_none_iff] at hmrk
        exact hmrk.2
      cases hadv
      rw [hextend hnone.symm]
      exact ⟨.of_derived hcapt true, fun _ => hlatest'⟩
    | some mk =>
      rw [hmrk] at hadv hextend hcapt
      dsimp only at hadv
      split at hadv
      · rename_i hany
        obtain ⟨kn, hkn, hid⟩ : ∃ kn, rng.bounds.head = some kn ∧ decide (kn.entry.id = mk.entry.id) = true := by
          cases hhead : rng.bounds.head with
          | none => rw [hhead] at hany; cases hany
          | some kn => exact ⟨kn, rfl, by rw [hhead] at hany; exact hany⟩
        have hsame : some mk = rng.bounds.head := by
          obtain ⟨hmem, hsta, -⟩ := hcapt.marker h' rfl
          obtain ⟨hmem', hsta', -⟩ := hfaith.captured.marker h hkn
          rw [hkn, marker_ext h' hmem (hgrow.visible ▸ mem_append_left _ hmem') hsta hsta' (of_decide_eq_true hid).symm]
        cases hadv
        rw [hextend hsame]
        exact ⟨.of_derived hcapt true, fun _ => hlatest'⟩
      · split at hadv
        · cases hadv
        · rename_i hforward
          cases hadv
          have hscan := scan_grow h h' ⟨some mk, nst.id⟩ hgrow hlatest hlatest'
            (some mk.start) (fun n hn => ?_) rfl (fun hnone => by cases hnone)
          · have hents : (rng.entries ++ added).filter (fun ent => decide (mk.start ≤ ent.id)) =
                s'.scanBounds id ⟨some mk, nst.id⟩ := by
              rw [hscan, hfaith.entries]
              rfl
            rw [hents]
            exact ⟨.of_derived hcapt true, fun _ => hlatest'⟩
          · cases hn
            cases hhead : rng.bounds.head with
            | none => rfl
            | some kn =>
              rw [hhead] at hforward
              exact decide_eq_true (Nat.not_lt.mp fun hlt => hforward (decide_eq_true hlt))

end PiBridge.Durable
