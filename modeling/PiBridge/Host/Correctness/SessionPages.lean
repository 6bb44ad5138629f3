import PiBridge.Host.SessionCatalog
import PiBridge.Lib.Keyed
import PiBridge.Lib.Rows
import Mathlib.Data.List.Lex
import Mathlib.Data.Prod.Lex
import Mathlib.Tactic.Linarith

/-!
# `Host.Correctness.SessionPages` — the pages of a listing are the listing

The comparison of the sort and the filter of a cursor are one order, by sort time and stem (`le_iff`, `after_eq`), and no two
Sessions are at one place in it. So a page continues where the page before it ended (`listSessions_page`), and the pages that
follow each other are the whole listing (`follow_sessions`).
-/

namespace PiBridge.SessionCatalog

open Chord Lib List

/-! ## The order -/

namespace ScanEntry

/-- Where a Session stands; a greater key is an earlier place. -/
def key (e : ScanEntry) : ℚ ×ₗ List ℕ := toLex (e.sortTimeMs, e.stem.map UInt16.toNat)

/-- A Session comes before another one. -/
def Newer (a b : ScanEntry) : Prop := b.sortTimeMs < a.sortTimeMs ∨ b.sortTimeMs = a.sortTimeMs ∧ Text.less b.stem a.stem = true

variable {a b c : ScanEntry}

theorem key_lt_iff : a.key < b.key ↔ b.Newer a := by
  unfold key Newer Text.less
  rw [Prod.Lex.toLex_lt_toLex, decide_eq_true_eq]

theorem stem_inj (h : a.stem.map UInt16.toNat = b.stem.map UInt16.toNat) : a.stem = b.stem :=
  map_injective_iff.mpr (fun _ _ hunit => UInt16.toNat_inj.mp hunit) h

theorem le_iff : a.le b = true ↔ b.key ≤ a.key := by
  unfold le compare
  rw [decide_eq_true_eq, ← not_lt (a := a.key), key_lt_iff]
  unfold Newer
  by_cases htime : a.sortTimeMs = b.sortTimeMs
  · rw [if_neg (not_not.mpr htime)]
    by_cases hstem : a.stem = b.stem
    · simp [htime, hstem, Text.less]
    · rw [if_neg hstem]
      cases hless : Text.less a.stem b.stem <;> simp [htime]
  · rw [if_pos htime]
    constructor
    · rintro hle (hlt | ⟨heq, -⟩)
      · linarith
      · exact htime heq
    · intro hnot
      have := not_lt.mp fun hlt => hnot (.inl hlt)
      linarith

theorem after_eq : after a.cursor b = !b.le a := by
  have hiff : after a.cursor b = true ↔ b.key < a.key := by
    rw [key_lt_iff]
    unfold after cursor Newer
    rw [Bool.or_eq_true, Bool.and_eq_true, decide_eq_true_iff, decide_eq_true_iff]
  rw [Bool.eq_iff_iff, hiff, Bool.not_eq_true', ← Bool.not_eq_true, le_iff, not_le]

theorem le_refl (a : ScanEntry) : a.le a = true := le_iff.2 le_rfl

theorem le_trans (a b c : ScanEntry) (hab : a.le b = true) (hbc : b.le c = true) : a.le c = true :=
  le_iff.2 ((le_iff.1 hbc).trans (le_iff.1 hab))

theorem le_total (a b : ScanEntry) : (a.le b || b.le a) = true := by
  rw [Bool.or_eq_true, le_iff, le_iff]
  exact LinearOrder.le_total b.key a.key

/-- Sorted Sessions with distinct stems stand in strict order. -/
theorem newer_sorted {all : List ScanEntry} (hstems : (all.map (·.stem)).Nodup) : (all.mergeSort le).Pairwise Newer := by
  have hsrt : (all.mergeSort le).Pairwise (le · · = true) := pairwise_mergeSort le_trans le_total all
  have hnd : ((all.mergeSort le).map (·.stem)).Nodup := ((mergeSort_perm all le).map _).nodup_iff.mpr hstems
  refine (hsrt.and (pairwise_map.mp hnd)).imp fun {a b} h => ?_
  rw [← key_lt_iff]
  refine lt_of_le_of_ne (le_iff.1 h.1) fun hkey => h.2 (stem_inj ?_)
  exact (congrArg (fun k => (ofLex k).2) hkey).symm

end ScanEntry

/-! ## Rows -/

variable {catalog : Catalog} {projectId : Text} {e : ScanEntry}

/-- A row is written for every time a `Date` holds, and carries its Session's stem. -/
theorem toSessionInfo_row (htime : |e.sortTimeMs| ≤ 8640000000000000) :
    ∃ row, catalog.toSessionInfo projectId e = .ok row ∧ row.stem = e.stem := by
  unfold Catalog.toSessionInfo
  obtain ⟨timestamp, hiso⟩ : ∃ timestamp, toISOString e.sortTimeMs = .ok timestamp := ⟨_, if_neg (not_lt.mpr htime)⟩
  rw [hiso]
  dsimp only [bind, Except.bind]
  generalize (if catalog.existsSync e.abs = true then catalog.readFileMeta e.abs else none) = fileMeta
  split
  · refine ⟨_, rfl, ?_⟩
    rfl
  · refine ⟨_, rfl, ?_⟩
    rfl

/-! ## Pages -/

section Pages

variable {all bef aft : List ScanEntry} {row : ScanEntry → SessionInfo} (hscan : catalog.scan projectId = some all)
  (hrow : ∀ e ∈ all, catalog.toSessionInfo projectId e = .ok (row e))

include hrow in
theorem mapM_rows (h : ∀ e ∈ aft, e ∈ all) : aft.mapM (catalog.toSessionInfo projectId) = .ok (aft.map row) := by
  rw [mapM_ok_iff, forall₂_map_right_iff, forall₂_same]
  exact fun e he => hrow e (h e he)

include hscan hrow

/-- **A page** is what comes next in the listing. -/
theorem listSessions_page (hstems : (all.map (·.stem)).Nodup) (hsrt : all.mergeSort ScanEntry.le = bef ++ aft) (max : Option Int) :
    catalog.listSessions projectId max (bef.getLast?.map ScanEntry.cursor) =
      let sliced := aft.take ((max.filter (0 < ·)).elim aft.length Int.toNat)
      .ok ⟨sliced.map row, sliced.length < aft.length, sliced.getLast?.map ScanEntry.cursor⟩ := by
  have hafter : ((bef.getLast?.map ScanEntry.cursor).elim (all.mergeSort ScanEntry.le) fun cursor =>
      (all.mergeSort ScanEntry.le).filter (ScanEntry.after cursor)) = aft := by
    rcases eq_nil_or_concat bef with rfl | ⟨front, a, rfl⟩
    · exact hsrt
    · rw [concat_eq_append, append_assoc, singleton_append] at hsrt
      have hpairs := ScanEntry.newer_sorted hstems
      rw [hsrt] at hpairs
      have hle : (front ++ a :: aft).Pairwise (ScanEntry.le · · = true) :=
        hpairs.imp fun h => ScanEntry.le_iff.2 (ScanEntry.key_lt_iff.2 h).le
      have hbehind : ∀ e ∈ aft, e.le a = false := fun e he => by
        rw [← Bool.not_eq_true, ScanEntry.le_iff, not_le, ScanEntry.key_lt_iff]
        exact rel_of_pairwise_cons (pairwise_append.mp hpairs).2.1 he
      have hfilter := Rows.filter_after hle a.le_refl hbehind
      rw [hsrt, concat_eq_append, getLast?_concat]
      exact (filter_congr fun e _ => ScanEntry.after_eq).trans hfilter
  have hmem : ∀ e ∈ aft, e ∈ all := fun e he => (mergeSort_perm all ScanEntry.le).mem_iff.mp (hsrt ▸ mem_append_right _ he)
  unfold Catalog.listSessions
  rw [hscan]
  dsimp only
  rw [hafter, mapM_rows hrow fun e he => hmem e (mem_of_mem_take he)]
  rfl

/-- The pages from a place in the listing on are the Sessions behind it. -/
theorem follow_rows (hstems : (all.map (·.stem)).Nodup) (hsrt : all.mergeSort ScanEntry.le = bef ++ aft) {pages : Nat}
    (hpages : aft.length < pages) {sizes : Nat → Int} (hsizes : ∀ page, 0 < sizes page) :
    catalog.follow projectId pages sizes (bef.getLast?.map ScanEntry.cursor) = .ok (some (aft.map row)) := by
  induction pages generalizing bef aft sizes with
  | zero => exact absurd hpages (Nat.not_lt_zero _)
  | succ pages ih =>
    obtain ⟨size, hsize⟩ : ∃ size : Nat, sizes 0 = size := ⟨_, (Int.toNat_of_nonneg (hsizes 0).le).symm⟩
    have hpos : 0 < size := by
      have := hsizes 0
      omega
    have hlimit : ((some (sizes 0)).filter (0 < ·)).elim aft.length Int.toNat = size := by
      rw [hsize, Option.filter_some, if_pos (by simpa using hpos)]
      rfl
    rw [Catalog.follow, listSessions_page hscan hrow hstems hsrt, hlimit]
    dsimp only [bind, Except.bind]
    rw [length_take]
    by_cases hlt : size < aft.length
    · rw [if_pos (by simpa using hlt)]
      have hrest : all.mergeSort ScanEntry.le = (bef ++ aft.take size) ++ aft.drop size := by
        rw [hsrt, append_assoc, take_append_drop]
      have hlast : (bef ++ aft.take size).getLast? = (aft.take size).getLast? := by
        refine getLast?_append_of_ne_nil _ fun hnil => ?_
        have := congrArg length hnil
        rw [length_take, length_nil] at this
        omega
      have hfollow := ih hrest (by rw [length_drop]; omega) fun page => hsizes (page + 1)
      rw [hlast] at hfollow
      rw [hfollow]
      dsimp only [Option.map_some]
      rw [← map_append, take_append_drop]
      rfl
    · rw [if_neg (by simpa using hlt), take_of_length_le (Nat.not_lt.mp hlt)]
      rfl

end Pages

/-- **The pages of a listing are the listing**: every Session once, in strict order, newest first. -/
theorem follow_sessions {all : List ScanEntry} (hscan : catalog.scan projectId = some all) (hstems : (all.map (·.stem)).Nodup)
    (htimes : ∀ e ∈ all, |e.sortTimeMs| ≤ 8640000000000000) {sizes : Nat → Int} (hsizes : ∀ page, 0 < sizes page) :
    ∃ listed rows, listed.Perm all ∧ listed.Pairwise ScanEntry.Newer ∧
      List.Forall₂ (fun e row => catalog.toSessionInfo projectId e = .ok row ∧ row.stem = e.stem) listed rows ∧
      catalog.listSessions projectId none none = .ok ⟨rows, false, listed.getLast?.map ScanEntry.cursor⟩ ∧
      ∀ pages, all.length < pages → catalog.follow projectId pages sizes none = .ok (some rows) := by
  choose! row hrow using fun e he => @toSessionInfo_row catalog projectId e (htimes e he)
  have hperm := mergeSort_perm all ScanEntry.le
  have hrows : ∀ e ∈ all, catalog.toSessionInfo projectId e = .ok (row e) := fun e he => (hrow e he).1
  refine ⟨_, (all.mergeSort ScanEntry.le).map row, hperm, ScanEntry.newer_sorted hstems, ?_, ?_, fun pages hpages => ?_⟩
  · rw [forall₂_map_right_iff, forall₂_same]
    exact fun e he => hrow e (hperm.mem_iff.mp he)
  · have hpage := listSessions_page hscan hrows hstems (nil_append _).symm none
    simpa [take_of_length_le] using hpage
  · rw [← hperm.length_eq] at hpages
    exact follow_rows hscan hrows hstems (nil_append _).symm hpages hsizes

def catalogOf (all : List ScanEntry) : Catalog := ⟨fun _ => some all, fun _ => false, fun _ => none⟩

def unread (stem : String) (sortTimeMs : Rat) : ScanEntry := ⟨text stem, text stem, sortTimeMs, none⟩

theorem follow_sessions_tied : ∃ rows nextCursor,
    (catalogOf [unread "a" 1000, unread "b" 1000]).listSessions [] none none = .ok ⟨rows, false, nextCursor⟩ ∧
      (catalogOf [unread "a" 1000, unread "b" 1000]).follow [] 3 (fun _ => 1) none = .ok (some rows) := by
  have htimes : ∀ e ∈ [unread "a" 1000, unread "b" 1000], |e.sortTimeMs| ≤ 8640000000000000 := by
    intro e he
    rcases mem_pair.mp he with rfl | rfl
    · decide
    · decide
  obtain ⟨listed, rows, -, -, -, hlist, hfollow⟩ := @follow_sessions (catalogOf [unread "a" 1000, unread "b" 1000]) [] _ rfl
    (by decide) htimes (fun _ => 1) fun _ => Int.one_pos
  exact ⟨rows, _, hlist, hfollow 3 (by decide)⟩

/-- A time that no `Date` holds has no text, and the listing throws. -/
theorem late_session_throws : ([unread "a" 8640000000000001].map (·.stem)).Nodup ∧ ∀ pages rows,
    (catalogOf [unread "a" 8640000000000001]).follow [] pages (fun _ => 1) none ≠ .ok (some rows) := by
  refine ⟨nodup_singleton _, fun pages rows h => ?_⟩
  have hpage : (catalogOf [unread "a" 8640000000000001]).listSessions [] (some 1) none =
      .error (.rangeError (text "Invalid time value")) := by
    unfold Catalog.listSessions
    dsimp only [catalogOf]
    rw [mergeSort_singleton]
    rfl
  cases pages with
  | zero => cases h
  | succ pages =>
    rw [Catalog.follow, hpage] at h
    cases h

end PiBridge.SessionCatalog
