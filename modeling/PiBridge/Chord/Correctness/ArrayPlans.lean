import PiBridge.Chord.Delta.ArrayPlan
import Mathlib.Data.List.Perm.Basic
import Mathlib.Data.List.Sort

/-!
# `Chord.Correctness.ArrayPlans` — a plan makes the pieces of the array

Removing the runs leaves the retained elements (`fold_removeRuns`), the permutation puts them in the order of the pieces
(`permuted_eq`), and every run of pieces is inserted where the elements before it end (`fold_insertRuns`). The plan of ordered
pieces is the plan of any pieces (`orderedArrayPlan_eq`), as both remove the gaps between the ranges.
-/

namespace PiBridge.Chord

open List

attribute [local simp] runStart removeRuns gapRuns orderedRanges insertRunsOf

variable {α : Type} {xs : List α} {pieces : List (Piece α)} {retn : Nat → Bool}

/-- The elements at some indices. -/
def pick (xs : List α) (indices : List Nat) : List α := indices.filterMap (xs[·]?)

theorem pick_append (xs : List α) (is js : List Nat) : pick xs (is ++ js) = pick xs is ++ pick xs js := filterMap_append

theorem getElem?_pick {is : List Nat} (h : ∀ i ∈ is, i < xs.length) (j : Nat) : (pick xs is)[j]? = is[j]?.bind (xs[·]?) := by
  induction is generalizing j with
  | nil => rfl
  | cons i is ih =>
    have hlt := h i mem_cons_self
    have hi : xs[i]? = some xs[i] := getElem?_eq_getElem hlt
    have hcons : pick xs (i :: is) = xs[i] :: pick xs is := filterMap_cons_some hi
    rw [hcons]
    cases j with
    | zero => exact hi.symm
    | succ j => exact ih (fun k hk => h k (mem_cons_of_mem _ hk)) j

theorem length_pick {is : List Nat} (h : ∀ i ∈ is, i < xs.length) : (pick xs is).length = is.length := by
  induction is with
  | nil => rfl
  | cons i is ih =>
    have hlt := h i mem_cons_self
    have hcons : pick xs (i :: is) = xs[i] :: pick xs is := filterMap_cons_some (getElem?_eq_getElem hlt)
    rw [hcons, length_cons, length_cons, ih fun k hk => h k (mem_cons_of_mem _ hk)]

/-! ## The runs that are removed -/

theorem runStart_spec {stop i : Nat} (hle : runStart retn stop ≤ i) (hlt : i < stop) : retn i = false := by
  induction stop with
  | zero => exact absurd hlt (Nat.not_lt_zero i)
  | succ stop ih =>
    unfold runStart at hle
    split at hle
    · omega
    · rename_i hnot
      rcases Nat.lt_succ_iff_lt_or_eq.mp hlt with hlt | rfl
      · exact ih hle hlt
      · exact Bool.eq_false_iff.mpr hnot

/-- Nothing is retained between the two. -/
theorem filter_range_gap {st stop : Nat} (hle : st ≤ stop) (h : ∀ i, st ≤ i → i < stop → retn i = false) :
    (range stop).filter retn = (range st).filter retn := by
  induction stop, hle using Nat.le_induction with
  | base => rfl
  | succ stop hle ih =>
    rw [range_succ, filter_append, ih fun i hi hlt => h i hi (Nat.lt_succ_of_lt hlt)]
    simp [h stop hle (Nat.lt_succ_self stop)]

/-- **Removing the runs leaves the retained elements.** -/
theorem fold_removeRuns (retn : Nat → Bool) (stop : Nat) (hle : stop ≤ xs.length) :
    (removeRuns retn stop).foldl (fun ys run => spliceAt ys run.1 run.2 []) xs =
      pick xs ((range stop).filter retn) ++ xs.drop stop := by
  induction stop using removeRuns.induct retn generalizing xs with
  | case1 =>
    rw [removeRuns]
    rfl
  | case2 stop hkeep ih =>
    rw [removeRuns, if_pos hkeep, ih (by omega), range_succ, filter_append, pick_append, append_assoc, drop_eq_getElem_cons hle]
    simp [pick, hkeep, getElem?_eq_getElem hle]
  | case3 stop hgap ih =>
    have hstart := runStart_le retn stop
    have hsplice : spliceAt xs (runStart retn stop) (stop + 1 - runStart retn stop) [] =
        xs.take (runStart retn stop) ++ xs.drop (stop + 1) := by
      rw [spliceAt, append_nil, Nat.add_sub_cancel' (by omega)]
    have htake : (xs.take (runStart retn stop)).length = runStart retn stop := length_take_of_le (by omega)
    have hdrop : (xs.take (runStart retn stop) ++ xs.drop (stop + 1)).drop (runStart retn stop) = xs.drop (stop + 1) :=
      drop_left' htake
    have hpick : pick (xs.take (runStart retn stop) ++ xs.drop (stop + 1)) ((range (runStart retn stop)).filter retn) =
        pick xs ((range (runStart retn stop)).filter retn) := by
      refine filterMap_congr fun i hi => ?_
      have hlt := mem_range.mp (mem_of_mem_filter hi)
      rw [getElem?_append_left (by omega), getElem?_take_of_lt hlt]
    have hdropped : ∀ i, runStart retn stop ≤ i → i < stop + 1 → retn i = false := by
      intro i hi hlt
      rcases Nat.lt_succ_iff_lt_or_eq.mp hlt with hlt | rfl
      · exact runStart_spec hi hlt
      · exact Bool.eq_false_iff.mpr hgap
    rw [removeRuns, if_neg hgap, foldl_cons, hsplice, ih (by rw [length_append, htake]; exact Nat.le_add_right ..), hdrop, hpick,
      filter_range_gap (by omega) hdropped]

theorem removeRuns_kept {st stop : Nat} (hle : st ≤ stop) (h : ∀ i, st ≤ i → i < stop → retn i = true) :
    removeRuns retn stop = removeRuns retn st := by
  induction stop, hle using Nat.le_induction with
  | base => rfl
  | succ stop hle ih => rw [removeRuns, if_pos (h stop hle (Nat.lt_succ_self stop)), ih fun i hi hlt => h i hi (Nat.lt_succ_of_lt hlt)]

theorem runStart_gap {st stop : Nat} (hle : st ≤ stop) (h : ∀ i, st ≤ i → i < stop → retn i = false)
    (hkeep : st = 0 ∨ retn (st - 1) = true) : runStart retn stop = st := by
  induction stop, hle using Nat.le_induction with
  | base =>
    cases st with
    | zero => rfl
    | succ st => exact if_pos (hkeep.resolve_left (Nat.succ_ne_zero st))
  | succ stop hle ih =>
    rw [runStart, h stop hle (Nat.lt_succ_self stop)]
    exact ih fun i hi hlt => h i hi (Nat.lt_succ_of_lt hlt)

theorem removeRuns_gap {st stop : Nat} (hle : st ≤ stop) (h : ∀ i, st ≤ i → i < stop → retn i = false)
    (hkeep : st = 0 ∨ retn (st - 1) = true) :
    removeRuns retn stop = (if st < stop then [(st, stop - st)] else []) ++ removeRuns retn st := by
  rcases Nat.eq_or_lt_of_le hle with rfl | hlt
  · rw [if_neg (Nat.lt_irrefl _), nil_append]
  · obtain ⟨last, rfl⟩ : ∃ last, stop = last + 1 := ⟨stop - 1, by omega⟩
    have hstart := runStart_gap (Nat.le_of_lt_succ hlt) (fun i hi hi' => h i hi (Nat.lt_succ_of_lt hi')) hkeep
    rw [if_pos hlt, removeRuns, h last (Nat.le_of_lt_succ hlt) (Nat.lt_succ_self last), hstart]
    rfl

/-- The gaps between the ranges are the runs to remove. -/
theorem gapRuns_eq {ranges : List (Nat × Nat)} {stop : Nat} (hpairs : ranges.Pairwise fun r r' => r'.2 < r.1)
    (hranges : ∀ r ∈ ranges, r.1 ≤ r.2 ∧ r.2 < stop) (h : ∀ i < stop, retn i = true ↔ ∃ r ∈ ranges, r.1 ≤ i ∧ i ≤ r.2) :
    gapRuns stop ranges = removeRuns retn stop := by
  induction ranges generalizing stop with
  | nil =>
    rw [removeRuns_gap (Nat.zero_le stop) (fun i _ hlt => Bool.eq_false_iff.mpr fun hkeep => ?_) (.inl rfl), removeRuns,
      append_nil, Nat.sub_zero]
    · rfl
    · obtain ⟨r, hr, -⟩ := (h i hlt).mp hkeep
      cases hr
  | cons rng ranges ih =>
    obtain ⟨fst, last⟩ := rng
    obtain ⟨hle, hlt⟩ := hranges _ mem_cons_self
    have hbehind : ∀ r ∈ ranges, r.2 < fst := fun r hr => rel_of_pairwise_cons hpairs hr
    have hkept : ∀ i, fst ≤ i → i < last + 1 → retn i = true := fun i hi hi' =>
      (h i (by omega)).mpr ⟨_, mem_cons_self, hi, Nat.le_of_lt_succ hi'⟩
    have hgap : ∀ i, last + 1 ≤ i → i < stop → retn i = false := by
      intro i hi hi'
      refine Bool.eq_false_iff.mpr fun hkeep => ?_
      obtain ⟨r, hr, hri, hri'⟩ := (h i hi').mp hkeep
      rcases mem_cons.mp hr with rfl | hr
      · dsimp only at hri'
        omega
      · have := hbehind r hr
        omega
    rw [gapRuns, removeRuns_gap hlt hgap (.inr (hkept last hle (Nat.lt_succ_self last))), removeRuns_kept (by omega) hkept,
      ih hpairs.of_cons (fun r hr => ⟨(hranges r (mem_cons_of_mem _ hr)).1, hbehind r hr⟩) fun i hi => ?_]
    rw [h i (by omega)]
    constructor
    · rintro ⟨r, hr, hri⟩
      rcases mem_cons.mp hr with rfl | hr
      · exact absurd hri.1 (Nat.not_le.mpr hi)
      · exact ⟨r, hr, hri⟩
    · rintro ⟨r, hr, hri⟩
      exact ⟨r, mem_cons_of_mem _ hr, hri⟩

/-! ## The order of the pieces -/

section Target

variable {tgt : List Nat} {n : Nat} (hdistinct : tgt.Nodup) (hbelow : ∀ i ∈ tgt, i < n)

include hdistinct hbelow

theorem retained_perm : tgt.Perm ((range n).filter (tgt.contains ·)) := by
  refine (perm_ext_iff_of_nodup hdistinct (nodup_range.filter _)).mpr fun i => ?_
  rw [mem_filter, mem_range, contains_iff_mem]
  exact ⟨fun hi => ⟨hbelow i hi, hi⟩, And.right⟩

/-- **The permutation puts the retained elements in the order of the pieces.** -/
theorem permuted_eq (hn : n ≤ xs.length) : let rbase := (range n).filter (tgt.contains ·)
    (if tgt.zipIdx.any fun value => rbase[value.2]? ≠ some value.1 then some (tgt.map rbase.idxOf) else none).elim
      (some (pick xs rbase)) (permute (pick xs rbase)) = some (pick xs tgt) := by
  intro rbase
  have hperm : tgt.Perm rbase := retained_perm hdistinct hbelow
  have hlt : ∀ i ∈ rbase, i < xs.length := fun i hi => (hbelow i (hperm.mem_iff.mpr hi)).trans_le hn
  split
  · have hlen : (pick xs rbase).length = (tgt.map rbase.idxOf).length := by
      rw [length_pick hlt, length_map, hperm.length_eq]
    refine (if_pos hlen).trans (congrArg some ?_)
    rw [filterMap_map]
    refine filterMap_congr fun i hi => ?_
    rw [Function.comp_apply, getElem?_pick hlt, getElem?_idxOf (hperm.mem_iff.mp hi)]
    rfl
  · rename_i hsame
    refine congrArg (fun is => some (pick xs is)) (ext_getElem? fun j => ?_).symm
    cases hj : tgt[j]? with
    | none =>
      rw [getElem?_eq_none_iff, hperm.length_eq] at hj
      exact (getElem?_eq_none hj).symm
    | some i =>
      by_contra hne
      refine hsame (any_eq_true.mpr ⟨(i, j), mem_zipIdx_iff_getElem?.mpr hj, ?_⟩)
      exact decide_eq_true (Ne.symm hne)

end Target

theorem orderedRanges_spec {previous : Option Nat} {ranges : List (Nat × Nat)} (h : orderedRanges previous pieces = some ranges) :
    (∀ r ∈ ranges, previous.all (· < r.1) = true ∧ r.1 ≤ r.2) ∧ (ranges.Pairwise fun r r' => r.2 < r'.1) ∧
      targetBase pieces = ranges.flatMap fun r => range' r.1 (r.2 + 1 - r.1) := by
  induction pieces generalizing previous ranges with
  | nil =>
    cases h
    exact ⟨nofun, .nil, rfl⟩
  | cons pc pieces ih =>
    cases pc with
    | insert => exact ih h
    | base st length step =>
      rw [orderedRanges] at h
      split_ifs at h with hempty hstep hprevious
      · obtain ⟨hall, hpairs, htarget⟩ := ih h
        refine ⟨hall, hpairs, ?_⟩
        have hnil : (Piece.base (α := α) st length step).baseIndices = [] := by rw [Piece.baseIndices, hempty]; rfl
        rw [targetBase_cons, htarget, hnil, nil_append]
      · obtain ⟨ranges, hrest, rfl⟩ := Option.map_eq_some_iff.mp h
        obtain ⟨hall, hpairs, htarget⟩ := ih hrest
        have hlast : ∀ r ∈ ranges, st + length - 1 < r.1 := fun r hr => of_decide_eq_true (hall r hr).1
        refine ⟨fun r hr => ?_, pairwise_cons.mpr ⟨hlast, hpairs⟩, ?_⟩
        · have hbehind : previous.all (· < st) = true := by
            cases previous with
            | none => rfl
            | some last => simpa using hprevious
          rcases mem_cons.mp hr with rfl | hr
          · exact ⟨hbehind, by dsimp only; omega⟩
          · refine ⟨?_, (hall r hr).2⟩
            have hlt := hlast r hr
            cases previous with
            | none => rfl
            | some last =>
              have := of_decide_eq_true hbehind
              exact decide_eq_true (by omega)
        · have hup : (range length).map (step.at st) = range' st length := by
            rw [range'_eq_map_range]
            refine map_congr_left fun offset hoffset => ?_
            cases step with
            | up => rfl
            | down =>
              -- a run of one element goes nowhere
              have hone : ¬1 < length := fun hlt => hstep ⟨nofun, hlt⟩
              have := mem_range.mp hoffset
              obtain rfl : offset = 0 := by omega
              rfl
          have hlen : st + length - 1 + 1 - st = length := by omega
          rw [targetBase_cons, htarget, Piece.baseIndices, hup, flatMap_cons, hlen]

/-- **Where the plan of ordered pieces answers, it is the plan of any pieces.** -/
theorem orderedArrayPlan_eq {n : Nat} {plan : ArrayPlan} (hbelow : ∀ i ∈ targetBase pieces, i < n)
    (h : orderedArrayPlan n pieces = some plan) : plan = elementArrayPlan n pieces := by
  obtain ⟨ranges, hranges, rfl⟩ := Option.map_eq_some_iff.mp h
  obtain ⟨hall, hpairs, htarget⟩ := orderedRanges_spec hranges
  have hmem : ∀ i, i ∈ targetBase pieces ↔ ∃ r ∈ ranges, r.1 ≤ i ∧ i ≤ r.2 := by
    intro i
    rw [htarget, mem_flatMap]
    refine exists_congr fun r => and_congr_right fun hr => ?_
    rw [mem_range'_1]
    omega
  have hsorted : (targetBase pieces).Pairwise (· < ·) := by
    rw [htarget, pairwise_flatMap]
    refine ⟨fun r _ => pairwise_lt_range', hpairs.imp_of_mem fun {r r'} hr hr' hlt i hi j hj => ?_⟩
    have hri := mem_range'_1.mp hi
    have hrj := mem_range'_1.mp hj
    have := (hall r hr).2
    omega
  have hsame : targetBase pieces = (range n).filter ((targetBase pieces).contains ·) :=
    (retained_perm (hsorted.imp Nat.ne_of_lt) hbelow).eq_of_pairwise (fun _ _ _ _ hlt hgt => absurd hgt (Nat.lt_asymm hlt)) hsorted
      (pairwise_lt_range.filter _)
  have hgaps : gapRuns n ranges.reverse = removeRuns (fun index => (targetBase pieces).contains index) n := by
    refine gapRuns_eq (pairwise_reverse.mpr hpairs) (fun r hr => ?_) fun i _ => ?_
    · have hr := mem_reverse.mp hr
      have hle := (hall r hr).2
      exact ⟨hle, hbelow _ ((hmem r.2).mpr ⟨r, hr, hle, Nat.le_refl _⟩)⟩
    · simp only [contains_iff_mem, hmem, mem_reverse]
  have hnone : ((targetBase pieces).zipIdx.any fun value =>
      ((range n).filter ((targetBase pieces).contains ·))[value.2]? ≠ some value.1) = false := by
    rw [← hsame]
    refine any_eq_false.mpr fun value hvalue => ?_
    simpa using mem_zipIdx_iff_getElem?.mp hvalue
  unfold elementArrayPlan
  simp only [hgaps, hnone]
  rfl

/-! ## The pieces that are inserted -/

theorem elements_eq_pick {pc : Piece α} (h : pc.isBase = true) : pc.elements xs = pick xs pc.baseIndices := by
  cases pc with
  | base => exact (filterMap_map ..).symm
  | insert => cases h

theorem baseIndices_inserts {run : List (Piece α)} (h : ∀ pc ∈ run, pc.isBase = false) : targetBase run = [] :=
  flatMap_eq_nil_iff.mpr fun pc hpiece => by
    cases pc with
    | base => cases h _ hpiece
    | insert => rfl

theorem length_inserts {run : List (Piece α)} (h : ∀ pc ∈ run, pc.isBase = false) :
    (run.flatMap (Piece.elements xs)).length = rangeLength run := by
  rw [length_flatMap, rangeLength]
  refine congrArg sum (map_congr_left fun pc hpiece => ?_)
  cases pc with
  | base => cases h _ hpiece
  | insert => simp [Piece.elements, Piece.length]

/-- **Every run of pieces is inserted where the elements before it end.** -/
theorem fold_insertRuns {all front : List (Piece α)} {done : List α} (hall : all = front ++ pieces)
    (hbelow : ∀ i ∈ targetBase pieces, i < xs.length) :
    (insertRunsOf done.length front.length pieces).foldl (fun ys run =>
        spliceAt ys run.1 0 (((all.take run.2.2).drop run.2.1).flatMap (Piece.elements xs))) (done ++ pick xs (targetBase pieces)) =
      done ++ pieces.flatMap (Piece.elements xs) := by
  induction hlen : pieces.length using Nat.strong_induction_on generalizing pieces front done with
  | _ n ih =>
    subst hlen
    cases pieces with
    | nil =>
      rw [insertRunsOf]
      rfl
    | cons pc pieces =>
      rw [insertRunsOf]
      cases hbase : pc.isBase with
      | true =>
        have hlt : ∀ i ∈ pc.baseIndices, i < xs.length := fun i hi => hbelow i (mem_append_left _ hi)
        have hlength : (pc.elements xs).length = pc.length := by
          rw [elements_eq_pick hbase, length_pick hlt]
          cases pc with
          | base => simp [Piece.baseIndices, Piece.length]
          | insert => cases hbase
        have hfront : all = (front ++ [pc]) ++ pieces := by rw [append_assoc, hall]; rfl
        have hrest := @ih pieces.length (Nat.lt_succ_self _) pieces (front ++ [pc]) (done ++ pc.elements xs) hfront
          (fun i hi => hbelow i (mem_append_right _ hi)) rfl
        rw [length_append, length_append, hlength, append_assoc, append_assoc] at hrest
        rw [if_pos rfl, targetBase_cons, pick_append, ← elements_eq_pick hbase, flatMap_cons]
        exact hrest
      | false =>
        have hrun : ∀ p ∈ pc :: pieces.takeWhile (!·.isBase), p.isBase = false := by
          intro p hp
          rcases mem_cons.mp hp with rfl | hp
          · exact hbase
          · simpa using all_eq_true.mp all_takeWhile p hp
        have hsplit : pc :: pieces = (pc :: pieces.takeWhile (!·.isBase)) ++ pieces.dropWhile (!·.isBase) := by
          rw [cons_append, takeWhile_append_dropWhile]
        have hshort : (pieces.dropWhile (!·.isBase)).length < (pc :: pieces).length := Nat.lt_succ_of_le (dropWhile_sublist _).length_le
        rw [if_neg Bool.false_ne_true]
        rw [hsplit] at hall hbelow ⊢
        generalize pc :: pieces.takeWhile (!·.isBase) = run at hrun hall hbelow ⊢
        generalize pieces.dropWhile (!·.isBase) = rest at hshort hall hbelow ⊢
        have hitems : (all.take (front.length + run.length)).drop front.length = run := by
          rw [hall, ← append_assoc, ← length_append, take_left, drop_left]
        have htarget : targetBase (run ++ rest) = targetBase rest := by
          rw [targetBase, flatMap_append, ← targetBase, baseIndices_inserts hrun]
          rfl
        have hinsert : spliceAt (done ++ pick xs (targetBase rest)) done.length 0 (run.flatMap (Piece.elements xs)) =
            done ++ run.flatMap (Piece.elements xs) ++ pick xs (targetBase rest) := by
          rw [spliceAt, take_left, Nat.add_zero, drop_left]
        have hrest := @ih rest.length hshort rest (front ++ run) (done ++ run.flatMap (Piece.elements xs)) (by rw [append_assoc, hall])
          (fun i hi => hbelow i (htarget ▸ hi)) rfl
        rw [length_append, length_append, length_inserts hrun] at hrest
        simp only [foldl_cons, Nat.add_sub_cancel]
        rw [hitems, htarget, hinsert, hrest, flatMap_append, append_assoc]

/-- **The plan makes the pieces of the array, and the plan of ordered pieces, where it answers, is the plan of any pieces.** -/
theorem buildArrayPlan_exact (hdistinct : (targetBase pieces).Nodup) (hbelow : ∀ i ∈ targetBase pieces, i < xs.length) :
    (buildArrayPlan xs.length pieces).apply pieces xs = some (pieces.flatMap (Piece.elements xs)) ∧
      ∀ plan, orderedArrayPlan xs.length pieces = some plan → plan = elementArrayPlan xs.length pieces := by
  have hordered := fun plan h => @orderedArrayPlan_eq α pieces xs.length plan hbelow h
  refine ⟨?_, hordered⟩
  have hbuild : buildArrayPlan xs.length pieces = elementArrayPlan xs.length pieces := by
    unfold buildArrayPlan
    cases h : orderedArrayPlan xs.length pieces with
    | none => rfl
    | some plan => exact hordered plan h
  have hkept := @fold_removeRuns α xs (fun index => (targetBase pieces).contains index) xs.length (Nat.le_refl _)
  rw [drop_length, append_nil] at hkept
  have hpermuted := permuted_eq hdistinct hbelow (Nat.le_refl xs.length)
  have hinserted := @fold_insertRuns α xs pieces pieces [] [] rfl hbelow
  rw [hbuild]
  unfold ArrayPlan.apply elementArrayPlan
  dsimp only
  rw [hkept, hpermuted]
  exact congrArg some hinserted

theorem buildArrayPlan_exact_moved : let pieces : List (Piece Nat) := [.base 3 2 .down, .insert id 7 1 .up, .base 0 1 .up]
    (buildArrayPlan 4 pieces).apply pieces [10, 11, 12, 13] = some [13, 12, 7, 10] :=
  (@buildArrayPlan_exact Nat [10, 11, 12, 13] [.base 3 2 .down, .insert id 7 1 .up, .base 0 1 .up] (by decide) (by decide)).1

end PiBridge.Chord
