import PiBridge.Chord.Delta.Match
import Mathlib.Data.List.Sort
import Mathlib.Data.List.TakeWhile

/-!
# `Chord.Correctness.Matches` — every way to find pairs finds increasing ones

One lemma per strategy. The chains of `identityAnchors` need the invariant of its piles (`Piles.Linked`): a
candidate's predecessor is earlier on both sides. That is all `lowerBound` is used for, and it holds whether or
not the values searched are sorted (`lowerBound_spec`).
-/

namespace PiBridge.Chord

open List Option Nat

variable {α : Type} {be ae beforeAt afterAt : Nat} {pairs : List ArrayMatch}

/-! ## Increasing pairs -/

section

variable (h : Increasing be ae beforeAt afterAt pairs)

include h

theorem Increasing.weaken {beforeAt' afterAt' : Nat}
    (hb : beforeAt' ≤ beforeAt) (ha : afterAt' ≤ afterAt) : Increasing be ae beforeAt' afterAt' pairs := by
  cases pairs with
  | nil => exact ⟨hb.trans h.1, ha.trans h.2⟩
  | cons pair rest => exact ⟨hb.trans h.1, h.2.1, ha.trans h.2.2.1, h.2.2.2⟩

theorem Increasing.swap :
    Increasing ae be afterAt beforeAt (pairs.map Prod.swap) := by
  induction pairs generalizing beforeAt afterAt with
  | nil => exact ⟨h.2, h.1⟩
  | cons pair rest ih =>
    obtain ⟨hb, hbe, ha, hae, hrest⟩ := h
    exact ⟨ha, hae, hb, hbe, ih hrest⟩

theorem Increasing.shift (b a : Nat) :
    Increasing (b + be) (a + ae) (b + beforeAt) (a + afterAt)
      (pairs.map fun pair => (b + pair.1, a + pair.2)) := by
  induction pairs generalizing beforeAt afterAt with
  | nil => exact ⟨Nat.add_le_add_left h.1 b, Nat.add_le_add_left h.2 a⟩
  | cons pair rest ih =>
    obtain ⟨hb, hbe, ha, hae, hrest⟩ := h
    exact ⟨Nat.add_le_add_left hb b, Nat.add_lt_add_left hbe b, Nat.add_le_add_left ha a, Nat.add_lt_add_left hae a, ih hrest⟩

end

/-- Pairs of one offset, at increasing offsets. -/
theorem increasing_positional (p : Nat → Bool) (bs afs off cnt : Nat) :
    Increasing (bs + (off + cnt)) (afs + (off + cnt)) (bs + off)
      (afs + off)
      (((List.range' off cnt).filter p).map fun off => (bs + off, afs + off)) := by
  induction cnt generalizing off with
  | zero => exact ⟨le_refl _, le_refl _⟩
  | succ cnt ih =>
    have hrest := ih (off + 1)
    rw [show off + 1 + cnt = off + (cnt + 1) by omega] at hrest
    rw [range'_succ, filter_cons]
    split
    · exact ⟨le_refl _, by omega, le_refl _, by omega, hrest⟩
    · exact hrest.weaken (by omega) (by omega)

/-! ## Searching -/

theorem lowerBoundFrom_spec (vals : List Nat) (v fuel low high : Nat) (hfuel : high - low ≤ fuel)
    (hle : low ≤ high) (hlow : low = 0 ∨ vals.getD (low - 1) 0 < v)
    (hhigh : high = vals.length ∨ v ≤ vals.getD high 0) :
    lowerBoundFrom vals v fuel low high ≤ high ∧ (lowerBoundFrom vals v fuel low high = 0 ∨
        vals.getD (lowerBoundFrom vals v fuel low high - 1) 0 < v) ∧
      (lowerBoundFrom vals v fuel low high = vals.length ∨ v ≤ vals.getD (lowerBoundFrom vals v fuel low high) 0) := by
  induction fuel generalizing low high with
  | zero =>
    obtain rfl : low = high := by omega
    exact ⟨le_refl _, hlow, hhigh⟩
  | succ fuel ih =>
    unfold lowerBoundFrom
    split
    · dsimp only
      split
      · rename_i hlt hless
        exact ih _ _ (by omega) (by omega) (Or.inr (by simpa using hless)) hhigh
      · rename_i hlt hless
        obtain ⟨hmiddle, hrest⟩ := ih low ((low + high) / 2) (by omega) (by omega) hlow (Or.inr (by omega))
        exact ⟨by omega, hrest⟩
    · obtain rfl : low = high := by omega
      exact ⟨le_refl _, hlow, hhigh⟩

/-- What is below the bound it returns is smaller, and what is at it is not; sorted or not. -/
theorem lowerBound_spec (vals : List Nat) (v : Nat) : lowerBound vals v ≤ vals.length ∧
      (lowerBound vals v = 0 ∨ vals.getD (lowerBound vals v - 1) 0 < v) ∧
      (lowerBound vals v = vals.length ∨ v ≤ vals.getD (lowerBound vals v) 0) :=
  lowerBoundFrom_spec vals v vals.length 0 vals.length (by omega) (zero_le _) (Or.inl rfl) (Or.inl rfl)

theorem firstFrom_spec {p : Nat → Bool} {st stop fnd : Nat} (h : firstFrom p st stop = some fnd) :
    st ≤ fnd ∧ fnd < stop ∧ p fnd = true := by
  have hmem := mem_of_find?_eq_some h
  rw [mem_range'_1] at hmem
  exact ⟨hmem.1, by omega, find?_some h⟩

theorem countWhile_le (p : Nat → Bool) (lim : Nat) : countWhile p lim ≤ lim := by
  have hle := ( takeWhile_prefix p (l := range lim)).length_le
  rwa [length_range] at hle

theorem of_lt_countWhile {p : Nat → Bool} {lim off : Nat} (h : off < countWhile p lim) : p off = true := by
  have hget : ((range lim).takeWhile p)[off] = off := by
    have hpre := takeWhile_prefix p (l := range lim)
    rw [hpre.getElem h, getElem_range]
  rw [← hget]
  exact mem_takeWhile_imp (getElem_mem h)

/-! ## The strategies -/

section Identity

variable {same : α → α → Bool} {bef aft : List α}

theorem mem_positions {st stop idx : Nat} {v : α} : idx ∈ positions same bef st stop v ↔
      st ≤ idx ∧ idx < stop ∧ ∃ element, bef[idx]? = some element ∧ same element v = true := by
  unfold positions
  rw [mem_filter, mem_range'_1, Option.any_eq_true]
  constructor
  · rintro ⟨hrng, hsame⟩
    exact ⟨hrng.1, by omega, hsame⟩
  · rintro ⟨hsta, hstop, hsame⟩
    exact ⟨⟨hsta, by omega⟩, hsame⟩

theorem positions_sorted (same : α → α → Bool) (bef : List α) (st stop : Nat) (v : α) :
    (positions same bef st stop v).Pairwise (· < ·) :=
  Pairwise.filter _ pairwise_lt_range'

theorem increasing_subsequence {p : Nat → Nat → Bool} {longEnd longAt st cnt : Nat} (hle : longAt ≤ longEnd)
    (h : subsequence p longEnd longAt (List.range' st cnt) = some pairs) :
    Increasing longEnd (st + cnt) longAt st pairs := by
  induction cnt generalizing longAt st pairs with
  | zero =>
    cases h
    exact ⟨hle, le_refl _⟩
  | succ cnt ih =>
    obtain ⟨fnd, hfnd, h⟩ := bind_eq_some_iff.mp h
    obtain ⟨rest, hrest, rfl⟩ := map_eq_some_iff.mp h
    obtain ⟨hge, hlt, -⟩ := firstFrom_spec hfnd
    have hincr := ih hlt hrest
    rw [show st + 1 + cnt = st + (cnt + 1) by omega] at hincr
    exact ⟨hge, hlt, le_refl _, by omega, hincr⟩

variable {bs : Nat}

theorem increasing_identitySubsequence {be afs ae : Nat}
    (hb : bs ≤ be) (ha : afs ≤ ae)
    (h : identitySubsequence same bef aft bs be afs ae = some pairs) :
    Increasing be ae bs afs pairs := by
  unfold identitySubsequence at h
  dsimp only at h
  split at h
  · have hincr := increasing_subsequence hb h
    rwa [Nat.add_sub_cancel' ha] at hincr
  · split at h
    · obtain ⟨swapped, hswapped, rfl⟩ := map_eq_some_iff.mp h
      have hincr := increasing_subsequence ha hswapped
      rw [Nat.add_sub_cancel' hb] at hincr
      exact hincr.swap
    · exact nomatch h

theorem mem_candidatesOf {be aidx idx : Nat}
    (h : idx ∈ candidatesOf same bef aft bs be aidx) : bs ≤ idx ∧ idx < be := by
  unfold candidatesOf at h
  split at h
  · obtain ⟨hsta, hstop, -⟩ := mem_positions.1 h
    exact ⟨hsta, hstop⟩
  · exact nomatch h

theorem candidatesOf_sorted (same : α → α → Bool) (bef aft : List α) (bs be aidx : Nat) :
    (candidatesOf same bef aft bs be aidx).Pairwise (· < ·) := by
  unfold candidatesOf
  split
  · exact positions_sorted _ _ _ _ _
  · exact Pairwise.nil

theorem increasing_greedy (cnt st : Nat) {be from_ beforeAt : Nat} (hfrom : beforeAt ≤ max bs from_)
    (hle : beforeAt ≤ be) : Increasing be (st + cnt) beforeAt st
      (greedyIdentityAnchors same bef aft bs be from_ (List.range' st cnt)) := by
  induction cnt generalizing from_ beforeAt st with
  | zero => exact ⟨hle, le_refl _⟩
  | succ cnt ih =>
    rw [range'_succ]
    unfold greedyIdentityAnchors
    dsimp only
    split
    · have hrest := ih (st + 1) hfrom hle
      rw [show st + 1 + cnt = st + (cnt + 1) by omega] at hrest
      exact hrest.weaken (le_refl _) (le_succ _)
    · rename_i bidx hget
      obtain ⟨hsta, hstop⟩ := mem_candidatesOf (mem_of_getElem? hget)
      obtain ⟨-, -, hat⟩ := lowerBound_spec
        (candidatesOf same bef aft bs be st) from_
      have hge : from_ ≤ bidx := by
        rcases hat with hlen | hat
        · rw [hlen, getElem?_eq_none (le_refl _)] at hget
          exact nomatch hget
        · rwa [getD_eq_getElem?_getD, hget] at hat
      have hfrom' : bidx + 1 ≤ max bs (bidx + 1) := le_max_right _ _
      have hrest := ih (st + 1) hfrom' hstop
      rw [show st + 1 + cnt = st + (cnt + 1) by omega] at hrest
      exact ⟨by omega, hstop, le_refl _, by omega, hrest⟩

end Identity

/-! ### Chains of identical elements -/

theorem length_assignAt (xs : List Nat) {idx v : Nat} (h : idx ≤ xs.length) : (assignAt xs idx v).length = max xs.length (idx + 1) := by
  unfold assignAt
  split
  · rw [length_set]
    omega
  · rw [length_append, length_singleton]
    omega

theorem getElem?_assignAt (xs : List Nat) {idx v : Nat} (h : idx ≤ xs.length) (at_ : Nat) :
    (assignAt xs idx v)[at_]? = if at_ = idx then some v else xs[at_]? := by
  unfold assignAt
  split
  · rename_i hlt
    by_cases heq : idx = at_
    · subst heq
      simp [hlt]
    · simp [heq, Ne.symm heq]
  · obtain rfl : idx = xs.length := by omega
    split
    · rename_i heq
      subst heq
      exact getElem?_concat_length
    · rename_i hne
      by_cases hlt : at_ < xs.length
      · exact getElem?_append_left hlt
      · have hge : (xs ++ [v]).length ≤ at_ := by
          rw [length_append, length_singleton]
          omega
        rw [getElem?_eq_none hge, getElem?_eq_none (by omega)]

/-- Candidates are in range and linked to smaller ones, and the piles end in candidates. -/
structure Piles.Linked (piles : Piles) (beforeStart beforeEnd afterStart afterEnd : Nat) : Prop where
  length : piles.tails.length = piles.tailValues.length
  inRange : ∀ candidate ∈ piles.candidates, beforeStart ≤ candidate.before ∧ candidate.before < beforeEnd ∧
    afterStart ≤ candidate.after ∧ candidate.after < afterEnd
  previous : ∀ candidate ∈ piles.candidates, ∀ index : Nat, candidate.previous = some index →
    ∃ previous : MatchCandidate, piles.candidates[index]? = some previous ∧ previous.before < candidate.before ∧
      previous.after < candidate.after
  tails : ∀ pile index : Nat, piles.tails[pile]? = some index → ∃ candidate : MatchCandidate, piles.candidates[index]? = some candidate ∧
      piles.tailValues[pile]? = some candidate.before

namespace Piles

variable {piles : Piles} {bs be afs ae : Nat}

theorem Linked.start : Linked start bs be afs ae := ⟨rfl, nofun, nofun, nofun⟩

section

variable (h : Linked piles bs be afs ae)

include h

/-- A candidate to the left of those of its own position in `after` is added. -/
theorem Linked.add {bidx aidx : Nat}
    (hb : bs ≤ bidx ∧ bidx < be) (ha : afs ≤ aidx ∧ aidx < ae)
    (hnew : ∀ cand ∈ piles.candidates, cand.after < aidx ∨ bidx < cand.before) :
    Linked (piles.add bidx aidx) bs be afs ae := by
  obtain ⟨hle, hbel, -⟩ := lowerBound_spec piles.tailValues bidx
  have hle' : lowerBound piles.tailValues bidx ≤ piles.tails.length := by rw [h.length]; exact hle
  have hkept : ∀ {idx : Nat} {cand : MatchCandidate}, piles.candidates[idx]? = some cand →
      (piles.add bidx aidx).candidates[idx]? = some cand := by
    intro idx cand hget
    exact (List.getElem?_append_left (List.getElem?_eq_some_iff.mp hget).1).trans hget
  refine ⟨?_, ?_, ?_, ?_⟩
  · simp only [Piles.add, length_assignAt _ hle, length_assignAt _ hle', h.length]
  · intro cand hmem
    rcases mem_append.mp hmem with hmem | hmem
    · exact h.inRange cand hmem
    · obtain rfl := mem_singleton.mp hmem
      exact ⟨hb.1, hb.2, ha.1, ha.2⟩
  · intro cand hmem idx hidx
    rcases mem_append.mp hmem with hmem | hmem
    · obtain ⟨prev, hget, hless⟩ := h.previous cand hmem idx hidx
      exact ⟨prev, hkept hget, hless⟩
    · obtain rfl := mem_singleton.mp hmem
      split at hidx
      · exact nomatch hidx
      · rename_i hne
        obtain ⟨prev, hget, hval⟩ := h.tails _ idx hidx
        have hless : prev.before < bidx := by
          rcases hbel with hzero | hless
          · exact absurd hzero hne
          · rwa [getD_eq_getElem?_getD, hval] at hless
        refine ⟨prev, hkept hget, hless, ?_⟩
        rcases hnew prev (mem_of_getElem? hget) with haft | hbef
        · exact haft
        · omega
  · intro pile idx hpile
    simp only [Piles.add, getElem?_assignAt _ hle, getElem?_assignAt _ hle'] at hpile ⊢
    split at hpile
    · rename_i hat
      cases hpile
      rw [if_pos hat]
      exact ⟨_, getElem?_concat_length, rfl⟩
    · rename_i hat
      rw [if_neg hat]
      obtain ⟨cand, hget, hval⟩ := h.tails pile idx hpile
      exact ⟨cand, hkept hget, hval⟩

/-- The candidates of one position of `after`, from the right. -/
theorem Linked.addAll (indices : List Nat) (aidx : Nat)
    (hindices : ∀ idx ∈ indices, bs ≤ idx ∧ idx < be) (hsrt : indices.Pairwise (· > ·))
    (ha : afs ≤ aidx ∧ aidx < ae)
    (hnew : ∀ cand ∈ piles.candidates, cand.after < aidx ∨ (cand.after = aidx ∧ ∀ idx ∈ indices, idx < cand.before)) :
    Linked (indices.foldl (fun piles idx => piles.add idx aidx) piles) bs be afs ae ∧
      ∀ cand ∈ (indices.foldl (fun piles idx => piles.add idx aidx) piles).candidates, cand.after ≤ aidx := by
  induction indices generalizing piles with
  | nil =>
    refine ⟨h, fun cand hmem => ?_⟩
    rcases hnew cand hmem with hless | ⟨heq, -⟩
    · exact hless.le
    · exact heq.le
  | cons idx indices ih =>
    rw [pairwise_cons] at hsrt
    apply ih
    · apply h.add (hindices idx (by simp)) ha
      intro cand hmem
      exact (hnew cand hmem).imp id (fun hboth => hboth.2 idx (by simp))
    · exact fun oth hoth => hindices oth (by simp [hoth])
    · exact hsrt.2
    · intro cand hmem
      rcases mem_append.mp hmem with hmem | hmem
      · exact (hnew cand hmem).imp id
          (fun hboth => ⟨hboth.1, fun oth hoth => hboth.2 oth (by simp [hoth])⟩)
      · obtain rfl := mem_singleton.mp hmem
        exact Or.inr ⟨rfl, hsrt.1⟩

theorem Linked.increasing_chain (fuel : Nat) {idx : Nat}
    {cand : MatchCandidate} (hget : piles.candidates[idx]? = some cand) (tail : List ArrayMatch)
    (htail : Increasing be ae (cand.before + 1) (cand.after + 1) tail) :
    Increasing be ae bs afs ((chain piles.candidates fuel (some idx)).reverse ++ tail) := by
  have hmem := mem_of_getElem? hget
  obtain ⟨hbs, hbe, has, hae⟩ := h.inRange cand hmem
  induction fuel generalizing idx cand tail with
  | zero => exact htail.weaken (by omega) (by omega)
  | succ fuel ih =>
    have hcons : Increasing be ae cand.before cand.after
        ((cand.before, cand.after) :: tail) := ⟨le_refl _, hbe, le_refl _, hae, htail⟩
    simp only [chain, hget, reverse_cons, append_assoc, singleton_append]
    cases hprev : cand.previous with
    | none =>
      cases fuel <;> exact hcons.weaken hbs has
    | some previousIndex =>
      obtain ⟨prev, hget', hless, hless'⟩ := h.previous cand hmem previousIndex hprev
      have hmem' := mem_of_getElem? hget'
      obtain ⟨hbs', hbe', has', hae'⟩ := h.inRange prev hmem'
      exact ih hget' _ (hcons.weaken hless hless') hmem' hbs' hbe' has' hae'

theorem Linked.increasing (hb : bs ≤ be)
    (ha : afs ≤ ae) : Increasing be ae bs afs piles.longest := by
  unfold longest
  cases hlast : piles.tails.getLast? with
  | none =>
    cases piles.candidates.length <;> exact ⟨hb, ha⟩
  | some idx =>
    rw [getLast?_eq_getElem?] at hlast
    obtain ⟨cand, hget, -⟩ := h.tails _ idx hlast
    obtain ⟨-, hbe, -, hae⟩ := h.inRange cand (mem_of_getElem? hget)
    have hchain := h.increasing_chain piles.candidates.length hget [] ⟨hbe, hae⟩
    rwa [append_nil] at hchain

end

end Piles

variable {bef aft : List α}

theorem increasing_identityAnchors {same : α → α → Bool}
    {bs be afs ae : Nat} (hb : bs ≤ be) (ha : afs ≤ ae) :
    Increasing be ae bs afs
      (identityAnchors same bef aft bs be afs ae) := by
  unfold identityAnchors
  dsimp only
  split
  · have hgreedy : Increasing be (afs + (ae - afs)) bs afs
        (greedyIdentityAnchors same bef aft bs be 0 (range' afs (ae - afs))) :=
      increasing_greedy _ _ (le_max_left bs 0) hb
    rwa [Nat.add_sub_cancel' ha] at hgreedy
  · suffices hlinked : ∀ (cnt st : Nat) (piles : Piles), st + cnt = ae → afs ≤ st →
        piles.Linked bs be afs ae → (∀ cand ∈ piles.candidates, cand.after < st) →
        ((range' st cnt).foldl (fun piles aidx =>
          (candidatesOf same bef aft bs be aidx).reverse.foldl
            (fun piles bidx => piles.add bidx aidx) piles) piles).Linked
          bs be afs ae by
      apply Piles.Linked.increasing _ hb ha
      exact hlinked _ _ _ (Nat.add_sub_cancel' ha) (le_refl _) Piles.Linked.start nofun
    intro cnt
    induction cnt with
    | zero => exact fun _ _ _ _ hlinked _ => hlinked
    | succ cnt ih =>
      intro st piles hend hsta hlinked hless
      obtain ⟨hadd, hle⟩ := hlinked.addAll (candidatesOf same bef aft bs be st).reverse st
        (fun idx hidx => mem_candidatesOf (mem_reverse.mp hidx))
        (pairwise_reverse.mpr (candidatesOf_sorted _ _ _ _ _ _)) ⟨hsta, by omega⟩
        (fun cand hmem => Or.inl (hless cand hmem))
      exact ih (st + 1) _ (by omega) (by omega) hadd (fun cand hmem => lt_succ_of_le (hle cand hmem))

/-! ### Common subsequences -/

theorem increasing_lcsWalk {equal : α → α → Bool} {lengths : List (List Nat)}
    {fuel left right : Nat} (hleft : left ≤ bef.length) (hright : right ≤ aft.length) :
    Increasing bef.length aft.length left right (lcsWalk equal bef aft lengths fuel left right) := by
  induction fuel generalizing left right with
  | zero => exact ⟨hleft, hright⟩
  | succ fuel ih =>
    unfold lcsWalk
    split
    · rename_i hlt
      split
      · exact ⟨le_refl _, hlt.1, le_refl _, hlt.2, ih hlt.1 hlt.2⟩
      · split
        · exact (ih hlt.1 hright).weaken (le_succ _) (le_refl _)
        · exact (ih hleft hlt.2).weaken (le_refl _) (le_succ _)
    · exact ⟨hleft, hright⟩

theorem increasing_lcsMatches {equal : α → α → Bool} {maxCells : Nat}
    (h : lcsMatches equal bef aft maxCells = some pairs) : Increasing bef.length aft.length 0 0 pairs := by
  unfold lcsMatches at h
  split at h
  · exact nomatch h
  · cases h
    exact increasing_lcsWalk (zero_le _) (zero_le _)

/-! ## Permutations -/

section Permutation

variable {same : α → α → Bool} {bef : List α}

theorem permutationFrom_spec {seen rest : List α} {order : List Nat}
    (h : permutationFrom same bef seen rest = some order) :
    order.length = rest.length ∧ ∀ i k : Nat, order[i]? = some k → ∃ v, rest[i]? = some v ∧
      (positions same bef 0 bef.length v)[(seen ++ rest.take i).countP (same · v)]? = some k := by
  induction rest generalizing seen order with
  | nil =>
    cases h
    exact ⟨rfl, nofun⟩
  | cons v rest ih =>
    obtain ⟨idx, hidx, h⟩ := bind_eq_some_iff.mp h
    obtain ⟨order', hordr', rfl⟩ := map_eq_some_iff.mp h
    obtain ⟨hlen, hspec⟩ := ih hordr'
    refine ⟨by simp [hlen], ?_⟩
    intro i k hget
    cases i with
    | zero =>
      cases hget
      exact ⟨v, rfl, by simpa using hidx⟩
    | succ i =>
      obtain ⟨v', hval', hk⟩ := hspec i k hget
      refine ⟨v', hval', ?_⟩
      rwa [append_assoc, singleton_append] at hk

/-- Where identity is equality, what `permutation` finds is one, and it rearranges `before` into `after`. -/
theorem permutation_spec {aft : List α} {order : List Nat} (h : permutation same bef aft = some order)
    (hsame : ∀ x ∈ bef ++ aft, ∀ y ∈ bef ++ aft, same x y = true ↔ x = y) :
    order.length = bef.length ∧ order.Nodup ∧ (∀ k ∈ order, k < bef.length) ∧ order.filterMap (fun k => bef[k]?) = aft := by
  unfold permutation at h
  split at h
  · rename_i hlen
    obtain ⟨hordr, hspec⟩ := permutationFrom_spec h
    have hat : ∀ i k : Nat, order[i]? = some k → k < bef.length ∧ bef[k]? = aft[i]? := by
      intro i k hget
      obtain ⟨v, hval, hk⟩ := hspec i k hget
      obtain ⟨-, hlt, element, helement, heq⟩ := mem_positions.1 (mem_of_getElem? hk)
      refine ⟨hlt, ?_⟩
      rw [hval, helement, (hsame element (mem_append_left _ (mem_of_getElem? helement)) v
        (mem_append_right _ (mem_of_getElem? hval))).mp heq]
    refine ⟨hordr.trans hlen.symm, ?_, ?_, ?_⟩
    · rw [nodup_iff_getElem?_ne_getElem?]
      intro i j hij hj heq
      obtain ⟨k, hk⟩ : ∃ k, order[j]? = some k := ⟨order[j], getElem?_eq_getElem hj⟩
      rw [hk] at heq
      obtain ⟨v, hval, hpos⟩ := hspec i k heq
      obtain ⟨v', hval', hpos'⟩ := hspec j k hk
      have hvv : v = v' := by
        have hi := (hat i k heq).2
        rw [(hat j k hk).2, hval, hval'] at hi
        exact (some.inj hi).symm
      subst hvv
      have hnd := (positions_sorted same bef 0 bef.length v).imp (fun h => ne_of_lt h)
      have hcnt := (List.getElem?_inj (List.getElem?_eq_some_iff.mp hpos).1 hnd).mp (hpos.trans hpos'.symm)
      have htake : aft.take i ++ [v] <+: aft.take j := by
        have hsucc : aft.take (i + 1) = aft.take i ++ [v] := by rw [take_add_one, hval]; rfl
        rw [← hsucc]
        exact take_prefix_take_left hij
      have hle := htake.sublist.countP_le (p := fun x => same x v)
      have hself : same v v = true :=
        (hsame v (mem_append_right _ (mem_of_getElem? hval)) v
          (mem_append_right _ (mem_of_getElem? hval))).mpr rfl
      rw [countP_append, countP_singleton, if_pos hself] at hle
      simp only [nil_append] at hcnt
      omega
    · intro k hmem
      obtain ⟨i, hi⟩ := mem_iff_getElem?.mp hmem
      exact (hat i k hi).1
    · have hmap : order.map (fun k => bef[k]?) = aft.map some := by
        apply ext_getElem?
        intro i
        rw [getElem?_map, getElem?_map]
        cases hi : order[i]? with
        | none =>
          rw [List.getElem?_eq_none_iff, hordr] at hi
          rw [getElem?_eq_none hi]
          rfl
        | some k =>
          obtain ⟨v, hval, -⟩ := hspec i k hi
          rw [map_some, (hat i k hi).2, hval]
          rfl
      calc order.filterMap (fun k => bef[k]?)
          = (order.map fun k => bef[k]?).filterMap id := by rw [filterMap_map]; rfl
        _ = aft.filterMap some := by rw [hmap, filterMap_map]; rfl
        _ = aft := filterMap_some
  · exact nomatch h

end Permutation

end PiBridge.Chord
