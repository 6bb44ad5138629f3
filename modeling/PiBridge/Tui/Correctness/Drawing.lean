import PiBridge.Tui.MainScreen

/-!
# `Tui.Correctness.Drawing` — what the parts of a render do to the terminal

The changed range is the least one outside of which the lines agree. Moves end on the row they are for as long as it is on
the screen, and rows written with `writeLines` hold the cells of their lines.
-/

namespace PiBridge.Tui

open Chord Lib Lib.Terminal List

/-! ## The changed range -/

/-- The lines agree at an index, a missing line being empty. -/
def Agree (previousLines newLines : List Text) (i : Nat) : Prop := previousLines.getD i [] = newLines.getD i []

/-- What the loop has found after `count` lines. -/
def Covers (previousLines newLines : List Text) (count : Nat) : Option (Nat × Nat) → Prop
  | none => ∀ i < count, Agree previousLines newLines i
  | some range => range.1 ≤ range.2 ∧ range.2 < count ∧ ¬Agree previousLines newLines range.1 ∧
      (∀ i < range.1, Agree previousLines newLines i) ∧ ∀ i < count, range.2 < i → Agree previousLines newLines i

theorem changedRange_covers (previousLines newLines : List Text) (cnt : Nat) :
    Covers previousLines newLines cnt (changedRange previousLines newLines cnt) := by
  induction cnt with
  | zero => exact fun i hi => absurd hi (Nat.not_lt_zero i)
  | succ cnt ih =>
    have hstep : changedRange previousLines newLines (cnt + 1) =
        if previousLines.getD cnt [] ≠ newLines.getD cnt [] then
          some (((changedRange previousLines newLines cnt).map Prod.fst).getD cnt, cnt)
        else changedRange previousLines newLines cnt := by
      simp only [changedRange, range_succ, foldl_append, foldl_cons, foldl_nil]
    rw [hstep]
    cases hrng : changedRange previousLines newLines cnt with
    | none =>
      rw [hrng] at ih
      split
      · rename_i hne
        refine ⟨Nat.le_refl _, Nat.lt_succ_self _, hne, ih, ?_⟩
        intro i hi hlt
        exact absurd hi (by show ¬i < cnt + 1; have : cnt < i := hlt; omega)
      · rename_i heq
        intro i hi
        rcases Nat.lt_succ_iff_lt_or_eq.mp hi with hi | rfl
        · exact ih i hi
        · exact not_not.mp heq
    | some rng =>
      rw [hrng] at ih
      obtain ⟨hle, hlt, hne, hbef, haft⟩ := ih
      split
      · refine ⟨by show rng.1 ≤ cnt; omega, Nat.lt_succ_self _, hne, hbef, ?_⟩
        intro i hi hlt
        exact absurd hi (by show ¬i < cnt + 1; have : cnt < i := hlt; omega)
      · rename_i heq
        refine ⟨hle, Nat.lt_succ_of_lt hlt, hne, hbef, ?_⟩
        intro i hi hlt
        rcases Nat.lt_succ_iff_lt_or_eq.mp hi with hi | rfl
        · exact haft i hi hlt
        · exact not_not.mp heq

variable {prevs news : List Text} {i : Nat}

theorem Agree.getElem? (h : Agree prevs news i)
    (hprev : i < prevs.length) (hnew : i < news.length) : prevs[i]? = news[i]? := by
  rw [Agree, getD_eq_getElem?_getD, getD_eq_getElem?_getD, getElem?_eq_getElem hprev, getElem?_eq_getElem hnew] at h
  rw [getElem?_eq_getElem hprev, getElem?_eq_getElem hnew]
  exact congrArg some h

/-- Lines that agree up to an index start with the same lines. -/
theorem take_eq_of_agree {cnt : Nat} (hprev : cnt ≤ prevs.length)
    (hnew : cnt ≤ news.length) (h : ∀ i < cnt, Agree prevs news i) :
    prevs.take cnt = news.take cnt := by
  refine ext_getElem? fun i => ?_
  rw [getElem?_take, getElem?_take]
  split
  · rename_i hi
    exact (h i hi).getElem? (Nat.lt_of_lt_of_le hi hprev) (Nat.lt_of_lt_of_le hi hnew)
  · rfl

theorem drop_eq_of_agree {cnt : Nat} (hlen : prevs.length = news.length)
    (h : ∀ i < news.length, cnt ≤ i → Agree prevs news i) : prevs.drop cnt = news.drop cnt := by
  refine ext_getElem? fun i => ?_
  rw [getElem?_drop, getElem?_drop]
  by_cases hi : cnt + i < news.length
  · exact (h _ hi (Nat.le_add_right _ _)).getElem? (hlen ▸ hi) hi
  · rw [getElem?_eq_none (by omega), getElem?_eq_none (by omega)]

/-- A line is not the same as no line. -/
theorem not_agree_of_missing (hne : ∀ line ∈ prevs, line ≠ [])
    (hprev : i < prevs.length) (hnew : news.length ≤ i) : ¬Agree prevs news i := by
  intro h
  rw [Agree, getD_eq_getElem?_getD, getD_eq_getElem?_getD, getElem?_eq_getElem hprev, getElem?_eq_none hnew] at h
  exact hne _ (getElem_mem hprev) h

theorem Agree.symm (h : Agree prevs news i) : Agree news prevs i := Eq.symm h

/-! ## Moves and rows -/

section Moves

variable {Cell : Type} [Inhabited Cell] {cs : Text → List Cell} {t : Terminal Cell} {w ht top pos : Nat}
  {sheet : List (List Cell)}

theorem computeLineDiff_eq (viewportTop row tgt : Nat) : computeLineDiff viewportTop viewportTop row tgt = (tgt : Int) - row := by
  simp only [computeLineDiff]
  omega

/-- A move ends on its row, or on the first one of the screen if that is above the screen. -/
theorem moveRows_at (cs : Text → List Cell) (h : t.At w ht sheet top pos) (diff : Int) (hbel : pos + diff < top + ht) :
    (t.run cs (moveRows diff)).At w ht sheet top (max top (pos + diff).toNat) ∧ (t.run cs (moveRows diff)).col = t.col := by
  have htop := h.top_le
  unfold moveRows
  split
  · rename_i hdown
    refine ⟨?_, rfl⟩
    have hpos : max top (pos + diff).toNat = pos + diff.toNat := by omega
    rw [hpos]
    exact h.down cs (by omega) (by omega)
  · split
    · rename_i hup
      refine ⟨?_, rfl⟩
      by_cases hedge : top + (-diff).toNat ≤ pos
      · have hpos : max top (pos + diff).toNat = pos - (-diff).toNat := by omega
        rw [hpos]
        exact h.up cs (by omega) hedge
      · have hpos : max top (pos + diff).toNat = top := by omega
        rw [hpos]
        exact h.up_edge cs (by omega)
    · refine ⟨?_, rfl⟩
      have hpos : max top (pos + diff).toNat = pos := by omega
      rw [hpos]
      exact h

/-- The move to a row of the screen. -/
theorem moveRows_to (cs : Text → List Cell) (h : t.At w ht sheet top pos) (diff : Int) (pos' : Nat) (hdiff : pos + diff = pos') (habv : top ≤ pos')
    (hbel : pos' < top + ht) :
    (t.run cs (moveRows diff)).At w ht sheet top pos' ∧ (t.run cs (moveRows diff)).col = t.col := by
  have hmoved := moveRows_at cs h diff (by omega)
  have hpos : max top (pos + diff).toNat = pos' := by omega
  rwa [hpos] at hmoved

/-- The lines fit, as the renderer measures them and as the terminal shows them. -/
def Fits (cells : Text → List Cell) (visibleWidth : Text → Nat) (width : Nat) (lines : List Text) : Prop :=
  ∀ line ∈ lines, (cells line).length ≤ width ∧ visibleWidth line ≤ width

/-- What `writeLines` sends for a line. -/
def writeLine (erase : Bool) (line : Text) : Output := (if erase then [.eraseLine] else []) ++ [.text line]

theorem writes_blank {line : Text} (hfits : (cs line).length ≤ w) : At.Writes cs w (· = []) (writeLine false) cs line := by
  rintro t ht sheet top pos row h hcol hrow rfl
  have htext := h.text hrow hcol (cs line) (by simpa using hfits)
  rwa [nil_append] at htext

theorem writes_erased {line : Text} (hfits : (cs line).length ≤ w) :
    At.Writes cs w (fun _ => True) (writeLine true) cs line := by
  intro t ht sheet top pos row h hcol hrow _
  have herased := h.eraseLine cs
  have hblank : (sheet.set pos [])[pos]? = some [] := by
    rw [List.getElem?_set, if_pos rfl, if_pos (List.getElem?_eq_some_iff.mp hrow).1]
  have htext := herased.text hblank (hcol : (t.exec cs (.eraseLine : Command Text)).col = 0) (cs line) (by simpa using hfits)
  rwa [set_set, nil_append] at htext

theorem writes_erase : At.Writes cs w (fun _ => True) (fun _ : Unit => [.eraseLine]) (fun _ => []) () := by
  intro t ht sheet top pos row h _ _ _
  exact h.eraseLine cs

end Moves

end PiBridge.Tui
