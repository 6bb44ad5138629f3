import PiBridge.Chord.Correctness.ObjectText
import PiBridge.Session.File

/-!
# `Session.Correctness.Lines` — the lines of a file are read back

However a file is cut into the parts that are read, its lines are those of the whole (`readParts_eq`). A line that was
written is read as its record; what a write leaves of a line that it cuts is read as none (`torn_written`).
-/

namespace PiBridge.Session

open Chord Lib List

/-! ## Lines -/

section Split

attribute [local simp] splitLines

theorem splitLines_pending {s : Text} (h : 10 ∉ s) : splitLines s = ([], s) := by
  induction s with
  | nil => rfl
  | cons c s ih =>
    rw [mem_cons, not_or] at h
    unfold splitLines
    rw [if_neg (Ne.symm h.1), ih h.2]

theorem splitLines_line {line : Text} (h : 10 ∉ line) (s : Text) :
    splitLines (line ++ 10 :: s) = (line :: (splitLines s).1, (splitLines s).2) := by
  induction line with
  | nil =>
    show splitLines (10 :: s) = _
    rw [splitLines, if_pos rfl]
  | cons c line ih =>
    rw [mem_cons, not_or] at h
    rw [cons_append, splitLines, if_neg (Ne.symm h.1), ih h.2]

theorem splitLines_rest (s : Text) : 10 ∉ (splitLines s).2 := by
  induction s with
  | nil => exact not_mem_nil
  | cons c s ih =>
    unfold splitLines
    split
    · exact ih
    · rename_i hc
      split
      · rw [mem_cons, not_or]
        exact ⟨Ne.symm hc, ih⟩
      · exact ih

/-- What follows a text continues its last line. -/
theorem splitLines_append (s t : Text) :
    splitLines (s ++ t) = ((splitLines s).1 ++ (splitLines ((splitLines s).2 ++ t)).1, (splitLines ((splitLines s).2 ++ t)).2) := by
  induction s with
  | nil => rfl
  | cons c s ih =>
    rw [cons_append, splitLines, ih, splitLines]
    split
    · rfl
    · rename_i hc
      cases hs : (splitLines s).1 with
      | nil =>
        rw [nil_append, nil_append, cons_append, splitLines, if_neg hc]
      | cons line lines => rfl

end Split

section Reading

variable {nums : Numbers}

/-- However a file is cut, its lines are read. -/
theorem readParts_eq {pnd : Text} (h : 10 ∉ pnd) (ps : List Text) : readParts nums pnd ps =
      ((splitLines (pnd ++ ps.flatten)).1.filterMap (entryOfLine nums), (splitLines (pnd ++ ps.flatten)).2) := by
  induction ps generalizing pnd with
  | nil =>
    rw [flatten_nil, append_nil, splitLines_pending h]
    rfl
  | cons part ps ih =>
    unfold readParts
    dsimp only
    rw [ih (splitLines_rest _), flatten_cons, ← append_assoc, splitLines_append (pnd ++ part), filterMap_append]

theorem trim_ne_nil {s : Text} {c : UInt16} (hc : isWhitespace c = false) (hmem : c ∈ s) : trim s ≠ [] := by
  have hkept : ∀ {t : Text}, c ∈ t → c ∈ t.dropWhile isWhitespace := by
    intro t ht
    rw [← takeWhile_append_dropWhile (p := isWhitespace) (l := t), mem_append] at ht
    refine ht.resolve_left fun htake => ?_
    exact Bool.false_ne_true (hc.symm.trans (mem_takeWhile_imp htake))
  have htrimmed : c ∈ trim s := mem_reverse.mpr (hkept (mem_reverse.mpr (hkept hmem)))
  exact ne_nil_of_mem htrimmed

/-- A line that was written is read. -/
theorem entryOfLine_stringify {e : Json} (h : Record nums e) : entryOfLine nums (stringify nums e) = some e := by
  have hplain := h.plain
  cases h with
  | @obj m hkeys hnams hvals =>
    obtain ⟨s, hs⟩ := @stringify_object nums m
    have hne : trim (stringify nums (.obj m)) ≠ [] := trim_ne_nil (c := 123) (by decide) (by rw [hs]; exact mem_cons_self)
    unfold entryOfLine parseSessionEntryLine
    rw [if_neg (by simpa using hne), parse_stringify hplain]
    rfl

/-- What is left of a line, in which no entry is read. -/
structure Torn (numbers : Numbers) (s : Text) : Prop where
  oneLine : 10 ∉ s
  unread : entryOfLine numbers s = none

theorem Torn.nil : Torn nums [] := ⟨not_mem_nil, rfl⟩

theorem entryOfLine_of_parse_none {s : Text} (h : parse nums s = none) : entryOfLine nums s = none := by
  unfold entryOfLine parseSessionEntryLine
  split
  · rfl
  · rw [h]
    rfl

theorem splitLines_lines {recs : List Json} (hrecs : ∀ e ∈ recs, Record nums e) {torn : Text} (htorn : 10 ∉ torn) :
    splitLines (lines nums recs ++ torn) = (recs.map (stringify nums), torn) := by
  induction recs with
  | nil => exact splitLines_pending htorn
  | cons e recs ih =>
    have hline : 10 ∉ stringify nums e := stringify_no_newline (hrecs e mem_cons_self).plain
    have htail : lines nums (e :: recs) ++ torn = stringify nums e ++ 10 :: (lines nums recs ++ torn) := by
      show (stringify nums e ++ [10]) ++ lines nums recs ++ torn = _
      simp only [append_assoc, cons_append, nil_append]
    rw [htail, splitLines_line hline, ih fun each heach => hrecs each (mem_cons_of_mem e heach)]
    rfl

/-- **The records of a file are read back**, and a torn line after them is not read. -/
theorem loadEntriesFromFile_lines {header : Json} {es : List Json} (hrecs : ∀ e ∈ header :: es, Record nums e)
    (hheader : isHeader header = true) (hid : (textField "id" header).isSome = true) {torn : Text} (htorn : Torn nums torn)
    {ps : List Text} (hpts : ps.flatten = lines nums (header :: es) ++ torn) :
    loadEntriesFromFile nums ps = (header :: es, !torn.isEmpty) := by
  have hread : ((header :: es).map (stringify nums)).filterMap (entryOfLine nums) = header :: es := by
    rw [filterMap_map]
    refine (filterMap_congr fun e hent => ?_).trans filterMap_some
    exact entryOfLine_stringify (hrecs e hent)
  have hsplit := splitLines_lines hrecs htorn.oneLine
  unfold loadEntriesFromFile
  rw [readParts_eq not_mem_nil, nil_append, hpts, hsplit]
  dsimp only
  rw [hread, htorn.unread, Option.toList_none, append_nil]
  dsimp only
  rw [hheader, hid, if_pos (Bool.and_self true)]

end Reading

/-! ## Writes that fail -/

section Cuts

theorem codeUnits_ne_nil (c : Char) : codeUnits c ≠ [] := by
  unfold codeUnits
  dsimp only
  split <;> exact cons_ne_nil _ _

/-- A write that fails before the end leaves some characters, and maybe part of the next. -/
theorem cut_cases {cs : List Char} (cs' : List Char) {bs : ℕ} (h : bs < (cs.map Char.utf8Size).sum) :
    ∃ done left, cs = done ++ left ∧ left ≠ [] ∧ (cut bs (cs ++ cs') = utf16 done ∨ cut bs (cs ++ cs') = utf16 done ++ [0xFFFD]) := by
  induction cs generalizing bs with
  | nil => exact absurd h (Nat.not_lt_zero _)
  | cons c cs ih =>
    rw [cons_append, cut]
    split
    · rename_i hle
      rw [map_cons, sum_cons] at h
      have hrest : bs - c.utf8Size < (cs.map Char.utf8Size).sum := by omega
      obtain ⟨done, left, rfl, hleft, hcut⟩ := ih hrest
      refine ⟨c :: done, left, rfl, hleft, ?_⟩
      rw [utf16_cons]
      rcases hcut with hcut | hcut
      · left
        rw [hcut]
      · right
        rw [hcut, append_assoc]
    · refine ⟨[], c :: cs, rfl, cons_ne_nil c cs, ?_⟩
      split
      · exact .inl rfl
      · exact .inr rfl

/-- **A line that is cut in its JSON text is torn.** -/
theorem torn_written {nums : Numbers} {e : Json} (h : Record nums e) {bs : ℕ}
    (hbytes : bs < byteLength (stringify nums e)) : Torn nums (written (line nums e) bs) := by
  have hwellFormed := stringify_wellFormed h.plain
  have hline : line nums e = utf16 (chars (stringify nums e) ++ [Char.ofNat 10]) := by
    rw [utf16_append, hwellFormed.utf16_chars]
    rfl
  obtain ⟨done, left, hchars, hleft, hcut⟩ := cut_cases [Char.ofNat 10] hbytes
  rw [written, hline, chars_utf16]
  have htext : stringify nums e = utf16 done ++ utf16 left := by
    rw [← utf16_append, ← hchars, hwellFormed.utf16_chars]
  have hunwritten : utf16 left ≠ [] := by
    obtain ⟨c, cs, rfl⟩ := exists_cons_of_ne_nil hleft
    exact append_ne_nil_of_left_ne_nil (codeUnits_ne_nil c) _
  have hnewline : 10 ∉ utf16 done := by
    intro hmem
    apply stringify_no_newline h.plain
    rw [htext]
    exact mem_append_left _ hmem
  have hnone : parse nums (utf16 done) = none ∧ parse nums (utf16 done ++ [0xFFFD]) = none := by
    have hplain := h.plain
    cases h with
    | obj => exact parse_object_cut hplain htext hunwritten
  rcases hcut with hcut | hcut
  · rw [hcut]
    exact ⟨hnewline, entryOfLine_of_parse_none hnone.1⟩
  · rw [hcut]
    refine ⟨?_, entryOfLine_of_parse_none hnone.2⟩
    rw [mem_append, not_or]
    exact ⟨hnewline, by decide⟩

variable {numbers : Numbers}

/-- The records whose text is whole in the first bytes of their lines. -/
def whole (numbers : Numbers) : ℕ → List Json → List Json
  | _, [] => []
  | bytes, e :: es =>
    let size := byteLength (stringify numbers e)
    -- The newline after a record may be missing.
    if size < bytes then e :: whole numbers (bytes - (size + 1)) es else if size = bytes then [e] else []

theorem cut_append (cs cs' : List Char) (bs : ℕ) : cut bs (cs ++ cs') =
      if (cs.map Char.utf8Size).sum ≤ bs then utf16 cs ++ cut (bs - (cs.map Char.utf8Size).sum) cs' else cut bs cs := by
  induction cs generalizing bs with
  | nil => rfl
  | cons c cs ih =>
    rw [cons_append, cut, cut, map_cons, sum_cons, utf16_cons]
    split
    · rename_i hle
      rw [ih, Nat.sub_sub, append_assoc]
      simp only [Nat.le_sub_iff_add_le' hle]
      split <;> rfl
    · rename_i hlt
      rw [if_neg fun hle => hlt (Nat.le_of_add_right_le hle)]

/-- What is left of the lines: those that are whole, and what is torn of the next. -/
theorem written_lines {recs : List Json} (hrecs : ∀ e ∈ recs, Record numbers e) (bs : ℕ) :
    ∃ done torn, written (lines numbers recs) bs = lines numbers done ++ torn ∧ (∀ e ∈ done, Record numbers e) ∧ 10 ∉ torn ∧
      done ++ (entryOfLine numbers torn).toList = whole numbers bs recs := by
  induction recs generalizing bs with
  | nil => exact ⟨[], [], rfl, forall_mem_nil _, not_mem_nil, rfl⟩
  | cons e recs ih =>
    obtain ⟨he, hrecs⟩ := forall_mem_cons.mp hrecs
    let txt := chars (stringify numbers e)
    have htext : utf16 txt = stringify numbers e := (stringify_wellFormed he.plain).utf16_chars
    have hline : utf16 (txt ++ [Char.ofNat 10]) = line numbers e := by
      rw [utf16_append, htext]
      rfl
    have hsize : ((txt ++ [Char.ofNat 10]).map Char.utf8Size).sum = byteLength (stringify numbers e) + 1 := by
      rw [map_append, sum_append]
      rfl
    have hcut : written (lines numbers (e :: recs)) bs = cut bs ((txt ++ [Char.ofNat 10]) ++ chars (lines numbers recs)) := by
      show cut bs (chars (line numbers e ++ lines numbers recs)) = _
      rw [← hline, chars_utf16_append]
    rw [hcut, cut_append, hsize, hline, whole]
    by_cases hlt : byteLength (stringify numbers e) < bs
    · rw [if_pos (Nat.succ_le_of_lt hlt), if_pos hlt]
      obtain ⟨done, torn, hwrt, hdone, htorn, heq⟩ := ih hrecs (bs - (byteLength (stringify numbers e) + 1))
      refine ⟨e :: done, torn, ?_, forall_mem_cons.mpr ⟨he, hdone⟩, htorn, ?_⟩
      · rw [← written, hwrt, ← append_assoc]
        rfl
      · rw [← heq, cons_append]
    · rw [if_neg (mt Nat.lt_of_succ_le hlt), if_neg hlt]
      refine ⟨[], cut bs (txt ++ [Char.ofNat 10]), rfl, forall_mem_nil _, ?_⟩
      split
      · -- The newline is all that is missing.
        rename_i heq
        have hwhole : cut bs (txt ++ [Char.ofNat 10]) = stringify numbers e := by
          rw [cut_append, show (txt.map Char.utf8Size).sum = bs from heq, if_pos le_rfl, htext, Nat.sub_self]
          exact append_nil _
        rw [hwhole, entryOfLine_stringify he]
        exact ⟨stringify_no_newline he.plain, rfl⟩
      · have hlt : bs < byteLength (stringify numbers e) := by omega
        have htorn := torn_written he hlt
        rw [written, ← hline, chars_utf16] at htorn
        exact ⟨htorn.oneLine, by rw [htorn.unread]; rfl⟩

end Cuts

end PiBridge.Session
