import PiBridge.Chord.Utf
import PiBridge.Lib.Lex

/-!
# `Chord.Store.Text` — text in a database

SQLite keeps text as UTF-8, and its BINARY collation compares the bytes. Both that order and the one of
`compareText`, by UTF-16 code unit, are the order of the characters (`compareText_chars`, `compareBytes_utf8`), and
the texts with a prefix are a range of it (`isPrefix_iff_range`).
-/

namespace PiBridge.Chord.Store

open Lib List

/-- A text with each lone surrogate replaced. -/
def toWellFormed (s : Text) : Text := utf16 (chars s)

/-- A text as the store keeps it; NUL is refused. -/
def storedText (s : Text) : Option Text := if 0 ∈ s then none else some (toWellFormed s)

/-- A UTF-16 code unit's rank in code point order. -/
def codePointRank (unit : UInt16) : Nat :=
  if unit < 0xd800 then unit.toNat else if unit < 0xe000 then unit.toNat + 0x2000 else unit.toNat - 0x800

/-- Compares by code point: negative, zero or positive. -/
def compareText : Text → Text → Int
  | x :: a, y :: b => if x ≠ y then codePointRank x - codePointRank y else compareText a b
  | a, b => a.length - b.length

/-- SQLite's BINARY collation. -/
def compareBytes (a b : List UInt8) : Ordering := lex UInt8.toNat a b

/-- The code point after this one. -/
def nextCodePoint (c : Char) : Option Char :=
  if c.toNat = 0x10ffff then none else some (Char.ofNat (if c.toNat = 0xd7ff then 0xe000 else c.toNat + 1))

/-- The loop over the code points, the last first. -/
def popUpperBound : List Char → Option (List Char)
  | [] => none
  | last :: points =>
    match nextCodePoint last with
    | none => popUpperBound points
    | some next => some (points.reverse ++ [next])

/-- The smallest text above every text starting with `start`. -/
def prefixUpperBound (start : Text) : Option Text := (popUpperBound (chars start).reverse).map utf16

/-! ## Code units in code point order -/

theorem codePointRank_eq (u : UInt16) :
    codePointRank u = if u.toNat < 0xd800 then u.toNat else if u.toNat < 0xe000 then u.toNat + 0x2000 else u.toNat - 0x800 := by
  have h₁ : u < 0xd800 ↔ u.toNat < 0xd800 := UInt16.lt_iff_toNat_lt
  have h₂ : u < 0xe000 ↔ u.toNat < 0xe000 := UInt16.lt_iff_toNat_lt
  simp only [codePointRank, h₁, h₂]

theorem codePointRank_inj {u v : UInt16} (h : codePointRank u = codePointRank v) : u = v := by
  have hu := u.toNat_lt
  have hv := v.toNat_lt
  rw [codePointRank_eq, codePointRank_eq] at h
  apply UInt16.toNat_inj.mp
  split at h <;> split at h <;> (try split at h) <;> (try split at h) <;> omega

theorem compareText_lex (a b : Text) : compare (compareText a b) 0 = lex codePointRank a b := by
  induction a generalizing b with
  | nil =>
    cases b with
    | nil => rfl
    | cons y b =>
      rw [lex_nil_cons]
      apply Int.compare_eq_lt.mpr
      unfold compareText
      simp only [length_nil, length_cons]
      omega
  | cons x a ih =>
    cases b with
    | nil =>
      rw [lex_cons_nil]
      apply Int.compare_eq_gt.mpr
      unfold compareText
      simp only [length_nil, length_cons]
      omega
    | cons y b =>
      rw [compareText]
      by_cases hne : x ≠ y
      · rw [if_pos hne]
        rcases Nat.lt_trichotomy (codePointRank x) (codePointRank y) with hlt | heq | hgt
        · rw [lex_cons_of_lt hlt]
          exact Int.compare_eq_lt.mpr (by omega)
        · exact absurd (codePointRank_inj heq) hne
        · rw [lex_cons_of_gt hgt]
          exact Int.compare_eq_gt.mpr (by omega)
      · obtain rfl := not_not.mp hne
        rw [if_neg hne, lex_cons_of_eq rfl, ih]

/-! ## The order of characters -/

theorem charRank_inj (c d : Char) (h : c.toNat = d.toNat) : c = d := Char.toNat_inj.mp h

/-- The code units of characters keep their order. -/
theorem encodes_codeUnits : Encodes Char.toNat codePointRank codeUnits where
  inj := charRank_inj
  ne_nil c := by
    rcases codeUnits_cases c with ⟨-, u, hu, -⟩ | ⟨-, u, v, hu, -⟩
    · rw [hu]
      exact cons_ne_nil _ _
    · rw [hu]
      exact cons_ne_nil _ _
  splits c d hlt := by
    have hc : c.toNat < 0xD800 ∨ (0xDFFF < c.toNat ∧ c.toNat < 0x110000) := c.valid
    have hd : d.toNat < 0xD800 ∨ (0xDFFF < d.toNat ∧ d.toNat < 0x110000) := d.valid
    rcases codeUnits_cases c with ⟨hone, u, hu, huv, -⟩ | ⟨htwo, u, v, hu, huv, hvv, -⟩
    · rcases codeUnits_cases d with ⟨hone', u', hu', huv', -⟩ | ⟨htwo', u', v', hu', huv', -⟩
      · rw [hu, hu']
        refine Or.inl ?_
        rw [codePointRank_eq, codePointRank_eq, huv, huv']
        split <;> split <;> (try split) <;> (try split) <;> omega
      · -- A surrogate is above every other unit.
        rw [hu, hu']
        refine Or.inl ?_
        rw [codePointRank_eq, codePointRank_eq, huv, huv']
        split <;> split <;> (try split) <;> (try split) <;> omega
    · rcases codeUnits_cases d with ⟨hone', u', hu', huv', -⟩ | ⟨htwo', u', v', hu', huv', hvv', -⟩
      · omega
      · rw [hu, hu']
        have hranks : codePointRank u < codePointRank u' ∨ codePointRank u = codePointRank u' ∧ codePointRank v < codePointRank v' := by
          have hhigh : codePointRank u = 0xF800 + (c.toNat - 0x10000) / 0x400 ∧
              codePointRank u' = 0xF800 + (d.toNat - 0x10000) / 0x400 := by
            rw [codePointRank_eq, codePointRank_eq, huv, huv', if_neg (by omega), if_pos (by omega), if_neg (by omega), if_pos (by omega)]
            omega
          have hlow : codePointRank v = 0xFC00 + (c.toNat - 0x10000) % 0x400 ∧ codePointRank v' = 0xFC00 + (d.toNat - 0x10000) % 0x400 := by
            rw [codePointRank_eq, codePointRank_eq, hvv, hvv', if_neg (by omega), if_pos (by omega), if_neg (by omega), if_pos (by omega)]
            omega
          omega
        exact hranks.imp id fun h => ⟨h.1, Or.inl h.2⟩

/-- The bytes of a character, as numbers. -/
def utf8Ranks (n : Nat) : List Nat :=
  if n ≤ 0x7f then [n]
  else if n ≤ 0x7ff then [n / 64 % 32 + 0xc0, n % 64 + 0x80]
  else if n ≤ 0xffff then [n / 4096 % 16 + 0xe0, n / 64 % 64 + 0x80, n % 64 + 0x80]
  else [n / 262144 % 8 + 0xf0, n / 4096 % 64 + 0x80, n / 64 % 64 + 0x80, n % 64 + 0x80]

theorem map_utf8EncodeChar (c : Char) : (String.utf8EncodeChar c).map UInt8.toNat = utf8Ranks c.toNat := by
  have hbyte : ∀ n, n < 256 → (UInt8.ofNat n).toNat = n := fun n hn => UInt8.toNat_ofNat_of_lt' hn
  have hval : c.val.toNat = c.toNat := rfl
  unfold String.utf8EncodeChar utf8Ranks
  dsimp only
  rw [hval]
  split
  · rw [map_singleton, hbyte _ (by omega)]
  split
  · rw [map_cons, map_singleton, hbyte _ (by omega), hbyte _ (by omega)]
  split
  · rw [map_cons, map_cons, map_singleton, hbyte _ (by omega), hbyte _ (by omega), hbyte _ (by omega)]
  · rw [map_cons, map_cons, map_cons, map_singleton, hbyte _ (by omega), hbyte _ (by omega), hbyte _ (by omega), hbyte _ (by omega)]

theorem splits_utf8Ranks {m n : Nat} (h : m < n) (hn : n < 0x110000) : Splits (utf8Ranks m) (utf8Ranks n) := by
  unfold utf8Ranks
  -- Either more bytes, with a greater first one, or as many, decided by the digits in base 64.
  split
  · split
    · exact Or.inl h
    split
    · exact Or.inl (by omega)
    split <;> exact Or.inl (by omega)
  split
  · rw [if_neg (by omega)]
    split
    · simp only [Splits]
      omega
    split <;> exact Or.inl (by omega)
  split
  · rw [if_neg (by omega), if_neg (by omega)]
    split
    · simp only [Splits]
      omega
    · exact Or.inl (by omega)
  · have hdigs : ∀ k : Nat, k / 262144 = k / 64 / 64 / 64 ∧ k / 4096 = k / 64 / 64 := fun k => by omega
    rw [if_neg (by omega), if_neg (by omega), if_neg (by omega)]
    simp only [Splits, (hdigs m).1, (hdigs m).2, (hdigs n).1, (hdigs n).2]
    omega

/-- The UTF-8 bytes of characters keep their order. -/
theorem encodes_utf8 : Encodes Char.toNat UInt8.toNat String.utf8EncodeChar where
  inj := charRank_inj
  ne_nil c := by
    apply ne_nil_of_length_pos
    rw [String.length_utf8EncodeChar]
    exact Char.utf8Size_pos c
  splits c d hlt := by
    have hd : d.toNat < 0xD800 ∨ (0xDFFF < d.toNat ∧ d.toNat < 0x110000) := d.valid
    rw [map_utf8EncodeChar, map_utf8EncodeChar]
    exact splits_utf8Ranks hlt (by omega)

variable (cs : List Char) (ds : List Char)

/-- **JavaScript's order of text is the order of the characters.** -/
theorem compareText_chars : compare (compareText (utf16 cs) (utf16 ds)) 0 = lex Char.toNat cs ds :=
  (compareText_lex _ _).trans (encodes_codeUnits.lex cs ds)

/-- **SQLite's order of text is the order of the characters.** -/
theorem compareBytes_utf8 : compareBytes (utf8 cs) (utf8 ds) = lex Char.toNat cs ds := encodes_utf8.lex cs ds

/-- **The two orders of text are one.** -/
theorem compareText_bytes : compare (compareText (utf16 cs) (utf16 ds)) 0 = compareBytes (utf8 cs) (utf8 ds) :=
  (compareText_chars cs ds).trans (compareBytes_utf8 cs ds).symm

/-! ## Prefixes -/

theorem next_nextCodePoint : Next Char.toNat nextCodePoint where
  none c h d := by
    have hd : d.toNat < 0xD800 ∨ (0xDFFF < d.toNat ∧ d.toNat < 0x110000) := d.valid
    unfold nextCodePoint at h
    split at h
    · omega
    · cases h
  some c next h d := by
    have hc : c.toNat < 0xD800 ∨ (0xDFFF < c.toNat ∧ c.toNat < 0x110000) := c.valid
    have hd : d.toNat < 0xD800 ∨ (0xDFFF < d.toNat ∧ d.toNat < 0x110000) := d.valid
    unfold nextCodePoint at h
    split at h
    · cases h
    · cases h
      have hval : ∀ {n : Nat}, n.isValidChar → (Char.ofNat n).toNat = n := by
        intro n hn
        rw [Char.ofNat, dif_pos hn]
        exact toNat_ofNatAux hn
      split
      · rw [hval (by decide)]
        omega
      · rw [hval (by unfold Nat.isValidChar; omega)]
        omega

/-- The loop gives the least bound. -/
theorem popUpperBound_reverse : popUpperBound cs.reverse = upperBound nextCodePoint cs := by
  induction cs using reverseRecOn with
  | nil => rfl
  | append_singleton cs c ih =>
    rw [reverse_append, reverse_singleton, singleton_append, popUpperBound, ih, reverse_reverse]
    cases hnext : nextCodePoint c with
    | none => rw [upperBound_append_none hnext]
    | some next => rw [upperBound_append_some hnext]

/-- **The texts with a prefix are a range**, in the order of the bytes. -/
theorem isPrefix_iff_range (st cs : List Char) : st <+: cs ↔ compareBytes (utf8 cs) (utf8 st) ≠ .lt ∧
      ∀ upper, prefixUpperBound (utf16 st) = some (utf16 upper) → compareBytes (utf8 cs) (utf8 upper) = .lt := by
  have hupper : ∀ upper, prefixUpperBound (utf16 st) = some (utf16 upper) ↔ upperBound nextCodePoint st = some upper := by
    intro upper
    rw [prefixUpperBound, chars_utf16, popUpperBound_reverse]
    refine ⟨fun h => ?_, fun h => by rw [h, Option.map_some]⟩
    obtain ⟨cs, hcs, heq⟩ := Option.map_eq_some_iff.mp h
    rw [hcs, ← chars_utf16 cs, heq, chars_utf16]
  simp only [hupper, compareBytes_utf8]
  exact prefix_iff_range next_nextCodePoint charRank_inj st cs

/-- The code units of a text start with those of another just when its characters do. -/
theorem utf16_isPrefix : utf16 cs <+: utf16 ds ↔ cs <+: ds := by
  constructor
  · rintro ⟨rest, h⟩
    exact ⟨chars rest, by rw [← chars_utf16_append, h, chars_utf16]⟩
  · rintro ⟨rest, rfl⟩
    exact ⟨utf16 rest, (utf16_append cs rest).symm⟩

theorem isPrefixOf_utf16 : (utf16 cs).isPrefixOf (utf16 ds) = cs.isPrefixOf ds := by
  rw [Bool.eq_iff_iff, isPrefixOf_iff_prefix, isPrefixOf_iff_prefix, utf16_isPrefix]

end PiBridge.Chord.Store
