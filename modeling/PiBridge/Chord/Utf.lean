import PiBridge.Chord.JsonText

/-!
# `Chord.Utf` — text as code units, characters and bytes

A well-formed text is the code units of characters (`utf16`), and is what its UTF-8 bytes decode to. A text
from JavaScript may hold lone surrogates: encoding reads each as U+FFFD (`chars`). What `JSON.stringify` writes
is well-formed, as it escapes them.
-/

namespace PiBridge.Chord

open List Option

/-- The code units of characters. -/
def utf16 (cs : List Char) : Text := cs.flatMap codeUnits

/-- The character of a pair of surrogates. -/
def pairChar (high low : UInt16) : Char := Char.ofNat (0x10000 + (high.toNat - 0xD800) * 0x400 + (low.toNat - 0xDC00))

/-- The character of a unit that is in no pair. -/
def unitChar (c : UInt16) : Char := if isHighSurrogate c || isLowSurrogate c then Char.ofNat 0xFFFD else Char.ofNat c.toNat

/-- The characters of a text, a lone surrogate as U+FFFD. -/
def chars : Text → List Char
  | [] => []
  | [c] => [unitChar c]
  | c :: d :: s => if isHighSurrogate c && isLowSurrogate d then pairChar c d :: chars s else unitChar c :: chars (d :: s)

/-- The text has no lone surrogate. -/
def WellFormed (s : Text) : Prop := ∃ cs, s = utf16 cs

/-- The UTF-8 bytes of characters. -/
def utf8 (cs : List Char) : List UInt8 := cs.flatMap String.utf8EncodeChar

/-- `TextEncoder.encode` -/
def encodeUtf8 (s : Text) : List UInt8 := utf8 (chars s)

/-- A strict `TextDecoder.decode`, which keeps a byte order mark. -/
def decodeUtf8 (bytes : List UInt8) : Option Text := bytes.toByteArray.utf8Decode?.map fun cs => utf16 cs.toList

/-! ## Code units -/

@[simp] theorem utf16_nil : utf16 [] = [] := rfl

@[simp] theorem utf16_cons (c : Char) (cs : List Char) : utf16 (c :: cs) = codeUnits c ++ utf16 cs := rfl

variable (cs : List Char)

theorem utf16_append (cs' : List Char) : utf16 (cs ++ cs') = utf16 cs ++ utf16 cs' := flatMap_append

theorem isHighSurrogate_eq (c : UInt16) : isHighSurrogate c = decide (0xD800 ≤ c.toNat ∧ c.toNat < 0xDC00) := (Bool.decide_and ..).symm

theorem isLowSurrogate_eq (c : UInt16) : isLowSurrogate c = decide (0xDC00 ≤ c.toNat ∧ c.toNat < 0xE000) := (Bool.decide_and ..).symm

/-- A character is one unit that is no surrogate, or a pair. -/
theorem codeUnits_cases (c : Char) :
    (c.toNat < 0x10000 ∧ ∃ u, codeUnits c = [u] ∧ u.toNat = c.toNat ∧ isHighSurrogate u = false ∧ isLowSurrogate u = false) ∨
    (0x10000 ≤ c.toNat ∧ ∃ u v, codeUnits c = [u, v] ∧ u.toNat = 0xD800 + (c.toNat - 0x10000) / 0x400 ∧
      v.toNat = 0xDC00 + (c.toNat - 0x10000) % 0x400 ∧ isHighSurrogate u = true ∧ isLowSurrogate v = true) := by
  have hvald : c.toNat < 0xD800 ∨ (0xDFFF < c.toNat ∧ c.toNat < 0x110000) := c.valid
  unfold codeUnits
  dsimp only
  split
  · rename_i hlt
    refine Or.inl ⟨hlt, _, rfl, ?_, ?_, ?_⟩
    · exact UInt16.toNat_ofNat_of_lt' hlt
    · rw [isHighSurrogate_eq, UInt16.toNat_ofNat_of_lt' hlt, decide_eq_false_iff_not]
      omega
    · rw [isLowSurrogate_eq, UInt16.toNat_ofNat_of_lt' hlt, decide_eq_false_iff_not]
      omega
  · rename_i hge
    have hhigh : 0xD800 + (c.toNat - 0x10000) / 0x400 < 2 ^ 16 := by omega
    have hlow : 0xDC00 + (c.toNat - 0x10000) % 0x400 < 2 ^ 16 := by omega
    refine Or.inr ⟨by omega, _, _, rfl, UInt16.toNat_ofNat_of_lt' hhigh, UInt16.toNat_ofNat_of_lt' hlow, ?_, ?_⟩
    · rw [isHighSurrogate_eq, UInt16.toNat_ofNat_of_lt' hhigh, decide_eq_true_eq]
      omega
    · rw [isLowSurrogate_eq, UInt16.toNat_ofNat_of_lt' hlow, decide_eq_true_eq]
      omega

/-- A text that begins with a character has it first. -/
theorem chars_codeUnits (c : Char) (s : Text) : chars (codeUnits c ++ s) = c :: chars s := by
  rcases codeUnits_cases c with ⟨_, u, hu, hval, hhigh, hlow⟩ | ⟨hge, u, v, hu, hhighvalue, hlowvalue, hhigh, hlow⟩
  · have hunit : unitChar u = c := by
      rw [unitChar, hhigh, hlow, hval, Bool.or_self, if_neg Bool.false_ne_true, Char.ofNat_toNat]
    rw [hu, cons_append, nil_append]
    cases s with
    | nil =>
      show [unitChar u] = [c]
      rw [hunit]
    | cons d s => rw [chars, hhigh, Bool.false_and, if_neg Bool.false_ne_true, hunit]
  · have hpair : pairChar u v = c := by
      have hvald : c.toNat < 0xD800 ∨ (0xDFFF < c.toNat ∧ c.toNat < 0x110000) := c.valid
      rw [pairChar, hhighvalue, hlowvalue, show 0x10000 + (0xD800 + (c.toNat - 0x10000) / 0x400 - 0xD800) * 0x400 +
          (0xDC00 + (c.toNat - 0x10000) % 0x400 - 0xDC00) = c.toNat by omega, Char.ofNat_toNat]
    rw [hu]
    show chars (u :: v :: s) = _
    rw [chars, hhigh, hlow, Bool.and_self, if_pos rfl, hpair]

theorem chars_utf16_append (rest : Text) : chars (utf16 cs ++ rest) = cs ++ chars rest := by
  induction cs with
  | nil => rfl
  | cons c cs ih => rw [utf16_cons, append_assoc, chars_codeUnits, ih, cons_append]

@[simp] theorem chars_utf16 : chars (utf16 cs) = cs := by
  rw [← append_nil (utf16 cs), chars_utf16_append]
  exact append_nil cs

variable {n : Nat} {s : Text} {c : UInt16} {texts : List Text} {numbers : Numbers}

theorem toNat_ofNatAux (h : n.isValidChar) : (Char.ofNatAux n h).toNat = n := by
  show (UInt32.ofNatLT n _).toNat = n
  exact UInt32.toNat_ofNatLT

namespace WellFormed

variable {s t : Text}

theorem nil : WellFormed [] := ⟨[], rfl⟩

theorem append (h : WellFormed s) (h' : WellFormed t) : WellFormed (s ++ t) := by
  obtain ⟨cs, rfl⟩ := h
  obtain ⟨cs', rfl⟩ := h'
  exact ⟨cs ++ cs', (utf16_append cs cs').symm⟩

theorem unit {c : UInt16} (hhigh : isHighSurrogate c = false) (hlow : isLowSurrogate c = false) : WellFormed [c] := by
  have hvald : c.toNat.isValidChar := by
    rw [isHighSurrogate_eq, decide_eq_false_iff_not] at hhigh
    rw [isLowSurrogate_eq, decide_eq_false_iff_not] at hlow
    have hlt := c.toNat_lt
    unfold Nat.isValidChar
    omega
  refine ⟨[Char.ofNat c.toNat], ?_⟩
  have htoNat : (Char.ofNat c.toNat).toNat = c.toNat := by
    rw [Char.ofNat, dif_pos hvald]
    exact toNat_ofNatAux hvald
  rw [utf16_cons, utf16_nil, append_nil, codeUnits, htoNat, if_pos c.toNat_lt]
  simp

theorem pair {c d : UInt16} (hhigh : isHighSurrogate c = true) (hlow : isLowSurrogate d = true) : WellFormed [c, d] := by
  rw [isHighSurrogate_eq, decide_eq_true_eq] at hhigh
  rw [isLowSurrogate_eq, decide_eq_true_eq] at hlow
  have hvald : (0x10000 + (c.toNat - 0xD800) * 0x400 + (d.toNat - 0xDC00)).isValidChar := by
    unfold Nat.isValidChar
    omega
  refine ⟨[pairChar c d], ?_⟩
  have htoNat : (pairChar c d).toNat = 0x10000 + (c.toNat - 0xD800) * 0x400 + (d.toNat - 0xDC00) := by
    rw [pairChar, Char.ofNat, dif_pos hvald]
    exact toNat_ofNatAux hvald
  rw [utf16_cons, utf16_nil, append_nil, codeUnits, htoNat, if_neg (by omega)]
  have hc : 0xD800 + (0x10000 + (c.toNat - 0xD800) * 0x400 + (d.toNat - 0xDC00) - 0x10000) / 0x400 = c.toNat := by omega
  have hd : 0xDC00 + (0x10000 + (c.toNat - 0xD800) * 0x400 + (d.toNat - 0xDC00) - 0x10000) % 0x400 = d.toNat := by omega
  rw [hc, hd]
  simp

theorem cons {c : UInt16} (hhigh : isHighSurrogate c = false) (hlow : isLowSurrogate c = false) (h : WellFormed s) :
    WellFormed (c :: s) := (unit hhigh hlow).append h

theorem utf16_chars (h : WellFormed s) : utf16 (chars s) = s := by
  obtain ⟨cs, rfl⟩ := h
  rw [chars_utf16]

end WellFormed

/-! ## What is written is well-formed -/

def IsAscii (s : Text) : Prop := ∀ c ∈ s, c < 128

instance (s : Text) : Decidable (IsAscii s) := List.decidableBAll (· < 128) s

theorem IsAscii.wellFormed (h : IsAscii s) : WellFormed s := by
  induction s with
  | nil => exact WellFormed.nil
  | cons c s ih =>
    have hc : c.toNat < 128 := UInt16.lt_iff_toNat_lt.mp (h c (by simp))
    apply WellFormed.cons _ _ (ih (fun d hd => h d (by simp [hd])))
    · rw [isHighSurrogate_eq, decide_eq_false_iff_not]
      omega
    · rw [isLowSurrogate_eq, decide_eq_false_iff_not]
      omega

theorem IsAscii.append {t : Text} (h : IsAscii s) (h' : IsAscii t) : IsAscii (s ++ t) := fun c hc => (mem_append.mp hc).elim (h c) (h' c)

/-- The units of number literals. -/
def isNumberUnit (c : UInt16) : Bool := isDigit c || [43, 45, 46, 69, 101].contains c

theorem isNumberUnit_lt (h : isNumberUnit c = true) : 32 < c ∧ c < 128 := by
  simp only [isNumberUnit, isDigit, Bool.or_eq_true, Bool.and_eq_true, decide_eq_true_eq, contains_eq_mem, mem_cons,
    not_mem_nil, or_false] at h
  rcases h with ⟨hge, hlt⟩ | rfl | rfl | rfl | rfl | rfl
  · have hfst : (32 : UInt16) < 48 := by decide
    have hlast : (58 : UInt16) < 128 := by decide
    exact ⟨UInt16.lt_of_lt_of_le hfst hge, UInt16.lt_trans hlt hlast⟩
  all_goals exact ⟨by decide, by decide⟩

section Numbers

variable {s x rest : Text}

theorem readDigits_units (h : readDigits s = some (x, rest)) : ∀ c ∈ x, isNumberUnit c = true := by
  unfold readDigits at h
  split at h
  · exact nomatch h
  · cases h
    intro c hc
    rw [isNumberUnit, mem_takeWhile_imp hc, Bool.true_or]

theorem readInteger_units (h : readInteger s = some (x, rest)) : ∀ c ∈ x, isNumberUnit c = true := by
  unfold readInteger at h
  split at h
  · cases h
    intro c hc
    rw [mem_singleton.mp hc]
    decide
  · exact readDigits_units h

theorem readFraction_units (h : readFraction s = some (x, rest)) : ∀ c ∈ x, isNumberUnit c = true := by
  unfold readFraction at h
  split at h
  · obtain ⟨⟨digits, rest'⟩, hdigs, heq⟩ := map_eq_some_iff.mp h
    cases heq
    intro c hc
    rcases mem_cons.mp hc with rfl | hc
    · decide
    · exact readDigits_units hdigs c hc
  · cases h
    exact forall_mem_nil _

theorem sign_units : ∀ c ∈ ([43, 45] : List UInt16), isNumberUnit c = true := by
  intro c hc
  rcases mem_pair.mp hc with rfl | rfl <;> rfl

theorem readSign_units {allowed : List UInt16} (hallowed : ∀ c ∈ allowed, isNumberUnit c = true) (s : Text) :
    ∀ c ∈ (readSign allowed s).1, isNumberUnit c = true := by
  cases s with
  | nil => exact forall_mem_nil _
  | cons d s =>
    simp only [readSign]
    split
    · rename_i hd
      intro c hc
      rw [mem_singleton.mp hc]
      exact hallowed d hd
    · exact forall_mem_nil _

theorem readExponent_units (h : readExponent s = some (x, rest)) : ∀ c ∈ x, isNumberUnit c = true := by
  unfold readExponent at h
  split at h
  · rename_i c s
    split at h
    · rename_i hexponent
      obtain ⟨⟨digits, rest'⟩, hdigs, heq⟩ := map_eq_some_iff.mp h
      cases heq
      intro d hd
      rcases mem_cons.mp hd with rfl | hd
      · simp only [isExponent, Bool.or_eq_true, decide_eq_true_eq] at hexponent
        rcases hexponent with rfl | rfl <;> decide
      · rcases mem_append.mp hd with hd | hd
        · exact readSign_units sign_units s d hd
        · exact readDigits_units hdigs d hd
    · cases h
      exact forall_mem_nil _
  · cases h
    exact forall_mem_nil _

theorem readNumber_units (h : readNumber s = some (x, rest)) : ∀ c ∈ x, isNumberUnit c = true := by
  obtain ⟨⟨integer, s₁⟩, hint, h⟩ := bind_eq_some_iff.mp h
  obtain ⟨⟨fraction, s₂⟩, hfraction, h⟩ := bind_eq_some_iff.mp h
  obtain ⟨⟨exponent, s₃⟩, hexponent, heq⟩ := map_eq_some_iff.mp h
  cases heq
  intro c hc
  rcases mem_append.mp hc with hc | hc
  · rcases mem_append.mp hc with hc | hc
    · rcases mem_append.mp hc with hc | hc
      · exact readSign_units (fun c hc => sign_units c (mem_cons_of_mem _ hc)) s c hc
      · exact readInteger_units hint c hc
    · exact readFraction_units hfraction c hc
  · exact readExponent_units hexponent c hc

theorem readNumber_ascii (h : readNumber s = some (x, rest)) : IsAscii x := fun c hc => (isNumberUnit_lt (readNumber_units h c hc)).2

end Numbers

theorem hexDigit_ascii (h : n < 16) : hexDigit n < 128 := by
  have hall : ∀ i : Fin 16, hexDigit i < 128 := by decide
  exact hall ⟨n, h⟩

theorem unicodeEscape_ascii (c : UInt16) : IsAscii (unicodeEscape c) := by
  have hc := c.toNat_lt
  intro d hd
  simp only [unicodeEscape, mem_cons, not_mem_nil, or_false] at hd
  rcases hd with rfl | rfl | rfl | rfl | rfl | rfl
  · decide
  · decide
  all_goals exact hexDigit_ascii (by omega)

theorem escapeUnit_wellFormed (hhigh : isHighSurrogate c = false) (hlow : isLowSurrogate c = false) : WellFormed (escapeUnit c) := by
  unfold escapeUnit
  repeat' split
  all_goals first
    | exact (unicodeEscape_ascii c).wellFormed
    | exact WellFormed.unit hhigh hlow
    | exact IsAscii.wellFormed (by decide)

/-- The inside of a string is well-formed, and so is a pair that its first unit completes. -/
theorem quoted_wellFormed (s : Text) : WellFormed (quoted false s) ∧
    ∀ high, isHighSurrogate high = true → s.head?.any isLowSurrogate = true → WellFormed (high :: quoted true s) := by
  induction s with
  | nil => exact ⟨WellFormed.nil, nofun⟩
  | cons c cs ih =>
    refine ⟨?_, ?_⟩
    · rw [quoted_cons, if_neg Bool.false_ne_true]
      split
      · rename_i hpair
        simp only [startsPair, Bool.and_eq_true] at hpair
        exact ih.2 c hpair.1 hpair.2
      split
      · exact (unicodeEscape_ascii c).wellFormed.append ih.1
      · rename_i hnone
        simp only [Bool.or_eq_true, not_or, Bool.not_eq_true] at hnone
        exact (escapeUnit_wellFormed hnone.1 hnone.2).append ih.1
    · intro high hhigh hlow
      rw [quoted_cons, if_pos rfl]
      have hc : isLowSurrogate c = true := by simpa using hlow
      exact (WellFormed.pair hhigh hc).append ih.1

theorem stringText_wellFormed (s : Text) : WellFormed (stringText s) := by
  have hquote : WellFormed [34] := IsAscii.wellFormed (by decide)
  exact hquote.append ((quoted_wellFormed s).1.append hquote)

theorem WellFormed.mark (hc : c < 128) (h : WellFormed s) : WellFormed (c :: s) := by
  have hmark : IsAscii [c] := fun d hd => by rwa [mem_singleton.mp hd]
  exact hmark.wellFormed.append h

theorem elementsText_wellFormed (h : ∀ s ∈ texts, WellFormed s) : WellFormed (elementsText texts) := by
  induction texts with
  | nil => exact IsAscii.wellFormed (by decide)
  | cons s texts ih =>
    exact WellFormed.mark (by decide) ((h s (by simp)).append (ih (fun t ht => h t (by simp [ht]))))

theorem arrayText_wellFormed (h : ∀ s ∈ texts, WellFormed s) : WellFormed (arrayText texts) := by
  cases texts with
  | nil => exact IsAscii.wellFormed (by decide)
  | cons s texts =>
    exact WellFormed.mark (by decide) ((h s (by simp)).append (elementsText_wellFormed (fun t ht => h t (by simp [ht]))))

theorem stringifyMembers_wellFormed {m : List (Text × Json)}
    (h : ∀ p ∈ m, WellFormed (stringify numbers p.2)) : WellFormed (stringifyMembers numbers m) := by
  induction m with
  | nil =>
    show WellFormed [125]
    exact IsAscii.wellFormed (by decide)
  | cons p m ih =>
    have hrest := ih (fun q hq => h q (by simp [hq]))
    exact WellFormed.mark (by decide) ((stringText_wellFormed p.1).append
      (WellFormed.mark (by decide) ((h p (by simp)).append hrest)))

/-- `JSON.stringify` writes no lone surrogate. -/
theorem stringify_wellFormed {x : Json} (h : Plain numbers x) : WellFormed (stringify numbers x) := by
  induction h with
  | null =>
    show WellFormed (text "null")
    exact IsAscii.wellFormed (by decide)
  | @bool b =>
    cases b with
    | false =>
      show WellFormed (text "false")
      exact IsAscii.wellFormed (by decide)
    | true =>
      show WellFormed (text "true")
      exact IsAscii.wellFormed (by decide)
  | num hwrites => exact (readNumber_ascii hwrites.1).wellFormed
  | @str s => exact stringText_wellFormed s
  | @arr xs _ ih =>
    rw [stringify_arr]
    apply arrayText_wellFormed
    intro s hs
    obtain ⟨x, hx, rfl⟩ := mem_map.mp hs
    exact ih x hx
  | @obj m _ _ _ ih =>
    cases m with
    | nil =>
      show WellFormed [123, 125]
      exact IsAscii.wellFormed (by decide)
    | cons p m =>
      have hrest := stringifyMembers_wellFormed (fun q hq => ih q (mem_cons_of_mem p hq))
      exact WellFormed.mark (by decide) ((stringText_wellFormed p.1).append
        (WellFormed.mark (by decide) ((ih p (by simp)).append hrest)))

/-! ## What is written is one line -/

theorem hexDigit_ne_newline (h : n < 16) : hexDigit n ≠ 10 := by
  have hall : ∀ i : Fin 16, hexDigit i ≠ 10 := by decide
  exact hall ⟨n, h⟩

theorem unicodeEscape_no_newline (c : UInt16) : 10 ∉ unicodeEscape c := by
  have hc := c.toNat_lt
  intro hmem
  simp only [unicodeEscape, mem_cons, not_mem_nil, or_false] at hmem
  rcases hmem with h | h | h | h | h | h
  · exact absurd h (by decide)
  · exact absurd h (by decide)
  all_goals exact hexDigit_ne_newline (by omega) h.symm

theorem escapeUnit_no_newline (c : UInt16) : 10 ∉ escapeUnit c := by
  unfold escapeUnit
  repeat' split
  all_goals first
    | exact unicodeEscape_no_newline c
    | decide
    | skip
  rename_i hnewline _ _ _ _ _
  intro hmem
  exact hnewline (mem_singleton.mp hmem).symm

theorem quoted_no_newline (paired : Bool) (s : Text) (h : Completes paired s) : 10 ∉ quoted paired s := by
  induction s generalizing paired with
  | nil => exact not_mem_nil
  | cons c s ih =>
    rw [quoted_cons]
    split
    · rename_i hpaired
      have hlow : isLowSurrogate c = true := by simpa using h hpaired
      rw [mem_cons, not_or]
      refine ⟨?_, ih false (by simp [Completes])⟩
      rintro rfl
      exact absurd hlow (by decide)
    split
    · rename_i hpair
      simp only [startsPair, Bool.and_eq_true] at hpair
      rw [mem_cons, not_or]
      refine ⟨?_, ih true fun _ => hpair.2⟩
      rintro rfl
      exact absurd hpair.1 (by decide)
    have hrest := ih false (by simp [Completes])
    split
    · rw [mem_append, not_or]
      exact ⟨unicodeEscape_no_newline c, hrest⟩
    · rw [mem_append, not_or]
      exact ⟨escapeUnit_no_newline c, hrest⟩

theorem stringText_no_newline (s : Text) : 10 ∉ stringText s := by
  have hquoted := quoted_no_newline false s (by simp [Completes])
  simp only [stringText, mem_cons, mem_append, not_mem_nil, or_false, not_or]
  exact ⟨by decide, hquoted, by decide⟩

theorem elementsText_no_newline (h : ∀ s ∈ texts, 10 ∉ s) : 10 ∉ elementsText texts := by
  induction texts with
  | nil => decide
  | cons s texts ih =>
    simp only [elementsText, mem_cons, mem_append, not_or]
    exact ⟨by decide, h s mem_cons_self, ih fun t ht => h t (mem_cons_of_mem s ht)⟩

theorem stringifyMembers_no_newline {m : List (Text × Json)} (h : ∀ p ∈ m, 10 ∉ stringify numbers p.2) :
    10 ∉ stringifyMembers numbers m := by
  induction m with
  | nil =>
    show 10 ∉ [125]
    decide
  | cons p m ih =>
    simp only [stringifyMembers, mem_cons, mem_append, not_or]
    exact ⟨by decide, stringText_no_newline p.1, by decide, h p mem_cons_self, ih fun q hq => h q (mem_cons_of_mem p hq)⟩

/-- `JSON.stringify` writes one line. -/
theorem stringify_no_newline {x : Json} (h : Plain numbers x) : 10 ∉ stringify numbers x := by
  induction h with
  | null =>
    show 10 ∉ text "null"
    decide
  | @bool b => cases b <;> · show 10 ∉ text _; decide
  | num hwrites =>
    intro hmem
    exact absurd (readNumber_units hwrites.1 10 hmem) (by decide)
  | @str s => exact stringText_no_newline s
  | @arr xs _ ih =>
    rw [stringify_arr]
    have htexts : ∀ s ∈ xs.map (stringify numbers), 10 ∉ s := by
      intro s hs
      obtain ⟨x, hx, rfl⟩ := mem_map.mp hs
      exact ih x hx
    cases hs : xs.map (stringify numbers) with
    | nil => decide
    | cons s texts =>
      rw [hs] at htexts
      simp only [arrayText, mem_cons, mem_append, not_or]
      exact ⟨by decide, htexts s mem_cons_self, elementsText_no_newline fun t ht => htexts t (mem_cons_of_mem s ht)⟩
  | @obj m _ _ _ ih =>
    cases m with
    | nil =>
      show 10 ∉ [123, 125]
      decide
    | cons p m =>
      have hrest := stringifyMembers_no_newline fun q hq => ih q (mem_cons_of_mem p hq)
      simp only [stringify, mem_cons, mem_append, not_or]
      exact ⟨by decide, stringText_no_newline p.1, by decide, ih p mem_cons_self, hrest⟩

/-! ## Bytes -/

theorem decodeUtf8_utf8 : decodeUtf8 (utf8 cs) = some (utf16 cs) := by
  have henc : (utf8 cs).toByteArray = cs.utf8Encode := rfl
  rw [decodeUtf8, henc, utf8Decode?_utf8Encode, map_some]

/-- A well-formed text is decoded from its bytes. -/
theorem decodeUtf8_encodeUtf8 (h : WellFormed s) : decodeUtf8 (encodeUtf8 s) = some s := by
  rw [encodeUtf8, decodeUtf8_utf8, h.utf16_chars]

/-! ## The first newline -/

theorem eq_newline_of_mem {c : Char} (h : 10 ∈ String.utf8EncodeChar c) : c = Char.ofNat 10 := by
  have hbyte : ∀ {n : Nat}, (10 : UInt8) = UInt8.ofNat n → n < 256 → n = 10 := by
    intro n heq hn
    have htoNat := congrArg UInt8.toNat heq
    rw [UInt8.toNat_ofNat_of_lt' hn] at htoNat
    exact htoNat.symm
  have hnot : ∀ {n : Nat}, (10 : UInt8) = UInt8.ofNat n → n < 256 → 10 < n → False := by
    intro n heq hn hlt
    have hten := hbyte heq hn
    omega
  unfold String.utf8EncodeChar at h
  dsimp only at h
  split at h
  · rename_i hle
    have hval : c.val.toNat = 10 := hbyte (mem_singleton.mp h) (by omega)
    have htoNat : c.toNat = 10 := hval
    rw [← htoNat, Char.ofNat_toNat]
  split at h
  · simp only [mem_cons, not_mem_nil, or_false] at h
    exact h.elim (fun h => (hnot h (by omega) (by omega)).elim) (fun h => (hnot h (by omega) (by omega)).elim)
  split at h
  · simp only [mem_cons, not_mem_nil, or_false] at h
    obtain h | h | h := h
    all_goals exact (hnot h (by omega) (by omega)).elim
  · simp only [mem_cons, not_mem_nil, or_false] at h
    obtain h | h | h | h := h
    all_goals exact (hnot h (by omega) (by omega)).elim

/-- A text is its bytes up to the first newline, which is one of its own or the one after it. -/
theorem takeWhile_utf8 (tail : List UInt8) :
    (Char.ofNat 10 ∉ cs ∧ (utf8 cs ++ tail).takeWhile (· ≠ 10) = utf8 cs ++ tail.takeWhile (· ≠ 10) ∧
      (utf8 cs ++ tail).dropWhile (· ≠ 10) = tail.dropWhile (· ≠ 10)) ∨
    ∃ bef aft, cs = bef ++ Char.ofNat 10 :: aft ∧ (utf8 cs ++ tail).takeWhile (· ≠ 10) = utf8 bef := by
  induction cs with
  | nil => exact Or.inl ⟨not_mem_nil, rfl, rfl⟩
  | cons c cs ih =>
    by_cases hc : c = Char.ofNat 10
    · subst hc
      exact Or.inr ⟨[], cs, rfl, rfl⟩
    · have hbytes : ∀ b ∈ String.utf8EncodeChar c, decide (b ≠ 10) = true := by
        intro b hb
        rw [decide_eq_true_eq]
        rintro rfl
        exact hc (eq_newline_of_mem hb)
      have hcons : utf8 (c :: cs) ++ tail = String.utf8EncodeChar c ++ (utf8 cs ++ tail) := by
        simp only [utf8, flatMap_cons, append_assoc]
      rw [hcons, takeWhile_append_of_pos hbytes, dropWhile_append_of_pos hbytes]
      rcases ih with ⟨hnot, htake, hdrop⟩ | ⟨bef, aft, rfl, htake⟩
      · refine Or.inl ⟨?_, ?_, hdrop⟩
        · simp only [mem_cons, not_or]
          exact ⟨fun heq => hc heq.symm, hnot⟩
        · rw [htake]
          simp only [utf8, flatMap_cons, append_assoc]
      · refine Or.inr ⟨c :: bef, aft, rfl, ?_⟩
        rw [htake]
        rfl

end PiBridge.Chord
