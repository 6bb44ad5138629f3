import PiBridge.Chord.Link.Message

/-!
# `Chord.Link.Values` — parts in a text tuple

A part stands in a tuple behind its codec: `[0, json]`, or `[1, base64]` when it is deflated. The text of a plain
part is put in as it is.
-/

namespace PiBridge.Chord.Link

open List Option

/-! ## Base64 -/

/-- The character of six bits. -/
def sextetChar (n : Nat) : UInt16 :=
  UInt16.ofNat (if n < 26 then 65 + n else if n < 52 then 71 + n else if n < 62 then n - 4 else if n = 62 then 43 else 47)

/-- The six bits of a character. -/
def sextet? (c : UInt16) : Option Nat :=
  if 65 ≤ c ∧ c ≤ 90 then some (c.toNat - 65)
  else if 97 ≤ c ∧ c ≤ 122 then some (c.toNat - 71)
  else if isDigit c then some (c.toNat + 4)
  else if c = 43 then some 62
  else if c = 47 then some 63
  else none

/-- The bytes in groups of six bits. -/
def sextets : List UInt8 → List Nat
  | [] => []
  | [a] => [a.toNat / 4, a.toNat % 4 * 16]
  | [a, b] => [a.toNat / 4, a.toNat % 4 * 16 + b.toNat / 16, b.toNat % 16 * 4]
  | a :: b :: c :: bytes =>
    a.toNat / 4 :: (a.toNat % 4 * 16 + b.toNat / 16) :: (b.toNat % 16 * 4 + c.toNat / 64) :: c.toNat % 64 :: sextets bytes

/-- `base64`: four characters for three bytes, the last ones filled with `=`. -/
def base64 (bytes : List UInt8) : Text := (sextets bytes).map sextetChar ++ List.replicate ((3 - bytes.length % 3) % 3) 61

/-- The bytes of groups of six bits; one group alone is no byte. -/
def unpackSextets : List Nat → Option (List UInt8)
  | [] => some []
  | [_] => none
  | [p, q] => some [UInt8.ofNat (p * 4 + q / 16)]
  | [p, q, r] => some [UInt8.ofNat (p * 4 + q / 16), UInt8.ofNat (q % 16 * 16 + r / 4)]
  | p :: q :: r :: s :: rest =>
    (unpackSextets rest).map fun bytes =>
      UInt8.ofNat (p * 4 + q / 16) :: UInt8.ofNat (q % 16 * 16 + r / 4) :: UInt8.ofNat (r % 4 * 64 + s) :: bytes

/-- What the decoder skips. -/
def isAsciiSpace (c : UInt16) : Bool := c = 9 || c = 10 || c = 12 || c = 13 || c = 32

/-- Without one or two `=` at the end. -/
def dropPadding (s : Text) : Text :=
  if s.getLast? = some 61 then if s.dropLast.getLast? = some 61 then s.dropLast.dropLast else s.dropLast else s

/-- `fromBase64` -/
def fromBase64 (t : Text) : Option (List UInt8) :=
  let s := t.filter fun c => !isAsciiSpace c
  ((if s.length % 4 = 0 then dropPadding s else s).mapM sextet?).bind unpackSextets

variable (bytes : List UInt8)

theorem sextets_lt : ∀ n ∈ sextets bytes, n < 64 := by
  fun_induction sextets bytes with
  | case1 => simp
  | case2 a =>
    have ha := a.toNat_lt
    simp only [mem_cons, not_mem_nil, or_false]
    rintro n (rfl | rfl) <;> omega
  | case3 a b =>
    have ha := a.toNat_lt
    have hb := b.toNat_lt
    simp only [mem_cons, not_mem_nil, or_false]
    rintro n (rfl | rfl | rfl) <;> omega
  | case4 a b c bytes ih =>
    have ha := a.toNat_lt
    have hb := b.toNat_lt
    have hc := c.toNat_lt
    simp only [mem_cons]
    rintro n (rfl | rfl | rfl | rfl | hn)
    · omega
    · omega
    · omega
    · omega
    · exact ih n hn

theorem unpackSextets_sextets : unpackSextets (sextets bytes) = some bytes := by
  fun_induction sextets bytes with
  | case1 => rfl
  | case2 a =>
    have ha : a.toNat / 4 * 4 + a.toNat % 4 * 16 / 16 = a.toNat := by omega
    simp only [unpackSextets, ha, UInt8.ofNat_toNat]
  | case3 a b =>
    have hb := b.toNat_lt
    have ha : a.toNat / 4 * 4 + (a.toNat % 4 * 16 + b.toNat / 16) / 16 = a.toNat := by omega
    have hb' : (a.toNat % 4 * 16 + b.toNat / 16) % 16 * 16 + b.toNat % 16 * 4 / 4 = b.toNat := by omega
    simp only [unpackSextets, ha, hb', UInt8.ofNat_toNat]
  | case4 a b c bytes ih =>
    have hb := b.toNat_lt
    have hc := c.toNat_lt
    have ha : a.toNat / 4 * 4 + (a.toNat % 4 * 16 + b.toNat / 16) / 16 = a.toNat := by omega
    have hb' : (a.toNat % 4 * 16 + b.toNat / 16) % 16 * 16 + (b.toNat % 16 * 4 + c.toNat / 64) / 4 = b.toNat := by omega
    have hc' : (b.toNat % 16 * 4 + c.toNat / 64) % 4 * 64 + c.toNat % 64 = c.toNat := by omega
    simp only [unpackSextets, ih, ha, hb', hc', UInt8.ofNat_toNat, map_some]

variable {n : Nat}

/-- What holds of the character of six bits. -/
theorem sextetChar_spec (h : n < 64) : sextet? (sextetChar n) = some n ∧ isAsciiSpace (sextetChar n) = false ∧ sextetChar n ≠ 61 ∧
      34 < sextetChar n ∧ sextetChar n ≠ 92 := by
  have hall : ∀ i : Fin 64, sextet? (sextetChar i) = some i.val ∧ isAsciiSpace (sextetChar i) = false ∧
      sextetChar i ≠ 61 ∧ 34 < sextetChar i ∧ sextetChar i ≠ 92 := by decide
  exact hall ⟨n, h⟩

theorem mapM_sextet? {l : List Nat} (h : ∀ n ∈ l, n < 64) : (l.map sextetChar).mapM sextet? = some l := by
  induction l with
  | nil => rfl
  | cons n l ih =>
    rw [map_cons, mapM_cons, (sextetChar_spec (h n (by simp))).1, ih (fun m hm => h m (by simp [hm]))]
    rfl

theorem dropPadding_append {s : Text} (h : ∀ c ∈ s, c ≠ 61) (hn : n ≤ 2) : dropPadding (s ++ List.replicate n 61) = s := by
  have hlast : s.getLast? ≠ some 61 := fun heq => h 61 (mem_of_getLast? heq) rfl
  have hcases : n = 0 ∨ n = 1 ∨ n = 2 := by omega
  rcases hcases with rfl | rfl | rfl
  · rw [replicate_zero, append_nil, dropPadding, if_neg hlast]
  · simp only [replicate_one, dropPadding, getLast?_append, getLast?_singleton, some_or, if_true, dropLast_concat, if_neg hlast]
  · have htwo : s ++ replicate 2 61 = s ++ [61] ++ [61] := by simp [replicate]
    rw [htwo]
    simp only [dropPadding, getLast?_append, getLast?_singleton, some_or, if_true, dropLast_concat]

theorem length_sextets : ((sextets bytes).length + (3 - bytes.length % 3) % 3) % 4 = 0 := by
  fun_induction sextets bytes with
  | case1 => rfl
  | case2 a => simp only [length_cons, length_nil, Nat.zero_add, Nat.reduceAdd, Nat.reduceMod, Nat.reduceSub]
  | case3 a b => simp only [length_cons, length_nil, Nat.zero_add, Nat.reduceAdd, Nat.reduceMod, Nat.reduceSub]
  | case4 a b c bytes ih =>
    simp only [length_cons]
    omega

theorem fromBase64_base64 : fromBase64 (base64 bytes) = some bytes := by
  have hchars : ∀ c ∈ (sextets bytes).map sextetChar, isAsciiSpace c = false ∧ c ≠ 61 := by
    intro c hc
    obtain ⟨n, hn, rfl⟩ := mem_map.mp hc
    obtain ⟨-, hspace, hpad, -⟩ := sextetChar_spec (sextets_lt bytes n hn)
    exact ⟨hspace, hpad⟩
  have hfilter : (base64 bytes).filter (fun c => !isAsciiSpace c) = base64 bytes := by
    rw [filter_eq_self]
    intro c hc
    rcases mem_append.mp hc with hc | hc
    · rw [(hchars c hc).1]
      rfl
    · rw [eq_of_mem_replicate hc]
      rfl
  have hlen : (base64 bytes).length % 4 = 0 := by
    rw [base64, length_append, length_map, length_replicate]
    exact length_sextets bytes
  unfold fromBase64
  simp only [hfilter, hlen, if_true]
  rw [base64, dropPadding_append (fun c hc => (hchars c hc).2) (by omega), mapM_sextet? (sextets_lt bytes),
    bind_some, unpackSextets_sextets]

theorem base64_plain : ∀ c ∈ base64 bytes, 34 < c ∧ c ≠ 92 := by
  intro c hc
  rcases mem_append.mp hc with hc | hc
  · obtain ⟨n, hn, rfl⟩ := mem_map.mp hc
    exact (sextetChar_spec (sextets_lt bytes n hn)).2.2.2
  · rw [eq_of_mem_replicate hc]
    decide

/-! ## Parts -/

variable (numbers : Numbers)

/-- `parseJson` -/
def parseJson (bytes : List UInt8) : Option Json := (decodeUtf8 bytes).bind (parse numbers)

/-- `partText` -/
def partText : Part → Option Text
  | .deflated b => some (text "[1,\"" ++ base64 b ++ text "\"]")
  | .text s => some (text "[0," ++ s ++ text "]")
  | .bytes b => (decodeUtf8 b).map fun s => text "[0," ++ s ++ text "]"

/-- `textPart` -/
def textPart : Json → Option Part
  | .arr [codec, payload] =>
    if codec = .num 0 then some (.text (stringify numbers payload))
    else if codec = .num 1 then
      match payload with
      | .str s => (fromBase64 s).map .deflated
      | _ => none
    else none
  | _ => none

/-- The text of a plain part, where it has one. -/
def Part.json? : Part → Option Text
  | .text s => some s
  | .bytes b => decodeUtf8 b
  | .deflated _ => none

variable {numbers}

theorem reads_decimal (h : numbers.Exact) (hn : n < 2 ^ 53) : Reads numbers (decimal n) (.num n) := by
  have hread := reads_number (h.writes hn)
  rwa [h.text n hn] at hread

/-- A string of plain characters is read as it is. -/
theorem reads_plainString {s : Text} (h : ∀ c ∈ s, 34 < c ∧ c ≠ 92) : Reads numbers (34 :: (s ++ [34])) (.str s) := by
  have hread : ∀ t, readString (s ++ 34 :: t) = some (s, t) := by
    intro t
    induction s with
    | nil => rfl
    | cons c s ih =>
      obtain ⟨hquote, hslash⟩ := h c (by simp)
      have hcontrol : ¬ c < 32 := by
        rw [UInt16.lt_iff_toNat_lt] at hquote ⊢
        have h₁ : (34 : UInt16).toNat = 34 := rfl
        have h₂ : (32 : UInt16).toNat = 32 := rfl
        omega
      have hne : c ≠ 34 := by
        rintro rfl
        exact absurd hquote (by decide)
      rw [cons_append, readString_cons hne hslash, if_neg hcontrol, ih (fun d hd => h d (by simp [hd]))]
      rfl
  apply reads_scalar (by decide) (by decide) (by decide)
  intro t _
  have happ : 34 :: (s ++ [34]) ++ t = 34 :: (s ++ 34 :: t) := by simp
  rw [happ, readScalar, hread, map_some]

/-- **A part whose text is one value stands in a tuple as one element.** -/
theorem reads_partText (h : numbers.Exact) {part : Part} {t : Text} (ht : partText part = some t)
    (hjson : ∀ s, part.json? = some s → (parse numbers s).isSome = true) :
    ∃ x part', Reads numbers t x ∧ textPart numbers x = some part' := by
  have hplain : ∀ s, part.json? = some s → t = text "[0," ++ s ++ text "]" →
      ∃ x part', Reads numbers t x ∧ textPart numbers x = some part' := by
    rintro s hs rfl
    obtain ⟨x, hx⟩ := isSome_iff_exists.mp (hjson s hs)
    have hzero : Reads numbers [48] (.num 0) := reads_decimal h (n := 0) (by decide)
    have htext : text "[0," ++ s ++ text "]" = arrayText [[48], s] := by
      show [91, 48, 44] ++ s ++ [93] = 91 :: ([48] ++ 44 :: (s ++ [93]))
      simp
    rw [htext]
    refine ⟨.arr [.num 0, x], .text (stringify numbers x), ?_, ?_⟩
    · exact reads_arrayText (.cons hzero (.cons (reads_of_parse hx) .nil))
    · simp only [textPart, if_true]
  cases part with
  | text s => exact hplain s rfl (some.inj ht).symm
  | bytes b =>
    obtain ⟨s, hs, rfl⟩ := map_eq_some_iff.mp ht
    exact hplain s hs rfl
  | deflated b =>
    cases ht
    have hone : Reads numbers [49] (.num 1) := reads_decimal h (n := 1) (by decide)
    have htext : text "[1,\"" ++ base64 b ++ text "\"]" = arrayText [[49], 34 :: (base64 b ++ [34])] := by
      show [91, 49, 44, 34] ++ base64 b ++ [34, 93] = 91 :: ([49] ++ 44 :: (34 :: (base64 b ++ [34]) ++ [93]))
      simp
    rw [htext]
    refine ⟨.arr [.num 1, .str (base64 b)], .deflated b, ?_, ?_⟩
    · exact reads_arrayText (.cons hone (.cons (reads_plainString (base64_plain b)) .nil))
    · have hne : (Json.num 1) ≠ .num 0 := by simp
      rw [textPart, if_neg hne, if_pos rfl]
      simp only [fromBase64_base64, map_some]

end PiBridge.Chord.Link
