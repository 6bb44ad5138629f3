import PiBridge.Chord.Delta.Op
import Mathlib.Data.Nat.Digits.Lemmas

/-!
# `Chord.Delta.PathKey` — the text of a path determines it

`pathKey` is `JSON.stringify(path)`, the key under which a path is interned and folded. Two paths have one
key only if they are equal (`pathKey_injective`). A string is read back one code unit at a time
(`readUnit`), a number by its digits, and no segment's text runs into what follows it.
-/

namespace PiBridge.Chord

open List

/-! ## The text -/

/-- A lowercase hexadecimal digit. -/
def hexDigit (n : Nat) : UInt16 := UInt16.ofNat (if n < 10 then 48 + n else 87 + n)

/-- `\uXXXX` -/
def unicodeEscape (c : UInt16) : Text := [92, 117, hexDigit (c.toNat / 4096), hexDigit (c.toNat / 256 % 16), hexDigit (c.toNat / 16 % 16),
    hexDigit (c.toNat % 16)]

/-- A code unit that is not a surrogate, in a JSON string. -/
def escapeUnit (c : UInt16) : Text :=
  if c = 8 then [92, 98]
  else if c = 9 then [92, 116]
  else if c = 10 then [92, 110]
  else if c = 12 then [92, 102]
  else if c = 13 then [92, 114]
  else if c = 34 then [92, 34]
  else if c = 92 then [92, 92]
  else if c < 32 then unicodeEscape c
  else [c]

def isHighSurrogate (c : UInt16) : Bool := 0xD800 ≤ c && c < 0xDC00

def isLowSurrogate (c : UInt16) : Bool := 0xDC00 ≤ c && c < 0xE000

/-- The first unit of a pair stands here. -/
def startsPair (c : UInt16) (cs : Text) : Bool := isHighSurrogate c && cs.head?.any isLowSurrogate

/-- The inside of a JSON string. Surrogates stand as they are in pairs and are escaped alone; `paired` says
    that the first unit completes a pair. -/
def quoted (paired : Bool) : Text → Text
  | [] => []
  | c :: cs =>
    if paired then c :: quoted false cs
    else if startsPair c cs then c :: quoted true cs
    else if isHighSurrogate c || isLowSurrogate c then unicodeEscape c ++ quoted false cs
    else escapeUnit c ++ quoted false cs

/-- The decimal digits of a number. From `10^21` on JavaScript writes an exponent; either way a number has
    one text. -/
def decimal (n : Nat) : Text := if n = 0 then [48] else (Nat.digits 10 n).reverse.map fun digit => UInt16.ofNat (48 + digit)

/-- `JSON.stringify` of a segment. -/
def Seg.stringify : Seg → Text
  | .key s => 34 :: (quoted false s ++ [34])
  | .index n => decimal n

/-- The segments after the first, and the closing bracket. -/
def stringifyTail : Path → Text
  | [] => [93]
  | seg :: path => 44 :: (seg.stringify ++ stringifyTail path)

/-- `JSON.stringify(path)` -/
def pathKey : Path → Text
  | [] => [91, 93]
  | seg :: path => 91 :: (seg.stringify ++ stringifyTail path)

example : pathKey [.key (text "a\"b"), .index 12] = text "[\"a\\\"b\",12]" := by decide

/-! ## Reading a string back -/

def readHexDigit (c : UInt16) : Nat := if c < 58 then c.toNat - 48 else c.toNat - 87

/-- What the character after a backslash stands for. -/
def unescape (c : UInt16) : UInt16 :=
  if c = 98 then 8
  else if c = 116 then 9
  else if c = 110 then 10
  else if c = 102 then 12
  else if c = 114 then 13
  else c

/-- One code unit from the inside of a JSON string, and what follows. -/
def readUnit : Text → Option (UInt16 × Text)
  | 92 :: 117 :: w :: x :: y :: z :: cs =>
    some (UInt16.ofNat (readHexDigit w * 4096 + readHexDigit x * 256 + readHexDigit y * 16 + readHexDigit z), cs)
  | 92 :: c :: cs => some (unescape c, cs)
  | c :: cs => some (c, cs)
  | [] => none

variable {n : Nat} {c : UInt16} {paired : Bool} {rest rest' : Text} {path path' : Path}

theorem readHexDigit_hexDigit (h : n < 16) : readHexDigit (hexDigit n) = n := by
  have hall : ∀ i : Fin 16, readHexDigit (hexDigit i) = i := by decide
  exact hall ⟨n, h⟩

theorem readUnit_unicodeEscape (c : UInt16) (rest : Text) : readUnit (unicodeEscape c ++ rest) = some (c, rest) := by
  have hc := c.toNat_lt
  have hval : c.toNat / 4096 * 4096 + c.toNat / 256 % 16 * 256 + c.toNat / 16 % 16 * 16 + c.toNat % 16 = c.toNat := by omega
  simp only [unicodeEscape, cons_append, nil_append, readUnit]
  rw [readHexDigit_hexDigit (by omega), readHexDigit_hexDigit (by omega), readHexDigit_hexDigit (by omega),
    readHexDigit_hexDigit (by omega), hval]
  simp

theorem readUnit_of_ne (h : c ≠ 92) (rest : Text) : readUnit (c :: rest) = some (c, rest) := by
  unfold readUnit
  split <;> simp_all

theorem readUnit_escapeUnit (c : UInt16) (rest : Text) : readUnit (escapeUnit c ++ rest) = some (c, rest) := by
  unfold escapeUnit
  repeat' split
  all_goals first
    | exact readUnit_unicodeEscape c rest
    | exact readUnit_of_ne (by assumption) rest
    | (subst_vars; rfl)

/-- Where a pair is completed, the unit is the second of a pair. -/
def Completes (paired : Bool) (s : Text) : Prop := paired = true → s.head?.any isLowSurrogate = true

theorem isLowSurrogate_ne (h : isLowSurrogate c = true) : c ≠ 92 ∧ c ≠ 34 := by
  constructor <;> rintro rfl <;> exact absurd h (by decide)

theorem isHighSurrogate_ne (h : isHighSurrogate c = true) : c ≠ 92 ∧ c ≠ 34 := by
  constructor <;> rintro rfl <;> exact absurd h (by decide)

theorem quoted_cons (paired : Bool) (c : UInt16) (cs : Text) : quoted paired (c :: cs) =
      if paired then c :: quoted false cs
      else if startsPair c cs then c :: quoted true cs
      else if isHighSurrogate c || isLowSurrogate c then unicodeEscape c ++ quoted false cs
      else escapeUnit c ++ quoted false cs := rfl

/-- The first unit reads back, and the others follow. -/
theorem readUnit_quoted {cs : Text} (h : Completes paired (c :: cs)) (rest : Text) : ∃ paired', Completes paired' cs ∧
      readUnit (quoted paired (c :: cs) ++ rest) = some (c, quoted paired' cs ++ rest) := by
  rw [quoted_cons]
  split
  · rename_i hpaired
    have hlow : isLowSurrogate c = true := by simpa using h hpaired
    exact ⟨false, by simp [Completes], readUnit_of_ne (isLowSurrogate_ne hlow).1 _⟩
  split
  · rename_i hpair
    simp only [startsPair, Bool.and_eq_true] at hpair
    exact ⟨true, fun _ => hpair.2, readUnit_of_ne (isHighSurrogate_ne hpair.1).1 _⟩
  split
  · refine ⟨false, by simp [Completes], ?_⟩
    rw [append_assoc]
    exact readUnit_unicodeEscape c _
  · refine ⟨false, by simp [Completes], ?_⟩
    rw [append_assoc]
    exact readUnit_escapeUnit c _

/-- The text of a unit does not begin with the closing quote. -/
theorem quoted_cons_ne {cs : Text} (h : Completes paired (c :: cs)) : quoted paired (c :: cs) ++ rest ≠ 34 :: rest' := by
  rw [quoted_cons]
  split
  · rename_i hpaired
    have hlow : isLowSurrogate c = true := by simpa using h hpaired
    simp [(isLowSurrogate_ne hlow).2]
  split
  · rename_i hpair
    simp only [startsPair, Bool.and_eq_true] at hpair
    simp [(isHighSurrogate_ne hpair.1).2]
  split
  · simp [unicodeEscape]
  · unfold escapeUnit
    repeat' split
    all_goals simp_all [unicodeEscape]

/-- A quoted string ends at its closing quote. -/
theorem quoted_append_inj {paired' : Bool} {s s' : Text} (h : Completes paired s)
    (h' : Completes paired' s') (heq : quoted paired s ++ 34 :: rest = quoted paired' s' ++ 34 :: rest') : s = s' ∧ rest = rest' := by
  induction s generalizing paired paired' s' with
  | nil =>
    cases s' with
    | nil => exact ⟨rfl, by simpa [quoted] using heq⟩
    | cons c' cs' => exact absurd heq.symm (quoted_cons_ne h')
  | cons c cs ih =>
    cases s' with
    | nil => exact absurd heq (quoted_cons_ne h)
    | cons c' cs' =>
      obtain ⟨next, hnext, hread⟩ := readUnit_quoted h (34 :: rest)
      obtain ⟨next', hnext', hread'⟩ := readUnit_quoted h' (34 :: rest')
      rw [heq, hread'] at hread
      simp only [Option.some.injEq, Prod.mk.injEq] at hread
      obtain ⟨hcs, hrest⟩ := ih hnext hnext' hread.2.symm
      exact ⟨by rw [hread.1, hcs], hrest⟩

/-! ## Reading a number back -/

def isDigit (c : UInt16) : Bool := 48 ≤ c && c < 58

theorem isDigit_decimal (h : c ∈ decimal n) : isDigit c = true := by
  unfold decimal at h
  split at h
  · rw [mem_singleton.mp h]
    decide
  · obtain ⟨digit, hdig, rfl⟩ := mem_map.mp h
    have hlt := Nat.digits_lt_base (by decide) (mem_reverse.mp hdig)
    have hall : ∀ i : Fin 10, isDigit (UInt16.ofNat (48 + i)) = true := by decide
    exact hall ⟨digit, hlt⟩

theorem decimal_ne_nil (n : Nat) : decimal n ≠ [] := by
  unfold decimal
  split
  · simp
  · rename_i hn
    simp [Nat.digits_ne_nil_iff_ne_zero.mpr hn]

theorem decimal_injective {n' : Nat} (h : decimal n = decimal n') : n = n' := by
  have hdig : ∀ i j : Fin 10, UInt16.ofNat (48 + i) = UInt16.ofNat (48 + j) → i = j := by decide
  have hread : ∀ n, (decimal n).map (fun c => c.toNat - 48) = if n = 0 then [0] else (Nat.digits 10 n).reverse := by
    intro n
    unfold decimal
    split
    · rfl
    · rw [map_map]
      nth_rewrite 2 [← map_id (Nat.digits 10 n).reverse]
      apply map_congr_left
      intro digit hmem
      have hlt := Nat.digits_lt_base (by decide) (mem_reverse.mp hmem)
      have hall : ∀ i : Fin 10, (UInt16.ofNat (48 + i)).toNat - 48 = i := by decide
      exact hall ⟨digit, hlt⟩
  have hdigs := (hread n).symm.trans ((congrArg _ h).trans (hread n'))
  split at hdigs <;> rename_i hn <;> split at hdigs <;> rename_i hn'
  · rw [hn, hn']
  · have hrev := congrArg reverse hdigs
    rw [reverse_reverse] at hrev
    have hlast := Nat.getLast_digit_ne_zero 10 hn'
    simp only [← hrev] at hlast
    exact absurd rfl hlast
  · have hrev := congrArg reverse hdigs
    rw [reverse_reverse] at hrev
    have hlast := Nat.getLast_digit_ne_zero 10 hn
    simp only [hrev] at hlast
    exact absurd rfl hlast
  · exact Nat.digits_inj_iff.mp (reverse_injective hdigs)

/-- Digits end at the first unit that is none. -/
theorem digits_append_inj {ds ds' : Text} {c' : UInt16} (hds : ∀ d ∈ ds, isDigit d = true)
    (hds' : ∀ d ∈ ds', isDigit d = true) (hc : isDigit c = false) (hc' : isDigit c' = false)
    (heq : ds ++ c :: rest = ds' ++ c' :: rest') : ds = ds' ∧ c = c' ∧ rest = rest' := by
  induction ds generalizing ds' with
  | nil =>
    cases ds' with
    | nil => exact ⟨rfl, by simpa using heq⟩
    | cons d' ds' =>
      have hd' := hds' d' (by simp)
      simp only [nil_append, cons_append, cons.injEq] at heq
      rw [← heq.1, hc] at hd'
      exact absurd hd' (by simp)
  | cons d ds ih =>
    cases ds' with
    | nil =>
      have hd := hds d (by simp)
      simp only [nil_append, cons_append, cons.injEq] at heq
      rw [heq.1, hc'] at hd
      exact absurd hd (by simp)
    | cons d' ds' =>
      simp only [cons_append, cons.injEq] at heq
      obtain ⟨hds, hrest⟩ := ih (fun x hx => hds x (by simp [hx])) (fun x hx => hds' x (by simp [hx])) heq.2
      exact ⟨by rw [heq.1, hds], hrest⟩

/-! ## Reading a path back -/

/-- A segment ends at the comma or the bracket that follows it. -/
theorem stringify_append_inj {seg seg' : Seg} {c' : UInt16} (hc : isDigit c = false)
    (hc' : isDigit c' = false) (heq : seg.stringify ++ c :: rest = seg'.stringify ++ c' :: rest') :
    seg = seg' ∧ c = c' ∧ rest = rest' := by
  cases seg with
  | key s =>
    cases seg' with
    | key s' =>
      simp only [Seg.stringify, cons_append, append_assoc, nil_append, cons.injEq, true_and] at heq
      obtain ⟨rfl, hrest⟩ := quoted_append_inj (by simp [Completes]) (by simp [Completes]) heq
      exact ⟨rfl, by simpa using hrest⟩
    | index n' =>
      exfalso
      obtain ⟨d, ds, hd⟩ := exists_cons_of_ne_nil (decimal_ne_nil n')
      have hdig := isDigit_decimal (n := n') (c := d) (by rw [hd]; simp)
      simp only [Seg.stringify, hd, cons_append, cons.injEq] at heq
      rw [← heq.1] at hdig
      exact absurd hdig (by decide)
  | index n =>
    cases seg' with
    | key s' =>
      exfalso
      obtain ⟨d, ds, hd⟩ := exists_cons_of_ne_nil (decimal_ne_nil n)
      have hdig := isDigit_decimal (n := n) (c := d) (by rw [hd]; simp)
      simp only [Seg.stringify, hd, cons_append, cons.injEq] at heq
      rw [heq.1] at hdig
      exact absurd hdig (by decide)
    | index n' =>
      obtain ⟨hdigs, hrest⟩ := digits_append_inj (fun _ => isDigit_decimal) (fun _ => isDigit_decimal) hc hc' heq
      exact ⟨by rw [decimal_injective hdigs], hrest⟩

/-- What follows a segment begins with a comma or the bracket. -/
theorem stringifyTail_cases (path : Path) : ∃ c rest, stringifyTail path = c :: rest ∧ isDigit c = false := by
  cases path with
  | nil => exact ⟨93, [], rfl, by decide⟩
  | cons seg path => exact ⟨44, seg.stringify ++ stringifyTail path, rfl, by decide⟩

/-- A segment, and the rest of the path, read back. -/
theorem stringify_tail_inj {seg seg' : Seg} (heq : seg.stringify ++ stringifyTail path = seg'.stringify ++ stringifyTail path') :
    seg = seg' ∧ stringifyTail path = stringifyTail path' := by
  obtain ⟨c, rest, htail, hc⟩ := stringifyTail_cases path
  obtain ⟨c', rest', htail', hc'⟩ := stringifyTail_cases path'
  rw [htail, htail'] at heq ⊢
  obtain ⟨hseg, hcc, hrest⟩ := stringify_append_inj hc hc' heq
  exact ⟨hseg, by rw [hcc, hrest]⟩

theorem stringifyTail_injective (heq : stringifyTail path = stringifyTail path') : path = path' := by
  induction path generalizing path' with
  | nil =>
    cases path' with
    | nil => rfl
    | cons seg' path' => simp [stringifyTail] at heq
  | cons seg path ih =>
    cases path' with
    | nil => simp [stringifyTail] at heq
    | cons seg' path' =>
      simp only [stringifyTail, cons.injEq, true_and] at heq
      obtain ⟨hseg, htail⟩ := stringify_tail_inj heq
      rw [hseg, ih htail]

/-- **Two paths have one key only if they are equal.** -/
theorem pathKey_injective (heq : pathKey path = pathKey path') : path = path' := by
  -- Only the text of a first segment can follow the opening bracket, and none begins with the closing one.
  have hfst : ∀ (seg : Seg) (path : Path), pathKey (seg :: path) ≠ pathKey [] := by
    intro seg path h
    simp only [pathKey, cons.injEq, true_and] at h
    cases seg with
    | key s => simp [Seg.stringify] at h
    | index n =>
      obtain ⟨d, ds, hd⟩ := exists_cons_of_ne_nil (decimal_ne_nil n)
      have hdig := isDigit_decimal (n := n) (c := d) (by rw [hd]; simp)
      simp only [Seg.stringify, hd, cons_append, cons.injEq] at h
      rw [h.1] at hdig
      exact absurd hdig (by decide)
  cases path with
  | nil =>
    cases path' with
    | nil => rfl
    | cons seg' path' => exact absurd heq.symm (hfst seg' path')
  | cons seg path =>
    cases path' with
    | nil => exact absurd heq (hfst seg path)
    | cons seg' path' =>
      simp only [pathKey, cons.injEq, true_and] at heq
      obtain ⟨hseg, htail⟩ := stringify_tail_inj heq
      rw [hseg, stringifyTail_injective htail]

end PiBridge.Chord
