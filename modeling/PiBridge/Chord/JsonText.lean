import PiBridge.Chord.Delta.PathKey
import PiBridge.Lib.Assoc
import Mathlib.Data.List.TakeWhile

/-!
# `Chord.JsonText` — `JSON.stringify` and `JSON.parse`

Both as the language has them: no space is written, space is skipped between tokens, a repeated key keeps its
place and its last value, and integer keys come first when an object is enumerated. How a number is written,
and what number a literal denotes, are parameters (`Numbers`).

Reading is by `fuel`; enough of it is twice the length of the text, and one more (`parseValue_mono`). What is
read does not depend on what follows, unless that continues a number (`parseValue_append`), and a value that
was written is read back (`parse_stringify`).
-/

namespace PiBridge.Chord

open Lib List Option

/-- How a number is written, and what a number literal denotes. -/
structure Numbers where
  text : Rat → Text
  value : Text → Rat

/-! ## Keys in enumeration order -/

/-- The index a key is, in canonical form and below `2^32 - 1`. -/
def arrayIndex? (key : Text) : Option Nat :=
  let n := key.foldl (fun n c => n * 10 + (c.toNat - 48)) 0
  if decimal n = key ∧ n < 2 ^ 32 - 1 then some n else none

/-- Own properties as an object enumerates them: integer keys in order, then the others as they were added. -/
def enumerate (m : List (Text × Json)) : List (Text × Json) :=
  (m.filter fun property => (arrayIndex? property.1).isSome).mergeSort
      (fun a b => (arrayIndex? a.1).getD 0 ≤ (arrayIndex? b.1).getD 0) ++
    m.filter fun property => (arrayIndex? property.1).isNone

/-! ## Writing -/

section Stringify

variable (numbers : Numbers)

/-- A string, in quotes. -/
def stringText (s : Text) : Text := 34 :: (quoted false s ++ [34])

mutual
/-- `JSON.stringify` -/
def stringify : Json → Text
  | .null => text "null"
  | .bool true => text "true"
  | .bool false => text "false"
  | .num q => numbers.text q
  | .str s => stringText s
  | .arr [] => [91, 93]
  | .arr (x :: xs) => 91 :: (stringify x ++ stringifyElements xs)
  | .obj [] => [123, 125]
  | .obj ((key, x) :: m) => 123 :: (stringText key ++ 58 :: (stringify x ++ stringifyMembers m))

/-- The elements after the first, and the bracket. -/
def stringifyElements : List Json → Text
  | [] => [93]
  | x :: xs => 44 :: (stringify x ++ stringifyElements xs)

/-- The members after the first, and the brace. -/
def stringifyMembers : List (Text × Json) → Text
  | [] => [125]
  | (key, x) :: m => 44 :: (stringText key ++ 58 :: (stringify x ++ stringifyMembers m))
end

end Stringify

/-! ## Reading tokens -/

def isSpace (c : UInt16) : Bool := c = 32 || c = 9 || c = 10 || c = 13

def skipSpace (s : Text) : Text := s.dropWhile isSpace

/-- At least one digit, and what follows. -/
def readDigits (s : Text) : Option (Text × Text) :=
  if (s.takeWhile isDigit).isEmpty then none else some (s.takeWhile isDigit, s.dropWhile isDigit)

/-- The integer part: no zero stands before another digit. -/
def readInteger : Text → Option (Text × Text)
  | 48 :: s => some ([48], s)
  | s => readDigits s

def readFraction : Text → Option (Text × Text)
  | 46 :: s => (readDigits s).map fun (digits, rest) => (46 :: digits, rest)
  | s => some ([], s)

/-- A sign, or nothing. -/
def readSign (allowed : List UInt16) : Text → Text × Text
  | c :: s => if c ∈ allowed then ([c], s) else ([], c :: s)
  | [] => ([], [])

def isExponent (c : UInt16) : Bool := c = 101 || c = 69

def readExponent : Text → Option (Text × Text)
  | c :: s =>
    if isExponent c then
      (readDigits (readSign [43, 45] s).2).map fun (digits, rest) => (c :: ((readSign [43, 45] s).1 ++ digits), rest)
    else some ([], c :: s)
  | [] => some ([], [])

/-- A number literal, and what follows. -/
def readNumber (s : Text) : Option (Text × Text) :=
  (readInteger (readSign [45] s).2).bind fun (integer, s₁) =>
    (readFraction s₁).bind fun (fraction, s₂) =>
      (readExponent s₂).map fun (exponent, s₃) => ((readSign [45] s).1 ++ integer ++ fraction ++ exponent, s₃)

def isHexDigit (c : UInt16) : Bool := isDigit c || (65 ≤ c && c < 71) || (97 ≤ c && c < 103)

def hexValue (c : UInt16) : Nat := if c < 58 then c.toNat - 48 else if c < 71 then c.toNat - 55 else c.toNat - 87

/-- What the character after a backslash stands for. -/
def readEscape (c : UInt16) : Option UInt16 :=
  if c = 34 ∨ c = 47 ∨ c = 92 then some c
  else if c = 98 then some 8
  else if c = 102 then some 12
  else if c = 110 then some 10
  else if c = 114 then some 13
  else if c = 116 then some 9
  else none

/-- The inside of a string and its closing quote, and what follows. -/
def readString : Text → Option (Text × Text)
  | 34 :: s => some ([], s)
  | 92 :: 117 :: a :: b :: c :: d :: s =>
    if isHexDigit a && isHexDigit b && isHexDigit c && isHexDigit d then
      (readString s).map fun (t, rest) =>
        (UInt16.ofNat (hexValue a * 4096 + hexValue b * 256 + hexValue c * 16 + hexValue d) :: t, rest)
    else none
  | 92 :: c :: s => (readEscape c).bind fun c => (readString s).map fun (t, rest) => (c :: t, rest)
  | c :: s => if c < 32 then none else (readString s).map fun (t, rest) => (c :: t, rest)
  | [] => none

/-! ## Reading values -/

section Parse

variable (numbers : Numbers)

/-- A string token, after space. -/
def readKey (s : Text) : Option (Text × Text) :=
  match skipSpace s with
  | 34 :: s => readString s
  | _ => none

/-- The character, after space. -/
def readMark (mark : UInt16) (s : Text) : Option Text :=
  match skipSpace s with
  | c :: s => if c = mark then some s else none
  | [] => none

/-- A value that is no array and no object, at its first character. -/
def readScalar : Text → Option (Json × Text)
  | 34 :: s => (readString s).map fun (t, rest) => (.str t, rest)
  | 116 :: 114 :: 117 :: 101 :: s => some (.bool true, s)
  | 102 :: 97 :: 108 :: 115 :: 101 :: s => some (.bool false, s)
  | 110 :: 117 :: 108 :: 108 :: s => some (.null, s)
  | s => (readNumber s).map fun (t, rest) => (.num (numbers.value t), rest)

mutual
/-- A value, and what follows. -/
def parseValue : Nat → Text → Option (Json × Text)
  | 0, _ => none
  | fuel + 1, s =>
    match skipSpace s with
    | 91 :: s =>
      match readMark 93 s with
      | some rest => some (.arr [], rest)
      | none => (parseElements fuel s).map fun (xs, rest) => (.arr xs, rest)
    | 123 :: s =>
      match readMark 125 s with
      | some rest => some (.obj [], rest)
      | none => (parseMembers fuel [] s).map fun (m, rest) => (.obj (enumerate m), rest)
    | s => readScalar numbers s

/-- The elements up to the bracket. -/
def parseElements : Nat → Text → Option (List Json × Text)
  | 0, _ => none
  | fuel + 1, s =>
    (parseValue fuel s).bind fun (x, s) =>
      match readMark 93 s with
      | some rest => some ([x], rest)
      | none =>
        (readMark 44 s).bind fun s => (parseElements fuel s).map fun (xs, rest) => (x :: xs, rest)

/-- The members up to the brace, added to those before. -/
def parseMembers : Nat → List (Text × Json) → Text → Option (List (Text × Json) × Text)
  | 0, _, _ => none
  | fuel + 1, m, s =>
    (readKey s).bind fun (key, s) =>
      (readMark 58 s).bind fun s =>
        (parseValue fuel s).bind fun (x, s) =>
          match readMark 125 s with
          | some rest => some (Assoc.set m key x, rest)
          | none => (readMark 44 s).bind fun s => parseMembers fuel (Assoc.set m key x) s
end

/-- `JSON.parse`; `none` is a throw. -/
def parse (s : Text) : Option Json :=
  (parseValue numbers (2 * s.length + 1) s).bind fun (x, rest) => if (skipSpace rest).isEmpty then some x else none

end Parse

/-! ## What follows -/

/-- The text does not continue a number. -/
def Ends (t : Text) : Prop := ∀ c, t.head? = some c → isDigit c = false ∧ c ≠ 46 ∧ isExponent c = false

theorem ends_cons {c : UInt16} {t : Text} (hdig : isDigit c = false) (hdot : c ≠ 46) (hexponent : isExponent c = false) :
    Ends (c :: t) := by
  intro d hd
  cases hd
  exact ⟨hdig, hdot, hexponent⟩

section Tokens

variable {s t x rest : Text}

attribute [local simp] readFraction readExponent readString

theorem skipSpace_append (h : skipSpace s ≠ []) : skipSpace (s ++ t) = skipSpace s ++ t := by
  unfold skipSpace at h ⊢
  rw [dropWhile_append, if_neg (by simpa using h)]

variable {mark : UInt16}

theorem readMark_append (h : readMark mark s = some rest) : readMark mark (s ++ t) = some (rest ++ t) := by
  have hne : skipSpace s ≠ [] := by
    intro hnil
    simp [readMark, hnil] at h
  unfold readMark at h ⊢
  rw [skipSpace_append hne]
  cases hskip : skipSpace s with
  | nil => exact absurd hskip hne
  | cons c cs =>
    simp only [hskip] at h
    split at h
    · rename_i hmark
      cases h
      simp [hmark]
    · simp at h

theorem readMark_none_append (hne : skipSpace s ≠ []) (h : readMark mark s = none) : readMark mark (s ++ t) = none := by
  unfold readMark at h ⊢
  rw [skipSpace_append hne]
  cases hskip : skipSpace s with
  | nil => exact absurd hskip hne
  | cons c cs =>
    simp only [hskip] at h
    simp only [cons_append]
    split at h
    · simp at h
    · rename_i hmark
      rw [if_neg hmark]

theorem readMark_ne (h : readMark mark s = some rest) : skipSpace s ≠ [] := by
  intro hnil
  simp [readMark, hnil] at h

/-- Digits end where they ended, unless they reach the end and more follow. -/
theorem readDigits_append (h : readDigits s = some (x, rest)) (hrest : rest ≠ [] ∨ Ends t) : readDigits (s ++ t) = some (x, rest ++ t) := by
  unfold readDigits at h
  split at h
  · simp at h
  rename_i hdigs
  cases h
  have hboth : (s ++ t).takeWhile isDigit = s.takeWhile isDigit ∧ (s ++ t).dropWhile isDigit = s.dropWhile isDigit ++ t := by
    by_cases hnil : s.dropWhile isDigit = []
    · have hends := hrest.resolve_left (fun hne => hne hnil)
      have hall : s.takeWhile isDigit = s := by
        have := takeWhile_append_dropWhile (p := isDigit) (l := s)
        rwa [hnil, append_nil] at this
      have hnone : t.takeWhile isDigit = [] ∧ t.dropWhile isDigit = t := by
        cases t with
        | nil => simp
        | cons c t => simp [(hends c rfl).1]
      rw [takeWhile_append, dropWhile_append, hall, hnil]
      simp [hnone]
    · rw [dropWhile_append, if_neg (by simpa using hnil)]
      refine ⟨?_, rfl⟩
      rw [takeWhile_append, if_neg]
      intro hlen
      apply hnil
      have := congrArg length (takeWhile_append_dropWhile (p := isDigit) (l := s))
      rw [length_append, hlen] at this
      exact eq_nil_of_length_eq_zero (by omega)
  unfold readDigits
  rw [hboth.1, hboth.2, if_neg hdigs]

theorem readDigits_ne (h : readDigits s = some (x, rest)) : s ≠ [] := by
  rintro rfl
  simp [readDigits] at h

theorem readInteger_append (h : readInteger s = some (x, rest)) (hrest : rest ≠ [] ∨ Ends t) :
    readInteger (s ++ t) = some (x, rest ++ t) := by
  unfold readInteger at h
  split at h
  · cases h
    rfl
  · rename_i hzero
    obtain ⟨c, cs, rfl⟩ := exists_cons_of_ne_nil (readDigits_ne h)
    have hc : c ≠ 48 := fun heq => hzero cs (by rw [heq])
    have hstep : readInteger (c :: cs ++ t) = readDigits (c :: cs ++ t) := by
      unfold readInteger
      split
      · rename_i heq
        exact absurd (cons.inj heq).1 hc
      · rfl
    rw [hstep]
    exact readDigits_append h hrest

theorem readInteger_ne (h : readInteger s = some (x, rest)) : s ≠ [] := by
  rintro rfl
  simp [readInteger, readDigits] at h

theorem readFraction_append (h : readFraction s = some (x, rest)) (hrest : rest ≠ [] ∨ Ends t) :
    readFraction (s ++ t) = some (x, rest ++ t) := by
  unfold readFraction at h
  split at h
  · obtain ⟨⟨digits, rest'⟩, hdigs, heq⟩ := map_eq_some_iff.mp h
    cases heq
    simp only [readFraction, cons_append, readDigits_append hdigs hrest, map_some]
  · rename_i hdot
    cases h
    unfold readFraction
    split
    · rename_i s' heq
      exfalso
      cases s with
      | nil => exact ((hrest.resolve_left (fun hne => hne rfl)) 46 (by rw [nil_append] at heq; rw [heq]; rfl)).2.1 rfl
      | cons c cs => exact hdot cs (by rw [(cons.inj heq).1])
    · rfl

theorem readFraction_nil (h : readFraction [] = some (x, rest)) : rest = [] := by
  simp [readFraction] at h
  exact h.2

theorem readSign_append {allowed : List UInt16} (hne : s ≠ []) :
    readSign allowed (s ++ t) = ((readSign allowed s).1, (readSign allowed s).2 ++ t) := by
  obtain ⟨c, cs, rfl⟩ := exists_cons_of_ne_nil hne
  simp only [readSign, cons_append]
  split <;> rfl

theorem readExponent_append (h : readExponent s = some (x, rest)) (hrest : rest ≠ [] ∨ Ends t) :
    readExponent (s ++ t) = some (x, rest ++ t) := by
  cases s with
  | nil =>
    cases h
    have hends := hrest.resolve_left (fun hne => hne rfl)
    cases t with
    | nil => rfl
    | cons c t => simp [readExponent, (hends c rfl).2.2]
  | cons c cs =>
    simp only [readExponent] at h
    simp only [readExponent, cons_append]
    split at h
    · rename_i hexponent
      rw [if_pos hexponent]
      obtain ⟨⟨digits, rest'⟩, hdigs, heq⟩ := map_eq_some_iff.mp h
      cases heq
      have hne : cs ≠ [] := by
        rintro rfl
        exact readDigits_ne hdigs rfl
      simp only [readSign_append hne, readDigits_append hdigs hrest, map_some]
    · rename_i hexponent
      rw [if_neg hexponent]
      cases h
      rfl

theorem readExponent_nil (h : readExponent [] = some (x, rest)) : rest = [] := (Prod.mk.inj (some.inj h)).2.symm

/-- A number is read as it is, unless what follows continues it. -/
theorem readNumber_append (h : readNumber s = some (x, rest)) (hrest : rest ≠ [] ∨ Ends t) : readNumber (s ++ t) = some (x, rest ++ t) := by
  obtain ⟨⟨integer, s₁⟩, hint, h⟩ := bind_eq_some_iff.mp h
  obtain ⟨⟨fraction, s₂⟩, hfraction, h⟩ := bind_eq_some_iff.mp h
  obtain ⟨⟨exponent, s₃⟩, hexponent, heq⟩ := map_eq_some_iff.mp h
  cases heq
  have hne : s ≠ [] := by
    rintro rfl
    exact readInteger_ne hint rfl
  -- What is left of the number is empty only if all that follows it is.
  have hrest₂ : s₂ ≠ [] ∨ Ends t := by
    by_cases hnil : s₂ = []
    · subst hnil
      exact Or.inr (hrest.resolve_left (fun hne => hne (readExponent_nil hexponent)))
    · exact Or.inl hnil
  have hrest₁ : s₁ ≠ [] ∨ Ends t := by
    by_cases hnil : s₁ = []
    · subst hnil
      exact Or.inr (hrest₂.resolve_left (fun hne => hne (readFraction_nil hfraction)))
    · exact Or.inl hnil
  unfold readNumber
  rw [readSign_append hne]
  simp only [readInteger_append hint hrest₁, readFraction_append hfraction hrest₂, readExponent_append hexponent hrest, bind_some, map_some]

theorem readNumber_ne (h : readNumber s = some (x, rest)) : s ≠ [] := by
  rintro rfl
  simp [readNumber, readSign, readInteger, readDigits] at h

/-- A character that is not escaped. -/
theorem readString_cons {c : UInt16} (hquote : c ≠ 34) (hslash : c ≠ 92) (s : Text) :
    readString (c :: s) = if c < 32 then none else (readString s).map fun (t, rest) => (c :: t, rest) :=
  readString.eq_4 c s hquote (fun _ _ _ _ _ h _ => hslash h) (fun _ _ h _ => hslash h)

theorem readString_escape {c : UInt16} (h : c ≠ 117) (s : Text) :
    readString (92 :: c :: s) = (readEscape c).bind fun c => (readString s).map fun (t, rest) => (c :: t, rest) :=
  readString.eq_3 c s (fun _ _ _ _ _ heq _ => h heq)

theorem readString_append (h : readString s = some (x, rest)) : readString (s ++ t) = some (x, rest ++ t) := by
  fun_induction readString s generalizing x with
  | case1 s =>
    cases h
    rfl
  | case2 a b c d s hhex ih =>
    obtain ⟨⟨y, rest'⟩, hrest, heq⟩ := map_eq_some_iff.mp h
    cases heq
    simp only [cons_append, readString, if_pos hhex, ih hrest, map_some]
  | case3 | case5 | case7 => exact absurd h (by simp)
  | case4 c s hshort ih =>
    obtain ⟨c', hescape, h⟩ := bind_eq_some_iff.mp h
    obtain ⟨⟨y, rest'⟩, hrest, heq⟩ := map_eq_some_iff.mp h
    cases heq
    have hc : c ≠ 117 := by
      rintro rfl
      simp [readEscape] at hescape
    rw [cons_append, cons_append, readString_escape hc, hescape, bind_some, ih hrest, map_some]
  | case6 c s hquote hunicode hslash hlow ih =>
    obtain ⟨⟨y, rest'⟩, hrest, heq⟩ := map_eq_some_iff.mp h
    cases heq
    have hc : c ≠ 92 := by
      rintro rfl
      cases s with
      | nil => exact absurd hrest (by simp [readString])
      | cons d s => exact hslash d s rfl rfl
    rw [cons_append, readString_cons (fun h => hquote h) hc, if_neg hlow, ih hrest, map_some]

theorem readKey_append (h : readKey s = some (x, rest)) : readKey (s ++ t) = some (x, rest ++ t) := by
  have hne : skipSpace s ≠ [] := by
    intro hnil
    simp [readKey, hnil] at h
  unfold readKey at h ⊢
  rw [skipSpace_append hne]
  cases hskip : skipSpace s with
  | nil => exact absurd hskip hne
  | cons c cs =>
    rw [hskip] at h
    by_cases hc : c = 34
    · subst hc
      exact readString_append h
    · exfalso
      revert h
      split
      · rename_i heq
        exact absurd (cons.inj heq).1 hc
      · simp

theorem readNumber_head (h : readNumber s = some (x, rest)) : ∃ c cs, s = c :: cs ∧ (c = 45 ∨ isDigit c = true) := by
  obtain ⟨c, cs, rfl⟩ := exists_cons_of_ne_nil (readNumber_ne h)
  refine ⟨c, cs, rfl, ?_⟩
  by_cases hc : c = 45
  · exact Or.inl hc
  right
  by_contra hdig
  obtain ⟨⟨integer, s₁⟩, hint, -⟩ := bind_eq_some_iff.mp h
  have hsign : (readSign [45] (c :: cs)).2 = c :: cs := by simp [readSign, hc]
  rw [hsign] at hint
  have hzero : c ≠ 48 := by
    rintro rfl
    exact hdig (by decide)
  unfold readInteger at hint
  split at hint
  · rename_i heq
    exact hzero (cons.inj heq).1
  · simp [readDigits, hdig] at hint

end Tokens

section Values

variable {nums : Numbers} {s t rest : Text} {x : Json} {c : UInt16} {fuel : Nat}

attribute [local simp] parseValue parseElements parseMembers readScalar

/-- A value that begins with a digit or a sign is a number. -/
theorem readScalar_number (hc : c = 45 ∨ isDigit c = true) (cs : Text) :
    readScalar nums (c :: cs) = (readNumber (c :: cs)).map fun (t, rest) => (.num (nums.value t), rest) := by
  have hne : c ≠ 34 ∧ c ≠ 116 ∧ c ≠ 102 ∧ c ≠ 110 := by
    refine ⟨?_, ?_, ?_, ?_⟩ <;> rintro rfl <;> exact absurd hc (by decide)
  unfold readScalar
  split <;> simp_all

theorem readScalar_append (h : readScalar nums s = some (x, rest)) (hrest : rest ≠ [] ∨ Ends t) :
    readScalar nums (s ++ t) = some (x, rest ++ t) := by
  unfold readScalar at h
  split at h
  · obtain ⟨⟨y, rest'⟩, hstring, heq⟩ := map_eq_some_iff.mp h
    cases heq
    simp only [cons_append, readScalar, readString_append hstring, map_some]
  · cases h
    rfl
  · cases h
    rfl
  · cases h
    rfl
  · obtain ⟨⟨y, rest'⟩, hnumber, heq⟩ := map_eq_some_iff.mp h
    cases heq
    obtain ⟨c, cs, rfl, hc⟩ := readNumber_head hnumber
    have happ := readNumber_append hnumber hrest
    rw [cons_append] at happ ⊢
    rw [readScalar_number hc, happ, map_some]

theorem readScalar_ne (h : readScalar nums s = some (x, rest)) : s ≠ [] := by
  rintro rfl
  simp [readScalar, readNumber, readSign, readInteger, readDigits] at h

theorem parseValue_ne (h : parseValue nums fuel s = some (x, rest)) : skipSpace s ≠ [] := by
  intro hnil
  cases fuel with
  | zero => simp [parseValue] at h
  | succ fuel =>
    simp only [parseValue, hnil] at h
    exact readScalar_ne h rfl

theorem parseElements_ne {xs : List Json} (h : parseElements nums fuel s = some (xs, rest)) : skipSpace s ≠ [] := by
  cases fuel with
  | zero => simp [parseElements] at h
  | succ fuel =>
    obtain ⟨⟨x, s'⟩, hval, -⟩ := bind_eq_some_iff.mp h
    exact parseValue_ne hval

theorem parseMembers_ne {m m' : List (Text × Json)} (h : parseMembers nums fuel m s = some (m', rest)) : skipSpace s ≠ [] := by
  intro hnil
  cases fuel with
  | zero => simp [parseMembers] at h
  | succ fuel =>
    obtain ⟨⟨key, s'⟩, hkey, -⟩ := bind_eq_some_iff.mp h
    simp [readKey, hnil] at hkey

/-- A value, elements and members are read as they are, whatever follows; by the fuel. -/
theorem parse_append (fuel : Nat) : (∀ s t x rest, parseValue nums fuel s = some (x, rest) → (rest ≠ [] ∨ Ends t) →
      parseValue nums fuel (s ++ t) = some (x, rest ++ t)) ∧
    (∀ s t xs rest, parseElements nums fuel s = some (xs, rest) → parseElements nums fuel (s ++ t) = some (xs, rest ++ t)) ∧
    (∀ s t m m' rest, parseMembers nums fuel m s = some (m', rest) → parseMembers nums fuel m (s ++ t) = some (m', rest ++ t)) := by
  induction fuel with
  | zero => simp [parseValue, parseElements, parseMembers]
  | succ fuel ih =>
    obtain ⟨ihvalue, ihelements, ihmembers⟩ := ih
    refine ⟨?_, ?_, ?_⟩
    · intro s t x rest h hrest
      have hne := parseValue_ne h
      simp only [parseValue, skipSpace_append hne] at h ⊢
      obtain ⟨c, cs, hcs⟩ := exists_cons_of_ne_nil hne
      rw [hcs] at h ⊢
      by_cases hbracket : c = 91
      · subst hbracket
        simp only [cons_append] at h ⊢
        cases hmark : readMark 93 cs with
        | some rest' =>
          rw [hmark] at h
          cases h
          rw [readMark_append hmark]
        | none =>
          rw [hmark] at h
          obtain ⟨⟨xs, rest'⟩, hels, heq⟩ := map_eq_some_iff.mp h
          cases heq
          rw [readMark_none_append (parseElements_ne hels) hmark]
          simp only [ihelements _ t _ _ hels, map_some]
      by_cases hbrace : c = 123
      · subst hbrace
        simp only [cons_append] at h ⊢
        cases hmark : readMark 125 cs with
        | some rest' =>
          rw [hmark] at h
          cases h
          rw [readMark_append hmark]
        | none =>
          rw [hmark] at h
          obtain ⟨⟨m, rest'⟩, hmems, heq⟩ := map_eq_some_iff.mp h
          cases heq
          rw [readMark_none_append (parseMembers_ne hmems) hmark]
          simp only [ihmembers _ t _ _ _ hmems, map_some]
      · have hscal : readScalar nums (c :: cs) = some (x, rest) := by
          revert h
          split
          · rename_i heq
            exact fun _ => absurd (cons.inj heq).1 hbracket
          · rename_i heq
            exact fun _ => absurd (cons.inj heq).1 hbrace
          · exact id
        have happ := readScalar_append hscal hrest
        split
        · rename_i heq
          exact absurd (cons.inj heq).1 hbracket
        · rename_i heq
          exact absurd (cons.inj heq).1 hbrace
        · exact happ
    · intro s t xs rest h
      obtain ⟨⟨x, s'⟩, hval, h⟩ := bind_eq_some_iff.mp h
      simp only [parseElements]
      have hs' : s' ≠ [] := by
        rintro rfl
        simp [readMark, skipSpace] at h
      rw [ihvalue _ t _ _ hval (Or.inl hs'), bind_some]
      dsimp only at h ⊢
      cases hmark : readMark 93 s' with
      | some rest' =>
        rw [hmark] at h
        cases h
        rw [readMark_append hmark]
      | none =>
        rw [hmark] at h
        obtain ⟨s'', hcomma, h⟩ := bind_eq_some_iff.mp h
        obtain ⟨⟨ys, rest'⟩, hels, heq⟩ := map_eq_some_iff.mp h
        cases heq
        rw [readMark_none_append (readMark_ne hcomma) hmark]
        simp only [readMark_append hcomma, bind_some, ihelements _ t _ _ hels, map_some]
    · intro s t m m' rest h
      obtain ⟨⟨key, s₁⟩, hkey, h⟩ := bind_eq_some_iff.mp h
      obtain ⟨s₂, hcolon, h⟩ := bind_eq_some_iff.mp h
      obtain ⟨⟨x, s₃⟩, hval, h⟩ := bind_eq_some_iff.mp h
      have hs₃ : s₃ ≠ [] := by
        rintro rfl
        simp [readMark, skipSpace] at h
      simp only [parseMembers, readKey_append hkey, bind_some, readMark_append hcolon, ihvalue _ t _ _ hval (Or.inl hs₃)]
      dsimp only at h ⊢
      cases hmark : readMark 125 s₃ with
      | some rest' =>
        rw [hmark] at h
        cases h
        rw [readMark_append hmark]
      | none =>
        rw [hmark] at h
        obtain ⟨s₄, hcomma, h⟩ := bind_eq_some_iff.mp h
        rw [readMark_none_append (readMark_ne hcomma) hmark]
        simp only [readMark_append hcomma, bind_some, ihmembers _ t _ _ _ h]

theorem parse_mono (fuel : Nat) :
    (∀ s p, parseValue nums fuel s = some p → parseValue nums (fuel + 1) s = some p) ∧
    (∀ s p, parseElements nums fuel s = some p → parseElements nums (fuel + 1) s = some p) ∧
    (∀ m s p, parseMembers nums fuel m s = some p → parseMembers nums (fuel + 1) m s = some p) := by
  induction fuel with
  | zero => simp [parseValue, parseElements, parseMembers]
  | succ fuel ih =>
    obtain ⟨ihvalue, ihelements, ihmembers⟩ := ih
    refine ⟨?_, ?_, ?_⟩
    · intro s p h
      rw [parseValue] at h ⊢
      split at h
      · split at h
        · exact h
        · obtain ⟨q, hels, rfl⟩ := map_eq_some_iff.mp h
          rw [ihelements _ _ hels, map_some]
      · split at h
        · exact h
        · obtain ⟨q, hmems, rfl⟩ := map_eq_some_iff.mp h
          rw [ihmembers _ _ _ hmems, map_some]
      · exact h
    · intro s p h
      obtain ⟨⟨x, s'⟩, hval, h⟩ := bind_eq_some_iff.mp h
      rw [parseElements, ihvalue _ _ hval, bind_some]
      dsimp only at h ⊢
      split at h
      · exact h
      · obtain ⟨s'', hcomma, h⟩ := bind_eq_some_iff.mp h
        obtain ⟨q, hels, rfl⟩ := map_eq_some_iff.mp h
        rw [hcomma, bind_some, ihelements _ _ hels, map_some]
    · intro m s p h
      obtain ⟨⟨key, s₁⟩, hkey, h⟩ := bind_eq_some_iff.mp h
      obtain ⟨s₂, hcolon, h⟩ := bind_eq_some_iff.mp h
      obtain ⟨⟨x, s₃⟩, hval, h⟩ := bind_eq_some_iff.mp h
      rw [parseMembers, hkey, bind_some]
      dsimp only at hcolon hval h ⊢
      rw [hcolon, bind_some, ihvalue _ _ hval, bind_some]
      dsimp only
      split at h
      · exact h
      · obtain ⟨s₄, hcomma, h⟩ := bind_eq_some_iff.mp h
        rw [hcomma, bind_some]
        exact ihmembers _ _ _ h

theorem parseValue_mono {fuel' : Nat} {p : Json × Text} (h : parseValue nums fuel s = some p)
    (hle : fuel ≤ fuel') : parseValue nums fuel' s = some p := by
  induction hle with
  | refl => exact h
  | step _ ih => exact (parse_mono _).1 _ _ ih

theorem skipSpace_of_not_isSpace (hc : isSpace c = false) (t : Text) : skipSpace (c :: t) = c :: t := by
  simp [skipSpace, hc]

theorem skipSpace_space {space : Text} (h : ∀ c ∈ space, isSpace c = true) (hc : isSpace c = false)
    (t : Text) : skipSpace (space ++ c :: t) = c :: t := by
  unfold skipSpace
  rw [dropWhile_append_of_pos h]
  simp [hc]

theorem readMark_cons (hc : isSpace c = false) (mark : UInt16) (t : Text) : readMark mark (c :: t) = if c = mark then some t else none := by
  simp only [readMark, skipSpace_of_not_isSpace hc]

theorem readMark_space {space : Text} (h : ∀ c ∈ space, isSpace c = true) (hc : isSpace c = false)
    (mark : UInt16) (t : Text) : readMark mark (space ++ c :: t) = if c = mark then some t else none := by
  simp only [readMark, skipSpace_space h hc]

/-- No value begins with a closing bracket or brace. -/
theorem readMark_of_parseValue {p : Json × Text} (h : parseValue nums fuel s = some p) {mark : UInt16}
    (hmark : mark = 93 ∨ mark = 125) : readMark mark s = none := by
  cases fuel with
  | zero => simp [parseValue] at h
  | succ fuel =>
    unfold readMark
    cases hskip : skipSpace s with
    | nil => rfl
    | cons c cs =>
      dsimp only
      split
      · rename_i hc
        subst hc
        simp only [parseValue, hskip] at h
        rcases hmark with rfl | rfl <;>
          simp [readScalar, readNumber, readSign, readInteger, readDigits, isDigit] at h
      · rfl

/-! ## Texts of values -/

/-- The text reads as the value, whatever ends it, and leaves space at most. -/
def Reads (numbers : Numbers) (s : Text) (x : Json) : Prop :=
  ∃ space, (∀ c ∈ space, isSpace c = true) ∧ ∀ t, Ends t → ∀ fuel, 2 * s.length < fuel →
    parseValue numbers fuel (s ++ t) = some (x, space ++ t)

theorem skipSpace_isEmpty {s : Text} : (skipSpace s).isEmpty = true ↔ ∀ c ∈ s, isSpace c = true := by
  rw [skipSpace, List.isEmpty_iff, List.dropWhile_eq_nil_iff]

theorem reads_of_parse (h : parse nums s = some x) : Reads nums s x := by
  obtain ⟨⟨y, rest⟩, hval, h⟩ := bind_eq_some_iff.mp h
  dsimp only at h
  split at h
  · rename_i hspace
    cases h
    refine ⟨rest, skipSpace_isEmpty.1 hspace, ?_⟩
    intro t ht fuel hfuel
    exact parseValue_mono ((parse_append _).1 _ t _ _ hval (Or.inr ht)) hfuel
  · exact nomatch h

theorem ends_nil : Ends [] := nofun

theorem parse_of_reads (h : Reads nums s x) : parse nums s = some x := by
  obtain ⟨space, hspace, hread⟩ := h
  have hval := hread [] ends_nil _ (Nat.lt_succ_self _)
  rw [append_nil, append_nil] at hval
  unfold parse
  rw [hval, bind_some]
  dsimp only
  rw [if_pos (skipSpace_isEmpty.2 hspace)]

/-- The elements after the first, and the bracket. -/
def elementsText : List Text → Text
  | [] => [93]
  | x :: xs => 44 :: (x ++ elementsText xs)

/-- An array of these texts. -/
def arrayText : List Text → Text
  | [] => [91, 93]
  | x :: xs => 91 :: (x ++ elementsText xs)

theorem ends_elementsText (xs : List Text) (t : Text) : Ends (elementsText xs ++ t) := by
  cases xs with
  | nil | cons x xs => exact ends_cons (by decide) (by decide) (by decide)

theorem parseElements_text {y : Json} {texts : List Text} {vals : List Json}
    (hfst : Reads nums s y) (h : List.Forall₂ (Reads nums) texts vals)
    (hfuel : 2 * (s ++ elementsText texts).length ≤ fuel) (t : Text) :
    parseElements nums fuel (s ++ (elementsText texts ++ t)) = some (y :: vals, t) := by
  induction h generalizing s y fuel with
  | nil =>
    obtain ⟨space, hspace, hread⟩ := hfst
    cases fuel with
    | zero => simp [elementsText] at hfuel
    | succ fuel =>
      rw [parseElements, hread _ (ends_elementsText [] t) fuel (by simp [elementsText] at hfuel; omega), bind_some]
      have hmark := readMark_space hspace (c := 93) (by decide) 93 t
      simp only [elementsText, cons_append, nil_append, hmark, if_true]
  | @cons text' v texts vals hval _ ih =>
    obtain ⟨space, hspace, hread⟩ := hfst
    cases fuel with
    | zero => simp [elementsText] at hfuel
    | succ fuel =>
      have hlen : 2 * s.length < fuel ∧ 2 * (text' ++ elementsText texts).length ≤ fuel := by
        simp only [elementsText, length_append, length_cons] at hfuel ⊢
        omega
      rw [parseElements, hread _ (ends_elementsText _ t) fuel hlen.1, bind_some]
      have hclose := readMark_space hspace (c := 44) (by decide) 93 (text' ++ (elementsText texts ++ t))
      have hcomma := readMark_space hspace (c := 44) (by decide) 44 (text' ++ (elementsText texts ++ t))
      simp only [elementsText, cons_append, append_assoc, hclose, hcomma, bind_some, if_true, ih hval hlen.2, map_some]
      simp

/-- An array of texts reads as the array of their values. -/
theorem reads_arrayText {texts : List Text} {vals : List Json} (h : List.Forall₂ (Reads nums) texts vals) :
    Reads nums (arrayText texts) (.arr vals) := by
  refine ⟨[], by simp, ?_⟩
  intro t ht fuel hfuel
  cases fuel with
  | zero => exact absurd hfuel (Nat.not_lt_zero _)
  | succ fuel =>
    cases h with
    | nil =>
      have hmark := readMark_cons (c := 93) (by decide) 93 t
      have hskip : skipSpace ([91, 93] ++ t) = 91 :: 93 :: t := skipSpace_of_not_isSpace (by decide) _
      simp only [arrayText, parseValue, hskip, hmark, if_true, nil_append]
    | @cons text' v texts vals hval hrest =>
      have hlen : 2 * (text' ++ elementsText texts).length ≤ fuel := by
        simp only [arrayText, length_cons] at hfuel
        omega
      have hels := parseElements_text hval hrest hlen t
      have hopen : readMark 93 (text' ++ (elementsText texts ++ t)) = none := by
        obtain ⟨space, hspace, hread⟩ := hval
        exact readMark_of_parseValue (hread _ (ends_elementsText _ t) _ (Nat.lt_succ_self _)) (Or.inl rfl)
      have hskip : skipSpace (91 :: (text' ++ elementsText texts) ++ t) = 91 :: (text' ++ (elementsText texts ++ t)) := by
        rw [cons_append, append_assoc]
        exact skipSpace_of_not_isSpace (by decide) _
      simp only [arrayText, parseValue, hskip, hopen, hels, map_some, nil_append]

/-! ## Reading back what was written -/

theorem isHexDigit_hexDigit {n : Nat} (h : n < 16) : isHexDigit (hexDigit n) = true ∧ hexValue (hexDigit n) = n := by
  have hall : ∀ i : Fin 16, isHexDigit (hexDigit i) = true ∧ hexValue (hexDigit i) = i := by decide
  exact hall ⟨n, h⟩

theorem readString_unicodeEscape (c : UInt16) (s : Text) :
    readString (unicodeEscape c ++ s) = (readString s).map fun (t, rest) => (c :: t, rest) := by
  have hc := c.toNat_lt
  have hval : c.toNat / 4096 * 4096 + c.toNat / 256 % 16 * 256 + c.toNat / 16 % 16 * 16 + c.toNat % 16 = c.toNat := by omega
  obtain ⟨h₁, v₁⟩ := isHexDigit_hexDigit (n := c.toNat / 4096) (by omega)
  obtain ⟨h₂, v₂⟩ := isHexDigit_hexDigit (n := c.toNat / 256 % 16) (by omega)
  obtain ⟨h₃, v₃⟩ := isHexDigit_hexDigit (n := c.toNat / 16 % 16) (by omega)
  obtain ⟨h₄, v₄⟩ := isHexDigit_hexDigit (n := c.toNat % 16) (by omega)
  simp only [unicodeEscape, cons_append, nil_append, readString, h₁, h₂, h₃, h₄, v₁, v₂, v₃, v₄, Bool.and_self, if_true, hval]
  simp

theorem readString_escapeUnit (c : UInt16) (s : Text) :
    readString (escapeUnit c ++ s) = (readString s).map fun (t, rest) => (c :: t, rest) := by
  unfold escapeUnit
  repeat' split
  all_goals first
    | exact readString_unicodeEscape c s
    | (subst_vars; exact readString_escape (by decide) s)
    | (rw [cons_append, nil_append, readString_cons (by assumption) (by assumption), if_neg (by assumption)])

/-- A string is read back from its quoted form. -/
theorem readString_quoted {paired : Bool} {x : Text} (h : Completes paired x) (s : Text) :
    readString (quoted paired x ++ 34 :: s) = some (x, s) := by
  induction x generalizing paired with
  | nil => rfl
  | cons c cs ih =>
    have hsurrogate : ∀ {c : UInt16}, isLowSurrogate c = true ∨ isHighSurrogate c = true → ¬c < 32 := by
      intro c hc hlow
      rcases hc with hc | hc <;> simp only [isLowSurrogate, isHighSurrogate, Bool.and_eq_true, decide_eq_true_eq] at hc <;>
        exact absurd (UInt16.lt_of_lt_of_le hlow (UInt16.le_trans (by decide) hc.1)) (UInt16.lt_irrefl _)
    rw [quoted_cons]
    split
    · rename_i hpaired
      have hlow : isLowSurrogate c = true := by simpa using h hpaired
      rw [cons_append, readString_cons (isLowSurrogate_ne hlow).2 (isLowSurrogate_ne hlow).1,
        if_neg (hsurrogate (Or.inl hlow)), ih (by simp [Completes]), map_some]
    split
    · rename_i hpair
      simp only [startsPair, Bool.and_eq_true] at hpair
      rw [cons_append, readString_cons (isHighSurrogate_ne hpair.1).2 (isHighSurrogate_ne hpair.1).1,
        if_neg (hsurrogate (Or.inr hpair.1)), ih (fun _ => hpair.2), map_some]
    split
    · rw [append_assoc, readString_unicodeEscape, ih (by simp [Completes]), map_some]
    · rw [append_assoc, readString_escapeUnit, ih (by simp [Completes]), map_some]

theorem readString_stringText (x s : Text) : readString (quoted false x ++ [34] ++ s) = some (x, s) := by
  rw [append_assoc, cons_append, nil_append]
  exact readString_quoted (by simp [Completes]) s

/-- The number is read back from its text. -/
def Numbers.Writes (numbers : Numbers) (q : Rat) : Prop :=
  readNumber (numbers.text q) = some (numbers.text q, []) ∧ numbers.value (numbers.text q) = q

/-- Safe integers are written in decimal, and read back. -/
structure Numbers.Exact (numbers : Numbers) : Prop where
  text : ∀ n : Nat, n < 2 ^ 53 → numbers.text n = decimal n
  value : ∀ n : Nat, n < 2 ^ 53 → numbers.value (decimal n) = n

variable (n : Nat)

theorem readDigits_decimal : readDigits (decimal n) = some (decimal n, []) := by
  have htake : (decimal n).takeWhile isDigit = decimal n := takeWhile_eq_self_iff.mpr fun c hc => isDigit_decimal hc
  have hdrop : (decimal n).dropWhile isDigit = [] := dropWhile_eq_nil_iff.mpr fun c hc => isDigit_decimal hc
  unfold readDigits
  rw [htake, hdrop, if_neg (by simpa using decimal_ne_nil n)]

/-- Only the text of zero begins with a zero. -/
theorem decimal_zero {n : Nat} {s : Text} (h : decimal n = 48 :: s) : s = [] := by
  unfold decimal at h
  split at h
  · exact (cons.inj h).2.symm
  · rename_i hn
    have hne : Nat.digits 10 n ≠ [] := Nat.digits_ne_nil_iff_ne_zero.mpr hn
    have hlast := Nat.getLast_digit_ne_zero 10 hn
    have hlt := Nat.digits_lt_base (by decide : 1 < 10) (getLast_mem hne)
    have hhead := congrArg head? h
    rw [head?_map, head?_reverse, getLast?_eq_getLast_of_ne_nil hne] at hhead
    have hdig : ∀ i : Fin 10, UInt16.ofNat (48 + i) = 48 → i.val = 0 := by decide
    exact absurd (hdig ⟨_, hlt⟩ (some.inj hhead)) hlast

theorem readInteger_decimal : readInteger (decimal n) = some (decimal n, []) := by
  unfold readInteger
  split
  · rename_i s heq
    obtain rfl := decimal_zero heq
    rw [heq]
  · exact readDigits_decimal n

theorem readNumber_decimal : readNumber (decimal n) = some (decimal n, []) := by
  have hsign : readSign [45] (decimal n) = ([], decimal n) := by
    obtain ⟨c, s, hs⟩ := exists_cons_of_ne_nil (decimal_ne_nil n)
    have hc : isDigit c = true := isDigit_decimal (n := n) (by rw [hs]; exact mem_cons_self)
    rw [hs]
    simp only [readSign]
    rw [if_neg]
    intro hmem
    rw [mem_singleton.mp hmem] at hc
    exact absurd hc (by decide)
  unfold readNumber
  rw [hsign, readInteger_decimal, bind_some]
  simp [readFraction, readExponent]

theorem Numbers.Exact.writes {nums : Numbers} (h : nums.Exact) {n : Nat} (hn : n < 2 ^ 53) : nums.Writes n := by
  unfold Numbers.Writes
  rw [h.text n hn]
  exact ⟨readNumber_decimal n, h.value n hn⟩

/-- The numbers of integers. -/
def decimalNumbers : Numbers where
  text q := decimal q.num.toNat
  value t := ((t.foldl (fun n c => n * 10 + (c.toNat - 48)) 0 : Nat) : Rat)

theorem foldl_decimal : (decimal n).foldl (fun n c => n * 10 + (c.toNat - 48)) 0 = n := by
  have hchar : ∀ i : Fin 10, (UInt16.ofNat (48 + i)).toNat - 48 = i := by decide
  unfold decimal
  split
  · rename_i hn
    rw [hn]
    rfl
  · rename_i hn
    have hdigs : ∀ l : List Nat, (∀ d ∈ l, d < 10) →
        (l.reverse.map fun digit => UInt16.ofNat (48 + digit)).foldl (fun n c => n * 10 + (c.toNat - 48)) 0 = Nat.ofDigits 10 l := by
      intro l hl
      induction l with
      | nil => rfl
      | cons d l ih =>
        have hd : (UInt16.ofNat (48 + d)).toNat - 48 = d := hchar ⟨d, hl d (by simp)⟩
        rw [reverse_cons, map_append, foldl_append, ih (fun e he => hl e (by simp [he])), map_singleton,
          foldl_cons, foldl_nil, hd, Nat.ofDigits_cons]
        omega
    rw [hdigs _ (fun d hd => Nat.digits_lt_base (by decide) hd), Nat.ofDigits_digits]

theorem decimalNumbers_exact : decimalNumbers.Exact where
  text n _ := by
    show decimal (n : Rat).num.toNat = decimal n
    rw [Rat.num_natCast, Int.toNat_natCast]
  value n _ := congrArg Nat.cast (foldl_decimal n)

/-- A value the language can hold: its numbers are read back, and its objects enumerate their keys in order. -/
inductive Plain (numbers : Numbers) : Json → Prop
  | null : Plain numbers .null
  | bool {b : Bool} : Plain numbers (.bool b)
  | num {q : Rat} (h : numbers.Writes q) : Plain numbers (.num q)
  | str {s : Text} : Plain numbers (.str s)
  | arr {xs : List Json} (h : ∀ x ∈ xs, Plain numbers x) : Plain numbers (.arr xs)
  | obj {m : List (Text × Json)} (hkeys : (m.map Prod.fst).Nodup) (horder : enumerate m = m)
      (h : ∀ p ∈ m, Plain numbers p.2) : Plain numbers (.obj m)

theorem reads_scalar {cs : Text} (hspace : isSpace c = false) (hbracket : c ≠ 91) (hbrace : c ≠ 123)
    (h : ∀ t, Ends t → readScalar nums (c :: cs ++ t) = some (x, t)) : Reads nums (c :: cs) x := by
  refine ⟨[], by simp, ?_⟩
  intro t ht fuel hfuel
  cases fuel with
  | zero => exact absurd hfuel (Nat.not_lt_zero _)
  | succ fuel =>
    rw [parseValue, cons_append, skipSpace_of_not_isSpace hspace, nil_append]
    split
    · rename_i heq
      exact absurd (cons.inj heq).1 hbracket
    · rename_i heq
      exact absurd (cons.inj heq).1 hbrace
    · exact h t ht

theorem reads_stringText (x : Text) : Reads nums (stringText x) (.str x) := by
  apply reads_scalar (by decide) (by decide) (by decide)
  intro t _
  simp only [cons_append, readScalar, readString_stringText, map_some]

theorem reads_number {q : Rat} (h : nums.Writes q) : Reads nums (nums.text q) (.num q) := by
  obtain ⟨hread, hval⟩ := h
  obtain ⟨c, cs, htext, hc⟩ := readNumber_head hread
  have hne : isSpace c = false ∧ c ≠ 91 ∧ c ≠ 123 := by
    refine ⟨?_, ?_, ?_⟩
    · rcases hc with rfl | hc
      · decide
      · cases hspace : isSpace c with
        | false => rfl
        | true =>
          simp only [isSpace, Bool.or_eq_true, decide_eq_true_eq] at hspace
          rcases hspace with ((rfl | rfl) | rfl) | rfl <;> exact absurd hc (by decide)
    · rintro rfl
      exact absurd hc (by decide)
    · rintro rfl
      exact absurd hc (by decide)
  rw [htext] at hread hval ⊢
  apply reads_scalar hne.1 hne.2.1 hne.2.2
  intro t ht
  have happ := readNumber_append hread (Or.inr ht)
  rw [cons_append] at happ ⊢
  rw [readScalar_number hc, happ, map_some]
  dsimp only
  rw [hval, nil_append]

theorem stringify_arr (xs : List Json) : stringify nums (.arr xs) = arrayText (xs.map (stringify nums)) := by
  cases xs with
  | nil => rfl
  | cons x xs =>
    have hrest : stringifyElements nums xs = elementsText (xs.map (stringify nums)) := by
      induction xs with
      | nil => rfl
      | cons y ys ih => rw [stringifyElements, ih]; rfl
    rw [stringify, hrest]
    rfl

theorem ends_stringifyMembers (m : List (Text × Json)) (t : Text) : Ends (stringifyMembers nums m ++ t) := by
  cases m with
  | nil | cons p m => exact ends_cons (by decide) (by decide) (by decide)

/-- The first of the members is read, and what follows it decides. -/
theorem parseMembers_first {key : Text} {done : List (Text × Json)} (hfst : Reads nums s x)
    (hnew : key ∉ done.map Prod.fst) (hfuel : 2 * s.length < fuel) (ht : Ends t) : ∃ space, (∀ c ∈ space, isSpace c = true) ∧
      parseMembers nums (fuel + 1) done (stringText key ++ 58 :: (s ++ t)) = match readMark 125 (space ++ t) with
        | some rest => some (done ++ [(key, x)], rest)
        | none => (readMark 44 (space ++ t)).bind fun s => parseMembers nums fuel (done ++ [(key, x)]) s := by
  obtain ⟨space, hspace, hread⟩ := hfst
  refine ⟨space, hspace, ?_⟩
  have hkey : readKey (stringText key ++ 58 :: (s ++ t)) = some (key, 58 :: (s ++ t)) := by
    unfold readKey
    exact readString_stringText key _
  have hcolon : readMark 58 (58 :: (s ++ t)) = some (s ++ t) := readMark_cons (by decide) 58 _
  rw [parseMembers, hkey, bind_some]
  dsimp only
  rw [hcolon, bind_some, hread t ht fuel hfuel, bind_some]
  rw [Assoc.set_eq_append x hnew]

/-- The members are read back, in their order. -/
theorem parseMembers_stringify {key : Text} {m done : List (Text × Json)}
    (hfst : Reads nums (stringify nums x) x) (hrest : ∀ p ∈ m, Reads nums (stringify nums p.2) p.2)
    (hkeys : ((done ++ (key, x) :: m).map Prod.fst).Nodup)
    (hfuel : 2 * (stringText key ++ 58 :: (stringify nums x ++ stringifyMembers nums m)).length ≤ fuel) (t : Text) :
    parseMembers nums fuel done (stringText key ++ 58 :: (stringify nums x ++ (stringifyMembers nums m ++ t))) =
      some (done ++ (key, x) :: m, t) := by
  induction m generalizing key x done fuel with
  | nil =>
    cases fuel with
    | zero => simp [stringText] at hfuel
    | succ fuel =>
      have hnew : key ∉ done.map Prod.fst := by
        intro hmem
        rw [map_append, nodup_append] at hkeys
        exact hkeys.2.2 key hmem key (by simp) rfl
      have hlen : 2 * (stringify nums x).length < fuel := by
        simp only [length_append, length_cons] at hfuel
        omega
      obtain ⟨space, hspace, hstep⟩ := parseMembers_first hfst hnew hlen (ends_stringifyMembers [] t)
      rw [hstep]
      simp only [stringifyMembers, cons_append, nil_append, readMark_space hspace (c := 125) (by decide), if_true]
  | cons p m ih =>
    obtain ⟨key', y⟩ := p
    cases fuel with
    | zero => simp [stringText] at hfuel
    | succ fuel =>
      have hnew : key ∉ done.map Prod.fst := by
        intro hmem
        rw [map_append, nodup_append] at hkeys
        exact hkeys.2.2 key hmem key (by simp) rfl
      have hlen : 2 * (stringify nums x).length < fuel ∧
          2 * (stringText key' ++ 58 :: (stringify nums y ++ stringifyMembers nums m)).length ≤ fuel := by
        simp only [stringifyMembers, length_append, length_cons] at hfuel ⊢
        omega
      obtain ⟨space, hspace, hstep⟩ := parseMembers_first hfst hnew hlen.1 (ends_stringifyMembers ((key', y) :: m) t)
      have hkeys' : ((done ++ [(key, x)] ++ (key', y) :: m).map Prod.fst).Nodup := by simpa using hkeys
      have hnext := ih (hrest (key', y) (by simp)) (fun p hp => hrest p (by simp [hp])) hkeys' hlen.2
      rw [hstep]
      simp only [stringifyMembers, cons_append, readMark_space hspace (c := 44) (by decide), bind_some, if_true]
      simpa using hnext

/-- **A value that was written is read back.** -/
theorem reads_stringify (h : Plain nums x) : Reads nums (stringify nums x) x := by
  induction h with
  | null => exact reads_scalar (by decide) (by decide) (by decide) (fun t _ => rfl)
  | @bool b =>
    cases b with
    | true | false => exact reads_scalar (by decide) (by decide) (by decide) (fun t _ => rfl)
  | num hwrites => exact reads_number hwrites
  | @str x => exact reads_stringText x
  | @arr xs _ ih =>
    rw [stringify_arr]
    apply reads_arrayText
    rw [forall₂_map_left_iff, forall₂_same]
    exact ih
  | @obj m hkeys hordr _ ih =>
    refine ⟨[], by simp, ?_⟩
    intro t ht fuel hfuel
    cases fuel with
    | zero => exact absurd hfuel (Nat.not_lt_zero _)
    | succ fuel =>
      cases m with
      | nil =>
        have hmark : readMark 125 (125 :: t) = some t := readMark_cons (by decide) 125 t
        have hskip : skipSpace ([123, 125] ++ t) = 123 :: 125 :: t := skipSpace_of_not_isSpace (by decide) _
        simp only [stringify, parseValue, hskip, hmark, nil_append]
      | cons p m =>
        obtain ⟨key, y⟩ := p
        have hlen : 2 * (stringText key ++ 58 :: (stringify nums y ++ stringifyMembers nums m)).length ≤ fuel := by
          simp only [stringify, length_cons] at hfuel
          omega
        have hkeys' : (([] ++ (key, y) :: m).map Prod.fst).Nodup := hkeys
        have hmems := parseMembers_stringify (ih (key, y) (by simp)) (fun p hp => ih p (by simp [hp])) hkeys' hlen t
        have hmark : readMark 125 (stringText key ++ 58 :: (stringify nums y ++ (stringifyMembers nums m ++ t))) = none := by
          rfl
        have hskip : skipSpace (stringify nums (.obj ((key, y) :: m)) ++ t) =
            123 :: (stringText key ++ 58 :: (stringify nums y ++ (stringifyMembers nums m ++ t))) := by
          simp only [stringify, cons_append, append_assoc]
          exact skipSpace_of_not_isSpace (by decide) _
        simp only [parseValue, hskip, hmark, hmems, map_some, nil_append, hordr]

theorem parse_stringify (h : Plain nums x) : parse nums (stringify nums x) = some x := parse_of_reads (reads_stringify h)

end Values

end PiBridge.Chord
