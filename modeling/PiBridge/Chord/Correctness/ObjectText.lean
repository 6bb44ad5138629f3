import PiBridge.Chord.JsonText

/-!
# `Chord.Correctness.ObjectText` — part of an object's text is no value

Reading an object stops at its closing brace, whatever follows (`parseValue_object_append`), and the brace is there
(`parseValue_object_closes`). So no value is read of the text of an object that is cut off, whether or not the place of the
cut is marked by a character.
-/

namespace PiBridge.Chord

open List Option

section Suffixes

variable {nums : Numbers} {s rest : Text}

theorem skipSpace_suffix (s : Text) : skipSpace s <:+ s := dropWhile_suffix isSpace

theorem readMark_suffix {mark : UInt16} (h : readMark mark s = some rest) : mark :: rest <:+ s := by
  unfold readMark at h
  split at h
  · rename_i c cs hskip
    split at h
    · rename_i hmark
      cases h
      rw [← hmark, ← hskip]
      exact skipSpace_suffix s
    · cases h
  · cases h

theorem readMark_rest {mark : UInt16} (h : readMark mark s = some rest) : rest <:+ s := (suffix_cons mark rest).trans (readMark_suffix h)

variable {x : Text}

theorem readDigits_suffix (h : readDigits s = some (x, rest)) : rest <:+ s := by
  unfold readDigits at h
  split at h
  · exact nomatch h
  · cases h
    exact dropWhile_suffix isDigit

theorem readInteger_suffix (h : readInteger s = some (x, rest)) : rest <:+ s := by
  unfold readInteger at h
  split at h
  · cases h
    exact suffix_cons _ _
  · exact readDigits_suffix h

theorem readFraction_suffix (h : readFraction s = some (x, rest)) : rest <:+ s := by
  unfold readFraction at h
  split at h
  · obtain ⟨⟨digits, rest'⟩, hdigs, heq⟩ := map_eq_some_iff.mp h
    cases heq
    exact (readDigits_suffix hdigs).trans (suffix_cons _ _)
  · cases h
    exact suffix_rfl

theorem readSign_suffix (allowed : List UInt16) (s : Text) : (readSign allowed s).2 <:+ s := by
  cases s with
  | nil => exact suffix_rfl
  | cons c s =>
    simp only [readSign]
    split
    · exact suffix_cons _ _
    · exact suffix_rfl

theorem readExponent_suffix (h : readExponent s = some (x, rest)) : rest <:+ s := by
  unfold readExponent at h
  split at h
  · rename_i c s
    split at h
    · obtain ⟨⟨digits, rest'⟩, hdigs, heq⟩ := map_eq_some_iff.mp h
      cases heq
      exact ((readDigits_suffix hdigs).trans (readSign_suffix _ s)).trans (suffix_cons _ _)
    · cases h
      exact suffix_rfl
  · cases h
    exact suffix_rfl

theorem readNumber_suffix (h : readNumber s = some (x, rest)) : rest <:+ s := by
  obtain ⟨⟨integer, s₁⟩, hint, h⟩ := bind_eq_some_iff.mp h
  obtain ⟨⟨fraction, s₂⟩, hfraction, h⟩ := bind_eq_some_iff.mp h
  obtain ⟨⟨exponent, s₃⟩, hexponent, heq⟩ := map_eq_some_iff.mp h
  cases heq
  exact (readExponent_suffix hexponent).trans
    ((readFraction_suffix hfraction).trans ((readInteger_suffix hint).trans (readSign_suffix _ s)))

theorem readString_suffix (h : readString s = some (x, rest)) : rest <:+ s := by
  fun_induction readString s generalizing x with
  | case1 s =>
    cases h
    exact suffix_cons _ _
  | case2 a b c d s hhex ih =>
    obtain ⟨⟨y, rest'⟩, hrest, heq⟩ := map_eq_some_iff.mp h
    cases heq
    exact (ih hrest).trans (suffix_append [92, 117, a, b, c, d] s)
  | case3 | case5 | case7 => cases h
  | case4 c s hshort ih =>
    obtain ⟨c', hescape, h⟩ := bind_eq_some_iff.mp h
    obtain ⟨⟨y, rest'⟩, hrest, heq⟩ := map_eq_some_iff.mp h
    cases heq
    exact (ih hrest).trans (suffix_append [92, c] s)
  | case6 c s hquote hunicode hslash hlow ih =>
    obtain ⟨⟨y, rest'⟩, hrest, heq⟩ := map_eq_some_iff.mp h
    cases heq
    exact (ih hrest).trans (suffix_cons _ _)

theorem readKey_suffix (h : readKey s = some (x, rest)) : rest <:+ s := by
  unfold readKey at h
  split at h
  · rename_i cs hskip
    have hcs : cs <:+ skipSpace s := by
      rw [hskip]
      exact suffix_cons _ _
    exact (readString_suffix h).trans (hcs.trans (skipSpace_suffix s))
  · exact nomatch h

theorem readScalar_suffix {x : Json} (h : readScalar nums s = some (x, rest)) : rest <:+ s := by
  unfold readScalar at h
  split at h
  · obtain ⟨⟨y, rest'⟩, hstring, heq⟩ := map_eq_some_iff.mp h
    cases heq
    exact (readString_suffix hstring).trans (suffix_cons _ _)
  · cases h
    exact suffix_append [116, 114, 117, 101] _
  · cases h
    exact suffix_append [102, 97, 108, 115, 101] _
  · cases h
    exact suffix_append [110, 117, 108, 108] _
  · obtain ⟨⟨y, rest'⟩, hnumber, heq⟩ := map_eq_some_iff.mp h
    cases heq
    exact readNumber_suffix hnumber

/-- Reading leaves an end of the text; members stop at the brace that is before it. By the fuel. -/
theorem parse_suffix (fuel : ℕ) :
    (∀ s x rest, parseValue nums fuel s = some (x, rest) → rest <:+ s) ∧
    (∀ s xs rest, parseElements nums fuel s = some (xs, rest) → rest <:+ s) ∧
    (∀ s m m' rest, parseMembers nums fuel m s = some (m', rest) → 125 :: rest <:+ s) := by
  induction fuel with
  | zero => simp [parseValue, parseElements, parseMembers]
  | succ fuel ih =>
    obtain ⟨ihvalue, ihelements, ihmembers⟩ := ih
    refine ⟨?_, ?_, ?_⟩
    · intro s x rest h
      refine IsSuffix.trans ?_ (skipSpace_suffix s)
      rw [parseValue] at h
      split at h
      · rename_i cs hskip
        rw [hskip]
        refine IsSuffix.trans ?_ (suffix_cons _ _)
        split at h
        · rename_i hmark
          cases h
          exact readMark_rest hmark
        · obtain ⟨⟨xs, rest'⟩, hels, heq⟩ := map_eq_some_iff.mp h
          cases heq
          exact ihelements _ _ _ hels
      · rename_i cs hskip
        rw [hskip]
        refine IsSuffix.trans ?_ (suffix_cons _ _)
        split at h
        · rename_i hmark
          cases h
          exact readMark_rest hmark
        · obtain ⟨⟨m, rest'⟩, hmems, heq⟩ := map_eq_some_iff.mp h
          cases heq
          exact (suffix_cons _ _).trans (ihmembers _ _ _ _ hmems)
      · exact readScalar_suffix h
    · intro s xs rest h
      obtain ⟨⟨x, s'⟩, hval, h⟩ := bind_eq_some_iff.mp h
      refine IsSuffix.trans ?_ (ihvalue _ _ _ hval)
      dsimp only at h
      split at h
      · rename_i hmark
        cases h
        exact readMark_rest hmark
      · obtain ⟨s'', hcomma, h⟩ := bind_eq_some_iff.mp h
        obtain ⟨⟨ys, rest'⟩, hels, heq⟩ := map_eq_some_iff.mp h
        cases heq
        exact (ihelements _ _ _ hels).trans (readMark_rest hcomma)
    · intro s m m' rest h
      obtain ⟨⟨key, s₁⟩, hkey, h⟩ := bind_eq_some_iff.mp h
      obtain ⟨s₂, hcolon, h⟩ := bind_eq_some_iff.mp h
      obtain ⟨⟨x, s₃⟩, hval, h⟩ := bind_eq_some_iff.mp h
      have hs₃ : s₃ <:+ s := (ihvalue _ _ _ hval).trans ((readMark_rest hcolon).trans (readKey_suffix hkey))
      refine IsSuffix.trans ?_ hs₃
      dsimp only at h
      split at h
      · rename_i hmark
        cases h
        exact readMark_suffix hmark
      · obtain ⟨s₄, hcomma, h⟩ := bind_eq_some_iff.mp h
        exact (ihmembers _ _ _ _ h).trans (readMark_rest hcomma)

end Suffixes

section Objects

variable {nums : Numbers} {s t rest : Text} {x : Json} {fuel : ℕ}

/-- An object is read the same, whatever follows. -/
theorem parseValue_object_append (h : parseValue nums fuel (123 :: s) = some (x, rest)) :
    parseValue nums fuel (123 :: s ++ t) = some (x, rest ++ t) := by
  cases fuel with
  | zero => exact nomatch h
  | succ fuel =>
    rw [cons_append]
    simp only [parseValue, skipSpace_of_not_isSpace (c := 123) (by decide)] at h ⊢
    cases hmark : readMark 125 s with
    | some rest' =>
      rw [hmark] at h
      cases h
      rw [readMark_append hmark]
    | none =>
      rw [hmark] at h
      obtain ⟨⟨m, rest'⟩, hmems, heq⟩ := map_eq_some_iff.mp h
      cases heq
      rw [readMark_none_append (parseMembers_ne hmems) hmark]
      simp only [(parse_append fuel).2.2 _ t _ _ _ hmems, map_some]

/-- What an object leaves comes after its brace. -/
theorem parseValue_object_closes (h : parseValue nums fuel (123 :: s) = some (x, rest)) : 125 :: rest <:+ s := by
  cases fuel with
  | zero => exact nomatch h
  | succ fuel =>
    simp only [parseValue, skipSpace_of_not_isSpace (c := 123) (by decide)] at h
    cases hmark : readMark 125 s with
    | some rest' =>
      rw [hmark] at h
      cases h
      exact readMark_suffix hmark
    | none =>
      rw [hmark] at h
      obtain ⟨⟨m, rest'⟩, hmems, heq⟩ := map_eq_some_iff.mp h
      cases heq
      exact (parse_suffix fuel).2.2 _ _ _ _ hmems

theorem stringify_object (m : List (Text × Json)) : ∃ s, stringify nums (.obj m) = 123 :: s := by
  cases m with
  | nil | cons p m => exact ⟨_, rfl⟩

theorem stringifyMembers_last (m : List (Text × Json)) : ∃ s, stringifyMembers nums m = s ++ [125] := by
  induction m with
  | nil => exact ⟨[], rfl⟩
  | cons p m ih =>
    obtain ⟨s, hs⟩ := ih
    refine ⟨44 :: (stringText p.1 ++ 58 :: (stringify nums p.2 ++ s)), ?_⟩
    simp only [stringifyMembers, hs, append_assoc, cons_append]

theorem stringify_object_last (m : List (Text × Json)) : (stringify nums (.obj m)).getLast? = some 125 := by
  cases m with
  | nil => rfl
  | cons p m =>
    obtain ⟨s, hs⟩ := @stringifyMembers_last nums m
    have hend : stringify nums (.obj (p :: m)) = (123 :: (stringText p.1 ++ 58 :: (stringify nums p.2 ++ s))) ++ [125] := by
      simp only [stringify, hs, append_assoc, cons_append]
    rw [hend]
    exact getLast?_concat

/-- Where a text ends in a character, the object it reads as does not leave it as space. -/
theorem parse_object_last (h : parse nums (123 :: s) = some x) {c : UInt16} (hlast : s.getLast? = some c) :
    c = 125 ∨ isSpace c = true := by
  obtain ⟨⟨y, rest⟩, hval, h⟩ := bind_eq_some_iff.mp h
  dsimp only at h
  split at h
  · rename_i hspace
    obtain ⟨bef, hbef⟩ := parseValue_object_closes hval
    rw [← hbef, getLast?_append, getLast?_cons, some_or] at hlast
    have hc : c ∈ 125 :: rest := mem_of_getLast? (by rw [getLast?_cons]; exact hlast)
    exact (mem_cons.mp hc).imp_right (skipSpace_isEmpty.mp hspace c)
  · exact nomatch h

/-- **Part of an object's text is no value**, nor is it with a character in place of what is cut off. -/
theorem parse_object_cut {m : List (Text × Json)} (hplain : Plain nums (.obj m)) {done left : Text}
    (h : stringify nums (.obj m) = done ++ left) (hleft : left ≠ []) :
    parse nums done = none ∧ parse nums (done ++ [0xFFFD]) = none := by
  obtain ⟨s, hs⟩ := @stringify_object nums m
  cases done with
  | nil => exact ⟨rfl, rfl⟩
  | cons c d =>
    rw [hs, cons_append] at h
    cases h
    constructor
    · cases hdone : parse nums (123 :: d) with
      | none => rfl
      | some y =>
        have hwhole := parse_stringify hplain
        rw [hs] at hwhole
        obtain ⟨⟨x', rest'⟩, hval', h'⟩ := bind_eq_some_iff.mp hwhole
        obtain ⟨⟨x, rest⟩, hval, -⟩ := bind_eq_some_iff.mp hdone
        have hfuel : 2 * (123 :: d).length + 1 ≤ 2 * (123 :: (d ++ left)).length + 1 := by
          simp only [length_cons, length_append]
          omega
        have hmore := parseValue_mono (parseValue_object_append (t := left) hval) hfuel
        -- Both read the whole text, and the first of them stops before the cut.
        rw [cons_append, hval'] at hmore
        cases hmore
        dsimp only at h'
        split at h'
        · rename_i hspace
          have hlast := @stringify_object_last nums m
          rw [hs, ← cons_append, getLast?_append_of_ne_nil _ hleft] at hlast
          have hmem : (125 : UInt16) ∈ rest ++ left := mem_append_right rest (mem_of_getLast? hlast)
          exact absurd (skipSpace_isEmpty.mp hspace 125 hmem) (by decide)
        · exact nomatch h'
    · cases hdone : parse nums (123 :: d ++ [0xFFFD]) with
      | none => rfl
      | some y =>
        have hlast := parse_object_last hdone (getLast?_concat (l := d))
        exact absurd hlast (by decide)

end Objects

end PiBridge.Chord
