import PiBridge.Chord.Link.Text

/-!
# `Chord.Correctness.TextParts` — what a part can do to a tuple

The text codec puts the text of a part into its tuple as it is. Where every plain part is one JSON text, the tuple is
the array of its fields (`ownTuple_reads`), and the message that is read has the header of the one that was written
(`text_keeps_header`). A newline in a part is then white space, and cuts the tuple where it is no value
(`parse_none_of_newline`). A part that is no JSON text can close its place and write the fields after it
(`text_part_forges`).
-/

namespace PiBridge.Chord.Link

open List
open Option (map_eq_some_iff bind_some map_some)

variable {nums : Numbers}

/-! ## Texts of values -/

/-- A well-formed text that is read as this value wherever it ends. -/
structure IsText (numbers : Numbers) (s : Text) (x : Json) : Prop where
  reads : Reads numbers s x
  wellFormed : WellFormed s

variable {x : Json} {texts : List Text} {xs : List Json} {α β : Type} {part : Part} {t : Text} {p : Payload} {trace : Option Json}
  {body : Body checked} {id : Nat}

theorem isText_stringify (h : Plain nums x) : IsText nums (stringify nums x) x := ⟨reads_stringify h, stringify_wellFormed h⟩

theorem isText_arrayText (h : List.Forall₂ (IsText nums) texts xs) : IsText nums (arrayText texts) (.arr xs) := by
  constructor
  · exact reads_arrayText (h.imp fun _ _ => IsText.reads)
  · apply arrayText_wellFormed
    induction h with
    | nil => exact fun s hs => (nomatch hs)
    | cons hx _ ih =>
      rw [forall_mem_cons]
      exact ⟨hx.wellFormed, ih⟩

theorem isText_map (h : ∀ x ∈ xs, Plain nums x) : List.Forall₂ (IsText nums) (xs.map (stringify nums)) xs := by
  rw [forall₂_map_left_iff, forall₂_same]
  exact fun x hx => isText_stringify (h x hx)

theorem elementsText_eq (texts : List Text) : elementsText texts = texts.flatMap (fun s => text "," ++ s) ++ [93] := by
  induction texts with
  | nil => rfl
  | cons s texts ih =>
    rw [elementsText, ih, flatMap_cons, append_assoc]
    rfl

theorem arrayText_eq (texts : List Text) : arrayText texts = text "[" ++ join texts ++ text "]" := by
  cases texts with
  | nil => rfl
  | cons s texts =>
    have hjoin : ∀ (s : Text) (texts : List Text), s ++ elementsText texts = join (s :: texts) ++ [93] := by
      intro s texts
      induction texts generalizing s with
      | nil => rfl
      | cons t texts ih =>
        rw [elementsText, ih, join]
        simp [text, codeUnits]
    show 91 :: (s ++ elementsText texts) = [91] ++ join (s :: texts) ++ [93]
    rw [hjoin]
    rfl

theorem listText_eq (xs : List Json) : listText nums xs = arrayText (xs.map (stringify nums)) := stringify_arr xs

/-- A list reopened, and more elements. -/
theorem dropLast_listText (nums : Numbers) {xs : List Json} (hne : xs ≠ []) (texts : List Text) :
    (listText nums xs).dropLast ++ texts.flatMap (fun s => text "," ++ s) ++ text "]" =
      arrayText (xs.map (stringify nums) ++ texts) := by
  obtain ⟨x, xs, rfl⟩ := List.exists_cons_of_ne_nil hne
  rw [listText_eq, List.map_cons, List.cons_append, arrayText, arrayText, elementsText_eq, elementsText_eq,
    ← List.append_assoc, ← List.cons_append, List.dropLast_concat, List.flatMap_append]
  simp [text, codeUnits]

theorem isText_listText (h : ∀ x ∈ xs, Plain nums x) : IsText nums (listText nums xs) (.arr xs) := isText_stringify (.arr h)

/-- Each text is read as what its element was written from. -/
theorem mapM_reads {w : α → Option Text} {read : Json → Option β} {P : α → β → Prop} {l : List α}
    (h : ∀ a ∈ l, ∀ t, w a = some t → ∃ x b, IsText nums t x ∧ read x = some b ∧ P a b)
    (htexts : l.mapM w = some texts) :
    ∃ xs bs, List.Forall₂ (IsText nums) texts xs ∧ xs.mapM read = some bs ∧ List.Forall₂ P l bs := by
  induction l generalizing texts with
  | nil =>
    cases htexts
    exact ⟨[], [], .nil, rfl, .nil⟩
  | cons a l ih =>
    rw [mapM_cons] at htexts
    obtain ⟨t, ht, htexts⟩ := Option.bind_eq_some_iff.mp htexts
    obtain ⟨ts, hts, htexts⟩ := Option.bind_eq_some_iff.mp htexts
    cases htexts
    obtain ⟨x, b, hx, hread, hP⟩ := h a (by simp) t ht
    obtain ⟨xs, bs, hxs, hreads, hPs⟩ := ih (fun a' ha' => h a' (by simp [ha'])) hts
    refine ⟨x :: xs, b :: bs, .cons hx hxs, ?_, .cons hP hPs⟩
    rw [mapM_cons, hread, hreads]
    rfl

/-- Two readings of a list, one after the other or element by element. -/
theorem mapM_bind {γ : Type} (f : α → Option β) (g : β → Option γ) (l : List α) :
    (l.mapM f).bind (·.mapM g) = l.mapM fun a => (f a).bind g := by
  induction l with
  | nil => rfl
  | cons a l ih =>
    rw [mapM_cons, mapM_cons, ← ih]
    cases f a with
    | none => rfl
    | some b =>
      cases l.mapM f with
      | none => simp
      | some bs => exact mapM_cons

theorem map_eq_of_forall₂ {γ : Type} {f : α → γ} {g : β → γ} {l : List α} {l' : List β}
    (h : List.Forall₂ (fun a b => g b = f a) l l') : l'.map g = l.map f := by
  induction h with
  | nil => rfl
  | cons hab _ ih => rw [map_cons, map_cons, hab, ih]

/-! ## Parts -/

/-- The text of a plain part is one JSON text. -/
def Part.IsJson (numbers : Numbers) (part : Part) : Prop := ∀ s, part.json? = some s → WellFormed s ∧ (parse numbers s).isSome = true

theorem base64_ascii (bs : List UInt8) : IsAscii (base64 bs) := by
  intro c hc
  rcases mem_append.mp hc with hc | hc
  · obtain ⟨n, hn, rfl⟩ := mem_map.mp hc
    have hall : ∀ i : Fin 64, sextetChar i < 128 := by decide
    exact hall ⟨n, sextets_lt bs n hn⟩
  · rw [eq_of_mem_replicate hc]
    decide

theorem partText_wellFormed (h : part.IsJson nums) (ht : partText part = some t) : WellFormed t := by
  have hplain : ∀ s, part.json? = some s → WellFormed (text "[0," ++ s ++ text "]") := by
    intro s hs
    have hopen : WellFormed (text "[0,") := IsAscii.wellFormed (by decide)
    have hclose : WellFormed (text "]") := IsAscii.wellFormed (by decide)
    exact (hopen.append (h s hs).1).append hclose
  cases part with
  | text s =>
    cases ht
    exact hplain s rfl
  | bytes b =>
    obtain ⟨s, hs, rfl⟩ := map_eq_some_iff.mp ht
    exact hplain s hs
  | deflated b =>
    cases ht
    have hopen : IsAscii (text "[1,\"") := by decide
    have hclose : IsAscii (text "\"]") := by decide
    exact ((hopen.append (base64_ascii b)).append hclose).wellFormed

theorem isText_partText (hnum : nums.Exact) (h : part.IsJson nums)
    (ht : partText part = some t) : ∃ x part', IsText nums t x ∧ textPart nums x = some part' := by
  obtain ⟨x, part', hread, hpart⟩ := reads_partText hnum ht (fun s hs => (h s hs).2)
  exact ⟨x, part', ⟨hread, partText_wellFormed h ht⟩, hpart⟩

theorem isText_numText {n : Nat} (h : nums.Writes n) : IsText nums (numText nums n) (.num n) := isText_stringify (.num h)

/-- The members of an entry, as a list. -/
theorem isText_pairsText (hnum : nums.Exact) {mems : List (Member checked)}
    (hmems : ∀ m ∈ mems, nums.Writes m.member ∧ m.value.IsJson nums) {t : Text}
    (ht : pairsText nums mems = some t) :
    ∃ x mems', IsText nums (text "[" ++ t ++ text "]") x ∧ readMembers nums x = some mems' ∧
      mems'.map (·.map eraseParts) = (mems.map (·.map uncheck)).map (·.map eraseParts) := by
  obtain ⟨texts, htexts, rfl⟩ := map_eq_some_iff.mp ht
  have hall : ∀ m ∈ mems, ∀ t,
      ((partText m.value).map fun part => text "[" ++ numText nums m.member ++ text "," ++ part ++ text "]") = some t →
        ∃ x m', IsText nums t x ∧
          ((pair x).bind fun p => (textPart nums p.2).map fun part => (⟨p.1, part⟩ : Member unchecked)) = some m' ∧
          m'.map eraseParts = (m.map uncheck).map (eraseParts (F := unchecked)) := by
    intro m hm t ht
    obtain ⟨hmember, hval⟩ := hmems m hm
    obtain ⟨part, hpart, rfl⟩ := map_eq_some_iff.mp ht
    obtain ⟨x, part', hx, hread⟩ := isText_partText hnum hval hpart
    refine ⟨.arr [.num m.member, x], ⟨.num m.member, part'⟩, ?_, ?_, rfl⟩
    · have htext : text "[" ++ numText nums m.member ++ text "," ++ part ++ text "]" = arrayText [numText nums m.member, part] := by
        simp [text, codeUnits, arrayText, elementsText]
      rw [htext]
      exact isText_arrayText (.cons (isText_numText hmember) (.cons hx .nil))
    · simp only [pair, bind_some, hread, map_some]
  obtain ⟨xs, mems', hxs, hread, hsame⟩ := mapM_reads hall htexts
  refine ⟨.arr xs, mems', ?_, ?_, ?_⟩
  · rw [← arrayText_eq]
    exact isText_arrayText hxs
  · rw [readMembers, pairs, list, bind_some, mapM_bind]
    exact hread
  · rw [map_map]
    exact map_eq_of_forall₂ hsame

/-! ## Entries -/

/-- Fields the language can hold. -/
def values (numbers : Numbers) : FieldProps where
  num n := numbers.Writes n
  str _ := True
  json := Plain numbers
  part _ := True
  segment s := s.length < 2 ^ 53
  count _ := True

theorem plain_failedValue {fd : List (FailedMember checked)} (h : allFailed (values nums) fd) :
    Plain nums (failedValue fd) := by
  apply Plain.arr
  intro x hx
  obtain ⟨m, hm, rfl⟩ := mem_map.mp hx
  obtain ⟨hmember, herr⟩ := h.2 m hm
  apply Plain.arr
  intro x hx
  rcases mem_cons.mp hx with rfl | hx
  · exact .num hmember
  · rw [mem_singleton.mp hx]
    exact herr

theorem failures_failedValue (fd : List (FailedMember checked)) :
    failures (some (failedValue fd)) = some (fd.map (·.map uncheck)) := by
  have hpairs : (fd.map fun m => Json.arr [.num m.member, m.error]).mapM pair =
      some (fd.map fun m => (.num m.member, m.error)) := by
    induction fd with
    | nil => rfl
    | cons m fd ih =>
      rw [map_cons, mapM_cons, ih]
      rfl
  rw [failures, failedValue, pairs, list, bind_some, hpairs, map_some, map_map]
  rfl

/-- The entry is read back, but for what its parts hold. -/
theorem isText_boundEntry (hnum : nums.Exact) {e : BoundEntry checked} (he : e.All (values nums))
    (hpts : ∀ m ∈ e.members, m.value.IsJson nums) (ht : boundEntry nums e = some t) :
    ∃ x e', IsText nums t x ∧ readBoundEntry nums x = some e' ∧
      e'.map eraseParts = (e.map uncheck).map (eraseParts (F := unchecked)) := by
  obtain ⟨pairs, hpairs, rfl⟩ := map_eq_some_iff.mp ht
  obtain ⟨x, mems', hx, hread, hsame⟩ := isText_pairsText hnum (fun m hm => ⟨(he.members.2 m hm).1, hpts m hm⟩) hpairs
  have hsame' : (⟨.num e.hold, .num e.variant, mems', e.failed.map (·.map uncheck)⟩ : BoundEntry unchecked).map
      eraseParts = (e.map uncheck).map (eraseParts (F := unchecked)) := by
    simp only [BoundEntry.map, hsame]
    rfl
  have hhold := isText_numText he.hold
  have hvariant := isText_numText he.variant
  cases hfail : e.failed with
  | nil =>
    refine ⟨.arr [.num e.hold, .num e.variant, x], _, ?_, ?_, hsame'⟩
    · have htext : text "[" ++ numText nums e.hold ++ text "," ++ numText nums e.variant ++ text ",[" ++ pairs ++
          text "]" ++ failedField nums [] ++ text "]" =
            arrayText [numText nums e.hold, numText nums e.variant, text "[" ++ pairs ++ text "]"] := by
        simp [text, codeUnits, arrayText, elementsText, failedField]
      rw [htext]
      exact isText_arrayText (.cons hhold (.cons hvariant (.cons hx .nil)))
    · simp only [readBoundEntry, length_nil, Nat.zero_le, if_true, hread, bind_some, head?_nil, failures,
        map_some, hfail, map_nil]
  | cons m fd =>
    refine ⟨.arr [.num e.hold, .num e.variant, x, failedValue e.failed], _, ?_, ?_, hsame'⟩
    · have htext : text "[" ++ numText nums e.hold ++ text "," ++ numText nums e.variant ++ text ",[" ++ pairs ++
          text "]" ++ failedField nums (m :: fd) ++ text "]" =
            arrayText [numText nums e.hold, numText nums e.variant, text "[" ++ pairs ++ text "]",
              stringify nums (failedValue (m :: fd))] := by
        simp [text, codeUnits, arrayText, elementsText, failedField]
      rw [htext, ← hfail]
      exact isText_arrayText (.cons hhold (.cons hvariant (.cons hx (.cons (isText_stringify (plain_failedValue he.failed)) .nil))))
    · simp only [readBoundEntry, length_singleton, Nat.le_refl, if_true, hread, bind_some, head?_cons,
        failures_failedValue, map_some]

theorem isText_stateEntry (hnum : nums.Exact) {e : StateEntry checked} (he : e.All (values nums))
    (hpts : ∀ m ∈ e.members, m.value.IsJson nums) (ht : stateEntry nums e = some t) :
    ∃ x e', IsText nums t x ∧ readStateEntry nums x = some e' ∧
      e'.map eraseParts = (e.map uncheck).map (eraseParts (F := unchecked)) := by
  obtain ⟨pairs, hpairs, rfl⟩ := map_eq_some_iff.mp ht
  obtain ⟨x, mems', hx, hread, hsame⟩ := isText_pairsText hnum (fun m hm => ⟨(he.members.2 m hm).1, hpts m hm⟩) hpairs
  have hsame' : (⟨.num e.hold, mems', e.failed.map (·.map uncheck), e.retired.map fun n : Nat => Json.num n⟩ :
      StateEntry unchecked).map eraseParts = (e.map uncheck).map (eraseParts (F := unchecked)) := by
    simp only [StateEntry.map, hsame]
    rfl
  have hhold := isText_numText he.hold
  have hfails := isText_stringify (plain_failedValue he.failed)
  cases hret : e.retired with
  | nil =>
    rw [isEmpty_nil, if_pos rfl]
    rw [hret, map_nil] at hsame'
    cases hfail : e.failed with
    | nil =>
      refine ⟨.arr [.num e.hold, x], _, ?_, ?_, hsame'⟩
      · have htext : text "[" ++ numText nums e.hold ++ text ",[" ++ pairs ++ text "]" ++ failedField nums [] ++
            text "]" = arrayText [numText nums e.hold, text "[" ++ pairs ++ text "]"] := by
          simp [text, codeUnits, arrayText, elementsText, failedField]
        rw [htext]
        exact isText_arrayText (.cons hhold (.cons hx .nil))
      · simp [readStateEntry, hread, failures, hfail]
    | cons m fd =>
      refine ⟨.arr [.num e.hold, x, failedValue e.failed], _, ?_, ?_, hsame'⟩
      · have htext : text "[" ++ numText nums e.hold ++ text ",[" ++ pairs ++ text "]" ++ failedField nums (m :: fd) ++ text "]" =
              arrayText [numText nums e.hold, text "[" ++ pairs ++ text "]", stringify nums (failedValue (m :: fd))] := by
          simp [text, codeUnits, arrayText, elementsText, failedField]
        rw [htext, ← hfail]
        exact isText_arrayText (.cons hhold (.cons hx (.cons hfails .nil)))
      · simp [readStateEntry, hread, failures_failedValue]
  | cons n ret =>
    rw [isEmpty_cons, if_neg Bool.false_ne_true, ← hret]
    refine ⟨.arr [.num e.hold, x, failedValue e.failed, .arr (e.retired.map fun n : Nat => Json.num n)], _, ?_, ?_, hsame'⟩
    · have htext : text "[" ++ numText nums e.hold ++ text ",[" ++ pairs ++ text "]," ++
          stringify nums (failedValue e.failed) ++ text "," ++ listText nums (e.retired.map fun n : Nat => Json.num n) ++
          text "]" = arrayText [numText nums e.hold, text "[" ++ pairs ++ text "]",
            stringify nums (failedValue e.failed), listText nums (e.retired.map fun n : Nat => Json.num n)] := by
        simp [text, codeUnits, arrayText, elementsText]
      rw [htext]
      have hlist : IsText nums (listText nums (e.retired.map fun n : Nat => Json.num n)) (.arr (e.retired.map fun n : Nat => Json.num n)) := by
        apply isText_listText
        intro x hx
        obtain ⟨n, hn, rfl⟩ := mem_map.mp hx
        exact .num (he.retired.2 n hn)
      exact isText_arrayText (.cons hhold (.cons hx (.cons hfails (.cons hlist .nil))))
    · simp [readStateEntry, hread, failures_failedValue, list]

/-! ## Payloads -/

theorem cutSegments_flatten (bef : List UInt8) (segs : List (List UInt8)) :
    cutSegments (bef ++ segs.flatten) bef.length (segs.map List.length) = segs := by
  induction segs generalizing bef with
  | nil => rfl
  | cons s segs ih =>
    have hnext := ih (bef ++ s)
    rw [append_assoc, length_append] at hnext
    rw [map_cons, cutSegments, flatten_cons, drop_left, take_left, hnext]

theorem endOffset_flatten (off : Nat) (segs : List (List UInt8)) : endOffset off (segs.map List.length) = off + segs.flatten.length := by
  induction segs generalizing off with
  | nil => rfl
  | cons s segs ih =>
    rw [map_cons, endOffset, ih, flatten_cons, length_append, Nat.add_assoc]

theorem mapM_segmentLength {segs : List (List UInt8)} (h : ∀ s ∈ segs, s.length < 2 ^ 53) :
    (lengths segs).mapM segmentLength = some (segs.map List.length) := by
  induction segs with
  | nil => rfl
  | cons s segs ih =>
    have hlen : segmentLength (.num s.length) = some s.length := by
      have hlt : ((s.length : Nat) : Rat) < 2 ^ 53 := by exact_mod_cast h s (by simp)
      have hden : ((s.length : Nat) : Rat).den = 1 := Rat.den_natCast _
      have hnum : ((s.length : Nat) : Rat).num.toNat = s.length := by rw [Rat.num_natCast, Int.toNat_natCast]
      rw [segmentLength, if_pos ⟨hden, Nat.cast_nonneg _, hlt⟩, hnum]
    have hrest := ih (fun t ht => h t (by simp [ht]))
    rw [lengths, map_cons, mapM_cons, hlen]
    rw [lengths] at hrest
    rw [hrest]
    rfl

theorem plain_lengths (hnum : nums.Exact) {segs : List (List UInt8)} (h : ∀ s ∈ segs, s.length < 2 ^ 53) :
    ∀ x ∈ lengths segs, Plain nums x := by
  intro x hx
  obtain ⟨s, hs, rfl⟩ := mem_map.mp hx
  exact .num (hnum.writes (h s hs))

/-- The segments of a payload, one after the other. -/
def Payload.rest (p : Payload) : List UInt8 := (p.segments.getD []).flatten

/-- A payload's fields are its part's and its segments' lengths. -/
theorem payload_fields (hp : p.All (values nums)) (hsegs : p.segments.isSome = true → p.part.isSome = true) {part' : Part}
    (hx : textPart nums x = some part') :
    ∃ p', payload nums (p.part.toList.map (fun _ => x) ++ (p.segments.map fun s => Json.arr (lengths s)).toList) p.rest =
        some p' ∧ p'.map (fun _ => .text []) = p.map (fun _ => .text []) := by
  obtain ⟨part, segs⟩ := p
  cases part with
  | none =>
    cases segs with
    | none => exact ⟨⟨none, none⟩, rfl, rfl⟩
    | some segs => exact absurd (hsegs rfl) Bool.false_ne_true
  | some part =>
    cases segs with
    | none =>
      refine ⟨⟨some part', none⟩, ?_, rfl⟩
      simp [payload, Payload.rest, hx]
    | some segs =>
      have hlengths := (hp.2 segs rfl).2
      have hcut := cutSegments_flatten [] segs
      have hend : endOffset 0 (segs.map length) = segs.flatten.length := by
        rw [endOffset_flatten, Nat.zero_add]
      refine ⟨⟨some part', some segs⟩, ?_, rfl⟩
      simp only [Option.toList_some, map_cons, map_nil, map_some, cons_append, nil_append,
        payload, list, bind_some, mapM_segmentLength hlengths, Payload.rest, Option.getD_some, hend, if_true, hx]
      exact congrArg (fun s => some (⟨some part', some s⟩ : Payload)) hcut

/-- A tuple that ends in a payload. -/
theorem isText_withPayload (hnum : nums.Exact) (hne : xs ≠ []) (hxs : ∀ x ∈ xs, Plain nums x)
    (hp : p.All (values nums)) (hsegs : p.segments.isSome = true → p.part.isSome = true)
    (hpts : ∀ part ∈ p.part.toList, part.IsJson nums) (ht : withPayload nums (listText nums xs) p = some t) :
    ∃ flds p', IsText nums t (.arr (xs ++ flds)) ∧ flds.length ≤ 2 ∧ payload nums flds p.rest = some p' ∧
      p'.map (fun _ => .text []) = p.map (fun _ => .text []) := by
  obtain ⟨part, segs⟩ := p
  cases part with
  | none =>
    cases segs with
    | some segs => exact absurd (hsegs rfl) Bool.false_ne_true
    | none =>
      cases ht
      refine ⟨[], ⟨none, none⟩, ?_, by simp, rfl, rfl⟩
      rw [append_nil]
      exact isText_listText hxs
  | some part =>
    obtain ⟨t', ht', hwrt⟩ := map_eq_some_iff.mp ht
    obtain ⟨x, part', hx, hread⟩ := isText_partText hnum (hpts part (by simp)) ht'
    obtain ⟨p', hp', hsame⟩ := payload_fields hp hsegs hread
    cases segs with
    | none =>
      obtain rfl := hwrt
      refine ⟨_, p', ?_, by simp, hp', hsame⟩
      have htext := dropLast_listText nums hne [t']
      rw [flatMap_singleton] at htext
      show IsText nums ((listText nums xs).dropLast ++ text "," ++ t' ++ text "]") _
      rw [append_assoc ((listText nums xs).dropLast), htext]
      exact isText_arrayText (rel_append (isText_map hxs) (.cons hx .nil))
    | some segs =>
      obtain rfl := hwrt
      refine ⟨_, p', ?_, by simp, hp', hsame⟩
      have hlist := isText_listText (plain_lengths hnum (hp.2 segs rfl).2)
      have htext := dropLast_listText nums hne [t', listText nums (lengths segs)]
      rw [flatMap_cons, flatMap_singleton, ← append_assoc, ← append_assoc, ← append_assoc] at htext
      show IsText nums ((listText nums xs).dropLast ++ text "," ++ t' ++ text "," ++ listText nums (lengths segs) ++ text "]") _
      rw [htext]
      exact isText_arrayText (rel_append (isText_map hxs) (.cons hx (.cons hlist .nil)))

/-! ## The optional fields of a hold -/

/-- A field that is left out at the end reads like a null. -/
theorem optionalField_rdropWhile (l : List Json) (i : Nat) : optionalField (l.rdropWhile (· = .null)) i = optionalField l i := by
  induction l using reverseRecOn with
  | nil => rfl
  | append_singleton l x ih =>
    by_cases hx : x = .null
    · rw [rdropWhile_concat_pos _ _ _ (by simpa using hx), ih]
      subst hx
      unfold optionalField
      rcases Nat.lt_trichotomy i l.length with hi | rfl | hi
      · rw [getElem?_append_left hi]
      · rw [getElem?_eq_none (Nat.le_refl _), getElem?_concat_length]
        rfl
      · rw [getElem?_eq_none (by omega), getElem?_eq_none (by simp; omega)]
    · rw [rdropWhile_concat_neg _ _ _ (by simpa using hx)]

theorem filter_getD {x : Option Json} (h : ∀ y, x = some y → y ≠ .null) : (some (x.getD .null)).filter (· ≠ Json.null) = x := by
  cases x with
  | none => rfl
  | some y => simp [h y rfl]

variable {h : HoldFields checked}

theorem holdOptional_plain (hflds : h.All (values nums))
    (htrace : ∀ x, trace = some x → Plain nums x) : ∀ x ∈ holdOptional h trace, Plain nums x := by
  intro x hx
  have hgetD : ∀ {y : Option Json}, (∀ z, y = some z → Plain nums z) → Plain nums (y.getD .null) := by
    intro y hy
    cases y with
    | none => exact .null
    | some z => exact hy z rfl
  have hmem := ( rdropWhile_prefix _ _).subset hx
  simp only [mem_cons, not_mem_nil, or_false] at hmem
  rcases hmem with rfl | rfl | rfl | rfl | rfl
  · exact hgetD hflds.principal
  · apply hgetD
    intro z hz
    obtain ⟨s, -, rfl⟩ := map_eq_some_iff.mp hz
    exact .str
  · apply hgetD
    intro z hz
    obtain ⟨names, -, rfl⟩ := map_eq_some_iff.mp hz
    apply Plain.arr
    intro y hy
    obtain ⟨s, -, rfl⟩ := mem_map.mp hy
    exact .str
  · apply hgetD
    intro z hz
    obtain ⟨n, hn, rfl⟩ := map_eq_some_iff.mp hz
    exact .num (hflds.limit n hn)
  · exact hgetD htrace

/-- The optional fields are read back by their places. -/
theorem optionalField_holdOptional
    (hprincipal : ∀ x, h.principal = some x → isObject x = true) (htrace : ∀ x, trace = some x → isObject x = true) :
    optionalField (holdOptional h trace) 0 = h.principal ∧ optionalField (holdOptional h trace) 1 = h.incarnation.map .str ∧
      optionalField (holdOptional h trace) 2 = (h.chain.map fun c => .arr (c.map .str)) ∧
      optionalField (holdOptional h trace) 3 = (h.limit.map fun n : Nat => Json.num n) ∧
      optionalField (holdOptional h trace) 4 = trace := by
  have hobject : ∀ x, isObject x = true → x ≠ .null := by
    rintro x hx rfl
    exact Bool.false_ne_true hx
  simp only [holdOptional, optionalField_rdropWhile]
  refine ⟨?_, ?_, ?_, ?_, ?_⟩
  · exact filter_getD fun x hx => hobject x (hprincipal x hx)
  · apply filter_getD
    intro y hy
    obtain ⟨s, -, rfl⟩ := map_eq_some_iff.mp hy
    simp
  · apply filter_getD
    intro y hy
    obtain ⟨names, -, rfl⟩ := map_eq_some_iff.mp hy
    simp
  · apply filter_getD
    intro y hy
    obtain ⟨n, -, rfl⟩ := map_eq_some_iff.mp hy
    simp
  · exact filter_getD fun x hx => hobject x (htrace x hx)

/-! ## Tuples -/

attribute [local simp] fieldsOf ownTuple Body.kind Body.map

/-- The tuple is read as the kind's fields, and as a message with this body but for what its parts hold. -/
def ReadBack (numbers : Numbers) (trace : Option Json) (body : Body checked) (t : Text) : Prop :=
  ∃ f m, IsText numbers t (.arr (.str body.kind.tag :: f)) ∧
    fieldsOf numbers body.kind f (body.segments.getD []).flatten = some m ∧ m.trace = trace ∧
    m.body.map eraseParts = (body.map uncheck).map eraseParts ∧ (body.kind ≠ .closed → m.origin = none)

theorem readBack_listText (hxs : ∀ x ∈ xs, Plain nums x) {m : Message unchecked}
    (hflds : fieldsOf nums body.kind xs (body.segments.getD []).flatten = some m) (htrace : m.trace = none := by rfl)
    (hbody : m.body.map eraseParts = (body.map uncheck).map eraseParts := by rfl)
    (horigin : body.kind ≠ .closed → m.origin = none := by exact fun _ => rfl) : ReadBack nums none body (listText nums (.str body.kind.tag :: xs)) := by
  refine ⟨xs, m, ?_, hflds, htrace, hbody, horigin⟩
  apply isText_listText
  rw [forall_mem_cons]
  exact ⟨.str, hxs⟩

theorem readBack_hold (hnum : nums.Exact)
    (hall : h.All (values nums)) (htrace : ∀ x, trace = some x → Plain nums x ∧ isObject x = true)
    (hprincipal : ∀ x, h.principal = some x → isObject x = true) (hpart : h.params.IsJson nums)
    (ht : ownTuple nums trace (.hold h) = some t) : ReadBack nums trace (.hold h) t := by
  obtain ⟨ps, hpars, rfl⟩ := map_eq_some_iff.mp ht
  obtain ⟨x, part', hx, hread⟩ := isText_partText hnum hpart hpars
  have hobject : ∀ x, trace = some x → isObject x = true := fun x hx => (htrace x hx).2
  obtain ⟨h₀, h₁, h₂, h₃, h₄⟩ := optionalField_holdOptional hprincipal hobject
  have hlen : (holdOptional h trace).length ≤ 5 := ( rdropWhile_prefix _ _).length_le
  refine ⟨.num h.hold :: .str h.type :: .num h.version :: .str h.fingerprint :: x ::
    .arr [.str h.address.kind, h.address.params] :: holdOptional h trace, ⟨none, trace, .hold
      { hold := .num h.hold, type := .str h.type, version := .num h.version, fingerprint := .str h.fingerprint
        params := part', address := ⟨.str h.address.kind, h.address.params⟩, principal := h.principal
        incarnation := h.incarnation.map .str, chain := h.chain.map fun c => .arr (c.map .str)
        limit := h.limit.map fun n : Nat => Json.num n }⟩, ?_, ?_, rfl, rfl, fun _ => rfl⟩
  · have hhead : ∀ x ∈ [Json.str (text "H"), .num h.hold, .str h.type, .num h.version, .str h.fingerprint], Plain nums x := by
      simp only [forall_mem_cons]
      exact ⟨.str, .num hall.hold, .str, .num hall.version, .str, nofun⟩
    have haddr : ∀ x ∈ [Json.str h.address.kind, h.address.params], Plain nums x := by
      simp only [forall_mem_cons]
      exact ⟨.str, hall.address, nofun⟩
    have htext := dropLast_listText nums (cons_ne_nil _ _ : [Json.str (text "H"), .num h.hold,
      .str h.type, .num h.version, .str h.fingerprint] ≠ [])
      ([ps, listText nums [.str h.address.kind, h.address.params]] ++ (holdOptional h trace).map (stringify nums))
    rw [flatMap_append, flatMap_cons, flatMap_singleton, flatMap_map] at htext
    have hrows := rel_append (isText_map hhead) (rel_append
      (Forall₂.cons hx (.cons (isText_listText haddr) .nil))
      (isText_map (holdOptional_plain hall fun x hx => (htrace x hx).1)))
    have harray := isText_arrayText hrows
    rw [← htext] at harray
    simp only [append_assoc] at harray ⊢
    exact harray
  · simp only [fieldsOf, Body.kind, hlen, if_true, pair, bind_some, hread, map_some, h₀, h₁, h₂, h₃, h₄]

theorem textPart_ne_null (h : textPart nums x = some part) : x ≠ .null := by
  rintro rfl
  exact nomatch h

theorem payload_uncheck (p : Payload) : (p.map uncheck.part).map (eraseParts (F := unchecked)).part = p.map fun _ => .text [] := by
  obtain ⟨part, segs⟩ := p
  cases part <;> rfl

theorem fieldsOf_call {id obj meth : Json} {flds : List Json} (h : flds.length ≤ 2) (rest : List UInt8) :
    fieldsOf nums .call (id :: obj :: meth :: flds) rest =
      (payload nums flds rest).map fun args => ownMessage (.call id obj meth args) := by
  rcases flds with _ | ⟨x, _ | ⟨y, _ | ⟨z, flds⟩⟩⟩
  · rfl
  · rfl
  · rfl
  · simp only [length_cons] at h
    omega

/-- A call with a trace: the payload's fields have their places. -/
theorem fieldsOf_tracedCall {id obj meth trace : Json} {part' : Part}
    (hx : textPart nums x = some part') (hsegs : p.segments.isSome = true → p.part.isSome = true) (rest : List UInt8) :
    fieldsOf nums .call [id, obj, meth, (p.part.map fun _ => x).getD .null,
        (p.segments.map fun s => Json.arr (lengths s)).getD .null, trace] rest =
      (payload nums (p.part.toList.map (fun _ => x) ++ (p.segments.map fun s => Json.arr (lengths s)).toList) rest).map
        fun args => ⟨none, some trace, .call id obj meth args⟩ := by
  obtain ⟨part, segs⟩ := p
  cases part with
  | none =>
    cases segs with
    | none => rfl
    | some segs => exact absurd (hsegs rfl) Bool.false_ne_true
  | some part =>
    have hne := textPart_ne_null hx
    cases segs with
    | none | some segs => simp [fieldsOf, hne]

theorem readBack_call (hnum : nums.Exact) {obj meth : Nat} {args : Payload}
    (hall : (Body.call id obj meth args : Body checked).All (values nums))
    (htrace : ∀ x, trace = some x → Plain nums x) (hsegs : args.segments.isSome = true → args.part.isSome = true)
    (hpts : ∀ part ∈ args.part.toList, part.IsJson nums)
    (ht : ownTuple nums trace (.call id obj meth args) = some t) : ReadBack nums trace (.call id obj meth args) t := by
  obtain ⟨hid, hobject, hmethod, hargs⟩ := hall
  have hhead : ∀ x ∈ [Json.str (text "c"), .num id, .num obj, .num meth], Plain nums x := by
    simp only [forall_mem_cons]
    exact ⟨.str, .num hid, .num hobject, .num hmethod, nofun⟩
  cases trace with
  | none =>
    obtain ⟨flds, p', htext, hlen, hp', hsame⟩ := isText_withPayload hnum (cons_ne_nil _ _) hhead hargs hsegs hpts ht
    refine ⟨.num id :: .num obj :: .num meth :: flds, ownMessage (.call (.num id) (.num obj) (.num meth) p'),
      htext, ?_, rfl, ?_, fun _ => rfl⟩
    · have hflds : fieldsOf nums .call (.num id :: .num obj :: .num meth :: flds) args.rest = _ := fieldsOf_call hlen args.rest
      rw [hp'] at hflds
      exact hflds
    · simp only [ownMessage, Body.map, payload_uncheck]
      exact congrArg _ hsame
  | some trace =>
    obtain ⟨partText', hpartText, rfl⟩ := map_eq_some_iff.mp ht
    -- The part's place holds its value, or null.
    have hpart : ∃ x part', textPart nums x = some part' ∧ IsText nums partText' ((args.part.map fun _ => x).getD .null) := by
      cases hpart : args.part with
      | none =>
        rw [hpart] at hpartText
        cases hpartText
        exact ⟨.arr [.num 0, .null], .text (stringify nums .null), by simp [textPart], isText_stringify .null⟩
      | some part =>
        rw [hpart] at hpartText hpts
        obtain ⟨x, part', hx, hread⟩ := isText_partText hnum (hpts part (by simp)) hpartText
        exact ⟨x, part', hread, hx⟩
    have hlengths : IsText nums ((args.segments.map fun segs => listText nums (lengths segs)).getD (text "null"))
        ((args.segments.map fun s => Json.arr (lengths s)).getD .null) := by
      cases hs : args.segments with
      | none => exact isText_stringify .null
      | some segs => exact isText_listText (plain_lengths hnum (hargs.2 segs hs).2)
    obtain ⟨x, part', hread, hx⟩ := hpart
    obtain ⟨p', hp', hsame⟩ := payload_fields hargs hsegs hread
    refine ⟨[.num id, .num obj, .num meth, (args.part.map fun _ => x).getD .null,
      (args.segments.map fun s => Json.arr (lengths s)).getD .null, trace],
      ⟨none, some trace, .call (.num id) (.num obj) (.num meth) p'⟩, ?_, ?_, rfl, ?_, fun _ => rfl⟩
    · have harray := isText_arrayText (rel_append (isText_map hhead)
        (.cons hx (.cons hlengths (.cons (isText_stringify (htrace trace rfl)) .nil))))
      rw [← dropLast_listText nums (cons_ne_nil _ _), flatMap_cons, flatMap_cons, flatMap_singleton] at harray
      simp only [append_assoc] at harray ⊢
      exact harray
    · have hflds : fieldsOf nums .call [.num id, .num obj, .num meth, _, _, trace] args.rest = _ :=
        fieldsOf_tracedCall hread hsegs args.rest
      rw [hp'] at hflds
      exact hflds
    · simp only [Body.map, payload_uncheck]
      exact congrArg _ hsame

theorem readBack_result (hnum : nums.Exact) {v : Payload}
    (hall : (Body.result id v : Body checked).All (values nums))
    (hsegs : v.segments.isSome = true → v.part.isSome = true)
    (hpts : ∀ part ∈ v.part.toList, part.IsJson nums)
    (ht : ownTuple nums none (.result id v) = some t) : ReadBack nums none (.result id v) t := by
  have hhead : ∀ x ∈ [Json.str (text "r"), .num id], Plain nums x := by
    simp only [forall_mem_cons]
    exact ⟨.str, .num hall.1, nofun⟩
  obtain ⟨flds, p', htext, hlen, hp', hsame⟩ := isText_withPayload hnum (cons_ne_nil _ _) hhead hall.2 hsegs hpts ht
  refine ⟨.num id :: flds, ownMessage (.result (.num id) p'), htext, ?_, rfl, ?_, fun _ => rfl⟩
  · show fieldsOf nums .result _ v.rest = _
    simp only [fieldsOf, hlen, if_true, hp', map_some]
  · simp only [ownMessage, Body.map, payload_uncheck]
    exact congrArg _ hsame

/-- A tuple of its letter and a list of entries. -/
theorem isText_entries (tag : String) (htag : stringify nums (.str (text tag)) = text "\"" ++ text tag ++ text "\"")
    (h : List.Forall₂ (IsText nums) texts xs) :
    IsText nums (text "[\"" ++ text tag ++ text "\",[" ++ join texts ++ text "]]") (.arr [.str (text tag), .arr xs]) := by
  have hrows := isText_arrayText (.cons (isText_stringify (.str : Plain nums (.str (text tag)))) (.cons (isText_arrayText h) .nil))
  rw [htag, arrayText_eq texts] at hrows
  have htext : text "[\"" ++ text tag ++ text "\",[" ++ join texts ++ text "]]" =
      arrayText [text "\"" ++ text tag ++ text "\"", text "[" ++ join texts ++ text "]"] := by
    simp [arrayText, elementsText, text, codeUnits]
  rw [htext]
  exact hrows

theorem readBack_bound (hnum : nums.Exact) {holds : List (BoundEntry checked)}
    (hall : ∀ e ∈ holds, e.All (values nums)) (hpts : ∀ e ∈ holds, ∀ m ∈ e.members, m.value.IsJson nums) {t : Text}
    (ht : ownTuple nums none (.bound holds) = some t) : ReadBack nums none (.bound holds) t := by
  obtain ⟨texts, htexts, rfl⟩ := map_eq_some_iff.mp ht
  obtain ⟨xs, holds', hxs, hread, hsame⟩ := mapM_reads (fun e he t ht => isText_boundEntry hnum (hall e he) (hpts e he) ht) htexts
  refine ⟨[.arr xs], ownMessage (.bound holds'), ?_, ?_, rfl, ?_, fun _ => rfl⟩
  · exact isText_entries "b" rfl hxs
  · simp only [fieldsOf, Body.kind, list, bind_some, hread, map_some]
  · simp only [ownMessage, Body.map, map_map]
    exact congrArg _ (map_eq_of_forall₂ hsame)

theorem readBack_state (hnum : nums.Exact) {holds : List (StateEntry checked)}
    (hall : ∀ e ∈ holds, e.All (values nums)) (hpts : ∀ e ∈ holds, ∀ m ∈ e.members, m.value.IsJson nums) {t : Text}
    (ht : ownTuple nums none (.state holds) = some t) : ReadBack nums none (.state holds) t := by
  obtain ⟨texts, htexts, rfl⟩ := map_eq_some_iff.mp ht
  obtain ⟨xs, holds', hxs, hread, hsame⟩ := mapM_reads (fun e he t ht => isText_stateEntry hnum (hall e he) (hpts e he) ht) htexts
  refine ⟨[.arr xs], ownMessage (.state holds'), ?_, ?_, rfl, ?_, fun _ => rfl⟩
  · exact isText_entries "s" rfl hxs
  · simp only [fieldsOf, Body.kind, list, bind_some, hread, map_some]
  · simp only [ownMessage, Body.map, map_map]
    exact congrArg _ (map_eq_of_forall₂ hsame)

theorem causeKind_find (kind : CauseKind) : (causeKinds.find? fun each => decide (Json.str each.tag = .str kind.tag)) = some kind := by
  cases kind <;> decide

theorem readBack_failed {cause : Cause} {retryIn : Option Nat}
    (hall : (Body.failed id cause retryIn : Body checked).All (values nums)) :
    ReadBack nums none (.failed id cause retryIn) (listText nums (.str (text "f") :: .num id :: .str cause.kind.tag ::
      cause.error :: (retryIn.map fun n : Nat => Json.num n).toList)) := by
  obtain ⟨hid, herr, hretry⟩ := hall
  have hread : fieldsOf nums .failed (.num id :: .str cause.kind.tag :: cause.error ::
      (retryIn.map fun n : Nat => Json.num n).toList) [] =
        some (ownMessage (.failed (.num id) cause (retryIn.map fun n : Nat => Json.num n))) := by
    have hlen : (retryIn.map fun n : Nat => Json.num n).toList.length ≤ 1 := by cases retryIn <;> simp
    have hhead : (retryIn.map fun n : Nat => Json.num n).toList.head? = retryIn.map fun n : Nat => Json.num n := by
      cases retryIn <;> rfl
    simp only [fieldsOf, hlen, if_true, causeKind_find, map_some, hhead]
  refine readBack_listText ?_ hread
  simp only [forall_mem_cons]
  refine ⟨.num hid, .str, herr, ?_⟩
  intro x hx
  obtain ⟨n, hn, rfl⟩ := map_eq_some_iff.mp (Option.mem_toList.mp hx)
  exact .num (hretry n hn)

/-- What makes a message's fields readable from their tuple. -/
structure Readable (numbers : Numbers) (trace : Option Json) (body : Body checked) : Prop where
  values : body.All (values numbers)
  payload : body.HasPayload
  parts : ∀ part ∈ body.parts, part.IsJson numbers
  trace : ∀ x, trace = some x → Plain numbers x ∧ body.kind.hasTrace = true ∧ isObject x = true
  principal : ∀ h x, body = .hold h → h.principal = some x → isObject x = true

/-- **The tuple of a message is the array of its fields.** -/
theorem ownTuple_reads (hnum : nums.Exact) (h : Readable nums trace body) (ht : ownTuple nums trace body = some t) :
    ReadBack nums trace body t := by
  have hnone : body.kind.hasTrace = false → trace = none := by
    intro hkind
    cases trace with
    | none => rfl
    | some x =>
      rw [(h.trace x rfl).2.1] at hkind
      exact absurd hkind.symm Bool.false_ne_true
  have hall := h.values
  have hpts := h.parts
  cases body with
  | hold flds =>
    exact readBack_hold hnum hall (fun x hx => ⟨(h.trace x hx).1, (h.trace x hx).2.2⟩)
      (fun x hx => h.principal flds x rfl hx) (hpts _ (mem_singleton_self _)) ht
  | call id obj meth args =>
    exact readBack_call hnum hall (fun x hx => (h.trace x hx).1) h.payload hpts ht
  | bound holds =>
    obtain rfl := hnone rfl
    refine readBack_bound hnum hall.2 (fun e he m hm => hpts _ ?_) ht
    exact mem_flatMap.mpr ⟨e, he, mem_map_of_mem hm⟩
  | state holds =>
    obtain rfl := hnone rfl
    refine readBack_state hnum hall.2 (fun e he m hm => hpts _ ?_) ht
    exact mem_flatMap.mpr ⟨e, he, mem_map_of_mem hm⟩
  | result id v =>
    obtain rfl := hnone rfl
    exact readBack_result hnum hall h.payload hpts ht
  | hello protocol incarnation cs =>
    obtain rfl := hnone rfl
    cases ht
    refine readBack_listText ?_ rfl
    simp only [forall_mem_cons]
    exact ⟨.num hall.1, .str, .num hall.2.2, nofun⟩
  | release id | abort id | loading id =>
    obtain rfl := hnone rfl
    cases ht
    refine readBack_listText ?_ rfl
    simp only [forall_mem_singleton]
    exact .num hall
  | failed id cause retryIn =>
    obtain rfl := hnone rfl
    cases ht
    exact readBack_failed hall
  | error id e | gone id e =>
    obtain rfl := hnone rfl
    cases ht
    refine readBack_listText ?_ rfl
    simp only [forall_mem_cons]
    exact ⟨.num hall.1, hall.2, nofun⟩
  | retry id hops =>
    obtain rfl := hnone rfl
    cases ht
    refine readBack_listText ?_ rfl
    simp only [forall_mem_cons]
    exact ⟨.num hall.1, .num hall.2, nofun⟩
  | revoke revocation =>
    obtain rfl := hnone rfl
    cases ht
    refine readBack_listText ?_ rfl
    simp only [forall_mem_singleton]
    exact hall
  | closed =>
    obtain rfl := hnone rfl
    cases ht
    exact readBack_listText nofun rfl rfl rfl fun hne => absurd rfl hne
  | ack | ping | pong =>
    obtain rfl := hnone rfl
    cases ht
    exact readBack_listText nofun rfl

/-! ## Messages -/

theorem listText_getLast (xs : List Json) : (listText nums xs).getLast? = some 93 := by
  rw [listText_eq, arrayText_eq]
  exact getLast?_concat

/-- A tuple ends with its bracket. -/
theorem ownTuple_getLast (ht : ownTuple nums trace body = some t) : t.getLast? = some 93 := by
  have hclose : ∀ s : Text, (s ++ text "]").getLast? = some 93 := fun s => getLast?_concat
  have hpayload : ∀ {xs : List Json} {p : Payload} {t : Text}, withPayload nums (listText nums xs) p = some t →
      t.getLast? = some 93 := by
    rintro xs ⟨part, segs⟩ t ht
    cases part with
    | none =>
      cases ht
      exact listText_getLast xs
    | some part =>
      obtain ⟨t', -, rfl⟩ := map_eq_some_iff.mp ht
      cases segs with
      | none => exact hclose _
      | some segs => exact hclose _
  cases body with
  | hold flds =>
    obtain ⟨ps, -, rfl⟩ := map_eq_some_iff.mp ht
    exact hclose _
  | call id obj meth args =>
    cases trace with
    | none => exact hpayload ht
    | some trace =>
      obtain ⟨part, -, rfl⟩ := map_eq_some_iff.mp ht
      exact hclose _
  | bound holds | state holds =>
    obtain ⟨texts, -, rfl⟩ := map_eq_some_iff.mp ht
    rw [getLast?_append]
    rfl
  | result id v => exact hpayload ht
  | hello | release | abort | failed | error | gone | retry | loading | revoke | closed | ack | ping | pong =>
    cases ht
    exact listText_getLast _

/-- A value ends before a newline only where nothing but white space follows. -/
theorem parse_none_of_newline {s bef aft : Text} (hs : Reads nums s x) (hlast : s.getLast? = some 93)
    (h : s = bef ++ 10 :: aft) : parse nums bef = none := by
  cases hparse : parse nums bef with
  | none => rfl
  | some y =>
    obtain ⟨space, hspace, hread⟩ := hs
    obtain ⟨space', -, hread'⟩ := reads_of_parse hparse
    have hends : Ends (10 :: aft) := ends_cons (by decide) (by decide) (by decide)
    have hlen : 2 * bef.length < 2 * s.length + 1 := by
      rw [h, length_append]
      omega
    -- Both read the whole text, and the first of them stops before the newline.
    have hwhole := hread [] ends_nil (2 * s.length + 1) (Nat.lt_succ_self _)
    have hbegins := hread' (10 :: aft) hends (2 * s.length + 1) hlen
    rw [← h] at hbegins
    rw [append_nil, append_nil, hbegins] at hwhole
    obtain rfl := (Prod.mk.inj (Option.some.inj hwhole)).2
    rw [h, getLast?_append, getLast?_cons, Option.some_or] at hlast
    have hmem : (93 : UInt16) ∈ space' ++ 10 :: aft := by
      apply mem_append_right
      apply mem_of_getLast?
      rw [getLast?_cons]
      exact hlast
    exact absurd (hspace 93 hmem) (by decide)

theorem fromFields_tag {kind : Kind} {rest : List UInt8} (hrest : kind ≠ .call → kind ≠ .result → rest = [])
    (f : List Json) : fromFields nums (.str kind.tag) f rest = fieldsOf nums kind f rest := by
  have hfind : (kinds.find? fun each => decide (Json.str each.tag = .str kind.tag)) = some kind := by
    cases kind <;> decide
  have hchecked : ¬(Json.str kind.tag ≠ .str (text "c") ∧ Json.str kind.tag ≠ .str (text "r") ∧ ¬rest.isEmpty = true) := by
    rintro ⟨hcall, hres, hne⟩
    have hemp := hrest (by rintro rfl; exact hcall rfl) (by rintro rfl; exact hres rfl)
    exact hne (by rw [hemp]; rfl)
  rw [fromFields, if_neg hchecked, hfind, bind_some]

theorem decodeText_encodeUtf8 (ht : WellFormed t) (hnewline : 10 ∉ t) {flds : List Json}
    (hparse : parse nums t = some (.arr flds)) : decodeText nums (encodeUtf8 t) = fromTuple nums flds [] := by
  obtain ⟨cs, rfl⟩ := ht
  rw [encodeUtf8, chars_utf16, decodeText, parseJson]
  rcases takeWhile_utf8 cs [] with ⟨-, htake, hdrop⟩ | ⟨bef, aft, rfl, -⟩
  · rw [append_nil] at htake hdrop
    rw [htake, hdrop, takeWhile_nil, append_nil, decodeUtf8_utf8, bind_some, hparse, bind_some]
    rfl
  · rw [utf16_append] at hnewline
    exact absurd (mem_append_right _ (mem_cons_self)) hnewline

theorem body_rest : body.kind ≠ .call → body.kind ≠ .result → (body.segments.getD []).flatten = [] := by
  cases body with
  | call => exact fun h => absurd rfl h
  | result => exact fun _ h => absurd rfl h
  | hello | hold | release | abort | bound | state | failed | error | gone | retry | loading | revoke | closed | ack | ping
  | pong => exact fun _ _ => rfl

/-- The tuple of a message, with its origin, is read back. -/
theorem tuple_reads (hnum : nums.Exact) {m : Message checked} (htyp : m.Typed) (hvals : m.All (values nums))
    (hpayload : m.body.HasPayload) (hpts : ∀ part ∈ m.body.parts, part.IsJson nums) (ht : tuple nums m = some t) :
    ∃ flds m', IsText nums t (.arr flds) ∧ t.getLast? = some 93 ∧
      fromTuple nums flds (m.body.segments.getD []).flatten = some m' ∧ m'.header = (m.map uncheck).header := by
  obtain ⟨org, trace, body⟩ := m
  have hreadable : Readable nums trace body :=
    ⟨hvals.body, hpayload, hpts, fun x hx => ⟨hvals.trace x hx, htyp.trace x hx⟩, htyp.principal⟩
  have htag : Json.str body.kind.tag ≠ .str (text "@") := by
    cases body.kind <;> decide
  cases org with
  | none =>
    obtain ⟨f, m', htext, hflds, htrace, hbody, horigin⟩ := ownTuple_reads hnum hreadable ht
    have hopen : body.kind ≠ .closed := fun hclo => Bool.false_ne_true (htyp.closed hclo)
    refine ⟨_, m', htext, ownTuple_getLast ht, ?_, ?_⟩
    · simp only [fromTuple, htag, if_false]
      rw [fromFields_tag body_rest]
      exact hflds
    · obtain ⟨org', trace', body'⟩ := m'
      obtain rfl := htrace
      obtain rfl := horigin hopen
      exact congrArg (Message.mk none _) hbody
  | some org =>
    obtain ⟨own, hown, rfl⟩ := map_eq_some_iff.mp ht
    obtain ⟨f, m', htext, hflds, htrace, hbody, -⟩ := ownTuple_reads hnum hreadable hown
    refine ⟨[.str (text "@"), .num org, .arr (.str body.kind.tag :: f)], { m' with origin := some (.num org) }, ?_, getLast?_concat, ?_, ?_⟩
    · have htuple : text "[\"@\"," ++ numText nums org ++ text "," ++ own ++ text "]" =
          arrayText [stringify nums (.str (text "@")), numText nums org, own] := by
        show _ = arrayText [text "\"@\"", numText nums org, own]
        simp [arrayText, elementsText, text, codeUnits]
      rw [htuple]
      exact isText_arrayText (.cons (isText_stringify .str) (.cons (isText_numText (hvals.origin org rfl))
        (.cons htext .nil)))
    · simp only [fromTuple, htag, if_true, if_false]
      rw [fromFields_tag body_rest, hflds, map_some]
    · obtain ⟨org', trace', body'⟩ := m'
      obtain rfl := htrace
      exact congrArg (Message.mk (some (Json.num org)) _) hbody

variable {numbers : Numbers}

/-- **A part's text cannot change a message.** Where every plain part is one JSON text, the message that is read has
the header of the one that was written. -/
theorem text_keeps_header (hnumbers : numbers.Exact) {m : Message checked} (htyped : m.Typed)
    (hvalues : m.All (values numbers)) (hpayload : m.body.HasPayload) (hparts : ∀ part ∈ m.body.parts, part.IsJson numbers)
    {bytes : List UInt8} (hencode : encodeText numbers m = some bytes) {m' : Message unchecked}
    (hdecode : decodeText numbers bytes = some m') : m'.header = (m.map uncheck).header := by
  obtain ⟨t, ht, hbytes⟩ := Option.map_eq_some_iff.mp hencode
  obtain ⟨fields, m'', htext, hlast, hread, hheader⟩ := tuple_reads hnumbers htyped hvalues hpayload hparts ht
  obtain ⟨cs, rfl⟩ := htext.wellFormed
  rw [encodeUtf8, chars_utf16] at hbytes
  have htail : ∃ tail, (tail = [] ∨ ∃ rest, tail = 10 :: rest) ∧ tail.drop 1 = (m.body.segments.getD []).flatten ∧
      bytes = utf8 cs ++ tail := by
    cases hsegments : m.body.segments with
    | none =>
      rw [hsegments] at hbytes
      exact ⟨[], Or.inl rfl, rfl, hbytes.symm.trans (append_nil _).symm⟩
    | some segments =>
      rw [hsegments] at hbytes
      exact ⟨10 :: segments.flatten, Or.inr ⟨_, rfl⟩, rfl, hbytes.symm⟩
  obtain ⟨tail, hshape, hrest, rfl⟩ := htail
  unfold decodeText parseJson at hdecode
  rcases takeWhile_utf8 cs tail with ⟨-, htake, hdrop⟩ | ⟨before, after, hcs, htake⟩
  · have htake' : tail.takeWhile (· ≠ 10) = [] := by
      rcases hshape with rfl | ⟨rest, rfl⟩ <;> rfl
    have hdrop' : tail.dropWhile (· ≠ 10) = tail := by
      rcases hshape with rfl | ⟨rest, rfl⟩ <;> rfl
    rw [htake, hdrop, htake', hdrop', append_nil, decodeUtf8_utf8, Option.bind_some, parse_of_reads htext.reads,
      Option.bind_some] at hdecode
    dsimp only at hdecode
    rw [hrest, hread] at hdecode
    rw [← Option.some.inj hdecode]
    exact hheader
  · -- The newline is in a part, and what stands before it is no value.
    have hsplit : utf16 cs = utf16 before ++ 10 :: utf16 after := by
      rw [hcs, utf16_append]
      rfl
    rw [htake, decodeUtf8_utf8, Option.bind_some, parse_none_of_newline htext.reads hlast hsplit, Option.bind_none] at hdecode
    cases hdecode

theorem plain_cons (h : Plain nums x) (hs : ∀ y ∈ xs, Plain nums y) : ∀ y ∈ x :: xs, Plain nums y := forall_mem_cons.2 ⟨h, hs⟩

/-- What was written is read. -/
theorem parse_written (h : Plain nums x) (ht : stringify nums x = t) : parse nums t = some x := ht ▸ parse_stringify h

/-- The result of a call, as it is forwarded. -/
def forwardedResult : Message checked := ⟨none, none, .result 3 ⟨some (.bytes (encodeUtf8 (text "[1]"))), none⟩⟩

theorem text_keeps_header_result : (⟨none, none, .result (.num 3) ⟨some (.text (text "[1]")), none⟩⟩ : Message unchecked).header =
      (forwardedResult.map uncheck).header := by
  have hbytes : decodeUtf8 (encodeUtf8 (text "[1]")) = some (text "[1]") := decodeUtf8_encodeUtf8 (IsAscii.wellFormed (by decide))
  have hpart : partText (.bytes (encodeUtf8 (text "[1]"))) = some (text "[0,[1]]") := by
    rw [partText, hbytes]
    decide
  have htuple : tuple decimalNumbers forwardedResult = some (text "[\"r\",3,[0,[1]]]") := by
    simp only [tuple, forwardedResult, ownTuple, withPayload, hpart]
    decide
  have hencode : encodeText decimalNumbers forwardedResult = some (encodeUtf8 (text "[\"r\",3,[0,[1]]]")) := by
    rw [encodeText, htuple]
    rfl
  have hparse : parse decimalNumbers (text "[\"r\",3,[0,[1]]]") = some (.arr [.str (text "r"), .num 3, .arr [.num 0, .arr [.num 1]]]) := by
    apply parse_written _ (by decide)
    repeat' first
      | exact forall_mem_nil _
      | exact .str
      | exact .num (decimalNumbers_exact.writes (by decide))
      | apply Plain.arr
      | apply plain_cons
  have hdecode : decodeText decimalNumbers (encodeUtf8 (text "[\"r\",3,[0,[1]]]")) =
      some ⟨none, none, .result (.num 3) ⟨some (.text (text "[1]")), none⟩⟩ := by
    rw [decodeText_encodeUtf8 (IsAscii.wellFormed (by decide)) (by decide) hparse]
    rfl
  have htyped : forwardedResult.Typed := by
    constructor <;> simp [forwardedResult, Body.kind]
  have hvalues : forwardedResult.All (values decimalNumbers) := by
    constructor
    · simp [forwardedResult]
    · simp [forwardedResult]
    · exact ⟨decimalNumbers_exact.writes (by decide), fun _ _ => trivial, by simp⟩
  have hparts : ∀ part ∈ forwardedResult.body.parts, part.IsJson decimalNumbers := by
    intro part hpart s hs
    rw [mem_singleton.mp hpart, Part.json?, hbytes] at hs
    cases hs
    exact ⟨IsAscii.wellFormed (by decide), by decide⟩
  exact text_keeps_header decimalNumbers_exact htyped hvalues (fun h => absurd h Bool.false_ne_true) hparts hencode hdecode

/-- **A message arrives** with its header, unless a part of it breaks the line. -/
theorem text_arrives (hnumbers : numbers.Exact) {m : Message checked} (htyped : m.Typed)
    (hvalues : m.All (values numbers)) (hpayload : m.body.HasPayload) (hparts : ∀ part ∈ m.body.parts, part.IsJson numbers)
    {t : Text} (ht : tuple numbers m = some t) : ∃ bytes, encodeText numbers m = some bytes ∧
      if Char.ofNat 10 ∈ chars t then decodeText numbers bytes = none
      else ∃ m', decodeText numbers bytes = some m' ∧ m'.header = (m.map uncheck).header := by
  obtain ⟨fields, m', htext, hlast, hread, hheader⟩ := tuple_reads hnumbers htyped hvalues hpayload hparts ht
  obtain ⟨cs, rfl⟩ := htext.wellFormed
  obtain ⟨tail, hbytes, hnone, hrest⟩ : ∃ tail, encodeText numbers m = some (utf8 cs ++ tail) ∧ tail.takeWhile (· ≠ 10) = [] ∧
      (tail.dropWhile (· ≠ 10)).drop 1 = (m.body.segments.getD []).flatten := by
    rw [encodeText, ht, Option.map_some, encodeUtf8, chars_utf16]
    cases m.body.segments with
    | none => exact ⟨[], by rw [append_nil], rfl, rfl⟩
    | some segments => exact ⟨10 :: segments.flatten, rfl, rfl, rfl⟩
  refine ⟨_, hbytes, ?_⟩
  rw [chars_utf16]
  unfold decodeText parseJson
  rcases takeWhile_utf8 cs tail with ⟨hnot, htake, hdrop⟩ | ⟨before, after, rfl, htake⟩
  · rw [if_neg hnot, htake, hdrop, hnone, append_nil, decodeUtf8_utf8, Option.bind_some, parse_of_reads htext.reads, Option.bind_some]
    dsimp only
    rw [hrest]
    exact ⟨m', hread, hheader⟩
  · have hsplit : utf16 (before ++ Char.ofNat 10 :: after) = utf16 before ++ 10 :: utf16 after := utf16_append ..
    rw [if_pos (mem_append_right _ mem_cons_self), htake, decodeUtf8_utf8, Option.bind_some,
      parse_none_of_newline htext.reads hlast hsplit, Option.bind_none]

theorem text_arrives_release : ∃ bytes, encodeText decimalNumbers ⟨none, none, .release 3⟩ = some bytes ∧
    ∃ m', decodeText decimalNumbers bytes = some m' ∧ m'.header = ((⟨none, none, .release 3⟩ : Message checked).map uncheck).header := by
  obtain ⟨bytes, hencode, hread⟩ := @text_arrives decimalNumbers decimalNumbers_exact ⟨none, none, .release 3⟩ ⟨nofun, nofun, nofun, nofun⟩
    ⟨nofun, nofun, decimalNumbers_exact.writes (by decide)⟩ trivial nofun (text "[\"R\",3]") (by decide)
  rw [if_neg (by decide)] at hread
  exact ⟨bytes, hencode, hread⟩

/-! ## A part that is no JSON text -/

/-- Operations that end their own entry and begin one of another hold. -/
def forgedOps : Text := text "[]]]]],[2,[[0,[0,[]"

/-- A state of hold 1, as it is forwarded. -/
def forgedState : Message checked := ⟨none, none, .state [⟨1, [⟨0, .bytes (encodeUtf8 forgedOps)⟩], [], []⟩]⟩

/-- The tuple of `forgedState` has two entries. -/
theorem forgedState_tuple : tuple decimalNumbers forgedState = some (text "[\"s\",[[1,[[0,[0,[]]]]],[2,[[0,[0,[]]]]]]]") := by
  have hops : decodeUtf8 (encodeUtf8 forgedOps) = some forgedOps := decodeUtf8_encodeUtf8 (IsAscii.wellFormed (by decide))
  have hpart : partText (.bytes (encodeUtf8 forgedOps)) = some (text "[0," ++ forgedOps ++ text "]") := by
    rw [partText, hops, map_some]
  have hpairs : pairsText decimalNumbers [⟨0, .bytes (encodeUtf8 forgedOps)⟩] =
      some (text "[0," ++ (text "[0," ++ forgedOps ++ text "]") ++ text "]") := by
    simp only [pairsText, mapM_cons, mapM_nil, hpart]
    decide
  simp only [tuple, forgedState, ownTuple, mapM_cons, mapM_nil, stateEntry, hpairs]
  decide

/-- **The code breaks the claim**: the state that is read has an entry for hold 2, which only the part's text made. -/
theorem text_part_forges : ∃ numbers : Numbers, numbers.Exact ∧ ∃ m : Message checked, m.Accepted ∧ m.All (values numbers) ∧
    m.body.HasPayload ∧ ∃ bytes m', encodeText numbers m = some bytes ∧ decodeText numbers bytes = some m' ∧
      m'.header ≠ (m.map uncheck).header := by
  have hencode : encodeText decimalNumbers forgedState = some (encodeUtf8 (text "[\"s\",[[1,[[0,[0,[]]]]],[2,[[0,[0,[]]]]]]]")) := by
    rw [encodeText, forgedState_tuple]
    rfl
  have hparse : parse decimalNumbers (text "[\"s\",[[1,[[0,[0,[]]]]],[2,[[0,[0,[]]]]]]]") = some (.arr [.str (text "s"),
      .arr [.arr [.num 1, .arr [.arr [.num 0, .arr [.num 0, .arr []]]]],
        .arr [.num 2, .arr [.arr [.num 0, .arr [.num 0, .arr []]]]]]]) := by
    apply parse_written _ (by decide)
    repeat' first
      | exact forall_mem_nil _
      | exact .str
      | exact .num (decimalNumbers_exact.writes (by decide))
      | apply Plain.arr
      | apply plain_cons
  have hentry : StateEntry.All (values decimalNumbers) ⟨1, [⟨0, .bytes (encodeUtf8 forgedOps)⟩], [], []⟩ := by
    refine ⟨decimalNumbers_exact.writes (by decide), ⟨trivial, ?_⟩, ⟨trivial, by simp⟩, trivial, by simp⟩
    intro m hm
    rw [mem_singleton.mp hm]
    exact ⟨decimalNumbers_exact.writes (by decide), trivial⟩
  refine ⟨decimalNumbers, decimalNumbers_exact, forgedState, ?_, ?_, trivial, _, ⟨none, none, .state
    [⟨.num 1, [⟨.num 0, .text (text "[]")⟩], [], []⟩, ⟨.num 2, [⟨.num 0, .text (text "[]")⟩], [], []⟩]⟩, hencode, ?_, ?_⟩
  · refine ⟨?_, ?_, by simp [forgedState], by simp [forgedState]⟩
    · constructor <;> simp [forgedState, Body.kind]
    · intro e he
      rw [mem_singleton.mp he]
      exact nofun
  · refine ⟨by simp [forgedState], by simp [forgedState], trivial, ?_⟩
    intro e he
    rw [mem_singleton.mp he]
    exact hentry
  · rw [decodeText_encodeUtf8 (IsAscii.wellFormed (by decide)) (by decide) hparse]
    rfl
  · intro h
    injection h with _ _ hbody
    injection hbody with hholds
    exact absurd (congrArg length hholds) (by decide)

end PiBridge.Chord.Link
