import PiBridge.Chord.Link.Binary

/-!
# `Chord.Correctness.BinaryRoundTrip` — a message is read as it was written

Every operation of the writer appends bytes that its reader takes back (`Writes`), and the two compose in the same
order, so the layouts are followed field by field. A text takes the same bytes however the buffer grows under it
(`Writer.text_bytes`). The result is `binary_round_trip`.
-/

namespace PiBridge.Chord.Link

open Lib Binary Option Bool Writer Nat
open List (append_nil length_append length_cons append_assoc)

attribute [local simp] varintBytes paddedVarint encodeInto chars isHexGroups

/-! ## Varints -/

variable {n left value scale : Nat}

theorem toNat_ofNat (h : n < 256) : (UInt8.ofNat n).toNat = n := UInt8.toNat_ofNat_of_lt' h

/-- The low seven bits, and the others. -/
theorem varint_split (value scale n : Nat) : value + n % 0x80 * scale + n / 0x80 * (scale * 0x80) = value + n * scale := by
  have hn : n % 0x80 + 0x80 * (n / 0x80) = n := mod_add_div n 0x80
  calc value + n % 0x80 * scale + n / 0x80 * (scale * 0x80)
      = value + (n % 0x80 + 0x80 * (n / 0x80)) * scale := by ring
    _ = value + n * scale := by rw [hn]

theorem div_lt_pow {k : Nat} (h : n < 0x80 ^ (k + 1 + 1)) : n / 0x80 < 0x80 ^ (k + 1) := by
  rw [div_lt_iff_lt_mul (by decide), ← pow_succ]
  exact h

/-- The byte at the head of a varint: it ends it, or the rest has the value divided. -/
theorem decodes_varintByte {b : UInt8} {w : List UInt8} (hb : b.toNat % 0x80 = n % 0x80)
    (hle : value + n * scale ≤ maxSafeInteger) (hlast : b.toNat < 0x80 → n < 0x80 ∧ w = [])
    (hmore : 0x80 ≤ b.toNat → Decodes (readVarintFrom left (value + n % 0x80 * scale) (scale * 0x80)) w
      (value + n % 0x80 * scale + n / 0x80 * (scale * 0x80))) :
    Decodes (readVarintFrom (left + 1) value scale) (b :: w) (value + n * scale) := by
  have hsplit := varint_split value scale n
  show Decodes (Reader.byte >>= fun byte =>
    if value + byte.toNat % 0x80 * scale > maxSafeInteger then Reader.fail
    else if byte.toNat < 0x80 then pure (value + byte.toNat % 0x80 * scale)
    else readVarintFrom left (value + byte.toNat % 0x80 * scale) (scale * 0x80)) ([b] ++ w) _
  apply (Decodes.byte b).bind
  rw [hb, if_neg (by omega)]
  by_cases hsmall : b.toNat < 0x80
  · obtain ⟨hn, rfl⟩ := hlast hsmall
    rw [if_pos hsmall, mod_eq_of_lt hn]
    exact Decodes.pure _
  · rw [if_neg hsmall, ← hsplit]
    exact hmore (by omega)

theorem decodes_varintBytes (hn : n < 0x80 ^ (left + 1)) (hle : value + n * scale ≤ maxSafeInteger) :
    Decodes (readVarintFrom (left + 1) value scale) (varintBytes n) (value + n * scale) := by
  induction left generalizing n value scale with
  | zero =>
    have hsmall : n < 0x80 := by simpa using hn
    have htoNat := toNat_ofNat (n := n) (by omega)
    rw [varintBytes, if_pos hsmall]
    exact decodes_varintByte (by rw [htoNat]) hle (fun _ => ⟨hsmall, rfl⟩) (fun hbig => by omega)
  | succ left ih =>
    rw [varintBytes]
    split
    · rename_i hsmall
      have htoNat := toNat_ofNat (n := n) (by omega)
      exact decodes_varintByte (by rw [htoNat]) hle (fun _ => ⟨hsmall, rfl⟩) (fun hbig => by omega)
    · have htoNat := toNat_ofNat (n := n % 0x80 + 0x80) (by omega)
      have hrest := (varint_split value scale n).trans_le hle
      exact decodes_varintByte (by rw [htoNat]; omega) hle (fun hsmall => by omega) (fun _ => ih (div_lt_pow hn) hrest)

/-- A padded varint is read like one that is as short as can be. -/
theorem decodes_paddedVarint {k : Nat} (hk : k ≤ left) (hn : n < 0x80 ^ (k + 1)) (hle : value + n * scale ≤ maxSafeInteger) :
    Decodes (readVarintFrom (left + 1) value scale) (paddedVarint (k + 1) n) (value + n * scale) := by
  induction k generalizing left n value scale with
  | zero =>
    have hsmall : n < 0x80 := by simpa using hn
    have htoNat := toNat_ofNat (n := n) (by omega)
    rw [paddedVarint, mod_eq_of_lt hsmall]
    exact decodes_varintByte (by rw [htoNat]) hle (fun _ => ⟨hsmall, rfl⟩) (fun hbig => by omega)
  | succ k ih =>
    obtain ⟨left, rfl⟩ : ∃ left', left = left' + 1 := ⟨left - 1, by omega⟩
    have htoNat := toNat_ofNat (n := n % 0x80 + 0x80) (by omega)
    have hrest := (varint_split value scale n).trans_le hle
    exact decodes_varintByte (by rw [htoNat]; omega) hle (fun hsmall => by omega)
      (fun _ => ih (by omega) (div_lt_pow hn) hrest)

theorem decodes_varint (h : n ≤ maxSafeInteger) : Decodes readVarint (varintBytes n) n := by
  have hn : n < 0x80 ^ (7 + 1) := by
    unfold maxSafeInteger at h
    omega
  have hread : Decodes readVarint (varintBytes n) (0 + n * 1) := decodes_varintBytes hn (by omega)
  rwa [zero_add, mul_one] at hread

theorem decodes_padded (h : n < 0x80 ^ 5) : Decodes readVarint (paddedVarint lengthSlot n) n := by
  have hle : 0 + n * 1 ≤ maxSafeInteger := by
    unfold maxSafeInteger
    omega
  have hread : Decodes readVarint (paddedVarint lengthSlot n) (0 + n * 1) := decodes_paddedVarint (by decide) h hle
  rwa [zero_add, mul_one] at hread

/-! ## Encoding in place -/

theorem length_utf8EncodeChar_le (c : Char) : (String.utf8EncodeChar c).length ≤ 4 := by
  rw [String.length_utf8EncodeChar]
  exact Char.utf8Size_le_four c

/-- A unit that is in no pair takes three bytes at most. -/
theorem length_unitChar_le (c : UInt16) : (String.utf8EncodeChar (unitChar c)).length ≤ 3 := by
  have hofNat : ∀ n, n ≤ 0xffff → (Char.ofNat n).val.toNat ≤ 0xffff := by
    intro n hn
    by_cases hvald : n.isValidChar
    · have htoNat : (Char.ofNat n).val.toNat = n := by
        rw [Char.ofNat, dif_pos hvald]
        exact toNat_ofNatAux hvald
      omega
    · rw [Char.ofNat, dif_neg hvald]
      decide
  have hunit : (unitChar c).val.toNat ≤ 0xffff := by
    unfold unitChar
    split
    · exact hofNat _ (by decide)
    · have hlt := c.toNat_lt
      exact hofNat _ (by omega)
  unfold String.utf8EncodeChar
  dsimp only
  split
  · exact le_of_ble_eq_true rfl
  split
  · exact le_of_ble_eq_true rfl
  · exact le_refl _

theorem encodeUtf8_pair {c d : UInt16} (h : (isHighSurrogate c && isLowSurrogate d) = true) (s : Text) :
    encodeUtf8 (c :: d :: s) = String.utf8EncodeChar (pairChar c d) ++ encodeUtf8 s := by
  rw [encodeUtf8, chars, if_pos h]
  rfl

theorem encodeUtf8_unit {c d : UInt16} (h : ¬(isHighSurrogate c && isLowSurrogate d) = true) (s : Text) :
    encodeUtf8 (c :: d :: s) = String.utf8EncodeChar (unitChar c) ++ encodeUtf8 (d :: s) := by
  rw [encodeUtf8, chars, if_neg h]
  rfl

theorem encodeUtf8_singleton (c : UInt16) : encodeUtf8 [c] = String.utf8EncodeChar (unitChar c) := append_nil _

theorem length_encodeUtf8_le (s : Text) : (encodeUtf8 s).length ≤ 3 * s.length := by
  induction s using chars.induct with
  | case1 => exact le_refl _
  | case2 c =>
    rw [encodeUtf8_singleton]
    exact length_unitChar_le c
  | case3 c d s h ih =>
    have hpair := length_utf8EncodeChar_le (pairChar c d)
    rw [encodeUtf8_pair h, length_append]
    simp only [length_cons]
    omega
  | case4 c d s h ih =>
    have hunit := length_unitChar_le c
    rw [encodeUtf8_unit h, length_append]
    simp only [length_cons] at ih ⊢
    omega

/-- What was read of the text and what was written of its bytes belong together. -/
theorem encodeInto_spec (s : Text) (room : Nat) : (encodeInto s room).1 ≤ s.length ∧
    encodeUtf8 s = (encodeInto s room).2 ++ encodeUtf8 (s.drop (encodeInto s room).1) := by
  fun_induction encodeInto s room with
  | case1 room => exact ⟨le_refl _, rfl⟩
  | case2 c room b hroom => exact ⟨le_refl _, rfl⟩
  | case3 c room b hroom | case5 room c d s hpair b hroom | case7 room c d s hpair b hroom => exact ⟨zero_le _, rfl⟩
  | case4 room c d s hpair b hroom read wrtn heq ih =>
    rw [heq] at ih
    refine ⟨by simpa using ih.1, ?_⟩
    rw [encodeUtf8_pair hpair, ih.2, append_assoc]
    rfl
  | case6 room c d s hpair b hroom read wrtn heq ih =>
    rw [heq] at ih
    refine ⟨by simpa using ih.1, ?_⟩
    rw [encodeUtf8_unit hpair, ih.2, append_assoc]
    rfl

/-- With room for it, the whole text is written. -/
theorem encodeInto_all {s : Text} {room : Nat} (h : (encodeUtf8 s).length ≤ room) : encodeInto s room = (s.length, encodeUtf8 s) := by
  induction s using chars.induct generalizing room with
  | case1 => rfl
  | case2 c =>
    rw [encodeUtf8_singleton] at h
    rw [encodeInto, if_pos h, encodeUtf8_singleton]
    rfl
  | case3 c d s hpair ih =>
    rw [encodeUtf8_pair hpair, length_append] at h
    rw [encodeInto, if_pos hpair, if_pos (by omega), ih (by omega), encodeUtf8_pair hpair]
    rfl
  | case4 c d s hpair ih =>
    rw [encodeUtf8_unit hpair, length_append] at h
    rw [encodeInto, if_neg hpair, if_pos (by omega), ih (by omega), encodeUtf8_unit hpair]
    rfl

/-- With room for a character, one is read. -/
theorem encodeInto_pos {s : Text} {room : Nat} (hs : s ≠ []) (hroom : 4 ≤ room) : 0 < (encodeInto s room).1 := by
  have hfits : ∀ c : Char, (String.utf8EncodeChar c).length ≤ room := fun c => le_trans (length_utf8EncodeChar_le c) hroom
  fun_cases encodeInto s room with
  | case1 => exact absurd rfl hs
  | case2 c => exact zero_lt_one
  | case3 | case5 | case7 =>
    rename_i hsmall
    exact absurd (hfits _) hsmall
  | case4 | case6 => exact succ_pos _

/-! ## The buffer -/

namespace Writer

variable (w : Writer)

@[simp] theorem bytes_append (bs : List UInt8) : (w.append bs).bytes = w.bytes ++ bs := rfl

@[simp] theorem bytes_reserve (n : Nat) : (w.reserve n).bytes = w.bytes := by
  unfold reserve
  split <;> rfl

/-- After `reserve` there is room. -/
theorem room_reserve (n : Nat) : n ≤ (w.reserve n).capacity - (w.reserve n).bytes.length := by
  unfold reserve
  split
  · omega
  · have hmax := le_max_right (w.capacity * 2) (w.bytes.length + n + spare)
    dsimp only
    omega

/-- The loop writes the whole text, however the buffer grows. -/
theorem bytes_encodeText {fuel : Nat} {s : Text} {w : Writer} (hfuel : s.length ≤ fuel)
    (hroom : s ≠ [] → 4 ≤ w.capacity - w.bytes.length) : (encodeText fuel s w).bytes = w.bytes ++ encodeUtf8 s := by
  induction fuel generalizing s w with
  | zero =>
    obtain rfl := List.length_eq_zero_iff.mp (le_zero.mp hfuel)
    exact (append_nil _).symm
  | succ fuel ih =>
    cases s with
    | nil => exact (append_nil _).symm
    | cons c s =>
      obtain ⟨hread, hwrt⟩ := encodeInto_spec (c :: s) (w.capacity - w.bytes.length)
      have hpos := encodeInto_pos (List.cons_ne_nil c s) (hroom (List.cons_ne_nil c s))
      have hlen : ((c :: s).drop (encodeInto (c :: s) (w.capacity - w.bytes.length)).1).length ≤ fuel := by
        rw [List.length_drop]
        omega
      rw [encodeText]
      rw [ih hlen]
      · split
        · rw [bytes_append, append_assoc, ← hwrt]
        · rw [bytes_reserve, bytes_append, append_assoc, ← hwrt]
      · intro hrest
        rw [if_neg (by simpa using hrest)]
        exact le_trans (le_max_right _ _) (room_reserve _ _)

/-- A text stands behind its length, in as many bytes as it has. -/
theorem text_bytes {s : Text} {scale : Nat} (hscale : scale = 1 ∨ scale = 2) (hlen : s.length < 2 ^ 32) :
    ∃ p, Decodes Binary.readVarint p ((encodeUtf8 s).length * scale) ∧
      ∀ w : Writer, (w.text s scale).bytes = w.bytes ++ (p ++ encodeUtf8 s) := by
  have hbytes := length_encodeUtf8_le s
  by_cases hshort : s.length ≤ shortText / scale
  · -- At most 126 bytes: the length is one of them.
    have hsmall : (encodeUtf8 s).length * scale < 0x80 := by
      unfold shortText at hshort
      rcases hscale with rfl | rfl
      · omega
      · omega
    refine ⟨varintBytes ((encodeUtf8 s).length * scale), decodes_varint (by unfold maxSafeInteger; omega), ?_⟩
    intro w
    have hroom := room_reserve w (1 + s.length * 3)
    have hall : encodeInto s ((w.reserve (1 + s.length * 3)).capacity - ((w.reserve (1 + s.length * 3)).bytes.length + 1)) =
        (s.length, encodeUtf8 s) := encodeInto_all (by omega)
    rw [text, if_pos hshort]
    dsimp only
    rw [hall, bytes_append, bytes_reserve, varintBytes, if_pos hsmall]
    rfl
  · by_cases hmedium : s.length < longText
    · have hle : (encodeUtf8 s).length * scale ≤ maxSafeInteger := by
        unfold maxSafeInteger
        rcases hscale with rfl | rfl
        · omega
        · omega
      refine ⟨varintBytes ((encodeUtf8 s).length * scale), decodes_varint hle, ?_⟩
      intro w
      rw [text, if_neg hshort, if_pos hmedium, raw, varint, bytes_append, bytes_reserve, bytes_append, bytes_reserve, append_assoc]
    · have hle : (encodeUtf8 s).length * scale < 0x80 ^ 5 := by
        rcases hscale with rfl | rfl
        · omega
        · omega
      refine ⟨paddedVarint lengthSlot ((encodeUtf8 s).length * scale), decodes_padded hle, ?_⟩
      intro w
      have hroom := room_reserve w (lengthSlot + s.length)
      have hfill : s ≠ [] → 4 ≤ ((w.reserve (lengthSlot + s.length)).append (List.replicate lengthSlot 0)).capacity -
          ((w.reserve (lengthSlot + s.length)).append (List.replicate lengthSlot 0)).bytes.length := by
        intro _
        show 4 ≤ (w.reserve (lengthSlot + s.length)).capacity - _
        rw [bytes_append, length_append, List.length_replicate]
        unfold longText at hmedium
        omega
      have hloop := bytes_encodeText (le_succ s.length) hfill
      rw [bytes_append, bytes_reserve] at hloop
      have hcnt : (w.bytes ++ List.replicate lengthSlot 0 ++ encodeUtf8 s).length - w.bytes.length - lengthSlot =
          (encodeUtf8 s).length := by
        rw [length_append, length_append, List.length_replicate]
        omega
      have hslot : w.bytes.length + lengthSlot = (w.bytes ++ List.replicate lengthSlot (0 : UInt8)).length := by
        rw [length_append, List.length_replicate]
      rw [text, if_neg hshort, if_neg hmedium]
      dsimp only
      rw [hloop, hcnt, hslot, List.drop_left, append_assoc w.bytes, List.take_left, append_assoc]

end Writer

/-! ## An operation and its reader -/

/-- The operation appends bytes that the reader takes back as this value. -/
def Writes {α : Type} (op : Writer → Writer) (r : Reader α) (a : α) : Prop := ∃ bs, Decodes r bs a ∧ ∀ w, (op w).bytes = w.bytes ++ bs

section Operations

variable {α β : Type} {nums : Numbers} {n : Nat} {op : Writer → α → Writer} {r : Reader α} {a : α} {g : α → β} {s : Text} {as : List α}

theorem writes_varint (h : n ≤ maxSafeInteger) : Writes (·.varint n) readVarint n := by
  refine ⟨varintBytes n, decodes_varint h, fun w => ?_⟩
  show ((w.reserve 8).append (varintBytes n)).bytes = _
  rw [bytes_append, bytes_reserve]

theorem writes_byte (b : UInt8) : Writes (·.byte b) Reader.byte b := by
  refine ⟨[b], Decodes.byte b, fun w => ?_⟩
  show ((w.reserve 1).append [b]).bytes = _
  rw [bytes_append, bytes_reserve]

theorem writes_raw (bs : List UInt8) : Writes (·.raw bs) (Reader.raw bs.length) bs := by
  refine ⟨bs, Decodes.raw bs, fun w => ?_⟩
  show ((w.reserve bs.length).append bs).bytes = _
  rw [bytes_append, bytes_reserve]

/-- Two operations, the second one's reader knowing what the first one read. -/
theorem Writes.bind {op op' : Writer → Writer} {f : α → Reader β} {b : β} (h : Writes op r a)
    (h' : Writes op' (f a) b) : Writes (fun w => op' (op w)) (r >>= f) b := by
  obtain ⟨bs, hr, hop⟩ := h
  obtain ⟨bs', hf, hop'⟩ := h'
  refine ⟨bs ++ bs', hr.bind hf, fun w => ?_⟩
  rw [hop', hop, append_assoc]

theorem Writes.bind_pure {op : Writer → Writer} (h : Writes op r a) : Writes op (r >>= fun a => pure (g a)) (g a) := by
  obtain ⟨bs, hr, hop⟩ := h
  exact ⟨bs, hr.bind_pure, hop⟩

theorem writes_pure (a : α) : Writes (fun w => w) (pure a) a := ⟨[], Decodes.pure a, fun _ => (append_nil _).symm⟩

/-- The bytes behind a length, and what becomes of them. -/
theorem decodes_behind {p bs : List UInt8} (hp : Decodes readVarint p bs.length) : Decodes readBytes (p ++ bs) bs :=
  hp.bind (Decodes.raw bs)

theorem writes_string (hs : WellFormed s) (hlen : s.length < 2 ^ 32) : Writes (·.string s) Binary.readString s := by
  obtain ⟨p, hp, hbytes⟩ := text_bytes (s := s) (.inl rfl) hlen
  rw [mul_one] at hp
  have hread : Decodes Binary.readString (p ++ encodeUtf8 s ++ []) s :=
    (decodes_behind hp).bind (Decodes.ofOption (decodeUtf8_encodeUtf8 hs))
  rw [append_nil] at hread
  exact ⟨p ++ encodeUtf8 s, hread, hbytes⟩

theorem writes_json {x : Json} (hx : Plain nums x) (hlen : (stringify nums x).length < 2 ^ 32) :
    Writes (·.json nums x) (readJson nums) x := by
  obtain ⟨p, hp, hbytes⟩ := text_bytes (s := stringify nums x) (.inl rfl) hlen
  rw [mul_one] at hp
  have hparse : parseJson nums (encodeUtf8 (stringify nums x)) = some x := by
    rw [parseJson, decodeUtf8_encodeUtf8 (stringify_wellFormed hx), bind_some, parse_stringify hx]
  have hread : Decodes (readJson nums) (p ++ encodeUtf8 (stringify nums x) ++ []) x :=
    (decodes_behind hp).bind (Decodes.ofOption hparse)
  rw [append_nil] at hread
  exact ⟨p ++ encodeUtf8 (stringify nums x), hread, hbytes⟩

/-- What a reader makes of a part: its bytes. -/
def Part.received : Part → Part
  | .text s => .bytes (encodeUtf8 s)
  | part => part

/-- The sizes an engine's texts and byte arrays keep to, and the text of a part well formed. -/
def Part.Sized : Part → Prop
  | .text s => WellFormed s ∧ s.length < 2 ^ 32
  | .bytes b | .deflated b => b.length < 2 ^ 52

/-- A part's length doubled, with its codec. -/
theorem decodes_part (bs : List UInt8) {p : List UInt8} (hp : Decodes readVarint p n) (hn : n / 2 = bs.length) :
    Decodes readPart (p ++ bs) (if n % 2 = 1 then .deflated bs else .bytes bs) := by
  apply hp.bind
  rw [hn]
  exact (Decodes.raw bs).bind_pure

theorem writes_part {part : Part} (h : part.Sized) : Writes (·.part part) readPart part.received := by
  cases part with
  | text s =>
    obtain ⟨p, hp, hbytes⟩ := text_bytes (s := s) (.inr rfl) h.2
    have hread := decodes_part (encodeUtf8 s) hp (by omega)
    rw [if_neg (by omega)] at hread
    exact ⟨p ++ encodeUtf8 s, hread, hbytes⟩
  | bytes b =>
    have hle : b.length * 2 ≤ maxSafeInteger := by
      unfold Part.Sized at h
      unfold maxSafeInteger
      omega
    have hread := decodes_part b (decodes_varint hle) (by omega)
    rw [if_neg (by omega)] at hread
    refine ⟨_, hread, fun w => ?_⟩
    simp only [part, varint, raw, bytes_append, bytes_reserve, append_assoc]
  | deflated b =>
    have hle : b.length * 2 + 1 ≤ maxSafeInteger := by
      unfold Part.Sized at h
      unfold maxSafeInteger
      omega
    have hread := decodes_part b (decodes_varint hle) (by omega)
    rw [if_pos (by omega)] at hread
    refine ⟨_, hread, fun w => ?_⟩
    simp only [part, varint, raw, bytes_append, bytes_reserve, append_assoc]

/-! ## Lists -/

theorem needs_readVarint : Needs readVarint := Needs.byte.bind

/-- A count that the bytes left can hold is passed. -/
theorem decodes_count {bs : List UInt8} (hn : n ≤ bs.length) (h : Decodes r bs a) : Decodes (readCount n >>= fun _ => r) bs a := by
  intro bytes c rest hrest
  have hlen := congrArg List.length hrest
  rw [Cursor.length_rest, length_append] at hlen
  have hpass : readCount n bytes c = (some (), c) := by
    show (if n > bytes.length - c.offset then Reader.fail else pure () : Reader Unit) bytes c = (some (), c)
    rw [if_neg (by omega)]
    rfl
  obtain ⟨c', hr, hrest'⟩ := h bytes c rest hrest
  exact ⟨c', (Reader.bind_eq _ _ hpass).trans hr, hrest'⟩

/-- The bytes of each element: as many as there are elements, at least. -/
theorem writes_elements {r : Reader β} (hneeds : Needs r) (h : ∀ a ∈ as, Writes (op · a) r (g a)) :
    ∃ bs, as.length ≤ bs.length ∧ Decodes (Reader.replicate as.length r) bs (as.map g) ∧ ∀ w, (as.foldl op w).bytes = w.bytes ++ bs := by
  induction as with
  | nil => exact ⟨[], le_refl _, Decodes.pure [], fun w => (append_nil _).symm⟩
  | cons a as ih =>
    obtain ⟨bs, hr, hop⟩ := h a List.mem_cons_self
    obtain ⟨bs', hlen, hrs, hops⟩ := ih fun b hb => h b (List.mem_cons_of_mem a hb)
    have hpos := List.length_pos_iff.mpr (hr.ne_nil hneeds)
    refine ⟨bs ++ bs', ?_, hr.bind hrs.bind_pure, fun w => ?_⟩
    · rw [length_append, length_cons]
      omega
    · rw [List.foldl_cons, hops, hop, append_assoc]

/-- Counted elements, whose number is known. -/
theorem writes_counted {r : Reader β} (hneeds : Needs r) (h : ∀ a ∈ as, Writes (op · a) r (g a)) :
    Writes (fun w => as.foldl op w) (readCount as.length >>= fun _ => Reader.replicate as.length r) (as.map g) := by
  obtain ⟨bs, hlen, hr, hop⟩ := writes_elements hneeds h
  exact ⟨bs, decodes_count hlen hr, hop⟩

theorem writes_list {r : Reader β} (hcnt : as.length < 2 ^ 32) (hneeds : Needs r) (h : ∀ a ∈ as, Writes (op · a) r (g a)) :
    Writes (fun w => as.foldl op (w.varint as.length)) (readList r) (as.map g) := by
  have hle : as.length ≤ maxSafeInteger := by
    unfold maxSafeInteger
    omega
  exact (writes_varint hle).bind (f := fun cnt => readCount cnt >>= fun _ => Reader.replicate cnt r)
    (writes_counted hneeds h)

/-- A field that is there, when its flag says so. -/
theorem writes_optional (op : Writer → α → Writer) {r : Reader β} (g : α → β) {x : Option α} {flags flag : UInt8}
    (hflag : flags &&& flag ≠ 0 ↔ x.isSome = true) (h : ∀ a, x = some a → Writes (op · a) r (g a)) :
    Writes (fun w => w.optional op x) (readOptional flags flag r) (x.map g) := by
  unfold readOptional
  cases x with
  | none =>
    rw [if_neg (by simp [hflag])]
    exact writes_pure none
  | some a =>
    rw [if_pos (hflag.mpr rfl)]
    exact (h a rfl).bind_pure

/-! ## Names in hex -/

/-- What a lowercase hex digit is worth, and the digit of that. -/
theorem lowerHex_spec {c : UInt16} (h : isLowerHex c = true) : hexValue c < 16 ∧ hexDigit (hexValue c) = c := by
  have hrng : c.toNat < 103 := by
    unfold isLowerHex isDigit at h
    rw [or_eq_true] at h
    simp only [and_eq_true, decide_eq_true_eq, UInt16.lt_iff_toNat_lt, UInt16.le_iff_toNat_le] at h
    have h₁ : (58 : UInt16).toNat = 58 := rfl
    have h₂ : (103 : UInt16).toNat = 103 := rfl
    omega
  have hall : ∀ i : Fin 103, isLowerHex (UInt16.ofNat i) = true →
      hexValue (UInt16.ofNat i) < 16 ∧ hexDigit (hexValue (UInt16.ofNat i)) = UInt16.ofNat i := by decide
  have hc : UInt16.ofNat c.toNat = c := UInt16.ofNat_toNat
  have hspec := hall ⟨c.toNat, hrng⟩
  rw [hc] at hspec
  exact hspec h

theorem hexText_hexBytes (hlen : s.length = 2 * n) (hhex : ∀ c ∈ s, isLowerHex c = true) :
    (hexBytes s).length = n ∧ hexText (hexBytes s) = s := by
  induction n generalizing s with
  | zero =>
    obtain rfl := List.length_eq_zero_iff.mp hlen
    exact ⟨rfl, rfl⟩
  | succ n ih =>
    match s, hlen, hhex with
    | [], hlen, _ => simp at hlen
    | [_], hlen, _ =>
      rw [List.length_singleton] at hlen
      omega
    | a :: b :: s, hlen, hhex =>
      obtain ⟨ha, hda⟩ := lowerHex_spec (hhex a (by simp))
      obtain ⟨hb, hdb⟩ := lowerHex_spec (hhex b (by simp))
      obtain ⟨hcnt, htext⟩ := ih (s := s) (by simp only [length_cons] at hlen; omega)
        (fun c hc => hhex c (by simp [hc]))
      have hbyte := toNat_ofNat (n := hexValue a * 16 + hexValue b) (by omega)
      have hhigh : (hexValue a * 16 + hexValue b) / 16 = hexValue a := by omega
      have hlow : (hexValue a * 16 + hexValue b) % 16 = hexValue b := by omega
      refine ⟨by rw [hexBytes, length_cons, hcnt], ?_⟩
      rw [hexBytes, hexText, List.flatMap_cons, hbyte, hhigh, hlow, hda, hdb]
      show a :: b :: hexText (hexBytes s) = _
      rw [htext]

theorem hex_spec (hlen : s.length = 2 * n) (hhex : ∀ c ∈ s, isLowerHex c = true) :
    ∃ raw, hex s n = some raw ∧ raw.length = n ∧ hexText raw = s := by
  refine ⟨hexBytes s, ?_, hexText_hexBytes hlen hhex⟩
  rw [hex, if_pos ⟨hlen, List.all_eq_true.mpr hhex⟩]

/-- The first of several groups of hex digits, and the others behind a dash. -/
theorem isHexGroups_cons {k : Nat} {groups : List Nat} (h : isHexGroups (n :: k :: groups) s = true) :
    ∃ a t, s = a ++ 45 :: t ∧ a.length = n ∧ (∀ c ∈ a, isLowerHex c = true) ∧ isHexGroups (k :: groups) t = true := by
  rw [isHexGroups] at h
  · simp only [and_eq_true, decide_eq_true_eq, List.all_eq_true] at h
    obtain ⟨⟨⟨hlen, hhex⟩, hdash⟩, hrest⟩ := h
    refine ⟨s.take n, s.drop (n + 1), ?_, hlen, hhex, hrest⟩
    have hdrop : s.drop n = 45 :: s.drop (n + 1) := by
      rw [List.head?_eq_some_iff] at hdash
      obtain ⟨t, ht⟩ := hdash
      have htail := congrArg List.tail ht
      rw [List.tail_drop, List.tail_cons] at htail
      rw [ht, htail]
    rw [← hdrop, List.take_append_drop]
  · simp

theorem isHexGroups_last (h : isHexGroups [n] s = true) : s.length = n ∧ ∀ c ∈ s, isLowerHex c = true := by
  rw [isHexGroups, and_eq_true, decide_eq_true_eq, List.all_eq_true] at h
  exact h

/-- A dash is no hex digit, so only the dashes go. -/
theorem dashless_hex {a : Text} (h : ∀ c ∈ a, isLowerHex c = true) : dashless a = a := by
  rw [dashless, List.filter_eq_self]
  intro c hc
  have hne : c ≠ 45 := by
    rintro rfl
    exact absurd (h 45 hc) (by decide)
  exact decide_eq_true hne

theorem dashless_group {a t : Text} (h : ∀ c ∈ a, isLowerHex c = true) : dashless (a ++ 45 :: t) = a ++ dashless t := by
  have hdash : dashless (45 :: t) = dashless t := rfl
  have happ : dashless (a ++ 45 :: t) = dashless a ++ dashless (45 :: t) := List.filter_append ..
  rw [happ, dashless_hex h, hdash]

/-- **An incarnation is its sixteen bytes.** -/
theorem incarnation_spec (h : isIncarnation s = true) : ∃ raw, hex (dashless s) 16 = some raw ∧ raw.length = 16 ∧ uuid raw = s := by
  obtain ⟨a, s₁, rfl, hla, ha, h₁⟩ := isHexGroups_cons h
  obtain ⟨b, s₂, rfl, hlb, hb, h₂⟩ := isHexGroups_cons h₁
  obtain ⟨c, s₃, rfl, hlc, hc, h₃⟩ := isHexGroups_cons h₂
  obtain ⟨d, e, rfl, hld, hd, h₄⟩ := isHexGroups_cons h₃
  obtain ⟨hle, he⟩ := isHexGroups_last h₄
  have hdashless : dashless (a ++ 45 :: (b ++ 45 :: (c ++ 45 :: (d ++ 45 :: e)))) = a ++ (b ++ (c ++ (d ++ e))) := by
    rw [dashless_group ha, dashless_group hb, dashless_group hc, dashless_group hd, dashless_hex he]
  have hlen : (a ++ (b ++ (c ++ (d ++ e)))).length = 2 * 16 := by
    simp only [length_append]
    omega
  have hhex : ∀ x ∈ a ++ (b ++ (c ++ (d ++ e))), isLowerHex x = true := by
    intro x hx
    simp only [List.mem_append] at hx
    rcases hx with hx | hx | hx | hx | hx
    · exact ha x hx
    · exact hb x hx
    · exact hc x hx
    · exact hd x hx
    · exact he x hx
  obtain ⟨raw, hraw, hcnt, htext⟩ := hex_spec hlen hhex
  refine ⟨raw, by rw [hdashless, hraw], hcnt, ?_⟩
  rw [uuid, htext]
  have hsub : ∀ (u v : Text) n, u.length = n → (u ++ v).take n = u ∧ (u ++ v).drop n = v := by
    rintro u v n rfl
    exact ⟨List.take_left, List.drop_left⟩
  have h₁₂ : (a ++ (b ++ (c ++ (d ++ e)))).drop 12 = c ++ (d ++ e) := by
    rw [← append_assoc]
    exact (hsub (a ++ b) _ 12 (by rw [length_append]; omega)).2
  have h₁₆ : (a ++ (b ++ (c ++ (d ++ e)))).drop 16 = d ++ e := by
    rw [← append_assoc, ← append_assoc]
    exact (hsub (a ++ b ++ c) _ 16 (by simp only [length_append]; omega)).2
  have h₂₀ : (a ++ (b ++ (c ++ (d ++ e)))).drop 20 = e := by
    rw [← append_assoc, ← append_assoc, ← append_assoc]
    exact (hsub (a ++ b ++ c ++ d) _ 20 (by simp only [length_append]; omega)).2
  rw [(hsub a _ 8 hla).1, (hsub a _ 8 hla).2, (hsub b _ 4 hlb).1, h₁₂, (hsub c _ 4 hlc).1, h₁₆, (hsub d _ 4 hld).1, h₂₀]

theorem fingerprint_spec (h : isFingerprint s = true) : ∃ raw, hex s 8 = some raw ∧ raw.length = 8 ∧ hexText raw = s := by
  obtain ⟨hlen, hhex⟩ := isHexGroups_last h
  exact hex_spec hlen hhex

/-! ## The fields -/

/-- What the engine's limits and the schema's types say of each field: safe integers with one to spare, texts that are
well formed, values that are read as they were written, and no text, list or byte array longer than it can be. -/
def sized (numbers : Numbers) : FieldProps where
  num n := n ≤ 2 ^ 53 - 2
  str s := WellFormed s ∧ s.length < 2 ^ 32
  json x := Plain numbers x ∧ (stringify numbers x).length < 2 ^ 32
  part := Part.Sized
  segment s := s.length < 2 ^ 52
  count n := n < 2 ^ 32

/-- A message as it is read: every part by its bytes. -/
def received : FieldMap checked checked := ⟨id, id, id, Part.received⟩

theorem writes_num (h : (sized nums).num n) : Writes (·.varint n) readVarint n := writes_varint (le_trans h (by decide))

theorem writes_payload {p : Payload} (h : p.All (sized nums)) (hpayload : p.segments.isSome = true → p.part.isSome = true) :
    Writes (·.payload p) readPayload (p.map Part.received) := by
  obtain ⟨part, segs⟩ := p
  cases part with
  | none =>
    cases segs with
    | some segs => exact absurd (hpayload rfl) (by simp)
    | none =>
      obtain ⟨bs, hr, hop⟩ := writes_varint (n := 0) (zero_le _)
      refine ⟨bs ++ [], hr.bind ?_, fun w => ?_⟩
      · rw [if_pos rfl]
        exact Decodes.pure _
      · rw [append_nil]
        exact hop w
  | some part =>
    obtain ⟨bs, hpart, hop⟩ := writes_part (h.1 part rfl)
    cases segs with
    | none =>
      obtain ⟨bf, hflag, hopf⟩ := writes_varint (n := 1) (by decide)
      refine ⟨bf ++ bs, hflag.bind ?_, fun w => ?_⟩
      · rw [if_neg (by decide), if_neg (by decide), ← append_nil bs]
        apply hpart.bind
        exact Decodes.pure _
      · show ((w.varint 1).part part).bytes = _
        rw [hop, hopf, append_assoc]
    | some segs =>
      obtain ⟨hcnt, hsegs⟩ := h.2 segs rfl
      obtain ⟨bf, hflag, hopf⟩ := writes_varint (n := 3) (by decide)
      have hlengths : ∀ s ∈ segs, Writes (fun w => w.varint s.length) readVarint s.length := by
        intro s hs
        have hle : s.length < 2 ^ 52 := hsegs s hs
        exact writes_varint (by unfold maxSafeInteger; omega)
      obtain ⟨bl, hlist, hopl⟩ := writes_list hcnt needs_readVarint hlengths
      have hraw : Decodes (Reader.forEach Reader.raw (segs.map List.length)) (segs.flatMap id) segs :=
        Decodes.forEach fun s _ => Decodes.raw s
      have hops : ∀ w : Writer, (segs.foldl (fun w s => w.raw s) w).bytes = w.bytes ++ segs.flatMap id := by
        clear hlist hopl hlengths hraw hsegs hcnt h hpayload
        induction segs with
        | nil => exact fun w => (append_nil _).symm
        | cons s segs ih =>
          intro w
          rw [List.foldl_cons, ih, raw, bytes_append, bytes_reserve, List.flatMap_cons, append_assoc]
          rfl
      refine ⟨bf ++ (bs ++ (bl ++ segs.flatMap id)), hflag.bind ?_, fun w => ?_⟩
      · rw [if_neg (by decide), if_neg (by decide)]
        apply hpart.bind
        exact hlist.bind hraw.bind_pure
      · show (segs.foldl (fun w s => w.raw s) (segs.foldl (fun w s => w.varint s.length)
          (((w.varint 3).part part).varint segs.length))).bytes = _
        rw [hops, hopl, hop, hopf, append_assoc, append_assoc, append_assoc]

/-- A failed member, as it stands in every list of them. -/
def readFailedMember (numbers : Numbers) : Reader (FailedMember checked) := do
  let member ← readVarint
  let error ← readJson numbers
  pure ⟨member, error⟩

theorem writes_failedEntries {fd : List (FailedMember checked)} (h : allFailed (sized nums) fd) :
    Writes (fun w => w.failedEntries nums fd) (readFailedEntries nums fd.length)
      (fd.map (·.map received)) := by
  have hone : ∀ m ∈ fd, Writes (fun w => (w.varint m.member).json nums m.error) (readFailedMember nums)
      (m.map received) := by
    intro m hm
    obtain ⟨hnum, herr⟩ := h.2 m hm
    obtain ⟨bs, hr, hop⟩ := writes_num hnum
    obtain ⟨be, hre, hope⟩ := writes_json herr.1 herr.2
    refine ⟨bs ++ be, hr.bind hre.bind_pure, fun w => ?_⟩
    rw [hope, hop, append_assoc]
  exact writes_counted needs_readVarint.bind hone

theorem writes_failed {fd : List (FailedMember checked)} (h : allFailed (sized nums) fd) :
    Writes (fun w => w.failed nums fd) (readFailed nums) (fd.map (·.map received)) := by
  have hcnt : fd.length < 2 ^ 32 := h.1
  obtain ⟨bs, hr, hop⟩ := writes_varint (n := fd.length) (by unfold maxSafeInteger; omega)
  obtain ⟨be, hre, hope⟩ := writes_failedEntries h
  refine ⟨bs ++ be, hr.bind hre, fun w => ?_⟩
  show ((w.varint fd.length).failedEntries nums fd).bytes = _
  rw [hope, hop, append_assoc]

theorem writes_members {mems : List (Member checked)} (h : allMembers (sized nums) mems) :
    Writes (fun w => w.members mems) (readList readMember) (mems.map (·.map received)) := by
  have hone : ∀ m ∈ mems, Writes (fun w => (w.varint m.member).part m.value) readMember (m.map received) := by
    intro m hm
    obtain ⟨hnum, hval⟩ := h.2 m hm
    obtain ⟨bs, hr, hop⟩ := writes_num hnum
    obtain ⟨be, hre, hope⟩ := writes_part hval
    refine ⟨bs ++ be, hr.bind hre.bind_pure, fun w => ?_⟩
    rw [hope, hop, append_assoc]
  exact writes_list h.1 needs_readVarint.bind hone

theorem writes_boundEntry {e : BoundEntry checked} (h : e.All (sized nums)) :
    Writes (fun w => w.boundEntry nums e) (Binary.readBoundEntry nums) (e.map received) := by
  obtain ⟨b₁, hr₁, hop₁⟩ := writes_num h.hold
  obtain ⟨b₂, hr₂, hop₂⟩ := writes_num h.variant
  obtain ⟨b₃, hr₃, hop₃⟩ := writes_members h.members
  obtain ⟨b₄, hr₄, hop₄⟩ := writes_failed h.failed
  refine ⟨b₁ ++ (b₂ ++ (b₃ ++ b₄)), hr₁.bind (hr₂.bind (hr₃.bind hr₄.bind_pure)), fun w => ?_⟩
  show ((((w.varint e.hold).varint e.variant).members e.members).failed nums e.failed).bytes = _
  rw [hop₄, hop₃, hop₂, hop₁, append_assoc, append_assoc, append_assoc]

/-- The retirements, when there are some: the number before the failures is odd then. -/
theorem writes_retired (flags : Nat) {ret : List Nat} (hcnt : ret.length < 2 ^ 32)
    (hret : ∀ n ∈ ret, (sized nums).num n) (hflags : flags % 2 = if ret.length > 0 then 1 else 0) :
    Writes (fun w => if ret.length = 0 then w else ret.foldl (fun w n => w.varint n) (w.varint ret.length))
      (if flags % 2 = 0 then pure [] else readList readVarint) ret := by
  cases ret with
  | nil =>
    have hzero : flags % 2 = 0 := hflags
    rw [hzero, if_pos rfl]
    exact writes_pure []
  | cons n ret =>
    have hone : flags % 2 = 1 := hflags
    have hlist : Writes (fun w => (n :: ret).foldl (fun w n => w.varint n) (w.varint (n :: ret).length))
        (readList readVarint) ((n :: ret).map fun n => n) :=
      writes_list hcnt needs_readVarint fun n hn => writes_num (hret n hn)
    rw [List.map_id'] at hlist
    rw [hone, if_neg (by decide)]
    exact hlist

theorem writes_stateEntry {e : StateEntry checked} (h : e.All (sized nums)) :
    Writes (fun w => w.stateEntry nums e) (Binary.readStateEntry nums) (e.map received) := by
  have hcnt : e.failed.length < 2 ^ 32 := h.failed.1
  obtain ⟨flags, hflags⟩ : ∃ flags, flags = e.failed.length * 2 + if e.retired.length > 0 then 1 else 0 := ⟨_, rfl⟩
  have hbit : (if e.retired.length > 0 then 1 else 0) < 2 := by
    split
    · decide
    · decide
  obtain ⟨b₁, hr₁, hop₁⟩ := writes_num h.hold
  obtain ⟨b₂, hr₂, hop₂⟩ := writes_members h.members
  obtain ⟨b₃, hr₃, hop₃⟩ := writes_varint (n := flags) (by unfold maxSafeInteger; omega)
  obtain ⟨b₄, hr₄, hop₄⟩ := writes_failedEntries h.failed
  obtain ⟨b₅, hr₅, hop₅⟩ := writes_retired flags h.retired.1 h.retired.2 (by omega)
  refine ⟨b₁ ++ (b₂ ++ (b₃ ++ (b₄ ++ b₅))), hr₁.bind (hr₂.bind (hr₃.bind ?_)), fun w => ?_⟩
  · have hhalf : flags / 2 = e.failed.length := by omega
    rw [hhalf]
    apply hr₄.bind
    have hret : e.retired.map received.num = e.retired := List.map_id _
    rw [StateEntry.map, hret]
    by_cases heven : flags % 2 = 0
    · rw [if_pos heven] at hr₅
      simp only [if_pos heven]
      exact hr₅.bind_pure
    · rw [if_neg heven] at hr₅
      simp only [if_neg heven]
      exact hr₅.bind_pure
  · have hret : ∀ w : Writer, (if e.retired.length = 0 then w else
        e.retired.foldl (fun w n => w.varint n) (w.varint e.retired.length)).bytes = w.bytes ++ b₅ := hop₅
    show (if e.retired.length = 0 then _ else e.retired.foldl (fun (w : Writer) n => w.varint n) _).bytes = _
    rw [hret, hop₄, ← hflags, hop₃, hop₂, hop₁, append_assoc, append_assoc, append_assoc, append_assoc]

/-- A name's raw bytes are read back as its text. -/
theorem writes_uuid {raw : List UInt8} (hlen : raw.length = 16) (hs : uuid raw = s) : Writes (·.raw raw) readUuid s := by
  have hraw := writes_raw raw
  rw [hlen] at hraw
  rw [← hs]
  exact hraw.bind_pure

theorem names_spec {names : List Text} (h : ∀ s ∈ names, isIncarnation s = true) :
    ∃ raws, names.mapM (fun s => hex (dashless s) 16) = some raws ∧ raws.map uuid = names ∧ ∀ raw ∈ raws, raw.length = 16 := by
  induction names with
  | nil => exact ⟨[], rfl, rfl, nofun⟩
  | cons s names ih =>
    obtain ⟨raw, hraw, hlen, huuid⟩ := incarnation_spec (h s List.mem_cons_self)
    obtain ⟨raws, hraws, huuids, hlengths⟩ := ih fun t ht => h t (List.mem_cons_of_mem s ht)
    refine ⟨raw :: raws, ?_, by rw [List.map_cons, huuid, huuids], ?_⟩
    · rw [List.mapM_cons, hraw, hraws]
      rfl
    · intro r hr
      rcases List.mem_cons.mp hr with rfl | hr
      · exact hlen
      · exact hlengths r hr

theorem needs_readUuid : Needs readUuid := by
  apply Needs.bind
  intro bs c hrest
  have hlen := congrArg List.length hrest
  rw [Cursor.length_rest, List.length_nil] at hlen
  rw [Reader.raw, dif_neg (by omega)]

/-- The flags of the optional fields, each one's own bit. -/
theorem hold_flags (p i c l : Bool) :
    ∀ flags, flags = (if p then principalFlag else 0) ||| (if i then incarnationFlag else 0) |||
        (if c then chainFlag else 0) ||| (if l then limitFlag else 0) →
      ¬ flags > 15 ∧ (flags &&& principalFlag ≠ 0 ↔ p = true) ∧ (flags &&& incarnationFlag ≠ 0 ↔ i = true) ∧
        (flags &&& chainFlag ≠ 0 ↔ c = true) ∧ (flags &&& limitFlag ≠ 0 ↔ l = true) := by
  rintro flags rfl
  revert p i c l
  decide

/-- The fields are written, in bytes that the reader takes back as this value. -/
def Encodes (numbers : Numbers) (body : Body checked) (r : Reader α) (a : α) : Prop :=
  ∃ bs, Decodes r bs a ∧ ∀ w, ∃ w', encodeFields numbers w body = some w' ∧ w'.bytes = w.bytes ++ bs

theorem Writes.encodes {op : Writer → Writer} {body : Body checked} (h : Writes op r a)
    (hop : ∀ w, encodeFields nums w body = some (op w)) : Encodes nums body r a := by
  obtain ⟨bs, hr, hbytes⟩ := h
  exact ⟨bs, hr, fun w => ⟨op w, hop w, hbytes w⟩⟩

theorem encodes_hold {h : HoldFields checked} (hall : h.All (sized nums)) (haccd : (Body.hold h).Accepted) :
    Encodes nums (.hold h) (readHold nums) (h.map received) := by
  obtain ⟨-, -, hfingerprint, -, -, hincarnation, hchain⟩ := haccd
  obtain ⟨rawf, hrawf, hlengthf, htextf⟩ := fingerprint_spec hfingerprint
  -- The optional names in bytes.
  obtain ⟨rawi, hrawi, hreadi⟩ : ∃ rawi, h.incarnation.mapM (fun s => hex (dashless s) 16) = some rawi ∧
      rawi.map uuid = h.incarnation ∧ ∀ raw, rawi = some raw → raw.length = 16 := by
    cases hi : h.incarnation with
    | none => exact ⟨none, rfl, rfl, fun raw hraw => absurd hraw (by simp)⟩
    | some s =>
      obtain ⟨raw, hraw, hlen, huuid⟩ := incarnation_spec (hincarnation s hi)
      refine ⟨some raw, ?_, by rw [map_some, huuid], fun r hr => some.inj hr ▸ hlen⟩
      rw [mapM_some, hraw]
      rfl
  obtain ⟨rawc, hrawc, hreadc⟩ : ∃ rawc, h.chain.mapM (fun names : List Text => names.mapM fun s => hex (dashless s) 16) =
      some rawc ∧ rawc.map (List.map uuid) = h.chain ∧ ∀ raws, rawc = some raws → raws.length < 2 ^ 32 ∧ ∀ raw ∈ raws, raw.length = 16 := by
    cases hc : h.chain with
    | none => exact ⟨none, rfl, rfl, fun raw hraw => absurd hraw (by simp)⟩
    | some names =>
      obtain ⟨raws, hraws, huuids, hlengths⟩ := names_spec (hchain names hc).2
      have hcnt : raws.length < 2 ^ 32 := by
        have hle := (hchain names hc).1
        rw [← huuids, List.length_map] at hle
        unfold chainLength at hle
        omega
      refine ⟨some raws, ?_, by rw [map_some, huuids], fun r hr => some.inj hr ▸ ⟨hcnt, hlengths⟩⟩
      rw [mapM_some, hraws]
      rfl
  have hsomei : rawi.isSome = h.incarnation.isSome := by rw [← hreadi.1, isSome_map]
  have hsomec : rawc.isSome = h.chain.isSome := by rw [← hreadc.1, isSome_map]
  obtain ⟨flags, hflags⟩ : ∃ flags, flags = flagIf h.principal principalFlag ||| flagIf h.incarnation incarnationFlag |||
      flagIf h.chain chainFlag ||| flagIf h.limit limitFlag := ⟨_, rfl⟩
  obtain ⟨hsmall, hfp, hfi, hfc, hfl⟩ := hold_flags _ _ _ _ flags hflags
  obtain ⟨b₁, hr₁, hop₁⟩ := writes_num hall.hold
  obtain ⟨b₂, hr₂, hop₂⟩ := writes_string hall.type.1 hall.type.2
  obtain ⟨b₃, hr₃, hop₃⟩ := writes_num hall.version
  obtain ⟨b₄, hr₄, hop₄⟩ := writes_raw rawf
  obtain ⟨b₅, hr₅, hop₅⟩ := writes_part hall.params
  obtain ⟨b₆, hr₆, hop₆⟩ := writes_string hall.kind.1 hall.kind.2
  obtain ⟨b₇, hr₇, hop₇⟩ := writes_json hall.address.1 hall.address.2
  obtain ⟨b₈, hr₈, hop₈⟩ := writes_byte flags
  obtain ⟨b₉, hr₉, hop₉⟩ := writes_optional (fun w x => w.json nums x) id hfp fun x hx =>
    writes_json (hall.principal x hx).1 (hall.principal x hx).2
  obtain ⟨b₁₀, hr₁₀, hop₁₀⟩ := writes_optional (fun w raw => w.raw raw) uuid (x := rawi)
    (by rw [hfi, hsomei]) fun raw hraw => writes_uuid (hreadi.2 raw hraw) rfl
  obtain ⟨b₁₁, hr₁₁, hop₁₁⟩ := writes_optional
    (fun (w : Writer) raws => raws.foldl (fun w raw => w.raw raw) (w.varint raws.length)) (List.map uuid) (x := rawc) (by rw [hfc, hsomec])
    fun raws hraws => writes_list (hreadc.2 raws hraws).1 needs_readUuid fun raw hraw =>
      writes_uuid ((hreadc.2 raws hraws).2 raw hraw) rfl
  obtain ⟨b₁₂, hr₁₂, hop₁₂⟩ := writes_optional (fun w n => w.varint n) id hfl fun n hn =>
    writes_num (hall.limit n hn)
  refine ⟨b₁ ++ (b₂ ++ (b₃ ++ (b₄ ++ (b₅ ++ (b₆ ++ (b₇ ++ (b₈ ++ (b₉ ++ (b₁₀ ++ (b₁₁ ++ b₁₂)))))))))), ?_, fun w => ?_⟩
  · have hflds : h.map received = { h with params := h.params.received } := by
      have hchain' : h.chain.map received.names = h.chain := map_id'
      have hname : h.incarnation.map received.str = h.incarnation := map_id'
      have hlim : h.limit.map received.num = h.limit := map_id'
      rw [HoldFields.map, hchain', hname, hlim]
      rfl
    rw [map_id] at hr₉ hr₁₂
    rw [hreadi.1] at hr₁₀
    rw [hreadc.1] at hr₁₁
    rw [hflds, ← htextf]
    rw [hlengthf] at hr₄
    refine hr₁.bind (hr₂.bind (hr₃.bind (hr₄.bind (hr₅.bind (hr₆.bind (hr₇.bind (hr₈.bind ?_)))))))
    rw [if_neg hsmall]
    exact hr₉.bind (hr₁₀.bind (hr₁₁.bind hr₁₂.bind_pure))
  · refine ⟨?written, ?_, ?_⟩
    rotate_left
    · rw [encodeFields, hrawf, bind_some, hrawi, bind_some, hrawc, map_some, ← hflags]
    · rw [hop₁₂, hop₁₁, hop₁₀, hop₉, hop₈, hop₇, hop₆, hop₅, hop₄, hop₃, hop₂, hop₁]
      simp only [append_assoc]

/-- What `decodeFields` puts for the origin of `closed`, until the kind byte's is known. -/
def Body.originRead : Body checked → Option Nat
  | .closed => some 0
  | _ => none

theorem causeKind_byte (kind : CauseKind) : causeKinds[kind.byte.toNat]? = some kind := by
  cases kind with
  | transient | broken | waiting => rfl

/-- **Every kind's fields are read as they were written.** -/
theorem encodes_fields {body : Body checked} (hall : body.All (sized nums)) (haccd : body.Accepted)
    (hpayload : body.HasPayload) :
    Encodes nums body (decodeFields nums body.kind) ⟨body.originRead, none, body.map received⟩ := by
  cases body with
  | hello protocol incarnation cs =>
    obtain ⟨raw, hraw, hlen, huuid⟩ := incarnation_spec haccd.1
    obtain ⟨b₁, hr₁, hop₁⟩ := writes_num hall.1
    obtain ⟨b₂, hr₂, hop₂⟩ := writes_uuid hlen huuid
    obtain ⟨b₃, hr₃, hop₃⟩ := writes_num hall.2.2
    refine ⟨b₁ ++ (b₂ ++ b₃), hr₁.bind (hr₂.bind hr₃.bind_pure), fun w => ⟨((w.varint protocol).raw raw).varint cs, ?_, ?_⟩⟩
    · rw [encodeFields, hraw, map_some]
    · rw [hop₃, hop₂, hop₁, append_assoc, append_assoc]
  | hold flds =>
    obtain ⟨bs, hr, hop⟩ := encodes_hold hall haccd
    exact ⟨bs, hr.bind_pure, hop⟩
  | release id | abort id | loading id => exact ((writes_num hall).bind_pure).encodes fun _ => rfl
  | call id obj meth args =>
    obtain ⟨b₁, hr₁, hop₁⟩ := writes_num hall.1
    obtain ⟨b₂, hr₂, hop₂⟩ := writes_num hall.2.1
    obtain ⟨b₃, hr₃, hop₃⟩ := writes_num hall.2.2.1
    obtain ⟨b₄, hr₄, hop₄⟩ := writes_payload hall.2.2.2 hpayload
    refine ⟨b₁ ++ (b₂ ++ (b₃ ++ b₄)), hr₁.bind (hr₂.bind (hr₃.bind hr₄.bind_pure)), fun w => ⟨_, rfl, ?_⟩⟩
    rw [hop₄, hop₃, hop₂, hop₁, append_assoc, append_assoc, append_assoc]
  | bound holds =>
    have hlist := writes_list hall.1 needs_readVarint.bind fun e he => writes_boundEntry (hall.2 e he)
    exact hlist.bind_pure.encodes fun _ => rfl
  | state holds =>
    have hlist := writes_list hall.1 needs_readVarint.bind fun e he => writes_stateEntry (hall.2 e he)
    exact hlist.bind_pure.encodes fun _ => rfl
  | failed id cause retryIn =>
    obtain ⟨b₁, hr₁, hop₁⟩ := writes_num hall.1
    obtain ⟨b₂, hr₂, hop₂⟩ := writes_byte cause.kind.byte
    obtain ⟨b₃, hr₃, hop₃⟩ := writes_json hall.2.1.1 hall.2.1.2
    have hretry : (retryIn.map (· + 1)).getD 0 ≤ maxSafeInteger := by
      cases retryIn with
      | none => exact zero_le _
      | some n =>
        have hn : n ≤ 2 ^ 53 - 2 := hall.2.2 n rfl
        exact le_trans (succ_le_succ hn) (by decide)
    obtain ⟨b₄, hr₄, hop₄⟩ := writes_varint hretry
    have hread : (if (retryIn.map (· + 1)).getD 0 = 0 then none else some ((retryIn.map (· + 1)).getD 0 - 1)) = retryIn := by
      cases retryIn with
      | none => rfl
      | some n => rfl
    refine ⟨b₁ ++ (b₂ ++ (b₃ ++ b₄)), hr₁.bind (hr₂.bind ?_), fun w => ⟨_, rfl, ?_⟩⟩
    · refine (Decodes.ofOption (causeKind_byte cause.kind)).skip (hr₃.bind ?_)
      have hlast := hr₄.bind_pure (g := fun n => (⟨none, none, .failed id cause (if n = 0 then none else some (n - 1))⟩ : Message checked))
      rw [hread] at hlast
      have hmap : (Body.failed id cause retryIn).map received = .failed id cause retryIn := by
        have hid : retryIn.map received.num = retryIn := map_id'
        rw [Body.map, hid]
        rfl
      rw [hmap]
      exact hlast
    · rw [hop₄, hop₃, hop₂, hop₁, append_assoc, append_assoc, append_assoc]
  | result id value => exact ((writes_num hall.1).bind (writes_payload hall.2 hpayload).bind_pure).encodes fun _ => rfl
  | error id e | gone id e => exact ((writes_num hall.1).bind (writes_json hall.2.1 hall.2.2).bind_pure).encodes fun _ => rfl
  | retry id hops => exact ((writes_num hall.1).bind (writes_num hall.2).bind_pure).encodes fun _ => rfl
  | ack | closed | ping | pong => exact (writes_pure _).encodes fun _ => rfl
  | revoke revocation => exact ((writes_json hall.1 hall.2).bind_pure).encodes fun _ => rfl

/-! ## The message -/

/-- The kind byte's kind, and its two flags. -/
theorem kind_byte (kind : Kind) (org trace : Bool) : ∀ byte,
    byte = kind.byte ||| (if org then originFlag else 0) ||| (if trace then traceFlag else 0) →
      kinds[(byte &&& 0x3f).toNat]? = some kind ∧ (byte &&& originFlag ≠ 0 ↔ org = true) ∧ (byte &&& traceFlag ≠ 0 ↔ trace = true) := by
  rintro byte rfl
  revert org trace
  cases kind <;> decide

/-- **A message's bytes say everything but the form of its parts.** -/
theorem decode_encode {m : Message checked} (haccd : m.Accepted) (hall : m.All (sized nums))
    (hpayload : m.body.HasPayload) :
    ∃ bs, encodeBinary nums m = some bs ∧ decodeBinary nums bs = some (m.map received) := by
  obtain ⟨org, trace, body⟩ := m
  -- A trace carrier only stands on the kinds that have one.
  have htrace : (if body.kind.hasTrace then trace else none) = trace := by
    cases trace with
    | none => exact ite_self _
    | some x => rw [if_pos (haccd.trace x rfl).1]
  obtain ⟨byte, hbyte⟩ : ∃ byte, byte = body.kind.byte ||| flagIf org originFlag ||| flagIf trace traceFlag := ⟨_, rfl⟩
  obtain ⟨hkind, horigin, hcarrier⟩ := kind_byte _ _ _ byte hbyte
  obtain ⟨b₁, hr₁, hop₁⟩ := writes_byte byte
  obtain ⟨b₂, hr₂, hop₂⟩ := writes_optional (fun w n => w.varint n) id horigin fun n hn =>
    writes_num (hall.origin n hn)
  obtain ⟨b₃, hr₃, hop₃⟩ := writes_optional (fun w x => w.json nums x) id hcarrier fun x hx =>
    writes_json (hall.trace x hx).1 (hall.trace x hx).2
  obtain ⟨b₄, hr₄, hflds⟩ := encodes_fields hall.body haccd.body hpayload
  obtain ⟨w, hw, hbytes⟩ := hflds (((new.byte byte).optional (·.varint) org).optional (·.json nums) trace)
  rw [map_id] at hr₂ hr₃
  refine ⟨b₁ ++ (b₂ ++ (b₃ ++ (b₄ ++ []))), ?_, ?_⟩
  · rw [encodeBinary]
    rw [htrace, ← hbyte, hw, map_some, hbytes, hop₃, hop₂, hop₁, append_nil, append_assoc, append_assoc, append_assoc]
    rfl
  · -- The reader's steps, each past the bytes of its field.
    obtain ⟨c₁, hs₁, hrest₁⟩ := hr₁ _ (Cursor.start (b₁ ++ (b₂ ++ (b₃ ++ (b₄ ++ []))))) _ rfl
    obtain ⟨c₂, hs₂, hrest₂⟩ := hr₂ _ c₁ _ hrest₁
    obtain ⟨c₃, hs₃, hrest₃⟩ := hr₃ _ c₂ _ hrest₂
    obtain ⟨c₄, hs₄, hrest₄⟩ := hr₄ _ c₃ _ hrest₃
    have hsk : Reader.ofOption kinds[(byte &&& 0x3f).toNat]? (b₁ ++ (b₂ ++ (b₃ ++ (b₄ ++ [])))) c₁ = (some body.kind, c₁) := by
      rw [Reader.ofOption, hkind]
    have horiginRead : (id org).or body.originRead = org := by
      cases org with
      | some n => rfl
      | none =>
        cases body with
        | closed => exact absurd (haccd.closed rfl) (by simp)
        | _ => rfl
    have hmap : org.map received.num = org := map_id'
    rw [decodeBinary, readMessage, Reader.bind_eq _ _ hs₁, Reader.bind_eq _ _ hsk, Reader.bind_eq _ _ hs₂,
      Reader.bind_eq _ _ hs₃, Reader.bind_eq _ _ hs₄, Reader.bind_eq _ _ (Decodes.finish hrest₄)]
    refine congrArg some ?_
    rw [Message.map, hmap]
    dsimp only
    rw [horiginRead, or_none]
    rfl

/-- **The binary codec round trip.** Every accepted message, of any kind, with or without an origin, a trace carrier or
segments, is encoded, and its bytes are decoded to the message with each part by its bytes. And of any bytes at all
the decoder reads ranges that follow each other within them: it fails, or they cover the bytes. -/
theorem binary_round_trip (numbers : Numbers) : (∀ m : Message checked, m.Accepted → m.All (sized numbers) → m.body.HasPayload →
      ∃ bytes, encodeBinary numbers m = some bytes ∧ decodeBinary numbers bytes = some (m.map received)) ∧
    ∀ bytes : List UInt8, ∃ c : Cursor bytes, readMessage numbers bytes (Cursor.start bytes) = (decodeBinary numbers bytes, c) ∧
        (∀ range ∈ c.taken, range.1 ≤ range.2 ∧ range.2 ≤ bytes.length) ∧ Tiles c.taken c.offset ∧
          (decodeBinary numbers bytes = none ∨ c.offset = bytes.length) := by
  refine ⟨fun m haccepted hall hpayload => decode_encode haccepted hall hpayload, fun bytes => ?_⟩
  refine ⟨(readMessage numbers bytes (Cursor.start bytes)).2, rfl, ?_, Cursor.tiles _, ?_⟩
  · intro range hrange
    have hle := (Cursor.tiles _).le range hrange
    exact ⟨hle.1, le_trans hle.2 (Cursor.within _)⟩
  · have hall : ReadsAll (readMessage numbers) := .bind fun _ => .bind fun _ => .bind fun _ => .bind fun _ => .bind fun _ => .finish _
    cases hread : readMessage numbers bytes (Cursor.start bytes) with
    | mk m c =>
      rw [decodeBinary, hread]
      cases m with
      | none => exact .inl rfl
      | some m => exact .inr (hall bytes _ _ m hread)

/-- A forwarded call with a trace carrier and a segment. -/
def forwardedCall : Message checked := ⟨some 7, some (.obj []), .call 1 2 3 ⟨some (.text (text "[1]")), some [[1, 2]]⟩⟩

theorem binary_round_trip_call : ∃ bytes, encodeBinary decimalNumbers forwardedCall = some bytes ∧ decodeBinary decimalNumbers bytes =
      some ⟨some 7, some (.obj []), .call 1 2 3 ⟨some (.bytes (encodeUtf8 (text "[1]"))), some [[1, 2]]⟩⟩ := by
  have haccepted : forwardedCall.Accepted :=
    { origin := fun _ => rfl
      closed := fun _ => rfl
      trace := by simp [forwardedCall, Body.kind, Kind.hasTrace, isObject]
      principal := by simp [forwardedCall]
      body := trivial
      origins := by simp [forwardedCall]
      carrier := by simp [forwardedCall, isTrace] }
  have hsized : forwardedCall.All (sized decimalNumbers) := by
    constructor
    · simp [forwardedCall, sized]
    · intro x hx
      cases hx
      exact ⟨.obj .nil (by simp [enumerate]) (by simp), by decide⟩
    · refine ⟨?_, ?_, ?_, ?_, ?_⟩
      · show 1 ≤ 2 ^ 53 - 2
        decide
      · show 2 ≤ 2 ^ 53 - 2
        decide
      · show 3 ≤ 2 ^ 53 - 2
        decide
      · rintro part hpart
        cases hpart
        exact ⟨IsAscii.wellFormed (by decide), by decide⟩
      · rintro segments hsegments
        cases hsegments
        refine ⟨?_, ?_⟩
        · show 1 < 2 ^ 32
          decide
        · intro s hs
          obtain rfl := List.mem_singleton.mp hs
          show 2 < 2 ^ 52
          decide
  exact (binary_round_trip decimalNumbers).1 forwardedCall haccepted hsized fun _ => rfl

end Operations

end PiBridge.Chord.Link
