import PiBridge.Chord.Delta.Codec

/-!
# `Chord.Correctness.CodecStream` — the decoder keeps up with the encoder

The two dictionaries are `Aligned`: an id the encoder would write names, for the decoder, the path whose key
it has. The previous path is aligned when the encoder has one; the decoder may remember more, which is why
batches can be run together. One operation keeps both (`decodeFrom_encodeOp`), so a batch does, and a stream.
After a replacement the encoder remembers nothing, so any decoder is aligned with it.
-/

namespace PiBridge.Chord

open List Option Bool Function

/-! ## What stands in a tuple reads back -/

@[simp] theorem nat?_natJson (n : Nat) : nat? (natJson n) = some n := by
  simp [nat?, natJson]

@[simp] theorem ofJson?_toJson_seg (seg : Seg) : Seg.ofJson? seg.toJson = some seg := by
  cases seg with
  | key s => rfl
  | index n => simp [Seg.toJson, Seg.ofJson?, natJson, nat?]

theorem mapM_map_some {α β : Type} {f : α → β} {g : β → Option α} (h : ∀ x, g (f x) = some x) (xs : List α) :
    (xs.map f).mapM g = some xs := by
  induction xs with
  | nil => rfl
  | cons x xs ih => simp [mapM_cons, h, ih]

variable {path : Path} {op : Op} {dec : Decoder} {prev : Option Path} {enc : Encoder} {ops : List Op}
  {batches : List (List Op)}

theorem ofJson?_toJson (h : path.isSafe = true) : Path.ofJson? path.toJson = some path := by
  simp [Path.ofJson?, Path.toJson, mapM_map_some ofJson?_toJson_seg, h]

theorem permutation?_map {perm : List Nat} (h : isPermutation perm = true) : permutation? (.arr (perm.map natJson)) = some perm := by
  simp [permutation?, mapM_map_some nat?_natJson, h]

theorem okRef_natJson (n : Nat) : okRef (natJson n) = true := by
  show (nat? (natJson n)).isSome = true
  simp

theorem okRef_toJson (h : path.isSafe = true) : okRef path.toJson = true := by
  show (Path.ofJson? path.toJson).isSome = true
  rw [ofJson?_toJson h]
  rfl

/-! ## What a valid operation is written as -/

attribute [local simp] Op.isValid Op.path? Op.verbOf

section

variable (hvald : op.isValid = true) (hpath : op.path? = some path)

include hvald hpath

theorem path?_safe : path.isSafe = true := by
  cases op <;> simp_all [Op.isValid, Op.path?]

/-- A tuple without a path is valid, and short. -/
theorem tuple_none :
    assertValidWireOp (op.tuple none) = true ∧ isShort op.verbOf op.payload = true := by
  cases op with
  | r _ => exact nomatch hpath
  | s _ _ => exact ⟨rfl, rfl⟩
  | d _ => exact ⟨rfl, rfl⟩
  | a _ _ => exact ⟨rfl, rfl⟩
  | t _ cnt =>
    refine ⟨?_, rfl⟩
    show (nat? (natJson cnt)).isSome = true
    simp
  | p _ idx rm _ =>
    refine ⟨?_, rfl⟩
    show ((nat? (natJson idx)).isSome && (nat? (natJson rm)).isSome) = true
    simp
  | m _ perm =>
    refine ⟨?_, rfl⟩
    show (permutation? (.arr (perm.map natJson))).isSome = true
    simp only [Op.isValid, and_eq_true] at hvald
    rw [permutation?_map hvald.2]
    rfl

/-- A tuple with a path is valid, and not short. -/
theorem tuple_some {ref : Json} (href : okRef ref = true) :
    assertValidWireOp (op.tuple (some ref)) = true ∧ isShort op.verbOf (ref :: op.payload) = false := by
  cases op with
  | r _ => exact nomatch hpath
  | s _ _ | d _ | a _ _ => exact ⟨href, rfl⟩
  | t _ cnt =>
    refine ⟨?_, rfl⟩
    show (okRef ref && (nat? (natJson cnt)).isSome) = true
    simp [href]
  | p _ idx rm _ =>
    refine ⟨?_, rfl⟩
    show (okRef ref && (nat? (natJson idx)).isSome && (nat? (natJson rm)).isSome) = true
    simp [href]
  | m _ perm =>
    refine ⟨?_, rfl⟩
    show (okRef ref && (permutation? (.arr (perm.map natJson))).isSome) = true
    simp only [Op.isValid, and_eq_true] at hvald
    rw [permutation?_map hvald.2, href]
    rfl

/-- The verb, the path and the payload of a valid operation are the operation. -/
theorem readOp_payload : readOp op.verbOf path op.payload = some op := by
  cases op with
  | r _ => exact nomatch hpath
  | s _ _ | d _ | a _ _ =>
    cases hpath
    simp only [Op.isValid, and_eq_true, not_eq_true', isEmpty_eq_false_iff] at hvald
    unfold readOp
    rw [if_neg (fun h => hvald.1 h.2.2)]
    rfl
  | t _ cnt =>
    cases hpath
    simp only [Op.isValid, and_eq_true, not_eq_true', isEmpty_eq_false_iff] at hvald
    unfold readOp
    rw [if_neg (fun h => hvald.1 h.2.2)]
    show (nat? (natJson cnt)).map (Op.t _) = _
    simp
  | p _ idx rm its =>
    cases hpath
    unfold readOp
    show (nat? (natJson idx)).bind (fun idx => (nat? (natJson rm)).map fun rm =>
      Op.p _ idx rm its) = _
    simp
  | m _ perm =>
    cases hpath
    unfold readOp
    show (permutation? (.arr (perm.map natJson))).map (Op.m _) = _
    simp only [Op.isValid, and_eq_true] at hvald
    rw [permutation?_map hvald.2]
    rfl

end

/-- No operation has the verb of a definition, and only a replacement has no path. -/
theorem verbOf_ne (hpath : op.path? = some path) : op.verbOf ≠ verb "#" ∧ op.verbOf ≠ verb "r" := by
  cases op with
  | r _ => exact nomatch hpath
  | s _ _ | d _ | a _ _ | t _ _ | p _ _ _ _ | m _ _ =>
    constructor <;> simp only [Op.verbOf] <;> decide

/-! ## One tuple -/

/-- A tuple without a path reads back on the previous path. -/
theorem decodeOp_short (hvald : op.isValid = true) (hpath : op.path? = some path) :
    decodeOp dec (some path) (op.tuple none) = some (dec, some path, [op]) := by
  obtain ⟨hacpt, hshort⟩ := tuple_none hvald hpath
  obtain ⟨hdefine, hrepl⟩ := verbOf_ne hpath
  unfold decodeOp
  rw [if_pos hacpt]
  simp only [Op.tuple, toList_none, nil_append, if_neg hdefine, if_neg hrepl, hshort, if_true,
    bind_some, readOp_payload hvald hpath, map_some]

/-- A tuple with a path or an id reads back on the path it stands for. -/
theorem decodeOp_ref {ref : Json} (hvald : op.isValid = true) (hpath : op.path? = some path) (href : okRef ref = true)
    (hresolve : dec.resolveRef ref = some path) : decodeOp dec prev (op.tuple (some ref)) = some (dec, some path, [op]) := by
  obtain ⟨hacpt, hshort⟩ := tuple_some hvald hpath href
  obtain ⟨hdefine, hrepl⟩ := verbOf_ne hpath
  unfold decodeOp
  rw [if_pos hacpt]
  simp only [Op.tuple, toList_some, singleton_append, if_neg hdefine, if_neg hrepl, hshort,
    false_eq_true, if_false, hresolve, bind_some, readOp_payload hvald hpath, map_some]

theorem decodeOp_define {id : Nat} (hsafe : path.isSafe = true) : decodeOp dec prev [verb "#", natJson id, path.toJson] =
      some ({ paths := Function.update dec.paths id (some path) }, prev, []) := by
  have hacpt : assertValidWireOp [verb "#", natJson id, path.toJson] = true := by
    show ((nat? (natJson id)).isSome && (Path.ofJson? path.toJson).isSome) = true
    simp [ofJson?_toJson hsafe]
  unfold decodeOp
  rw [if_pos hacpt]
  simp [ofJson?_toJson hsafe]

theorem resolveRef_natJson (dec : Decoder) (id : Nat) : dec.resolveRef (natJson id) = dec.paths id := by
  show (nat? (natJson id)).bind dec.paths = _
  rw [nat?_natJson, bind_some]

theorem resolveRef_toJson (dec : Decoder) (hsafe : path.isSafe = true) : dec.resolveRef path.toJson = some path := ofJson?_toJson hsafe

/-! ## The dictionaries stay aligned -/

/-- What an id of the encoder names. -/
structure Aligned (enc : Encoder) (dec : Decoder) : Prop where
  paths : ∀ path id, enc.ids (pathKey path) = some id → dec.paths id = some path
  fresh : ∀ key id, enc.ids key = some id → id < enc.nextId

/-- Where the encoder would omit a path, the decoder has it. -/
def PreviousAligned (key : Option Text) (path : Option Path) : Prop := ∀ k, key = some k → ∃ p, path = some p ∧ pathKey p = k

theorem aligned_start (dec : Decoder) : Aligned Encoder.start dec := ⟨nofun, nofun⟩

theorem previousAligned_none (path : Option Path) : PreviousAligned none path := nofun

theorem previousAligned_some (path : Path) : PreviousAligned (some (pathKey path)) (some path) := by
  intro k hk
  exact ⟨path, rfl, some.inj hk⟩

/-- A new id names its path, and the others what they named. -/
theorem Aligned.define {enc : Encoder} {dec : Decoder} (h : Aligned enc dec) (path : Path) :
    Aligned
      { enc with
        ids := Function.update enc.ids (pathKey path) (some enc.nextId)
        nextId := enc.nextId + 1 }
      { paths := Function.update dec.paths enc.nextId (some path) } := by
  constructor
  · intro q id hid
    simp only [update_apply] at hid ⊢
    split at hid
    · rename_i hkey
      rw [← some.inj hid, if_pos rfl, pathKey_injective hkey]
    · have hlt := h.fresh _ id hid
      rw [if_neg (by omega)]
      exact h.paths q id hid
  · intro key id hid
    simp only [update_apply] at hid ⊢
    split at hid
    · cases hid
      exact Nat.lt_succ_self _
    · exact Nat.lt_succ_of_lt (h.fresh key id hid)

/-- **Step lemma.** The decoder reads one operation back, and both ends stay aligned. -/
theorem decodeFrom_encodeOp {enc : Encoder} {dec : Decoder} {key : Option Text} {prev : Option Path} {op : Op}
    (halgn : Aligned enc dec) (hprev : PreviousAligned key prev) (hvald : op.isValid = true) :
    ∃ dec' prev', decodeFrom dec prev (encodeOp enc key op).2.2 = some (dec', prev', [op]) ∧
      Aligned (encodeOp enc key op).1 dec' ∧ PreviousAligned (encodeOp enc key op).2.1 prev' := by
  cases hpath : op.path? with
  | none =>
    cases op with
    | r v => exact ⟨Decoder.start, none, rfl, aligned_start _, previousAligned_none _⟩
    | s _ _ | d _ | a _ _ | t _ _ | p _ _ _ _ | m _ _ => exact nomatch hpath
  | some path =>
    have hsafe := path?_safe hvald hpath
    simp only [encodeOp, hpath]
    split
    · -- The path of the operation before: it is not written.
      rename_i hkey
      obtain ⟨p, rfl, hp⟩ := hprev _ hkey
      obtain rfl := pathKey_injective hp
      refine ⟨dec, some p, ?_, halgn, ?_⟩
      · simp [decodeFrom, decodeOp_short hvald hpath]
      · rw [hkey]
        exact previousAligned_some p
    · split
      · -- An interned path: its id is written.
        rename_i id hid
        refine ⟨dec, some path, ?_, halgn, previousAligned_some path⟩
        have hresolve := (resolveRef_natJson dec id).trans (halgn.paths path id hid)
        simp [decodeFrom, decodeOp_ref hvald hpath (okRef_natJson id) hresolve]
      · split
        · -- The second use: the path is defined, then its id is written.
          refine ⟨_, some path, ?_, halgn.define path, previousAligned_some path⟩
          have hresolve : Decoder.resolveRef { paths := update dec.paths enc.nextId (some path) }
              (natJson enc.nextId) = some path := by
            rw [resolveRef_natJson]
            simp
          simp [decodeFrom, decodeOp_define hsafe, decodeOp_ref hvald hpath (okRef_natJson _) hresolve]
        · -- The first use: the path is written.
          refine ⟨dec, some path, ?_, ⟨halgn.paths, halgn.fresh⟩, previousAligned_some path⟩
          simp [decodeFrom, decodeOp_ref hvald hpath (okRef_toJson hsafe) (resolveRef_toJson dec hsafe)]

/-! ## A batch -/

/-- Wires read one after the other are read as one, by a decoder that goes on. -/
theorem decodeFrom_append {dec' dec'' : Decoder} {prev' prev'' : Option Path}
    {wire wire' : List Tuple} {ops' : List Op} (h : decodeFrom dec prev wire = some (dec', prev', ops))
    (h' : decodeFrom dec' prev' wire' = some (dec'', prev'', ops')) :
    decodeFrom dec prev (wire ++ wire') = some (dec'', prev'', ops ++ ops') := by
  induction wire generalizing dec prev ops with
  | nil =>
    obtain ⟨rfl, rfl, rfl⟩ := h
    exact h'
  | cons op wire ih =>
    simp only [decodeFrom, bind_eq_some_iff, map_eq_some_iff] at h
    obtain ⟨⟨dec₁, prev₁, out⟩, hop, ⟨dec₂, prev₂, rest⟩, hrest, heq⟩ := h
    obtain ⟨rfl, rfl, rfl⟩ := heq
    simp [decodeFrom, hop, ih hrest]

/-- **Run lemma.** The decoder reads the operations of a batch back, and both ends stay aligned. -/
theorem decodeFrom_encodeFrom {key : Option Text} (halgn : Aligned enc dec) (hprev : PreviousAligned key prev)
    (hvald : ∀ op ∈ ops, op.isValid = true) :
    ∃ dec' prev', decodeFrom dec prev (encodeFrom enc key ops).2.2 = some (dec', prev', ops) ∧
      Aligned (encodeFrom enc key ops).1 dec' ∧ PreviousAligned (encodeFrom enc key ops).2.1 prev' := by
  induction ops generalizing enc dec key prev with
  | nil => exact ⟨dec, prev, rfl, halgn, hprev⟩
  | cons op ops ih =>
    obtain ⟨dec₁, prev₁, hop, halgn₁, hprev₁⟩ := decodeFrom_encodeOp halgn hprev (hvald op (by simp))
    obtain ⟨dec₂, prev₂, hops, halgn₂, hprev₂⟩ := ih halgn₁ hprev₁ (fun x hx => hvald x (by simp [hx]))
    exact ⟨dec₂, prev₂, decodeFrom_append hop hops, halgn₂, hprev₂⟩

/-- Batches that are run together are read as one batch: each begins with an explicit path, so it does not
    matter which path the decoder remembers. -/
theorem decodeFrom_encodeAll (prev : Option Path)
    (halgn : Aligned enc dec) (hvald : ∀ ops ∈ batches, ∀ op ∈ ops, op.isValid = true) :
    ∃ dec' prev', decodeFrom dec prev (encodeAll enc batches).flatten = some (dec', prev', batches.flatten) ∧
      Aligned (encoderAfter enc batches) dec' := by
  induction batches generalizing enc dec prev with
  | nil => exact ⟨dec, prev, rfl, halgn⟩
  | cons ops batches ih =>
    obtain ⟨dec₁, prev₁, hops, halgn₁, -⟩ := decodeFrom_encodeFrom halgn (previousAligned_none prev) (hvald ops (by simp))
    obtain ⟨dec₂, prev₂, hbatches, halgn₂⟩ := ih prev₁ halgn₁ (fun x hx => hvald x (by simp [hx]))
    exact ⟨dec₂, prev₂, decodeFrom_append hops hbatches, halgn₂⟩

/-! ## A stream -/

attribute [local simp] encodeAll decodeAll encoderAfter

theorem encodeAll_append (enc : Encoder) (batches batches' : List (List Op)) :
    encodeAll enc (batches ++ batches') = encodeAll enc batches ++ encodeAll (encoderAfter enc batches) batches' := by
  induction batches generalizing enc with
  | nil => rfl
  | cons ops batches ih => simp [encodeAll, encoderAfter, ih]

theorem length_encodeAll (enc : Encoder) (batches : List (List Op)) : (encodeAll enc batches).length = batches.length := by
  induction batches generalizing enc with
  | nil => rfl
  | cons ops batches ih => simp [encodeAll, ih]

/-- A decoder aligned with the encoder reads what the encoder writes, and so does what comes after. -/
theorem decodeAll_encodeAll_append (halgn : Aligned enc dec) (hvald : ∀ ops ∈ batches, ∀ op ∈ ops, op.isValid = true) :
    ∃ dec', Aligned (encoderAfter enc batches) dec' ∧
      ∀ wires, decodeAll dec (encodeAll enc batches ++ wires) = (decodeAll dec' wires).map (batches ++ ·) := by
  induction batches generalizing enc dec with
  | nil => exact ⟨dec, halgn, fun wires => by simp [encodeAll]⟩
  | cons ops batches ih =>
    obtain ⟨dec₁, prev₁, hops, halgn₁, -⟩ := decodeFrom_encodeFrom halgn (previousAligned_none none) (hvald ops (by simp))
    obtain ⟨dec₂, halgn₂, hrest⟩ := ih halgn₁ (fun x hx => hvald x (by simp [hx]))
    refine ⟨dec₂, halgn₂, ?_⟩
    intro wires
    have hdec : dec.decode (enc.encode ops).2 = some (dec₁, ops) := by
      simp only [Decoder.decode, Encoder.encode]
      rw [hops]
      rfl
    have henc : (enc.encode ops).1 = (encodeFrom enc none ops).1 := rfl
    simp only [encodeAll, cons_append, decodeAll, hdec, Option.bind_some, henc, hrest, Option.map_map]
    rfl

theorem decodeAll_encodeAll (halgn : Aligned enc dec) (hvald : ∀ ops ∈ batches, ∀ op ∈ ops, op.isValid = true) :
    decodeAll dec (encodeAll enc batches) = some batches := by
  obtain ⟨dec', -, hrest⟩ := decodeAll_encodeAll_append halgn hvald
  simpa [decodeAll] using hrest []

/-- A batch that begins with a replacement is read by any decoder, and so are the later ones. -/
theorem decodeAll_of_isBase (hbase : isBase ops = true) (hvald : ∀ ops' ∈ ops :: batches, ∀ op ∈ ops', op.isValid = true) :
    decodeAll dec (encodeAll enc (ops :: batches)) = some (ops :: batches) := by
  match ops, hbase with
  | .r value :: rest, _ =>
    -- The replacement clears both dictionaries, so it does not matter what the encoder held before.
    have hsta := decodeAll_encodeAll (aligned_start dec) hvald
    exact hsta

/-- **The stream round-trips.** For every sequence of valid batches, one decoder reads back what one encoder
    writes; consecutive batches run together are read as one; and from any batch that begins with a
    replacement on, a fresh decoder reads it and all later ones. -/
theorem stream_round_trip (batches : List (List Op)) (hvalid : ∀ ops ∈ batches, ∀ op ∈ ops, op.isValid = true) :
    decodeAll Decoder.start (encodeAll Encoder.start batches) = some batches ∧
    (∀ earlier together later, batches = earlier ++ together ++ later →
      ∃ wires wires' wires'', encodeAll Encoder.start batches = wires ++ wires' ++ wires'' ∧
        wires.length = earlier.length ∧ wires'.length = together.length ∧
        decodeAll Decoder.start (wires ++ [wires'.flatten] ++ wires'') = some (earlier ++ [together.flatten] ++ later)) ∧
    (∀ earlier ops later, batches = earlier ++ ops :: later → isBase ops = true →
      decodeAll Decoder.start ((encodeAll Encoder.start batches).drop earlier.length) = some (ops :: later)) := by
  refine ⟨decodeAll_encodeAll (aligned_start _) hvalid, ?_, ?_⟩
  · rintro earlier together later rfl
    rw [append_assoc] at hvalid ⊢
    refine ⟨_, _, encodeAll (encoderAfter (encoderAfter Encoder.start earlier) together) later, ?_,
      length_encodeAll Encoder.start earlier,
      length_encodeAll (encoderAfter Encoder.start earlier) together, ?_⟩
    · rw [encodeAll_append, encodeAll_append, append_assoc]
    · obtain ⟨dec₁, haligned₁, hearlier⟩ := decodeAll_encodeAll_append (aligned_start Decoder.start)
        (fun ops' (hops' : ops' ∈ earlier) => hvalid ops' (by simp [hops']))
      obtain ⟨dec₂, previous₂, htogether, haligned₂⟩ :=
        decodeFrom_encodeAll none haligned₁ (fun ops' (hops' : ops' ∈ together) => hvalid ops' (by simp [hops']))
      have hlater := decodeAll_encodeAll haligned₂ (fun ops' (hops' : ops' ∈ later) => hvalid ops' (by simp [hops']))
      rw [append_assoc, hearlier]
      simp only [singleton_append, decodeAll, Decoder.decode, htogether, map_some, bind_some, hlater, append_assoc]
  · rintro earlier ops later rfl hbase
    rw [encodeAll_append, drop_append_of_le_length (by rw [length_encodeAll]), drop_of_length_le (by rw [length_encodeAll]), nil_append]
    exact decodeAll_of_isBase hbase (fun x hx => hvalid x (mem_append_right _ hx))

theorem stream_round_trip_example :
    decodeAll Decoder.start (encodeAll Encoder.start
      [[.r .null, .s [.key (text "a")] .null, .a [.key (text "a")] (text "x")],
        [.d [.key (text "a")]], [.s [.key (text "a"), .index 0] .null, .p [] 0 1 []]]) =
      some [[.r .null, .s [.key (text "a")] .null, .a [.key (text "a")] (text "x")],
        [.d [.key (text "a")]], [.s [.key (text "a"), .index 0] .null, .p [] 0 1 []]] :=
  (stream_round_trip _ (by decide)).1

end PiBridge.Chord
