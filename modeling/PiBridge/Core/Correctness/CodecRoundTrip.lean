import PiBridge.Core.CompactCodec

/-!
# `Core.Correctness.CodecRoundTrip` — compaction loses nothing

Whatever frames one codec encodes, the client's codec hands on in the same order, the same up to property
order and `undefined`-valued keys. The two templates move in lockstep: a compacted frame touches neither, a
full compactable frame replaces both, and anything else touches neither.

`shapeEqual` takes an array for an object of its elements, so it could confuse an envelope that holds one
with one that holds the other. The envelopes on this socket hold none: apart from the operation list,
`PatchMessage` has no array.
-/

namespace PiBridge

open Js Js.Value List

variable {a b frame : Obj}

/-- What structurally equals a compactable frame is compactable, with a structurally equal operation. -/
theorem compactable_of_same (h : SameObj a b) (ha : compactableFrame a = true) : compactableFrame b = true ∧ SameObj (opOf a) (opOf b) := by
  obtain ⟨hops, hop, v, hv⟩ := ops_of_compactable ha
  have hkind : at_ a "kind" = .str "patch" := by
    rw [compactableFrame, Bool.and_eq_true, decide_eq_true_eq] at ha
    exact ha.1
  have hpath : ∃ path, at_ (opOf a) "path" = .str path := by
    rw [compactableFrame, hops] at ha
    cases hp : at_ (opOf a) "path" with
    | str path => exact ⟨path, rfl⟩
    | _ => simp [hp, asStr?] at ha
  obtain ⟨path, hpath⟩ := hpath
  obtain ⟨op, hops', hsame⟩ := eq_singleton_of_same (hops ▸ sameObj_iff.mp h "ops")
  have hopb : opOf b = op := by rw [opOf, hops']
  rw [hopb]
  refine ⟨?_, hsame⟩
  rw [compactableFrame, h.at_str hkind, hops']
  simp only [hsame.at_str hop, hsame.at_str hpath, hsame.at_str hv, asStr?_str, Option.isSome_some]
  decide

theorem compactable_congr (h : SameObj a b) : compactableFrame a = compactableFrame b := by
  rw [Bool.eq_iff_iff]
  exact ⟨fun ha => (compactable_of_same h ha).1, fun hb => (compactable_of_same h.symm hb).1⟩

/-! ## Frames of a run have no arrays outside their operation list -/

/-- A compactable frame without further arrays. -/
structure RunFrame (frame : Obj) : Prop where
  compactable : compactableFrame frame = true
  envelope : ∀ k, k ≠ "ops" → ArrayFree (at_ frame k)
  op : ∀ k, ArrayFree (at_ (opOf frame) k)

theorem arrayFree_session (sess : SessionRef) : ArrayFree sess.toValue := by
  refine .obj fun k => ?_
  simp only [at_, Props.get?_cons, Props.get?_nil]
  split_ifs <;> constructor

theorem arrayFree_envelope (msg : PatchMessage) {k : String} (hk : k ≠ "ops") : ArrayFree (at_ msg.toObj k) := by
  have hk : ¬ "ops" = k := fun h => hk h.symm
  simp only [PatchMessage.toObj, at_, Props.get?_cons, Props.get?_nil, if_neg hk]
  split_ifs
  · exact .str _
  · cases msg.session with
    | none => exact .undefined
    | some sess => exact arrayFree_session sess
  · exact .num _
  · cases msg.operationId with
    | none => exact .undefined
    | some id => exact .str id
  · exact .undefined

theorem arrayFree_append (path v : String) (isLazy : Bool) : ArrayFree (PatchOp.append path v isLazy).toValue := by
  refine .obj fun k => ?_
  simp only [at_, Props.get?_cons, Props.get?_nil]
  cases isLazy <;> split_ifs <;> constructor

/-- **A compactable frame the Connection sends is a run frame.** -/
theorem WireFrame.runFrame (h : WireFrame frame) (hc : compactableFrame frame = true) : RunFrame frame := by
  have hkind : at_ frame "kind" = .str "patch" := by
    rw [compactableFrame, Bool.and_eq_true, decide_eq_true_eq] at hc
    exact hc.1
  obtain ⟨msg, hmsg⟩ := h.typed hkind
  refine ⟨hc, fun k hk => (arrayFree_envelope msg hk).of_same (sameObj_iff.mp hmsg k), ?_⟩
  -- the one operation is an append, and an append has no arrays
  obtain ⟨hops, hop, -⟩ := ops_of_compactable hc
  obtain ⟨op, hops', hsame⟩ := eq_singleton_of_same (hops ▸ sameObj_iff.mp hmsg "ops")
  have hlist : Value.arr (msg.ops.map (·.toValue)) = .arr [.obj op] := hops'
  rw [Value.arr.injEq, map_eq_singleton_iff] at hlist
  obtain ⟨patchOp, -, hpatchOp⟩ := hlist
  have htype : at_ op "op" = .str "append" := hsame.at_str hop
  have hfree : ArrayFree (.obj op) := by
    rw [← hpatchOp]
    cases patchOp with
    | append path v isLazy => exact arrayFree_append path v isLazy
    | add | remove | replace | move =>
      cases hpatchOp
      exact absurd htype (by simp [at_, Props.get?_cons])
  cases hfree with
  | obj hfree => exact fun k => (hfree k).of_same (sameObj_iff.mp hsame k)

/-- **Frames of equal shape differ in the appended value only.** -/
theorem same_of_shape (ha : RunFrame a) (hb : RunFrame b) (h : shapeEqual (.obj (shapeOf a)) (.obj (shapeOf b)) = true) :
    (∀ k, k ≠ "ops" → Same (at_ a k) (at_ b k)) ∧ (∀ k, k ≠ "value" → Same (at_ (opOf a) k) (at_ (opOf b) k)) := by
  have hat : ∀ (f : Obj) k, k ≠ "ops" → at_ (shapeOf f) k = at_ f k := fun f k hk => at_set_ne _ _ fun e => hk e.symm
  have herase : ∀ (f : Obj), RunFrame f → ArrayFree (.obj ((opOf f).erase "value")) := by
    intro f hf
    refine .obj fun k => ?_
    by_cases hk : "value" = k
    · subst hk
      rw [at_erase_self]
      exact .undefined
    · rw [at_erase_ne _ hk]
      exact hf.op k
  constructor
  · intro k hk
    have hk' := at_of_shapeEqual h k
    rw [hat a k hk, hat b k hk] at hk'
    rcases hk' with ⟨hnone, hnone'⟩ | hequal
    · rw [hnone, hnone']
    · exact same_of_shapeEqual (ha.envelope k hk) (hb.envelope k hk) hequal
  · intro k hk
    have hops := at_of_shapeEqual h "ops"
    rw [shapeOf, shapeOf, at_set_self, at_set_self] at hops
    have hequal := shapeEqual_singleton (by simp) (hops.resolve_left fun hnone => by simp at hnone)
    have hsame := same_obj_iff.mp (same_of_shapeEqual (herase a ha) (herase b hb) hequal)
    have hat := sameObj_iff.mp hsame k
    rwa [at_erase_ne _ fun e => hk e.symm, at_erase_ne _ fun e => hk e.symm] at hat

/-! ## Lockstep -/

/-- Both sides hold no template, or structurally equal ones. -/
structure Lockstep (encoder decoder : Template) : Prop where
  same : Option.Rel SameObj encoder decoder
  run : ∀ held, encoder = some held → RunFrame held

/-- A full frame arrives as it was sent. -/
theorem jsonValue_frame (h : JsonLike (.obj frame)) : ∃ parsed, jsonValue (.obj frame) = .obj parsed ∧ SameObj frame parsed := by
  refine ⟨toJson.jsonObj frame, rfl, ?_⟩
  exact same_obj_iff.mp (same_toJson h (by rfl))

/-- **The decoder rebuilds what the encoder compacted.** -/
theorem decode_continued {held held' : Obj} {v : String} (hheld : SameObj held held')
    (hrun : RunFrame held) (hfrm : RunFrame frame) (hval : at_ (opOf frame) "value" = .str v)
    (hshape : shapeEqual (.obj (shapeOf frame)) (.obj (shapeOf held)) = true) :
    SameObj frame (held'.set "ops" (.arr [.obj ((opOf held').set "value" (.str v))])) := by
  obtain ⟨henvelope, hop⟩ := same_of_shape hfrm hrun hshape
  obtain ⟨-, hheldOp⟩ := compactable_of_same hheld hrun.compactable
  rw [sameObj_iff]
  intro k
  by_cases hk : "ops" = k
  · subst hk
    rw [at_set_self, (ops_of_compactable hfrm.compactable).1, same_singleton_iff, sameObj_iff]
    intro k'
    by_cases hk' : "value" = k'
    · subst hk'
      rw [at_set_self, hval]
    · rw [at_set_ne _ _ hk']
      exact (hop k' fun e => hk' e.symm).trans (sameObj_iff.mp hheldOp k')
  · rw [at_set_ne _ _ hk]
    exact (henvelope k fun e => hk e.symm).trans (sameObj_iff.mp hheld k)

/-- **One frame: it arrives, and the templates stay in lockstep.** -/
theorem lockstep_step {encoder decoder : Template} (h : Lockstep encoder decoder) (hfrm : WireFrame frame) :
    Lockstep (encode encoder frame).1 (onMessage decoder (encode encoder frame).2).1 ∧
      ∃ frame', (onMessage decoder (encode encoder frame).2).2 = some frame' ∧ SameObj frame frame' := by
  cases hrun : continuesRun encoder frame with
  | true =>
    have hboth := hrun
    rw [continuesRun.eq_def, Bool.and_eq_true] at hboth
    obtain ⟨hc, hshape⟩ := hboth
    obtain ⟨-, -, v, hval⟩ := ops_of_compactable hc
    have henc : encode encoder frame = (encoder, .str v) := by
      rw [encode, if_pos hrun, hval]; rfl
    rw [henc]
    cases encoder with
    | none => exact Bool.noConfusion hshape
    | some held =>
      cases hdecoder : decoder with
      | none => rw [hdecoder] at h; cases h.same
      | some held' =>
        rw [hdecoder] at h
        have hheld : SameObj held held' := by cases h.same; assumption
        exact ⟨h, _, rfl, decode_continued hheld (h.run held rfl) (hfrm.runFrame hc) hval hshape⟩
  | false =>
    obtain ⟨parsed, hparsed, hsame⟩ := jsonValue_frame hfrm.json
    have henc : encode encoder frame = (if compactableFrame frame then some frame else encoder, .obj parsed) := by
      rw [encode, hrun, if_neg (by simp), hparsed]
    rw [henc]
    refine ⟨?_, parsed, rfl, hsame⟩
    show Lockstep (if compactableFrame frame then some frame else encoder) (observe decoder parsed)
    rw [observe, ← compactable_congr hsame]
    cases hc : compactableFrame frame with
    | true =>
      refine ⟨.some hsame, ?_⟩
      rintro held heq
      cases heq
      exact hfrm.runFrame hc
    | false => exact h

/-- **A sequence of frames: each arrives, and the templates end in lockstep.** -/
theorem lockstep_run {encoder decoder : Template} {frs : List Obj} (h : Lockstep encoder decoder)
    (hfrs : ∀ frame ∈ frs, WireFrame frame) :
    Lockstep (encodeAll encoder frs).1 (onMessages decoder (encodeAll encoder frs).2).1 ∧
      List.Forall₂ (fun frame got => ∃ frame', got = some frame' ∧ SameObj frame frame') frs
        (onMessages decoder (encodeAll encoder frs).2).2 := by
  induction frs generalizing encoder decoder with
  | nil => exact ⟨h, .nil⟩
  | cons frame frs ih =>
    obtain ⟨hstep, hgot⟩ := lockstep_step h (hfrs frame mem_cons_self)
    obtain ⟨hend, hrest⟩ := ih hstep fun f hf => hfrs f (mem_cons_of_mem _ hf)
    exact ⟨hend, .cons hgot hrest⟩

theorem encodeAll_take (template : Template) (frs : List Obj) (n : Nat) :
    (encodeAll template (frs.take n)).2 = (encodeAll template frs).2.take n := by
  induction frs generalizing template n with
  | nil => simp [encodeAll]
  | cons frame frs ih =>
    cases n with
    | zero => rfl
    | succ n =>
      rw [take_succ_cons, encodeAll, encodeAll]
      rw [take_succ_cons, ih]

/-- **Round trip.** The frames the client handles are the frames sent, in order, up to property order and
    `undefined`-valued keys; no message is a protocol error; and after every message the two templates are
    structurally equal. -/
theorem codec_round_trip {frames : List Obj} (hframes : ∀ frame ∈ frames, WireFrame frame) :
    List.Forall₂ (fun frame got => ∃ frame', got = some frame' ∧ SameObj frame frame') frames
        (onMessages none (encodeAll none frames).2).2 ∧
      ∀ n, Option.Rel SameObj (encodeAll none (frames.take n)).1
        (onMessages none ((encodeAll none frames).2.take n)).1 := by
  have hstart : Lockstep none none := ⟨.none, by simp⟩
  refine ⟨(lockstep_run hstart hframes).2, fun n => ?_⟩
  rw [← encodeAll_take]
  exact (lockstep_run hstart fun f hf => hframes f (mem_of_mem_take hf)).1.same

/-! ## The messages of the protocol are such frames -/

/-- A patch message of JSON operations is a frame the codec can carry. -/
theorem wireFrame_of_message {msg : PatchMessage} (hops : ∀ op ∈ msg.ops, JsonLike op.toValue) : WireFrame msg.toObj where
  json := by
    refine .obj (by simp [PatchMessage.toObj, Props.keys]) fun p hp => ?_
    simp only [PatchMessage.toObj, mem_cons, not_mem_nil, or_false] at hp
    rcases hp with rfl | rfl | rfl | rfl | rfl
    · exact .str _
    · cases msg.session with
      | none => exact .undefined
      | some sess =>
        refine .obj (by simp [Props.keys]) fun p hp => ?_
        simp only [mem_cons, not_mem_nil, or_false] at hp
        rcases hp with rfl | rfl | rfl <;> exact .str _
    · refine .arr (fun v hv => ?_) fun v hv => ?_
      · obtain ⟨op, -, rfl⟩ := mem_map.mp hv
        cases op <;> simp [PatchOp.toValue]
      · obtain ⟨op, hop, rfl⟩ := mem_map.mp hv
        exact hops op hop
    · exact .num _
    · cases msg.operationId with
      | none => exact .undefined
      | some id => exact .str id
  typed := fun _ => ⟨msg, rfl⟩

/-- A delta of a streamed text. -/
def delta (text : String) : Obj := PatchMessage.toObj ⟨none, [.append "/entries/4f1c09ab/content/0/text" text false], 1, none⟩

theorem wireFrame_delta (text : String) : WireFrame (delta text) := by
  refine wireFrame_of_message fun op hop => ?_
  obtain rfl := mem_singleton.mp hop
  refine .obj (by simp [Props.keys]) fun p hp => ?_
  simp only [mem_cons, not_mem_nil, or_false] at hp
  rcases hp with rfl | rfl | rfl | rfl
  · exact .str _
  · exact .str _
  · exact .str _
  · exact .undefined

/-- The second delta of a run travels as its text alone, across a broadcast. -/
example : (encodeAll none [delta "Hel", [("kind", .str "pinned_models_changed")], delta "lo"]).2.getLast?
    = some (.str "lo") := by decide

/-- Two deltas and a broadcast between them arrive. -/
theorem codec_round_trip_deltas :
    List.Forall₂ (fun frame got => ∃ frame', got = some frame' ∧ SameObj frame frame')
        [delta "Hel", [("kind", .str "pinned_models_changed")], delta "lo"]
        (onMessages none (encodeAll none
          [delta "Hel", [("kind", .str "pinned_models_changed")], delta "lo"]).2).2 := by
  have hbroadcast : WireFrame [("kind", .str "pinned_models_changed")] :=
    { json := by
        refine .obj (by decide) fun p hp => ?_
        obtain rfl := mem_singleton.mp hp
        exact .str _
      typed := fun h => absurd h (by decide) }
  refine (codec_round_trip fun frame hframe => ?_).1
  simp only [mem_cons, not_mem_nil, or_false] at hframe
  rcases hframe with rfl | rfl | rfl
  · exact wireFrame_delta "Hel"
  · exact hbroadcast
  · exact wireFrame_delta "lo"

end PiBridge
