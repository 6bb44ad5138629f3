import PiBridge.Core.Sync
import PiBridge.Js.Json

/-!
# `Core.CompactCodec` — the transport compaction pair of one socket

A streamed turn is a run of patches that differ in one appended string. The encoder holds the last full
frame of that form as its template, and sends a frame that differs from it in exactly the appended value as
that value alone. The decoder holds the same template and rebuilds the frame.

A message is modelled by the value its JSON text carries: a bare string for a compacted frame, an object for
a full one.
-/

namespace PiBridge

open Js Js.Value

/-- `compactableFrame`: a patch whose one op is a string append. -/
def compactableFrame (frame : Obj) : Bool :=
  at_ frame "kind" = .str "patch" &&
    match at_ frame "ops" with
    | .arr [.obj op] =>
      at_ op "op" = .str "append" && (at_ op "path").asStr?.isSome && (at_ op "value").asStr?.isSome
    | _ => false

/-- `frame.ops[0]`. -/
def opOf (frame : Obj) : Obj :=
  match at_ frame "ops" with
  | .arr (.obj op :: _) => op
  | _ => []

/-- `shapeOf`: the frame with the appended value removed. -/
def shapeOf (frame : Obj) : Obj := frame.set "ops" (.arr [.obj ((opOf frame).erase "value")])

/-- The last full-form compactable frame a side sent or received. -/
abbrev Template := Option Obj

/-- The frame differs from the held template in exactly the appended value. -/
def continuesRun (template : Template) (frame : Obj) : Bool :=
  compactableFrame frame &&
    match template with
    | none => false
    | some held => shapeEqual (.obj (shapeOf frame)) (.obj (shapeOf held))

/-- `encode`: the template afterwards, and the message. -/
def encode (template : Template) (frame : Obj) : Template × Value :=
  if continuesRun template frame then (template, jsonValue (at_ (opOf frame) "value"))
  else (if compactableFrame frame then some frame else template, jsonValue (.obj frame))

/-- `observe`. -/
def observe (template : Template) (parsed : Obj) : Template := if compactableFrame parsed then some parsed else template

/-- `decode`: `none` when no template is held. -/
def decode (template : Template) (value : String) : Option Obj :=
  template.map fun held => held.set "ops" (.arr [.obj ((opOf held).set "value" (.str value))])

/-- `onMessage`: the template afterwards, and the frame that is handled; none is a protocol error. -/
def onMessage (template : Template) (message : Value) : Template × Option Obj :=
  match message with
  | .str value => (template, decode template value)
  | .obj parsed => (observe template parsed, some parsed)
  | _ => (template, none)

/-- Encode frames in order. -/
def encodeAll (template : Template) : List Obj → Template × List Value
  | [] => (template, [])
  | frame :: frames =>
    let sent := encode template frame
    let rest := encodeAll sent.1 frames
    (rest.1, sent.2 :: rest.2)

/-- Handle messages in order. -/
def onMessages (template : Template) : List Value → Template × List (Option Obj)
  | [] => (template, [])
  | message :: messages =>
    let got := onMessage template message
    let rest := onMessages got.1 messages
    (rest.1, got.2 :: rest.2)

/-! ## The frames a Connection sends -/

/-- A patch operation as it travels. -/
def PatchOp.toValue : PatchOp → Value
  | .add path value => .obj [("op", .str "add"), ("path", .str path), ("value", value)]
  | .remove path => .obj [("op", .str "remove"), ("path", .str path)]
  | .replace path value => .obj [("op", .str "replace"), ("path", .str path), ("value", value)]
  | .move «from» path => .obj [("op", .str "move"), ("from", .str «from»), ("path", .str path)]
  | .append path value isLazy =>
    .obj [("op", .str "append"), ("path", .str path), ("value", .str value), ("lazy", if isLazy then .bool true else .undefined)]

/-- `SessionRef` as it travels. -/
def SessionRef.toValue (session : SessionRef) : Value :=
  .obj [("projectId", .str session.projectId), ("sessionId", .str session.sessionId), ("stem", .str session.stem)]

/-- `PatchMessage`. -/
structure PatchMessage where
  session : Option SessionRef
  ops : Patch
  generation : Nat
  operationId : Option String

/-- A patch message as it travels. -/
def PatchMessage.toObj (msg : PatchMessage) : Obj := [("kind", .str "patch"), ("session", (msg.session.map (·.toValue)).getD .undefined),
    ("ops", .arr (msg.ops.map (·.toValue))), ("generation", .num msg.generation),
    ("operationId", (msg.operationId.map .str).getD .undefined)]

/-- A frame the Connection sends: a JSON object that, if it is a patch, is a `PatchMessage` with its fields
    in some order. Replaces, broadcasts, closes and replies are the others. -/
structure WireFrame (frame : Obj) : Prop where
  json : JsonLike (.obj frame)
  typed : at_ frame "kind" = .str "patch" → ∃ msg : PatchMessage, SameObj frame msg.toObj

/-! ## Compactable frames -/

theorem ops_of_compactable {fr : Obj} (h : compactableFrame fr = true) :
    at_ fr "ops" = .arr [.obj (opOf fr)] ∧ at_ (opOf fr) "op" = .str "append" ∧ ∃ v, at_ (opOf fr) "value" = .str v := by
  unfold compactableFrame at h
  rw [Bool.and_eq_true] at h
  obtain ⟨-, h⟩ := h
  split at h
  · rename_i op hops
    have hop : opOf fr = op := by rw [opOf, hops]
    simp only [Bool.and_eq_true, decide_eq_true_eq] at h
    rw [hop]
    refine ⟨hops, h.1.1, ?_⟩
    cases hv : at_ op "value" with
    | str v => exact ⟨v, rfl⟩
    | _ => simp [hv, asStr?] at h
  · exact Bool.noConfusion h

/-- Structural equality of one-element arrays of objects. -/
theorem same_singleton_iff {m m' : Obj} : Same (.arr [.obj m]) (.arr [.obj m']) ↔ SameObj m m' := by
  rw [same_arr_iff, List.forall₂_cons, same_obj_iff]
  simp

/-- A value that is structurally an array of one object is one. -/
theorem eq_singleton_of_same {m : Obj} {v : Value} (h : Same (.arr [.obj m]) v) : ∃ m', v = .arr [.obj m'] ∧ SameObj m m' := by
  cases v with
  | arr xs =>
    obtain ⟨x, rest, hx, hrest, rfl⟩ := List.forall₂_cons_left_iff.mp (same_arr_iff.mp h)
    obtain rfl := List.forall₂_nil_left_iff.mp hrest
    cases x with
    | obj m' => exact ⟨m', rfl, same_obj_iff.mp hx⟩
    | _ => simp [Same, sem] at hx
  | _ => simp [Same, sem] at h

end PiBridge
