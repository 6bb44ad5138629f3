import PiBridge.Core.Document

/-!
# `Core.Strip` — withholding lazy fields from a snapshot

Thinking text, tool arguments, tool result content and details, and system-prompt sections travel only to a
client that asked for them. `stripLazyFields` takes them out of an entry by the entry's shape, and
`snapshotForWire` out of every entry of a document.
-/

namespace PiBridge

open Js Js.Value

/-- Null the lazy field of a content block. -/
def stripBlock (block : Value) : Value :=
  let b := block.asObj
  let b := if at_ b "type" = .str "thinking" ∧ b.has "thinking" then b.set "thinking" .null else b
  .obj (if at_ b "type" = .str "toolCall" ∧ b.has "arguments" then b.set "arguments" .null else b)

/-- `stripLazyFields`, the `sections` of a system message. -/
def stripSections (m : Obj) : Obj :=
  if at_ m "kind" = .str "message" ∧ (at_ m "sections").isNullish = false then m.set "sections" .null else m

/-- `stripLazyFields`, the `content`. -/
def stripContent (m : Obj) : Obj :=
  if m.has "content" then
    if at_ m "kind" = .str "tool_result" then m.set "content" .null
    else match at_ m "content" with
      | .arr blocks => m.set "content" (.arr (blocks.map stripBlock))
      | _ => m
  else m

/-- `stripLazyFields`, the `details` of a tool result. -/
def stripDetails (m : Obj) : Obj := if m.has "details" ∧ at_ m "kind" = .str "tool_result" then m.set "details" .null else m

/-- `stripLazyFields`. -/
def stripLazyFields (entry : Value) : Value := .obj (stripDetails (stripContent (stripSections entry.asObj)))

/-! ## What stripping leaves -/

variable {k : String}

theorem at_stripSections_ne (m : Obj) (h : "sections" ≠ k) : at_ (stripSections m) k = at_ m k := by
  unfold stripSections
  split
  · exact at_set_ne _ _ h
  · rfl

theorem at_stripContent_ne (m : Obj) (h : "content" ≠ k) : at_ (stripContent m) k = at_ m k := by
  unfold stripContent
  split
  · split
    · exact at_set_ne _ _ h
    · split
      · exact at_set_ne _ _ h
      · rfl
  · rfl

theorem at_stripDetails_ne (m : Obj) (h : "details" ≠ k) : at_ (stripDetails m) k = at_ m k := by
  unfold stripDetails
  split
  · exact at_set_ne _ _ h
  · rfl

/-- **Stripping leaves every field that is not lazy.** -/
theorem get_stripLazyFields (e : Value) (hs : "sections" ≠ k) (hc : "content" ≠ k)
    (hd : "details" ≠ k) : get (stripLazyFields e) k = at_ e.asObj k := by
  rw [stripLazyFields, get_obj, at_stripDetails_ne _ hd, at_stripContent_ne _ hc, at_stripSections_ne _ hs]

end PiBridge
