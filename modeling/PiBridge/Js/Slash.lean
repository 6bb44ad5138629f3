import PiBridge.Js.Props

/-!
# `Js.Slash` — strings as slash-separated segments

`segments s` is `s.split("/")`. A string built by interpolation, `a ++ "/" ++ b`, splits into the
segments of `a` followed by those of `b` (`segments_slash`), and a string without a slash is its own only
segment (`segments_of_noSlash`); these two laws compute the segments of any path a program assembles.
-/

namespace Js

/-- `s.split("/")`. -/
def segments (s : String) : List String := (s.toList.splitOn '/').map String.ofList

/-- The string has no slash in it. -/
def NoSlash (s : String) : Prop := '/' ∉ s.toList

instance (s : String) : Decidable (NoSlash s) := by unfold NoSlash; infer_instance

theorem segments_ne_nil (s : String) : segments s ≠ [] := by
  simp [segments, List.splitOn_ne_nil]

theorem segments_slash (a b : String) : segments (a ++ "/" ++ b) = segments a ++ segments b := by
  have h : (a ++ "/" ++ b).toList = a.toList ++ '/' :: b.toList := by simp
  simp [segments, h, List.splitOn_append_cons_self]

theorem segments_of_noSlash {s : String} (h : NoSlash s) : segments s = [s] := by
  simp [segments, List.splitOn_eq_singleton h]

/-- The decimal form of a number has no slash in it. -/
theorem noSlash_toString (n : Nat) : NoSlash (toString n) := by
  intro h
  rw [Nat.toString_eq_repr, Nat.toList_repr] at h
  have := Nat.isDigit_of_mem_toDigits (by decide) (by decide) h
  revert this; decide

example : segments "/entries/ab" = ["", "entries", "ab"] := by decide

end Js
