import PiBridge.Chord.Json

/-!
# `Tui.Lines` — the lines of a frame

What `tui.ts` does to the lines that the components render before they are compared and written: the cursor marker is
found in the visible part and removed (`extractCursorPosition`), and every line gets a reset of colors and hyperlink at its
end (`applyLineResets`), so that no line that is written is empty. The lines hold no images.
-/

namespace PiBridge.Tui

open Chord List

/-- Cursor position marker - APC (Application Program Command) sequence, zero-width. -/
def cursorMarker : Text := text "\x1b_pi:c\x07"

def segmentReset : Text := text "\x1b[0m\x1b]8;;\x07"

/-- `indexOf(CURSOR_MARKER)`. -/
def markerIndex : Text → Option Nat
  | [] => none
  | c :: s => if cursorMarker.isPrefixOf (c :: s) then some 0 else (markerIndex s).map (· + 1)

/-- `replaceAll(CURSOR_MARKER, "")`, which is `skip` characters before the end of a marker. -/
def dropMarkers (skip : Nat) : Text → Text
  | [] => []
  | c :: s =>
    match skip with
    | skip + 1 => dropMarkers skip s
    | 0 => if cursorMarker.isPrefixOf (c :: s) then dropMarkers (cursorMarker.length - 1) s else c :: dropMarkers 0 s

/-- Up to the end of an OSC or APC sequence: BEL or ST. -/
def stringEnd : Text → Option Nat
  | [] => none
  | c :: s => if c = 0x07 then some 1 else if c = 0x1b ∧ s.head? = some 0x5c then some 2 else (stringEnd s).map (· + 1)

/-- Length of the ANSI/OSC/APC escape sequence at the start, or 0 if there is none. -/
def ansiCodeLength : Text → Nat
  | 0x1b :: next :: s =>
    -- CSI sequence: ESC [ ... m/G/K/H/J
    if next = 0x5b then (s.findIdx? fun c => c ∈ [0x6d, 0x47, 0x4b, 0x48, 0x4a]).elim 0 (· + 3)
    else if next = 0x5d ∨ next = 0x5f then (stringEnd s).elim 0 (· + 2)
    else 0
  | _ => 0

/-- The loop of `normalizeTerminalOutput`, in which `copy` more characters belong to an escape sequence. -/
def expandTabs (copy : Nat) : Text → Text
  | [] => []
  | c :: s =>
    match copy, ansiCodeLength (c :: s) with
    | copy + 1, _ => c :: expandTabs copy s
    | 0, length + 1 => c :: expandTabs length s
    | 0, 0 => (if c = 0x09 then [0x20, 0x20, 0x20] else [c]) ++ expandTabs 0 s

/-- Thai and Lao AM vowels are written as their two parts. -/
def splitAm (c : UInt16) : Text := if c = 0x0e33 then [0x0e4d, 0x0e32] else if c = 0x0eb3 then [0x0ecd, 0x0eb2] else [c]

def normalizeTerminalOutput (str : Text) : Text :=
  let normalized := str.flatMap splitAm
  if normalized.contains 0x09 then expandTabs 0 normalized else normalized

/-- Cursor markers are internal render metadata and must never reach terminal output. -/
def applyLineReset (line : Text) : Text := normalizeTerminalOutput (dropMarkers 0 line) ++ segmentReset

def applyLineResets (lines : List Text) : List Text := lines.map applyLineReset

structure CursorPos where
  row : Nat
  col : Nat

section

variable (visibleWidth : Text → Nat)

/-- The marker in a row. -/
def cursorIn (lines : List Text) (row : Nat) : Option CursorPos :=
  lines[row]?.bind fun line => (markerIndex line).map fun index => ⟨row, visibleWidth (line.take index)⟩

/-- The rows of the visible part, last first. -/
def scannedRows (lines : List Text) (height : Nat) : List Nat :=
  (List.range' (lines.length - height) (lines.length - (lines.length - height))).reverse

/-- Only scans the bottom `height` lines (visible viewport); the markers of the row are removed. -/
def extractCursorPosition (lines : List Text) (height : Nat) : Option CursorPos × List Text :=
  match (scannedRows lines height).findSome? (cursorIn visibleWidth lines) with
  | some cursorPos => (some cursorPos, lines.modify cursorPos.row (dropMarkers 0))
  | none => (none, lines)

end

/-! ## What the renderer relies on -/

theorem applyLineReset_ne_nil (line : Text) : applyLineReset line ≠ [] := by
  intro heq
  exact absurd (append_eq_nil_iff.mp heq).2 (by decide)

variable {lines : List Text}

theorem applyLineResets_ne_nil {line : Text} (h : line ∈ applyLineResets lines) : line ≠ [] := by
  obtain ⟨raw, -, rfl⟩ := mem_map.mp h
  exact applyLineReset_ne_nil raw

theorem cursorIn_row {visibleWidth : Text → Nat} {row : Nat} {pos : CursorPos}
    (h : cursorIn visibleWidth lines row = some pos) : pos.row = row ∧ row < lines.length := by
  obtain ⟨line, hline, hidx⟩ := Option.bind_eq_some_iff.mp h
  obtain ⟨idx, -, rfl⟩ := Option.map_eq_some_iff.mp hidx
  exact ⟨rfl, (List.getElem?_eq_some_iff.mp hline).1⟩

/-- A marker is found among the last `height` lines. -/
theorem extractCursorPosition_row {visibleWidth : Text → Nat} {height : Nat} {pos : CursorPos}
    (h : (extractCursorPosition visibleWidth lines height).1 = some pos) :
    lines.length ≤ pos.row + height ∧ pos.row < lines.length := by
  unfold extractCursorPosition at h
  split at h
  · rename_i fnd hfnd
    cases h
    obtain ⟨row, hscanned, hrow⟩ := exists_of_findSome?_eq_some hfnd
    obtain ⟨rfl, hlt⟩ := cursorIn_row hrow
    rw [scannedRows, mem_reverse, mem_range'_1] at hscanned
    omega
  · cases h

theorem extractCursorPosition_length (visibleWidth : Text → Nat) (lines : List Text) (height : Nat) :
    (extractCursorPosition visibleWidth lines height).2.length = lines.length := by
  unfold extractCursorPosition
  split
  · exact length_modify _ _ _
  · rfl

end PiBridge.Tui
