import PiBridge.Tui.Correctness.Drawing

/-!
# `Tui.Correctness.Frames` — every branch of a render leaves the frame on the screen

Between two renders the sheet of the terminal is what stood there before, then the lines of the frame, then blank rows,
and the renderer's fields place the screen and the cursor on it (`Drawn`). The one thing a render can get wrong is the row
of the cursor: a marker above the screen is out of reach of a relative move (`Reachable`).
-/

namespace PiBridge.Tui

open Chord Lib Lib.Terminal TuiMainScreen List

section

variable {Cell : Type} [Inhabited Cell] (cells : Text → List Cell)

/-- The frame stands below the rows `before`. The cursor is on the row that is recorded for it, or on the first row of the screen
    if that one is above the screen. -/
structure Drawn (before : List (List Cell)) (screen : TuiMainScreen) (t : Terminal Cell) : Prop where
  sheet : ∃ blank top, t.At t.width t.rows.length (before ++ screen.previousLines.map cells ++ List.replicate blank [])
    top (max top (before.length + screen.hardwareCursorRow)) ∧ screen.previousViewportTop = top - before.length
  nonempty : ∀ line ∈ screen.previousLines, line ≠ []
  below : screen.previousViewportTop = 0 ∨ screen.previousViewportTop < screen.previousLines.length
  row : screen.hardwareCursorRow ≤ screen.previousLines.length - 1
  start : screen.previousLines = [] → t.col = 0
  size : screen.previousWidth = t.width ∧ screen.previousHeight = t.rows.length ∨
    screen.previousWidth = 0 ∧ screen.previousHeight = 0 ∧ screen.previousLines = []

/-- The recorded row of the cursor is on the screen. -/
def Reachable (screen : TuiMainScreen) : Prop := screen.previousViewportTop ≤ screen.hardwareCursorRow

variable {cells} {before : List (List Cell)} {s : TuiMainScreen} {d : Drawing} {t : Terminal Cell} {w ht top blank : Nat}

/-! ## The cursor -/

/-- A drawing whose cursor is on one of the last `height` lines, and whose lines are written with a reset. -/
structure Drawing.Proper (drawing : Drawing) : Prop where
  cursor : ∀ cursorPos, drawing.cursorPos = some cursorPos →
    drawing.newLines.length ≤ cursorPos.row + drawing.height ∧ cursorPos.row < drawing.newLines.length
  nonempty : ∀ line ∈ drawing.newLines, line ≠ []

theorem drawing_proper (visibleWidth : Text → Nat) (w ht : Nat) (fr : Frame) : (fr.drawing visibleWidth w ht).Proper := by
  have hlen : (fr.drawing visibleWidth w ht).newLines.length = fr.lines.length := by
    show (applyLineResets _).length = _
    rw [applyLineResets, length_map, extractCursorPosition_length]
  constructor
  · intro pos hcurs
    rw [hlen]
    exact extractCursorPosition_row hcurs
  · exact fun _ => applyLineResets_ne_nil

theorem positionHardwareCursor_screen (s : TuiMainScreen) (hcurs : ∀ pos, d.cursorPos = some pos → pos.row < d.newLines.length) :
    (s.positionHardwareCursor d.showHardwareCursor d.cursorPos d.newLines.length).1 =
      { s with hardwareCursorRow := (d.cursorPos.map CursorPos.row).getD s.hardwareCursorRow } := by
  cases hpos : d.cursorPos with
  | none => rfl
  | some pos =>
    have hlt := hcurs pos hpos
    cases hlines : d.newLines.length with
    | zero => omega
    | succ lines =>
      show ({ s with hardwareCursorRow := min pos.row lines } : TuiMainScreen) = _
      rw [Nat.min_eq_left (by omega)]
      rfl

/-- The cursor ends on the row of the marker, if the screen has it. -/
theorem positionHardwareCursor_at (cells : Text → List Cell) {sheet : List (List Cell)} (h : t.At w ht sheet top (before.length + s.hardwareCursorRow))
    (hcurs : ∀ pos, d.cursorPos = some pos → pos.row < d.newLines.length)
    (hsheet : before.length + d.newLines.length ≤ sheet.length) :
    (t.run cells (s.positionHardwareCursor d.showHardwareCursor d.cursorPos d.newLines.length).2).At w ht
        sheet top (max top (before.length + (d.cursorPos.map CursorPos.row).getD s.hardwareCursorRow)) ∧
      (d.newLines = [] →
        (t.run cells (s.positionHardwareCursor d.showHardwareCursor d.cursorPos d.newLines.length).2).col = t.col) := by
  have hlen := h.length
  cases hpos : d.cursorPos with
  | none =>
    have htop := h.top_le
    constructor
    · show t.At w ht sheet top (max top (before.length + s.hardwareCursorRow))
      rwa [Nat.max_eq_right htop]
    · exact fun _ => rfl
  | some pos =>
    have hlt := hcurs pos hpos
    cases hlines : d.newLines.length with
    | zero => omega
    | succ lines =>
      have hrow : min pos.row lines = pos.row := Nat.min_eq_left (by omega)
      obtain ⟨hmoved, -⟩ := moveRows_at cells h ((pos.row : Int) - s.hardwareCursorRow) (by omega)
      have htgt : ((before.length + s.hardwareCursorRow : Nat) + ((pos.row : Int) - s.hardwareCursorRow)).toNat =
          before.length + pos.row := by omega
      rw [htgt] at hmoved
      constructor
      · show (t.run cells (moveRows (((min pos.row lines : Nat) : Int) - s.hardwareCursorRow) ++ [.column (pos.col + 1)] ++
            showCursor d.showHardwareCursor)).At w ht sheet top (max top (before.length + pos.row))
        rw [hrow, run_append, run_append]
        exact hmoved.column cells _
      · intro hnil
        rw [hnil] at hlines
        cases hlines

/-! ## What a render ends with -/

/-- What a render has to show for a drawing: it is drawn, and the cursor is where it is recorded exactly under a condition. -/
def Draws (cells : Text → List Cell) (drawing : Drawing) (t : Terminal Cell) (reached : Prop) (result : TuiMainScreen × Output) : Prop :=
  (∃ before, Drawn cells before result.1 (t.run cells result.2)) ∧ result.1.previousLines = drawing.newLines ∧ (Reachable result.1 ↔ reached)

theorem Draws.congr {reached reached' : Prop} {res : TuiMainScreen × Output} (h : Draws cells d t reached res)
    (hiff : reached ↔ reached') : Draws cells d t reached' res :=
  ⟨h.1, h.2.1, h.2.2.trans hiff⟩

/-- The marker is not above the screen. -/
def OnScreen (screen : TuiMainScreen) (drawing : Drawing) : Prop :=
  ∀ cursorPos, drawing.cursorPos = some cursorPos → screen.previousViewportTop ≤ cursorPos.row

theorem run_synchronized (t : Terminal Cell) (output : Output) : t.run cells (synchronized output) = t.run cells output := by
  rw [synchronized, cons_append, run_cons, run_append]
  rfl

/-- A render that wrote the lines below `before` and put the cursor on a row of the screen has drawn them. -/
theorem finish_draws (hproper : d.Proper) {output : Output}
    (hat : ∃ blank, (t.run cells output).At d.width d.height
      (before ++ d.newLines.map cells ++ List.replicate blank []) top (before.length + s.hardwareCursorRow))
    (hview : s.previousViewportTop = top - before.length)
    (hbel : s.previousViewportTop = 0 ∨ s.previousViewportTop < d.newLines.length)
    (hrow : s.hardwareCursorRow ≤ d.newLines.length - 1) (hreach : Reachable s)
    (hsta : d.newLines = [] → (t.run cells output).col = 0) :
    Draws cells d t (OnScreen s d) (s.finish d output) := by
  obtain ⟨blank, hat⟩ := hat
  have hcurs : ∀ pos, d.cursorPos = some pos → pos.row < d.newLines.length :=
    fun pos hpos => (hproper.cursor pos hpos).2
  have hscreen := positionHardwareCursor_screen s hcurs
  have hsheet : before.length + d.newLines.length ≤ (before ++ d.newLines.map cells ++ replicate blank []).length := by
    rw [length_append, length_append, length_map]
    omega
  obtain ⟨hposition, hcol⟩ := positionHardwareCursor_at cells hat hcurs hsheet
  have hfin : (s.finish d output).1 = { s with
      hardwareCursorRow := (d.cursorPos.map CursorPos.row).getD s.hardwareCursorRow
      previousLines := d.newLines, previousWidth := d.width, previousHeight := d.height } := by
    show { (s.positionHardwareCursor d.showHardwareCursor d.cursorPos d.newLines.length).1 with
      previousLines := d.newLines, previousWidth := (d.width : Int), previousHeight := (d.height : Int) } = _
    rw [hscreen]
  have hrun : t.run cells (s.finish d output).2 = (t.run cells output).run cells
      (s.positionHardwareCursor d.showHardwareCursor d.cursorPos d.newLines.length).2 := by
    show t.run cells (synchronized output ++
      (s.positionHardwareCursor d.showHardwareCursor d.cursorPos d.newLines.length).2) = _
    rw [run_append, run_synchronized]
  unfold Draws OnScreen
  rw [hrun, hfin]
  refine ⟨⟨before, ⟨blank, top, ?_, hview⟩, hproper.nonempty, hbel, ?_, ?_, .inl ⟨?_, ?_⟩⟩, rfl, ?_⟩
  · rw [hposition.width, hposition.height]
    exact hposition
  · show (d.cursorPos.map CursorPos.row).getD s.hardwareCursorRow ≤ d.newLines.length - 1
    cases hpos : d.cursorPos with
    | none => exact hrow
    | some pos => exact Nat.le_sub_one_of_lt (hcurs pos hpos)
  · intro hnil
    rw [hcol hnil, hsta hnil]
  · exact congrArg Int.ofNat hposition.width.symm
  · exact congrArg Int.ofNat hposition.height.symm
  · show s.previousViewportTop ≤ (d.cursorPos.map CursorPos.row).getD s.hardwareCursorRow ↔ _
    cases hpos : d.cursorPos with
    | none => exact ⟨fun _ _ h => absurd h (Option.some_ne_none _).symm, fun _ => hreach⟩
    | some pos =>
      constructor
      · rintro hle _ heq
        cases heq
        exact hle
      · exact fun h => h pos rfl

end

end PiBridge.Tui
