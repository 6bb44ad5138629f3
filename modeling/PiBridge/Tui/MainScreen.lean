import PiBridge.Lib.Terminal
import PiBridge.Tui.Lines

/-!
# `Tui.MainScreen` — differential rendering into the terminal's main screen and scrollback

The state of `TuiMainScreen` and `doRender`, for frames without images: a frame is written whole (`fullRender`), or only
what changed in it is, with moves relative to the row where the renderer thinks the cursor is. What a render sends is a
list of terminal commands, in the order in which they are written; what was put into an output that is then given up
for a full redraw is not sent.
-/

namespace PiBridge.Tui

open Chord Lib Lib.Terminal

/-- TUI implementation that renders into the terminal's main screen and scrollback. -/
structure TuiMainScreen where
  previousLines : List Text := []
  previousWidth : Int := 0
  previousHeight : Int := 0
  cursorRow : Nat := 0
  hardwareCursorRow : Nat := 0
  maxLinesRendered : Nat := 0
  previousViewportTop : Nat := 0

/-- What a render is about: the terminal's size and the lines to show, with the cursor found in them. -/
structure Drawing where
  width : Nat
  height : Nat
  newLines : List Text
  cursorPos : Option CursorPos
  showHardwareCursor : Bool
  clearOnShrink : Bool
  hasOverlayEntries : Bool

/-- What the components render, with fake cursors resolved and overlays composited, and the settings it is drawn with. -/
structure Frame where
  lines : List Text
  showHardwareCursor : Bool := false
  clearOnShrink : Bool := false
  hasOverlayEntries : Bool := false

def Frame.drawing (visibleWidth : Text → Nat) (width height : Nat) (frame : Frame) : Drawing where
  width := width
  height := height
  newLines := applyLineResets (extractCursorPosition visibleWidth frame.lines height).2
  cursorPos := (extractCursorPosition visibleWidth frame.lines height).1
  showHardwareCursor := frame.showHardwareCursor
  clearOnShrink := frame.clearOnShrink
  hasOverlayEntries := frame.hasOverlayEntries

abbrev Output := List (Command Text)

/-- Begin and end of synchronized output. -/
def synchronized (output : Output) : Output := .setMode 2026 true :: output ++ [.setMode 2026 false]

def showCursor (shown : Bool) : Output := [.setMode 25 shown]

/-- A relative move by rows. -/
def moveRows (lineDiff : Int) : Output :=
  if lineDiff > 0 then [.down lineDiff.toNat] else if lineDiff < 0 then [.up (-lineDiff).toNat] else []

/-- The rows from the cursor to a line, each counted from the first row on the screen. -/
def computeLineDiff (prevViewportTop viewportTop hardwareCursorRow targetRow : Nat) : Int :=
  let currentScreenRow : Int := hardwareCursorRow - prevViewportTop
  let targetScreenRow : Int := targetRow - viewportTop
  targetScreenRow - currentScreenRow

/-- The lines as rows, separated by line breaks; `erase` clears each row first. -/
def writeLines (erase : Bool) (lines : List Text) : Output :=
  crlf.intercalate (lines.map fun line => (if erase then [.eraseLine] else []) ++ [.text line])

/-- The first and the last index below `maxLines` at which the lines differ, a missing line being empty. -/
def changedRange (previousLines newLines : List Text) (maxLines : Nat) : Option (Nat × Nat) :=
  (List.range maxLines).foldl (fun changed i =>
    if previousLines.getD i [] ≠ newLines.getD i [] then some ((changed.map Prod.fst).getD i, i) else changed) none

namespace TuiMainScreen

variable (screen : TuiMainScreen) (drawing : Drawing)

/-- Position the hardware cursor for IME candidate window. -/
def positionHardwareCursor (showHardwareCursor : Bool) (cursorPos : Option CursorPos) (totalLines : Nat) : TuiMainScreen × Output :=
  match cursorPos, totalLines with
  | some cursorPos, totalLines + 1 =>
    -- Clamp cursor position to valid range
    let targetRow := min cursorPos.row totalLines
    let rowDelta : Int := targetRow - screen.hardwareCursorRow
    ({ screen with hardwareCursorRow := targetRow }, moveRows rowDelta ++ [.column (cursorPos.col + 1)] ++ showCursor showHardwareCursor)
  | _, _ => (screen, showCursor false)

/-- What every render that writes ends with: the cursor is positioned, and the frame becomes the previous one. -/
def finish (output : Output) : TuiMainScreen × Output :=
  let (screen, position) := screen.positionHardwareCursor drawing.showHardwareCursor drawing.cursorPos drawing.newLines.length
  ({ screen with previousLines := drawing.newLines, previousWidth := drawing.width, previousHeight := drawing.height },
    synchronized output ++ position)

/-- Render all new lines, after clearing scrollback and viewport if `clear` says so. -/
def fullRender (clear : Bool) : TuiMainScreen × Output :=
  let lines := drawing.newLines.length
  finish
    { screen with
      cursorRow := lines - 1
      hardwareCursorRow := lines - 1
      -- Reset max lines when clearing, otherwise track growth
      maxLinesRendered := if clear then lines else max screen.maxLinesRendered lines
      previousViewportTop := max drawing.height lines - drawing.height }
    drawing ((if clear then [.eraseScreen, .home, .eraseScrollback] else []) ++ writeLines false drawing.newLines)

/-- All changes are in deleted lines: nothing to render, just clear. -/
def renderDeleted (prevViewportTop : Nat) : TuiMainScreen × Output :=
  let lines := drawing.newLines.length
  let previous := screen.previousLines.length
  if lines < previous then
    -- Move to end of new content (clamp to 0 for empty content)
    let targetRow := lines - 1
    let extraLines := previous - lines
    if targetRow < prevViewportTop ∨ drawing.height < extraLines then screen.fullRender drawing true
    else
      let lineDiff := computeLineDiff prevViewportTop prevViewportTop screen.hardwareCursorRow targetRow
      let clearStartOffset := if lines = 0 then 0 else 1
      let moveBack := extraLines - 1 + clearStartOffset
      finish { screen with cursorRow := targetRow, hardwareCursorRow := targetRow, previousViewportTop := prevViewportTop } drawing
        (moveRows lineDiff ++ [.carriageReturn] ++ moveRows clearStartOffset ++
          -- Clear extra lines without scrolling
          [.down 1].intercalate (List.replicate extraLines [.carriageReturn, .eraseLine]) ++ moveRows (-moveBack))
  else
    let (screen, position) := screen.positionHardwareCursor drawing.showHardwareCursor drawing.cursorPos lines
    ({ screen with
        previousLines := drawing.newLines, previousWidth := drawing.width, previousHeight := drawing.height,
        previousViewportTop := prevViewportTop }, position)

/-- Only the changed lines are rendered, from `firstChanged` to `lastChanged`; none when one is too wide. -/
def renderChanged (visibleWidth : Text → Nat) (prevViewportTop firstChanged lastChanged : Nat) (appendStart : Bool) :
    Option (TuiMainScreen × Output) :=
  let lines := drawing.newLines.length
  let previous := screen.previousLines.length
  let prevViewportBottom : Int := prevViewportTop + drawing.height - 1
  let moveTargetRow := if appendStart then firstChanged - 1 else firstChanged
  let scroll := (moveTargetRow - prevViewportBottom).toNat
  -- A target below the screen is scrolled to.
  let currentScreenRow : Int := max 0 (min (drawing.height - 1) (screen.hardwareCursorRow - prevViewportTop))
  let scrolling : Output :=
    if scroll > 0 then moveRows (max 0 (drawing.height - 1 - currentScreenRow)) ++ (List.replicate scroll crlf).flatten else []
  let hardwareCursorRow := if scroll > 0 then moveTargetRow else screen.hardwareCursorRow
  let prevViewportTop := prevViewportTop + scroll
  -- Move cursor to first changed line (use hardwareCursorRow for actual position)
  let lineDiff := computeLineDiff prevViewportTop prevViewportTop hardwareCursorRow moveTargetRow
  let renderEnd := min lastChanged (lines - 1)
  let changed := (drawing.newLines.take (renderEnd + 1)).drop firstChanged
  if changed.any fun line => drawing.width < visibleWidth line then none
  else
    -- If we had more lines before, clear them and move cursor back
    let moveDown := lines - 1 - renderEnd
    let extraLines := previous - lines
    let finalCursorRow := if previous > lines then max renderEnd (lines - 1) else renderEnd
    let clearing : Output :=
      if previous > lines then
        moveRows moveDown ++ (List.replicate extraLines (crlf ++ [.eraseLine])).flatten ++ [.up extraLines]
      else []
    finish
      { screen with
        -- cursorRow tracks end of content (for viewport calculation)
        cursorRow := lines - 1
        hardwareCursorRow := finalCursorRow
        -- Track terminal's working area (grows but doesn't shrink unless cleared)
        maxLinesRendered := max screen.maxLinesRendered lines
        previousViewportTop := max prevViewportTop (finalCursorRow + 1 - drawing.height) }
      drawing
      (scrolling ++ moveRows lineDiff ++ (if appendStart then crlf else [.carriageReturn]) ++ writeLines true changed ++ clearing)

/-- A render of a drawing; none when it stops at a line that is wider than the terminal. -/
def render (visibleWidth : Text → Nat) (termux : Bool) : Option (TuiMainScreen × Output) :=
  let lines := drawing.newLines.length
  let previous := screen.previousLines.length
  let widthChanged := screen.previousWidth ≠ 0 ∧ screen.previousWidth ≠ drawing.width
  let heightChanged := screen.previousHeight ≠ 0 ∧ screen.previousHeight ≠ drawing.height
  let previousBufferLength : Int := if screen.previousHeight > 0 then screen.previousViewportTop + screen.previousHeight else drawing.height
  let prevViewportTop := if heightChanged then (previousBufferLength - drawing.height).toNat else screen.previousViewportTop
  -- First render - just output everything without clearing (assumes clean screen)
  if previous = 0 ∧ ¬widthChanged ∧ ¬heightChanged then some (screen.fullRender drawing false)
  -- Width changes always need a full re-render because wrapping changes.
  else if widthChanged then some (screen.fullRender drawing true)
  -- Height changes normally need a full re-render to keep the visible viewport aligned.
  else if heightChanged ∧ ¬termux then some (screen.fullRender drawing true)
  -- Content shrunk below the working area and no overlays - re-render to clear empty rows
  else if drawing.clearOnShrink ∧ lines < screen.maxLinesRendered ∧ ¬drawing.hasOverlayEntries then some (screen.fullRender drawing true)
  else
    let changed := changedRange screen.previousLines drawing.newLines (max lines previous)
    let appendedLines := lines > previous
    let changed := if appendedLines then some ((changed.map Prod.fst).getD previous, lines - 1) else changed
    match changed with
    -- No changes - but still need to update hardware cursor position if it moved
    | none =>
      let (screen, position) := screen.positionHardwareCursor drawing.showHardwareCursor drawing.cursorPos lines
      some ({ screen with previousViewportTop := prevViewportTop, previousHeight := drawing.height }, position)
    | some (firstChanged, lastChanged) =>
      if lines ≤ firstChanged then some (screen.renderDeleted drawing prevViewportTop)
      -- If the first changed line is above the previous viewport, we need a full redraw.
      else if firstChanged < prevViewportTop then some (screen.fullRender drawing true)
      else
        let appendStart := decide (appendedLines ∧ firstChanged = previous ∧ firstChanged > 0)
        screen.renderChanged drawing visibleWidth prevViewportTop firstChanged lastChanged appendStart

/-- A forced render forgets what was rendered. -/
def resetRenderState : TuiMainScreen where
  previousWidth := -1
  previousHeight := -1

def doRender (visibleWidth : Text → Nat) (termux : Bool) (width height : Nat) (frame : Frame) : Option (TuiMainScreen × Output) :=
  screen.render (frame.drawing visibleWidth width height) visibleWidth termux

end TuiMainScreen

end PiBridge.Tui
