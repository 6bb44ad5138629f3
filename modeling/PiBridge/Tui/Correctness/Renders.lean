import PiBridge.Tui.Correctness.Frames

/-!
# `Tui.Correctness.Renders` — one render

Each branch of `render` keeps `Drawn`: a full redraw from a cleared screen or from the blank rows of a first render, the
clearing of deleted lines, and the rendering of a changed range. The cursor of the marker is reached in all of them but
where the frame is not redrawn in full and the marker is above the screen (`render_drawn`).
-/

namespace PiBridge.Tui

open Chord Lib Lib.Terminal TuiMainScreen List Nat

section

variable {Cell : Type} [Inhabited Cell] {cs : Text → List Cell} {vw : Text → Nat} {bef : List (List Cell)}
  {s : TuiMainScreen} {d : Drawing} {t : Terminal Cell} {width height top blank : Nat}

section

variable (h : Drawn cs bef s t) (hreach : Reachable s) (hproper : d.Proper) (hfits : Fits cs vw d.width d.newLines)
  (hwid : d.width = t.width) (hheight : d.height = t.rows.length)

/-! ## Full redraws -/

/-- Lines that are written below `before` onto blank rows. -/
theorem fullRender_draws (bef : List (List Cell)) (hproper : d.Proper) (hfits : Fits cs vw d.width d.newLines) {clear : Bool}
    (hat : (t.run cs (if clear then [.eraseScreen, .home, .eraseScrollback] else [])).At d.width d.height
      (bef ++ List.replicate blank []) top bef.length)
    (hcol : (t.run cs (if clear then [.eraseScreen, .home, .eraseScrollback] else [])).col = 0) :
    Draws cs d t True (s.fullRender d clear) := by
  have htop := hat.top_le
  have hlen := hat.length
  have hwrt : ∃ blank' top', (t.run cs ((if clear then [.eraseScreen, .home, .eraseScrollback] else []) ++
        writeLines false d.newLines)).At d.width d.height
        (bef ++ d.newLines.map cs ++ replicate blank' []) top' (bef.length + (d.newLines.length - 1)) ∧
      max d.height d.newLines.length - d.height = top' - bef.length ∧
      (d.newLines = [] → (t.run cs ((if clear then [.eraseScreen, .home, .eraseScrollback] else []) ++
        writeLines false d.newLines)).col = 0) := by
    rw [run_append]
    by_cases hnil : d.newLines = []
    · rw [hnil]
      refine ⟨blank, top, ?_, ?_, fun _ => hcol⟩
      · rw [map_nil, append_nil]
        exact hat
      · rw [length_nil]
        omega
    · obtain ⟨pos', hall, hpos'⟩ := At.rowsFrom (P := (· = [])) rfl hnil
        (fun line hline => writes_blank (hfits line hline).1) (fun row hrow => eq_of_mem_replicate hrow) hat hcol
      rw [drop_replicate] at hall
      have hpos : bef.length + (d.newLines.length - 1) = pos' := by
        have := length_pos_iff.mpr hnil
        omega
      rw [hpos]
      refine ⟨_, _, hall, ?_, fun h => absurd h hnil⟩
      clear * - htop hlen
      omega
  obtain ⟨blank', top', hat', hview, hcol'⟩ := hwrt
  have hheight : 0 < d.height := by
    rw [← hat.height]
    exact zero_lt_of_lt (Terminal.row_lt _)
  have hlast : max d.height d.newLines.length - d.height ≤ d.newLines.length - 1 := by omega
  have hbel : max d.height d.newLines.length - d.height = 0 ∨
      max d.height d.newLines.length - d.height < d.newLines.length := by omega
  have hdraws : Draws cs d t (OnScreen { s with
      previousViewportTop := max d.height d.newLines.length - d.height } d) (s.fullRender d clear) :=
    finish_draws hproper ⟨blank', hat'⟩ hview hbel (le_refl _) hlast hcol'
  refine hdraws.congr ⟨fun _ => trivial, fun _ cpos hpos => ?_⟩
  have := (hproper.cursor cpos hpos).1
  show max d.height d.newLines.length - d.height ≤ cpos.row
  omega

include hproper hfits hwid hheight in
/-- A redraw after everything was cleared. -/
theorem fullRender_clear : Draws cs d t True (s.fullRender d true) := by
  have herased := (At.self t).erase cs
  rw [← hwid, ← hheight] at herased
  exact fullRender_draws [] hproper hfits herased rfl

/-! ## Differential rendering -/

omit [Inhabited Cell] in
/-- Where the frame stands when its cursor is where it is recorded. -/
theorem Drawn.placed (h : Drawn cs bef s t) (hreach : Reachable s) :
    ∃ blank top, t.At t.width t.rows.length (bef ++ s.previousLines.map cs ++ List.replicate blank [])
        top (bef.length + s.hardwareCursorRow) ∧ s.previousViewportTop = top - bef.length ∧
      bef.length + s.previousLines.length ≤ top + t.rows.length ∧ top ≤ bef.length + s.previousViewportTop := by
  obtain ⟨blank, top, hat, hview⟩ := h.sheet
  have hlen := hat.length
  rw [length_append, length_append, length_map] at hlen
  have hpos : max top (bef.length + s.hardwareCursorRow) = bef.length + s.hardwareCursorRow := by
    unfold Reachable at hreach
    omega
  rw [hpos] at hat
  exact ⟨blank, top, hat, hview, by omega, by omega⟩

include h hreach hproper hwid hheight in
/-- Lines that were deleted at the end are cleared. -/
theorem renderDeleted_draws (hlt : d.newLines.length < s.previousLines.length)
    (hstays : s.previousLines.take d.newLines.length = d.newLines)
    (hview : s.previousViewportTop ≤ d.newLines.length - 1) :
    Draws cs d t (OnScreen s d) (s.renderDeleted d s.previousViewportTop) := by
  obtain ⟨blank, top, hat, htop, hfits, habv⟩ := h.placed hreach
  have hextra : ¬(d.newLines.length - 1 < s.previousViewportTop ∨
      d.height < s.previousLines.length - d.newLines.length) := by
    omega
  rw [renderDeleted, if_pos hlt, if_neg hextra]
  -- To the last line that stays, and to the one below it, which is the first row if no line stays.
  obtain ⟨hmoved, -⟩ := moveRows_to cs hat
    (computeLineDiff s.previousViewportTop s.previousViewportTop s.hardwareCursorRow (d.newLines.length - 1))
    (bef.length + (d.newLines.length - 1)) (by rw [computeLineDiff_eq]; omega) (by omega) (by omega)
  obtain ⟨hfst, -⟩ := moveRows_to cs (hmoved.carriageReturn cs) (if d.newLines.length = 0 then 0 else 1 : Nat)
    (bef.length + d.newLines.length) (by split <;> omega) (by omega) (by omega)
  have hsplit : bef ++ s.previousLines.map cs = bef ++ d.newLines.map cs ++
      (s.previousLines.drop d.newLines.length).map cs := by
    rw [append_assoc, ← map_append]
    conv_rhs => rw [← hstays]
    rw [length_take, min_eq_left (le_of_lt (hstays ▸ hlt)), take_append_drop]
  have hmid : (s.previousLines.drop d.newLines.length).map cs ≠ [] := by
    intro hnil
    have := congrArg length hnil
    rw [length_map, length_drop, length_nil] at this
    omega
  have hpre : (bef ++ d.newLines.map cs).length = bef.length + d.newLines.length := by
    rw [length_append, length_map]
  rw [hsplit, ← hpre] at hfst
  obtain ⟨hcleared, hcol⟩ := hfst.clearRows cs hmid
  rw [length_map, length_drop, hpre] at hcleared
  rw [length_map, length_drop] at hcol
  obtain ⟨hback, hback_col⟩ := moveRows_to cs hcleared
    (-((s.previousLines.length - d.newLines.length - 1 + if d.newLines.length = 0 then 0 else 1 : Nat) : Int))
    (bef.length + (d.newLines.length - 1)) (by split <;> omega) (by omega) (by omega)
  rw [append_assoc _ _ (replicate blank []), replicate_append_replicate] at hback
  have hbel : s.previousViewportTop = 0 ∨ s.previousViewportTop < d.newLines.length := by omega
  refine finish_draws hproper ⟨s.previousLines.length - d.newLines.length + blank, ?_⟩ htop hbel (le_refl _) hview ?_
  · rw [hwid, hheight, run_append, run_append, run_append, run_append]
    exact hback
  · intro _
    rw [run_append, run_append, run_append, run_append]
    exact hback_col.trans hcol

/-- The lines of a range, below the rows before it: from the row of the first, or from the one above it after a line break. -/
theorem writeChanged_at (app : Bool) (lines : List Text) (hne : lines ≠ []) (hfits : Fits cs vw width lines)
    {pre rest : List (List Cell)} {pos : Nat} (h : t.At width height (pre ++ rest) top pos)
    (hpos : if app then pos + 1 = pre.length else pos = pre.length) :
    ∃ pos', (t.run cs ((if app then crlf else [.carriageReturn]) ++ writeLines true lines)).At width height
        (pre ++ lines.map cs ++ rest.drop lines.length) (max top (pre.length + lines.length - height)) pos' ∧
      pos' + 1 = pre.length + lines.length := by
  cases app with
  | true =>
    obtain ⟨pos', hall, hpos'⟩ := At.rowsBelow (P := fun _ => True) trivial lines (fun line hline => writes_erased (hfits line hline).1)
      (fun _ _ => trivial) h hpos
    refine ⟨pos', ?_, hpos'⟩
    cases lines with
    | nil => exact absurd rfl hne
    | cons line lines =>
      rw [if_pos rfl, writeLines, map_cons, At.intercalate_cons, ← append_assoc, flatMap_map]
      exact hall
  | false =>
    obtain rfl : pos = pre.length := hpos
    obtain ⟨pos', hall, hpos'⟩ := At.rowsFrom (P := fun _ => True) trivial hne (fun line hline => writes_erased (hfits line hline).1)
      (fun _ _ => trivial) (h.carriageReturn cs) rfl
    refine ⟨pos', ?_, hpos'⟩
    exact hall

/-- Rows below the cursor that are cleared, after which the cursor goes back. -/
theorem clearBelow_at (cs : Text → List Cell) {pre mid rest : List (List Cell)} {pos : Nat} (h : t.At width height (pre ++ (mid ++ rest)) top pos)
    (hpos : pos + 1 = pre.length) (hmid : mid ≠ []) (htop : top ≤ pos) :
    (t.run cs ((List.replicate mid.length (crlf ++ [.eraseLine])).flatten ++ [.up mid.length])).At width height
      (pre ++ List.replicate mid.length [] ++ rest) top pos := by
  obtain ⟨pos', hall, hpos'⟩ := At.rowsBelow (P := fun _ => True) trivial (replicate mid.length ())
    (fun _ _ => writes_erase) (fun _ _ => trivial) h hpos
  have hlen := h.length
  rw [length_append, length_append] at hlen
  have hmid_pos := length_pos_iff.mpr hmid
  rw [length_replicate] at hall hpos'
  have htop' : max top (pre.length + mid.length - height) = top := by omega
  rw [htop', drop_left, map_replicate] at hall
  have hback := hall.up cs hmid_pos (by omega)
  have hpos_eq : pos' - mid.length = pos := by omega
  rw [hpos_eq] at hback
  have hflat : (replicate mid.length (crlf ++ [.eraseLine] : List (Command Text))).flatten =
      (replicate mid.length ()).flatMap fun _ => crlf ++ [.eraseLine] := by
    rw [flatMap, map_replicate]
  rw [hflat, run_append]
  exact hback

/-- Where the changes of a frame lie: what is before `first` and what follows `renderEnd` stays, and a frame that became shorter
    is rendered to its end. -/
structure Range (previousLines newLines : List Text) (first last : Nat) : Prop where
  lt : first < newLines.length
  le : first ≤ last
  start : first ≤ previousLines.length
  before : previousLines.take first = newLines.take first
  after : previousLines.length ≤ newLines.length →
    previousLines.drop (min last (newLines.length - 1) + 1) = newLines.drop (min last (newLines.length - 1) + 1)
  shrunk : newLines.length < previousLines.length → newLines.length - 1 ≤ last

omit [Inhabited Cell] in
/-- What the rendering of a range comes down to when its first row is on the screen. -/
theorem renderChanged_eq (first last : Nat) (app : Bool)
    (hfits : Fits cs vw d.width d.newLines)
    (hscreen : (if app then first - 1 else first) < s.previousViewportTop + d.height)
    (hshrunk : d.newLines.length < s.previousLines.length → d.newLines.length - 1 ≤ last) :
    s.renderChanged d vw s.previousViewportTop first last app = some (finish
      { s with
        cursorRow := d.newLines.length - 1
        hardwareCursorRow := min last (d.newLines.length - 1)
        maxLinesRendered := max s.maxLinesRendered d.newLines.length
        previousViewportTop := max s.previousViewportTop (min last (d.newLines.length - 1) + 1 - d.height) }
      d
      (moveRows (computeLineDiff s.previousViewportTop s.previousViewportTop s.hardwareCursorRow
          (if app then first - 1 else first)) ++
        ((if app then crlf else [.carriageReturn]) ++
          writeLines true ((d.newLines.take (min last (d.newLines.length - 1) + 1)).drop first)) ++
        if d.newLines.length < s.previousLines.length then
          (List.replicate (s.previousLines.length - d.newLines.length) (crlf ++ [.eraseLine])).flatten ++
            [.up (s.previousLines.length - d.newLines.length)]
        else [])) := by
  have hscroll : (((if app then first - 1 else first : Nat) : Int) -
      ((s.previousViewportTop : Int) + d.height - 1)).toNat = 0 := by omega
  have hnone : ((d.newLines.take (min last (d.newLines.length - 1) + 1)).drop first).any
      (fun line => decide (d.width < vw line)) = false := by
    rw [any_eq_false]
    intro line hline
    have := (hfits line (mem_of_mem_take (mem_of_mem_drop hline))).2
    simpa using this
  unfold renderChanged
  simp only [hscroll, hnone, gt_iff_lt, Nat.lt_irrefl, if_false, Nat.add_zero, nil_append, Bool.false_eq_true]
  by_cases hlt : d.newLines.length < s.previousLines.length
  · have hrow : min last (d.newLines.length - 1) = d.newLines.length - 1 := Nat.min_eq_right (hshrunk hlt)
    have hstay : moveRows ((0 : Nat) : Int) = [] := rfl
    simp only [if_pos hlt, hrow, Nat.max_self, Nat.sub_self, hstay, nil_append, append_assoc]
  · simp only [if_neg hlt, append_assoc]

variable {first : Nat}

include h hreach hproper hfits hwid hheight in
theorem renderChanged_draws {last : Nat} (hrng : Range s.previousLines d.newLines first last)
    (hview : s.previousViewportTop ≤ first) {app : Bool}
    (happ : app = true ↔ first = s.previousLines.length) (hprevious : s.previousLines ≠ []) :
    ∃ res, s.renderChanged d vw s.previousViewportTop first last app = some res ∧
      Draws cs d t (OnScreen s d) res := by
  obtain ⟨blank, top, hat, htop, hsize, habv⟩ := h.placed hreach
  obtain ⟨hfst, hle, hsta, hbef, haft, hshrunk⟩ := hrng
  have hlen := length_pos_iff.mpr hprevious
  have hbel := h.below
  -- The row to which the cursor moves first shows a line of the frame before.
  have htgt : (if app then first - 1 else first) < s.previousLines.length ∧
      s.previousViewportTop ≤ (if app then first - 1 else first) := by
    cases app with
    | true =>
      have := happ.mp rfl
      rw [if_pos rfl]
      omega
    | false =>
      have : first ≠ s.previousLines.length := fun heq => Bool.false_ne_true (happ.mpr heq)
      rw [if_neg Bool.false_ne_true]
      omega
  refine ⟨_, renderChanged_eq first last app hfits (by omega) hshrunk, ?_⟩
  obtain ⟨hmoved, -⟩ := moveRows_to cs hat
    (computeLineDiff s.previousViewportTop s.previousViewportTop s.hardwareCursorRow (if app then first - 1 else first))
    (bef.length + if app then first - 1 else first) (by rw [computeLineDiff_eq]; omega) (by omega) (by omega)
  -- The rows up to `first` stay, and the range is written over those that follow.
  have hsheet : bef ++ s.previousLines.map cs ++ replicate blank [] = bef ++ (d.newLines.take first).map cs ++
      ((s.previousLines.drop first).map cs ++ replicate blank []) := by
    rw [← hbef, append_assoc bef, append_assoc bef, ← append_assoc (map _ _), ← map_append, take_append_drop]
  have hpre : (bef ++ (d.newLines.take first).map cs).length = bef.length + first := by
    rw [length_append, length_map, length_take, min_eq_left (le_of_lt hfst)]
  obtain ⟨cnt, hcnt⟩ : ∃ cnt, min last (d.newLines.length - 1) + 1 = cnt := ⟨_, rfl⟩
  have hrow : min last (d.newLines.length - 1) = cnt - 1 := by omega
  rw [hcnt] at haft ⊢
  rw [hrow]
  have hcount_le : cnt ≤ d.newLines.length := by omega
  have hfirst_lt : first < cnt := by omega
  have hchgd : ((d.newLines.take cnt).drop first).length = cnt - first := by
    rw [length_drop, length_take, min_eq_left hcount_le]
  rw [hsheet] at hmoved
  obtain ⟨pos', hwrt, hpos'⟩ := writeChanged_at app ((d.newLines.take cnt).drop first)
    (ne_nil_of_length_pos (by omega))
    (fun line hline => hwid ▸ hfits line (mem_of_mem_take (mem_of_mem_drop hline))) hmoved
    (by
      rw [hpre]
      cases app with
      | true =>
        have := happ.mp rfl
        rw [if_pos rfl, if_pos rfl]
        omega
      | false => rfl)
  obtain ⟨blank', hrest⟩ : ∃ blank', ((s.previousLines.drop first).map cs ++ replicate blank []).drop (cnt - first) =
      (s.previousLines.drop cnt).map cs ++ replicate blank' [] := by
    refine ⟨blank - (cnt - first - ((s.previousLines.drop first).map cs).length), ?_⟩
    rw [drop_append, ← map_drop, drop_drop, drop_replicate, Nat.add_sub_cancel' (Nat.le_of_lt hfirst_lt)]
  have htake : (d.newLines.take first).map cs ++ ((d.newLines.take cnt).drop first).map cs =
      (d.newLines.take cnt).map cs := by
    rw [← map_append]
    conv_rhs => rw [← take_append_drop first (d.newLines.take cnt)]
    rw [take_take, min_eq_left (le_of_lt hfirst_lt)]
  have hsum : bef.length + first + (cnt - first) = bef.length + cnt := by omega
  rw [hchgd, hpre, hsum, hrest, append_assoc bef, htake] at hwrt
  have hpos : pos' = bef.length + (cnt - 1) := by omega
  rw [← run_append] at hwrt
  have hdraws : ∀ output : Output, (∃ blank, (t.run cs output).At d.width d.height
      (bef ++ d.newLines.map cs ++ replicate blank []) (max top (bef.length + cnt - t.rows.length))
      (bef.length + (cnt - 1))) → Draws cs d t (OnScreen s d) (finish { s with
        cursorRow := d.newLines.length - 1
        hardwareCursorRow := cnt - 1
        maxLinesRendered := max s.maxLinesRendered d.newLines.length
        previousViewportTop := max s.previousViewportTop (cnt - d.height) } d output) := by
    rintro output ⟨blank, hat⟩
    rw [← hheight] at hat
    have hview' : max s.previousViewportTop (cnt - d.height) =
        max top (bef.length + cnt - d.height) - bef.length := by
      clear * - htop
      omega
    have hbel' : max s.previousViewportTop (cnt - d.height) = 0 ∨
        max s.previousViewportTop (cnt - d.height) < d.newLines.length := by
      clear * - hview hfirst_lt hcount_le htop hsize hbel hlen hheight
      omega
    have hreach' : max s.previousViewportTop (cnt - d.height) ≤ cnt - 1 := by
      clear * - hview hfirst_lt htop hsize hbel hlen hheight
      omega
    have hnil : d.newLines ≠ [] := ne_nil_of_length_pos (by omega)
    have hrow' : cnt - 1 ≤ d.newLines.length - 1 := by omega
    refine Draws.congr (finish_draws hproper ⟨blank, hat⟩ hview' hbel' hrow' hreach' fun h => absurd h hnil) ?_
    refine forall_congr' fun cpos => forall_congr' fun hcurs => ?_
    have := (hproper.cursor cpos hcurs).1
    show max s.previousViewportTop (cnt - d.height) ≤ cpos.row ↔ s.previousViewportTop ≤ cpos.row
    clear * - this hcount_le
    omega
  rw [hpos] at hwrt
  refine hdraws _ ?_
  by_cases hlt : d.newLines.length < s.previousLines.length
  · have hall : cnt = d.newLines.length := by
      omega
    have hextra : ((s.previousLines.drop cnt).map cs).length = s.previousLines.length - d.newLines.length := by
      rw [length_map, length_drop, hall]
    have hmid : (s.previousLines.drop cnt).map cs ≠ [] := ne_nil_of_length_pos (by omega)
    have hcleared := clearBelow_at cs hwrt (by rw [length_append, length_map, length_take]; omega) hmid
      (by clear * - htop hview hfirst_lt hsize hbel hlen; omega)
    rw [hextra, hall, take_length, ← run_append, append_assoc _ (replicate _ _), replicate_append_replicate] at hcleared
    rw [if_pos hlt, hall, take_length, hwid, hheight]
    exact ⟨_, hcleared⟩
  · rw [if_neg hlt, append_nil]
    rw [haft (Nat.le_of_not_lt hlt), ← append_assoc _ _ (replicate _ _), append_assoc bef _ (map _ _),
      ← map_append, take_append_drop] at hwrt
    rw [hwid, hheight]
    exact ⟨blank', hwrt⟩

/-! ## One render -/

/-- The drawing is rendered from scratch: the size changed, nothing was rendered before, the frame shrank and is to be cleared, or
    it ends above the screen or differs there. -/
def RedrawnInFull (screen : TuiMainScreen) (drawing : Drawing) : Prop :=
  screen.previousLines = [] ∨ screen.previousWidth ≠ drawing.width ∨ screen.previousHeight ≠ drawing.height ∨
  (drawing.clearOnShrink = true ∧ drawing.newLines.length < screen.maxLinesRendered ∧ drawing.hasOverlayEntries = false) ∨
  (screen.previousViewportTop ≠ 0 ∧ drawing.newLines.length ≤ screen.previousViewportTop) ∨
  drawing.newLines.take screen.previousViewportTop ≠ screen.previousLines.take screen.previousViewportTop

/-- The marker of a frame is not above the screen, or the frame is redrawn in full. -/
def MarkerVisible (screen : TuiMainScreen) (drawing : Drawing) : Prop := OnScreen screen drawing ∨ RedrawnInFull screen drawing

theorem Draws.of_redrawn {res : TuiMainScreen × Output} (h : Draws cs d t True res) (hredrawn : RedrawnInFull s d) :
    Draws cs d t (MarkerVisible s d) res :=
  h.congr ⟨fun _ => .inr hredrawn, fun _ => trivial⟩

theorem Draws.of_change {res : TuiMainScreen × Output} (h : Draws cs d t (OnScreen s d) res)
    (hredrawn : ¬RedrawnInFull s d) : Draws cs d t (MarkerVisible s d) res :=
  h.congr ⟨.inl, fun hvis => hvis.resolve_right hredrawn⟩

include hproper hfits hwid hheight in
/-- A render on a terminal of another size, whatever it shows. -/
theorem render_resized (hresized : s.previousWidth ≠ 0 ∧ s.previousWidth ≠ d.width ∨
      s.previousHeight ≠ 0 ∧ s.previousHeight ≠ d.height) :
    ∃ res, s.render d vw false = some res ∧ Draws cs d t (MarkerVisible s d) res := by
  refine ⟨s.fullRender d true, ?_, (fullRender_clear hproper hfits hwid hheight).of_redrawn ?_⟩
  · unfold render
    rcases hresized with hresized | hresized
    · rw [if_neg (fun h => h.2.1 hresized), if_pos hresized]
    · rw [if_neg (fun h => h.2.2 hresized)]
      by_cases hwid' : s.previousWidth ≠ 0 ∧ s.previousWidth ≠ d.width
      · rw [if_pos hwid']
      · rw [if_neg hwid', if_pos ⟨hresized, Bool.false_ne_true⟩]
  · rcases hresized with ⟨-, h⟩ | ⟨-, h⟩
    · exact .inr (.inl h)
    · exact .inr (.inr (.inl h))

end

/-- What is rendered when the size is as before and nothing is to be cleared: the range that changed, which goes to the end of the
    frame when lines were added. -/
def changes (screen : TuiMainScreen) (drawing : Drawing) : Option (Nat × Nat) :=
  if drawing.newLines.length > screen.previousLines.length then
    some (((changedRange screen.previousLines drawing.newLines (max drawing.newLines.length screen.previousLines.length)).map Prod.fst).getD
      screen.previousLines.length, drawing.newLines.length - 1)
  else changedRange screen.previousLines drawing.newLines (max drawing.newLines.length screen.previousLines.length)

section Changes

variable (hprevious : ∀ line ∈ s.previousLines, line ≠ []) (hnew : ∀ line ∈ d.newLines, line ≠ [])

include hprevious

theorem changes_none (hnone : changes s d = none) : s.previousLines = d.newLines := by
  have hcov := changedRange_covers s.previousLines d.newLines (max d.newLines.length s.previousLines.length)
  unfold changes at hnone
  split at hnone
  · cases hnone
  · rename_i hle
    rw [hnone] at hcov
    have hlen : s.previousLines.length = d.newLines.length := by
      by_contra hne
      exact not_agree_of_missing hprevious (by omega) (le_refl _) (hcov d.newLines.length (by omega))
    have htake := take_eq_of_agree (le_of_eq hlen.symm) (le_refl _) fun i hi => hcov i (by omega)
    rwa [take_length, ← hlen, take_length] at htake

include hnew

variable {first last : Nat}

section

variable (hsome : changes s d = some (first, last))

include hsome

omit hprevious in
/-- When lines were added, the first change is at the latest where they begin. -/
theorem changes_appended (hgrown : s.previousLines.length < d.newLines.length) :
    last = d.newLines.length - 1 ∧ (∀ i < first, Agree s.previousLines d.newLines i) ∧
      (first = s.previousLines.length ∨ first < s.previousLines.length ∧ ¬Agree s.previousLines d.newLines first) := by
  have hcov := changedRange_covers s.previousLines d.newLines (max d.newLines.length s.previousLines.length)
  rw [changes, if_pos hgrown] at hsome
  obtain ⟨hfst, hlast⟩ := Prod.mk.inj (Option.some.inj hsome)
  refine ⟨hlast.symm, ?_⟩
  cases hrng : changedRange s.previousLines d.newLines (max d.newLines.length s.previousLines.length) with
  | none =>
    rw [hrng] at hcov hfst
    obtain rfl : s.previousLines.length = first := hfst
    exact ⟨fun i hi => hcov i (by omega), .inl rfl⟩
  | some rng =>
    rw [hrng] at hcov hfst
    obtain rfl : rng.1 = first := hfst
    obtain ⟨-, -, hne, hbef, -⟩ := hcov
    refine ⟨hbef, ?_⟩
    rcases lt_trichotomy rng.1 s.previousLines.length with hlt | heq | hgt
    · exact .inr ⟨hlt, hne⟩
    · exact .inl heq
    · exact absurd (hbef _ hgt).symm (not_agree_of_missing hnew hgrown (le_refl _))

omit hprevious hnew in
/-- When no lines were added, the changes are what differs. -/
theorem changes_kept (hkept : d.newLines.length ≤ s.previousLines.length) :
    first ≤ last ∧ last < s.previousLines.length ∧ ¬Agree s.previousLines d.newLines first ∧
      (∀ i < first, Agree s.previousLines d.newLines i) ∧
      ∀ i < s.previousLines.length, last < i → Agree s.previousLines d.newLines i := by
  have hcov := changedRange_covers s.previousLines d.newLines (max d.newLines.length s.previousLines.length)
  rw [changes, if_neg (Nat.not_lt_of_le hkept)] at hsome
  rwa [hsome, max_eq_right hkept] at hcov

omit hprevious in
/-- Changes after the last line are deletions. -/
theorem changes_deleted (hle : d.newLines.length ≤ first) :
    d.newLines.length < s.previousLines.length ∧ s.previousLines.take d.newLines.length = d.newLines := by
  rcases lt_or_ge s.previousLines.length d.newLines.length with hgrown | hkept
  · obtain ⟨-, -, hfst⟩ := changes_appended hnew hsome hgrown
    omega
  · obtain ⟨hle', hlt, -, hbef, -⟩ := changes_kept hsome hkept
    have hshrunk : d.newLines.length < s.previousLines.length := by omega
    have htake := take_eq_of_agree (le_of_lt hshrunk) (le_refl _) fun i hi => hbef i (lt_of_lt_of_le hi hle)
    rw [take_length] at htake
    exact ⟨hshrunk, htake⟩

theorem changes_range (hlt : first < d.newLines.length) :
    Range s.previousLines d.newLines first last ∧
      (first = s.previousLines.length ∧ s.previousLines.length < d.newLines.length ∨
        first < s.previousLines.length ∧ ¬Agree s.previousLines d.newLines first) := by
  rcases lt_or_ge s.previousLines.length d.newLines.length with hgrown | hkept
  · obtain ⟨hlast, hbef, hfst⟩ := changes_appended hnew hsome hgrown
    refine ⟨⟨hlt, by omega, by omega, take_eq_of_agree (by omega) (le_of_lt hlt) hbef, fun _ => ?_, by omega⟩,
      hfst.imp (fun h => ⟨h, hgrown⟩) id⟩
    rw [drop_eq_nil_of_le (by omega), drop_eq_nil_of_le (by omega)]
  · obtain ⟨hle, hlast, hne, hbef, haft⟩ := changes_kept hsome hkept
    refine ⟨⟨hlt, hle, by omega, take_eq_of_agree (by omega) (le_of_lt hlt) hbef, fun hsame => ?_, fun hshrunk => ?_⟩, .inr ⟨by omega, hne⟩⟩
    · have hlen : s.previousLines.length = d.newLines.length := le_antisymm hsame hkept
      exact drop_eq_of_agree hlen fun i hi hmin => haft i (by omega) (by omega)
    · -- The last line bef is missing now, so it changed.
      by_contra hlast'
      exact not_agree_of_missing hprevious (by omega : s.previousLines.length - 1 < _) (by omega) (haft _ (by omega) (by omega))

end

end Changes

/-- The size of the terminal is the one of the last render, which showed some lines. -/
structure Settled (screen : TuiMainScreen) (drawing : Drawing) : Prop where
  width : screen.previousWidth = drawing.width
  height : screen.previousHeight = drawing.height
  lines : screen.previousLines ≠ []
  noClear : ¬(drawing.clearOnShrink = true ∧ drawing.newLines.length < screen.maxLinesRendered ∧ ¬drawing.hasOverlayEntries = true)

namespace Settled

variable (h : Settled s d)

include h

theorem render_unchanged (hnone : changes s d = none) : s.render d vw false = some
    ({ (s.positionHardwareCursor d.showHardwareCursor d.cursorPos d.newLines.length).1 with
        previousViewportTop := s.previousViewportTop, previousHeight := d.height },
      (s.positionHardwareCursor d.showHardwareCursor d.cursorPos d.newLines.length).2) := by
  have hlines : s.previousLines.length ≠ 0 := fun hzero => h.lines (length_eq_zero_iff.mp hzero)
  unfold changes at hnone
  unfold render
  simp only [h.width, h.height, ne_eq, not_true_eq_false, and_false, not_false_eq_true, and_true, if_false, hlines, false_and,
    if_neg h.noClear, hnone]

theorem render_range {first last : Nat} (hsome : changes s d = some (first, last)) : s.render d vw false =
      if d.newLines.length ≤ first then some (s.renderDeleted d s.previousViewportTop)
      else if first < s.previousViewportTop then some (s.fullRender d true)
      else s.renderChanged d vw s.previousViewportTop first last
        (decide (d.newLines.length > s.previousLines.length ∧ first = s.previousLines.length ∧ first > 0)) := by
  have hlines : s.previousLines.length ≠ 0 := fun hzero => h.lines (length_eq_zero_iff.mp hzero)
  unfold changes at hsome
  unfold render
  simp only [h.width, h.height, ne_eq, not_true_eq_false, and_false, not_false_eq_true, and_true, if_false, hlines, false_and,
    if_neg h.noClear, hsome]

theorem not_redrawn (hbel : s.previousViewportTop = 0 ∨ s.previousViewportTop < d.newLines.length)
    (htake : s.previousLines.take s.previousViewportTop = d.newLines.take s.previousViewportTop) :
    ¬RedrawnInFull s d := by
  rintro (hnil | hwid | hheight | ⟨hclear, hshrunk, hoverlay⟩ | ⟨hne, hend⟩ | htake')
  · exact h.lines hnil
  · exact hwid h.width
  · exact hheight h.height
  · exact h.noClear ⟨hclear, hshrunk, Bool.eq_false_iff.mp hoverlay⟩
  · omega
  · exact htake' htake.symm

end Settled

/-- A first change above the screen is one of the lines that were there. -/
theorem redrawn_of_change (hfst : first < s.previousViewportTop)
    (hne : ¬Agree s.previousLines d.newLines first) : RedrawnInFull s d := by
  refine .inr (.inr (.inr (.inr (.inr fun htake => hne ?_))))
  have hat := congrArg (fun lines => lines[first]?) htake
  rw [getElem?_take, getElem?_take, if_pos hfst, if_pos hfst] at hat
  rw [Agree, getD_eq_getElem?_getD, getD_eq_getElem?_getD, hat]

section

variable (h : Drawn cs bef s t) (hreach : Reachable s) (hproper : d.Proper) (hfits : Fits cs vw d.width d.newLines)
  (hwid : d.width = t.width) (hheight : d.height = t.rows.length)

include h hreach hproper hfits hwid hheight

/-- A render of a range that changed. -/
theorem renderRange_draws (hsett : Settled s d) {last : Nat} (hsome : changes s d = some (first, last)) :
    ∃ res, s.render d vw false = some res ∧ Draws cs d t (MarkerVisible s d) res := by
  have hlen := length_pos_iff.mpr hsett.lines
  have hbel := h.below
  rw [hsett.render_range hsome]
  by_cases hdeleted : d.newLines.length ≤ first
  · rw [if_pos hdeleted]
    obtain ⟨hshrunk, hstays⟩ := changes_deleted hproper.nonempty hsome hdeleted
    refine ⟨_, rfl, ?_⟩
    by_cases habv : d.newLines.length - 1 < s.previousViewportTop
    · rw [renderDeleted, if_pos hshrunk, if_pos (.inl habv)]
      exact (fullRender_clear hproper hfits hwid hheight).of_redrawn (.inr (.inr (.inr (.inr (.inl ⟨by omega, by omega⟩)))))
    · refine (renderDeleted_draws h hreach hproper hwid hheight hshrunk hstays (Nat.le_of_not_lt habv)).of_change ?_
      refine hsett.not_redrawn (by omega) ?_
      conv_rhs => rw [← hstays]
      rw [take_take, min_eq_left (by omega)]
  · rw [if_neg hdeleted]
    obtain ⟨hrng, hfst⟩ := changes_range h.nonempty hproper.nonempty hsome (Nat.lt_of_not_le hdeleted)
    by_cases habv : first < s.previousViewportTop
    · rw [if_pos habv]
      obtain ⟨hprevious, hne⟩ := hfst.resolve_left (by omega)
      exact ⟨_, rfl, (fullRender_clear hproper hfits hwid hheight).of_redrawn (redrawn_of_change habv hne)⟩
    · rw [if_neg habv]
      have happ : decide (d.newLines.length > s.previousLines.length ∧ first = s.previousLines.length ∧ first > 0) = true ↔
          first = s.previousLines.length := by
        rw [decide_eq_true_iff]
        constructor
        · exact fun hall => hall.2.1
        · intro heq
          rcases hfst with ⟨-, hgrown⟩ | ⟨hlt, -⟩
          · exact ⟨hgrown, heq, heq ▸ hlen⟩
          · omega
      obtain ⟨res, hres, hdraws⟩ := renderChanged_draws h hreach hproper hfits hwid hheight hrng
        (Nat.le_of_not_lt habv) happ hsett.lines
      refine ⟨res, hres, hdraws.of_change (hsett.not_redrawn ?_ ?_)⟩
      · have := hrng.lt
        omega
      · have htake := congrArg (take s.previousViewportTop) hrng.before
        rwa [take_take, take_take, Nat.min_eq_left (Nat.le_of_not_lt habv)] at htake

omit hfits in
/-- Nothing changed: only the cursor moves, as after a render that wrote nothing. -/
theorem renderUnchanged_draws (hsett : Settled s d) (hnone : changes s d = none) :
    ∃ res, s.render d vw false = some res ∧ Draws cs d t (MarkerVisible s d) res := by
  have hlines := changes_none h.nonempty hnone
  obtain ⟨blank, top, hat, htop, -, -⟩ := h.placed hreach
  rw [hlines, ← hwid, ← hheight] at hat
  have hdraws : Draws cs d t (OnScreen s d) (s.finish d []) :=
    finish_draws hproper ⟨blank, hat⟩ htop (hlines ▸ h.below) (hlines ▸ h.row) hreach fun hnil => absurd (hlines.trans hnil) hsett.lines
  refine ⟨_, hsett.render_unchanged hnone, Draws.of_change ?_ (hsett.not_redrawn (hlines ▸ h.below) (by rw [hlines]))⟩
  have hscreen := positionHardwareCursor_screen s fun pos hpos => (hproper.cursor pos hpos).2
  have hsame : (s.finish d []).1 =
      { (s.positionHardwareCursor d.showHardwareCursor d.cursorPos d.newLines.length).1 with
        previousViewportTop := s.previousViewportTop, previousHeight := d.height } := by
    show { (s.positionHardwareCursor d.showHardwareCursor d.cursorPos d.newLines.length).1 with
      previousLines := d.newLines, previousWidth := (d.width : Int), previousHeight := (d.height : Int) } = _
    rw [hscreen, ← hlines, ← hsett.width]
  have hrun : t.run cs (s.finish d []).2 =
      t.run cs (s.positionHardwareCursor d.showHardwareCursor d.cursorPos d.newLines.length).2 := by
    show t.run cs (synchronized [] ++
      (s.positionHardwareCursor d.showHardwareCursor d.cursorPos d.newLines.length).2) = _
    rw [run_append, run_synchronized, run_nil]
  unfold Draws at hdraws ⊢
  rwa [hsame, hrun] at hdraws

/-- The first render writes below the rows that were there. -/
theorem renderFirst_draws (hnil : s.previousLines = []) :
    Draws cs d t (MarkerVisible s d) (s.fullRender d false) := by
  obtain ⟨blank, top, hat, -, -, -⟩ := h.placed hreach
  have hrow : s.hardwareCursorRow = 0 := by
    have := h.row
    rw [hnil, length_nil] at this
    omega
  rw [hnil, map_nil, append_nil, hrow, Nat.add_zero, ← hwid, ← hheight] at hat
  have hdraws : Draws cs d t True (s.fullRender d false) := fullRender_draws bef hproper hfits hat (h.start hnil)
  exact hdraws.of_redrawn (.inl hnil)

/-- **One render** on a terminal that shows the frame before: it goes through, the frame is drawn, and the cursor is on its recorded
    row exactly when the marker is visible. -/
theorem render_draws :
    ∃ res, s.render d vw false = some res ∧ Draws cs d t (MarkerVisible s d) res := by
  have hsame : ¬(s.previousWidth ≠ 0 ∧ s.previousWidth ≠ d.width) ∧
      ¬(s.previousHeight ≠ 0 ∧ s.previousHeight ≠ d.height) := by
    rw [hwid, hheight]
    rcases h.size with ⟨hw, hh⟩ | ⟨hw, hh, -⟩
    · exact ⟨fun hchgd => hchgd.2 hw, fun hchgd => hchgd.2 hh⟩
    · exact ⟨fun hchgd => hchgd.1 hw, fun hchgd => hchgd.1 hh⟩
  by_cases hnil : s.previousLines = []
  · refine ⟨s.fullRender d false, ?_, renderFirst_draws h hreach hproper hfits hwid hheight hnil⟩
    rw [render, if_pos ⟨length_eq_zero_iff.mpr hnil, hsame⟩]
  · obtain ⟨hw, hh⟩ := h.size.resolve_right fun hzero => hnil hzero.2.2
    by_cases hclear : d.clearOnShrink = true ∧ d.newLines.length < s.maxLinesRendered ∧ ¬d.hasOverlayEntries = true
    · refine ⟨s.fullRender d true, ?_, (fullRender_clear hproper hfits hwid hheight).of_redrawn
        (.inr (.inr (.inr (.inl ⟨hclear.1, hclear.2.1, Bool.eq_false_iff.mpr hclear.2.2⟩))))⟩
      rw [render, if_neg fun hfst => hnil (length_eq_zero_iff.mp hfst.1), if_neg hsame.1, if_neg fun hchgd => hsame.2 hchgd.1,
        if_pos hclear]
    · have hsett : Settled s d := ⟨by rw [hw, hwid], by rw [hh, hheight], hnil, hclear⟩
      cases hchgs : changes s d with
      | none => exact renderUnchanged_draws h hreach hproper hwid hheight hsett hchgs
      | some rng => exact renderRange_draws h hreach hproper hfits hwid hheight hsett hchgs

end

end

end PiBridge.Tui
