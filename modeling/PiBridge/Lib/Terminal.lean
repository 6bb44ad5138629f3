import Mathlib.Data.List.Basic

/-!
# `Lib.Terminal` — a screen of rows with a cursor, and what scrolled off its top

A terminal carries out commands one after another. Cursor moves stop at the edges of the screen; only a line feed on the
last row scrolls, which moves the first row to the scrollback and adds a blank one. A character after the last column goes
to the next row, so text that fits stays in its row.

Seen from outside, scrollback and screen are one *sheet* of rows that only ever grows at its end, and the screen is the
part of it from `top` on. `Terminal.At` says what the sheet holds, where the screen starts and where the cursor is, and
every command has one rule about it. The rules for rows written one below the other (`At.rows`) and for rows
cleared one below the other (`At.clearRows`) follow from them.
-/

namespace Lib

open List

/-- A row is the list of the cells that were written from its left edge on; the rest of it is blank. -/
structure Terminal (Cell : Type) where
  width : Nat
  scrollback : List (List Cell)
  rows : List (List Cell)
  row : Nat
  col : Nat
  width_pos : 0 < width
  row_lt : row < rows.length

/-- What a program sends to its terminal, with `Line` for text. -/
inductive Command (Line : Type)
  | text (line : Line)
  | carriageReturn
  | lineFeed
  /-- CSI A and CSI B; a count of zero counts as one. -/
  | up (count : Nat)
  | down (count : Nat)
  /-- CSI G, from one. -/
  | column (col : Nat)
  /-- CSI 2 K. -/
  | eraseLine
  /-- CSI 2 J and CSI 3 J. -/
  | eraseScreen
  | eraseScrollback
  /-- CSI H. -/
  | home
  /-- CSI ? h and CSI ? l for modes that change no cell and move no cursor. -/
  | setMode (mode : Nat) (on : Bool)

/-- The end of a line. -/
def crlf {Line : Type} : List (Command Line) := [.carriageReturn, .lineFeed]

namespace Terminal

variable {Cell Line : Type}

def lineFeed (t : Terminal Cell) : Terminal Cell :=
  if h : t.row + 1 < t.rows.length then { t with row := t.row + 1, row_lt := h }
  else
    { t with
      scrollback := t.scrollback ++ t.rows.take 1
      rows := t.rows.drop 1 ++ [[]]
      row_lt := by
        have := t.row_lt
        simp only [List.length_append, List.length_drop, List.length_singleton]
        omega }

/-- A cell in a column of a row. -/
def writeAt [Inhabited Cell] (col : Nat) (cell : Cell) (row : List Cell) : List Cell :=
  row.take col ++ List.replicate (col - row.length) default ++ cell :: row.drop (col + 1)

/-- A cell at the cursor. After the last column the cursor waits there, and goes to the next row with the next cell. -/
def put [Inhabited Cell] (t : Terminal Cell) (cell : Cell) : Terminal Cell :=
  let t := if t.col < t.width then t else { t.lineFeed with col := 0 }
  { t with rows := t.rows.modify t.row (writeAt t.col cell), col := t.col + 1, row_lt := by simpa using t.row_lt }

section Commands

variable [Inhabited Cell] (cells : Line → List Cell)

/-- What a command does, where `cells` says which cells a text fills. -/
def exec (t : Terminal Cell) : Command Line → Terminal Cell
  | .text line => (cells line).foldl put t
  | .carriageReturn => { t with col := 0 }
  | .lineFeed => t.lineFeed
  | .up count => { t with row := t.row - max count 1, row_lt := Nat.lt_of_le_of_lt (Nat.sub_le _ _) t.row_lt }
  | .down count =>
    { t with row := min (t.row + max count 1) (t.rows.length - 1), row_lt := by have := t.row_lt; omega }
  | .column col => { t with col := min (col - 1) (t.width - 1) }
  | .eraseLine => { t with rows := t.rows.set t.row [], row_lt := by simpa using t.row_lt }
  | .eraseScreen => { t with rows := t.rows.map fun _ => [], row_lt := by simpa using t.row_lt }
  | .eraseScrollback => { t with scrollback := [] }
  | .home => { t with row := 0, col := 0, row_lt := Nat.zero_lt_of_lt t.row_lt }
  | .setMode _ _ => t

def run (t : Terminal Cell) (commands : List (Command Line)) : Terminal Cell := commands.foldl (exec cells) t

variable (t : Terminal Cell)

theorem run_append (a b : List (Command Line)) : t.run cells (a ++ b) = (t.run cells a).run cells b := foldl_append

@[simp] theorem run_nil : t.run cells [] = t := rfl

@[simp] theorem run_cons (c : Command Line) (cs : List (Command Line)) : t.run cells (c :: cs) = (t.exec cells c).run cells cs := rfl

end Commands

/-! ## The sheet -/

/-- The sheet of a terminal with `height` rows, the row of it that is first on the screen, and the one with the cursor. -/
structure At (t : Terminal Cell) (width height : Nat) (sheet : List (List Cell)) (top pos : Nat) : Prop where
  width : t.width = width
  height : t.rows.length = height
  sheet : t.scrollback ++ t.rows = sheet
  top : t.scrollback.length = top
  pos : t.scrollback.length + t.row = pos

namespace At

variable {t : Terminal Cell} {width height top pos : Nat} {sheet : List (List Cell)}

theorem self (t : Terminal Cell) : t.At t.width t.rows.length (t.scrollback ++ t.rows) t.scrollback.length (t.scrollback.length + t.row) :=
  ⟨rfl, rfl, rfl, rfl, rfl⟩

section

variable (h : t.At width height sheet top pos)

include h

theorem length : sheet.length = top + height := by
  rw [← h.sheet, length_append, h.top, h.height]

theorem top_le : top ≤ pos := by
  rw [← h.top, ← h.pos]
  exact Nat.le_add_right _ _

theorem pos_lt : pos < top + height := by
  have := t.row_lt
  rw [← h.top, ← h.pos, ← h.height]
  omega

/-- A line feed adds a row when there is none below, and moves the screen when the cursor would leave it. -/
theorem lineFeed :
    t.lineFeed.At width height (sheet ++ List.replicate (pos + 2 - sheet.length) []) (max top (pos + 2 - height)) (pos + 1) ∧
    t.lineFeed.col = t.col := by
  have hlen := h.length
  obtain ⟨rfl, rfl, rfl, rfl, rfl⟩ := h
  have hrow := t.row_lt
  unfold Terminal.lineFeed
  by_cases hlast : t.row + 1 < t.rows.length
  · rw [dif_pos hlast]
    have hnone : t.scrollback.length + t.row + 2 - (t.scrollback ++ t.rows).length = 0 := by omega
    refine ⟨⟨rfl, rfl, ?_, ?_, rfl⟩, rfl⟩
    · rw [hnone, replicate_zero, append_nil]
    · show t.scrollback.length = max t.scrollback.length (t.scrollback.length + t.row + 2 - t.rows.length)
      omega
  · rw [dif_neg hlast]
    have hone : t.scrollback.length + t.row + 2 - (t.scrollback ++ t.rows).length = 1 := by omega
    have htake : (t.rows.take 1).length = 1 := by
      rw [length_take]
      omega
    refine ⟨⟨rfl, ?_, ?_, ?_, ?_⟩, rfl⟩
    · simp only [length_append, length_drop, length_singleton]
      omega
    · rw [hone, replicate_one]
      show t.scrollback ++ t.rows.take 1 ++ (t.rows.drop 1 ++ [[]]) = _
      rw [append_assoc, ← append_assoc (t.rows.take 1), take_append_drop, append_assoc]
    · show (t.scrollback ++ t.rows.take 1).length = max t.scrollback.length (t.scrollback.length + t.row + 2 - t.rows.length)
      rw [length_append, htake]
      omega
    · show (t.scrollback ++ t.rows.take 1).length + t.row = t.scrollback.length + t.row + 1
      rw [length_append, htake]
      omega

/-- A cell that is added to a row goes to its end. -/
theorem put [Inhabited Cell] {row : List Cell} (hrow : sheet[pos]? = some row)
    (hcol : t.col = row.length) (hfits : row.length < width) (cell : Cell) :
    (t.put cell).At width height (sheet.set pos (row ++ [cell])) top pos ∧ (t.put cell).col = row.length + 1 := by
  obtain ⟨rfl, rfl, rfl, rfl, rfl⟩ := h
  have hcur : t.rows[t.row]? = some row := by
    rwa [getElem?_append_right (Nat.le_add_right _ _), Nat.add_sub_cancel_left] at hrow
  have hwrite : writeAt t.col cell row = row ++ [cell] := by
    rw [writeAt, hcol, take_length, Nat.sub_self, replicate_zero, append_nil, drop_eq_nil_of_le (Nat.le_succ _)]
  have hput : t.put cell = { t with
      rows := t.rows.modify t.row (writeAt t.col cell), col := t.col + 1, row_lt := by simpa using t.row_lt } := by
    simp only [Terminal.put, if_pos (hcol ▸ hfits : t.col < t.width)]
  rw [hput]
  refine ⟨⟨rfl, length_modify _ _ _, ?_, rfl, rfl⟩, congrArg (· + 1) hcol⟩
  show t.scrollback ++ t.rows.modify t.row (writeAt t.col cell) = _
  rw [set_append_right _ _ (Nat.le_add_right _ _), Nat.add_sub_cancel_left]
  congr 1
  refine ext_getElem? fun i => ?_
  rw [getElem?_modify, getElem?_set]
  by_cases hi : t.row = i
  · subst hi
    rw [hcur, if_pos rfl, if_pos t.row_lt]
    show some (if t.row = t.row then writeAt t.col cell row else row) = _
    rw [if_pos rfl, hwrite]
  · rw [if_neg hi]
    cases hat : t.rows[i]? with
    | none => rfl
    | some oth =>
      show some (if t.row = i then writeAt t.col cell oth else oth) = some oth
      rw [if_neg hi]

/-- Text that fits stays in its row. -/
theorem text [Inhabited Cell] {row : List Cell} (hrow : sheet[pos]? = some row)
    (hcol : t.col = row.length) (cells : List Cell) (hfits : row.length + cells.length ≤ width) :
    (cells.foldl Terminal.put t).At width height (sheet.set pos (row ++ cells)) top pos := by
  induction cells generalizing t sheet row with
  | nil =>
    rw [append_nil]
    have hset : sheet.set pos row = sheet := ext_getElem? fun i => by
      rw [getElem?_set]
      split
      · rename_i hi
        subst hi
        rw [hrow, if_pos (List.getElem?_eq_some_iff.mp hrow).1]
      · rfl
    rw [hset]
    exact h
  | cons cell cells ih =>
    rw [length_cons] at hfits
    obtain ⟨hput, hput_col⟩ := h.put hrow hcol (by omega) cell
    have hset : (sheet.set pos (row ++ [cell]))[pos]? = some (row ++ [cell]) := by
      rw [List.getElem?_set, if_pos rfl, if_pos (List.getElem?_eq_some_iff.mp hrow).1]
    have hrest := ih hput hset (by rw [hput_col, length_append, length_singleton])
      (by rw [length_append, length_singleton]; omega)
    rw [set_set, append_assoc, singleton_append] at hrest
    exact hrest

end

theorem set_length (pre : List (List Cell)) (row row' : List Cell) (rest : List (List Cell)) :
    (pre ++ row :: rest).set pre.length row' = pre ++ row' :: rest := by
  rw [set_append_right _ _ (Nat.le_refl _), Nat.sub_self, set_cons_zero]

section Commands

variable [Inhabited Cell] (cells : Line → List Cell)

section

variable (h : t.At width height sheet top pos)

include h

theorem carriageReturn :
    (t.exec cells (.carriageReturn : Command Line)).At width height sheet top pos := { h with }

theorem column (col : Nat) :
    (t.exec cells (.column col : Command Line)).At width height sheet top pos := { h with }

theorem up {cnt : Nat} (hcnt : 0 < cnt) (hedge : top + cnt ≤ pos) :
    (t.exec cells (.up cnt : Command Line)).At width height sheet top (pos - cnt) := by
  obtain ⟨rfl, rfl, rfl, rfl, rfl⟩ := h
  refine ⟨rfl, rfl, rfl, rfl, ?_⟩
  show t.scrollback.length + (t.row - max cnt 1) = t.scrollback.length + t.row - cnt
  omega

end

theorem down (h : t.At width height sheet top pos) {cnt : Nat} (hcnt : 0 < cnt) (hedge : pos + cnt < top + height) :
    (t.exec cells (.down cnt : Command Line)).At width height sheet top (pos + cnt) := by
  obtain ⟨rfl, rfl, rfl, rfl, rfl⟩ := h
  refine ⟨rfl, rfl, rfl, rfl, ?_⟩
  show t.scrollback.length + min (t.row + max cnt 1) (t.rows.length - 1) = t.scrollback.length + t.row + cnt
  omega

section

variable (h : t.At width height sheet top pos)

include h

/-- A move up past the first row of the screen ends there. -/
theorem up_edge {cnt : Nat} (hedge : pos ≤ top + cnt) :
    (t.exec cells (.up cnt : Command Line)).At width height sheet top top := by
  obtain ⟨rfl, rfl, rfl, rfl, rfl⟩ := h
  refine ⟨rfl, rfl, rfl, rfl, ?_⟩
  show t.scrollback.length + (t.row - max cnt 1) = t.scrollback.length
  omega

theorem eraseLine :
    (t.exec cells (.eraseLine : Command Line)).At width height (sheet.set pos []) top pos := by
  obtain ⟨rfl, rfl, rfl, rfl, rfl⟩ := h
  refine ⟨rfl, length_set, ?_, rfl, rfl⟩
  show t.scrollback ++ t.rows.set t.row [] = _
  rw [set_append_right _ _ (Nat.le_add_right _ _), Nat.add_sub_cancel_left]

/-- Erasing the screen and the scrollback leaves a blank screen. -/
theorem erase :
    (t.run cells ([.eraseScreen, .home, .eraseScrollback] : List (Command Line))).At width height (List.replicate height []) 0 0 := by
  refine ⟨h.width, ?_, ?_, rfl, rfl⟩
  · show (t.rows.map fun _ => []).length = height
    rw [length_map, h.height]
  · show [] ++ (t.rows.map fun _ => []) = replicate height []
    rw [map_const', h.height, nil_append]

end

/-! ## Rows below one another -/

variable {cells}

/-- What is sent for `x` turns a row that satisfies `P` into `shown x`, when the cursor is at its left edge. -/
def Writes (cells : Line → List Cell) (width : Nat) (P : List Cell → Prop) {Item : Type} (each : Item → List (Command Line))
    (shown : Item → List Cell) (x : Item) : Prop :=
  ∀ (t : Terminal Cell) (height : Nat) (sheet : List (List Cell)) (top pos : Nat) (row : List Cell), t.At width height sheet top pos →
    t.col = 0 → sheet[pos]? = some row → P row → (t.run cells (each x)).At width height (sheet.set pos (shown x)) top pos

variable {Item : Type} {pre rest : List (List Cell)} {each : Item → List (Command Line)}

/-- Rows that are written one after another, each below the one before. -/
theorem rowsBelow {P : List Cell → Prop} (hblank : P []) {shown : Item → List Cell}
    (its : List Item) (hwrites : ∀ x ∈ its, Writes cells width P each shown x)
    (hrest : ∀ row ∈ rest, P row) (h : t.At width height (pre ++ rest) top pos) (hpos : pos + 1 = pre.length) :
    ∃ pos', (t.run cells (its.flatMap fun x => crlf ++ each x)).At width height
        (pre ++ its.map shown ++ rest.drop its.length) (max top (pre.length + its.length - height)) pos' ∧
      pos' + 1 = pre.length + its.length := by
  induction its generalizing t pre rest top pos with
  | nil =>
    have hlt := h.pos_lt
    refine ⟨pos, ?_, hpos⟩
    rw [flatMap_nil, run_nil, map_nil, append_nil, length_nil, drop_zero, Nat.add_zero, Nat.max_eq_left (by omega)]
    exact h
  | cons x its ih =>
    -- The line feed brings the row of the first item, which is the first of `rest` or a new blank one.
    obtain ⟨hfed, hfed_col⟩ := (h.carriageReturn cells).lineFeed
    obtain ⟨row, rest', hsheet, hrow, hrest', hdrop⟩ : ∃ row rest', pre ++ rest ++ replicate (pos + 2 - (pre ++ rest).length) [] =
        pre ++ row :: rest' ∧ P row ∧ (∀ row ∈ rest', P row) ∧ rest' = rest.drop 1 := by
      cases rest with
      | nil =>
        refine ⟨[], [], ?_, hblank, nofun, rfl⟩
        have hone : pos + 2 - pre.length = 1 := by omega
        rw [append_nil, hone, replicate_one]
      | cons row rest' =>
        refine ⟨row, rest', ?_, hrest row mem_cons_self, fun r hr => hrest r (mem_cons_of_mem _ hr), rfl⟩
        have hnone : pos + 2 - (pre ++ row :: rest').length = 0 := by
          rw [length_append, length_cons]
          omega
        rw [hnone, replicate_zero, append_nil]
    rw [hsheet, hpos] at hfed
    have hwrt := hwrites x mem_cons_self _ _ _ _ _ row hfed (hfed_col.trans rfl)
      (by rw [getElem?_append_right (Nat.le_refl _), Nat.sub_self, getElem?_cons_zero]) hrow
    rw [set_length, ← singleton_append, ← append_assoc] at hwrt
    obtain ⟨pos', hall, hpos'⟩ := ih (fun y hy => hwrites y (mem_cons_of_mem _ hy)) hrest' hwrt
      (by rw [length_append, length_singleton])
    refine ⟨pos', ?_, ?_⟩
    · rw [flatMap_cons, run_append, run_append]
      rw [length_append, length_singleton] at hall
      have htop : max (max top (pos + 2 - height)) (pre.length + 1 + its.length - height) =
          max top (pre.length + (x :: its).length - height) := by
        rw [length_cons]
        clear * - hpos
        omega
      rw [htop, hdrop, drop_drop, append_assoc pre, singleton_append, Nat.add_comm 1] at hall
      exact hall
    · rw [length_append, length_singleton] at hpos'
      rw [length_cons]
      omega

theorem intercalate_cons (sep : List Item) (x : List Item) (xs : List (List Item)) :
    sep.intercalate (x :: xs) = x ++ xs.flatMap (sep ++ ·) := by
  induction xs generalizing x with
  | nil => rw [intercalate_singleton, flatMap_nil, append_nil]
  | cons y xs ih => rw [intercalate_cons_cons, ih, flatMap_cons, append_assoc, append_assoc]

/-- Rows that are written from the row of the cursor on, one below the other. -/
theorem rowsFrom {P : List Cell → Prop} (hblank : P []) {shown : Item → List Cell}
    {its : List Item} (hne : its ≠ []) (hwrites : ∀ x ∈ its, Writes cells width P each shown x)
    (hrest : ∀ row ∈ rest, P row) (h : t.At width height (pre ++ rest) top pre.length) (hcol : t.col = 0) :
    ∃ pos', (t.run cells (crlf.intercalate (its.map each))).At width height
        (pre ++ its.map shown ++ rest.drop its.length) (max top (pre.length + its.length - height)) pos' ∧
      pos' + 1 = pre.length + its.length := by
  cases its with
  | nil => exact absurd rfl hne
  | cons x its =>
    cases rest with
    | nil =>
      have hlen := h.length
      have hlt := h.pos_lt
      rw [append_nil] at hlen
      omega
    | cons row rest =>
      have hwrt := hwrites x mem_cons_self _ _ _ _ _ row h hcol
        (by rw [getElem?_append_right (Nat.le_refl _), Nat.sub_self, getElem?_cons_zero]) (hrest row mem_cons_self)
      rw [set_length, ← singleton_append, ← append_assoc] at hwrt
      obtain ⟨pos', hall, hpos'⟩ := rowsBelow hblank its (fun y hy => hwrites y (mem_cons_of_mem _ hy))
        (fun r hr => hrest r (mem_cons_of_mem _ hr)) hwrt (by rw [length_append, length_singleton])
      rw [length_append, length_singleton, Nat.add_assoc, Nat.add_comm 1] at hall hpos'
      refine ⟨pos', ?_, hpos'⟩
      rw [map_cons, intercalate_cons, run_append, flatMap_map]
      rw [append_assoc pre, singleton_append] at hall
      exact hall

/-- Rows of the screen that are cleared one after another, each below the one before. -/
theorem clearRows (cells : Line → List Cell) {mid : List (List Cell)} (hne : mid ≠ [])
    (h : t.At width height (pre ++ mid ++ rest) top pre.length) :
    (t.run cells ([.down 1].intercalate (List.replicate mid.length [.carriageReturn, .eraseLine]) : List (Command Line))).At width height
      (pre ++ List.replicate mid.length [] ++ rest) top (pre.length + mid.length - 1) ∧
    (t.run cells ([.down 1].intercalate (List.replicate mid.length [.carriageReturn, .eraseLine]) : List (Command Line))).col = 0 := by
  induction mid generalizing t pre with
  | nil => exact absurd rfl hne
  | cons row mid ih =>
    have hcleared := (h.carriageReturn cells).eraseLine cells
    rw [append_assoc, cons_append, set_length] at hcleared
    cases mid with
    | nil =>
      rw [length_singleton, replicate_one, replicate_one, intercalate_singleton, append_assoc]
      exact ⟨hcleared, rfl⟩
    | cons row' mid =>
      have hlen := hcleared.length
      rw [length_append, length_cons, length_append, length_cons] at hlen
      have hnext := hcleared.down cells Nat.one_pos (by omega)
      rw [← singleton_append (x := []), ← append_assoc, ← append_assoc] at hnext
      rw [← length_singleton (a := ([] : List Cell)), ← length_append] at hnext
      obtain ⟨hrest, hcol⟩ := ih (cons_ne_nil _ _) hnext
      rw [length_append, length_singleton] at hrest
      rw [length_cons (a := row), replicate_succ, length_cons, replicate_succ, intercalate_cons_cons, run_append, run_append]
      have hpos : pre.length + (mid.length + 1 + 1) - 1 = pre.length + 1 + (mid.length + 1) - 1 := by omega
      rw [hpos]
      rw [append_assoc pre, singleton_append] at hrest
      exact ⟨hrest, hcol⟩

end Commands

end At

end Terminal

end Lib
