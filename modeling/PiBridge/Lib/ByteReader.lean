import Mathlib.Data.List.Forall2

/-!
# `Lib.ByteReader` — readers that stay within their bytes

A cursor knows which ranges of its bytes were read: they follow each other from the start, and end where the
cursor is, within the bytes. A cursor elsewhere cannot be built, so no reader reads past the end. A reader gives a
value or fails, and says where it is then.

`Decodes` is the specification of a reader by the bytes it is to meet: they compose as the readers do, and are read
one list element after the other.
-/

namespace Lib

open List

/-- Ranges that follow each other from the start, the last one first. -/
inductive Tiles : List (Nat × Nat) → Nat → Prop
  | nil : Tiles [] 0
  | cons {ranges : List (Nat × Nat)} {n m : Nat} (h : Tiles ranges n) (hle : n ≤ m) : Tiles ((n, m) :: ranges) m

theorem Tiles.le {ranges : List (Nat × Nat)} {n : Nat} (h : Tiles ranges n) : ∀ p ∈ ranges, p.1 ≤ p.2 ∧ p.2 ≤ n := by
  induction h with
  | nil => exact nofun
  | cons _ hle ih =>
    intro p hp
    rcases mem_cons.mp hp with rfl | hp
    · exact ⟨hle, Nat.le_refl _⟩
    · exact ⟨(ih p hp).1, Nat.le_trans (ih p hp).2 hle⟩

/-- Where a reader is in its bytes, and what it has read of them. -/
structure Cursor (bytes : List UInt8) where
  offset : Nat
  taken : List (Nat × Nat)
  tiles : Tiles taken offset
  within : offset ≤ bytes.length

namespace Cursor

variable {bytes : List UInt8}

def start (bytes : List UInt8) : Cursor bytes := ⟨0, [], .nil, Nat.zero_le _⟩

/-- The bytes that are left. -/
def rest (c : Cursor bytes) : List UInt8 := bytes.drop c.offset

/-- Past the next bytes. -/
def advance (c : Cursor bytes) (n : Nat) (h : n ≤ bytes.length - c.offset) : Cursor bytes where
  offset := c.offset + n
  taken := (c.offset, c.offset + n) :: c.taken
  tiles := .cons c.tiles (Nat.le_add_right _ _)
  within := by
    have hwithin := c.within
    omega

theorem length_rest (c : Cursor bytes) : c.rest.length = bytes.length - c.offset := length_drop

theorem rest_advance (c : Cursor bytes) (n : Nat) (h : n ≤ bytes.length - c.offset) : (c.advance n h).rest = c.rest.drop n := by
  rw [rest, rest, drop_drop]
  rfl

end Cursor

/-- Reads from any bytes: a value unless it fails, and the cursor then. -/
def Reader (α : Type) : Type := (bytes : List UInt8) → Cursor bytes → Option α × Cursor bytes

namespace Reader

variable {α β : Type}

instance : Monad Reader where
  pure a := fun _ c => (some a, c)
  bind r f := fun bytes c =>
    match r bytes c with
    | (some a, c) => f a bytes c
    | (none, c) => (none, c)

def fail : Reader α := fun _ c => (none, c)

/-- A value, or a failure. -/
def ofOption (x : Option α) : Reader α := fun _ c => (x, c)

/-- How many bytes are left. -/
def remaining : Reader Nat := fun bytes c => (some (bytes.length - c.offset), c)

/-- The next bytes. -/
def raw (n : Nat) : Reader (List UInt8) := fun bytes c =>
  if h : n ≤ bytes.length - c.offset then (some ((bytes.drop c.offset).take n), c.advance n h) else (none, c)

/-- The next byte. -/
def byte : Reader UInt8 := fun bytes c =>
  match h : bytes[c.offset]? with
  | some b =>
    (some b, c.advance 1 (by
      have hlt := (List.getElem?_eq_some_iff.mp h).1
      omega))
  | none => (none, c)

/-- The same reader this many times. -/
def replicate : Nat → Reader α → Reader (List α)
  | 0, _ => pure []
  | n + 1, r => do
    let a ← r
    let as ← replicate n r
    pure (a :: as)

/-- The same reader for each of a list. -/
def forEach (f : α → Reader β) : List α → Reader (List β)
  | [] => pure []
  | a :: as => do
    let b ← f a
    let bs ← forEach f as
    pure (b :: bs)

/-- Fails unless everything was read. -/
def finish : Reader Unit := fun bytes c => if c.offset = bytes.length then (some (), c) else (none, c)

variable {bytes : List UInt8}

theorem bind_eq (r : Reader α) (f : α → Reader β) {c c' : Cursor bytes} {a : α}
    (h : r bytes c = (some a, c')) : (r >>= f) bytes c = f a bytes c' := by
  show (match r bytes c with
    | (some a, c) => f a bytes c
    | (none, c) => (none, c)) = _
  rw [h]

theorem bind_eq_none (r : Reader α) (f : α → Reader β) {c c' : Cursor bytes}
    (h : r bytes c = (none, c')) : (r >>= f) bytes c = (none, c') := by
  show (match r bytes c with
    | (some a, c) => f a bytes c
    | (none, c) => (none, c)) = _
  rw [h]

end Reader

/-- Where these bytes follow, the reader gives this value and goes past them. -/
def Decodes {α : Type} (r : Reader α) (w : List UInt8) (a : α) : Prop :=
  ∀ bytes (c : Cursor bytes) rest, c.rest = w ++ rest → ∃ c', r bytes c = (some a, c') ∧ c'.rest = rest

/-- The reader fails where nothing is left. -/
def Needs {α : Type} (r : Reader α) : Prop := ∀ bytes (c : Cursor bytes), c.rest = [] → (r bytes c).1 = none

namespace Decodes

variable {α β : Type} {r : Reader α} {f : α → Reader β} {w w' : List UInt8} {a : α} {b : β}

theorem pure (a : α) : Decodes (Pure.pure a) [] a := fun _ c _ h => ⟨c, rfl, h⟩

theorem ofOption {x : Option α} (h : x = some a) : Decodes (Reader.ofOption x) [] a := by
  intro bytes c rest hrest
  exact ⟨c, by rw [Reader.ofOption, h], hrest⟩

theorem bind (h : Decodes r w a) (h' : Decodes (f a) w' b) : Decodes (r >>= f) (w ++ w') b := by
  intro bytes c rest hrest
  rw [append_assoc] at hrest
  obtain ⟨c₁, hr, hrest₁⟩ := h bytes c _ hrest
  obtain ⟨c₂, hf, hrest₂⟩ := h' bytes c₁ rest hrest₁
  exact ⟨c₂, (Reader.bind_eq r f hr).trans hf, hrest₂⟩

/-- A reader that ends a program reads as it does. -/
theorem bind_pure {g : α → β} (h : Decodes r w a) : Decodes (r >>= fun a => Pure.pure (g a)) w (g a) := by
  have hbind : Decodes (r >>= fun a => Pure.pure (g a)) (w ++ []) (g a) := h.bind (Decodes.pure (g a))
  rwa [append_nil] at hbind

theorem skip (h : Decodes r [] a) (h' : Decodes (f a) w b) : Decodes (r >>= f) w b := h.bind h'

theorem byte (b : UInt8) : Decodes Reader.byte [b] b := by
  intro bytes c rest hrest
  have hget : bytes[c.offset]? = some b := by
    have hhead := congrArg head? hrest
    rwa [Cursor.rest, head?_drop] at hhead
  unfold Reader.byte
  split
  · rename_i b' hb'
    obtain rfl : b' = b := Option.some.inj (hb'.symm.trans hget)
    refine ⟨_, rfl, ?_⟩
    rw [Cursor.rest_advance, hrest]
    rfl
  · rename_i hnone
    rw [hget] at hnone
    cases hnone

theorem raw (w : List UInt8) : Decodes (Reader.raw w.length) w w := by
  intro bytes c rest hrest
  have hlen := congrArg length hrest
  rw [Cursor.length_rest, length_append] at hlen
  have hle : w.length ≤ bytes.length - c.offset := by omega
  refine ⟨c.advance w.length hle, ?_, ?_⟩
  · have hslice : (bytes.drop c.offset).take w.length = w := by
      show c.rest.take w.length = w
      rw [hrest, take_left]
    rw [Reader.raw, dif_pos hle, hslice]
  · rw [Cursor.rest_advance, hrest, drop_left]

/-- The bytes of each, which its key tells how to read. -/
theorem forEach {f : α → Reader β} {key : β → α} {w : β → List UInt8} {bs : List β}
    (h : ∀ b ∈ bs, Decodes (f (key b)) (w b) b) : Decodes (Reader.forEach f (bs.map key)) (bs.flatMap w) bs := by
  induction bs with
  | nil => exact Decodes.pure []
  | cons b bs ih => exact (h b mem_cons_self).bind (ih fun b' hb' => h b' (mem_cons_of_mem b hb')).bind_pure

/-- What a reader that needs bytes has read is not empty. -/
theorem ne_nil (h : Decodes r w a) (hneeds : Needs r) : w ≠ [] := by
  rintro rfl
  obtain ⟨c, hr, -⟩ := h [] (Cursor.start []) [] rfl
  have hnone := hneeds [] (Cursor.start []) rfl
  rw [hr] at hnone
  cases hnone

theorem finish {c : Cursor bytes} (h : c.rest = []) : Reader.finish bytes c = (some (), c) := by
  have hlen := congrArg length h
  rw [Cursor.length_rest, length_nil] at hlen
  have hwithin := c.within
  rw [Reader.finish, if_pos (by omega)]

end Decodes

/-- Where the reader gives a value it is at the end. -/
def ReadsAll {α : Type} (r : Reader α) : Prop := ∀ bytes (c c' : Cursor bytes) a, r bytes c = (some a, c') → c'.offset = bytes.length

/-- A program ends where its last step does. -/
theorem ReadsAll.bind {α β : Type} {r : Reader α} {f : α → Reader β} (h : ∀ a, ReadsAll (f a)) : ReadsAll (r >>= f) := by
  intro bytes c c' b hbind
  cases hr : r bytes c with
  | mk a c₁ =>
    cases a with
    | none =>
      rw [Reader.bind_eq_none r f hr] at hbind
      cases hbind
    | some a =>
      rw [Reader.bind_eq r f hr] at hbind
      exact h a bytes c₁ c' b hbind

theorem ReadsAll.finish {α : Type} (a : α) : ReadsAll (Reader.finish >>= fun _ => Pure.pure a) := by
  intro bytes c c' b hbind
  by_cases hend : c.offset = bytes.length
  · have hfin : Reader.finish bytes c = (some (), c) := by rw [Reader.finish, if_pos hend]
    rw [Reader.bind_eq _ _ hfin] at hbind
    have hcurs : c = c' := congrArg Prod.snd hbind
    rw [← hcurs, hend]
  · have hfin : Reader.finish bytes c = (none, c) := by rw [Reader.finish, if_neg hend]
    rw [Reader.bind_eq_none _ _ hfin] at hbind
    cases hbind

theorem Needs.bind {α β : Type} {r : Reader α} {f : α → Reader β} (h : Needs r) : Needs (r >>= f) := by
  intro bytes c hrest
  have hnone := h bytes c hrest
  have hfails : r bytes c = (none, (r bytes c).2) := Prod.ext hnone rfl
  rw [Reader.bind_eq_none r f hfails]

theorem Needs.byte : Needs Reader.byte := by
  intro bytes c hrest
  have hget : bytes[c.offset]? = none := by
    have hhead := congrArg head? hrest
    rwa [Cursor.rest, head?_drop] at hhead
  unfold Reader.byte
  split
  · rename_i b hb
    rw [hget] at hb
    cases hb
  · rfl

end Lib
