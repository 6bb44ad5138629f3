import PiBridge.Chord.Json
import PiBridge.Lib.Assoc

/-!
# `Chord.Same` — deep equality, up to the order of keys

Two values are the same when they mean the same, and an object means the partial function from its keys to
what its values mean.
-/

namespace PiBridge.Chord

open Lib

/-- What a value means. -/
inductive Sem where
  | null
  | bool (b : Bool)
  | num (q : Rat)
  | str (s : Text)
  | arr (xs : List Sem)
  | obj (f : Text → Option Sem)

namespace Json

mutual
def sem : Json → Sem
  | .null => .null
  | .bool b => .bool b
  | .num q => .num q
  | .str s => .str s
  | .arr xs => .arr (semArr xs)
  | .obj m => .obj (semObj m)

def semArr : List Json → List Sem
  | [] => []
  | x :: xs => sem x :: semArr xs

def semObj : List (Text × Json) → Text → Option Sem
  | [], _ => none
  | (k, x) :: m, k' => if k = k' then some (sem x) else semObj m k'
end

/-- Deep equality up to the order of keys. -/
def Same (x y : Json) : Prop := x.sem = y.sem

attribute [local simp] sem semArr semObj Same

theorem semArr_eq (xs : List Json) : semArr xs = xs.map sem := by
  induction xs with
  | nil => rfl
  | cons x xs ih => rw [semArr, ih]; rfl

theorem semObj_eq (m : List (Text × Json)) (k : Text) : semObj m k = (Assoc.get? m k).map sem := by
  induction m with
  | nil => rfl
  | cons p m ih =>
    simp only [semObj, Assoc.get?]
    split
    · rfl
    · exact ih

@[simp] theorem sem_arr (xs : List Json) : (arr xs).sem = .arr (xs.map sem) := by
  rw [sem, semArr_eq]

theorem sem_obj (m : List (Text × Json)) : (obj m).sem = .obj fun k => (Assoc.get? m k).map sem := by
  rw [sem]
  congr 1
  funext k
  exact semObj_eq m k

theorem same_obj {m m' : List (Text × Json)}
    (h : ∀ k, (Assoc.get? m k).map sem = (Assoc.get? m' k).map sem) : Same (.obj m) (.obj m') := by
  unfold Same
  rw [sem_obj, sem_obj]
  congr 1
  funext k
  exact h k

end Json

end PiBridge.Chord
