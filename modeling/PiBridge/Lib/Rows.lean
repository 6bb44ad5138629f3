import Mathlib.Data.List.Sort
import Mathlib.Data.List.Lex

/-!
# `Lib.Rows` — tables as lists of rows

The statements of a table: an insert that a clashing row refuses, updates and deletes of the rows that meet a
condition, with their counts, and a selection in the order of a number.
-/

namespace Lib.Rows

open List

variable {α β : Type}

/-- `INSERT`: refused where a row clashes with the new one. -/
def insert (clashes : α → α → Bool) (rows : List α) (row : α) : Option (List α) :=
  if rows.any (clashes row) then none else some (rows ++ [row])

/-- `UPDATE … WHERE` -/
def update (p : α → Bool) (f : α → α) (rows : List α) : List α := rows.map fun r => if p r then f r else r

/-- `DELETE … WHERE` -/
def delete (p : α → Bool) (rows : List α) : List α := rows.filter fun r => !p r

/-- `ORDER BY` a number. -/
def orderBy (key : α → Nat) (rows : List α) : List α := rows.insertionSort fun r r' => key r ≤ key r'

variable {clashes : α → α → Bool} {p : α → Bool} {f : α → α} {rows rows' : List α} {row r : α}

theorem insert_eq_some : insert clashes rows row = some rows' ↔ (∀ r ∈ rows, clashes row r = false) ∧ rows' = rows ++ [row] := by
  unfold insert
  split
  · rename_i h
    obtain ⟨r, hr, hclash⟩ := any_eq_true.mp h
    exact ⟨fun h' => (by cases h'), fun h' => by rw [h'.1 r hr] at hclash; cases hclash⟩
  · rename_i h
    refine ⟨fun h' => ⟨fun r hr => ?_, (Option.some.inj h').symm⟩, fun h' => by rw [h'.2]⟩
    rw [Bool.eq_false_iff]
    exact fun hclash => h (any_eq_true.mpr ⟨r, hr, hclash⟩)

theorem mem_update : r ∈ update p f rows ↔ ∃ r₀ ∈ rows, (if p r₀ then f r₀ else r₀) = r := mem_map

/-- A row of an update was written, or was there. -/
theorem of_mem_update (h : r ∈ update p f rows) : (∃ r₀ ∈ rows, p r₀ = true ∧ f r₀ = r) ∨ r ∈ rows ∧ ¬p r = true := by
  obtain ⟨r₀, hr₀, rfl⟩ := mem_update.1 h
  split
  · rename_i hp
    exact .inl ⟨r₀, hr₀, hp, rfl⟩
  · rename_i hp
    exact .inr ⟨hr₀, hp⟩

variable {g : α → β} {key : α → Nat} {a : α}

/-- An update leaves alone what it does not write. -/
theorem map_update (h : ∀ r ∈ rows, p r = true → g (f r) = g r) : (update p f rows).map g = rows.map g := by
  unfold update
  rw [map_map]
  refine map_congr_left fun r hr => ?_
  show g (if p r then f r else r) = g r
  split
  · rename_i hp
    exact h r hr hp
  · rfl

theorem map_filter_update {k : α → Bool} (h : ∀ r ∈ rows, p r = true → k (f r) = k r ∧ g (f r) = g r) :
    ((update p f rows).filter k).map g = (rows.filter k).map g := by
  induction rows with
  | nil => rfl
  | cons r rows ih =>
    have hrest := ih fun r' hr' => h r' (mem_cons_of_mem r hr')
    have hone : k (if p r then f r else r) = k r ∧ g (if p r then f r else r) = g r := by
      split
      · rename_i hp
        exact h r mem_cons_self hp
      · exact ⟨rfl, rfl⟩
    show (filter k ((if p r then f r else r) :: update p f rows)).map g = _
    rw [filter_cons, filter_cons, hone.1]
    split
    · rw [map_cons, map_cons, hone.2, hrest]
    · exact hrest

theorem mem_delete : r ∈ delete p rows ↔ r ∈ rows ∧ p r = false := by
  unfold delete
  rw [mem_filter, Bool.not_eq_true']

/-- A statement that changed one row found one. -/
theorem exists_of_counted (h : rows.countP p = 1) : ∃ r ∈ rows, p r = true := by
  apply countP_pos_iff.mp
  omega

/-- Rows that are all the same are one row. -/
theorem length_le_one (hnd : rows.Nodup) (hsame : ∀ r ∈ rows, ∀ r' ∈ rows, r = r') : rows.length ≤ 1 := by
  match rows with
  | [] => exact Nat.zero_le 1
  | [_] => exact Nat.le_refl 1
  | r :: r' :: rest =>
    rw [nodup_cons, hsame r mem_cons_self r' (mem_cons_of_mem _ mem_cons_self)] at hnd
    exact absurd mem_cons_self hnd.1

theorem getLast?_of_length_le_one (h : rows.length ≤ 1) : rows.getLast? = rows.head? := by
  match rows, h with
  | [], _ => rfl
  | [_], _ => rfl

theorem orderBy_of_length_le_one (h : rows.length ≤ 1) : orderBy key rows = rows := by
  match rows, h with
  | [], _ => rfl
  | [_], _ => rfl

/-- An order is kept by what does not touch the number. -/
theorem map_orderBy {key' : β → Nat} (h : ∀ r, key' (g r) = key r) : (orderBy key rows).map g = orderBy key' (rows.map g) :=
  map_insertionSort _ _ g rows fun r _ r' _ => by rw [h, h]

theorem orderedInsert_of_le {l : List α} (h : ∀ r ∈ l, key a ≤ key r) : l.orderedInsert (fun r r' => key r ≤ key r') a = a :: l := by
  cases l with
  | nil => rfl
  | cons r l => exact orderedInsert_cons_of_le _ l (h r mem_cons_self)

theorem filter_orderedInsert {l : List α} (hsrt : l.Pairwise fun r r' => key r ≤ key r') :
    (l.orderedInsert (fun r r' => key r ≤ key r') a).filter p =
      if p a then (l.filter p).orderedInsert (fun r r' => key r ≤ key r') a else l.filter p := by
  induction l with
  | nil =>
    rw [orderedInsert_nil, filter_cons]
    rfl
  | cons r l ih =>
    obtain ⟨hfst, hrest⟩ := pairwise_cons.mp hsrt
    by_cases hle : key a ≤ key r
    · have hall : ∀ r' ∈ (r :: l).filter p, key a ≤ key r' := by
        intro r' hr'
        rcases mem_cons.mp (mem_of_mem_filter hr') with rfl | hr'
        · exact hle
        · exact Nat.le_trans hle (hfst r' hr')
      rw [orderedInsert_cons_of_le _ l hle, filter_cons, orderedInsert_of_le hall]
    · rw [orderedInsert_of_not_le _ l hle, filter_cons, ih hrest, filter_cons]
      split
      · split
        · rw [orderedInsert_of_not_le (fun r r' => key r ≤ key r') _ hle]
        · rfl
      · rfl

/-- A selection from an ordered table is ordered. -/
theorem filter_orderBy (key : α → Nat) (p : α → Bool) (rows : List α) : (orderBy key rows).filter p = orderBy key (rows.filter p) := by
  induction rows with
  | nil => rfl
  | cons r rows ih =>
    have hsrt : (orderBy key rows).Pairwise fun r r' => key r ≤ key r' := pairwise_insertionSort _ rows
    show ((orderBy key rows).orderedInsert _ r).filter p = _
    rw [filter_orderedInsert hsrt, ih, filter_cons]
    split <;> rfl

/-! ## Pages -/

/-- Of rows in strict order, those after one of them. -/
theorem filter_after {le : α → α → Bool} {bef aft : List α} (hsrt : (bef ++ a :: aft).Pairwise (le · · = true))
    (hrefl : le a a = true) (hstrict : ∀ r ∈ aft, le r a = false) : ((bef ++ a :: aft).filter fun r => !le r a) = aft := by
  have hbef : (bef.filter fun r => !le r a) = [] := by
    refine filter_eq_nil_iff.mpr fun r hr => ?_
    rw [(pairwise_append.mp hsrt).2.2 r hr a mem_cons_self]
    simp
  have haft : (aft.filter fun r => !le r a) = aft := by
    refine filter_eq_self.mpr fun r hr => ?_
    rw [hstrict r hr]
    rfl
  rw [filter_append, hbef, filter_cons, hrefl, haft]
  rfl

/-- Where no two rows are at one place, sorting and selecting commute. -/
theorem mergeSort_filter {le : α → α → Bool} (htrans : ∀ a b c, le a b = true → le b c = true → le a c = true)
    (htotal : ∀ a b, (le a b || le b a) = true) (hunique : ∀ a ∈ rows, ∀ b ∈ rows, le a b = true → le b a = true → a = b)
    (p : α → Bool) : (rows.filter p).mergeSort le = (rows.mergeSort le).filter p := by
  have hsrt : ∀ l : List α, (l.mergeSort le).Pairwise (le · · = true) := fun l => pairwise_mergeSort htrans htotal l
  refine Perm.eq_of_pairwise (fun a b ha hb hab hba => ?_) (hsrt _) ((hsrt rows).filter p)
    ((mergeSort_perm _ le).trans ((mergeSort_perm rows le).symm.filter p))
  have ha : a ∈ rows := mem_of_mem_filter ((mergeSort_perm _ le).mem_iff.mp ha)
  have hb : b ∈ rows := (mergeSort_perm rows le).mem_iff.mp (mem_of_mem_filter hb)
  exact hunique a ha b hb hab hba

/-- What a comparison finds. -/
structure Compares {K : Type} [LT K] (order : Ordering) (x y : K) : Prop where
  lt : order = .lt ↔ x < y
  gt : order = .gt ↔ y < x

theorem Compares.cons {K : Type} [LinearOrder K] {o o' : Ordering} {x y : K} {xs ys : List K} (h : Compares o x y)
    (h' : Compares o' xs ys) : Compares (o.then o') (x :: xs) (y :: ys) := by
  cases o with
  | lt =>
    have hlt := h.lt.mp rfl
    exact ⟨by simp [Ordering.then, cons_lt_cons_iff, hlt], by simp [Ordering.then, cons_lt_cons_iff, hlt.not_gt, hlt.ne']⟩
  | gt =>
    have hgt := h.gt.mp rfl
    exact ⟨by simp [Ordering.then, cons_lt_cons_iff, hgt.not_gt, hgt.ne'], by simp [Ordering.then, cons_lt_cons_iff, hgt]⟩
  | eq =>
    have hnot : ¬x < y ∧ ¬y < x := ⟨fun hlt => (by cases h.lt.mpr hlt), fun hgt => (by cases h.gt.mpr hgt)⟩
    obtain rfl := le_antisymm (not_lt.mp hnot.2) (not_lt.mp hnot.1)
    exact ⟨by simp [Ordering.then, h'.lt], by simp [Ordering.then, h'.gt]⟩

theorem Compares.nil {K : Type} [LinearOrder K] : Compares .eq ([] : List K) [] := ⟨by simp, by simp⟩

end Lib.Rows
