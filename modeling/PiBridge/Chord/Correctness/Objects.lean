import PiBridge.Chord.Delta.Objects

/-!
# `Chord.Correctness.Objects` — objects stand for values

A reference stands for the value that its objects make up (`Denotes`), and for no other. Values that enter the
heap are stood for by objects of their own (`alloc_spec`). What an operation does to a container it does the same
way to its objects and to the value they stand for (`Edit.run_map`, `descend_edit`).
-/

namespace PiBridge.Chord.Objects

open Lib Lib.Heap Json List Option Assoc

/-! ## Containers -/

instance instContainerNode : Container Node Seg where
  elems := Node.elems
  child? := Node.child?
  put := Node.put
  elems_map f n := by
    cases n with
    | arr xs => rfl
    | obj m =>
      show (Assoc.mapValues f m).map Prod.snd = (m.map Prod.snd).map f
      rw [Assoc.mapValues, List.map_map, List.map_map]
      rfl
  child?_map f n s := by
    cases n with
    | arr xs =>
      cases s with
      | key k => rfl
      | index i => exact List.getElem?_map
    | obj m => exact Assoc.get?_mapValues f m s.name
  put_map f n s a := by
    cases n with
    | arr xs =>
      cases s with
      | key k => rfl
      | index i =>
        show Node.put (.arr (xs.map f)) (.index i) (f a) = (Node.put (.arr xs) (.index i) a).map f
        unfold Node.put
        by_cases h : i < xs.length
        · simp [h, Node.map, List.map_set]
        · simp [h, Node.map]
    | obj m => exact congrArg Node.obj (Assoc.set_mapValues f m s.name a)
  child?_put {α n s a} b h := by
    cases n with
    | arr xs =>
      cases s with
      | key k => cases h
      | index i =>
        have hi : i < xs.length := (List.getElem?_eq_some_iff.mp h).1
        simp [Node.put, Node.child?, hi]
    | obj m => exact Assoc.get?_set_self m s.name b
  put_child {α n s a} h := by
    cases n with
    | arr xs =>
      cases s with
      | key k => rfl
      | index i =>
        obtain ⟨hi, rfl⟩ := List.getElem?_eq_some_iff.mp h
        simp [Node.put, hi]
    | obj m => exact congrArg Node.obj (Assoc.set_get? h)
  elems_put {α n s a} h := by
    cases n with
    | arr xs =>
      cases s with
      | key k => cases h
      | index i =>
        obtain ⟨hi, rfl⟩ := List.getElem?_eq_some_iff.mp h
        have hsplit : ∀ b, (xs.set i b).Perm (b :: (xs.take i ++ xs.drop (i + 1))) := by
          intro b
          rw [List.set_eq_take_append_cons_drop, if_pos hi]
          exact List.perm_middle
        refine ⟨xs.take i ++ xs.drop (i + 1), ?_, fun b => ?_⟩
        · have hself := hsplit xs[i]
          rw [List.set_getElem_self] at hself
          exact hself
        · show (Node.put (.arr xs) (.index i) b).elems.Perm _
          rw [Node.put, if_pos hi]
          exact hsplit b
    | obj m =>
      obtain ⟨before, after, hm, hset⟩ := Assoc.split_of_get? h
      refine ⟨before.map Prod.snd ++ after.map Prod.snd, ?_, fun b => ?_⟩
      · show (m.map Prod.snd).Perm _
        rw [hm, List.map_append, List.map_cons]
        exact List.perm_middle
      · show ((Assoc.set m s.name b).map Prod.snd).Perm _
        rw [hset b, List.map_append, List.map_cons]
        exact List.perm_middle

/-- The value of a container. -/
def ofNode : Node Json → Json
  | .arr xs => .arr xs
  | .obj m => .obj m

instance instTreesNode : Trees Node Atom Json where
  atom := Subtype.val
  node := ofNode

/-- The objects make up the value. -/
def Denotes (heap : Heap) (v : Val) (value : Json) : Prop := ∃ refs, Holds (fun _ => False) heap v value refs

variable {value : Json} {key : Seg}

/-- Whose cells they are does not matter for what a value stands for. -/
theorem Denotes.of_holds {O : Nat → Prop} {hp : Heap} {v : Val} {refs : List Nat}
    (h : Holds O hp v value refs) : Denotes hp v value := by
  refine ⟨refs, ?_⟩
  induction h with
  | atom a => exact Holds.atom a
  | node r n cell closed kids ih => exact Holds.node r n cell (fun _ _ _ hfalse => hfalse) ih

/-! ## Values that enter the heap -/

abbrev JsonKid := Kid Atom Json

/-- The parts entered the heap after `heap`, each in cells of its own. -/
structure Brings (O : Nat → Prop) (heap heap' : Heap) (kids : List JsonKid) : Prop where
  grown : ∃ cells, heap' = heap ++ cells
  holds : ∀ k ∈ kids, Holds O heap' k.val k.tree k.refs
  fresh : ∀ r ∈ kids.flatMap Kid.refs, heap.length ≤ r
  nodup : (kids.flatMap Kid.refs).Nodup

/-- The cells to come are all the program's own, or none is. -/
def Uniform (O : Nat → Prop) (heap : Heap) : Prop := ∀ r r', heap.length ≤ r → heap.length ≤ r' → O r → O r'

section Alloc

variable {O : Nat → Prop} {hp hp₁ hp₂ : Heap}

theorem Brings.nil (O : Nat → Prop) (hp : Heap) : Brings O hp hp [] where
  grown := ⟨[], (append_nil _).symm⟩
  holds _ hk := by cases hk
  fresh _ hr := by cases hr
  nodup := nodup_nil

theorem Brings.atom (O : Nat → Prop) (hp : Heap) (a : Atom) : Brings O hp hp [⟨.atom a, a.val, []⟩] where
  grown := ⟨[], (append_nil _).symm⟩
  holds k hk := by
    obtain rfl := mem_singleton.mp hk
    exact Holds.atom a
  fresh _ hr := by cases hr
  nodup := nodup_nil

variable {kids : List JsonKid}

theorem Brings.length_le (h : Brings O hp hp₁ kids) : hp.length ≤ hp₁.length := by
  obtain ⟨cells, rfl⟩ := h.grown
  rw [length_append]
  omega

theorem Uniform.later (hO : Uniform O hp) (h : Brings O hp hp₁ kids) : Uniform O hp₁ :=
  fun r r' hr hr' => hO r r' (Nat.le_trans h.length_le hr) (Nat.le_trans h.length_le hr')

theorem Brings.cons {k : JsonKid} (h : Brings O hp hp₁ [k]) (h' : Brings O hp₁ hp₂ kids) : Brings O hp hp₂ (k :: kids) where
  grown := by
    obtain ⟨cells, rfl⟩ := h.grown
    obtain ⟨cells', rfl⟩ := h'.grown
    exact ⟨cells ++ cells', append_assoc ..⟩
  holds k' hk' := by
    rcases mem_cons.mp hk' with rfl | hk'
    · obtain ⟨cells, rfl⟩ := h'.grown
      exact (h.holds k' mem_cons_self).append cells
    · exact h'.holds k' hk'
  fresh r hr := by
    rcases mem_append.mp (flatMap_cons ▸ hr) with hr | hr
    · exact h.fresh r (by simpa using hr)
    · exact Nat.le_trans h.length_le (h'.fresh r hr)
  nodup := by
    have hk : k.refs.Nodup := by simpa using h.nodup
    rw [flatMap_cons, nodup_append]
    refine ⟨hk, h'.nodup, fun r hr r' hr' heq => ?_⟩
    -- what came first is older than what came later
    have hlt := (h.holds k mem_cons_self).lt_length r hr
    have hle := h'.fresh r' hr'
    omega

/-- A container of parts that entered the heap enters it after them. -/
theorem Brings.node {n : Node JsonKid} (hO : Uniform O hp) (h : Brings O hp hp₁ n.elems) :
    Brings O hp (hp₁ ++ [Kid.val <$> n]) [⟨.ref hp₁.length, ofNode (Kid.tree <$> n), hp₁.length :: refsOf n⟩] where
  grown := by
    obtain ⟨cells, rfl⟩ := h.grown
    exact ⟨cells ++ [Kid.val <$> n], append_assoc ..⟩
  holds k hk := by
    obtain rfl := mem_singleton.mp hk
    refine Holds.node (F := Node) hp₁.length n (by simp) ?_ fun k hk => (h.holds k hk).append _
    intro hnot x hx hOx
    exact hnot (hO x hp₁.length (h.fresh x hx) h.length_le hOx)
  fresh r hr := by
    rw [flatMap_cons, flatMap_nil, append_nil] at hr
    rcases mem_cons.mp hr with rfl | hr
    · exact h.length_le
    · exact h.fresh r hr
  nodup := by
    rw [flatMap_cons, flatMap_nil, append_nil, nodup_cons]
    refine ⟨fun hmem => ?_, h.nodup⟩
    obtain ⟨k, hk, hr⟩ := mem_refsOf.mp hmem
    exact Nat.lt_irrefl _ ((h.holds k hk).lt_length _ hr)

mutual

/-- **A value enters the heap in cells of its own.** -/
theorem alloc_spec (heap : Heap) (hO : Uniform O heap) :
    (value : Json) → ∃ k : JsonKid, (alloc heap value).2 = k.val ∧ k.tree = value ∧ Brings O heap (alloc heap value).1 [k]
  | .null => ⟨⟨.atom ⟨.null, rfl⟩, .null, []⟩, rfl, rfl, Brings.atom O heap _⟩
  | .bool b => ⟨⟨.atom ⟨.bool b, rfl⟩, .bool b, []⟩, rfl, rfl, Brings.atom O heap _⟩
  | .num q => ⟨⟨.atom ⟨.num q, rfl⟩, .num q, []⟩, rfl, rfl, Brings.atom O heap _⟩
  | .str cs => ⟨⟨.atom ⟨.str cs, rfl⟩, .str cs, []⟩, rfl, rfl, Brings.atom O heap _⟩
  | .arr xs => by
    obtain ⟨kids, hvals, htrees, hbrng⟩ := allocArr_spec heap hO xs
    have hnode := Brings.node (n := .arr kids) hO hbrng
    have htree : ofNode (Kid.tree <$> Node.arr kids) = .arr xs := congrArg Json.arr htrees
    rw [htree] at hnode
    refine ⟨⟨.ref (allocArr heap xs).1.length, .arr xs, (allocArr heap xs).1.length :: refsOf (Node.arr kids)⟩, ?_, rfl, ?_⟩
    · rw [alloc]
    · rw [alloc]
      dsimp only
      rw [hvals]
      exact hnode
  | .obj m => by
    obtain ⟨kids, hvals, htrees, hbrng⟩ := allocObj_spec heap hO m
    have hnode := Brings.node (n := .obj kids) hO hbrng
    have htree : ofNode (Kid.tree <$> Node.obj kids) = .obj m := congrArg Json.obj htrees
    rw [htree] at hnode
    refine ⟨⟨.ref (allocObj heap m).1.length, .obj m, (allocObj heap m).1.length :: refsOf (Node.obj kids)⟩, ?_, rfl, ?_⟩
    · rw [alloc]
    · rw [alloc]
      dsimp only
      rw [hvals]
      exact hnode

theorem allocArr_spec (heap : Heap) (hO : Uniform O heap) : (xs : List Json) →
    ∃ kids : List JsonKid, (allocArr heap xs).2 = kids.map Kid.val ∧ kids.map Kid.tree = xs ∧ Brings O heap (allocArr heap xs).1 kids
  | [] => ⟨[], rfl, rfl, Brings.nil O heap⟩
  | x :: xs => by
    obtain ⟨k, hval, htree, hk⟩ := alloc_spec heap hO x
    obtain ⟨kids, hvals, htrees, hkids⟩ := allocArr_spec (alloc heap x).1 (hO.later hk) xs
    refine ⟨k :: kids, ?_, ?_, ?_⟩
    · rw [allocArr, map_cons, ← hval, ← hvals]
    · rw [map_cons, htree, htrees]
    · rw [allocArr]
      exact hk.cons hkids

theorem allocObj_spec (heap : Heap) (hO : Uniform O heap) : (m : List (Text × Json)) →
    ∃ kids : List (Text × JsonKid), (allocObj heap m).2 = Assoc.mapValues Kid.val kids ∧ Assoc.mapValues Kid.tree kids = m ∧
      Brings O heap (allocObj heap m).1 (kids.map Prod.snd)
  | [] => ⟨[], rfl, rfl, Brings.nil O heap⟩
  | (key, x) :: m => by
    obtain ⟨k, hval, htree, hk⟩ := alloc_spec heap hO x
    obtain ⟨kids, hvals, htrees, hkids⟩ := allocObj_spec (alloc heap x).1 (hO.later hk) m
    refine ⟨(key, k) :: kids, ?_, ?_, ?_⟩
    · rw [allocObj, mapValues, map_cons, ← hval, ← mapValues, ← hvals]
    · rw [mapValues, map_cons, htree, ← mapValues, htrees]
    · rw [allocObj]
      exact hk.cons hkids

end

end Alloc

/-! ## Splices -/

section Splice

variable {α : Type}

theorem insertChunks_nil (rounds : Nat) (xs : List α) (st : Nat) : insertChunks rounds xs st [] = xs := by
  cases rounds <;> rfl

variable (xs : List α)

theorem spliceOnce_nil (st : Nat) : spliceOnce xs st 0 [] = xs := by
  simp [spliceOnce]

/-- A start past the end is the end. -/
theorem spliceOnce_past {xs : List α} {st : Nat} (h : xs.length ≤ st) (rm : Nat) (its : List α) :
    spliceOnce xs st rm its = xs ++ its := by
  rw [spliceOnce, take_of_length_le h, drop_eq_nil_of_le (by omega), append_nil]

/-- The next chunk goes right behind the one before it. -/
theorem spliceOnce_spliceOnce (st : Nat) (its rest : List α) :
    spliceOnce (spliceOnce xs st 0 its) (st + its.length) 0 rest = spliceOnce xs st 0 (its ++ rest) := by
  rcases Nat.lt_or_ge xs.length st with h | h
  · rw [spliceOnce_past h.le, spliceOnce_past h.le, spliceOnce_past (by rw [length_append]; omega), append_assoc]
  · have hlen : (xs.take st ++ its).length = st + its.length := by
      rw [length_append, length_take, Nat.min_eq_left h]
    simp only [spliceOnce, Nat.add_zero]
    rw [← hlen, take_left, drop_left, append_assoc (xs.take st)]

/-- **Inserting in chunks is inserting at once.** -/
theorem insertChunks_eq (rounds : Nat) (xs : List α) (st : Nat) (its : List α) (h : its.length ≤ rounds) :
    insertChunks rounds xs st its = spliceOnce xs st 0 its := by
  induction rounds generalizing xs st its with
  | zero =>
    obtain rfl := eq_nil_of_length_eq_zero (Nat.le_zero.mp h)
    rw [insertChunks_nil, spliceOnce_nil]
  | succ rounds ih =>
    cases hitems : its.isEmpty with
    | true =>
      obtain rfl := isEmpty_iff.mp hitems
      rw [insertChunks_nil, spliceOnce_nil]
    | false =>
      have hchunk : 0 < chunkSize := by decide
      rw [insertChunks, hitems, if_neg (by simp)]
      rcases Nat.lt_or_ge its.length chunkSize with hlast | hmore
      · -- the last chunk
        rw [take_of_length_le hlast.le, drop_eq_nil_of_le hlast.le, insertChunks_nil]
      · have hlen : (its.take chunkSize).length = chunkSize := by rw [length_take, Nat.min_eq_left hmore]
        rw [ih _ _ _ (by rw [length_drop]; omega)]
        have hnext := spliceOnce_spliceOnce xs st (its.take chunkSize) (its.drop chunkSize)
        rw [hlen, take_append_drop] at hnext
        exact hnext

/-- What the applier does to an array, in one step. -/
theorem splice_eq (idx rm : Nat) (its : List α) :
    insertChunks its.length (spliceOnce xs idx rm []) idx its = xs.take idx ++ its ++ xs.drop (idx + rm) := by
  rw [insertChunks_eq _ _ _ _ (Nat.le_refl _)]
  rcases Nat.lt_or_ge xs.length idx with h | h
  · rw [spliceOnce_past h.le, append_nil, spliceOnce_past h.le, take_of_length_le h.le, drop_eq_nil_of_le (by omega), append_nil]
  · have hlen : (xs.take idx).length = idx := by rw [length_take, Nat.min_eq_left h]
    simp only [spliceOnce, Nat.add_zero, append_nil]
    have htake : (xs.take idx ++ xs.drop (idx + rm)).take idx = xs.take idx := by
      rw [take_append_of_le_length hlen.ge, take_take, Nat.min_self]
    have hdrop : (xs.take idx ++ xs.drop (idx + rm)).drop idx = xs.drop (idx + rm) := by
      rw [drop_append_of_le_length hlen.ge, drop_eq_nil_of_le hlen.le, nil_append]
    rw [htake, hdrop]

end Splice

/-! ## Edits -/

namespace Edit

variable {α β : Type}

def map (f : α → β) : Edit α → Edit β
  | assign key value => assign key (f value)
  | delete key => delete key
  | append key suffix => append key suffix
  | trim key count => trim key count
  | splice index remove items => splice index remove (items.map f)
  | reorder permutation => reorder permutation

/-- The values an edit brings. -/
def items : Edit α → List α
  | assign _ value => [value]
  | splice _ _ items => items
  | delete _ | append _ _ | trim _ _ | reorder _ => []

/-- `assertPermutation` accepts the edit. -/
def isValid : Edit α → Bool
  | reorder permutation => isPermutation permutation
  | _ => true

end Edit

instance instStringsJson : Strings Json where
  text? value :=
    match value with
    | .str cs => some cs
    | _ => none
  ofText := Json.str

instance instStringsKid : Strings JsonKid where
  text? k := Strings.text? k.val
  ofText cs := ⟨Strings.ofText cs, .str cs, []⟩

/-- A value and what it stands for are the same string, if either is one. -/
theorem text?_holds {O : Nat → Prop} {hp : Heap} {v : Val} {refs : List Nat}
    (h : Holds O hp v value refs) : Strings.text? value = Strings.text? v := by
  cases h with
  | atom a =>
    obtain ⟨value, hval⟩ := a
    cases value <;> rfl
  | node r n cell closed kids => cases n <;> rfl

section Run

variable {α β : Type} [Strings α] [Strings β] {f : α → β} {n n' : Node α}

omit [Strings α] [Strings β] in
theorem accepts_map (f : α → β) (n : Node α) (key : Seg) : (n.map f).accepts key = n.accepts key := by
  cases n <;> cases key <;> simp [Node.map, Node.accepts]

/-- **An edit does the same to a container and to its image.** -/
theorem Edit.run_map (e : Edit α) (hofText : ∀ cs, f (Strings.ofText cs) = Strings.ofText cs)
    (htext : ∀ a ∈ n.elems, Strings.text? (f a) = Strings.text? a) :
    (e.map f).run (n.map f) = (e.run n).map (Node.map f) := by
  have hput : ∀ key a, (n.map f).put key (f a) = (n.put key a).map f := fun key a => Container.put_map (F := Node) f n key a
  have hch : ∀ key, (n.map f).child? key = (n.child? key).map f := fun key => Container.child?_map (F := Node) f n key
  have hread : ∀ key, ((n.map f).child? key).bind Strings.text? = (n.child? key).bind Strings.text? := by
    intro key
    rw [hch]
    cases hk : n.child? key with
    | none => rfl
    | some a => exact htext a (mem_elems_of_child? (F := Node) hk)
  cases e with
  | assign key value =>
    rw [map, run, run, accepts_map, hput]
    split <;> rfl
  | delete key =>
    cases n with
    | arr xs =>
      cases key with
      | key k => rfl
      | index i =>
        simp only [map, run, Node.map, length_map]
        split
        · simp [Node.map, eraseIdx_map]
        · rfl
    | obj m =>
      exact congrArg (fun m => some (Node.obj m)) (erase_mapValues f m key.name)
  | append key sfx | trim key cnt =>
    rw [map, run, run, hread, Option.map_map]
    congr 1
    funext cs
    rw [Function.comp_apply, ← hput, hofText]
  | splice index rm its =>
    cases n with
    | arr xs =>
      simp only [map, run, Node.map, map_some, splice_eq]
      simp [map_take, map_drop]
    | obj m => rfl
  | reorder perm =>
    cases n with
    | arr xs =>
      simp only [map, run, Node.map, length_map]
      split
      · simp [Node.map, map_filterMap]
      · rfl
    | obj m => rfl

omit [Strings α] in
/-- Writing a property adds the value, at most. -/
theorem put_parts {key : Seg} (h : n.accepts key = true) (a : α) : (n.put key a).elems.Subperm (n.elems ++ [a]) := by
  have hswap : ∀ {rest : List α} {old : α}, (a :: rest).Subperm (old :: rest ++ [a]) := by
    intro rest old
    have hcons : (a :: rest).Subperm (a :: old :: rest) := ((sublist_cons_self old rest).cons_cons a).subperm
    exact hcons.trans (perm_append_singleton a (old :: rest)).symm.subperm
  cases hch : n.child? key with
  | some old =>
    obtain ⟨rest, hperm, hput⟩ := Container.elems_put (F := Node) hch
    have hbef : (old :: rest ++ [a]).Subperm (n.elems ++ [a]) := (hperm.symm.append_right [a]).subperm
    exact ((hput a).subperm.trans hswap).trans hbef
  | none =>
    cases n with
    | arr xs =>
      cases key with
      | key k => cases h
      | index i =>
        have hi : ¬i < xs.length := by
          have := getElem?_eq_none_iff.mp hch
          omega
        rw [Node.put, if_neg hi]
        exact Subperm.refl _
    | obj m =>
      have hkey := get?_eq_none_iff.mp hch
      rw [Node.put, set_eq_append a hkey]
      simp only [Node.elems, map_append, map_cons, map_nil]
      exact Subperm.refl _

omit [Strings α] in
theorem accepts_of_child? {key : Seg} {a : α} (h : n.child? key = some a) : n.accepts key = true := by
  cases n with
  | arr xs =>
    cases key with
    | key k => cases h
    | index i => exact decide_eq_true (List.getElem?_eq_some_iff.mp h).1.le
  | obj m => cases key <;> rfl

omit [Strings α] in
/-- A permutation of the positions reorders the list. -/
theorem reorder_perm {xs : List α} {perm : List Nat} (hlen : xs.length = perm.length)
    (hvald : isPermutation perm = true) : (perm.filterMap fun i => xs[i]?).Perm xs := by
  obtain ⟨hlt, hnd⟩ := Bool.and_eq_true_iff.mp hvald
  have hsub : perm ⊆ range perm.length := by
    intro i hi
    exact mem_range.mpr (of_decide_eq_true (all_eq_true.mp hlt i hi))
  have hperm : perm.Perm (range perm.length) := (subperm_of_subset (of_decide_eq_true hnd) hsub).perm_of_length_le (by simp)
  have hall : (range xs.length).filterMap (fun i => xs[i]?) = xs := by
    clear hlen
    induction xs using reverseRecOn with
    | nil => rfl
    | append_singleton xs a ih =>
      have hpre : (range xs.length).filterMap (fun i => (xs ++ [a])[i]?) = (range xs.length).filterMap fun i => xs[i]? := by
        refine filterMap_congr fun i hi => ?_
        exact getElem?_append_left (mem_range.mp hi)
      rw [length_append, length_singleton, range_succ, filterMap_append, hpre, ih]
      simp
  have := hperm.filterMap fun i => xs[i]?
  rwa [← hlen, hall] at this

/-- **What an edit leaves in a container** was there, or the edit brought it, or is a string. -/
theorem Edit.run_parts {e : Edit α} (hvald : e.isValid = true) (h : e.run n = some n') :
    ∃ texts : List Text, n'.elems.Subperm (n.elems ++ e.items ++ texts.map Strings.ofText) := by
  cases e with
  | assign key value =>
    rw [run] at h
    split at h
    · rename_i hacc
      cases h
      exact ⟨[], by simpa [items] using put_parts hacc value⟩
    · cases h
  | delete key =>
    refine ⟨[], ?_⟩
    cases n with
    | arr xs =>
      cases key with
      | key k => cases h
      | index i =>
        rw [run] at h
        split at h
        · cases h
          simpa [items, Node.elems] using (eraseIdx_sublist xs i).subperm
        · cases h
    | obj m =>
      cases h
      simpa [items, Node.elems] using ((erase_sublist m key.name).map Prod.snd).subperm
  | append key sfx =>
    obtain ⟨cs, hcs, rfl⟩ := map_eq_some_iff.mp h
    obtain ⟨a, ha, -⟩ := bind_eq_some_iff.mp hcs
    exact ⟨[cs ++ sfx], by simpa [items] using put_parts (accepts_of_child? ha) (Strings.ofText (cs ++ sfx))⟩
  | trim key cnt =>
    obtain ⟨cs, hcs, rfl⟩ := map_eq_some_iff.mp h
    obtain ⟨a, ha, -⟩ := bind_eq_some_iff.mp hcs
    exact ⟨[cs.drop cnt], by simpa [items] using put_parts (accepts_of_child? ha) (Strings.ofText (cs.drop cnt))⟩
  | splice index rm new =>
    refine ⟨[], ?_⟩
    cases n with
    | arr xs =>
      cases h
      simp only [Node.elems, splice_eq, items, map_nil, append_nil]
      have hrest : (xs.take index ++ xs.drop (index + rm)).Sublist xs := by
        have hdrop : (xs.drop (index + rm)).Sublist (xs.drop index) := drop_sublist_drop_left xs (by omega)
        have := hdrop.append_left (xs.take index)
        rwa [take_append_drop] at this
      have hperm : (xs.take index ++ new ++ xs.drop (index + rm)).Perm (xs.take index ++ xs.drop (index + rm) ++ new) := by
        rw [append_assoc, append_assoc]
        exact perm_append_comm.append_left _
      exact hperm.subperm.trans (hrest.append_right new).subperm
    | obj m => cases h
  | reorder perm =>
    refine ⟨[], ?_⟩
    cases n with
    | arr xs =>
      rw [run] at h
      split at h
      · rename_i hlen
        cases h
        simpa [items, Node.elems] using (reorder_perm hlen hvald).subperm
      · cases h
    | obj m => cases h

end Run

/-! ## Edits of values -/

/-- The container a value is. -/
def toNode? : Json → Option (Node Json)
  | .arr xs => some (.arr xs)
  | .obj m => some (.obj m)
  | _ => none

/-- An edit, as a change to what is found where the path ends. -/
def Edit.change (e : Edit Json) (found : Option Json) : Option Json := (found.bind toNode?).bind fun n => (e.run n).map ofNode

variable (n : Node Json) (seg : Seg)

@[simp] theorem toNode?_ofNode : toNode? (ofNode n) = some n := by cases n <;> rfl

theorem change_ofNode (e : Edit Json) (n : Node Json) : e.change (some (ofNode n)) = (e.run n).map ofNode := by
  simp [Edit.change]

theorem change_primitive (e : Edit Json) (h : value.isPrimitive = true) : e.change (some value) = none := by
  cases value <;> first | rfl | cases h

theorem child?_ofNode : (ofNode n).child? seg = n.child? seg := by
  cases n <;> cases seg <;> rfl

theorem accepts_ofNode : (ofNode n).accepts seg = n.accepts seg := by
  cases n <;> cases seg <;> rfl

theorem put_ofNode (value : Json) : (ofNode n).put seg value = ofNode (n.put seg value) := by
  cases n with
  | arr xs =>
    cases seg with
    | key k => rfl
    | index i =>
      by_cases h : i < xs.length <;> simp [Json.put, Node.put, ofNode, h]
  | obj m => rfl

theorem accepts_primitive (h : value.isPrimitive = true) (seg : Seg) : value.accepts seg = false := by
  cases value <;> first | rfl | cases h

variable {chg : Option Json → Option Json}

theorem descend_none {takes : Json → Seg → Bool} {path : Path} (h : chg none = none) : descend takes path chg none = none := by
  cases path with
  | nil => exact h
  | cons seg path => rfl

theorem descend_append (takes : Json → Seg → Bool) (path path' : Path) (chg : Option Json → Option Json)
    (fnd : Option Json) :
    descend takes (path ++ path') chg fnd = descend takes path (descend takes path' chg) fnd := by
  induction path generalizing fnd with
  | nil => rfl
  | cons seg path ih =>
    cases fnd with
    | none => rfl
    | some node => simp only [cons_append, descend, ih]

/-- A change to one property is an edit of its container. -/
theorem descend_key {e : Edit Json} (h : ∀ n : Node Json, (e.run n).map ofNode =
      if n.accepts key then (chg (n.child? key)).map fun value => ofNode (n.put key value) else none) :
    descend Json.accepts [key] chg = e.change := by
  funext found
  cases found with
  | none => rfl
  | some value =>
    cases hnode : toNode? value with
    | none =>
      have hprimitive : value.isPrimitive = true := by cases value <;> first | rfl | cases hnode
      rw [change_primitive e hprimitive, descend, accepts_primitive hprimitive, if_neg (by decide)]
    | some n =>
      have hval : value = ofNode n := by cases value <;> cases hnode <;> rfl
      rw [hval, change_ofNode, h n, descend, accepts_ofNode, child?_ofNode]
      split
      · show (chg _).map _ = _
        congr 1
        funext value'
        exact put_ofNode n key value'
      · rfl

theorem child?_eq_none_of_not_accepts {n : Node Json} (h : ¬n.accepts key = true) : n.child? key = none := by
  cases hch : n.child? key with
  | none => rfl
  | some a => exact absurd (accepts_of_child? hch) h

/-- A string is changed where it is found. -/
theorem text_change {f : Text → Text} {n : Node Json} (hnone : chg none = none)
    (h : ∀ value, chg (some value) = (Strings.text? value).map fun cs => .str (f cs)) :
    (((n.child? key).bind Strings.text?).map fun cs => n.put key (Strings.ofText (f cs))).map ofNode =
      if n.accepts key then (chg (n.child? key)).map fun value => ofNode (n.put key value) else none := by
  split
  · cases hch : n.child? key with
    | none => rw [hnone]; rfl
    | some value =>
      rw [h value, bind_some]
      cases Strings.text? value <;> rfl
  · rename_i hacc
    rw [child?_eq_none_of_not_accepts hacc]
    rfl

/-- **An operation changes a value as its edit does, where its path ends.** -/
theorem effect_eq {op : Op} {path : Path} {e : Edit Json} (h : edit? op = some (path, e)) (root : Json) :
    op.effect Json.accepts root = descend Json.accepts path e.change (some root) := by
  have hkey : ∀ {whole : Path} {key : Seg} {edit : Edit Json} {chg : Option Json → Option Json},
      whole.getLast? = some key → descend Json.accepts [key] chg = edit.change →
      descend Json.accepts whole chg (some root) = descend Json.accepts whole.dropLast edit.change (some root) := by
    intro whole key edit chg hlast hchg
    obtain ⟨init, rfl⟩ := getLast?_eq_some_iff.mp hlast
    rw [descend_append, hchg, dropLast_concat]
  cases op with
  | r value => cases h
  | s whole value =>
    obtain ⟨key, hlast, hpair⟩ := map_eq_some_iff.mp h
    cases hpair
    refine hkey hlast (descend_key fun n => ?_)
    rw [Edit.run]
    split <;> rfl
  | d whole =>
    obtain ⟨key, hlast, hpair⟩ := map_eq_some_iff.mp h
    cases hpair
    have hdelete : Op.delete key = (Edit.delete key).change := by
      funext found
      cases found with
      | none => rfl
      | some value =>
        cases value with
        | arr xs =>
          cases key with
          | key k => rfl
          | index i =>
            show (if i < xs.length then some (Json.arr (xs.eraseIdx i)) else none) =
              (if i < xs.length then some (Node.arr (xs.eraseIdx i)) else none).map ofNode
            split <;> rfl
        | obj m => rfl
        | null | bool _ | num _ | str _ => rfl
    rw [Op.effect, hlast, ← hdelete]
  | a whole sfx =>
    obtain ⟨key, hlast, hpair⟩ := map_eq_some_iff.mp h
    cases hpair
    refine hkey hlast (descend_key fun n => text_change (f := fun cs => cs ++ sfx) rfl fun value => ?_)
    cases value <;> rfl
  | t whole cnt =>
    obtain ⟨key, hlast, hpair⟩ := map_eq_some_iff.mp h
    cases hpair
    refine hkey hlast (descend_key fun n => text_change (f := fun cs => cs.drop cnt) rfl fun value => ?_)
    cases value <;> rfl
  | p whole index rm its =>
    cases h
    have hsplice : Op.splice index rm its = (Edit.splice index rm its).change := by
      funext found
      cases found with
      | none => rfl
      | some value =>
        cases value with
        | arr xs => exact congrArg (fun xs => some (Json.arr xs)) (splice_eq xs index rm its).symm
        | obj m => rfl
        | null | bool _ | num _ | str _ => rfl
    rw [Op.effect, hsplice]
  | m whole perm =>
    cases h
    have hreorder : Op.reorder perm = (Edit.reorder perm).change := by
      funext found
      cases found with
      | none => rfl
      | some value =>
        cases value with
        | arr xs =>
          show (if xs.length = perm.length then some (Json.arr (perm.filterMap fun i => xs[i]?)) else none) =
            (if xs.length = perm.length then some (Node.arr (perm.filterMap fun i => xs[i]?)) else none).map ofNode
          split <;> rfl
        | obj m => rfl
        | null | bool _ | num _ | str _ => rfl
    rw [Op.effect, hreorder]

end PiBridge.Chord.Objects
