import PiBridge.Chord.Delta.Diff
import PiBridge.Chord.Correctness.Matches

/-!
# `Chord.Correctness.DiffExact` — a batch turns one revision into the other

A function of the diff emits operations on the value at its path. `Turns` says what they do to that value
alone (`Op.under` moves them to the path), `RegionTurns` what they do to a region of an array, whatever is
around it: regions that follow one another compose (`RegionTurns.append`), so how a region is cut does not
matter as long as the pairs increase. `Emits` is the specification of a function that adds to the batch,
overflow included.

The result is the later revision up to the order of keys, as an element that is equal but not identical is
left as it is.
-/

namespace PiBridge.Chord

open Lib Json Revision List Assoc Region

/-! ## Operations below a path -/

/-- An operation on the value at `path`. -/
def Op.under (path : Path) : Op → Op
  | .r value => if path.isEmpty then .r value else .s path value
  | .s path' value => .s (path ++ path') value
  | .d path' => .d (path ++ path')
  | .a path' suffix => .a (path ++ path') suffix
  | .t path' count => .t (path ++ path') count
  | .p path' index remove items => .p (path ++ path') index remove items
  | .m path' permutation => .m (path ++ path') permutation

@[simp] theorem Op.under_nil (op : Op) : op.under [] = op := by
  cases op <;> rfl

theorem Op.under_under (path : Path) (seg : Seg) (op : Op) : (op.under [seg]).under path = op.under (path ++ [seg]) := by
  cases op <;> simp [Op.under]

variable {path : Path} {ops : List Op} {node c : Json} {seg : Seg}

theorem Op.isReplace_under (h : path ≠ []) (op : Op) : (op.under path).isReplace = false := by
  cases op with
  | r value => simp [Op.under, h, Op.isReplace]
  | s _ _ | d _ | a _ _ | t _ _ | p _ _ _ _ | m _ _ => rfl

/-- What operations do to a value, unchecked. -/
def effects (root : Json) (ops : List Op) : Option Json := ops.foldlM (fun value op => op.effect suits value) root

theorem effects_append {root v : Json} {ops' : List Op} (h : effects root ops = some v) : effects root (ops ++ ops') = effects v ops' := by
  unfold effects at h ⊢
  rw [foldlM_append, h]
  rfl

theorem applyTyped_of_effects {root : Json} (hvald : ∀ op ∈ ops, op.isValid = true) : applyTyped root ops = effects root ops := by
  induction ops generalizing root with
  | nil => rfl
  | cons op ops ih =>
    unfold applyTyped effects
    rw [foldlM_cons, foldlM_cons]
    have hop : op.applyWith suits root = op.effect suits root := by
      unfold Op.applyWith
      rw [if_pos (hvald op (by simp))]
    rw [hop]
    congr 1
    funext v
    exact ih (fun op' hop' => hvald op' (by simp [hop']))

/-- A property that is written with its own value is unchanged. -/
theorem put_child? (h : node.child? seg = some c) : node.put seg c = node := by
  cases node with
  | arr xs =>
    cases seg with
    | key _ => exact nomatch h
    | index n =>
      obtain ⟨hlt, rfl⟩ := List.getElem?_eq_some_iff.mp h
      rw [put_index_of_lt hlt, set_getElem_self]
  | obj m => rw [put_obj, set_get? h]
  | null | bool _ | num _ | str _ => exact nomatch h

theorem effect_under {c' : Json} {op : Op} (hsuit : node.suits seg = true)
    (hch : node.child? seg = some c) (h : op.effect suits c = some c') :
    (op.under [seg]).effect suits node = some (node.put seg c') := by
  cases op with
  | r value =>
    obtain rfl := Option.some.inj h
    have hhere : descend suits [] (Op.assign value) (node.child? seg) = some value := rfl
    exact descend_some hsuit hhere
  | s path value | a path sfx | t path cnt | p path idx rm its | m path perm => exact descend_some hsuit (by rw [hch]; exact h)
  | d path =>
    cases path with
    | nil => exact nomatch h
    | cons seg' path =>
      have hdescend : descend suits (seg' :: path).dropLast (Op.delete ((seg' :: path).getLast (by simp))) (some c) = some c' := by
        simpa only [Op.effect, getLast?_eq_getLast_of_ne_nil (cons_ne_nil seg' path)] using h
      have hlast : (seg :: seg' :: path).getLast? = some ((seg' :: path).getLast (by simp)) := by
        rw [getLast?_cons_cons, getLast?_eq_getLast_of_ne_nil (cons_ne_nil seg' path)]
      simp only [Op.under, Op.effect, singleton_append, hlast]
      exact descend_some hsuit (by rw [hch]; exact hdescend)

theorem effects_under {c' : Json} (hsuit : node.suits seg = true)
    (hch : node.child? seg = some c) (h : effects c ops = some c') :
    effects node (ops.map (Op.under [seg])) = some (node.put seg c') := by
  induction ops generalizing node c with
  | nil =>
    cases h
    rw [put_child? hch]
    rfl
  | cons op ops ih =>
    obtain ⟨d, hd, hrest⟩ := Option.bind_eq_some_iff.mp h
    refine Option.bind_eq_some_iff.mpr ⟨node.put seg d, effect_under hsuit hch hd, ?_⟩
    have hput := ih (suits_put hsuit d hsuit) (child?_put_self hsuit d) hrest
    rwa [put_put hsuit] at hput

/-! ## What operations turn a value into -/

/-- Valid operations below `path` that turn the value there into `y`, up to the order of keys; `r` is the only
    one if it is one. -/
def Turns (path : Path) (x y : Json) (ops : List Op) : Prop :=
  (∀ op ∈ ops, op.isValid = true) ∧ (∀ op ∈ ops, op.isReplace = true → ops = [op]) ∧
    ∃ below v, ops = below.map (Op.under path) ∧ effects x below = some v ∧ Same v y

/-- Valid operations below `path` that turn a region of the array there, from `out` on, into `ys`. -/
def RegionTurns (path : Path) (out : Nat) (xs ys : List Json) (ops : List Op) : Prop :=
  (∀ op ∈ ops, op.isValid = true) ∧ (∀ op ∈ ops, op.isReplace = false) ∧
    ∃ below, ops = below.map (Op.under path) ∧ ∀ done rest : List Json, done.length = out →
      ∃ mid, effects (.arr (done ++ xs ++ rest)) below = some (.arr (done ++ mid ++ rest)) ∧ mid.map sem = ys.map sem

theorem Turns.same {x y : Json} (h : Same x y) : Turns path x y [] := ⟨nofun, nofun, [], x, rfl, rfl, h⟩

theorem Turns.set (hpath : path.isSafe = true) (x y : Json) : Turns path x y [if path.isEmpty then .r y else .s path y] := by
  refine ⟨?_, ?_, [.r y], y, by simp [Op.under], rfl, rfl⟩
  · intro op hop
    obtain rfl := mem_singleton.mp hop
    split
    · rfl
    · rename_i hne
      simp [Op.isValid, hne, hpath]
  · intro op hop _
    rw [mem_singleton.mp hop]

/-- Operations at the path itself. -/
theorem Turns.at {x y v : Json} (hne : path ≠ []) (ops : List Op)
    (hvald : ∀ op ∈ ops, (op.under path).isValid = true) (heffects : effects x ops = some v) (hsame : Same v y) :
    Turns path x y (ops.map (Op.under path)) := by
  refine ⟨?_, ?_, ops, v, rfl, heffects, hsame⟩
  · intro op hop
    obtain ⟨op', hop', rfl⟩ := mem_map.mp hop
    exact hvald op' hop'
  · intro op hop hrepl
    obtain ⟨op', -, rfl⟩ := mem_map.mp hop
    rw [Op.isReplace_under hne] at hrepl
    exact nomatch hrepl

namespace RegionTurns

variable {path : Path} {out : Nat} {xs ys xs' ys' : List Json} {ops ops' : List Op}

theorem same (path : Path) (out : Nat) (h : xs.map sem = ys.map sem) : RegionTurns path out xs ys [] :=
  ⟨nofun, nofun, [], rfl, fun _ _ _ => ⟨xs, rfl, h⟩⟩

/-- Regions that follow one another. -/
theorem append {out' : Nat} (h : RegionTurns path out xs ys ops) (hout : out' = out + ys.length)
    (h' : RegionTurns path out' xs' ys' ops') : RegionTurns path out (xs ++ xs') (ys ++ ys') (ops ++ ops') := by
  subst hout
  obtain ⟨hvald, hrepl, bel, rfl, hbel⟩ := h
  obtain ⟨hvald', hrepl', bel', rfl, hbel'⟩ := h'
  refine ⟨forall_mem_append.mpr ⟨hvald, hvald'⟩, forall_mem_append.mpr ⟨hrepl, hrepl'⟩, bel ++ bel', by rw [map_append], ?_⟩
  · intro done rest hdone
    obtain ⟨mid, hmid, hsame⟩ := hbel done (xs' ++ rest) hdone
    have hlen : mid.length = ys.length := by simpa using congrArg length hsame
    obtain ⟨mid', hmid', hsame'⟩ := hbel' (done ++ mid) rest (by rw [length_append, hdone, hlen])
    refine ⟨mid ++ mid', ?_, by rw [map_append, map_append, hsame, hsame']⟩
    have hfst : effects (.arr (done ++ (xs ++ xs') ++ rest)) bel = some (.arr (done ++ mid ++ xs' ++ rest)) := by
      simpa only [append_assoc] using hmid
    rw [effects_append hfst]
    simpa only [append_assoc] using hmid'

/-- The region is replaced as a whole. -/
theorem splice (hpath : path.isSafe = true) : RegionTurns path out xs ys [.p path out xs.length ys] := by
  refine ⟨?_, ?_, [.p [] out xs.length ys], by simp [Op.under], ?_⟩
  · intro op hop
    obtain rfl := mem_singleton.mp hop
    exact hpath
  · intro op hop
    obtain rfl := mem_singleton.mp hop
    rfl
  · intro done rest hdone
    refine ⟨ys, ?_, rfl⟩
    have htake : (done ++ xs ++ rest).take out = done := by
      rw [append_assoc, take_left' hdone]
    have hdrop : (done ++ xs ++ rest).drop (out + xs.length) = rest := by
      rw [drop_left' (by rw [length_append, hdone])]
    show (Op.splice out xs.length ys (some (.arr (done ++ xs ++ rest)))).bind _ = _
    simp only [Op.splice, htake, hdrop]
    rfl

theorem element {x y : Json} (h : Turns (path ++ [Seg.index out]) x y ops) : RegionTurns path out [x] [y] ops := by
  obtain ⟨hvald, -, bel, v, rfl, hbel, hsame⟩ := h
  refine ⟨hvald, ?_, bel.map (Op.under [.index out]), ?_, ?_⟩
  · intro op hop
    obtain ⟨op', -, rfl⟩ := mem_map.mp hop
    exact Op.isReplace_under (by simp) op'
  · rw [map_map]
    congr 1
    funext op
    exact (Op.under_under path (.index out) op).symm
  · rintro done rest rfl
    have hlt : done.length < (done ++ [x] ++ rest).length := by simp
    refine ⟨[v], ?_, congrArg (fun s => [s]) hsame⟩
    have hsuit : (Json.arr (done ++ [x] ++ rest)).suits (.index done.length) = true := by simp [suits]
    have hch : (Json.arr (done ++ [x] ++ rest)).child? (.index done.length) = some x := by simp [child?]
    have heffects := effects_under hsuit hch hbel
    rw [heffects, put_index_of_lt hlt]
    simp

end RegionTurns

/-! ## Functions that emit -/

/-- The function adds operations with `P` to the batch, unless it overflows. -/
def Emits (run : Batch → Option Batch) (P : List Op → Prop) : Prop := ∀ batch, ∃ batch', run batch = some batch' ∧
    (batch'.overflowed = true ∨ batch.overflowed = false ∧ ∃ ops, batch'.operations = batch.operations ++ ops ∧ P ops)

namespace Emits

variable {run run' : Batch → Option Batch} {P Q R : List Op → Prop}

theorem mono (h : Emits run P) (hPQ : ∀ ops, P ops → Q ops) : Emits run Q := by
  intro bat
  obtain ⟨bat', hrun, hover | ⟨hopen, ops, hops, hP⟩⟩ := h bat
  · exact ⟨bat', hrun, Or.inl hover⟩
  · exact ⟨bat', hrun, Or.inr ⟨hopen, ops, hops, hPQ ops hP⟩⟩

theorem congr (h : Emits run P) (heq : ∀ bat, run' bat = run bat) : Emits run' P := by
  intro bat
  rw [heq]
  exact h bat

theorem skip (h : P []) : Emits some P := by
  intro bat
  refine ⟨bat, rfl, ?_⟩
  cases hover : bat.overflowed with
  | true => exact Or.inl rfl
  | false => exact Or.inr ⟨rfl, [], by simp, h⟩

theorem emit {op : Op} (h : P [op]) : Emits (fun bat => some (bat.emit op)) P := by
  intro bat
  refine ⟨_, rfl, ?_⟩
  unfold Batch.emit
  split
  · rename_i hover
    exact Or.inl hover
  · rename_i hopen
    split
    · exact Or.inl rfl
    · exact Or.inr ⟨by simpa using hopen, [op], rfl, h⟩

theorem just (op : Op) : Emits (fun bat => some (bat.emit op)) (· = [op]) := emit rfl

theorem bind (h : Emits run P) (h' : Emits run' Q) (hR : ∀ ops ops', P ops → Q ops' → R (ops ++ ops')) :
    Emits (fun bat => (run bat).bind run') R := by
  intro bat
  obtain ⟨bat', hrun, hcase⟩ := h bat
  obtain ⟨bat'', hrun', hcase'⟩ := h' bat'
  refine ⟨bat'', Option.bind_eq_some_iff.mpr ⟨bat', hrun, hrun'⟩, ?_⟩
  rcases hcase' with hover | ⟨hopen', ops', hops', hQ⟩
  · exact Or.inl hover
  · rcases hcase with hover | ⟨hopen, ops, hops, hP⟩
    · rw [hover] at hopen'
      exact nomatch hopen'
    · exact Or.inr ⟨hopen, ops ++ ops', by rw [hops', hops, append_assoc], hR ops ops' hP hQ⟩

/-- A batch that overflowed is given back. -/
theorem guarded (h : Emits run P) : Emits (fun bat => if bat.overflowed then some bat else run bat) P := by
  intro bat
  dsimp only
  split
  · rename_i hover
    exact ⟨bat, rfl, Or.inl hover⟩
  · exact h bat

end Emits

/-! ## Strings -/

theorem probeOverlap_spec {tail b head : Text} {tries from_ n : Nat} (h : probeOverlap tail b head tries from_ = some n) :
    n ≤ b.length ∧ n ≤ tail.length ∧ tail.drop (tail.length - n) = b.take n := by
  induction tries generalizing from_ with
  | zero => exact nomatch h
  | succ tries ih =>
    obtain ⟨k, hk, h⟩ := Option.bind_eq_some_iff.mp h
    dsimp only at h
    split at h
    · rename_i hfnd
      cases h
      obtain ⟨-, hlt, -⟩ := firstFrom_spec hk
      refine ⟨hfnd.1, Nat.sub_le _ _, ?_⟩
      rw [show tail.length - (tail.length - k) = k by omega]
      exact hfnd.2
    · exact ih h

/-- What `overlap` returns is an overlap. -/
theorem overlap_spec (a b : Text) (scan : Nat) : overlap a b scan ≤ b.length ∧ overlap a b scan ≤ a.length ∧
      a.drop (a.length - overlap a b scan) = b.take (overlap a b scan) := by
  have hzero : 0 ≤ b.length ∧ 0 ≤ a.length ∧ a.drop (a.length - 0) = b.take 0 := ⟨Nat.zero_le _, Nat.zero_le _, by simp⟩
  -- A suffix of the last `scan` characters is one of the whole.
  have hwhole : ∀ n, n ≤ b.length → n ≤ (if a.length > scan then a.drop (a.length - scan) else a).length →
      (if a.length > scan then a.drop (a.length - scan) else a).drop
        ((if a.length > scan then a.drop (a.length - scan) else a).length - n) = b.take n →
      n ≤ b.length ∧ n ≤ a.length ∧ a.drop (a.length - n) = b.take n := by
    intro n hb htail heq
    split at htail
    · rename_i hlong
      rw [if_pos hlong, drop_drop, length_drop] at heq
      rw [length_drop] at htail
      refine ⟨hb, by omega, ?_⟩
      rw [← heq]
      congr 1
      omega
    · rename_i hshort
      rw [if_neg hshort] at heq
      exact ⟨hb, htail, heq⟩
  unfold overlap
  split
  · exact hzero
  · dsimp only
    split
    · rename_i n hn
      obtain ⟨hb, htail, heq⟩ := probeOverlap_spec hn
      exact hwhole n hb htail heq
    · split
      · exact hzero
      · cases hn : probeOverlap (if a.length > scan then a.drop (a.length - scan) else a) b (b.take 1) 8 0 with
        | none => exact hzero
        | some n =>
          obtain ⟨hb, htail, heq⟩ := probeOverlap_spec hn
          exact hwhole n hb htail heq

theorem emitString_emits (hpath : path.isSafe = true) (hne : path ≠ []) (before after : Text) :
    Emits (fun bat => some (emitString before after path bat)) (Turns path (.str before) (.str after)) := by
  have hvald : ∀ op ∈ [Op.a [] (after.drop before.length), .s [] (.str after),
      .t [] (before.length - overlap before after defaultOverlapScan),
      .a [] (after.drop (overlap before after defaultOverlapScan))], (op.under path).isValid = true := by
    simp [Op.under, Op.isValid, hpath, hne]
  obtain ⟨hb, -, hoverlap⟩ := overlap_spec before after defaultOverlapScan
  generalize hshared : overlap before after defaultOverlapScan = shared at hvald hb hoverlap
  by_cases heq : before = after
  · apply (Emits.skip (Turns.same (congrArg (fun s => sem (.str s)) heq))).congr
    intro bat
    simp [emitString, heq]
  by_cases hlonger : after.length > before.length ∧ after.take before.length = before
  · have hjoin : before ++ after.drop before.length = after := by
      calc before ++ after.drop before.length
          = after.take before.length ++ after.drop before.length := by rw [hlonger.2]
        _ = after := take_append_drop _ _
    have hturns : Turns path (.str before) (.str after) [.a path (after.drop before.length)] := by
      have happ : effects (.str before) [.a [] (after.drop before.length)] = some (.str after) := by
        simp [effects, Op.effect, descend, Op.append, hjoin]
      have hat := Turns.at hne _ (fun op hop => hvald op (by simp_all)) happ rfl
      simpa [Op.under] using hat
    apply (Emits.emit hturns).congr
    intro bat
    simp only [emitString, if_neg heq, if_pos hlonger]
  by_cases hzero : shared = 0
  · have hturns : Turns path (.str before) (.str after) [.s path (.str after)] := by
      have hset : effects (.str before) [.s [] (.str after)] = some (.str after) := rfl
      have hat := Turns.at hne _ (fun op hop => hvald op (by simp_all)) hset rfl
      simpa [Op.under] using hat
    apply (Emits.emit hturns).congr
    intro bat
    simp only [emitString, if_neg heq, if_neg hlonger, hshared, if_pos hzero]
  have htrim : effects (.str before) [.t [] (before.length - shared)] = some (.str (after.take shared)) := by
    simp [effects, Op.effect, descend, Op.trim, hoverlap]
  by_cases hmore : after.length > shared
  · have hturns : Turns path (.str before) (.str after) [.t path (before.length - shared), .a path (after.drop shared)] := by
      have hmove : effects (.str before) [.t [] (before.length - shared), .a [] (after.drop shared)] = some (.str after) := by
        rw [← singleton_append, effects_append htrim]
        simp [effects, Op.effect, descend, Op.append]
      have hat := Turns.at hne _ (fun op hop => hvald op (by simp_all)) hmove rfl
      simpa [Op.under] using hat
    have hboth := (Emits.just (.t path (before.length - shared))).bind (Emits.just (.a path (after.drop shared)))
      (R := Turns path (.str before) (.str after)) (by rintro _ _ rfl rfl; exact hturns)
    apply hboth.congr
    intro bat
    simp only [emitString, if_neg heq, if_neg hlonger, hshared, if_neg hzero, if_pos hmore, Option.bind_some]
  · have hturns : Turns path (.str before) (.str after) [.t path (before.length - shared)] := by
      have hall : after.take shared = after := take_of_length_le (by omega)
      rw [hall] at htrim
      have hat := Turns.at hne _ (fun op hop => hvald op (by simp_all)) htrim rfl
      simpa [Op.under] using hat
    apply (Emits.emit hturns).congr
    intro bat
    simp only [emitString, if_neg heq, if_neg hlonger, hshared, if_neg hzero, if_neg hmore]

/-! ## Arrays -/

section Slices

variable {α β : Type} {i : Nat}

theorem slice_append (xs : List α) {j k : Nat} (hij : i ≤ j) (hjk : j ≤ k) (hj : j ≤ xs.length) :
    slice xs i j ++ slice xs j k = slice xs i k := by
  unfold slice
  have hlen : i ≤ (xs.take j).length := by rw [length_take]; omega
  have hsplit : xs.take j ++ (xs.take k).drop j = xs.take k := by
    conv_rhs => rw [← take_append_drop j (xs.take k)]
    rw [take_take, Nat.min_eq_left hjk]
  rw [← drop_append_of_le_length hlen, hsplit]

theorem length_slice (xs : List α) {j : Nat} (hj : j ≤ xs.length) : (slice xs i j).length = j - i := by
  unfold slice
  rw [length_drop, length_take]
  omega

theorem slice_one {xs : List α} {x : α} (h : xs[i]? = some x) : slice xs i (i + 1) = [x] := by
  unfold slice
  obtain ⟨hlt, rfl⟩ := List.getElem?_eq_some_iff.mp h
  rw [take_add_one, getElem?_eq_getElem hlt]
  exact drop_left' (by rw [length_take]; omega)

theorem slice_self (xs : List α) (i : Nat) : slice xs i i = [] := by
  unfold slice
  rw [drop_eq_nil_iff, length_take]
  omega

theorem slice_all (xs : List α) : slice xs 0 xs.length = xs := by
  simp [slice]

end Slices

section Arrays

variable {heap : Nat → Revision} {bef aft : List Revision} {path : Path}

/-- The region's elements of `before`. -/
def Region.xs (before : List Revision) (region : Region) : List Json := (slice before region.beforeStart region.beforeEnd).map json

/-- The region's elements of `after`. -/
def Region.ys (after : List Revision) (region : Region) : List Json := (slice after region.afterStart region.afterEnd).map json

/-- The region is one of both arrays. -/
structure Region.Within (before after : List Revision) (region : Region) : Prop where
  before : region.beforeStart ≤ region.beforeEnd ∧ region.beforeEnd ≤ before.length
  after : region.afterStart ≤ region.afterEnd ∧ region.afterEnd ≤ after.length

def Region.size (region : Region) : Nat := region.beforeCount + region.afterCount

/-- What the function emits turns the region. -/
def Differs (before after : List Revision) (path : Path) (region : Region) (run : Batch → Option Batch) : Prop :=
  Emits run (RegionTurns path region.outputStart (region.xs before) (region.ys after))

variable {i j : Nat} {reg : Region} {n : Nat}

theorem sameAt_spec {same : Revision → Revision → Bool} (h : sameAt same bef aft i j = true) :
    ∃ x y, bef[i]? = some x ∧ aft[j]? = some y ∧ same x y = true := by
  unfold sameAt at h
  split at h
  · rename_i x y hx hy
    exact ⟨x, y, hx, hy, h⟩
  · exact nomatch h

variable (hbef : ∀ x ∈ bef, Lives heap x) (haft : ∀ y ∈ aft, Lives heap y)

include hbef haft in
theorem sameAt_sound (h : sameAt sameValue bef aft i j = true) : ∃ x y, bef[i]? = some x ∧ aft[j]? = some y ∧ Same x.json y.json := by
  obtain ⟨x, y, hx, hy, hsame⟩ := sameAt_spec h
  exact ⟨x, y, hx, hy, sameValue_sound (hbef x (mem_of_getElem? hx)) (haft y (mem_of_getElem? hy)) hsame⟩

include hbef haft in
/-- Elements that are the same one by one. -/
theorem sem_slices {cnt : Nat} (h : ∀ off, off < cnt → sameAt sameValue bef aft (i + off) (j + off) = true) :
    ((slice bef i (i + cnt)).map json).map sem = ((slice aft j (j + cnt)).map json).map sem := by
  induction cnt with
  | zero => rw [Nat.add_zero, Nat.add_zero, slice_self, slice_self]
  | succ cnt ih =>
    obtain ⟨x, y, hx, hy, hsame⟩ := sameAt_sound hbef haft (h cnt (Nat.lt_succ_self _))
    have hxlt := (List.getElem?_eq_some_iff.mp hx).1
    have hylt := (List.getElem?_eq_some_iff.mp hy).1
    have hsame' : x.json.sem = y.json.sem := hsame
    rw [← Nat.add_assoc, ← Nat.add_assoc,
      ← slice_append bef (Nat.le_add_right i cnt) (Nat.le_add_right (i + cnt) 1) hxlt.le,
      ← slice_append aft (Nat.le_add_right j cnt) (Nat.le_add_right (j + cnt) 1) hylt.le,
      slice_one hx, slice_one hy]
    simp only [map_append, ih (fun off hoffset => h off (by omega)), map_cons, map_nil, hsame']

/-- A region skips at its start elements that are the same. -/
theorem Region.skipStart_spec (bef aft : List Revision) (reg : Region) : ∃ n,
    reg.skipStart bef aft = { reg with
      beforeStart := reg.beforeStart + n, afterStart := reg.afterStart + n, outputStart := reg.outputStart + n } ∧
    n ≤ reg.beforeEnd - reg.beforeStart ∧ n ≤ reg.afterEnd - reg.afterStart ∧
    ∀ off < n, sameAt sameValue bef aft (reg.beforeStart + off) (reg.afterStart + off) = true :=
  ⟨_, rfl, (countWhile_le _ _).trans (Nat.min_le_left ..), (countWhile_le _ _).trans (Nat.min_le_right ..),
    fun _ hlt => of_lt_countWhile (p := fun off => sameAt sameValue bef aft (reg.beforeStart + off) (reg.afterStart + off)) hlt⟩

/-- A region skips at its end elements that are the same. -/
theorem Region.skipEnd_spec (bef aft : List Revision) (reg : Region) : ∃ n,
    reg.skipEnd bef aft = { reg with beforeEnd := reg.beforeEnd - n, afterEnd := reg.afterEnd - n } ∧
    n ≤ reg.beforeEnd - reg.beforeStart ∧ n ≤ reg.afterEnd - reg.afterStart ∧
    ∀ off < n, sameAt sameValue bef aft (reg.beforeEnd - n + off) (reg.afterEnd - n + off) = true := by
  have hcnt := @of_lt_countWhile (fun off => sameAt sameValue bef aft (reg.beforeEnd - 1 - off) (reg.afterEnd - 1 - off))
    (min reg.beforeCount reg.afterCount)
  have hle := countWhile_le (fun off => sameAt sameValue bef aft (reg.beforeEnd - 1 - off) (reg.afterEnd - 1 - off))
    (min reg.beforeCount reg.afterCount)
  unfold skipEnd
  dsimp only
  generalize countWhile _ (min reg.beforeCount reg.afterCount) = n at hcnt hle ⊢
  unfold beforeCount afterCount at hle
  refine ⟨n, rfl, by omega, by omega, fun off hlt => ?_⟩
  have hat := @hcnt (n - 1 - off) (by omega)
  rwa [show reg.beforeEnd - 1 - (n - 1 - off) = reg.beforeEnd - n + off by omega,
    show reg.afterEnd - 1 - (n - 1 - off) = reg.afterEnd - n + off by omega] at hat

variable {run : Batch → Option Batch}

include hbef haft in
/-- A region is what is skipped at its start and the rest. -/
theorem Differs.skipStart (hwithin : reg.Within bef aft)
    (h : Differs bef aft path (reg.skipStart bef aft) run) : Differs bef aft path reg run := by
  apply h.mono
  intro ops hops
  obtain ⟨n, heq, hle, hle', hsame⟩ := reg.skipStart_spec bef aft
  have hsame := sem_slices hbef haft hsame
  rw [heq] at hops
  dsimp only [xs, ys] at hops ⊢
  obtain ⟨⟨hb, hb'⟩, ha, ha'⟩ := hwithin
  have hlen : ((slice aft reg.afterStart (reg.afterStart + n)).map json).length = n := by
    rw [length_map, length_slice aft (by omega)]
    omega
  have hall := (RegionTurns.same path reg.outputStart hsame).append (by rw [hlen]) hops
  rw [← map_append, ← map_append, slice_append bef (by omega) (by omega) (by omega),
    slice_append aft (by omega) (by omega) (by omega), nil_append] at hall
  exact hall

include hbef haft in
/-- A region is the rest and what is skipped at its end. -/
theorem Differs.skipEnd (hwithin : reg.Within bef aft)
    (h : Differs bef aft path (reg.skipEnd bef aft) run) : Differs bef aft path reg run := by
  apply h.mono
  intro ops hops
  obtain ⟨n, heq, hle, hle', hsame⟩ := reg.skipEnd_spec bef aft
  rw [heq] at hops
  dsimp only [xs, ys] at hops ⊢
  obtain ⟨⟨hb, hb'⟩, ha, ha'⟩ := hwithin
  have hsame := sem_slices hbef haft hsame
  rw [Nat.sub_add_cancel (by omega), Nat.sub_add_cancel (by omega)] at hsame
  have hall := hops.append rfl (RegionTurns.same path _ hsame)
  rw [← map_append, ← map_append, slice_append bef (by omega) (by omega) (by omega),
    slice_append aft (by omega) (by omega) (by omega), append_nil] at hall
  exact hall

section

variable (h : reg.Within bef aft)

include h

theorem Region.within_skipStart :
    (reg.skipStart bef aft).Within bef aft ∧ (reg.skipStart bef aft).size ≤ reg.size := by
  obtain ⟨n, heq, hle, hle', -⟩ := reg.skipStart_spec bef aft
  obtain ⟨⟨hb, hb'⟩, ha, ha'⟩ := h
  rw [heq]
  refine ⟨⟨⟨?_, hb'⟩, ?_, ha'⟩, ?_⟩
  all_goals
    simp only [size, beforeCount, afterCount]
    omega

theorem Region.within_skipEnd :
    (reg.skipEnd bef aft).Within bef aft ∧ (reg.skipEnd bef aft).size ≤ reg.size := by
  obtain ⟨n, heq, hle, hle', -⟩ := reg.skipEnd_spec bef aft
  obtain ⟨⟨hb, hb'⟩, ha, ha'⟩ := h
  rw [heq]
  refine ⟨⟨⟨?_, ?_⟩, ?_, ?_⟩, ?_⟩
  all_goals
    simp only [size, beforeCount, afterCount]
    omega

/-- The pairs a region is cut at increase. -/
theorem Region.increasing_pairs :
    Increasing reg.beforeEnd reg.afterEnd reg.beforeStart reg.afterStart (reg.pairs bef aft) := by
  obtain ⟨⟨hb, hb'⟩, ha, ha'⟩ := h
  have hnone : Increasing reg.beforeEnd reg.afterEnd reg.beforeStart reg.afterStart [] := ⟨hb, ha⟩
  unfold pairs
  dsimp only
  split
  · unfold positional
    split
    · rename_i hcnt
      have hpositional := increasing_positional (fun off => sameAt sameValue bef aft
        (reg.beforeStart + off) (reg.afterStart + off)) reg.beforeStart reg.afterStart 0 reg.beforeCount
      unfold beforeCount afterCount at hcnt
      rw [Nat.zero_add, Nat.add_zero, Nat.add_zero] at hpositional
      unfold beforeCount at hpositional ⊢
      rw [show reg.beforeStart + (reg.beforeEnd - reg.beforeStart) = reg.beforeEnd by omega,
        show reg.afterStart + (reg.beforeEnd - reg.beforeStart) = reg.afterEnd by omega] at hpositional
      exact hpositional
    · exact hnone
  · split
    · cases hsubsequence : identitySubsequence identical bef aft reg.beforeStart reg.beforeEnd
          reg.afterStart reg.afterEnd with
      | none => exact hnone
      | some fnd => exact increasing_identitySubsequence hb ha hsubsequence
    · split
      · exact increasing_identityAnchors hb ha
      · unfold semantic
        cases hsemantic : lcsMatches semanticallyAligned (slice bef reg.beforeStart reg.beforeEnd)
            (slice aft reg.afterStart reg.afterEnd) maxSemanticCells with
        | none => exact hnone
        | some fnd =>
          have hincr := (increasing_lcsMatches hsemantic).shift reg.beforeStart reg.afterStart
          rw [length_slice bef hb', length_slice aft ha', Nat.add_sub_cancel' hb, Nat.add_sub_cancel' ha] at hincr
          exact hincr

end

theorem isSafe_index (hpath : path.isSafe = true) : Path.isSafe (path ++ [Seg.index n]) = true := by
  unfold Path.isSafe at hpath ⊢
  rw [all_append, hpath]
  rfl

/-- What a function that differs two values at a path is for. -/
def ValueTurns (value : Revision → Revision → Path → Batch → Option Batch) (before after : List Revision) : Prop :=
  ∀ x ∈ before, ∀ y ∈ after, ∀ path : Path, path.isSafe = true → Emits (value x y path) (Turns path x.json y.json)

variable {value : Revision → Revision → Path → Batch → Option Batch}

section

variable (hval : ValueTurns value bef aft)

include hbef haft hval

section

variable (hpath : path.isSafe = true)

include hpath

theorem pair_emits
    {b a : Nat} (out : Nat) (hb : b < bef.length)
    (ha : a < aft.length) :
    Emits (fun bat => if sameAt sameValue bef aft b a then some bat
      else value (bef.getD b .null) (aft.getD a .null) (path ++ [Seg.index out]) bat)
      (RegionTurns path out ((slice bef b (b + 1)).map json) ((slice aft a (a + 1)).map json)) := by
  have hx : bef[b]? = some bef[b] := getElem?_eq_getElem hb
  have hy : aft[a]? = some aft[a] := getElem?_eq_getElem ha
  rw [slice_one hx, slice_one hy]
  by_cases hsame : sameAt sameValue bef aft b a = true
  · obtain ⟨x, y, hx', hy', hjson⟩ := sameAt_sound hbef haft hsame
    cases hx.symm.trans hx'
    cases hy.symm.trans hy'
    have hsem : ([bef[b]].map json).map sem = ([aft[a]].map json).map sem := congrArg (fun s => [s]) hjson
    apply (Emits.skip (RegionTurns.same _ _ hsem)).congr
    intro bat
    rw [if_pos hsame]
  · have helement := (hval bef[b] (getElem_mem hb) aft[a] (getElem_mem ha) (path ++ [Seg.index out])
      (isSafe_index hpath)).mono (fun ops hops => RegionTurns.element hops)
    apply helement.congr
    intro bat
    rw [if_neg hsame, getD_eq_getElem?_getD, getD_eq_getElem?_getD, hx, hy]
    rfl

variable {differ : Region → Batch → Option Batch}

theorem processArrayMatches_differs
    (hdiffer : ∀ reg : Region, reg.Within bef aft → reg.size < n → Differs bef aft path reg (differ reg))
    {pairs : List ArrayMatch} (hwithin : reg.Within bef aft) (hsize : reg.size < n ∨ pairs ≠ [] ∧ reg.size ≤ n)
    (hpairs : Increasing reg.beforeEnd reg.afterEnd reg.beforeStart reg.afterStart pairs) :
    Differs bef aft path reg (processArrayMatches value bef aft path differ reg pairs) := by
  induction pairs generalizing reg with
  | nil =>
    have hsmall : reg.size < n := by
      rcases hsize with hsmall | ⟨hne, -⟩
      · exact hsmall
      · exact absurd rfl hne
    apply (hdiffer reg hwithin hsmall).guarded.congr
    intro bat
    rw [processArrayMatches]
  | cons pair rest ih =>
    obtain ⟨b, a⟩ := pair
    obtain ⟨hbs, hbe, has, hae, hrest⟩ := hpairs
    obtain ⟨⟨hb, hb'⟩, ha, ha'⟩ := hwithin
    have hle : reg.size ≤ n := hsize.elim Nat.le_of_lt (fun h => h.2)
    unfold size beforeCount afterCount at hle
    have hfst := hdiffer { reg with beforeEnd := b, afterEnd := a } ⟨⟨hbs, by dsimp only; omega⟩, has, by dsimp only; omega⟩
      (by simp only [size, beforeCount, afterCount]; omega)
    have hpair := pair_emits hbef haft hval hpath (b := b) (a := a) (reg.outputStart + (a - reg.afterStart))
      (by omega) (by omega)
    have hwithin' : Within bef aft { reg with
        beforeStart := b + 1, afterStart := a + 1, outputStart := reg.outputStart + (a - reg.afterStart) + 1 } :=
      ⟨⟨hbe, hb'⟩, hae, ha'⟩
    have hlast := ih hwithin' (Or.inl (by simp only [size, beforeCount, afterCount]; omega)) hrest
    have htail := hpair.bind hlast
      (R := RegionTurns path (reg.outputStart + (a - reg.afterStart)) ((slice bef b reg.beforeEnd).map json)
        ((slice aft a reg.afterEnd).map json)) (by
        intro ops ops' hops hops'
        have hone : ((slice aft a (a + 1)).map json).length = 1 := by
          rw [length_map, length_slice aft (by omega)]
          omega
        have hboth := hops.append (by rw [hone]) hops'
        dsimp only [xs, ys] at hboth
        rw [← map_append, ← map_append, slice_append bef (by omega) (by omega) (by omega),
          slice_append aft (by omega) (by omega) (by omega)] at hboth
        exact hboth)
    have hall := hfst.bind htail
      (R := RegionTurns path reg.outputStart (reg.xs bef) (reg.ys aft)) (by
        intro ops ops' hops hops'
        have hlen : (ys aft { reg with beforeEnd := b, afterEnd := a }).length = a - reg.afterStart := by
          unfold ys
          rw [length_map, length_slice aft (by dsimp only; omega)]
        have hboth := hops.append (by rw [hlen]) hops'
        dsimp only [xs, ys] at hboth
        rw [← map_append, ← map_append, slice_append bef (by omega) (by omega) (by omega),
          slice_append aft (by omega) (by omega) (by omega)] at hboth
        exact hboth)
    apply hall.guarded.congr
    intro bat
    rw [processArrayMatches]

/-- The body of `diffArrayRegion`, of a region whose ends differ. -/
theorem cut_differs
    (hdiffer : ∀ reg : Region, reg.Within bef aft → reg.size < n → Differs bef aft path reg (differ reg))
    (hwithin : reg.Within bef aft) (hsize : reg.size ≤ n) : Differs bef aft path reg (fun bat =>
      let splice : Op := .p path reg.outputStart reg.beforeCount ((slice aft reg.afterStart reg.afterEnd).map json)
      if reg.beforeCount = 0 ∧ reg.afterCount = 0 then some bat
      else if reg.beforeCount = 0 ∨ reg.afterCount = 0 then some (bat.emit splice)
      else if !(reg.pairs bef aft).isEmpty then
        processArrayMatches value bef aft path differ reg (reg.pairs bef aft) bat
      else if reg.beforeCount = 1 ∧ reg.afterCount = 1 then
        value (bef.getD reg.beforeStart .null) (aft.getD reg.afterStart .null)
          (path ++ [Seg.index reg.outputStart]) bat else some (bat.emit splice)) := by
  have hxs : (reg.xs bef).length = reg.beforeCount := by
    unfold xs
    rw [length_map, length_slice bef hwithin.before.2]
    rfl
  have hsplice : Differs bef aft path reg (fun bat =>
      some (bat.emit (.p path reg.outputStart reg.beforeCount (reg.ys aft)))) := by
    rw [← hxs]
    exact Emits.emit (RegionTurns.splice hpath)
  by_cases hnone : reg.beforeCount = 0 ∧ reg.afterCount = 0
  · simp only [if_pos hnone]
    apply Emits.skip
    have hb : reg.beforeEnd = reg.beforeStart := by
      have := hwithin.before.1
      have := hnone.1
      unfold beforeCount at this
      omega
    have ha : reg.afterEnd = reg.afterStart := by
      have := hwithin.after.1
      have := hnone.2
      unfold afterCount at this
      omega
    unfold xs ys
    rw [hb, ha, slice_self, slice_self]
    exact RegionTurns.same _ _ rfl
  simp only [if_neg hnone]
  by_cases hone : reg.beforeCount = 0 ∨ reg.afterCount = 0
  · simp only [if_pos hone]
    exact hsplice
  simp only [if_neg hone]
  by_cases hpairs : (!(reg.pairs bef aft).isEmpty) = true
  · simp only [if_pos hpairs]
    have hne : reg.pairs bef aft ≠ [] := by
      intro heq
      rw [heq] at hpairs
      exact nomatch hpairs
    exact processArrayMatches_differs hbef haft hval hpath hdiffer hwithin (Or.inr ⟨hne, hsize⟩)
      (increasing_pairs hwithin)
  simp only [if_neg hpairs]
  by_cases hsingle : reg.beforeCount = 1 ∧ reg.afterCount = 1
  · simp only [if_pos hsingle]
    obtain ⟨⟨hb, hb'⟩, ha, ha'⟩ := hwithin
    unfold beforeCount afterCount at hsingle
    have hx : bef[reg.beforeStart]? = some bef[reg.beforeStart] := getElem?_eq_getElem (by omega)
    have hy : aft[reg.afterStart]? = some aft[reg.afterStart] := getElem?_eq_getElem (by omega)
    unfold Differs xs ys
    rw [show reg.beforeEnd = reg.beforeStart + 1 by omega, show reg.afterEnd = reg.afterStart + 1 by omega,
      slice_one hx, slice_one hy]
    simp only [getD_eq_getElem?_getD, hx, hy, Option.getD_some]
    exact (hval _ (getElem_mem _) _ (getElem_mem _) _ (isSafe_index hpath)).mono
      (fun ops hops => RegionTurns.element hops)
  · simp only [if_neg hsingle]
    exact hsplice

/-- **The diff of a region**: with more fuel than elements it returns, and turns the region. -/
theorem diffArrayRegion_differs
    {fuel : Nat}
    (hwithin : reg.Within bef aft) (hsize : reg.size < fuel) :
    Differs bef aft path reg (diffArrayRegion value bef aft path fuel reg) := by
  induction fuel generalizing reg with
  | zero => exact absurd hsize (Nat.not_lt_zero _)
  | succ fuel ih =>
    obtain ⟨hwithin', hsize'⟩ := within_skipStart hwithin
    obtain ⟨hwithin'', hsize''⟩ := within_skipEnd hwithin'
    have hcut := cut_differs hbef haft hval hpath (n := fuel) (fun reg h h' => ih h h') hwithin'' (by omega)
    have hends := (hcut.skipEnd hbef haft hwithin').skipStart hbef haft hwithin
    apply hends.guarded.congr
    intro bat
    rw [diffArrayRegion]

end

end

theorem RegionTurns.turns {xs ys : List Json} {ops : List Op} (h : RegionTurns path 0 xs ys ops) : Turns path (.arr xs) (.arr ys) ops := by
  obtain ⟨hvald, hrepl, bel, rfl, hbel⟩ := h
  obtain ⟨mid, hmid, hsame⟩ := hbel [] [] rfl
  simp only [nil_append, append_nil] at hmid
  refine ⟨hvald, ?_, bel, .arr mid, rfl, hmid, ?_⟩
  · intro op hop htrue
    rw [hrepl op hop] at htrue
    exact nomatch htrue
  · unfold Same
    rw [sem_arr, sem_arr, hsame]

include hbef haft in
theorem permutation_turns (hpath : path.isSafe = true) {order : List Nat} (h : permutation identical bef aft = some order) :
    Turns path (.arr (bef.map json)) (.arr (aft.map json)) [.m path order] := by
  have hlives : ∀ x ∈ bef ++ aft, Lives heap x := forall_mem_append.mpr ⟨hbef, haft⟩
  obtain ⟨hlen, hnd, hlt, hrearranged⟩ := permutation_spec h (fun x hx y hy => identical_iff (hlives x hx) (hlives y hy))
  refine ⟨?_, ?_, [.m [] order], .arr (aft.map json), by simp [Op.under], ?_, rfl⟩
  · intro op hop
    obtain rfl := mem_singleton.mp hop
    have hperm : isPermutation order = true := by
      unfold isPermutation
      rw [Bool.and_eq_true, all_eq_true]
      exact ⟨fun k hk => decide_eq_true (by rw [hlen]; exact hlt k hk), decide_eq_true hnd⟩
    simp only [Op.isValid, hpath, hperm, Bool.and_self]
  · intro op hop hrepl
    obtain rfl := mem_singleton.mp hop
    simp [Op.isReplace] at hrepl
  · have hjson : order.filterMap (fun k => bef[k]?.map json) = aft.map json := by
      rw [← hrearranged, map_filterMap]
    simp [effects, Op.effect, descend, Op.reorder, hlen, hjson]

include hbef haft in
/-- A permutation, or the diff of the whole region. -/
theorem diffArray_emits (hval : ValueTurns value bef aft) (hpath : path.isSafe = true) :
    Emits (diffArray value bef aft path) (Turns path (.arr (bef.map json)) (.arr (aft.map json))) := by
  have hwithin : Within bef aft ⟨0, bef.length, 0, aft.length, 0⟩ := ⟨⟨Nat.zero_le _, le_refl _⟩, Nat.zero_le _, le_refl _⟩
  have hsize : size ⟨0, bef.length, 0, aft.length, 0⟩ < bef.length + aft.length + 1 := by
    simp [size, beforeCount, afterCount]
  have hregion := (diffArrayRegion_differs hbef haft hval hpath hwithin hsize).mono
    (fun ops hops => RegionTurns.turns hops)
  unfold xs ys at hregion
  rw [slice_all, slice_all] at hregion
  unfold diffArray
  dsimp only
  split
  · rename_i order hordr
    split at hordr
    · exact Emits.emit (permutation_turns hbef haft hpath hordr)
    · exact nomatch hordr
  · exact hregion

end Arrays

/-! ## Objects -/

section Objects

variable {path : Path}

/-- Valid operations below `path` that give the object there the properties of `after` for `keys`, where it has
    those of `before`, and leave the others. -/
def PropertiesTurn (path : Path) (keys : List Text) (before after : List (Text × Json)) (ops : List Op) : Prop :=
  (∀ op ∈ ops, op.isValid = true) ∧ (∀ op ∈ ops, op.isReplace = false) ∧
    ∃ below, ops = below.map (Op.under path) ∧ ∀ m : List (Text × Json), (∀ k ∈ keys, Assoc.get? m k = Assoc.get? before k) →
        ∃ m', effects (.obj m) below = some (.obj m') ∧
          (∀ k ∈ keys, (Assoc.get? m' k).map sem = (Assoc.get? after k).map sem) ∧
          ∀ k, k ∉ keys → Assoc.get? m' k = Assoc.get? m k

namespace PropertiesTurn

variable {before after : List (Text × Json)} {keys keys' : List Text} {ops ops' : List Op}

theorem nil : PropertiesTurn path [] before after [] := ⟨nofun, nofun, [], rfl, fun m _ => ⟨m, rfl, nofun, fun _ _ => rfl⟩⟩

theorem append (h : PropertiesTurn path keys before after ops) (h' : PropertiesTurn path keys' before after ops')
    (hdisj : ∀ k ∈ keys, k ∉ keys') : PropertiesTurn path (keys ++ keys') before after (ops ++ ops') := by
  obtain ⟨hvald, hrepl, bel, rfl, hbel⟩ := h
  obtain ⟨hvald', hrepl', bel', rfl, hbel'⟩ := h'
  refine ⟨forall_mem_append.mpr ⟨hvald, hvald'⟩, forall_mem_append.mpr ⟨hrepl, hrepl'⟩, bel ++ bel', by rw [map_append], ?_⟩
  · intro m hm
    obtain ⟨m₁, hm₁, hkeys, hothers⟩ := hbel m (fun k hk => hm k (mem_append_left _ hk))
    obtain ⟨m₂, hm₂, hkeys', hothers'⟩ := hbel' m₁ (by
      intro k hk
      have hnot : k ∉ keys := fun hmem => hdisj k hmem hk
      rw [hothers k hnot]
      exact hm k (mem_append_right _ hk))
    refine ⟨m₂, by rw [effects_append hm₁]; exact hm₂, ?_, ?_⟩
    · intro k hk
      by_cases hk' : k ∈ keys'
      · exact hkeys' k hk'
      · rw [hothers' k hk']
        exact hkeys k ((mem_append.mp hk).resolve_right hk')
    · intro k hk
      rw [mem_append, not_or] at hk
      rw [hothers' k hk.2, hothers k hk.1]

/-- One property, changed in place. -/
theorem property {key : Text} {x y : Json} (h : Turns (path ++ [Seg.key key]) x y ops)
    (hbef : Assoc.get? before key = some x) (haft : Assoc.get? after key = some y) :
    PropertiesTurn path [key] before after ops := by
  obtain ⟨hvald, -, bel, v, rfl, hbel, hsame⟩ := h
  refine ⟨hvald, ?_, bel.map (Op.under [.key key]), ?_, ?_⟩
  · intro op hop
    obtain ⟨op', -, rfl⟩ := mem_map.mp hop
    exact Op.isReplace_under (by simp) op'
  · rw [map_map]
    congr 1
    funext op
    exact (Op.under_under path (.key key) op).symm
  · intro m hm
    have hch : (Json.obj m).child? (.key key) = some x := (hm key (by simp)).trans hbef
    have hsuit : (Json.obj m).suits (.key key) = true := rfl
    refine ⟨set m key v, effects_under hsuit hch hbel, ?_, ?_⟩
    · intro k hk
      obtain rfl := mem_singleton.mp hk
      have hsem : v.sem = y.sem := hsame
      rw [get?_set_self, haft, Option.map_some, Option.map_some, hsem]
    · intro k hk
      exact get?_set_ne m v (fun heq => hk (by simp [heq]))

theorem added (before : List (Text × Json)) {key : Text} {y : Json} (hpath : Path.isSafe (path ++ [Seg.key key]) = true)
    (haft : Assoc.get? after key = some y) : PropertiesTurn path [key] before after [.s (path ++ [Seg.key key]) y] := by
  refine ⟨?_, ?_, [.s [.key key] y], by simp [Op.under], ?_⟩
  · intro op hop
    obtain rfl := mem_singleton.mp hop
    simp [Op.isValid, hpath]
  · intro op hop
    obtain rfl := mem_singleton.mp hop
    rfl
  · intro m _
    refine ⟨set m key y, by simp [effects, Op.effect, descend, Op.assign, suits, Seg.name], ?_, ?_⟩
    · intro k hk
      obtain rfl := mem_singleton.mp hk
      rw [get?_set_self, haft]
    · intro k hk
      exact get?_set_ne m y (fun heq => hk (by simp [heq]))

end PropertiesTurn

variable {heap : Nat → Revision} {bef aft : List (Text × Revision)}
  {value : Revision → Revision → Path → Batch → Option Batch}

theorem isSafe_key {key : Text} (hpath : path.isSafe = true) (hkey : reservedSegments.contains key = false) :
    Path.isSafe (path ++ [Seg.key key]) = true := by
  unfold Path.isSafe at hpath ⊢
  rw [all_append, hpath, all_cons, all_nil, Seg.isSafe, hkey]
  rfl

theorem diffProperties_emits
    (hval : ∀ key x y, Assoc.get? bef key = some x → Assoc.get? aft key = some y → ∀ path : Path,
      path.isSafe = true → Emits (value x y path) (Turns path x.json y.json))
    (hpath : path.isSafe = true) {rest : List (Text × Revision)}
    (hkeys : (rest.map Prod.fst).Nodup) (hrest : ∀ p ∈ rest, Assoc.get? aft p.1 = some p.2)
    (hsafe : ∀ p ∈ rest, reservedSegments.contains p.1 = false) :
    Emits (diffProperties value bef path rest)
      (PropertiesTurn path (rest.map Prod.fst) (jsonObj bef) (jsonObj aft)) := by
  induction rest with
  | nil =>
    apply (Emits.skip PropertiesTurn.nil).congr
    intro bat
    rw [diffProperties]
  | cons p rest ih =>
    obtain ⟨key, right⟩ := p
    rw [map_cons, nodup_cons] at hkeys
    have hright : get? aft key = some right := hrest (key, right) (by simp)
    have haft : get? (jsonObj aft) key = some right.json := by rw [get?_jsonObj, hright]; rfl
    have hkey := isSafe_key hpath (hsafe (key, right) (by simp))
    have hlast := ih hkeys.2 (fun p hp => hrest p (by simp [hp])) (fun p hp => hsafe p (by simp [hp]))
    have hdisj : ∀ k ∈ [key], k ∉ rest.map Prod.fst := by
      intro k hk
      rw [mem_singleton.mp hk]
      exact hkeys.1
    cases hleft : get? bef key with
    | some left =>
      have hbef : get? (jsonObj bef) key = some left.json := by rw [get?_jsonObj, hleft]; rfl
      have hfst := (hval key left right hleft hright _ hkey).mono
        (fun ops hops => PropertiesTurn.property hops hbef haft)
      have hboth := hfst.bind hlast (fun ops ops' hops hops' => hops.append hops' hdisj)
      apply hboth.guarded.congr
      intro bat
      simp only [diffProperties, hleft]
    | none =>
      have hfst := Emits.emit (PropertiesTurn.added (jsonObj bef) hkey haft)
      have hboth := hfst.bind hlast (fun ops ops' hops hops' => hops.append hops' hdisj)
      apply hboth.guarded.congr
      intro bat
      simp [diffProperties, hleft, Batch.emitSet]

/-- Valid operations below `path` that remove the properties of the object there that are in `keys` and not in
    `after`. -/
def PropertiesGo (path : Path) (keys : List Text) (after : List (Text × Revision)) (ops : List Op) : Prop :=
  (∀ op ∈ ops, op.isValid = true) ∧ (∀ op ∈ ops, op.isReplace = false) ∧
    ∃ below, ops = below.map (Op.under path) ∧ ∀ m : List (Text × Json), ∃ m', effects (.obj m) below = some (.obj m') ∧
        ∀ k, Assoc.get? m' k = if k ∈ keys ∧ Assoc.get? after k = none then none else Assoc.get? m k

theorem PropertiesGo.nil : PropertiesGo path [] aft [] := ⟨nofun, nofun, [], rfl, fun m => ⟨m, rfl, fun _ => by simp⟩⟩

theorem PropertiesGo.append {keys keys' : List Text} {ops ops' : List Op} (h : PropertiesGo path keys aft ops)
    (h' : PropertiesGo path keys' aft ops') : PropertiesGo path (keys ++ keys') aft (ops ++ ops') := by
  obtain ⟨hvald, hrepl, bel, rfl, hbel⟩ := h
  obtain ⟨hvald', hrepl', bel', rfl, hbel'⟩ := h'
  refine ⟨forall_mem_append.mpr ⟨hvald, hvald'⟩, forall_mem_append.mpr ⟨hrepl, hrepl'⟩, bel ++ bel', by rw [map_append], ?_⟩
  · intro m
    obtain ⟨m₁, hm₁, hget⟩ := hbel m
    obtain ⟨m₂, hm₂, hget'⟩ := hbel' m₁
    refine ⟨m₂, by rw [effects_append hm₁]; exact hm₂, ?_⟩
    intro k
    rw [hget' k, hget k]
    by_cases hk : k ∈ keys <;> by_cases hk' : k ∈ keys' <;> by_cases hnone : get? aft k = none <;>
      simp [hk, hk', hnone]

theorem deleteProperties_emits (aft : List (Text × Revision)) (hpath : path.isSafe = true) {rest : List (Text × Revision)}
    (hsafe : ∀ p ∈ rest, reservedSegments.contains p.1 = false) :
    Emits (fun bat => some (deleteProperties aft path rest bat)) (PropertiesGo path (rest.map Prod.fst) aft) := by
  induction rest with
  | nil => exact Emits.skip PropertiesGo.nil
  | cons p rest ih =>
    obtain ⟨key, left⟩ := p
    have hkey := isSafe_key hpath (hsafe (key, left) (by simp))
    have hfst : Emits (fun bat =>
        some (if (get? aft key).isSome then bat else bat.emit (.d (path ++ [Seg.key key]))))
        (PropertiesGo path [key] aft) := by
      cases hright : get? aft key with
      | some right =>
        apply Emits.skip
        refine ⟨nofun, nofun, [], rfl, fun m => ⟨m, rfl, ?_⟩⟩
        intro k
        have hnot : ¬(k ∈ [key] ∧ get? aft k = none) := by
          rintro ⟨hk, hnone⟩
          rw [mem_singleton.mp hk, hright] at hnone
          exact nomatch hnone
        rw [if_neg hnot]
      | none =>
        apply Emits.emit
        refine ⟨?_, ?_, [.d [.key key]], by simp [Op.under], ?_⟩
        · intro op hop
          obtain rfl := mem_singleton.mp hop
          simp [Op.isValid, hkey]
        · intro op hop
          obtain rfl := mem_singleton.mp hop
          rfl
        · intro m
          refine ⟨erase m key, by simp [effects, Op.effect, descend, Op.delete, Seg.name], ?_⟩
          intro k
          by_cases hk : key = k
          · subst hk
            simp [hright]
          · rw [get?_erase_ne m hk]
            simp [Ne.symm hk]
    have hlast := ih (fun p hp => hsafe p (by simp [hp]))
    have hboth := hfst.bind hlast (R := PropertiesGo path (key :: rest.map Prod.fst) aft)
      (fun ops ops' hops hops' => hops.append hops')
    apply hboth.guarded.congr
    intro bat
    rw [deleteProperties]
    split <;> rfl

/-- The properties that are set and those that are removed make the object the later one. -/
theorem object_turns {bef aft : List (Text × Json)} {afterKeys beforeKeys : List Text}
    {ops : List Op} (haft : ∀ k, k ∈ afterKeys ↔ Assoc.get? aft k ≠ none)
    (hbef : ∀ k, k ∈ beforeKeys ↔ Assoc.get? bef k ≠ none)
    (hvald : ∀ op ∈ ops, op.isValid = true) (hrepl : ∀ op ∈ ops, op.isReplace = false)
    (bel : List Op) (hbel : ops = bel.map (Op.under path)) {m₁ m₂ : List (Text × Json)}
    (heffects : effects (.obj bef) bel = some (.obj m₂))
    (hset : ∀ k ∈ afterKeys, (Assoc.get? m₁ k).map sem = (Assoc.get? aft k).map sem)
    (hkept : ∀ k, k ∉ afterKeys → Assoc.get? m₁ k = Assoc.get? bef k)
    (hgone : ∀ k, Assoc.get? m₂ k = if k ∈ beforeKeys ∧ Assoc.get? aft k = none then none else Assoc.get? m₁ k) :
    Turns path (.obj bef) (.obj aft) ops := by
  refine ⟨hvald, ?_, bel, .obj m₂, hbel, heffects, ?_⟩
  · intro op hop htrue
    rw [hrepl op hop] at htrue
    exact nomatch htrue
  · apply same_obj
    intro k
    rw [hgone k]
    by_cases hk : k ∈ afterKeys
    · rw [if_neg (fun h => (haft k).mp hk h.2)]
      exact hset k hk
    · have hnone : get? aft k = none := Classical.not_not.mp (fun h => hk ((haft k).mpr h))
      by_cases hk' : k ∈ beforeKeys
      · rw [if_pos ⟨hk', hnone⟩, hnone]
      · have habs : get? bef k = none := Classical.not_not.mp (fun h => hk' ((hbef k).mpr h))
        rw [if_neg (fun h => hk' h.1), hkept k hk, habs, hnone]

theorem mem_keys_iff (m : List (Text × Revision)) (k : Text) : k ∈ m.map Prod.fst ↔ Assoc.get? (jsonObj m) k ≠ none := by
  rw [get?_jsonObj, Ne, Option.map_eq_none_iff, get?_eq_none_iff, Classical.not_not]

/-- Keys that a path may not name are replaced with the object. -/
theorem diffObject_emits (hkeys : (aft.map Prod.fst).Nodup) {same : Bool}
    (hsame : same = true → Same (.obj (jsonObj bef)) (.obj (jsonObj aft)))
    (hval : ∀ key x y, Assoc.get? bef key = some x → Assoc.get? aft key = some y → ∀ path : Path,
      path.isSafe = true → Emits (value x y path) (Turns path x.json y.json))
    (hpath : path.isSafe = true) :
    Emits (diffObject value bef aft path same) (Turns path (.obj (jsonObj bef)) (.obj (jsonObj aft))) := by
  by_cases hresv : ((bef ++ aft).any fun property => reservedSegments.contains property.1) = true
  · have hcase : Emits (fun bat => some (if same then bat else bat.emitSet path (.obj (jsonObj aft))))
        (Turns path (.obj (jsonObj bef)) (.obj (jsonObj aft))) := by
      cases same with
      | true => exact Emits.skip (Turns.same (hsame rfl))
      | false => exact Emits.emit (Turns.set hpath _ _)
    apply hcase.congr
    intro bat
    unfold diffObject
    rw [if_pos hresv]
  · have hsafe : ∀ p ∈ bef ++ aft, reservedSegments.contains p.1 = false := by
      intro p hp
      apply Bool.eq_false_iff.mpr
      intro htrue
      exact hresv (any_eq_true.mpr ⟨p, hp, htrue⟩)
    have hset := diffProperties_emits hval hpath hkeys
      (fun p hp => get?_of_mem hkeys hp) (fun p hp => hsafe p (mem_append_right _ hp))
    have hgo := deleteProperties_emits aft hpath
      (fun p hp => hsafe p (mem_append_left _ hp))
    have hboth := hset.bind hgo (R := Turns path (.obj (jsonObj bef)) (.obj (jsonObj aft))) (by
      rintro ops ops' ⟨hvald, hrepl, bel, rfl, hbel⟩ ⟨hvald', hrepl', bel', rfl, hbel'⟩
      obtain ⟨m₁, hm₁, hkeys₁, hothers₁⟩ := hbel (jsonObj bef) (fun _ _ => rfl)
      obtain ⟨m₂, hm₂, hget₂⟩ := hbel' m₁
      apply object_turns (mem_keys_iff aft) (mem_keys_iff bef) _ _ (bel ++ bel') (by rw [map_append])
        (by rw [effects_append hm₁]; exact hm₂) hkeys₁ hothers₁
      · intro k
        simp only [hget₂ k, get?_jsonObj, Option.map_eq_none_iff]
      · exact forall_mem_append.mpr ⟨hvald, hvald'⟩
      · exact forall_mem_append.mpr ⟨hrepl, hrepl'⟩)
    apply hboth.congr
    intro bat
    unfold diffObject
    rw [if_neg hresv]
    cases diffProperties value bef path aft bat <;> rfl

end Objects

/-! ## Values and revisions -/

section Values

variable {heap : Nat → Revision} {before after : Revision}

theorem emitSet_emits {path : Path} (hpath : path.isSafe = true) (x y : Json) :
    Emits (fun bat => some (bat.emitSet path y)) (Turns path x y) :=
  Emits.emit (Turns.set hpath x y)

/-- Identical values, and a batch that overflowed, are passed over. -/
theorem Emits.unless {P : List Op → Prop} {same : Bool} (hsame : same = true → P []) (hdiffer : same = false → Emits run P) :
    Emits (fun bat => if same || bat.overflowed then some bat else run bat) P := by
  cases same with
  | true => exact Emits.skip (hsame rfl)
  | false => exact (hdiffer rfl).guarded

/-- The diff of two values, by their depth. -/
theorem diffValue_emits {fuel : Nat} (hfuel : before.depth < fuel) (hbef : Lives heap before)
    (haft : Lives heap after) {path : Path} (hpath : path.isSafe = true) :
    Emits (diffValue fuel before after path) (Turns path before.json after.json) := by
  induction fuel generalizing before after path with
  | zero => exact absurd hfuel (Nat.not_lt_zero _)
  | succ fuel ih =>
    have hident : identical before after = true → Turns path before.json after.json [] := by
      intro h
      rw [identical_eq hbef haft h]
      exact Turns.same rfl
    have hset := emitSet_emits hpath before.json after.json
    have hequal : equalJson before after = true → Turns path before.json after.json [] := fun h => Turns.same (equalJson_sound hbef haft h)
    cases hbef with
    | @str s =>
      cases haft with
      | @str s' =>
        have hstring : Emits (fun bat =>
            some (if path.isEmpty then bat.emitSet path (.str s') else emitString s s' path bat))
            (Turns path (.str s) (.str s')) := by
          cases hpathempty : path.isEmpty with
          | true => exact hset
          | false => exact emitString_emits hpath (by simpa using hpathempty) s s'
        apply (Emits.unless hident fun _ => hstring).congr
        intro bat
        rfl
      | _ =>
        apply (Emits.unless hident fun _ => hset).congr
        intro bat
        rfl
    | @arr ref xs href hxs =>
      cases haft with
      | @arr ref' ys href' hys =>
        have hval : ValueTurns (diffValue fuel) xs ys := by
          intro x hx y hy path hpath
          have hdepth : x.depth < fuel := Nat.lt_of_lt_of_le (depth_lt_arr hx) (Nat.le_of_lt_succ hfuel)
          exact ih hdepth (hxs x hx) (hys y hy) hpath
        have harray : Emits (fun bat => if equalJson (.arr ref xs) (.arr ref' ys) then some bat
            else diffArray (diffValue fuel) xs ys path bat)
            (Turns path (Revision.arr ref xs).json (Revision.arr ref' ys).json) := by
          cases h : equalJson (.arr ref xs) (.arr ref' ys) with
          | true => exact Emits.skip (hequal h)
          | false =>
            rw [json_arr, json_arr]
            exact diffArray_emits hxs hys hval hpath
        apply (Emits.unless hident fun _ => harray).congr
        intro bat
        rfl
      | _ =>
        apply (Emits.unless hident fun _ => hset).congr
        intro bat
        rfl
    | @obj ref m href hkeys hm =>
      cases haft with
      | @obj ref' m' href' hkeys' hm' =>
        have hval : ∀ key x y, get? m key = some x → get? m' key = some y → ∀ path : Path,
            path.isSafe = true → Emits (diffValue fuel x y path) (Turns path x.json y.json) := by
          intro key x y hx hy path hpath
          have hdepth : x.depth < fuel := Nat.lt_of_lt_of_le (depth_lt_obj hx) (Nat.le_of_lt_succ hfuel)
          exact ih hdepth (hm (key, x) (mem_of_get? hx)) (hm' (key, y) (mem_of_get? hy)) hpath
        have hobject : Emits (diffObject (diffValue fuel) m m' path (equalJson (.obj ref m) (.obj ref' m')))
            (Turns path (Revision.obj ref m).json (Revision.obj ref' m').json) := by
          apply diffObject_emits hkeys' _ hval hpath
          intro h
          have hsame := equalJson_sound (.obj href hkeys hm) (.obj href' hkeys' hm') h
          rwa [json_obj, json_obj] at hsame
        apply (Emits.unless hident fun _ => hobject).congr
        intro bat
        rfl
      | _ =>
        apply (Emits.unless hident fun _ => hset).congr
        intro bat
        rfl
    | _ =>
      apply (Emits.unless hident fun _ => hset).congr
      intro bat
      rfl

/-- What a batch for two revisions is. -/
def Exact (x y : Json) (ops : List Op) : Prop :=
  (∀ op ∈ ops, op.isValid = true) ∧ (∃ v, applyImmutable x ops = some v ∧ Same v y) ∧ (ops = [] → Same x y) ∧
    ∀ op ∈ ops, op.isReplace = true → ops = [op]

theorem Turns.exact {x y : Json} {ops : List Op} (h : Turns [] x y ops) : Exact x y ops := by
  obtain ⟨hvald, hrepl, bel, v, rfl, heffects, hsame⟩ := h
  have hunder : bel.map (Op.under []) = bel := by
    rw [show Op.under [] = id from funext Op.under_nil, map_id]
  rw [hunder] at hvald hrepl ⊢
  refine ⟨hvald, ⟨v, ?_, hsame⟩, ?_, hrepl⟩
  · apply applyImmutable_of_applyTyped
    rw [applyTyped_of_effects hvald]
    exact heffects
  · rintro rfl
    cases heffects
    exact hsame

/-- The whole value, for a batch that overflowed or costs too much. -/
theorem replace_exact (x y : Json) : Exact x y [.r y] :=
  have hemp : Path.isSafe [] = true := rfl
  (Turns.set hemp x y).exact

theorem diffRevisions_turns (numberLength : Rat → Nat) (hbefore : Lives heap before) (hafter : Lives heap after) :
    ∃ ops, diffRevisions numberLength before after = some ops ∧ Exact before.json after.json ops := by
  have hempty : Path.isSafe [] = true := rfl
  obtain ⟨batch, hrun, hbatch⟩ := diffValue_emits (Nat.lt_succ_self before.depth) hbefore hafter hempty Batch.start
  unfold diffRevisions
  rw [hrun, Option.map_some]
  refine ⟨_, rfl, ?_⟩
  split
  · exact replace_exact _ _
  · rename_i hopen
    have hturns : Exact before.json after.json batch.operations := by
      obtain hover | ⟨-, ops, hops, hturns⟩ := hbatch
      · exact absurd hover hopen
      · rw [hops]
        exact hturns.exact
    split
    · exact hturns
    · dsimp only
      split
      · exact hturns
      · split
        · exact replace_exact _ _
        · exact hturns

/-- The batch for two revisions turns the one into the other. -/
theorem diffRevisions_exact (numberLength : Rat → Nat) (hbefore : Lives heap before) (hafter : Lives heap after) :
    ∃ ops, diffRevisions numberLength before after = some ops ∧ (∀ op ∈ ops, op.isValid = true) ∧
      (∃ v, applyImmutable before.json ops = some v ∧ Same v after.json) ∧
      (ops = [] → Same before.json after.json) ∧ ∀ op ∈ ops, op.isReplace = true → ops = [op] :=
  diffRevisions_turns numberLength hbefore hafter

/-- Two revisions that share their first element. -/
theorem diffRevisions_exact_example :
    diffRevisions (fun _ => 1) (.arr 1 [.obj 0 [(text "__proto__", .null)], .num 2, .str (text "ab")])
        (.arr 2 [.obj 0 [(text "__proto__", .null)], .str (text "abc")]) =
      some [.p [] 1 2 [.str (text "abc")]] ∧
    ∃ v, applyImmutable (.arr [.obj [(text "__proto__", .null)], .num 2, .str (text "ab")])
        [.p [] 1 2 [.str (text "abc")]] = some v ∧
      Same v (.arr [.obj [(text "__proto__", .null)], .str (text "abc")]) := by
  let shared : Revision := .obj 0 [(text "__proto__", .null)]
  let before : Revision := .arr 1 [shared, .num 2, .str (text "ab")]
  let after : Revision := .arr 2 [shared, .str (text "abc")]
  let heap : Nat → Revision := fun ref => if ref = 0 then shared else if ref = 1 then before else after
  have hshared : Lives heap shared := .obj rfl (by simp) (by simp [Lives.null])
  have hbefore : Lives heap before := .arr rfl (by simp [hshared, Lives.num, Lives.str])
  have hafter : Lives heap after := .arr rfl (by simp [hshared, Lives.str])
  have hrun : diffRevisions (fun _ => 1) before after = some [.p [] 1 2 [.str (text "abc")]] := by decide
  obtain ⟨ops, hops, -, happly, -⟩ := diffRevisions_exact (fun _ => 1) hbefore hafter
  rw [hrun] at hops
  cases hops
  exact ⟨hrun, happly⟩

end Values

end PiBridge.Chord
