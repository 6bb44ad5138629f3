import PiBridge.Chord.Link.Payload

/-!
# `Chord.Correctness.Payloads` — a payload comes back as it was

Writing a value puts its leaves into the segments in the order of its references, so reading finds each leaf at its own place
(`resolve_replaced`). It fails exactly on a value with the reserved key (`replaced_error_iff`), and no value that was read has
it (`resolve_unreserved`).
-/

namespace PiBridge.Chord.Link

open Lib List Option Assoc

variable {numbers : Numbers}

/-! ## The values -/

/-- Some object has the reserved key. -/
inductive HasReserved : LinkValue → Prop
  | key {m : List (Text × LinkValue)} : Assoc.get? m bytesKey ≠ none → HasReserved (.obj m)
  | member {m : List (Text × LinkValue)} {p : Text × LinkValue} : p ∈ m → HasReserved p.2 → HasReserved (.obj m)
  | element {xs : List LinkValue} {x : LinkValue} : x ∈ xs → HasReserved x → HasReserved (.arr xs)

/-- The order in which an object has its keys: integer keys ascend, and the others follow. -/
def KeyOrder (keys : List Text) : Prop := ∃ indices names, keys = indices ++ names ∧ (∀ key ∈ indices, (arrayIndex? key).isSome = true) ∧
    (indices.Pairwise fun a b => (arrayIndex? a).getD 0 ≤ (arrayIndex? b).getD 0) ∧ ∀ key ∈ names, (arrayIndex? key).isNone = true

/-- A value as the language can hold it: its numbers are read back, and its objects have distinct keys in order. -/
inductive Holdable (numbers : Numbers) : LinkValue → Prop
  | null : Holdable numbers .null
  | bool {b : Bool} : Holdable numbers (.bool b)
  | num {q : Rat} (h : numbers.Writes q) : Holdable numbers (.num q)
  | str {s : Text} : Holdable numbers (.str s)
  | bytes {leaf : List UInt8} : Holdable numbers (.bytes leaf)
  | arr {xs : List LinkValue} (h : ∀ x ∈ xs, Holdable numbers x) : Holdable numbers (.arr xs)
  | obj {m : List (Text × LinkValue)} (hkeys : (m.map Prod.fst).Nodup) (horder : KeyOrder (m.map Prod.fst))
      (h : ∀ p ∈ m, Holdable numbers p.2) : Holdable numbers (.obj m)

/-- The number of byte leaves. -/
def leaves : LinkValue → Nat
  | .null | .bool _ | .num _ | .str _ => 0
  | .bytes _ => 1
  | .arr xs => elements xs
  | .obj m => members m
where
  elements : List LinkValue → Nat
    | [] => 0
    | x :: xs => leaves x + elements xs
  members : List (Text × LinkValue) → Nat
    | [] => 0
    | (_, x) :: m => leaves x + members m

attribute [local simp] replaced replaced.elements replaced.members resolveSegments

theorem enumerate_of_keyOrder {m : List (Text × Json)} (h : KeyOrder (m.map Prod.fst)) : enumerate m = m := by
  obtain ⟨indices, names, hkeys, hindices, hsrt, hnams⟩ := h
  obtain ⟨first, rest, rfl, rfl, rfl⟩ := map_eq_append_iff.mp hkeys
  have hfst : ∀ p ∈ first, (arrayIndex? p.1).isSome = true := fun p hp => hindices _ (mem_map_of_mem hp)
  have hrest : ∀ p ∈ rest, (arrayIndex? p.1).isNone = true := fun p hp => hnams _ (mem_map_of_mem hp)
  have hsome : (first ++ rest).filter (fun p => (arrayIndex? p.1).isSome) = first := by
    rw [filter_append, filter_eq_self.mpr hfst, filter_eq_nil_iff.mpr, append_nil]
    intro p hp
    rw [isNone_iff_eq_none.mp (hrest p hp)]
    exact Bool.false_ne_true
  have hnone : (first ++ rest).filter (fun p => (arrayIndex? p.1).isNone) = rest := by
    rw [filter_append, filter_eq_self.mpr hrest, filter_eq_nil_iff.mpr, nil_append]
    intro p hp
    rw [← not_isSome, hfst p hp]
    exact Bool.false_ne_true
  rw [enumerate, hsome, hnone, mergeSort_of_pairwise]
  rw [pairwise_map] at hsrt
  exact hsrt.imp fun hle => decide_eq_true hle

theorem keyOrder_singleton (key : Text) : KeyOrder [key] := by
  cases h : arrayIndex? key with
  | none => exact ⟨[], [key], rfl, nofun, Pairwise.nil, by simp [h]⟩
  | some idx => exact ⟨[key], [], rfl, by simp [h], pairwise_singleton _ _, nofun⟩

theorem plain_reference {idx : Nat} (h : numbers.Writes idx) : Plain numbers (reference idx) := by
  refine .obj (nodup_singleton _) (enumerate_of_keyOrder (keyOrder_singleton _)) ?_
  intro p hp
  rw [mem_singleton.mp hp]
  exact .num h

/-! ## Writing -/

section

variable {segs segments' : List (List UInt8)}

theorem map_ok {α β : Type} {x : Except Text α} {f : α → β} {b : β} (h : x.map f = .ok b) : ∃ a, x = .ok a ∧ f a = b := by
  cases x with
  | error e => cases h
  | ok a => exact ⟨a, rfl, Except.ok.inj h⟩

theorem bind_ok {α β : Type} {x : Except Text α} {f : α → Except Text β} {b : β} (h : x.bind f = .ok b) : ∃ a, x = .ok a ∧ f a = .ok b := by
  cases x with
  | error e => cases h
  | ok a => exact ⟨a, rfl, h⟩

/-- What was written of a value is read as this value, whatever segments follow. -/
def Returns (value : LinkValue) : Prop := ∀ segments written, replaced value segments = .ok written →
    ∃ added, written.2 = segments ++ added ∧ added.length = leaves value ∧ ∀ later, resolveSegments (written.2 ++ later) written.1 = some value

variable {xs : List LinkValue} {m : List (Text × LinkValue)}

theorem returns_elements (h : ∀ x ∈ xs, Returns x) (segs : List (List UInt8)) (wrtn : List Json × List (List UInt8))
    (hwrt : replaced.elements xs segs = .ok wrtn) :
    ∃ added, wrtn.2 = segs ++ added ∧ added.length = leaves.elements xs ∧
      ∀ later, resolveSegments.elements (wrtn.2 ++ later) wrtn.1 = some xs := by
  induction xs generalizing segs wrtn with
  | nil =>
    cases hwrt
    exact ⟨[], (append_nil _).symm, rfl, fun _ => rfl⟩
  | cons x xs ih =>
    obtain ⟨first, hfst, hmore⟩ := bind_ok hwrt
    obtain ⟨rest, hrest, rfl⟩ := map_ok hmore
    obtain ⟨added, hadd, hcnt, hread⟩ := h x mem_cons_self segs first hfst
    obtain ⟨added', hadd', hcnt', hread'⟩ := ih (fun y hy => h y (mem_cons_of_mem _ hy)) first.2 rest hrest
    refine ⟨added ++ added', ?_, ?_, fun later => ?_⟩
    · rw [hadd', hadd, append_assoc]
    · rw [length_append, hcnt, hcnt']
      rfl
    · -- The segs of the rest follow those of the first.
      have hfst' : resolveSegments (rest.2 ++ later) first.1 = some x := by
        rw [hadd', append_assoc]
        exact hread (added' ++ later)
      rw [resolveSegments.elements, hfst', hread' later]
      rfl

theorem returns_members (h : ∀ p ∈ m, Returns p.2) (segs : List (List UInt8))
    (wrtn : List (Text × Json) × List (List UInt8)) (hwrt : replaced.members m segs = .ok wrtn) :
    wrtn.1.map Prod.fst = m.map Prod.fst ∧ ∃ added, wrtn.2 = segs ++ added ∧ added.length = leaves.members m ∧
      ∀ later, resolveSegments.members (wrtn.2 ++ later) wrtn.1 = some m := by
  induction m generalizing segs wrtn with
  | nil =>
    cases hwrt
    exact ⟨rfl, [], (append_nil _).symm, rfl, fun _ => rfl⟩
  | cons p m ih =>
    obtain ⟨key, x⟩ := p
    obtain ⟨first, hfst, hmore⟩ := bind_ok hwrt
    obtain ⟨rest, hrest, rfl⟩ := map_ok hmore
    obtain ⟨added, hadd, hcnt, hread⟩ := h (key, x) mem_cons_self segs first hfst
    obtain ⟨hkeys, added', hadd', hcnt', hread'⟩ := ih (fun q hq => h q (mem_cons_of_mem _ hq)) first.2 rest hrest
    refine ⟨?_, added ++ added', ?_, ?_, fun later => ?_⟩
    · rw [map_cons, map_cons, hkeys]
    · rw [hadd', hadd, append_assoc]
    · rw [length_append, hcnt, hcnt']
      rfl
    · have hfst' : resolveSegments (rest.2 ++ later) first.1 = some x := by
        rw [hadd', append_assoc]
        exact hread (added' ++ later)
      rw [resolveSegments.members, hfst', hread' later]
      rfl

theorem resolve_replaced (v : LinkValue) : Returns v := by
  induction v with
  | null | bool _ | num _ | str _ =>
    intro segs wrtn hwrt
    cases hwrt
    exact ⟨[], (append_nil _).symm, rfl, fun _ => rfl⟩
  | bytes leaf =>
    intro segs wrtn hwrt
    cases hwrt
    refine ⟨[leaf], rfl, rfl, fun lat => ?_⟩
    have hat : segmentAt (segs ++ [leaf] ++ lat) segs.length = some leaf := by
      rw [segmentAt, if_pos ⟨rfl, Int.natCast_nonneg _⟩]
      simp
    simp only [reference, resolveSegments, get?, if_true, length_singleton, ne_eq, not_true_eq_false, if_false, hat, map_some]
  | arr xs ih =>
    intro segs wrtn hwrt
    obtain ⟨els, hels, rfl⟩ := map_ok hwrt
    obtain ⟨added, hadd, hcnt, hread⟩ := returns_elements ih segs els hels
    refine ⟨added, hadd, hcnt, fun lat => ?_⟩
    rw [resolveSegments, hread lat]
    rfl
  | obj m ih =>
    intro segs wrtn hwrt
    rw [replaced] at hwrt
    split_ifs at hwrt with hresv
    obtain ⟨mems, hmems, rfl⟩ := map_ok hwrt
    obtain ⟨hkeys, added, hadd, hcnt, hread⟩ := returns_members ih segs mems hmems
    refine ⟨added, hadd, hcnt, fun lat => ?_⟩
    have hnone : get? mems.1 bytesKey = none := by
      rw [get?_eq_none_iff, hkeys, ← get?_eq_none_iff]
      exact not_not.mp hresv
    rw [resolveSegments, hnone, hread lat]
    rfl

/-- The indices from one number of segments to another are read back. -/
def Indexed (numbers : Numbers) (segments segments' : List (List UInt8)) : Prop :=
  ∀ i, segments.length ≤ i → i < segments'.length → numbers.Writes i

theorem plain_elements (h : ∀ x ∈ xs, ∀ segs wrtn, replaced x segs = .ok wrtn →
      Indexed numbers segs wrtn.2 → Plain numbers wrtn.1)
    (segs : List (List UInt8)) (wrtn : List Json × List (List UInt8)) (hwrt : replaced.elements xs segs = .ok wrtn)
    (hindexed : Indexed numbers segs wrtn.2) : ∀ y ∈ wrtn.1, Plain numbers y := by
  induction xs generalizing segs wrtn with
  | nil =>
    cases hwrt
    exact nofun
  | cons x xs ih =>
    obtain ⟨first, hfst, hmore⟩ := bind_ok hwrt
    obtain ⟨rest, hrest, rfl⟩ := map_ok hmore
    obtain ⟨added, hadd, -, -⟩ := resolve_replaced x segs first hfst
    obtain ⟨added', hadd', -, -⟩ := returns_elements (fun y _ => resolve_replaced y) first.2 rest hrest
    have hlen := congrArg length hadd
    have hlen' := congrArg length hadd'
    rw [length_append] at hlen hlen'
    intro y hy
    rcases mem_cons.mp hy with rfl | hy
    · exact h x mem_cons_self segs first hfst fun i hle hlt => hindexed i hle (by dsimp only; omega)
    · exact ih (fun z hz => h z (mem_cons_of_mem _ hz)) first.2 rest hrest (fun i hle hlt => hindexed i (by omega) hlt) y hy

theorem plain_members (h : ∀ p ∈ m, ∀ segs wrtn, replaced p.2 segs = .ok wrtn →
      Indexed numbers segs wrtn.2 → Plain numbers wrtn.1)
    (segs : List (List UInt8)) (wrtn : List (Text × Json) × List (List UInt8)) (hwrt : replaced.members m segs = .ok wrtn)
    (hindexed : Indexed numbers segs wrtn.2) : ∀ p ∈ wrtn.1, Plain numbers p.2 := by
  induction m generalizing segs wrtn with
  | nil =>
    cases hwrt
    exact nofun
  | cons p m ih =>
    obtain ⟨key, x⟩ := p
    obtain ⟨first, hfst, hmore⟩ := bind_ok hwrt
    obtain ⟨rest, hrest, rfl⟩ := map_ok hmore
    obtain ⟨added, hadd, -, -⟩ := resolve_replaced x segs first hfst
    obtain ⟨-, added', hadd', -, -⟩ := returns_members (fun y _ => resolve_replaced y.2) first.2 rest hrest
    have hlen := congrArg length hadd
    have hlen' := congrArg length hadd'
    rw [length_append] at hlen hlen'
    intro q hq
    rcases mem_cons.mp hq with rfl | hq
    · exact h (key, x) mem_cons_self segs first hfst fun i hle hlt => hindexed i hle (by dsimp only; omega)
    · exact ih (fun r hr => h r (mem_cons_of_mem _ hr)) first.2 rest hrest (fun i hle hlt => hindexed i (by omega) hlt) q hq

/-- What is written is a value the language can hold. -/
theorem plain_replaced {v : LinkValue} (h : Holdable numbers v) (segs : List (List UInt8)) (wrtn : Json × List (List UInt8))
    (hwrt : replaced v segs = .ok wrtn) (hindexed : Indexed numbers segs wrtn.2) : Plain numbers wrtn.1 := by
  induction h generalizing segs wrtn with
  | null => obtain rfl := Except.ok.inj hwrt; exact .null
  | bool => obtain rfl := Except.ok.inj hwrt; exact .bool
  | num hwrites => obtain rfl := Except.ok.inj hwrt; exact .num hwrites
  | str => obtain rfl := Except.ok.inj hwrt; exact .str
  | bytes =>
    cases hwrt
    exact plain_reference (hindexed segs.length (le_refl _) (by simp))
  | arr _ ih =>
    obtain ⟨elements, hels, rfl⟩ := map_ok hwrt
    exact .arr (plain_elements ih segs elements hels hindexed)
  | obj hkeys hordr _ ih =>
    rw [replaced] at hwrt
    split_ifs at hwrt
    obtain ⟨members, hmems, rfl⟩ := map_ok hwrt
    have hsame := (returns_members (fun p _ => resolve_replaced p.2) segs members hmems).1
    exact .obj (hsame ▸ hkeys) (enumerate_of_keyOrder (hsame ▸ hordr)) (plain_members ih segs members hmems hindexed)

/-! ### Failing -/

theorem elements_error_iff (h : ∀ x ∈ xs, ∀ segs, (∃ e, replaced x segs = .error e) ↔ HasReserved x)
    (segs : List (List UInt8)) : (∃ e, replaced.elements xs segs = .error e) ↔ ∃ x ∈ xs, HasReserved x := by
  induction xs generalizing segs with
  | nil =>
    constructor
    · rintro ⟨e, he⟩
      cases he
    · rintro ⟨x, hx, -⟩
      cases hx
  | cons x xs ih =>
    simp only [mem_cons, exists_eq_or_imp, ← h x mem_cons_self segs]
    rw [replaced.elements]
    cases hfst : replaced x segs with
    | error e => exact ⟨fun _ => .inl ⟨e, rfl⟩, fun _ => ⟨e, rfl⟩⟩
    | ok first =>
      rw [← ih (fun y hy => h y (mem_cons_of_mem _ hy)) first.2, Except.bind]
      cases replaced.elements xs first.2 <;> simp [Except.map]

theorem members_error_iff (h : ∀ p ∈ m, ∀ segs, (∃ e, replaced p.2 segs = .error e) ↔ HasReserved p.2)
    (segs : List (List UInt8)) : (∃ e, replaced.members m segs = .error e) ↔ ∃ p ∈ m, HasReserved p.2 := by
  induction m generalizing segs with
  | nil =>
    constructor
    · rintro ⟨e, he⟩
      cases he
    · rintro ⟨p, hp, -⟩
      cases hp
  | cons p m ih =>
    obtain ⟨key, x⟩ := p
    simp only [mem_cons, exists_eq_or_imp, ← h (key, x) mem_cons_self segs]
    rw [replaced.members]
    cases hfst : replaced x segs with
    | error e => exact ⟨fun _ => .inl ⟨e, rfl⟩, fun _ => ⟨e, rfl⟩⟩
    | ok first =>
      rw [← ih (fun q hq => h q (mem_cons_of_mem _ hq)) first.2, Except.bind]
      cases replaced.members m first.2 <;> simp [Except.map]

/-- Writing fails exactly on a value with the reserved key. -/
theorem replaced_error_iff (v : LinkValue) (segs : List (List UInt8)) : (∃ e, replaced v segs = .error e) ↔ HasReserved v := by
  induction v generalizing segs with
  | null | bool _ | num _ | str _ | bytes _ =>
    constructor
    · rintro ⟨e, he⟩
      cases he
    · intro h
      cases h
  | arr xs ih =>
    have hmap : (∃ e, replaced (.arr xs) segs = .error e) ↔ ∃ e, replaced.elements xs segs = .error e := by
      rw [replaced]
      cases replaced.elements xs segs <;> simp [Except.map]
    rw [hmap, elements_error_iff ih]
    constructor
    · rintro ⟨x, hx, h⟩
      exact .element hx h
    · rintro (_ | _ | ⟨hx, h⟩)
      exact ⟨_, hx, h⟩
  | obj m ih =>
    rw [replaced]
    split_ifs with hresv
    · exact ⟨fun _ => .key hresv, fun _ => ⟨_, rfl⟩⟩
    · have hmap : (∃ e, ((replaced.members m segs).map fun wrtn => (Json.obj wrtn.1, wrtn.2)) = .error e) ↔
          ∃ e, replaced.members m segs = .error e := by
        cases replaced.members m segs <;> simp [Except.map]
      rw [hmap, members_error_iff ih]
      constructor
      · rintro ⟨p, hp, h⟩
        exact .member hp h
      · rintro (h | ⟨hp, h⟩ | _)
        · exact absurd h hresv
        · exact ⟨_, hp, h⟩

end

/-! ## Reading -/

section

variable {segments : List (List UInt8)}

theorem resolved_elements {ys : List Json} {xs : List LinkValue} (h : resolveSegments.elements segments ys = some xs) :
    ∀ x ∈ xs, ∃ y, resolveSegments segments y = some x := by
  induction ys generalizing xs with
  | nil =>
    cases h
    exact nofun
  | cons y ys ih =>
    obtain ⟨first, hfst, hmore⟩ := bind_eq_some_iff.mp h
    obtain ⟨rest, hrest, rfl⟩ := map_eq_some_iff.mp hmore
    intro x hx
    rcases mem_cons.mp hx with rfl | hx
    · exact ⟨y, hfst⟩
    · exact ih hrest x hx

theorem resolved_members {m' : List (Text × Json)} {m : List (Text × LinkValue)} (h : resolveSegments.members segments m' = some m) :
    m.map Prod.fst = m'.map Prod.fst ∧ ∀ p ∈ m, ∃ y, resolveSegments segments y = some p.2 := by
  induction m' generalizing m with
  | nil =>
    cases h
    exact ⟨rfl, nofun⟩
  | cons q m' ih =>
    obtain ⟨key, y⟩ := q
    obtain ⟨first, hfst, hmore⟩ := bind_eq_some_iff.mp h
    obtain ⟨rest, hrest, rfl⟩ := map_eq_some_iff.mp hmore
    obtain ⟨hkeys, hmems⟩ := ih hrest
    refine ⟨by rw [map_cons, map_cons, hkeys], fun p hp => ?_⟩
    rcases mem_cons.mp hp with rfl | hp
    · exact ⟨y, hfst⟩
    · exact hmems p hp

variable {json : Json}

/-- What an object is read from: a reference, or an object without the reserved key. -/
theorem resolved_object {m : List (Text × LinkValue)} (h : resolveSegments segments json = some (.obj m)) :
    ∃ m', Assoc.get? m' bytesKey = none ∧ resolveSegments.members segments m' = some m := by
  cases json with
  | null | bool _ | num _ | str _ => cases some.inj h
  | arr ys =>
    obtain ⟨xs, -, heq⟩ := map_eq_some_iff.mp h
    cases heq
  | obj m' =>
    rw [resolveSegments] at h
    split at h
    · split_ifs at h
      obtain ⟨leaf, -, heq⟩ := map_eq_some_iff.mp h
      cases heq
    · cases h
    · rename_i hnone
      obtain ⟨mems, hmems, heq⟩ := map_eq_some_iff.mp h
      cases heq
      exact ⟨m', hnone, hmems⟩

theorem resolved_array {xs : List LinkValue} (h : resolveSegments segments json = some (.arr xs)) :
    ∃ ys, resolveSegments.elements segments ys = some xs := by
  cases json with
  | null | bool _ | num _ | str _ => cases some.inj h
  | arr ys =>
    obtain ⟨_, hels, heq⟩ := map_eq_some_iff.mp h
    cases heq
    exact ⟨ys, hels⟩
  | obj m' =>
    rw [resolveSegments] at h
    split at h
    · split_ifs at h
      obtain ⟨leaf, -, heq⟩ := map_eq_some_iff.mp h
      cases heq
    · cases h
    · obtain ⟨members, -, heq⟩ := map_eq_some_iff.mp h
      cases heq

/-- No object of a value that was read has the reserved key. -/
theorem resolve_unreserved {v : LinkValue} (h : resolveSegments segments json = some v) : ¬HasReserved v := by
  intro hresv
  induction hresv generalizing json with
  | key hkey =>
    obtain ⟨m', hnone, hmems⟩ := resolved_object h
    refine hkey ?_
    rw [get?_eq_none_iff, (resolved_members hmems).1, ← get?_eq_none_iff]
    exact hnone
  | member hmem _ ih =>
    obtain ⟨m', -, hmems⟩ := resolved_object h
    obtain ⟨y, hy⟩ := (resolved_members hmems).2 _ hmem
    exact ih hy
  | element hmem _ ih =>
    obtain ⟨ys, hels⟩ := resolved_array h
    obtain ⟨y, hy⟩ := resolved_elements hels _ hmem
    exact ih hy

end

/-! ## Payloads -/

/-- A payload with byte leaves fails exactly if it has the reserved key, else it comes back as it was; and what is read of any
    text with any segments has no reserved key. -/
theorem payload_round_trip (numbers : Numbers) (value : Option LinkValue) (hvalue : ∀ v, value = some v → Holdable numbers v)
    (hindices : ∀ v, value = some v → ∀ i < leaves v, numbers.Writes i) :
    (((∃ e, payloadPart numbers value true = .error e) ∧ ∃ v, value = some v ∧ HasReserved v) ∨
      ((∀ v, value = some v → ¬HasReserved v) ∧ ∃ json segments, payloadPart numbers value true = .ok (json, some segments) ∧
        parsePayload numbers json (some segments) = some (value.getD .null))) ∧
    ∀ (json : Text) (segments : List (List UInt8)) (parsed : Json) (read : LinkValue), parse numbers json = some parsed →
      resolveSegments segments parsed = some read → ¬HasReserved read := by
  refine ⟨?_, fun json segments parsed read _ hread => resolve_unreserved hread⟩
  cases value with
  | none =>
    refine .inr ⟨fun v hv => absurd hv.symm (some_ne_none v), text "null", [], rfl, ?_⟩
    have hnull : parse numbers (text "null") = some .null := parse_stringify .null
    rfl
  | some v =>
    cases hwritten : replaced v [] with
    | error e =>
      refine .inl ⟨⟨e, ?_⟩, v, rfl, (replaced_error_iff v []).mp ⟨e, hwritten⟩⟩
      rw [payloadPart, if_pos rfl, hwritten]
      rfl
    | ok written =>
      have hclean : ¬HasReserved v := by
        intro hreserved
        obtain ⟨e, he⟩ := (replaced_error_iff v []).mpr hreserved
        rw [hwritten] at he
        cases he
      obtain ⟨added, hadded, hcount, hreads⟩ := resolve_replaced v [] written hwritten
      have hplain : Plain numbers written.1 := by
        refine plain_replaced (hvalue v rfl) [] written hwritten fun i _ hlt => hindices v rfl i ?_
        rwa [hadded, nil_append, hcount] at hlt
      refine .inr ⟨fun w hw => some.inj hw ▸ hclean, stringify numbers written.1, written.2, ?_, ?_⟩
      · rw [payloadPart, if_pos rfl, hwritten]
        rfl
      · have := hreads []
        rw [append_nil] at this
        rw [parsePayload, parse_stringify hplain]
        exact this

/-- An object with a leaf under `__proto__`. -/
theorem payload_round_trip_proto :
    ∃ json segments, payloadPart decimalNumbers (some (.obj [(text "__proto__", .bytes [1, 2])])) true = .ok (json, some segments) ∧
      parsePayload decimalNumbers json (some segments) = some (.obj [(text "__proto__", .bytes [1, 2])]) := by
  have hholdable : Holdable decimalNumbers (.obj [(text "__proto__", .bytes [1, 2])]) := by
    refine .obj (nodup_singleton _) (keyOrder_singleton _) fun p hp => ?_
    rw [mem_singleton.mp hp]
    exact .bytes
  have hround := payload_round_trip decimalNumbers (some (.obj [(text "__proto__", .bytes [1, 2])]))
    (fun v hv => some.inj hv ▸ hholdable) (fun v hv i hi => decimalNumbers_exact.writes (by
      cases hv
      have hone : leaves (.obj [(text "__proto__", .bytes [1, 2])]) = 1 := rfl
      omega))
  rcases hround.1 with ⟨⟨e, he⟩, -⟩ | ⟨-, h⟩
  · have hok : (payloadPart decimalNumbers (some (.obj [(text "__proto__", .bytes [1, 2])])) true).isOk = true := rfl
    rw [he] at hok
    cases hok
  · exact h

end PiBridge.Chord.Link
