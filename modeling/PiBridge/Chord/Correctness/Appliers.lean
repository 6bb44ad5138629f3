import PiBridge.Chord.Correctness.Objects

/-!
# `Chord.Correctness.Appliers` — the appliers agree

`Applied` is what an applier did to a value when it applied an operation: the objects stand for what the operation
makes of the value, and of the objects that were there only those of the applier's own have changed. To apply in
place is to change the container a path leads to (`applyOp_applied`); to copy along the path is to make
these containers the applier's own, and no change to the value (`copyAlong_copied`). So each operation is applied
as to a value (`replayOp_applied`), and with that each batch and each replay (`appliers_agree`).
-/

namespace PiBridge.Chord.Objects

open Lib Lib.Heap Json List Option Kid Container Nat

/-! ## Paths -/

section Paths

variable {O : Nat → Prop} {heap : Heap} {v : Val} {value : Json} {refs : List Nat} {path : Path}

theorem resolve_of_reaches {x : Nat} (h : Reaches O heap v path x) : resolve heap v path = some x := by
  induction h with
  | here hO => rfl
  | down hO hcell hch hpath ih =>
    have hch' : Node.child? _ _ = some _ := hch
    rw [resolve, hcell, bind_some, hch', bind_some, ih]

/-- Where all cells are the program's own, every container is reached. -/
theorem reaches_of_resolve {x : Nat} (hO : ∀ r, O r) (h : resolve heap v path = some x) : Reaches O heap v path x := by
  induction path generalizing v with
  | nil =>
    cases v with
    | atom a => cases h
    | ref r =>
      obtain rfl := some.inj h
      exact Reaches.here (hO r)
  | cons seg path ih =>
    cases v with
    | atom a => cases h
    | ref r =>
      obtain ⟨n, hcell, h⟩ := bind_eq_some_iff.mp h
      obtain ⟨w, hch, h⟩ := bind_eq_some_iff.mp h
      exact Reaches.down (hO r) hcell hch (ih h)

/-- **A path that leads to no container leads to none in the value**, and nothing is changed there. -/
theorem descend_of_not_resolved (e : Edit Json) (h : Holds O heap v value refs) (hpath : resolve heap v path = none) :
    descend Json.accepts path e.change (some value) = none := by
  induction path generalizing v value refs with
  | nil =>
    cases h with
    | atom a => exact change_primitive e a.property
    | node r n cell closed kids => cases hpath
  | cons seg path ih =>
    cases h with
    | atom a =>
      have hacc : Json.accepts (Trees.atom Node a) seg = false := accepts_primitive a.property seg
      rw [descend, hacc, if_neg (by decide)]
    | node r n cell closed kids =>
      rw [resolve, cell, bind_some] at hpath
      have hch : (val <$> n).child? seg = (n.child? seg).map val := child?_map (F := Node) val n seg
      have htree : (ofNode (tree <$> n)).child? seg = (n.child? seg).map tree := by
        rw [child?_ofNode]
        exact child?_map (F := Node) tree n seg
      have hnone : descend Json.accepts path e.change ((ofNode (tree <$> n)).child? seg) = none := by
        rw [htree]
        cases hk : n.child? seg with
        | none => exact descend_none rfl
        | some k =>
          rw [hch, hk] at hpath
          exact ih (kids k (mem_elems_of_child? (F := Node) hk)) hpath
      show descend Json.accepts (seg :: path) e.change (some (ofNode (tree <$> n))) = none
      rw [descend, hnone]
      split <;> rfl

variable {rebuild : Json → Json}

/-- Where the path leads to a container, the change is made there. -/
theorem descend_of_focus {sub : Json} (chg : Option Json → Option Json) (h : Focus (F := Node) path value sub rebuild) :
    descend Json.accepts path chg (some value) = (chg (some sub)).map rebuild := by
  induction h with
  | here t => exact map_id'.symm
  | @down n s t sub path rebuild hch hfoc ih =>
    have hch' : n.child? s = some t := hch
    show descend Json.accepts (s :: path) chg (some (ofNode n)) = _
    rw [descend, accepts_ofNode, if_pos (accepts_of_child? hch'), child?_ofNode, hch', ih, Option.map_map]
    congr 1
    funext value
    exact put_ofNode n s (rebuild value)

end Paths

/-! ## Copies along a path -/

theorem ofNode_injective {n n' : Node Json} (h : ofNode n = ofNode n') : n = n' := by
  cases n <;> cases n' <;> cases h <;> rfl

variable {value : Json} {path : Path} {sub : Json} {rebuild : Json → Json} {m : Node Json} {O : Nat → Prop}

/-- A container is stood for by a reference. -/
theorem ref_of_holds {heap : Heap} {v : Val} {refs : List Nat}
    (h : Holds O heap v value refs) (hval : value = ofNode m) : ∃ r, v = .ref r := by
  cases h with
  | atom a =>
    obtain ⟨value, hprimitive⟩ := a
    obtain rfl : value = ofNode m := hval
    cases m <;> cases hprimitive
  | node r n cell closed kids => exact ⟨r, rfl⟩

theorem container_of_focus (h : Focus (F := Node) path value sub rebuild) (hsub : sub = ofNode m) : ∃ m', value = ofNode m' := by
  cases h with
  | here => exact ⟨m, hsub⟩
  | @down n _ _ _ _ _ _ _ => exact ⟨n, rfl⟩

variable {n : Node JsonKid}

/-- A path leads on below the part that its first segment names. -/
theorem focus_below {seg : Seg} (h : Focus (F := Node) (seg :: path) (ofNode (Kid.tree <$> n)) sub rebuild) :
    ∃ k, n.child? seg = some k ∧ ∃ bel, Focus (F := Node) path k.tree sub bel := by
  generalize hval : ofNode (tree <$> n) = value at h
  cases h with
  | down hch hfoc =>
    obtain rfl := ofNode_injective hval
    obtain ⟨k, hk, rfl⟩ := map_eq_some_iff.mp ((child?_map (F := Node) tree n seg).symm.trans hch)
    exact ⟨k, hk, _, hfoc⟩

/-- Where a path leads in the objects it leads in the value. -/
theorem focus_of_resolve {heap : Heap} {v : Val} {refs : List Nat} {x : Nat}
    (h : Holds O heap v value refs) (hpath : resolve heap v path = some x) :
    ∃ m rebuild, Focus (F := Node) path value (ofNode m) rebuild := by
  induction path generalizing v value refs with
  | nil =>
    cases h with
    | atom a => cases hpath
    | node r n cell closed kids => exact ⟨tree <$> n, fun value => value, Focus.here _⟩
  | cons seg path ih =>
    cases h with
    | atom a => cases hpath
    | node r n cell closed kids =>
      rw [resolve, cell, bind_some] at hpath
      obtain ⟨w, hch, hpath⟩ := bind_eq_some_iff.mp hpath
      obtain ⟨k, hk, rfl⟩ := map_eq_some_iff.mp ((child?_map (F := Node) val n seg).symm.trans hch)
      obtain ⟨m, rebuild, hfoc⟩ := ih (kids k (mem_elems_of_child? (F := Node) hk)) hpath
      refine ⟨m, _, Focus.down ?_ hfoc⟩
      rw [child?_map, hk]
      rfl

/-- What a copy along a path does: the value is the same, and the path leads through containers of the replay's own. -/
structure Copied (s : Replay) (refs : List Nat) (value : Json) (path : Path) (s' : Replay) (target : Nat) : Prop where
  owned_lt : ∀ r ∈ s'.owned, r < s'.heap.length
  grows : s.heap.length ≤ s'.heap.length
  change : ∃ refs', Change (· < s.heap.length) (· ∈ s.owned) (· ∈ s'.owned) s.heap s'.heap refs s'.root value refs'
  reaches : Reaches (· ∈ s'.owned) s'.heap s'.root path target

section Copy

variable {heap : Heap} {owned : List Nat} {d c : Nat} {value : Json} {refs : List Nat} {path : Path} {seg : Seg}

/-- A copy below a container is a copy from the container on. -/
theorem Copied.up {k : JsonKid} {s' : Replay} {tgt : Nat} (hd : d ∈ owned)
    (hu : Unique (· ∈ owned) (d :: refsOf n)) (hcell : heap[d]? = some (Kid.val <$> n))
    (hkids : ∀ k ∈ n.elems, Holds (F := Node) (· ∈ owned) heap k.val k.tree k.refs) (hk : n.child? seg = some k)
    (hroot : s'.root = k.val) (h : Copied ⟨heap, k.val, owned⟩ k.refs k.tree path s' tgt) :
    Copied ⟨heap, .ref d, owned⟩ (d :: refsOf n) (ofNode (Kid.tree <$> n)) (seg :: path) { s' with root := .ref d } tgt := by
  obtain ⟨refs', hchg⟩ := h.change
  rw [hroot] at hchg
  have hmem : k ∈ n.elems := mem_elems_of_child? (F := Node) hk
  have hK : ∀ r ∈ d :: refsOf n, r < heap.length := by
    intro r hr
    rcases mem_cons.mp hr with rfl | hr
    · exact (List.getElem?_eq_some_iff.mp hcell).1
    · obtain ⟨k', hk', hr⟩ := mem_refsOf.mp hr
      exact (hkids k' hk').lt_length r hr
  have hlift := Change.lift (F := Node) hd hu hK hcell hkids hk hchg
  have hsame : tree <$> put n seg ⟨k.val, k.tree, refs'⟩ = tree <$> n := by
    rw [← put_map]
    refine put_child (F := Node) ?_
    rw [child?_map]
    exact congrArg (Option.map tree) hk
  rw [hsame] at hlift
  refine ⟨h.owned_lt, h.grows, ⟨_, hlift⟩, Reaches.down (c := val <$> n) ?_ ?_ ?_ (hroot ▸ h.reaches)⟩
  · exact (hchg.owns d (hK d mem_cons_self)).mpr hd
  · exact (hchg.keeps d (hK d mem_cons_self) (Or.inr (not_mem_kid hd hu hmem))).trans hcell
  · rw [child?_map]
    exact congrArg (Option.map val) hk

theorem Copied.trans {s s₁ s₂ : Replay} {refs₁ : List Nat} {tgt : Nat}
    (h : Change (· < s.heap.length) (· ∈ s.owned) (· ∈ s₁.owned) s.heap s₁.heap refs s₁.root value refs₁)
    (hgrow : s.heap.length ≤ s₁.heap.length) (h' : Copied s₁ refs₁ value path s₂ tgt) :
    Copied s refs value path s₂ tgt := by
  obtain ⟨refs₂, hchg⟩ := h'.change
  exact ⟨h'.owned_lt, le_trans hgrow h'.grows, ⟨refs₂, h.trans hchg fun r hr => lt_of_lt_of_le hr hgrow⟩, h'.reaches⟩

/-- `read` reads every own property. -/
def Reads (read : Node Val → Seg → Option Val) : Prop := ∀ n seg v, n.child? seg = some v → read n seg = some v

theorem reads_child? : Reads Node.child? := fun _ _ _ h => h

/-- The heap with a copy of the cell in the place of a child of `d`. -/
def withCopy (heap : Heap) (d : Nat) (n : Node Val) (seg : Seg) (cell : Node Val) : Heap :=
  (heap ++ [cell]).set d (n.put seg (.ref heap.length))

/-- What is there after a child of `d` was copied: the same value, with the copy `k₂` in the place of `k`. -/
structure ChildCopied (heap heap₂ : Heap) (owned : List Nat) (d : Nat) (n n₂ : Node JsonKid) (k k₂ : JsonKid) (seg : Seg) : Prop where
  change : Change (F := Node) (· < heap.length) (· ∈ owned) (· ∈ heap.length :: owned) heap heap₂ (d :: refsOf n) (.ref d)
    (ofNode (Kid.tree <$> n)) (d :: refsOf n₂)
  owned_lt : ∀ r ∈ heap.length :: owned, r < heap₂.length
  cell : heap₂[d]? = some (Kid.val <$> n₂)
  kids : ∀ k ∈ n₂.elems, Holds (F := Node) (· ∈ heap.length :: owned) heap₂ k.val k.tree k.refs
  child : n₂.child? seg = some k₂
  val : k₂.val = .ref heap.length
  tree : k₂.tree = k.tree
  same : ofNode (Kid.tree <$> n₂) = ofNode (Kid.tree <$> n)

/-- **A child is copied, and the copy takes its place.** -/
theorem childCopied {k : JsonKid} {ch : Nat} (hd : d ∈ owned)
    (h : Holds (F := Node) (· ∈ owned) heap (.ref d) (ofNode (Kid.tree <$> n)) (d :: refsOf n))
    (hkids : ∀ k ∈ n.elems, Holds (F := Node) (· ∈ owned) heap k.val k.tree k.refs)
    (hu : Unique (· ∈ owned) (d :: refsOf n)) (howned : ∀ r ∈ owned, r < heap.length) (hk : n.child? seg = some k)
    (hch : k.val = .ref ch) (hc : ch ∉ owned) :
    ∃ cell n₂ k₂, heap[ch]? = some cell ∧ ChildCopied heap (withCopy heap d (Kid.val <$> n) seg cell) owned d n n₂ k k₂ seg := by
  have hkid := hkids k (mem_elems_of_child? (F := Node) hk)
  rw [hch] at hkid
  obtain ⟨m, hcellm, -⟩ := hkid.node_inv
  have howns : ∀ r, r ∈ heap.length :: owned ↔ r = heap.length ∨ r ∈ owned := fun r => mem_cons
  obtain ⟨refs₁, hcopy⟩ := hkid.copy (K := (· < heap.length)) hc hcellm howns fun r hr => hr
  have hK : ∀ r ∈ d :: refsOf n, r < heap.length := h.lt_length
  have hlink := Change.link (F := Node) hd hu hK (fun r hr => hr) hkids hk hcopy
  have hsame : tree <$> put n seg ⟨.ref heap.length, k.tree, refs₁⟩ = tree <$> n := by
    rw [← put_map]
    refine put_child (F := Node) ?_
    rw [child?_map]
    exact congrArg (Option.map tree) hk
  have hcells : val <$> put n seg ⟨.ref heap.length, k.tree, refs₁⟩ = (val <$> n).put seg (.ref heap.length) := by
    rw [← put_map]
    rfl
  rw [hsame, hcells] at hlink
  obtain ⟨n₂, hcell₂, hvalue₂, hrefs₂, -, hkids₂⟩ := hlink.holds.node_inv
  have hcellput : val <$> n₂ = (val <$> n).put seg (.ref heap.length) := by
    have hlen : d < (heap ++ [val <$> m]).length := by
      have := hK d mem_cons_self
      rw [length_append]
      omega
    rw [getElem?_set_self hlen] at hcell₂
    exact (some.inj hcell₂).symm
  obtain ⟨k₂, hk₂, hval₂⟩ : ∃ k₂, n₂.child? seg = some k₂ ∧ k₂.val = .ref heap.length := by
    have hvalchild : (val <$> n).child? seg = some k.val := (child?_map (F := Node) val n seg).trans (congrArg (Option.map val) hk)
    have hput : (val <$> n₂).child? seg = some (.ref heap.length) := by
      rw [hcellput]
      exact child?_put (F := Node) _ hvalchild
    exact map_eq_some_iff.mp ((child?_map (F := Node) val n₂ seg).symm.trans hput)
  have htree₂ : k₂.tree = k.tree := by
    have htrees : tree <$> n = tree <$> n₂ := ofNode_injective hvalue₂
    have hchildren := congrArg (fun n => Container.child? n seg) htrees
    simp only [child?_map] at hchildren
    have : (some k).map tree = (some k₂).map tree := hk ▸ hk₂ ▸ hchildren
    exact (some.inj this).symm
  refine ⟨val <$> m, n₂, k₂, hcellm, hrefs₂ ▸ hlink, ?_, hcell₂, hkids₂, hk₂, hval₂, htree₂, hvalue₂.symm⟩
  have hlen : (withCopy heap d (val <$> n) seg (val <$> m)).length = heap.length + 1 := by
    rw [withCopy, length_set, length_append, length_singleton]
  intro r hr
  rcases mem_cons.mp hr with rfl | hr
  · omega
  · have := howned r hr
    omega

/-- **The loop copies what is not yet copied**, where the path leads to a container. -/
theorem copyBelow_copied {read : Node Val → Seg → Option Val} (hread : Reads read) (hd : d ∈ owned)
    (h : Holds (F := Node) (· ∈ owned) heap (.ref d) value refs) (hu : Unique (· ∈ owned) refs)
    (howned : ∀ r ∈ owned, r < heap.length)
    (hpath : Focus (F := Node) path value (ofNode m) rebuild) :
    ∃ heap' owned' tgt, copyBelow read heap owned d path = some (heap', owned', tgt) ∧
      Copied ⟨heap, .ref d, owned⟩ refs value path ⟨heap', .ref d, owned'⟩ tgt := by
  induction path generalizing heap owned d value refs rebuild with
  | nil => exact ⟨heap, owned, d, rfl, howned, le_refl _, ⟨refs, Change.refl h hu⟩, Reaches.here hd⟩
  | cons seg path ih =>
    obtain ⟨n, hcell, rfl, rfl, -, hkids⟩ := h.node_inv
    obtain ⟨k, hk, bel, hfoc⟩ := focus_below hpath
    obtain ⟨m₁, hm₁⟩ := container_of_focus hfoc rfl
    have hmem : k ∈ n.elems := mem_elems_of_child? (F := Node) hk
    obtain ⟨ch, hch⟩ := ref_of_holds (hkids k hmem) hm₁
    have hvalchild : (val <$> n).child? seg = some k.val := (child?_map (F := Node) val n seg).trans (congrArg (Option.map val) hk)
    rw [copyBelow, hcell, bind_some, hread _ _ _ hvalchild, bind_some, hch]
    dsimp only
    by_cases hc : ch ∈ owned
    · -- the child was copied before
      rw [if_pos hc]
      have hkid := hkids k hmem
      rw [hch] at hkid
      obtain ⟨heap', owned', tgt, hrun, hcop⟩ := ih hc hkid (hu.kid (F := Node) hk) howned hfoc
      rw [← hch] at hcop
      exact ⟨heap', owned', tgt, hrun, hcop.up hd hu hcell hkids hk rfl⟩
    · rw [if_neg hc]
      obtain ⟨cell, n₂, k₂, hcellc, hcc⟩ := childCopied hd h hkids hu howned hk hch hc
      rw [hcellc, bind_some]
      have hholds₂ := hcc.kids k₂ (mem_elems_of_child? (F := Node) hcc.child)
      rw [hcc.val] at hholds₂
      obtain ⟨heap', owned', tgt, hrun, hcop⟩ := ih mem_cons_self hholds₂
        (hcc.change.unique.kid (F := Node) hcc.child) hcc.owned_lt (hcc.tree ▸ hfoc)
      refine ⟨heap', owned', tgt, hrun, ?_⟩
      rw [← hcc.val] at hcop
      have hup := hcop.up (n := n₂) (mem_cons_of_mem _ hd) hcc.change.unique hcc.cell hcc.kids hcc.child rfl
      rw [hcc.same] at hup
      have hgrow := hcc.owned_lt heap.length mem_cons_self
      refine Copied.trans (s := ⟨heap, .ref d, owned⟩) ?_ ?_ hup
      · exact hcc.change
      · exact le_of_lt hgrow

/-- The loop that reads own properties ends only where the path leads to a container. -/
theorem focus_of_copyBelow {r : Heap × List Nat × Nat} (hd : d ∈ owned)
    (h : Holds (F := Node) (· ∈ owned) heap (.ref d) value refs) (hu : Unique (· ∈ owned) refs)
    (howned : ∀ r ∈ owned, r < heap.length) (hrun : copyBelow Node.child? heap owned d path = some r) :
    ∃ m rebuild, Focus (F := Node) path value (ofNode m) rebuild := by
  induction path generalizing heap owned d value refs with
  | nil =>
    obtain ⟨n, -, rfl, -⟩ := h.node_inv
    exact ⟨tree <$> n, fun value => value, Focus.here _⟩
  | cons seg path ih =>
    obtain ⟨n, hcell, rfl, rfl, -, hkids⟩ := h.node_inv
    rw [copyBelow, hcell, bind_some] at hrun
    obtain ⟨v, hv, hrun⟩ := bind_eq_some_iff.mp hrun
    obtain ⟨k, hk, rfl⟩ := map_eq_some_iff.mp ((child?_map (F := Node) val n seg).symm.trans hv)
    have hdown : ∀ m rebuild, Focus (F := Node) path k.tree (ofNode m) rebuild →
        ∃ m rebuild, Focus (F := Node) (seg :: path) (ofNode (tree <$> n)) (ofNode m) rebuild := by
      intro m rebuild hfoc
      refine ⟨m, _, Focus.down ?_ hfoc⟩
      rw [child?_map]
      exact congrArg (Option.map tree) hk
    have hkid := hkids k (mem_elems_of_child? (F := Node) hk)
    cases hch : k.val with
    | atom a =>
      rw [hch] at hrun
      cases hrun
    | ref ch =>
      rw [hch] at hrun hkid
      dsimp only at hrun
      by_cases hc : ch ∈ owned
      · rw [if_pos hc] at hrun
        obtain ⟨m, rebuild, hfoc⟩ := ih hc hkid (hu.kid (F := Node) hk) howned hrun
        exact hdown m rebuild hfoc
      · rw [if_neg hc] at hrun
        obtain ⟨cell, n₂, k₂, hcellc, hcc⟩ := childCopied hd h hkids hu howned hk hch hc
        rw [hcellc, bind_some] at hrun
        have hholds₂ := hcc.kids k₂ (mem_elems_of_child? (F := Node) hcc.child)
        rw [hcc.val] at hholds₂
        obtain ⟨m, rebuild, hfoc⟩ := ih mem_cons_self hholds₂ (hcc.change.unique.kid (F := Node) hcc.child) hcc.owned_lt hrun
        exact hdown m rebuild (hcc.tree ▸ hfoc)

end Copy

section CopyAlong

variable {s : Replay} {value : Json} {refs : List Nat} {path : Path}

/-- **The containers on the path become the replay's own**, and the value stays what it is. -/
theorem copyAlong_copied {read : Node Val → Seg → Option Val} (hread : Reads read)
    (h : Holds (F := Node) (· ∈ s.owned) s.heap s.root value refs) (hu : Unique (· ∈ s.owned) refs)
    (howned : ∀ r ∈ s.owned, r < s.heap.length)
    (hpath : Focus (F := Node) path value (ofNode m) rebuild) :
    ∃ s' tgt, copyAlong read s path = some (s', tgt) ∧ Copied s refs value path s' tgt := by
  obtain ⟨heap, root, owned⟩ := s
  obtain ⟨m₁, hm₁⟩ := container_of_focus hpath rfl
  obtain ⟨r, rfl⟩ := ref_of_holds h hm₁
  rw [copyAlong]
  dsimp only at h hu howned ⊢
  by_cases hr : r ∈ owned
  · rw [if_pos hr]
    obtain ⟨heap', owned', tgt, hrun, hcop⟩ := copyBelow_copied hread hr h hu howned hpath
    exact ⟨_, tgt, by rw [hrun]; rfl, hcop⟩
  · rw [if_neg hr]
    obtain ⟨n, hcell, -⟩ := h.node_inv
    rw [hcell, bind_some]
    have howns : ∀ r, r ∈ heap.length :: owned ↔ r = heap.length ∨ r ∈ owned := fun r => mem_cons
    obtain ⟨refs₁, hcopy⟩ := h.copy (K := (· < heap.length)) hr hcell howns fun r hr => hr
    have howned₁ : ∀ r ∈ heap.length :: owned, r < (heap ++ [val <$> n]).length := by
      intro r hr
      rw [length_append, length_singleton]
      rcases mem_cons.mp hr with rfl | hr
      · omega
      · have := howned r hr
        omega
    obtain ⟨heap', owned', tgt, hrun, hcop⟩ := copyBelow_copied hread mem_cons_self hcopy.holds hcopy.unique howned₁ hpath
    refine ⟨_, tgt, by rw [hrun]; rfl, ?_⟩
    have hgrow : heap.length ≤ (heap ++ [val <$> n]).length := by simp
    refine Copied.trans (s := ⟨heap, .ref r, owned⟩) ?_ ?_ hcop
    · exact hcopy
    · exact hgrow

/-- `copyContainers` throws unless the path leads to a container. -/
theorem focus_of_copyContainers {s' : Replay} (h : Holds (F := Node) (· ∈ s.owned) s.heap s.root value refs)
    (hu : Unique (· ∈ s.owned) refs) (howned : ∀ r ∈ s.owned, r < s.heap.length) (hrun : copyContainers s path = some s') :
    ∃ m rebuild, Focus (F := Node) path value (ofNode m) rebuild := by
  obtain ⟨heap, root, owned⟩ := s
  obtain ⟨⟨s₁, tgt⟩, hrun, -⟩ := map_eq_some_iff.mp hrun
  rw [copyAlong] at hrun
  dsimp only at h hu howned hrun
  cases root with
  | atom a => cases hrun
  | ref r =>
    dsimp only at hrun
    by_cases hr : r ∈ owned
    · rw [if_pos hr] at hrun
      obtain ⟨_, hrun, -⟩ := map_eq_some_iff.mp hrun
      exact focus_of_copyBelow hr h hu howned hrun
    · rw [if_neg hr] at hrun
      obtain ⟨n, hcell, -⟩ := h.node_inv
      rw [hcell, bind_some] at hrun
      obtain ⟨_, hrun, -⟩ := map_eq_some_iff.mp hrun
      have howns : ∀ r, r ∈ heap.length :: owned ↔ r = heap.length ∨ r ∈ owned := fun r => mem_cons
      obtain ⟨refs₁, hcopy⟩ := h.copy (K := (· < heap.length)) hr hcell howns fun r hr => hr
      refine focus_of_copyBelow mem_cons_self hcopy.holds hcopy.unique (fun r hr => ?_) hrun
      rw [length_append, length_singleton]
      rcases mem_cons.mp hr with rfl | hr
      · omega
      · have := howned r hr
        omega

end CopyAlong

/-! ## In place -/

section InPlace

variable {K O : Nat → Prop} {heap : Heap} {root : Val} {value : Json} {refs : List Nat}

/-- The values an edit brings enter the heap in cells of their own. -/
theorem allocEdit_spec (hO : Uniform O heap) (e : Edit Json) :
    ∃ e' : Edit JsonKid, (allocEdit heap e).2 = e'.map Kid.val ∧ e'.map Kid.tree = e ∧ Brings O heap (allocEdit heap e).1 e'.items := by
  cases e with
  | assign key value =>
    obtain ⟨k, hval, htree, hbrng⟩ := alloc_spec heap hO value
    exact ⟨.assign key k, congrArg (Edit.assign key) hval, congrArg (Edit.assign key) htree, hbrng⟩
  | splice idx rm its =>
    obtain ⟨kids, hvals, htrees, hbrng⟩ := allocArr_spec heap hO its
    exact ⟨.splice idx rm kids, congrArg (Edit.splice idx rm) hvals, congrArg (Edit.splice idx rm) htrees, hbrng⟩
  | delete key => exact ⟨.delete key, rfl, rfl, Brings.nil O heap⟩
  | append key sfx => exact ⟨.append key sfx, rfl, rfl, Brings.nil O heap⟩
  | trim key cnt => exact ⟨.trim key cnt, rfl, rfl, Brings.nil O heap⟩
  | reorder perm => exact ⟨.reorder perm, rfl, rfl, Brings.nil O heap⟩

/-- What an edit leaves in a container is made of what it was made of, and of what the edit brought. -/
theorem count_of_parts {l l' : List JsonKid} (h : l'.Subperm l) (r : Nat) :
    (l'.flatMap Kid.refs).count r ≤ (l.flatMap Kid.refs).count r := by
  obtain ⟨l₁, hperm, hsub⟩ := h
  rw [← (hperm.flatMap_right refs).count_eq]
  exact (hsub.flatMap refs).count_le r

variable {e : Edit Json} {path : Path}

/-- **A container is changed in place**, at the end of a path of the program's own. -/
theorem editAt_applied {x : Nat} (h : Holds (F := Node) O heap root value refs) (hu : Unique O refs)
    (hO : Uniform O heap) (hK : ∀ r ∈ refs, K r) (hKlen : ∀ r, K r → r < heap.length)
    (hreach : Reaches (F := Node) O heap root path x) (hvald : e.isValid = true) :
    Option.Rel (fun s value' => s.2 = root ∧ heap.length ≤ s.1.length ∧ ∃ refs', Change (F := Node) K O O heap s.1 refs root value' refs')
      ((heap[x]?).bind fun n => ((allocEdit heap e).2.run n).map fun n => ((allocEdit heap e).1.set x n, root))
      (descend Json.accepts path e.change (some value)) := by
  obtain ⟨n, rebuild, hcell, hOx, hkids, hun, hKn, hfoc, hlift⟩ := h.along hu hK hreach
  obtain ⟨e', hval, htree, hbrng⟩ := allocEdit_spec hO e
  obtain ⟨cells, hcells⟩ := hbrng.grown
  have htext : ∀ k ∈ n.elems, Strings.text? k.tree = Strings.text? k := fun k hk => text?_holds (hkids k hk)
  have hvalrun : (allocEdit heap e).2.run (val <$> n) = (e'.run n).map (Node.map val) := by
    rw [hval]
    exact Edit.run_map e' (fun cs => rfl) fun k hk => rfl
  have htreerun : e.change (some (ofNode (tree <$> n))) = ((e'.run n).map (Node.map tree)).map ofNode := by
    rw [change_ofNode, ← htree]
    exact congrArg (Option.map ofNode) (Edit.run_map e' (fun cs => rfl) htext)
  have hvald' : e'.isValid = true := by
    rw [← htree] at hvald
    cases e' <;> first | rfl | exact hvald
  rw [descend_of_focus e.change hfoc, hcell, bind_some, hvalrun, show e.change (some (Trees.node (tree <$> n))) = _ from htreerun]
  cases hrun : e'.run n with
  | none => exact Rel.none
  | some n' =>
    refine Rel.some ⟨rfl, ?_, ?_⟩
    · rw [length_set]
      exact hbrng.length_le
    obtain ⟨texts, hpts⟩ := Edit.run_parts hvald' hrun
    have hcnt : ∀ r, (refsOf n').count r ≤ (refsOf n).count r + (e'.items.flatMap Kid.refs).count r := by
      intro r
      have hle := count_of_parts hpts r
      have htexts : (texts.map (Strings.ofText : Text → JsonKid)).flatMap Kid.refs = [] := by
        rw [flatMap_eq_nil_iff]
        intro k hk
        obtain ⟨cs, -, rfl⟩ := mem_map.mp hk
        rfl
      rw [flatMap_append, flatMap_append, htexts, append_nil, count_append] at hle
      exact hle
    have hfresh : ∀ r, K r → (e'.items.flatMap Kid.refs).count r = 0 := by
      intro r hr
      refine count_eq_zero.mpr fun hmem => ?_
      exact absurd (hKlen r hr) (not_lt.mpr (hbrng.fresh r hmem))
    refine hlift O _ _ (x :: refsOf n') ?_
    rw [hcells]
    refine Change.write (F := Node) hOx hun (hKn x mem_cons_self) hKlen (fun _ _ => Iff.rfl) ?_ ?_ ?_
    · intro k hk
      rcases mem_append.mp (hpts.subset hk) with hk | hk
      · rcases mem_append.mp hk with hk | hk
        · exact (hkids k hk).append cells
        · exact hcells ▸ hbrng.holds k hk
      · obtain ⟨cs, -, rfl⟩ := mem_map.mp hk
        exact Holds.atom _
    · intro r hr _
      have := hcnt r
      have := hfresh r hr
      omega
    · intro r hr hOr
      have hle := hcnt r
      have hone := nodup_iff_count_le_one.mp hbrng.nodup r
      have hzero : (refsOf n).count r = 0 := count_eq_zero.mpr fun hmem => hr (hKn r (mem_cons_of_mem _ hmem))
      omega

/-- A valid operation replaces the value or edits a container. -/
theorem edit?_of_valid {op : Op} (h : op.isValid = true) :
    (∃ value, op = .r value) ∨ ∃ path e, edit? op = some (path, e) ∧ e.isValid = true := by
  have hlast : ∀ {path : Path}, (!path.isEmpty && path.isSafe) = true → ∃ key, path.getLast? = some key := by
    intro path hpath
    cases path with
    | nil => cases hpath
    | cons seg path => exact ⟨_, getLast?_eq_some_getLast (cons_ne_nil seg path)⟩
  cases op with
  | r value => exact Or.inl ⟨value, rfl⟩
  | s path value | d path | a path sfx | t path cnt =>
    obtain ⟨key, hkey⟩ := hlast h
    exact Or.inr ⟨_, _, by rw [edit?, hkey]; rfl, rfl⟩
  | p path idx rm its => exact Or.inr ⟨_, _, rfl, rfl⟩
  | m path perm => exact Or.inr ⟨_, _, rfl, (Bool.and_eq_true_iff.mp h).2⟩

theorem applyOp_of_edit? {op : Op} (hvald : op.isValid = true) (h : edit? op = some (path, e)) :
    applyOp heap root op = (resolve heap root path).bind fun r =>
      (heap[r]?).bind fun n => ((allocEdit heap e).2.run n).map fun n => ((allocEdit heap e).1.set r n, root) := by
  cases op with
  | r value => cases h
  | s _ _ | d _ | a _ _ | t _ _ | p _ _ _ _ | m _ _ =>
    unfold applyOp
    rw [if_pos hvald]
    dsimp only
    rw [h]
    rfl

/-- A value that replaces the whole is made of new cells. -/
theorem alloc_applied (hO : Uniform O heap) (hKlen : ∀ r, K r → r < heap.length) (refs : List Nat) (value' : Json) :
    ∃ refs', Change (F := Node) K O O heap (alloc heap value').1 refs (alloc heap value').2 value' refs' := by
  obtain ⟨k, hval, htree, hbrng⟩ := alloc_spec heap hO value'
  have hfresh : ∀ r ∈ k.refs, heap.length ≤ r := fun r hr => hbrng.fresh r (by simpa using hr)
  have hnd : k.refs.Nodup := by simpa using hbrng.nodup
  refine ⟨k.refs, ?_⟩
  constructor
  case holds =>
    rw [hval]
    exact htree ▸ hbrng.holds k mem_cons_self
  case unique => exact fun r _ => nodup_iff_count_le_one.mp hnd r
  case keeps =>
    intro r hr _
    obtain ⟨cells, hcell⟩ := hbrng.grown
    rw [hcell]
    exact getElem?_append_left (hKlen r hr)
  case owns => exact fun _ _ => Iff.rfl
  case count =>
    intro r hr _
    have hzero : k.refs.count r = 0 := count_eq_zero.mpr fun hmem => absurd (hKlen r hr) (not_lt.mpr (hfresh r hmem))
    omega

/-- **An operation is applied in place** as it is to the value, where its path leads through the program's own. -/
theorem applyOp_applied (op : Op) (h : Holds (F := Node) O heap root value refs) (hu : Unique O refs)
    (hO : Uniform O heap) (hK : ∀ r ∈ refs, K r) (hKlen : ∀ r, K r → r < heap.length)
    (hreach : ∀ path e x, edit? op = some (path, e) → resolve heap root path = some x → Reaches (F := Node) O heap root path x) :
    Option.Rel (fun s value' => heap.length ≤ s.1.length ∧ ∃ refs', Change (F := Node) K O O heap s.1 refs s.2 value' refs')
      (applyOp heap root op) (op.applyWith Json.accepts value) := by
  by_cases hvald : op.isValid = true
  · rw [Op.applyWith, if_pos hvald]
    rcases edit?_of_valid hvald with ⟨value', rfl⟩ | ⟨path, e, hedit, hevalid⟩
    · rw [applyOp, if_pos hvald]
      have hgrow : heap.length ≤ (alloc heap value').1.length := by
        obtain ⟨k, -, -, hbrng⟩ := alloc_spec heap hO value'
        exact hbrng.length_le
      exact Rel.some ⟨hgrow, alloc_applied hO hKlen refs value'⟩
    · rw [applyOp_of_edit? hvald hedit, effect_eq hedit]
      cases hpath : resolve heap root path with
      | none =>
        rw [descend_of_not_resolved e h hpath]
        exact Rel.none
      | some x =>
        rw [bind_some]
        have hrel := editAt_applied h hu hO hK hKlen (hreach path e x hedit hpath) hevalid
        generalize (heap[x]?).bind _ = run at hrel
        generalize descend Json.accepts path e.change (some value) = result at hrel
        cases hrel with
        | none => exact Rel.none
        | @some s value' hs =>
          obtain ⟨hroot, hgrow, refs', hchg⟩ := hs
          exact Rel.some ⟨hgrow, refs', hroot ▸ hchg⟩
  · unfold Op.applyWith applyOp
    rw [if_neg hvald, if_neg hvald]
    exact Rel.none

end InPlace

/-! ## One operation of a replay -/

/-- A replay: its value, and the containers it may change. -/
structure Replay.Stands (s : Replay) (value : Json) (refs : List Nat) : Prop where
  holds : Holds (F := Node) (· ∈ s.owned) s.heap s.root value refs
  unique : Unique (· ∈ s.owned) refs
  owned_lt : ∀ r ∈ s.owned, r < s.heap.length

/-- What a step of a replay does: the value is another, and cells that were there and not the replay's own stay. -/
structure Stepped (s s' : Replay) (value' : Json) : Prop where
  stands : ∃ refs', s'.Stands value' refs'
  keeps : ∀ r < s.heap.length, r ∉ s.owned → s'.heap[r]? = s.heap[r]?
  foreign : ∀ r < s.heap.length, r ∉ s.owned → r ∉ s'.owned

section Step

variable {s s' : Replay} {value value' : Json} {refs refs' : List Nat}

theorem Replay.Stands.uniform (h : s.Stands value refs) : Uniform (· ∈ s.owned) s.heap :=
  fun r _ hr _ hmem => absurd (h.owned_lt r hmem) (not_lt.mpr hr)

/-- A change to a replay's value is a step. -/
theorem Stepped.of_change
    (h : Change (F := Node) (· < s.heap.length) (· ∈ s.owned) (· ∈ s'.owned) s.heap s'.heap refs s'.root value' refs')
    (howned : ∀ r ∈ s'.owned, r < s'.heap.length) : Stepped s s' value' where
  stands := ⟨refs', h.holds, h.unique, howned⟩
  keeps r hr hnot := h.keeps r hr (Or.inl hnot)
  foreign r hr hnot hmem := hnot ((h.owns r hr).mp hmem)

variable {path : Path} {sub : Json} {rebuild : Json → Json}

/-- **The general path**: copy along the path, then apply in place. -/
theorem copyAndApply_applied {op : Op} (h : s.Stands value refs) (hvald : op.isValid = true) (hedit : edit? op = some (path, e)) :
    Option.Rel (fun s' value' => Stepped s s' value') (copyAndApply s op) (op.applyWith Json.accepts value) := by
  rw [copyAndApply, hedit, bind_some]
  dsimp only
  by_cases hfoc : ∃ m rebuild, Focus (F := Node) path value (ofNode m) rebuild
  · obtain ⟨m, rebuild, hfoc⟩ := hfoc
    obtain ⟨s₁, tgt, hrun, hcop⟩ := copyAlong_copied reads_child? h.holds h.unique h.owned_lt hfoc
    obtain ⟨refs₁, hchg⟩ := hcop.change
    have huniform : Uniform (· ∈ s₁.owned) s₁.heap := fun r _ hr _ hmem => absurd (hcop.owned_lt r hmem) (not_lt.mpr hr)
    have hrel := applyOp_applied (K := (· < s₁.heap.length)) op hchg.holds hchg.unique huniform
      hchg.holds.lt_length (fun r hr => hr) fun path' e' x hedit' hpath => by
        cases some.inj (hedit.symm.trans hedit')
        rw [resolve_of_reaches hcop.reaches] at hpath
        exact some.inj hpath ▸ hcop.reaches
    rw [copyContainers, hrun, map_some, bind_some]
    generalize applyOp s₁.heap s₁.root op = run at hrel
    generalize op.applyWith Json.accepts value = result at hrel
    cases hrel with
    | none => exact Rel.none
    | @some r value' hr =>
      obtain ⟨hgrow, refs₂, hchg₂⟩ := hr
      refine Rel.some (Stepped.of_change (hchg.trans hchg₂ fun r hr => lt_of_lt_of_le hr hcop.grows) ?_)
      exact fun r hr => lt_of_lt_of_le (hcop.owned_lt r hr) hgrow
  · -- neither finds a container
    have hcopy : copyContainers s path = none := by
      cases hrun : copyContainers s path with
      | none => rfl
      | some s₁ => exact absurd (focus_of_copyContainers h.holds h.unique h.owned_lt hrun) hfoc
    have hresolve : resolve s.heap s.root path = none := by
      cases hpath : resolve s.heap s.root path with
      | none => rfl
      | some x => exact absurd (focus_of_resolve h.holds hpath) hfoc
    rw [hcopy, Op.applyWith, if_pos hvald, effect_eq hedit, descend_of_not_resolved e h.holds hresolve]
    exact Rel.none

/-! ### The append fast path -/

/-- A path in two parts leads where the second leads from the first. -/
theorem focus_append {path' : Path} {sub' : Json} {rebuild' : Json → Json}
    (h : Focus (F := Node) (path ++ path') value sub rebuild) (h' : Focus (F := Node) path value sub' rebuild') :
    ∃ rest, Focus (F := Node) path' sub' sub rest := by
  induction h' generalizing rebuild with
  | here t => exact ⟨rebuild, h⟩
  | @down n seg t sub' path rebuild' hch hfoc ih =>
    generalize hval : (Trees.node n : Json) = whole at h
    cases h with
    | @down n₂ _ t₂ _ _ _ hch₂ hfoc₂ =>
      obtain rfl : n = n₂ := ofNode_injective hval
      obtain rfl : t = t₂ := some.inj (hch.symm.trans hch₂)
      exact ih hfoc₂

theorem focus_nil (h : Focus (F := Node) [] value sub rebuild) : value = sub := by
  cases h
  rfl

/-- A path in two parts leads somewhere by its first part. -/
theorem focus_init {key : Seg}
    (h : Focus (F := Node) (path ++ [key]) value sub rebuild) : ∃ m rebuild', Focus (F := Node) path value (ofNode m) rebuild' := by
  induction path generalizing value rebuild with
  | nil =>
    cases h with
    | @down n _ _ _ _ _ hch hfoc => exact ⟨n, fun value => value, Focus.here _⟩
  | cons seg path ih =>
    cases h with
    | down hch hfoc =>
      obtain ⟨m, rebuild', hrest⟩ := ih hfoc
      exact ⟨m, _, Focus.down hch hrest⟩

/-- A plain walk follows the path in the value. -/
theorem plainWalk_focus {heap : Heap} {v w : Val} (h : Holds (F := Node) O heap v value refs)
    (hwalk : plainWalk heap v path = some w) :
    ∃ (k : JsonKid) (rebuild : Json → Json), k.val = w ∧ Holds (F := Node) O heap k.val k.tree k.refs ∧
      Focus (F := Node) path value k.tree rebuild := by
  induction path generalizing v value refs with
  | nil =>
    have hw : v = w := by cases v <;> exact some.inj hwalk
    exact ⟨⟨v, value, refs⟩, fun value => value, hw, h, Focus.here value⟩
  | cons seg path ih =>
    cases v with
    | atom a => cases hwalk
    | ref r =>
      obtain ⟨n, hcell, rfl, rfl, -, hkids⟩ := h.node_inv
      rw [plainWalk, hcell, bind_some] at hwalk
      -- either kind of container is read by its own property
      obtain ⟨u, hch, hwalk⟩ : ∃ u, (val <$> n).child? seg = some u ∧ plainWalk heap u path = some w := by
        cases n with
        | arr kids =>
          cases seg with
          | key k => cases hwalk
          | index i => exact bind_eq_some_iff.mp hwalk
        | obj kids =>
          cases seg with
          | index i => cases hwalk
          | key k =>
            change (if reservedSegments.contains k then none else _) = some w at hwalk
            split at hwalk
            · cases hwalk
            · exact bind_eq_some_iff.mp hwalk
      obtain ⟨k, hk, rfl⟩ := map_eq_some_iff.mp ((child?_map (F := Node) val n seg).symm.trans hch)
      obtain ⟨k', rebuild, hval, hholds, hfoc⟩ := ih (hkids k (mem_elems_of_child? (F := Node) hk)) hwalk
      refine ⟨k', _, hval, hholds, Focus.down ?_ hfoc⟩
      rw [child?_map]
      exact congrArg (Option.map tree) hk

/-- What the fast path finds: an array that is not the replay's own, which ends at `index`. -/
theorem appendTarget_spec {idx : Nat} {xs : List Val} (h : s.Stands value refs) (hfnd : appendTarget s path idx = some xs) :
    ∃ (kids : List JsonKid) (rebuild : Json → Json), xs = kids.map Kid.val ∧ idx = xs.length ∧
      (∀ k ∈ kids, Holds (F := Node) (· ∈ s.owned) s.heap k.val k.tree k.refs) ∧
      (∀ r ∈ refsOf (Node.arr kids), r ∉ s.owned) ∧ Focus (F := Node) path value (.arr (kids.map Kid.tree)) rebuild := by
  obtain ⟨w, hwalk, hfnd⟩ := bind_eq_some_iff.mp hfnd
  obtain ⟨k, rebuild, rfl, hholds, hfoc⟩ := plainWalk_focus h.holds hwalk
  cases hval : k.val with
  | atom a =>
    rw [hval] at hfnd
    cases hfnd
  | ref r =>
    rw [hval] at hfnd hholds
    obtain ⟨n, hcell, htree, hrefs, hclo, hkids⟩ := hholds.node_inv
    dsimp only at hfnd
    rw [hcell, bind_some] at hfnd
    cases n with
    | obj kids => cases hfnd
    | arr kids =>
      change (if r ∉ s.owned ∧ idx = (kids.map val).length then some (kids.map val) else none) = some xs at hfnd
      split at hfnd
      · rename_i hcond
        cases hfnd
        rw [htree] at hfoc
        exact ⟨kids, rebuild, rfl, hcond.2, hkids, hclo hcond.1, hfoc⟩
      · cases hfnd

/-- The array with the items behind its elements, in a cell of the replay's own. -/
theorem appended_holds {kids : List JsonKid} (its : List Json) (h : s.Stands value refs)
    (hkids : ∀ k ∈ kids, Holds (F := Node) (· ∈ s.owned) s.heap k.val k.tree k.refs)
    (hforn : ∀ r ∈ refsOf (Node.arr kids), r ∉ s.owned) :
    ∃ refs', Holds (F := Node) (· ∈ (allocArr s.heap its).1.length :: s.owned)
        ((allocArr s.heap its).1 ++ [.arr (kids.map Kid.val ++ (allocArr s.heap its).2)])
        (.ref (allocArr s.heap its).1.length) (.arr (kids.map Kid.tree ++ its))
        ((allocArr s.heap its).1.length :: refs') ∧
      (∀ r ∈ refs', r < (allocArr s.heap its).1.length ∧ r ∉ s.owned) ∧ s.heap.length ≤ (allocArr s.heap its).1.length ∧
      ∀ r < s.heap.length, (allocArr s.heap its).1[r]? = s.heap[r]? := by
  obtain ⟨new, hvals, htrees, hbrng⟩ := allocArr_spec s.heap h.uniform its
  obtain ⟨cells, hcells⟩ := hbrng.grown
  have hlen := hbrng.length_le
  generalize hgrown : (allocArr s.heap its).1 = grown at *
  have hold : ∀ k ∈ kids, ∀ r ∈ k.refs, r < s.heap.length := fun k hk => (hkids k hk).lt_length
  have hnew : ∀ k ∈ new, ∀ r ∈ k.refs, r < grown.length ∧ r ∉ s.owned := by
    intro k hk r hr
    refine ⟨(hbrng.holds k hk).lt_length r hr, fun hmem => ?_⟩
    exact absurd (h.owned_lt r hmem) (not_lt.mpr (hbrng.fresh r (mem_flatMap.mpr ⟨k, hk, hr⟩)))
  have hpts : ∀ r ∈ refsOf (Node.arr (kids ++ new)), r < grown.length ∧ r ∉ s.owned := by
    intro r hr
    obtain ⟨k, hk, hrk⟩ := mem_refsOf.mp hr
    rcases mem_append.mp hk with hk | hk
    · exact ⟨lt_of_lt_of_le (hold k hk r hrk) hlen, hforn r (mem_refsOf.mpr ⟨k, hk, hrk⟩)⟩
    · exact hnew k hk r hrk
  have hown : ∀ r < grown.length, (r ∈ grown.length :: s.owned ↔ r ∈ s.owned) := by
    intro r hr
    rw [mem_cons, or_iff_right (Nat.ne_of_lt hr)]
  have hcell : val <$> Node.arr (kids ++ new) = .arr (kids.map val ++ (allocArr s.heap its).2) := by
    rw [hvals]
    exact congrArg Node.arr map_append
  have htree : ofNode (tree <$> Node.arr (kids ++ new)) = .arr (kids.map tree ++ its) := by
    rw [← htrees]
    exact congrArg Json.arr map_append
  refine ⟨refsOf (Node.arr (kids ++ new)), ?_, hpts, hlen, fun r hr => ?_⟩
  · rw [← htree, ← hcell]
    refine Holds.node (F := Node) grown.length (.arr (kids ++ new)) (by simp) (fun hnot => absurd mem_cons_self hnot) ?_
    intro k hk
    rcases mem_append.mp hk with hk | hk
    · refine ((hkids k hk).frame (fun r hr => ?_) fun r hr => ?_)
      · have := hold k hk r hr
        rw [getElem?_append_left (by omega), hcells, getElem?_append_left this]
      · exact hown r (lt_of_lt_of_le (hold k hk r hr) hlen)
    · exact ((hbrng.holds k hk).append _).frame (fun _ _ => rfl) fun r hr => hown r (hnew k hk r hr).1
  · rw [hcells, getElem?_append_left hr]

/-- **The fast path appends as the general path does.** -/
theorem appendCopy_applied {idx : Nat} {its : List Json} {xs : List Val} (h : s.Stands value refs)
    (hvald : (Op.p path idx 0 its).isValid = true) (hfnd : appendTarget s path idx = some xs) :
    Option.Rel (fun s' value' => Stepped s s' value') (appendCopy s path xs its)
      ((Op.p path idx 0 its).applyWith Json.accepts value) := by
  obtain ⟨kids, rebuild, rfl, rfl, hkids, hforn, hfoc⟩ := appendTarget_spec h hfnd
  obtain ⟨ps, hholds, hpts, hgrown, hold⟩ := appended_holds its h hkids hforn
  have hedit : edit? (Op.p path (kids.map val).length 0 its) = some (path, .splice (kids.map val).length 0 its) := rfl
  have hchg : (Edit.splice (kids.map val).length 0 its).change (some (.arr (kids.map tree))) = some (.arr (kids.map tree ++ its)) := by
    have hrun := change_ofNode (.splice (kids.map val).length 0 its) (.arr (kids.map tree))
    rw [Edit.run, splice_eq] at hrun
    refine hrun.trans ?_
    rw [take_of_length_le (by simp), drop_eq_nil_of_le (by simp), append_nil]
    rfl
  rw [Op.applyWith, if_pos hvald, effect_eq hedit]
  rcases hpair : allocArr s.heap its with ⟨grown, vs⟩
  rw [hpair] at hholds hpts hgrown hold
  dsimp only at hholds hpts hgrown hold
  let a := grown.length
  let s₂ : Replay := ⟨grown ++ [.arr (kids.map val ++ vs)], s.root, a :: s.owned⟩
  have hs₂len : s₂.heap.length = a + 1 := by simp [s₂, a]
  have hs₂owned : ∀ r ∈ s₂.owned, r < s₂.heap.length := by
    intro r hr
    rcases mem_cons.mp hr with rfl | hr
    · omega
    · have := h.owned_lt r hr
      omega
  have hs₂cells : ∀ r < s.heap.length, s₂.heap[r]? = s.heap[r]? := by
    intro r hr
    rw [getElem?_append_left (by omega), hold r hr]
  have hs₂own : ∀ r < s.heap.length, (r ∈ s₂.owned ↔ r ∈ s.owned) := by
    intro r hr
    rw [mem_cons, or_iff_right (by omega)]
  -- of the appended array's cells only the first is the replay's own
  have hpts₂ : ∀ r ∈ ps, r ≠ a ∧ r ∉ s₂.owned := by
    intro r hr
    obtain ⟨hlt, hnot⟩ := hpts r hr
    have hne : r ≠ a := Nat.ne_of_lt hlt
    exact ⟨hne, fun hmem => (mem_cons.mp hmem).elim hne hnot⟩
  rw [appendCopy, hpair]
  dsimp only
  cases hlast : path.getLast? with
  | none =>
    obtain rfl := getLast?_eq_none_iff.mp hlast
    obtain rfl := focus_nil hfoc
    rw [descend, hchg]
    refine Rel.some ⟨⟨a :: ps, hholds, fun r hr => ?_, hs₂owned⟩, fun r hr _ => hs₂cells r hr, fun r hr hnot hmem => hnot ((hs₂own r hr).mp hmem)⟩
    rw [count_cons, count_eq_zero.mpr fun hmem => (hpts₂ r hmem).2 hr]
    split <;> omega
  | some key =>
    obtain ⟨init, rfl⟩ := getLast?_eq_some_iff.mp hlast
    rw [dropLast_concat]
    have hunique₂ : Unique (· ∈ s₂.owned) refs := by
      intro r hr
      by_cases hlt : r < s.heap.length
      · exact h.unique r ((hs₂own r hlt).mp hr)
      · rw [count_eq_zero.mpr fun hmem => hlt (h.holds.lt_length r hmem)]
        omega
    have hholds₂ : Holds (F := Node) (· ∈ s₂.owned) s₂.heap s₂.root value refs :=
      h.holds.frame (fun r hr => hs₂cells r (h.holds.lt_length r hr)) fun r hr => hs₂own r (h.holds.lt_length r hr)
    obtain ⟨m, rebuild', hinit⟩ := focus_init hfoc
    obtain ⟨s₃, tgt, hrun, hcop⟩ := copyAlong_copied (s := s₂) reads_child? hholds₂ hunique₂ hs₂owned hinit
    obtain ⟨refs₃, hchg₃⟩ := hcop.change
    have haowned : a ∈ s₂.owned := mem_cons_self
    have halt : a < s₂.heap.length := by omega
    have ha : a ∉ refs₃ := by
      intro hmem
      have := h.holds.lt_length a (hchg₃.mem halt haowned hmem)
      omega
    obtain ⟨n₃, rebuild₃, hcell₃, hown₃, hkids₃, hu₃, hK₃, hfoc₃, hlift⟩ :=
      hchg₃.holds.along (K := fun r => r < s₃.heap.length ∧ r ≠ a) hchg₃.unique
        (fun r hr => ⟨hchg₃.holds.lt_length r hr, fun heq => ha (heq ▸ hr)⟩) hcop.reaches
    obtain ⟨k₃, hk₃, htree₃⟩ : ∃ k₃, n₃.child? key = some k₃ ∧ k₃.tree = .arr (kids.map tree) := by
      obtain ⟨rest, hrest⟩ := focus_append hfoc hfoc₃
      obtain ⟨k₃, hk₃, bel, hbel⟩ := focus_below hrest
      exact ⟨k₃, hk₃, focus_nil hbel⟩
    have hfocuskey : Focus (F := Node) [key] (ofNode (tree <$> n₃)) (.arr (kids.map tree))
        fun value => Trees.node (put (tree <$> n₃) key value) := by
      refine Focus.down ?_ (Focus.here _)
      rw [child?_map, ← htree₃]
      exact congrArg (Option.map tree) hk₃
    rw [descend_append, descend_of_focus _ hfoc₃, show (Trees.node (tree <$> n₃) : Json) = ofNode (tree <$> n₃) from rfl,
      descend_of_focus _ hfocuskey, hchg, copyContainers, hrun]
    simp only [map_some, bind_some, resolve_of_reaches hcop.reaches, hcell₃]
    obtain ⟨rest, hrestmem, hcnt, hput⟩ := count_refsOf_put (F := Node) hk₃
    obtain ⟨hcnt', helems⟩ := hput ⟨.ref a, .arr (kids.map tree ++ its), a :: ps⟩
    have hpts₃ : ∀ r ∈ ps, r ∉ s₃.owned := by
      intro r hr hmem
      have hlt : r < s₂.heap.length := by
        have := (hpts r hr).1
        omega
      exact (hpts₂ r hr).2 ((hchg₃.owns r hlt).mp hmem)
    have harest : (rest.flatMap Kid.refs).count a = 0 := by
      have hzero : (refsOf n₃).count a = 0 := count_eq_zero.mpr fun hmem => (hK₃ a (mem_cons_of_mem _ hmem)).2 rfl
      rw [hcnt] at hzero
      omega
    let new : JsonKid := ⟨.ref a, .arr (kids.map tree ++ its), a :: ps⟩
    have hwrite : Change (F := Node) (fun r => r < s₃.heap.length ∧ r ≠ a) (· ∈ s₃.owned) (· ∈ s₃.owned) s₃.heap
        ((s₃.heap ++ []).set tgt (val <$> put n₃ key new)) (tgt :: refsOf n₃) (.ref tgt)
        (Trees.node (tree <$> put n₃ key new)) (tgt :: refsOf (put n₃ key new)) := by
      refine Change.write (F := Node) hown₃ hu₃ (hK₃ tgt mem_cons_self) (fun r hr => hr.1) (fun _ _ => Iff.rfl) ?_ ?_ ?_
      · intro k' hk'
        rw [append_nil]
        rcases helems k' hk' with rfl | hk'
        · refine hholds.frame (fun r hr => ?_) fun r hr => ?_
          · have hlt : r < s₂.heap.length := hholds.lt_length r hr
            refine hchg₃.keeps r hlt ?_
            rcases mem_cons.mp hr with rfl | hr
            · exact Or.inr fun hmem => absurd (h.holds.lt_length _ hmem) (by omega)
            · exact Or.inl (hpts₂ r hr).2
          · exact hchg₃.owns r (hholds.lt_length r hr)
        · exact hkids₃ k' (hrestmem k' hk')
      · intro r hr hO
        have hzero : (a :: ps).count r = 0 := by
          refine count_eq_zero.mpr fun hmem => ?_
          rcases mem_cons.mp hmem with rfl | hmem
          · exact hr.2 rfl
          · exact hpts₃ r hmem hO
        rw [hcnt, hcnt', hzero]
        omega
      · intro r hr hO
        have hra : r = a := by
          by_contra hne
          exact hr ⟨hcop.owned_lt r hO, hne⟩
        have hzero : ps.count a = 0 := count_eq_zero.mpr fun hmem => (hpts₂ a hmem).1 rfl
        rw [hra, hcnt', harest, count_cons_self, hzero]
    rw [append_nil, ← put_map, ← put_map] at hwrite
    obtain ⟨refs', hfinal⟩ := hlift _ _ _ _ hwrite
    refine Rel.some ⟨⟨refs', hfinal.holds, hfinal.unique, fun r hr => ?_⟩, fun r hr hnot => ?_, fun r hr hnot hmem => ?_⟩
    · show r < (set _ _ _).length
      rw [length_set]
      exact hcop.owned_lt r hr
    · have hnot₂ : r ∉ s₂.owned := fun hmem => hnot ((hs₂own r hr).mp hmem)
      have hlt₂ : r < s₂.heap.length := by omega
      have hnot₃ : r ∉ s₃.owned := fun hmem => hnot₂ ((hchg₃.owns r hlt₂).mp hmem)
      have hK : r < s₃.heap.length ∧ r ≠ a := ⟨lt_of_lt_of_le hlt₂ hcop.grows, by omega⟩
      exact (hfinal.keeps r hK (Or.inl hnot₃)).trans ((hchg₃.keeps r hlt₂ (Or.inl hnot₂)).trans (hs₂cells r hr))
    · have hlt₂ : r < s₂.heap.length := by omega
      exact hnot ((hs₂own r hr).mp ((hchg₃.owns r hlt₂).mp hmem))

/-- **One operation of a replay** does to the objects what it does to the value. -/
theorem replayOp_applied (op : Op) (h : s.Stands value refs) :
    Option.Rel (fun s' value' => Stepped s s' value') (replayOp s op) (op.applyWith Json.accepts value) := by
  by_cases hvald : op.isValid = true
  · rcases edit?_of_valid hvald with ⟨value', rfl⟩ | ⟨path, e, hedit, -⟩
    · rw [replayOp, if_pos hvald, Op.applyWith, if_pos hvald]
      obtain ⟨refs', hchg⟩ := alloc_applied (K := (· < s.heap.length)) h.uniform (fun r hr => hr) refs value'
      refine Rel.some (Stepped.of_change hchg fun r hr => ?_)
      obtain ⟨k, -, -, hbrng⟩ := alloc_spec s.heap h.uniform value'
      exact lt_of_lt_of_le (h.owned_lt r hr) hbrng.length_le
    · have hgeneral := copyAndApply_applied h hvald hedit
      cases op with
      | r value' => cases hedit
      | s _ _ | d _ | a _ _ | t _ _ | m _ _ =>
        unfold replayOp
        rw [if_pos hvald]
        exact hgeneral
      | p path idx rm its =>
        unfold replayOp
        rw [if_pos hvald]
        dsimp only
        cases htgt : if rm = 0 then appendTarget s path idx else none with
        | none => exact hgeneral
        | some xs =>
          split at htgt
          · rename_i hremove
            subst hremove
            exact appendCopy_applied h hvald htgt
          · cases htgt
  · unfold Op.applyWith replayOp
    rw [if_neg hvald, if_neg hvald]
    exact Rel.none

end Step

/-! ## Trusted operations -/

section Trusted

variable {α : Type}

theorem setSlots_eq (slots : List (Option α)) (st : Nat) (its : List α) (h : st + its.length ≤ slots.length) :
    setSlots slots st its = slots.take st ++ its.map some ++ slots.drop (st + its.length) := by
  induction its generalizing slots st with
  | nil => simp [setSlots]
  | cons a its ih =>
    rw [length_cons] at h
    have hlt : st < slots.length := by omega
    rw [setSlots, setSlot, if_pos hlt, ih _ _ (by rw [length_set]; omega), set_eq_take_append_cons_drop, if_pos hlt]
    have hlen : (slots.take st).length = st := by rw [length_take, min_eq_left hlt.le]
    have htake : (slots.take st ++ some a :: slots.drop (st + 1)).take (st + 1) = slots.take st ++ [some a] := by
      rw [take_append, hlen, take_of_length_le (by omega)]
      simp
    have hdrop : (slots.take st ++ some a :: slots.drop (st + 1)).drop (st + 1 + its.length) =
        slots.drop (st + (its.length + 1)) := by
      rw [drop_append, hlen, drop_eq_nil_of_le (by omega), nil_append,
        show st + 1 + its.length - st = its.length + 1 by omega, drop_succ_cons, drop_drop]
      congr 1
      omega
    rw [htake, hdrop, map_cons, length_cons]
    simp

theorem mapM_some (xs : List α) : ((xs.map some).mapM fun slot => slot) = some xs := by
  induction xs with
  | nil => rfl
  | cons a xs ih => rw [map_cons, mapM_cons, ih]; rfl

/-- **In range, the trusted splice is the splice.** -/
theorem spliceTrusted_eq {xs : List α} {st rm : Nat} (its : List α) (h : st + rm ≤ xs.length) :
    spliceTrusted xs st rm its = some (xs.take st ++ its ++ xs.drop (st + rm)) := by
  have hrest : (xs.drop (st + rm)).length = xs.length - (st + rm) := length_drop
  -- the rest stands where it goes, behind the place for the items
  have hset : ∀ slots : List (Option α), st + its.length ≤ slots.length → slots.take st = (xs.take st).map some →
      ((setSlots (slots.take (st + its.length) ++ (xs.drop (st + rm)).map some) st its).mapM fun slot => slot) =
        some (xs.take st ++ its ++ xs.drop (st + rm)) := by
    intro slots hlen htake
    have hplace : (slots.take (st + its.length)).length = st + its.length := by
      rw [length_take, min_eq_left hlen]
    have hbef : (slots.take (st + its.length) ++ (xs.drop (st + rm)).map some).take st = (xs.take st).map some := by
      rw [take_append_of_le_length (by omega), take_take, min_eq_left (by omega), htake]
    have hbehind : (slots.take (st + its.length) ++ (xs.drop (st + rm)).map some).drop (st + its.length) =
        (xs.drop (st + rm)).map some := by
      exact drop_left' hplace
    rw [setSlots_eq _ st its (by rw [length_append, hplace]; omega), hbef, hbehind, ← map_append, ← map_append, mapM_some]
  have hmoved : ∀ slots : List (Option α), slots.take xs.length = xs.map some →
      st + its.length + (xs.length - (st + rm)) ≤ slots.length →
      copyWithin slots (st + its.length) (st + rm) xs.length =
        slots.take (st + its.length) ++ (xs.drop (st + rm)).map some ++
          slots.drop (st + its.length + (xs.length - (st + rm))) := by
    intro slots hxs hlen
    have hle : xs.length ≤ slots.length := by
      have := congrArg length hxs
      rw [length_take, length_map] at this
      omega
    rw [copyWithin]
    rw [min_eq_left (by omega : st + its.length ≤ slots.length), min_eq_left (by omega : st + rm ≤ slots.length),
      min_eq_left hle, min_eq_left (by omega), map_drop, ← hxs, drop_take]
  rw [spliceTrusted, length_map]
  by_cases hmore : rm < its.length
  · -- longer: the rest is moved up
    let longer := xs.map some ++ replicate (its.length - rm) none
    have hlen : longer.length = xs.length + (its.length - rm) := by simp [longer]
    have hxs : longer.take xs.length = xs.map some := by
      rw [take_append_of_le_length (by simp), take_of_length_le (by simp)]
    have htake : longer.take st = (xs.take st).map some := by
      rw [take_append_of_le_length (by rw [length_map]; omega), map_take]
    have hend : longer.drop (st + its.length + (xs.length - (st + rm))) = [] := drop_eq_nil_of_le (by omega)
    rw [if_pos hmore, bind_some, hmoved longer hxs (by omega), hend, append_nil]
    exact hset longer (by omega) htake
  · have hxs : (xs.map some).take xs.length = xs.map some := take_of_length_le (by simp)
    have hlen : (xs.map some : List (Option α)).length = xs.length := length_map _
    by_cases hless : its.length < rm
    · -- shorter: the rest is moved down, and the end is cut off
      have hcut : ((xs.map some).take (st + its.length) ++ (xs.drop (st + rm)).map some).length =
          xs.length - (rm - its.length) := by
        rw [length_append, length_take, length_map, length_map, hrest]
        omega
      rw [if_neg hmore, if_pos hless, if_neg (by omega), bind_some, hmoved _ hxs (by omega), ← hcut, take_left]
      exact hset _ (by omega) map_take.symm
    · have hsame : its.length = rm := by omega
      rw [if_neg hmore, if_neg hless, bind_some]
      have := hset (xs.map some) (by omega) map_take.symm
      rwa [hsame, map_drop, take_append_drop] at this

/-- A valid permutation reads every element. -/
theorem permuteTrusted_eq {xs : List α} {perm : List Nat} (hlen : xs.length = perm.length)
    (hvald : isPermutation perm = true) :
    permuteTrusted xs perm = some (perm.filterMap fun i => xs[i]?) := by
  rw [permuteTrusted, if_pos hlen]
  have hlt : ∀ i ∈ perm, i < xs.length := by
    intro i hi
    rw [hlen]
    exact of_decide_eq_true (all_eq_true.mp (Bool.and_eq_true_iff.mp hvald).1 i hi)
  clear hlen hvald
  induction perm with
  | nil => rfl
  | cons i perm ih =>
    obtain ⟨a, hi⟩ : ∃ a, xs[i]? = some a := ⟨_, getElem?_eq_getElem (hlt i mem_cons_self)⟩
    rw [mapM_cons, hi, ih fun j hj => hlt j (mem_cons_of_mem _ hj), filterMap_cons, hi]
    rfl

/-- What a trusted splice needs: it ends where the array does, at most. -/
def Edit.InRange : Edit α → Node α → Prop
  | splice index remove _, .arr xs => index + remove ≤ xs.length
  | _, _ => True

theorem reads_read : Reads Node.read := by
  intro n seg v h
  cases n with
  | arr xs =>
    cases seg with
    | key k => cases h
    | index i => exact h
  | obj m => exact h

variable {n : Node α} {key : Seg}

theorem read_of_child? {a : α} (h : n.child? key = some a) : n.read key = some a := by
  cases n with
  | arr xs =>
    cases key with
    | key k => cases h
    | index i => exact h
  | obj m => exact h

theorem define_eq (h : n.accepts key = true) (a : α) : n.define key a = some (n.put key a) := by
  cases n with
  | arr xs =>
    cases key with
    | key k => cases h
    | index i =>
      have hi : i ≤ xs.length := of_decide_eq_true h
      show (if i ≤ xs.length then _ else none) = _
      rw [if_pos hi]
  | obj m => rfl

/-- A string is read and written as by the operation that is checked. -/
theorem text_trusted [Strings α] {n' : Node α} (f : Text → Text)
    (h : (((n.child? key).bind Strings.text?).map fun cs => n.put key (Strings.ofText (f cs))) = some n') :
    (((n.read key).bind Strings.text?).bind fun cs => n.define key (Strings.ofText (f cs))) = some n' := by
  obtain ⟨cs, hcs, rfl⟩ := map_eq_some_iff.mp h
  obtain ⟨a, ha, htext⟩ := bind_eq_some_iff.mp hcs
  rw [read_of_child? ha, bind_some, htext, bind_some, define_eq (accepts_of_child? ha)]

/-- **What is checked and in range is done the same way unchecked.** -/
theorem Edit.runTrusted_eq [Strings α] {e : Edit α} {n' : Node α} (hvald : e.isValid = true) (hrng : e.InRange n)
    (h : e.run n = some n') : e.runTrusted n = some n' := by
  cases e with
  | assign key value =>
    rw [run] at h
    split at h
    · rename_i hacc
      rw [runTrusted, define_eq hacc, h]
    · cases h
  | delete key =>
    cases n with
    | arr xs =>
      cases key with
      | key k => cases h
      | index i =>
        rw [run] at h
        split at h
        · rename_i hi
          rw [runTrusted, spliceTrusted_eq [] (by omega), append_nil, map_some, ← eraseIdx_eq_take_drop_succ, h]
        · cases h
    | obj m => exact h
  | append key sfx => exact text_trusted (fun cs => cs ++ sfx) h
  | trim key cnt => exact text_trusted (fun cs => cs.drop cnt) h
  | splice index rm its =>
    cases n with
    | arr xs =>
      rw [run, splice_eq] at h
      rw [runTrusted, spliceTrusted_eq its hrng, map_some, h]
    | obj m => cases h
  | reorder perm =>
    cases n with
    | arr xs =>
      rw [run] at h
      split at h
      · rename_i hlen
        rw [runTrusted, permuteTrusted_eq hlen hvald, map_some, h]
      · cases h
    | obj m => cases h

end Trusted

/-- What is found where a path ends. -/
def valueAt (value : Json) (path : Path) : Option Json := path.foldlM (fun value seg => value.child? seg) value

/-- A splice ends where its array does, at most. -/
def SpliceInRange (value : Json) : Op → Prop
  | .p path index remove _ => ∀ xs, valueAt value path = some (.arr xs) → index + remove ≤ xs.length
  | _ => True

/-- Each splice of a batch is in range when its turn comes. -/
def SplicesInRange : Json → List Op → Prop
  | _, [] => True
  | value, op :: ops => SpliceInRange value op ∧ ∀ value', op.applyWith Json.accepts value = some value' → SplicesInRange value' ops

theorem valueAt_of_focus (h : Focus (F := Node) path value sub rebuild) : valueAt value path = some sub := by
  induction h with
  | here t => rfl
  | @down n seg t sub path rebuild hch hfoc ih =>
    have hch' : (ofNode n).child? seg = some t := (child?_ofNode n seg).trans hch
    show ((ofNode n).child? seg).bind (fun value => valueAt value path) = some sub
    rw [hch', bind_some, ih]

section TrustedStep

variable {s : Replay} {value value' : Json} {refs : List Nat} {op : Op}

theorem trustedOp_of_edit? (h : edit? op = some (path, e)) : trustedOp s op = (copyPath s path).bind fun (s, tgt) =>
      (s.heap[tgt]?).bind fun n => ((allocEdit s.heap e).2.runTrusted n).map fun n =>
        { s with heap := (allocEdit s.heap e).1.set tgt n } := by
  cases op with
  | r value => cases h
  | s _ _ | d _ | a _ _ | t _ _ | p _ _ _ _ | m _ _ =>
    unfold trustedOp
    dsimp only
    rw [h]
    rfl

/-- A splice that is in range of the value is in range of the array that stands for it. -/
theorem inRange_of_focus (heap : Heap) (hedit : edit? op = some (path, e)) (hrng : SpliceInRange value op)
    (hfoc : Focus (F := Node) path value (ofNode (Kid.tree <$> n)) rebuild) : (allocEdit heap e).2.InRange (Kid.val <$> n) := by
  cases op with
  | r _ => cases hedit
  | s _ _ | d _ | a _ _ | t _ _ =>
    obtain ⟨key, -, hpair⟩ := map_eq_some_iff.mp hedit
    cases hpair
    trivial
  | m _ _ =>
    cases hedit
    trivial
  | p _ idx rm its =>
    cases hedit
    cases n with
    | obj kids => trivial
    | arr kids =>
      have hle := hrng (kids.map tree) (valueAt_of_focus hfoc)
      rw [length_map] at hle
      show idx + rm ≤ (kids.map val).length
      rw [length_map]
      exact hle

/-- **One trusted operation** does what the operation does to the value, where that succeeds with its splice in range. -/
theorem trustedOp_applied (h : s.Stands value refs) (happd : op.applyWith Json.accepts value = some value')
    (hrng : SpliceInRange value op) : ∃ s', trustedOp s op = some s' ∧ Stepped s s' value' := by
  by_cases hvald : op.isValid = true
  · rcases edit?_of_valid hvald with ⟨value₁, rfl⟩ | ⟨path, e, hedit, hevalid⟩
    · have hrel := replayOp_applied (.r value₁) h
      rw [happd, replayOp, if_pos hvald] at hrel
      cases hrel with
      | some hstep => exact ⟨_, rfl, hstep⟩
    · rw [Op.applyWith, if_pos hvald, effect_eq hedit] at happd
      -- the path leads to a container, or the operation had failed
      obtain ⟨m, rebuild, hfoc⟩ : ∃ m rebuild, Focus (F := Node) path value (ofNode m) rebuild := by
        cases hpath : resolve s.heap s.root path with
        | none =>
          rw [descend_of_not_resolved e h.holds hpath] at happd
          cases happd
        | some x => exact focus_of_resolve h.holds hpath
      obtain ⟨s₁, tgt, hrun, hcop⟩ := copyAlong_copied reads_read h.holds h.unique h.owned_lt hfoc
      obtain ⟨refs₁, hchg⟩ := hcop.change
      have huniform : Uniform (· ∈ s₁.owned) s₁.heap := fun r _ hr _ hmem => absurd (hcop.owned_lt r hmem) (not_lt.mpr hr)
      have hrel := editAt_applied (K := (· < s₁.heap.length)) (e := e) hchg.holds hchg.unique huniform
        hchg.holds.lt_length (fun r hr => hr) hcop.reaches hevalid
      obtain ⟨n, _, hcell, -, -, -, -, hfoc₁, -⟩ := hchg.holds.along (K := (· < s₁.heap.length)) hchg.unique
        hchg.holds.lt_length hcop.reaches
      rw [happd, hcell, bind_some] at hrel
      cases hcells : (allocEdit s₁.heap e).2.run (val <$> n) with
      | none =>
        rw [hcells] at hrel
        cases hrel
      | some cells' =>
        rw [hcells] at hrel
        cases hrel with
        | some hs =>
          obtain ⟨-, hgrow, refs₂, hchg₂⟩ := hs
          have hvald' : (allocEdit s₁.heap e).2.isValid = true := by
            cases e <;> first | rfl | exact hevalid
          have htrusted := Edit.runTrusted_eq hvald' (inRange_of_focus s₁.heap hedit hrng hfoc₁) hcells
          refine ⟨{ s₁ with heap := (allocEdit s₁.heap e).1.set tgt cells' }, ?_, ?_⟩
          · rw [trustedOp_of_edit? hedit, copyPath, hrun, bind_some]
            dsimp only
            rw [hcell, bind_some, htrusted]
            rfl
          · refine Stepped.of_change (hchg.trans hchg₂ fun r hr => lt_of_lt_of_le hr hcop.grows) ?_
            exact fun r hr => lt_of_lt_of_le (hcop.owned_lt r hr) hgrow
  · rw [Op.applyWith, if_neg hvald] at happd
    cases happd

end TrustedStep

/-! ## Runs -/

section Runs

/-- Two runs whose steps agree end alike. -/
theorem foldlM_rel {σ τ α : Type} {R : σ → τ → Prop} {f : σ → α → Option σ} {g : τ → α → Option τ}
    (hstep : ∀ s t a, R s t → Option.Rel R (f s a) (g t a)) (xs : List α) {s : σ} {t : τ} (h : R s t) :
    Option.Rel R (xs.foldlM f s) (xs.foldlM g t) := by
  induction xs generalizing s t with
  | nil => exact Rel.some h
  | cons a xs ih =>
    rw [foldlM_cons, foldlM_cons]
    have hfst := hstep s t a h
    generalize f s a = next at hfst
    generalize g t a = next' at hfst
    cases hfst with
    | none => exact Rel.none
    | some hnext => exact ih hnext

theorem rel_map {σ σ' τ : Type} {R : σ → τ → Prop} {R' : σ' → τ → Prop} {f : σ → σ'} {x : Option σ} {y : Option τ}
    (h : Option.Rel R x y) (hf : ∀ s t, R s t → R' (f s) t) : Option.Rel R' (x.map f) y := by
  cases h with
  | none => exact Rel.none
  | some hst => exact Rel.some (hf _ _ hst)

variable {heap : Heap} {root : Val} {value : Json}

/-- A tree that is all the program's own. -/
def Detached (s : Heap × Val) (value : Json) : Prop :=
  ∃ refs, Holds (F := Node) (fun _ => True) s.1 s.2 value refs ∧ Unique (fun _ => True) refs

/-- A value that enters the heap shares no cell, with itself or others. -/
theorem detached_alloc (heap : Heap) (value : Json) : Detached (alloc heap value) value := by
  obtain ⟨k, hval, htree, hbrng⟩ := alloc_spec (O := fun _ => True) heap (fun _ _ _ _ h => h) value
  have hnd : k.refs.Nodup := by simpa using hbrng.nodup
  refine ⟨k.refs, ?_, fun r _ => nodup_iff_count_le_one.mp hnd r⟩
  rw [hval]
  exact htree ▸ hbrng.holds k mem_cons_self

variable {s : Heap × Val}

theorem applyOp_detached (h : Detached s value) (op : Op) : Option.Rel Detached (applyOp s.1 s.2 op) (op.applyWith Json.accepts value) := by
  obtain ⟨refs, hholds, hunique⟩ := h
  have hrel := applyOp_applied (K := (· < s.1.length)) op hholds hunique (fun _ _ _ _ h => h) hholds.lt_length
    (fun _ hr => hr) fun path e x _ hpath => reaches_of_resolve (fun _ => trivial) hpath
  generalize applyOp s.1 s.2 op = run at hrel
  generalize op.applyWith Json.accepts value = result at hrel
  cases hrel with
  | none => exact Rel.none
  | some hs =>
    obtain ⟨-, refs', hchg⟩ := hs
    exact Rel.some ⟨refs', hchg.holds, hchg.unique⟩

variable (batches : List (List Op))

/-- **In place**: batches change a tree of the program's own as they change the value. -/
theorem apply_detached (h : Detached s value) :
    Option.Rel Detached (batches.foldlM (fun s ops => apply s.1 s.2 ops) s) (batches.foldlM Chord.applyImmutable value) :=
  foldlM_rel (fun _ _ ops h => foldlM_rel (fun _ _ op h => applyOp_detached h op) ops h) batches h

/-- A replay of `heap`: what it stands for, and that the objects of `heap` are as they were. -/
def Replays (heap : Heap) (s : Replay) (value : Json) : Prop :=
  (∃ refs, s.Stands value refs) ∧ ∀ r < heap.length, s.heap[r]? = heap[r]? ∧ r ∉ s.owned

theorem replays_start (h : Denotes heap root value) : Replays heap ⟨heap, root, []⟩ value := by
  obtain ⟨refs, hholds⟩ := h
  refine ⟨⟨refs, ?_, ?_, ?_⟩, fun r _ => ⟨rfl, not_mem_nil⟩⟩
  · exact hholds.frame (fun _ _ => rfl) fun r _ => iff_of_false not_mem_nil id
  · exact nofun
  · exact nofun

theorem Replays.step {s s' : Replay} {value' : Json} (h : Replays heap s value) (hstep : Stepped s s' value') : Replays heap s' value' := by
  refine ⟨hstep.stands, fun r hr => ?_⟩
  obtain ⟨hcell, hnot⟩ := h.2 r hr
  have hlt : r < s.heap.length := by
    rw [getElem?_eq_getElem hr] at hcell
    exact (List.getElem?_eq_some_iff.mp hcell).1
  exact ⟨(hstep.keeps r hlt hnot).trans hcell, hstep.foreign r hlt hnot⟩

theorem replayOp_replays {s : Replay} (h : Replays heap s value) (op : Op) :
    Option.Rel (Replays heap) (replayOp s op) (op.applyWith Json.accepts value) := by
  obtain ⟨refs, hstands⟩ := h.1
  have hrel := replayOp_applied op hstands
  generalize replayOp s op = run at hrel
  generalize op.applyWith Json.accepts value = result at hrel
  cases hrel with
  | none => exact Rel.none
  | some hstep => exact Rel.some (h.step hstep)

/-- What an applier of copies returns: the value, in a heap whose old objects are as they were. -/
def Returns (heap : Heap) (s : Heap × Val) (value : Json) : Prop := Denotes s.1 s.2 value ∧ ∀ r < heap.length, s.1[r]? = heap[r]?

theorem Replays.returns {s : Replay} (h : Replays heap s value) : Returns heap (s.heap, s.root) value := by
  obtain ⟨⟨refs, hstands⟩, hold⟩ := h
  exact ⟨Denotes.of_holds hstands.holds, fun r hr => (hold r hr).1⟩

/-- **Copied on write**: batches make of the objects what they make of the value, and change none of them. -/
theorem applyImmutableBatches_returns (h : Denotes heap root value) :
    Option.Rel (Returns heap) (applyImmutableBatches heap root batches) (batches.foldlM Chord.applyImmutable value) := by
  have hrun : Rel (Replays heap) (batches.foldlM (fun s (ops : List Op) => ops.foldlM replayOp s) ⟨heap, root, []⟩)
      (batches.foldlM Chord.applyImmutable value) :=
    foldlM_rel (fun _ _ ops h => foldlM_rel (fun _ _ op h => replayOp_replays h op) ops h) batches (replays_start h)
  exact rel_map hrun fun s value' hs => hs.returns

theorem applyImmutable_returns (ops : List Op) (h : Denotes heap root value) :
    Option.Rel (Returns heap) (applyImmutable heap root ops) (Chord.applyImmutable value ops) := by
  have hone : [ops].foldlM Chord.applyImmutable value = Chord.applyImmutable value ops := by simp
  rw [← hone]
  exact applyImmutableBatches_returns [ops] h

theorem Returns.trans {s' : Heap × Val} {value' : Json} (h : Returns heap s value) (h' : Returns s.1 s' value') :
    Returns heap s' value' := by
  refine ⟨h'.1, fun r hr => ?_⟩
  have hlt : r < s.1.length := by
    have hcell := h.2 r hr
    rw [getElem?_eq_getElem hr] at hcell
    exact (List.getElem?_eq_some_iff.mp hcell).1
  exact (h'.2 r hlt).trans (h.2 r hr)

/-- The same, a replay for each batch. -/
theorem applyImmutable_batchwise (h : Denotes heap root value) :
    Option.Rel (Returns heap) (batches.foldlM (fun s ops => applyImmutable s.1 s.2 ops) (heap, root))
      (batches.foldlM Chord.applyImmutable value) := by
  have hsta : Returns heap (heap, root) value := ⟨h, fun _ _ => rfl⟩
  refine foldlM_rel (fun s value ops hs => ?_) batches hsta
  have hrel := applyImmutable_returns ops hs.1
  generalize applyImmutable s.1 s.2 ops = run at hrel
  generalize Chord.applyImmutable value ops = result at hrel
  cases hrel with
  | none => exact Rel.none
  | some hs' => exact Rel.some (hs.trans hs')

/-- **Trusted**: a batch that succeeds with its splices in range makes the same of the objects unchecked. -/
theorem applyImmutableTrusted_returns {ops : List Op} {value' : Json} (h : Denotes heap root value)
    (happd : Chord.applyImmutable value ops = some value') (hrng : SplicesInRange value ops) :
    ∃ s, applyImmutableTrusted heap root ops = some s ∧ Returns heap s value' := by
  have hrun : ∀ (ops : List Op) (s : Replay) (value : Json), Replays heap s value →
      Chord.applyImmutable value ops = some value' → SplicesInRange value ops →
      ∃ s', ops.foldlM trustedOp s = some s' ∧ Replays heap s' value' := by
    intro ops
    induction ops with
    | nil =>
      intro s value hs happd _
      cases happd
      exact ⟨s, rfl, hs⟩
    | cons op ops ih =>
      intro s value hs happd hrng
      obtain ⟨next, hnext, happd⟩ := bind_eq_some_iff.mp happd
      obtain ⟨refs, hstands⟩ := hs.1
      obtain ⟨s₁, htrusted, hstep⟩ := trustedOp_applied hstands hnext hrng.1
      obtain ⟨s', hrest, hs'⟩ := ih s₁ next (hs.step hstep) happd (hrng.2 next hnext)
      refine ⟨s', ?_, hs'⟩
      rw [foldlM_cons, htrusted]
      exact hrest
  obtain ⟨s, hs, hreplays⟩ := hrun ops ⟨heap, root, []⟩ value (replays_start h) happd hrng
  exact ⟨(s.heap, s.root), by rw [applyImmutableTrusted, hs]; rfl, hreplays.returns⟩

/-- Deeply equal. -/
def DeepEqual (s s' : Heap × Val) : Prop := ∃ value, Denotes s.1 s.2 value ∧ Denotes s'.1 s'.2 value

theorem deepEqual_of_rel {R R' : Heap × Val → Json → Prop} {x y : Option (Heap × Val)} {res : Option Json}
    (hx : Option.Rel R x res) (hy : Option.Rel R' y res) (hR : ∀ s value, R s value → Denotes s.1 s.2 value)
    (hR' : ∀ s value, R' s value → Denotes s.1 s.2 value) : Option.Rel DeepEqual x y := by
  cases hx with
  | none =>
    cases hy with
    | none => exact Rel.none
  | some h =>
    cases hy with
    | some h' => exact Rel.some ⟨_, hR _ _ h, hR' _ _ h'⟩

/-- **The appliers agree.** In place on a detached copy, copied on write batch by batch, and copied on write over all
    batches: all succeed with deeply equal values, or all fail. Where a batch succeeds with its splices in range,
    the trusted applier makes the same of it. -/
theorem appliers_agree (h : Denotes heap root value) (batches : List (List Op)) :
    Option.Rel DeepEqual (batches.foldlM (fun s ops => apply s.1 s.2 ops) (alloc heap value))
        (batches.foldlM (fun s ops => applyImmutable s.1 s.2 ops) (heap, root)) ∧
      Option.Rel DeepEqual (batches.foldlM (fun s ops => applyImmutable s.1 s.2 ops) (heap, root))
        (applyImmutableBatches heap root batches) ∧
      ∀ ops s, applyImmutable heap root ops = some s → SplicesInRange value ops →
        ∃ s', applyImmutableTrusted heap root ops = some s' ∧ DeepEqual s s' := by
  have hinPlace := apply_detached batches (detached_alloc heap value)
  have hbatchwise := applyImmutable_batchwise batches h
  have hatOnce := applyImmutableBatches_returns batches h
  have hdetached : ∀ (s : Heap × Val) value, Detached s value → Denotes s.1 s.2 value := by
    intro s value hs
    obtain ⟨_, hholds, -⟩ := hs
    exact Denotes.of_holds hholds
  refine ⟨deepEqual_of_rel hinPlace hbatchwise hdetached fun _ _ hs => hs.1,
    deepEqual_of_rel hbatchwise hatOnce (fun _ _ hs => hs.1) fun _ _ hs => hs.1, fun ops s happlied hrange => ?_⟩
  have hrel := applyImmutable_returns ops h
  rw [happlied] at hrel
  generalize hvalue : Chord.applyImmutable value ops = result at hrel
  cases hrel with
  | some hs =>
    obtain ⟨s', htrusted, hs'⟩ := applyImmutableTrusted_returns h hvalue hrange
    exact ⟨s', htrusted, _, hs.1, hs'.1⟩

/-- An array that holds another one twice: a change to the first leaves the second. -/
theorem appliers_agree_shared :
    Option.Rel DeepEqual
        ([[Op.p [.index 0] 1 0 [.num 2]], [Op.s [.index 1, .index 0] (.num 3)]].foldlM (fun s ops => apply s.1 s.2 ops)
          (alloc [.arr [.atom ⟨.num 1, rfl⟩], .arr [.ref 0, .ref 0]] (.arr [.arr [.num 1], .arr [.num 1]])))
        ([[Op.p [.index 0] 1 0 [.num 2]], [Op.s [.index 1, .index 0] (.num 3)]].foldlM
          (fun s ops => applyImmutable s.1 s.2 ops) ([.arr [.atom ⟨.num 1, rfl⟩], .arr [.ref 0, .ref 0]], .ref 1)) ∧
      (applyImmutableBatches [.arr [.atom ⟨.num 1, rfl⟩], .arr [.ref 0, .ref 0]] (.ref 1)
        [[Op.p [.index 0] 1 0 [.num 2]], [Op.s [.index 1, .index 0] (.num 3)]]).isSome = true := by
  have hinner : Holds (F := Node) (fun _ => False) [.arr [.atom ⟨.num 1, rfl⟩], .arr [.ref 0, .ref 0]] (.ref 0)
      (.arr [.num 1]) [0] := by
    refine Holds.node (F := Node) 0 (.arr [⟨.atom ⟨.num 1, rfl⟩, .num 1, []⟩]) ?_ (fun _ _ _ h => h) fun k hk => ?_
    · rfl
    obtain rfl := mem_singleton.mp hk
    exact Holds.atom _
  have houter : Denotes [.arr [.atom ⟨.num 1, rfl⟩], .arr [.ref 0, .ref 0]] (.ref 1) (.arr [.arr [.num 1], .arr [.num 1]]) := by
    refine ⟨[1, 0, 0], Holds.node (F := Node) 1 (.arr [⟨.ref 0, .arr [.num 1], [0]⟩, ⟨.ref 0, .arr [.num 1], [0]⟩]) ?_
      (fun _ _ _ h => h) fun k hk => ?_⟩
    · rfl
    have hkid : k = ⟨.ref 0, .arr [.num 1], [0]⟩ := by simpa [elems, Node.elems] using hk
    rw [hkid]
    exact hinner
  exact ⟨(appliers_agree houter _).1, by decide⟩

end Runs

end PiBridge.Chord.Objects
