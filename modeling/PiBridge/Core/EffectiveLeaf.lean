import PiBridge.Core.ProjectionSpec

/-!
# `Core.EffectiveLeaf` — what the effective leaf is

The rule, stated without loops, caches or fuel: the **effective leaf** is the most recently created live
form whose parent chain through live forms reaches pi's selected path, and pi's leaf when there is none.

`effectiveLeaf_eq` connects it to the code. The code walks each chain only up to its first sealed entry and
looks that one up in a path it may have cached; it computes the effective leaf provided the cached path is
right (`SelectedOk`) and no entry on it is a live form.
-/

namespace PiBridge

open Js Js.Value Lib Projection List Option

/-- The parent an entry map gives an id. -/
def parentAt (entries : Obj) (id : String) : Option String := (entries.get? id).bind parentIdOf

/-- `id` is pi's leaf or one of its ancestors. -/
def OnPath (entries : Obj) (piLeaf : Option String) (id : String) : Prop :=
  ∃ leaf, piLeaf = some leaf ∧ Relation.ReflTransGen (fun a b => parentAt entries a = some b) leaf id

/-- The parent chain of `id` through live forms reaches pi's selected path. -/
def Attached (live : List String) (entries : Obj) (piLeaf : Option String) (id : String) : Prop :=
  ∃ c, Relation.ReflTransGen (fun a b => a ∈ live ∧ parentAt entries a = some b) id c ∧ OnPath entries piLeaf c

open Classical in
/-- `Attached` as a test. -/
noncomputable def isAttached (live : List String) (entries : Obj) (piLeaf : Option String) (id : String) : Bool :=
  decide (Attached live entries piLeaf id)

variable {live : List String} {ents : Obj} {piLeaf : Option String} {id : String}

@[simp] theorem isAttached_iff : isAttached live ents piLeaf id = true ↔ Attached live ents piLeaf id := by simp [isAttached]

/-- **The effective leaf.** `live` is in creation order. -/
noncomputable def theEffectiveLeaf (live : List String) (ents : Obj) (piLeaf : Option String) : Option String :=
  (live.reverse.find? (isAttached live ents piLeaf)).or piLeaf

/-! ## Facts about the rule -/

theorem onPath_none : ¬ OnPath ents none id := by
  rintro ⟨leaf, hleaf, -⟩
  simp at hleaf

theorem onPath_leaf (ents : Obj) (leaf : String) : OnPath ents (some leaf) leaf := ⟨leaf, rfl, Relation.ReflTransGen.refl⟩

theorem attached_of_onPath (h : OnPath ents piLeaf id) : Attached live ents piLeaf id := ⟨id, Relation.ReflTransGen.refl, h⟩

/-- A live form is attached if its parent is. -/
theorem attached_of_parent {par : String} (hid : id ∈ live) (hpar : parentAt ents id = some par)
    (h : Attached live ents piLeaf par) : Attached live ents piLeaf id := by
  obtain ⟨c, hc, hpath⟩ := h
  exact ⟨c, Relation.ReflTransGen.head ⟨hid, hpar⟩ hc, hpath⟩

/-- The rule depends on the parents of an entry map only. -/
theorem theEffectiveLeaf_of_parentAt {entries' : Obj} (h : ∀ id, parentAt ents id = parentAt entries' id) :
    theEffectiveLeaf live ents piLeaf = theEffectiveLeaf live entries' piLeaf := by
  have heq : parentAt ents = parentAt entries' := funext h
  have hattached : isAttached live ents piLeaf = isAttached live entries' piLeaf := by
    funext id
    unfold isAttached Attached OnPath
    rw [heq]
  rw [theEffectiveLeaf, hattached]; rfl

theorem theEffectiveLeaf_nil (ents : Obj) (piLeaf : Option String) : theEffectiveLeaf [] ents piLeaf = piLeaf := rfl

/-- Without a leaf of pi's there is no path to reach. -/
theorem theEffectiveLeaf_none (live : List String) (ents : Obj) : theEffectiveLeaf live ents none = none := by
  unfold theEffectiveLeaf
  rw [or_none, find?_eq_none]
  intro id _ hattached
  obtain ⟨c, -, hc⟩ := isAttached_iff.1 hattached
  exact onPath_none hc

/-- What is rendered is attached, or is pi's leaf. -/
theorem attached_of_theEffectiveLeaf {leaf : String} (h : theEffectiveLeaf live ents piLeaf = some leaf) :
    Attached live ents piLeaf leaf := by
  rcases or_eq_some_iff.mp h with h | ⟨-, h⟩
  · exact isAttached_iff.1 (find?_some h)
  · exact attached_of_onPath (h ▸ onPath_leaf ents leaf)

/-- A form created last is rendered if it is attached. -/
theorem theEffectiveLeaf_append (h : Attached (live ++ [id]) ents piLeaf id) :
    theEffectiveLeaf (live ++ [id]) ents piLeaf = some id := by
  unfold theEffectiveLeaf
  rw [reverse_append, reverse_singleton, singleton_append, find?_cons_of_pos (isAttached_iff.2 h), some_or]

/-- A form created last that has no parent yet, and is not on the path, changes nothing. -/
theorem theEffectiveLeaf_append_orphan (hpar : parentAt ents id = none) (hpath : ¬ OnPath ents piLeaf id) :
    theEffectiveLeaf (live ++ [id]) ents piLeaf = theEffectiveLeaf live ents piLeaf := by
  have hedges : ∀ a b, (a ∈ live ++ [id] ∧ parentAt ents a = some b) ↔ (a ∈ live ∧ parentAt ents a = some b) := by
    intro a b
    constructor
    · rintro ⟨ha, hb⟩
      refine ⟨(mem_append.mp ha).resolve_right fun h => ?_, hb⟩
      rw [mem_singleton.mp h, hpar] at hb
      simp at hb
    · rintro ⟨ha, hb⟩
      exact ⟨mem_append.mpr (Or.inl ha), hb⟩
  have hedges : (fun a b => a ∈ live ++ [id] ∧ parentAt ents a = some b)
      = fun a b => a ∈ live ∧ parentAt ents a = some b :=
    funext fun a => funext fun b => propext (hedges a b)
  have hattached : isAttached (live ++ [id]) ents piLeaf = isAttached live ents piLeaf := by
    funext a
    unfold isAttached Attached
    rw [hedges]
  have hnot : ¬ Attached (live ++ [id]) ents piLeaf id := by
    rintro ⟨c, hc, honPath⟩
    rcases hc.cases_head with rfl | ⟨b, ⟨-, hb⟩, -⟩
    · exact hpath honPath
    · rw [hpar] at hb
      simp at hb
  unfold theEffectiveLeaf
  rw [reverse_append, reverse_singleton, singleton_append, find?_cons_of_neg (isAttached_iff.not.mpr hnot), hattached]

/-! ## The code computes it -/

/-- `ids` is pi's leaf and its ancestors. -/
def SelectedOk (entries : Obj) (piLeaf : Option String) (ids : List String) : Prop := ∀ id, id ∈ ids ↔ OnPath entries piLeaf id

theorem leads_selectedNext {a b : String} : Leads (selectedNext ents) a b ↔ parentAt ents a = some b := by
  rw [Leads, selectedNext, parentAt]
  cases ents.get? a <;> simp

theorem leads_liveNext {a b : String} : Leads (liveNext live ents) a b ↔ a ∈ live ∧ parentAt ents a = some b := by
  rw [Leads, liveNext, parentAt]
  by_cases h : a ∈ live <;> simp [h]

/-- **The walked path is the selected path.** -/
theorem selectedOk_selectedIds {ids : List String} (h : selectedIds ents piLeaf = some ids) : SelectedOk ents piLeaf ids := by
  obtain ⟨r, hr, rfl⟩ := map_eq_some_iff.mp h
  intro id
  cases piLeaf with
  | none =>
    rw [follow_none] at hr
    cases hr
    simp [onPath_none]
  | some leaf =>
    rw [mem_follow_iff hr]
    unfold OnPath
    simp only [some.injEq, exists_eq_left',
      show Leads (selectedNext ents) = fun a b => parentAt ents a = some b from
        funext fun a => funext fun b => propext leads_selectedNext]

/-- A live form is attached when the first sealed cursor above it is on the path. -/
theorem attached_iff_firstSealed {top : Option String} (hlive : ∀ c, OnPath ents piLeaf c → c ∉ live)
    (h : firstSealed live ents id = some top) : Attached live ents piLeaf id ↔ ∃ c, top = some c ∧ OnPath ents piLeaf c := by
  obtain ⟨r, hr, rfl⟩ := map_eq_some_iff.mp h
  have hreach : ∀ c, c ∈ r.1 ++ r.2.toList ↔ Relation.ReflTransGen (fun a b => a ∈ live ∧ parentAt ents a = some b) id c := by
    intro c
    rw [mem_follow_iff hr, show Leads (liveNext live ents)
      = fun a b => a ∈ live ∧ parentAt ents a = some b from
        funext fun a => funext fun b => propext leads_liveNext]
  constructor
  · rintro ⟨c, hc, hpath⟩
    refine ⟨c, ?_, hpath⟩
    rcases mem_append.mp ((hreach c).mpr hc) with hmoved | hend
    · -- the walk only moves past live forms
      have hnext := next_isSome_of_mem_follow hr c hmoved
      rw [liveNext, if_neg (hlive c hpath)] at hnext
      exact Bool.noConfusion hnext
    · exact mem_toList.mp hend
  · rintro ⟨c, hc, hpath⟩
    exact ⟨c, (hreach c).mp (mem_append.mpr (Or.inr (mem_toList.mpr hc))), hpath⟩

/-- The search finds the first attached form. -/
theorem findAttached_eq {selected ids : List String} {fnd : Option String} (hsel : SelectedOk ents piLeaf selected)
    (hlive : ∀ c, OnPath ents piLeaf c → c ∉ live) (h : findAttached live ents selected ids = some fnd) :
    fnd = ids.find? (isAttached live ents piLeaf) := by
  induction ids with
  | nil => exact (some.inj h).symm
  | cons id ids ih =>
    unfold findAttached at h
    cases hfst : firstSealed live ents id with
    | none => rw [hfst] at h; simp at h
    | some top =>
      rw [hfst] at h
      have hiff := attached_iff_firstSealed hlive hfst
      cases top with
      | none =>
        have hnot : ¬ Attached live ents piLeaf id := by
          rw [hiff]
          rintro ⟨c, hc, -⟩
          simp at hc
        rw [find?_cons_of_neg (isAttached_iff.not.mpr hnot)]
        exact ih h
      | some c =>
        by_cases hc : c ∈ selected
        · have hattached : Attached live ents piLeaf id := hiff.mpr ⟨c, rfl, (hsel c).mp hc⟩
          simp only [hc, if_true] at h
          rw [find?_cons_of_pos (isAttached_iff.2 hattached)]
          exact (some.inj h).symm
        · have hnot : ¬ Attached live ents piLeaf id := by
            rw [hiff]
            rintro ⟨c', hc', hpath⟩
            cases hc'
            exact hc ((hsel _).mpr hpath)
          simp only [hc, if_false] at h
          rw [find?_cons_of_neg (isAttached_iff.not.mpr hnot)]
          exact ih h

/-- **The code's effective leaf is the effective leaf**, given that the path it uses is right and nothing on
    it is live. The path it leaves in the cache is right as well. -/
theorem effectiveLeaf_eq {p p' : Projection} {leaf : Option String}
    (hcache : ∀ ids, p.selectedPath = some (p.piLeaf, ids) → SelectedOk ents p.piLeaf ids)
    (hlive : ∀ c, OnPath ents p.piLeaf c → c ∉ p.live) (h : p.effectiveLeaf ents = some (p', leaf)) :
    leaf = theEffectiveLeaf p.live ents p.piLeaf ∧ (p'.selectedPath = p.selectedPath ∨
        ∃ ids, p'.selectedPath = some (p.piLeaf, ids) ∧ SelectedOk ents p.piLeaf ids) := by
  unfold effectiveLeaf at h
  split at h
  · rename_i hnil
    cases h
    rw [hnil, theEffectiveLeaf_nil]
    exact ⟨rfl, Or.inl rfl⟩
  · obtain ⟨⟨p₁, selected⟩, hsel, hfnd⟩ := bind_eq_some_iff.mp h
    obtain ⟨fnd, hfind, heq⟩ := map_eq_some_iff.mp hfnd
    obtain ⟨rfl, rfl⟩ := Prod.mk.inj heq
    -- the selected path, cached or walked, is right
    have hselected : SelectedOk ents p.piLeaf selected ∧ (p₁.selectedPath = p.selectedPath ∨
        ∃ ids, p₁.selectedPath = some (p.piLeaf, ids) ∧ SelectedOk ents p.piLeaf ids) := by
      have hcompute : selectedPathOf.compute p ents = some (p₁, selected) →
          SelectedOk ents p.piLeaf selected ∧ ∃ ids, p₁.selectedPath = some (p.piLeaf, ids) ∧ SelectedOk ents p.piLeaf ids := by
        intro hcomp
        obtain ⟨ids, hids, heq⟩ := map_eq_some_iff.mp hcomp
        obtain ⟨rfl, rfl⟩ := Prod.mk.inj heq
        exact ⟨selectedOk_selectedIds hids, ids, rfl, selectedOk_selectedIds hids⟩
      unfold selectedPathOf at hsel
      split at hsel
      · rename_i l ids hpath
        split at hsel
        · rename_i hl
          obtain ⟨rfl, rfl⟩ := Prod.mk.inj (some.inj hsel)
          exact ⟨hcache ids (hl ▸ hpath), Or.inl rfl⟩
        · exact (hcompute hsel).imp_right Or.inr
      · exact (hcompute hsel).imp_right Or.inr
    refine ⟨?_, hselected.2⟩
    unfold theEffectiveLeaf
    rw [findAttached_eq hselected.1 hlive hfind]

end PiBridge
