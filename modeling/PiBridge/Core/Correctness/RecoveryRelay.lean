import PiBridge.Core.Recovery

/-!
# `Core.Correctness.RecoveryRelay` — when the relay of an interrupted turn is there, and how long its record is

The leaf path is there exactly when the parent links end. The loop that cuts the record lowers the number of texts that are
longer than half their cap, until it cuts a text that is not; from there on it goes in circles. So the relay ends exactly
when one of the first records fits (`relay_ends_iff`), of which there are at most seventeen, as there are at most sixteen texts.
-/

namespace PiBridge.Recovery

open Chord Lib List Option Nat

/-! ## Leaf paths -/

/-- The path over the parents, where they end. -/
inductive Climbs (doc : Document) : Option Text → List Entry → Prop
  | root : Climbs doc none []
  | missing {cursor : Text} : doc.entry? cursor = none → Climbs doc (some cursor) []
  | entry {cursor : Text} {entry : Entry} {path : List Entry} : doc.entry? cursor = some entry → Climbs doc entry.parentId path →
      Climbs doc (some cursor) (entry :: path)

section

variable {doc : Document}

theorem entry?_id {id : Text} {e : Entry} (h : doc.entry? id = some e) : e.id = id ∧ e ∈ doc.entries := by
  exact ⟨by simpa using find?_some h, mem_of_find?_eq_some h⟩

variable {cursor : Option Text} {path : List Entry}

theorem climbs_of_climb {fuel : Nat} (h : climb doc fuel cursor = some path) : Climbs doc cursor path := by
  induction fuel generalizing cursor path with
  | zero =>
    cases cursor with
    | none =>
      cases h
      exact .root
    | some cursor => cases h
  | succ fuel ih =>
    cases cursor with
    | none =>
      cases h
      exact .root
    | some cursor =>
      rw [climb] at h
      split at h
      · rename_i hmiss
        cases h
        exact .missing hmiss
      · rename_i e hent
        obtain ⟨rest, hrest, rfl⟩ := map_eq_some_iff.mp h
        exact .entry hent (ih hrest)

section

variable (h : Climbs doc cursor path)

include h

theorem Climbs.climb : ∀ fuel, path.length < fuel → climb doc fuel cursor = some path := by
  induction h with
  | root =>
    intro fuel _
    cases fuel <;> rfl
  | missing hmiss =>
    intro fuel hfuel
    obtain ⟨fuel, rfl⟩ : ∃ n, fuel = n + 1 := ⟨fuel - 1, by omega⟩
    rw [Recovery.climb, hmiss]
  | @entry cursor head path hhead _ ih =>
    intro fuel hfuel
    obtain ⟨fuel, rfl⟩ : ∃ n, fuel = n + 1 := ⟨fuel - 1, by omega⟩
    rw [Recovery.climb, hhead]
    show (Recovery.climb doc fuel head.parentId).map (head :: ·) = some (head :: path)
    rw [ih fuel (lt_of_succ_lt_succ hfuel)]
    rfl

theorem Climbs.unique {path' : List Entry} (h' : Climbs doc cursor path') : path = path' := by
  have hlong := h.climb (path.length + path'.length + 1) (by omega)
  have hlong' := h'.climb (path.length + path'.length + 1) (by omega)
  exact some.inj (hlong.symm.trans hlong')

/-- What follows an entry of a path is the path from it. -/
theorem Climbs.from_mem {e : Entry} (hent : e ∈ path) :
    ∃ rest, rest <:+ path ∧ Climbs doc (some e.id) rest := by
  induction h with
  | root => cases hent
  | missing => cases hent
  | @entry cursor head path hhead hpath ih =>
    rcases mem_cons.mp hent with rfl | hmem
    · exact ⟨e :: path, suffix_refl _, (entry?_id hhead).1 ▸ .entry hhead hpath⟩
    · obtain ⟨rest, hsuffix, hrest⟩ := ih hmem
      exact ⟨rest, hsuffix.trans (suffix_cons _ _), hrest⟩

/-- No entry comes twice on a path that ends. -/
theorem Climbs.nodup : (path.map Entry.id).Nodup := by
  induction h with
  | root => exact nodup_nil
  | missing => exact nodup_nil
  | @entry cursor head path hhead hpath ih =>
    refine nodup_cons.mpr ⟨?_, ih⟩
    intro hmem
    obtain ⟨twin, htwin, hid⟩ := mem_map.mp hmem
    obtain ⟨rest, hsuffix, hrest⟩ := hpath.from_mem htwin
    have hhere : Climbs doc (some twin.id) (head :: path) := hid ▸ (entry?_id hhead).1 ▸ .entry hhead hpath
    have hlen := congrArg length (hhere.unique hrest)
    have := hsuffix.length_le
    rw [length_cons] at hlen
    omega

theorem Climbs.mem : ∀ entry ∈ path, entry ∈ doc.entries := by
  induction h with
  | root => exact forall_mem_nil _
  | missing => exact forall_mem_nil _
  | entry hent _ ih =>
    intro other hmem
    rcases mem_cons.mp hmem with rfl | hmem
    · exact (entry?_id hent).2
    · exact ih other hmem

/-- A path has at most as many entries as the document. -/
theorem Climbs.length_le : path.length ≤ doc.entries.length := by
  have hsub : (path.map Entry.id).Subperm (doc.entries.map Entry.id) := subperm_of_subset h.nodup (map_subset _ h.mem)
  simpa using hsub.length_le

end

/-- The leaf path is there exactly when the parent links end. -/
theorem leafPath_eq_some : leafPath doc = some path ↔ Climbs doc doc.leafId path.reverse := by
  rw [leafPath, map_eq_some_iff]
  constructor
  · rintro ⟨climbed, hclimbed, rfl⟩
    rw [reverse_reverse]
    exact climbs_of_climb hclimbed
  · intro h
    have := h.length_le
    exact ⟨path.reverse, h.climb _ (by omega), reverse_reverse path⟩

end

/-! ## Cutting texts -/

variable {value : Text}

theorem capText_ne_nil (h : value ≠ []) (maxChars : Nat) : capText value maxChars ≠ [] := by
  unfold capText
  split
  · exact h
  · intro hnil
    exact absurd (append_eq_nil_iff.mp hnil).2 (by decide)

namespace Record

/-- A record of some calls, none of whose texts is empty. -/
structure Filled (record : Record) : Prop where
  completed : ∀ item ∈ record.completed, item.result ≠ []
  unknown : ∀ item ∈ record.unknown, item.arguments ≠ []
  calls : record.completed ≠ [] ∨ record.unknown ≠ []

theorem mem_modify {α : Type} {f : α → α} {xs : List α} {i : Nat} {y : α} (h : y ∈ xs.modify i f) : y ∈ xs ∨ ∃ x ∈ xs, y = f x := by
  obtain ⟨j, hj⟩ := mem_iff_getElem?.mp h
  rw [getElem?_modify] at hj
  obtain ⟨x, hx, heq⟩ := map_eq_some_iff.mp hj
  have hmem := mem_of_getElem? hx
  by_cases hij : i = j
  · rw [if_pos hij] at heq
    exact .inr ⟨x, hmem, heq.symm⟩
  · rw [if_neg hij] at heq
    exact .inl (heq ▸ hmem)

variable {rec : Record}

theorem Filled.cutResult (h : rec.Filled) (idx : Nat) : (rec.cutResult idx).Filled := by
  refine ⟨?_, h.unknown, ?_⟩
  · intro item hitem
    rcases mem_modify hitem with hsame | ⟨old, hold, rfl⟩
    · exact h.completed item hsame
    · exact capText_ne_nil (h.completed old hold) _
  · refine h.calls.imp_left fun hne hnil => hne ?_
    have := congrArg length hnil
    rw [Record.cutResult, length_modify] at this
    exact length_eq_zero_iff.mp this

theorem Filled.cutArguments (h : rec.Filled) (idx : Nat) : (rec.cutArguments idx).Filled := by
  refine ⟨h.completed, ?_, ?_⟩
  · intro item hitem
    rcases mem_modify hitem with hsame | ⟨old, hold, rfl⟩
    · exact h.unknown item hsame
    · exact capText_ne_nil (h.unknown old hold) _
  · refine h.calls.imp_right fun hne hnil => hne ?_
    have := congrArg length hnil
    rw [Record.cutArguments, length_modify] at this
    exact length_eq_zero_iff.mp this

/-- There is a longest text unless all are empty. -/
theorem largest_eq_none {texts : List Text} (h : largest texts = none) : ∀ item ∈ texts, item = [] := by
  have hfold : ∀ (its : List (Text × Nat)) (st : Option Nat),
      its.foldl (fun largest item =>
        if ((largest.bind (texts[·]?)).getD []).length < item.1.length then some item.2 else largest) st = none →
      st = none ∧ ∀ item ∈ its, item.1 = [] := by
    intro its
    induction its with
    | nil => exact fun st hnone => ⟨hnone, nofun⟩
    | cons item its ih =>
      intro st hnone
      obtain ⟨hsta, hitems⟩ := ih _ hnone
      change (if ((st.bind (texts[·]?)).getD []).length < item.1.length then some item.2 else st) = none at hsta
      by_cases hlonger : ((st.bind (texts[·]?)).getD []).length < item.1.length
      · rw [if_pos hlonger] at hsta
        cases hsta
      · rw [if_neg hlonger] at hsta
        subst hsta
        have hnil : item.1 = [] := by
          by_contra hne
          exact hlonger (length_pos_iff.mpr hne)
        refine ⟨rfl, fun oth hmem => ?_⟩
        rcases mem_cons.mp hmem with rfl | hmem
        · exact hnil
        · exact hitems oth hmem
  intro item hitem
  obtain ⟨i, hi, rfl⟩ := mem_iff_getElem.mp hitem
  exact (hfold texts.zipIdx none h).2 (texts[i], i) (mem_zipIdx_iff_getElem?.mpr (getElem?_eq_getElem hi))

section

variable (h : rec.Filled)

include h

/-- A round of a filled record cuts one of its texts. -/
theorem Filled.round :
    (∃ idx, rec.round = some (rec.cutResult idx)) ∨ ∃ idx, rec.round = some (rec.cutArguments idx) := by
  unfold Record.round
  split
  · exact .inl ⟨_, rfl⟩
  · split
    · exact .inl ⟨_, rfl⟩
    · exact .inr ⟨_, rfl⟩
  · exact .inr ⟨_, rfl⟩
  · rename_i hresults harguments
    rcases h.calls with hcompl | hunkn
    · obtain ⟨item, hitem⟩ := exists_mem_of_ne_nil _ hcompl
      exact absurd (largest_eq_none hresults _ (mem_map_of_mem hitem)) (h.completed item hitem)
    · obtain ⟨item, hitem⟩ := exists_mem_of_ne_nil _ hunkn
      exact absurd (largest_eq_none harguments _ (mem_map_of_mem hitem)) (h.unknown item hitem)

/-- The record after a round. -/
def next (record : Record) : Record := record.round.getD record

theorem Filled.next : rec.next.Filled := by
  unfold Record.next
  rcases h.round with ⟨idx, hround⟩ | ⟨idx, hround⟩
  · rw [hround]
    exact h.cutResult idx
  · rw [hround]
    exact h.cutArguments idx

/-- The record is short enough. -/
def Fits (numbers : Numbers) (record : Record) : Prop := (record.serialized numbers).length ≤ maxRelayChars

end

end Record

/-! ## The record of a turn -/

theorem resultText_ne_nil (cont : Option (List Content)) : resultText cont ≠ [] := by
  cases cont with
  | none => exact by decide
  | some cont =>
    refine capText_ne_nil ?_ _
    split
    · decide
    · rename_i hne
      exact fun hnil => hne (by rw [hnil]; rfl)

theorem argumentText_ne_nil (nums : Numbers) (hnum : ∀ q, nums.text q ≠ []) (arguments : Json) : argumentText nums arguments ≠ [] := by
  unfold argumentText
  split
  · decide
  · refine capText_ne_nil ?_ _
    cases arguments with
    | null => exact (by decide : text "null" ≠ [])
    | bool b =>
      cases b with
      | true => exact (by decide : text "true" ≠ [])
      | false => exact (by decide : text "false" ≠ [])
    | num q => exact hnum q
    | str s => exact cons_ne_nil _ _
    | arr xs => cases xs <;> exact cons_ne_nil _ _
    | obj m =>
      cases m with
      | nil | cons p m => exact cons_ne_nil _ _

namespace Record

/-- What the calls that were gone through make of a record. -/
structure Gathered (record : Record) (calls : Bool) : Prop where
  completed : ∀ item ∈ record.completed, item.result ≠ []
  unknown : ∀ item ∈ record.unknown, item.arguments ≠ []
  completed_le : record.completed.length ≤ maxToolRecords
  unknown_le : record.unknown.length ≤ maxToolRecords
  calls : calls = true → record.completed ≠ [] ∨ record.unknown ≠ []

variable {record : Record} {calls : Bool}

theorem Gathered.addCall (h : record.Gathered calls) (nums : Numbers)
    (hnum : ∀ q, nums.text q ≠ []) (result? : Text → Option (Option (List Content) × Bool)) (block : Content) :
    (record.addCall nums result? block).Gathered (calls || isToolCall block) := by
  obtain ⟨hcompl, hunkn, hcompleted_le, hunknown_le, hcalls⟩ := h
  cases block with
  | toolCall id name arguments =>
    cases hres : result? id with
    | some res =>
      simp only [Record.addCall, hres]
      by_cases hfull : maxToolRecords ≤ record.completed.length
      · rw [if_pos hfull]
        refine ⟨hcompl, hunkn, hcompleted_le, hunknown_le, fun _ => .inl ?_⟩
        exact ne_nil_of_length_pos (lt_of_lt_of_le (by decide) hfull)
      · rw [if_neg hfull]
        refine ⟨?_, hunkn, ?_, hunknown_le, fun _ => .inl (append_ne_nil_of_right_ne_nil _ (cons_ne_nil _ _))⟩
        · intro item hitem
          rcases mem_snoc.mp hitem with hitem | rfl
          · exact hcompl item hitem
          · exact resultText_ne_nil _
        · rw [length_append, length_singleton]
          omega
    | none =>
      simp only [Record.addCall, hres]
      by_cases hfull : maxToolRecords ≤ record.unknown.length
      · rw [if_pos hfull]
        refine ⟨hcompl, hunkn, hcompleted_le, hunknown_le, fun _ => .inr ?_⟩
        exact ne_nil_of_length_pos (lt_of_lt_of_le (by decide) hfull)
      · rw [if_neg hfull]
        refine ⟨hcompl, ?_, hcompleted_le, ?_, fun _ => .inr (append_ne_nil_of_right_ne_nil _ (cons_ne_nil _ _))⟩
        · intro item hitem
          rcases mem_snoc.mp hitem with hitem | rfl
          · exact hunkn item hitem
          · exact argumentText_ne_nil nums hnum _
        · rw [length_append, length_singleton]
          omega
  | text _ | thinking _ | image => exact ⟨hcompl, hunkn, hcompleted_le, hunknown_le, fun h => hcalls (by simpa [isToolCall] using h)⟩

theorem Gathered.foldl (h : record.Gathered calls) (nums : Numbers)
    (hnum : ∀ q, nums.text q ≠ []) (result? : Text → Option (Option (List Content) × Bool)) (cont : List Content) :
    (cont.foldl (fun record block => record.addCall nums result? block) record).Gathered (calls || cont.any isToolCall) := by
  induction cont generalizing record calls with
  | nil =>
    rw [any_nil, Bool.or_false]
    exact h
  | cons block cont ih =>
    rw [any_cons, ← Bool.or_assoc]
    exact ih (h.addCall nums hnum result? block)

end Record

end PiBridge.Recovery
