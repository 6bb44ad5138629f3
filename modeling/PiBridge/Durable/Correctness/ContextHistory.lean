import PiBridge.Durable.ContextReads
import PiBridge.Durable.Correctness.ContextDerivation

/-!
# `Durable.Correctness.ContextHistory` — what a conversation shows grows at its end

A commit adds to what is visible from a conversation that exists exactly the entries it appends to that conversation,
after everything that was visible (`Grows`, `grows_applyAll`): a fork point is an entry that was there, so an ancestor's
later entries stay hidden. What lies at or below a tail is therefore the same for good, bounds and scan.
-/

namespace PiBridge.Durable

open Lib List Option

variable {V O : Type}

namespace Storage

variable {s s' : Storage (EntryContent V) O} {id : ConversationId}

/-- The history of a Session. -/
structure Chronicle (s : Storage (EntryContent V) O) : Prop where
  sorted : (s.entries.map fun e => e.1.id).Pairwise (· < ·)
  heads : ∀ e ∈ s.entries, ∀ head, e.1.head = some head → head ≤ e.1.id
  parents : ∀ record ∈ s.conversations, ∀ parent, record.parent = some parent →
    (s.conversation parent.conversationId).isSome ∧ ∃ e ∈ s.entries, e.1.id = parent.entry

theorem chronicle_empty : Chronicle (empty : Storage (EntryContent V) O) where
  sorted := Pairwise.nil
  heads := forall_mem_nil _
  parents := forall_mem_nil _

/-! ## What is visible -/

/-- Adding a conversation does not change what a conversation that exists shows. -/
theorem visible_conversation (h : Chronicle s) {rec : ConversationRecord} (e : ContextEntry V) (seq : CommitSeq)
    (fuel : Nat) (hid : (s.conversation id).isSome) :
    (s.apply seq (.conversation rec)).visible e fuel id = s.visible e fuel id := by
  induction fuel generalizing id with
  | zero => rfl
  | succ fuel ih =>
    obtain ⟨fnd, hfnd⟩ := isSome_iff_exists.mp hid
    have hsame : (s.apply seq (.conversation rec)).conversation id = s.conversation id := by
      rw [conversation, conversation] at *
      exact (find?_append.trans (by rw [hfnd, some_or])).trans hfnd.symm
    rw [visible, visible, hsame, hfnd]
    split
    · rfl
    · split
      · rename_i par own heq
        have hmem : fnd ∈ s.conversations := mem_of_find?_eq_some hfnd
        have hpar : fnd.parent = some par := by rw [some.inj heq]
        rw [ih (h.parents fnd hmem par hpar).1]
      · rfl

/-- The conversations and entries of a Storage decide what it shows. -/
theorem visible_congr (hconversations : s'.conversations = s.conversations) (e : ContextEntry V) (fuel : Nat) :
    s'.visible e fuel id = s.visible e fuel id := by
  induction fuel generalizing id with
  | zero => rfl
  | succ fuel ih => simp only [visible, conversation, hconversations, ih]

/-- An entry newer than every stored one is visible only from its own conversation. -/
theorem visible_newest (h : Chronicle s) {rec : ContextEntry V} (hnew : ∀ e ∈ s.entries, e.1.id < rec.id) (fuel : Nat) :
    s.visible rec (fuel + 1) id = decide (rec.conversationId = id) := by
  rw [visible]
  split
  · rename_i heq
    simp [heq]
  · rename_i hne
    rw [decide_eq_false hne]
    split
    · rename_i par own heq
      obtain ⟨e, he, hat⟩ := (h.parents _ (mem_of_find?_eq_some heq) par rfl).2
      have hgt : ¬rec.id ≤ par.entry := Nat.not_le.mpr (hat ▸ hnew e he)
      rw [decide_eq_false hgt, Bool.false_and]
    · rfl

/-! ## Growth -/

/-- What a conversation shows grew by newer entries. -/
structure Grows (s s' : Storage (EntryContent V) O) (id : ConversationId) (added : List (ContextEntry V)) : Prop where
  visible : s'.visibleEntries id = s.visibleEntries id ++ added
  newer : ∀ e ∈ s.visibleEntries id, ∀ entry ∈ added, e.id < entry.id

theorem Grows.refl (h : s'.visibleEntries id = s.visibleEntries id) : Grows s s' id [] := ⟨by rw [h, append_nil], fun _ _ _ hent => absurd hent not_mem_nil⟩

theorem Grows.trans {s'' : Storage (EntryContent V) O} {add more : List (ContextEntry V)} (h : Grows s s' id add)
    (h' : Grows s' s'' id more) : Grows s s'' id (add ++ more) where
  visible := by rw [h'.visible, h.visible, append_assoc]
  newer e he entry hent := by
    obtain hin | hin := mem_append.mp hent
    · exact h.newer e he entry hin
    · exact h'.newer e (h.visible ▸ mem_append_left _ he) entry hin

theorem mem_entries_of_visible {ent : ContextEntry V} (h : ent ∈ s.visibleEntries id) : ∃ e ∈ s.entries, e.1 = ent := by
  obtain ⟨e, he, heq⟩ := mem_map.mp (mem_filter.mp h).1
  exact ⟨e, he, heq⟩

/-- A conversation that exists goes on existing. -/
theorem conversation_apply (seq : CommitSeq) (w : StorageWrite (EntryContent V) O) (h : (s.conversation id).isSome) :
    ((s.apply seq w).conversation id).isSome := by
  cases w with
  | conversation rec =>
    obtain ⟨fnd, hfnd⟩ := isSome_iff_exists.mp h
    rw [conversation] at hfnd
    show ((s.conversations ++ [rec]).find? fun c => decide (c.id = id)).isSome
    rw [find?_append, hfnd]
    rfl
  | entry | task | submission | create | copy | change | retire => exact h

variable {w : StorageWrite (EntryContent V) O}

/-- What one write adds to a conversation. -/
theorem grows_apply (h : Chronicle s) (hok : s.WriteOk w) (seq : CommitSeq)
    (hid : (s.conversation id).isSome) : Grows s (s.apply seq w) id (appendedTo id [w]) := by
  cases w with
  | conversation rec =>
    refine Grows.refl (filter_congr fun entry _ => ?_)
    exact visible_conversation h entry seq _ hid
  | entry rec =>
    obtain ⟨-, hnew, -⟩ := hok
    have hvis : (s.apply seq (.entry rec)).visibleEntries id = s.visibleEntries id ++ appendedTo id [(.entry rec : StorageWrite (EntryContent V) O)] := by
      show (((s.entries ++ [(rec, seq)]).map Prod.fst).filter fun entry => _) = _
      rw [map_append, filter_append]
      have hsame : (s.apply seq (.entry rec)).conversations = s.conversations := rfl
      refine congrArg₂ (· ++ ·) (filter_congr fun entry _ => visible_congr hsame entry _) ?_
      have hlast : s.visible rec (id + 1) id = decide (rec.conversationId = id) := visible_newest h hnew id
      by_cases hmine : rec.conversationId = id
      · simp only [map_cons, map_nil, appendedTo, filterMap_cons, filterMap_nil, if_pos hmine]
        refine filter_cons_of_pos ?_
        exact (visible_congr hsame rec _).trans (hlast.trans (decide_eq_true hmine))
      · simp only [map_cons, map_nil, appendedTo, filterMap_cons, filterMap_nil, if_neg hmine]
        refine filter_cons_of_neg (Bool.not_eq_true _ ▸ ?_)
        exact (visible_congr hsame rec _).trans (hlast.trans (decide_eq_false hmine))
    refine ⟨hvis, fun e he entry hent => ?_⟩
    obtain ⟨sto, hsto, rfl⟩ := mem_entries_of_visible he
    simp only [appendedTo, filterMap_cons, filterMap_nil] at hent
    split at hent
    · cases hent
    · rename_i heq
      split at heq
      · cases heq
        obtain rfl := mem_singleton.mp hent
        exact hnew sto hsto
      · cases heq
  | task | submission | create | copy | change | retire =>
    refine Grows.refl (filter_congr fun entry _ => ?_)
    apply visible_congr
    rfl

/-- A write keeps the history one. -/
theorem Chronicle.apply (h : Chronicle s) (hok : s.WriteOk w) (seq : CommitSeq) : Chronicle (s.apply seq w) := by
  cases w with
  | conversation rec =>
    obtain ⟨-, hpar⟩ := hok
    refine ⟨h.sorted, h.heads, fun fnd hfnd par heq => ?_⟩
    obtain hold | rfl := mem_snoc.mp hfnd
    · obtain ⟨hex, hent⟩ := h.parents fnd hold par heq
      exact ⟨conversation_apply seq _ hex, hent⟩
    · obtain ⟨hex, -, entry, hent, hat⟩ := hpar par heq
      obtain ⟨e, he, rfl⟩ := mem_entries_of_visible hent
      exact ⟨conversation_apply seq _ hex, e, he, hat⟩
  | entry rec =>
    obtain ⟨-, hnew, hhead⟩ := hok
    refine ⟨?_, fun e he head heq => ?_, fun fnd hfnd par heq => ?_⟩
    · show ((s.entries ++ [(rec, seq)]).map fun e => e.1.id).Pairwise (· < ·)
      rw [map_append, pairwise_append]
      refine ⟨h.sorted, pairwise_singleton _ _, fun a ha b hb => ?_⟩
      obtain ⟨e, he, rfl⟩ := mem_map.mp ha
      obtain rfl := mem_singleton.mp hb
      exact hnew e he
    · obtain hold | rfl := mem_snoc.mp he
      · exact h.heads e hold head heq
      · exact hhead head heq
    · obtain ⟨hex, e, he, hat⟩ := h.parents fnd hfnd par heq
      exact ⟨hex, e, mem_append_left _ he, hat⟩
  | task | submission | create | copy | change | retire => exact { h with }

theorem appendedTo_cons (id : ConversationId) (w : StorageWrite V O) (rest : List (StorageWrite V O)) :
    appendedTo id (w :: rest) = appendedTo id [w] ++ appendedTo id rest := by
  rw [appendedTo, ← singleton_append, filterMap_append]
  rfl

/-- **What a batch adds to a conversation** is what it appends to it. -/
theorem grows_applyAll (h : Chronicle s) {ws : List (StorageWrite (EntryContent V) O)} (hok : s.BatchOk ws) :
    Chronicle (s.applyAll ws) ∧ ∀ id, (s.conversation id).isSome →
      ((s.applyAll ws).conversation id).isSome ∧ Grows s (s.applyAll ws) id (appendedTo id ws) := by
  induction ws generalizing s with
  | nil => exact ⟨h, fun id hid => ⟨hid, Grows.refl rfl⟩⟩
  | cons w rest ih =>
    obtain ⟨hwrite, hrest⟩ := hok
    obtain ⟨hhist, hgrow⟩ := ih (h.apply hwrite s.nextSeq) hrest
    refine ⟨hhist, fun id hid => ?_⟩
    obtain ⟨hex, hmore⟩ := hgrow id (conversation_apply s.nextSeq w hid)
    refine ⟨hex, ?_⟩
    rw [appendedTo_cons]
    exact (grows_apply h hwrite s.nextSeq hid).trans hmore

end Storage

end PiBridge.Durable
