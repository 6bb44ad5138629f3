import PiBridge.Durable.Context

/-!
# `Durable.Correctness.ContextDerivation` — extending a range derives the same range

Tool results are ordered within a turn, the messages from an assistant message up to the next one, so ordering is
additive where the later part starts a turn (`orderToolResults_append`). That is what `settle` rests on: however often
messages are moved to `settled`, the split is the one at the last assistant message of all (`settle_append`). The
baseline is decided by the first entry that decides it (`findBaseline_append`), and an edit reaches back only into
entries before it. `extendRange_eq` puts these together.
-/

namespace PiBridge.Durable

open List Option

variable {V : Type}

/-! ## Tool results -/

/-- The messages start a turn, or are none. -/
def StartsTurn (messages : List (MessageObject V)) : Prop := ∀ m ∈ messages.head?, m.message.isAssistant = true

variable {msgs : List (MessageObject V)}

/-- A result is looked for in its own turn only. -/
theorem findResult_append (id : String) (lat : List (MessageObject V))
    (h : StartsTurn msgs) : findResult id (lat ++ msgs) = findResult id lat := by
  have hstop : msgs.takeWhile (fun m => !m.message.isAssistant) = [] := by
    cases msgs with
    | nil => rfl
    | cons m rest => rw [takeWhile_cons_of_neg (by simp [h m rfl])]
  induction lat with
  | nil => simp [findResult, hstop]
  | cons m lat ih =>
    unfold findResult at ih ⊢
    by_cases hm : m.message.isAssistant
    · rw [cons_append, takeWhile_cons_of_neg (by simp [hm]), takeWhile_cons_of_neg (by simp [hm])]
    · rw [cons_append, takeWhile_cons_of_pos (by simp [hm]), takeWhile_cons_of_pos (by simp [hm]), find?_cons, find?_cons, ih]

/-- What one message becomes: itself, with the results of its calls, or nothing. -/
def placed (m : MessageObject V) (later : List (MessageObject V)) : List (MessageObject V) :=
  match m.message with
  | .toolResult .. => []
  | .assistant content _ timestamp _ =>
    m :: (toolCalls content).map fun call => (findResult call.id later).getD (missingResult call timestamp)
  | _ => [m]

theorem orderToolResults_cons (m : MessageObject V) (lat : List (MessageObject V)) :
    orderToolResults (m :: lat) = placed m lat ++ orderToolResults lat := by
  obtain ⟨pl, msg⟩ := m
  cases msg <;> rfl

theorem placed_append (m : MessageObject V) (lat : List (MessageObject V))
    (h : StartsTurn msgs) : placed m (lat ++ msgs) = placed m lat := by
  simp only [placed, findResult_append _ _ h]

/-- **Ordering tool results is additive at the start of a turn.** -/
theorem orderToolResults_append (earl : List (MessageObject V)) (h : StartsTurn msgs) :
    orderToolResults (earl ++ msgs) = orderToolResults earl ++ orderToolResults msgs := by
  induction earl with
  | nil => rfl
  | cons m earl ih =>
    rw [cons_append, orderToolResults_cons, orderToolResults_cons, placed_append m earl h, ih, append_assoc]

/-! ## Settled messages -/

theorem lastAssistant_append (a b : List (MessageObject V)) :
    lastAssistant (a ++ b) = ((lastAssistant b).map (a.length + ·)).or (lastAssistant a) := by
  induction a with
  | nil => cases h : lastAssistant b <;> simp [lastAssistant, h]
  | cons m a ih =>
    rw [cons_append, lastAssistant, ih, lastAssistant]
    cases lastAssistant b with
    | none => rfl
    | some i => simp [Nat.add_right_comm]

/-- Dropping up to the last assistant message leaves it first, with no other after it. -/
theorem lastAssistant_drop {i : Nat} (h : lastAssistant msgs = some i) :
    i < msgs.length ∧ StartsTurn (msgs.drop i) ∧ lastAssistant (msgs.drop i) = some 0 := by
  induction msgs generalizing i with
  | nil => cases h
  | cons m rest ih =>
    have hcons := h
    rw [lastAssistant] at h
    cases hrest : lastAssistant rest with
    | some j =>
      rw [hrest] at h
      cases h
      obtain ⟨hlt, hstarts, hzero⟩ := ih hrest
      exact ⟨Nat.succ_lt_succ hlt, hstarts, hzero⟩
    | none =>
      rw [hrest] at h
      by_cases hm : m.message.isAssistant
      · rw [if_pos hm] at h
        cases h
        exact ⟨Nat.succ_pos _, fun a ha => some.inj ha ▸ hm, hcons⟩
      · rw [if_neg hm] at h
        cases h

/-- Where the messages of a whole range are split. -/
def turnStart (messages : List (MessageObject V)) : Nat := (lastAssistant messages).getD 0

section

variable (msgs)

theorem settle_nil :
    settle [] msgs = (orderToolResults (msgs.take (turnStart msgs)), msgs.drop (turnStart msgs)) := by
  unfold settle turnStart
  cases lastAssistant msgs with
  | none => rfl
  | some i => cases i <;> rfl

theorem turnStart_le : turnStart msgs ≤ msgs.length := by
  unfold turnStart
  cases h : lastAssistant msgs with
  | none => exact Nat.zero_le _
  | some i => exact Nat.le_of_lt (lastAssistant_drop h).1

/-- What is open starts a turn, unless nothing is settled. -/
theorem startsTurn_drop (h : turnStart msgs ≠ 0) :
    StartsTurn (msgs.drop (turnStart msgs)) := by
  unfold turnStart at h ⊢
  cases hlast : lastAssistant msgs with
  | none => exact absurd (by rw [hlast]; rfl) h
  | some i => exact (lastAssistant_drop hlast).2.1

end

theorem StartsTurn.take (h : StartsTurn msgs) (n : Nat) : StartsTurn (msgs.take n) := by
  cases msgs with
  | nil => simpa using h
  | cons m rest =>
    cases n with
    | zero => intro m hm; cases hm
    | succ n => exact h

theorem StartsTurn.append {more : List (MessageObject V)} (h : StartsTurn msgs) (hne : msgs ≠ []) :
    StartsTurn (msgs ++ more) := by
  cases msgs with
  | nil => exact absurd rfl hne
  | cons m rest => exact h

/-- **Settling step by step settles as settling at once does.** -/
theorem settle_append (msgs more : List (MessageObject V)) :
    settle (settle [] msgs).1 ((settle [] msgs).2 ++ more) = settle [] (msgs ++ more) := by
  rw [settle_nil msgs, settle_nil (msgs ++ more)]
  have hsplit := take_append_drop (turnStart msgs) msgs
  generalize hk : turnStart msgs = k at *
  have hlast : lastAssistant (msgs ++ more) = ((lastAssistant more).map (msgs.length + ·)).or (lastAssistant msgs) :=
    lastAssistant_append msgs more
  cases hmore : lastAssistant more with
  | some i =>
    -- The last assistant message is among those that came later.
    have hsta : turnStart (msgs ++ more) = msgs.length + i := by rw [turnStart, hlast, hmore]; rfl
    have hopen : lastAssistant (msgs.drop k ++ more) = some ((msgs.drop k).length + i) := by
      rw [lastAssistant_append, hmore]
      rfl
    have htake : (msgs ++ more).take (msgs.length + i) = msgs.take k ++ (msgs.drop k ++ more).take ((msgs.drop k).length + i) := by
      rw [take_length_add_append, take_length_add_append, ← append_assoc, hsplit]
    have hdrop : (msgs ++ more).drop (msgs.length + i) = (msgs.drop k ++ more).drop ((msgs.drop k).length + i) := by
      rw [drop_length_add_append, drop_length_add_append]
    have hordr : orderToolResults ((msgs ++ more).take (msgs.length + i)) =
        orderToolResults (msgs.take k) ++ orderToolResults ((msgs.drop k ++ more).take ((msgs.drop k).length + i)) := by
      rw [htake]
      by_cases hzero : k = 0
      · subst hzero
        rfl
      · have hturn := startsTurn_drop msgs (hk ▸ hzero)
        rw [hk] at hturn
        have hne : msgs.drop k ≠ [] := by
          intro hnil
          unfold turnStart at hk
          cases hm : lastAssistant msgs with
          | none => rw [hm] at hk; exact hzero hk.symm
          | some j =>
            rw [hm] at hk
            obtain rfl : j = k := hk
            exact absurd (lastAssistant_drop hm).1 (Nat.not_lt.mpr (drop_eq_nil_iff.mp hnil))
        exact orderToolResults_append _ ((hturn.append hne).take _)
    rw [hsta, hordr, hdrop, settle, hopen]
    cases hsum : (msgs.drop k).length + i with
    | zero =>
      have hnil : msgs.drop k = [] := length_eq_zero_iff.mp (by omega)
      simp [hnil, orderToolResults]
    | succ n => rfl
  | none =>
    have hsta : turnStart (msgs ++ more) = k := by rw [turnStart, hlast, hmore, ← hk]; rfl
    have hle : k ≤ msgs.length := hk ▸ turnStart_le msgs
    have hopen : lastAssistant (msgs.drop k ++ more) = none ∨ lastAssistant (msgs.drop k ++ more) = some 0 := by
      rw [lastAssistant_append, hmore]
      unfold turnStart at hk
      cases hm : lastAssistant msgs with
      | none =>
        rw [hm] at hk
        obtain rfl : 0 = k := hk
        exact .inl hm
      | some j =>
        rw [hm] at hk
        obtain rfl : j = k := hk
        exact .inr (lastAssistant_drop hm).2.2
    rw [hsta, take_append_of_le_length hle, drop_append_of_le_length hle, settle]
    obtain h | h := hopen
    · rw [h]
    · rw [h]
      rfl

/-! ## Edits and the baseline -/

theorem editsOf_append (es add : List (ContextEntry V)) : editsOf (es ++ add) = editsOf es ++ editsOf add := flatMap_append

/-- Entries without edits edit nothing. -/
theorem editsOf_eq_nil {add : List (ContextEntry V)} (h : ∀ e ∈ add, e.rest.edits = none) : editsOf add = [] := by
  rw [editsOf, flatMap_eq_nil_iff]
  intro e hent
  rw [h e hent]
  rfl

/-- An entry that no edit targets contributes its own messages. -/
theorem editOf_eq_none {es : List (ContextEntry V)} {id : EntryId} (h : id ∉ (editsOf es).map (·.target)) : editOf es id = none := by
  rw [editOf, find?_eq_none]
  intro edit hedit htgt
  exact h (mem_map.mpr ⟨edit, mem_reverse.mp hedit, of_decide_eq_true htgt⟩)

/-- The first entry that decides the baseline decides it. -/
theorem findBaseline_append (head : Option (HeadMarker V)) (es add : List (ContextEntry V)) :
    findBaseline head (es ++ add) = (findBaseline head es).or (findBaseline head add) := by
  induction es with
  | nil => rfl
  | cons e es ih =>
    rw [cons_append, findBaseline, findBaseline]
    split
    · exact ih
    · split
      · rfl
      · split
        · rfl
        · exact ih

theorem selectActive_append (head : Option (HeadMarker V)) (es : List (ContextEntry V)) {add : List (ContextEntry V)}
    (h : ∀ e ∈ add, e.head = none) : selectActive head (es ++ add) = selectActive head es ++ add := by
  cases head with
  | none => rfl
  | some mk =>
    have hall : add.filter (fun e => e.head.isNone) = add := filter_eq_self.mpr fun e hent => by rw [h e hent]; rfl
    rw [selectActive, selectActive, filter_append, hall, cons_append]

/-! ## Ranges -/

/-- The messages a range contributes, before tool result ordering. -/
def contributedMessages (entries active : List (ContextEntry V)) : List (MessageObject V) :=
  (active.map fun entry => contribute entry (editOf entries entry.id)).flatten

/-- **Extending a range under the same head marker derives the range of all its entries.** -/
theorem extendRange_eq (bds bds' : ContextBounds V) (es add : List (ContextEntry V)) (cur cur' : Bool)
    (hhead : bds'.head = bds.head) :
    extendRange (deriveRange bds es cur) bds' add cur' = deriveRange bds' (es ++ add) cur' := by
  unfold extendRange
  split
  · rfl
  rename_i hplain
  have hnone : ∀ e ∈ add, e.rest.edits = none ∧ e.head = none ∧ e.id ∉ (editsOf es).map (·.target) := by
    intro e hent
    have hent' : ¬(e.rest.edits.isSome || e.head.isSome || decide (e.id ∈ (editsOf es).map (·.target))) = true :=
      fun h => hplain (any_eq_true.mpr ⟨e, hent, h⟩)
    simp only [Bool.or_eq_true, decide_eq_true_eq, not_or, Bool.not_eq_true, isSome_eq_false_iff, isNone_iff_eq_none] at hent'
    exact ⟨hent'.1.1, hent'.1.2, hent'.2⟩
  have hedit : editsOf (es ++ add) = editsOf es := by
    rw [editsOf_append, editsOf_eq_nil fun e hent => (hnone e hent).1, append_nil]
  have heditOf : ∀ id, editOf (es ++ add) id = editOf es id := fun id => by rw [editOf, hedit, editOf]
  have hact : selectActive bds.head (es ++ add) = selectActive bds.head es ++ add :=
    selectActive_append _ _ fun e hent => (hnone e hent).2.1
  have hadd : add.map (fun e => contribute e (editOf es e.id)) = add.map fun e => contribute e none :=
    map_congr_left fun e hent => by rw [editOf_eq_none (hnone e hent).2.2]
  have hcontr : (selectActive bds.head es ++ add).map (fun e => contribute e (editOf (es ++ add) e.id)) =
      (selectActive bds.head es).map (fun e => contribute e (editOf es e.id)) ++ add.map fun e => contribute e none := by
    simp only [heditOf, map_append, hadd]
  have hsettle := settle_append (contributedMessages es (selectActive bds.head es))
    (add.map fun e => contribute e none).flatten
  rw [contributedMessages, ← flatten_append] at hsettle
  have hbaseline := findBaseline_append bds.head (selectActive bds.head es) add
  unfold deriveRange
  simp only [hhead, hedit, hact, hcontr, hsettle, hbaseline]
  cases findBaseline bds.head (selectActive bds.head es) <;> rfl

end PiBridge.Durable
