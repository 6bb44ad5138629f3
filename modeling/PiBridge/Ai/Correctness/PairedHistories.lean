import PiBridge.Ai.TransformMessages

/-!
# `Ai.Correctness.PairedHistories` — in a replayed history every call has its result

The two passes read a history together: what stands after some messages is a paired history, and the last assistant
message with the results it has so far (`Stands`). The renamed IDs meet, as the map knows exactly the calls so far.
-/

namespace PiBridge.Ai

open Chord Lib List Assoc

variable {V : Type}

/-! ## Histories -/

namespace Message

def isResult : Message V → Bool
  | .toolResult _ => true
  | _ => false

def isFailed : Message V → Bool
  | .assistant m => Replay.isFailed m
  | _ => false

def isSystem : Message V → Bool
  | .system _ _ => true
  | _ => false

end Message

/-- The IDs of an assistant message's calls. -/
def AssistantMessage.callIds (m : AssistantMessage V) : List Text := (toolCalls (m.content.getD [])).map (·.id)

/-- The IDs of a message's calls. -/
def callIds : Message V → List Text
  | .assistant m => m.callIds
  | _ => []

/-- The last assistant message, where no user message comes after it. -/
def standing (messages : List (Message V)) : Option (AssistantMessage V) :=
  messages.foldl (fun last msg => match msg with
    | .assistant m => some m
    | .user _ _ => none
    | _ => last) none

/-- The results since the last assistant or user message. -/
def answered (messages : List (Message V)) : List Text :=
  messages.foldl (fun ids msg => match msg with
    | .assistant _ | .user _ _ => []
    | .toolResult m => ids ++ [m.toolCallId]
    | .system _ _ => ids) []

/-- Call IDs are distinct, and each result answers, at most once, a call of the last assistant message before it with no
    user message in between. -/
structure History (messages : List (Message V)) : Prop where
  distinct : (messages.flatMap callIds).Nodup
  answers : ∀ before r after, messages = before ++ .toolResult r :: after →
    ∃ m, standing before = some m ∧ r.toolCallId ∈ m.callIds ∧ r.toolCallId ∉ answered before

/-- Each assistant message is followed by one result for each of its calls; no other result occurs. -/
inductive Paired : List (Message V) → Prop
  | nil : Paired []
  | plain {msg : Message V} {rest : List (Message V)} (hcalls : callIds msg = []) (hresult : msg.isResult = false)
      (hrest : Paired rest) : Paired (msg :: rest)
  | turn {m : AssistantMessage V} {results : List (ToolResultMessage V)} {rest : List (Message V)}
      (hresults : (results.map (·.toolCallId)).Perm m.callIds) (hrest : Paired rest) :
      Paired (.assistant m :: (results.map .toolResult ++ rest))

namespace Paired

theorem append {msgs lat : List (Message V)} (h : Paired msgs) (hlat : Paired lat) : Paired (msgs ++ lat) := by
  induction h with
  | nil => exact hlat
  | plain hcalls hres _ ih => exact plain hcalls hres ih
  | turn hresults _ ih =>
    rw [cons_append, append_assoc]
    exact turn hresults ih

variable {msgs : List (Message V)}

theorem mem_calls (h : Paired msgs) {r : ToolResultMessage V} (hr : .toolResult r ∈ msgs) :
    r.toolCallId ∈ msgs.flatMap callIds := by
  induction h with
  | nil => cases hr
  | plain hcalls hres _ ih =>
    rcases mem_cons.mp hr with rfl | hr
    · cases hres
    · exact mem_append_right _ (ih hr)
  | @turn m results rest hresults _ ih =>
    rw [flatMap_cons, flatMap_append]
    rcases mem_cons.mp hr with heq | hr
    · cases heq
    rcases mem_append.mp hr with hr | hr
    · obtain ⟨r', hr', heq⟩ := mem_map.mp hr
      cases heq
      exact mem_append_left _ (hresults.subset (mem_map_of_mem hr'))
    · exact mem_append_right _ (mem_append_right _ (ih hr))

end Paired

/-! ## IDs -/

section Ids

variable (model : Model) (naming : Option (Text → AssistantMessage V → Text))

/-- On the IDs of a history: one to one, none becomes the ID of another call, and twice is once. -/
structure Normalizes (messages : List (Message V)) : Prop where
  injective : ∀ normalize ∈ naming, ∀ m m' id id', .assistant m ∈ messages → id ∈ m.callIds →
    .assistant m' ∈ messages → id' ∈ m'.callIds → normalize id m = normalize id' m' → id = id'
  foreign : ∀ normalize ∈ naming, ∀ m m' id id', .assistant m ∈ messages → id ∈ m.callIds →
    .assistant m' ∈ messages → id' ∈ m'.callIds → normalize id m = id' → id = id'
  idempotent : ∀ normalize ∈ naming, ∀ m id, .assistant m ∈ messages → id ∈ m.callIds →
    ∀ m' : AssistantMessage V, m'.api = m.api → m'.provider = m.provider → m'.model = m.model →
      normalize (normalize id m) m' = normalize id m

variable {model} {naming} {msgs : List (Message V)}

variable (model) in
/-- No call gets the ID of another, renamed or not. -/
theorem Normalizes.own (h : Normalizes naming msgs) {m m' : AssistantMessage V} {id id' : Text}
    (hm : .assistant m ∈ msgs) (hid : id ∈ m.callIds) (hm' : .assistant m' ∈ msgs) (hid' : id' ∈ m'.callIds)
    (heq : normalizedId model naming m id = id') : id = id' := by
  unfold normalizedId at heq
  split at heq
  · split at heq
    · exact heq
    · exact h.foreign _ rfl m m' id id' hm hid hm' hid' heq
  · exact heq

theorem Normalizes.one (h : Normalizes naming msgs) {m m' : AssistantMessage V} {id id' : Text}
    (hm : .assistant m ∈ msgs) (hid : id ∈ m.callIds) (hm' : .assistant m' ∈ msgs) (hid' : id' ∈ m'.callIds)
    (heq : normalizedId model naming m id = normalizedId model naming m' id') : id = id' := by
  cases naming with
  | none => exact heq
  | some normalize =>
    by_cases hsame : isSameModel model m' = true
    · refine h.own model hm hid hm' hid' (heq.trans ?_)
      exact if_pos hsame
    · by_cases hsame' : isSameModel model m = true
      · refine (h.own model hm' hid' hm hid (heq.symm.trans ?_)).symm
        exact if_pos hsame'
      · unfold normalizedId at heq
        dsimp only at heq
        rw [if_neg hsame, if_neg hsame'] at heq
        exact h.injective _ rfl m m' id id' hm hid hm' hid' heq

theorem get?_renameCalls (m : AssistantMessage V) (ids : Assoc Text Text) (cs : List (ToolCall V)) (id : Text) :
    Assoc.get? (renameCalls model naming m ids cs) id =
      if id ∈ cs.map (·.id) ∧ normalizedId model naming m id ≠ id then some (normalizedId model naming m id)
      else Assoc.get? ids id := by
  induction cs generalizing ids with
  | nil => simp [renameCalls]
  | cons c cs ih =>
    have hfold : renameCalls model naming m ids (c :: cs) =
        renameCalls model naming m (if normalizedId model naming m c.id = c.id then ids
          else set ids c.id (normalizedId model naming m c.id)) cs := rfl
    rw [hfold, ih]
    simp only [map_cons, mem_cons]
    by_cases hid : id = c.id
    · subst hid
      by_cases hsame : normalizedId model naming m c.id = c.id
      · simp [hsame]
      · simp [hsame]
    · have hget : get? (if normalizedId model naming m c.id = c.id then ids
          else set ids c.id (normalizedId model naming m c.id)) id = get? ids id := by
        split
        · rfl
        · exact get?_set_ne _ _ (Ne.symm hid)
      simp only [hget, hid, false_or]

variable (model) (naming) in
/-- The calls of a message that is sent carry their new IDs. -/
theorem callIds_transformAssistant (m : AssistantMessage V) :
    (transformAssistant model naming m).callIds = m.callIds.map (normalizedId model naming m) := by
  have hblock : ∀ block : Block V, (toolCalls (transformBlock model naming m block)).map (·.id) =
      ((toolCalls [block]).map (·.id)).map (normalizedId model naming m) := by
    intro block
    cases block with
    | toolCall c => rfl
    | text block =>
      simp only [transformBlock]
      split <;> rfl
    | thinking block =>
      simp only [transformBlock]
      repeat' split
      all_goals rfl
  have hcont : ∀ cont : List (Block V), (toolCalls (cont.flatMap (transformBlock model naming m))).map (·.id) =
        ((toolCalls cont).map (·.id)).map (normalizedId model naming m) := by
    intro cont
    induction cont with
    | nil => rfl
    | cons block cont ih =>
      have hcons : toolCalls (block :: cont) = toolCalls [block] ++ toolCalls cont := filterMap_append (l := [block]) ..
      rw [flatMap_cons, hcons, map_append, map_append, ← hblock, ← ih, ← map_append]
      exact congrArg _ (filterMap_append ..)
  unfold AssistantMessage.callIds transformAssistant
  cases m.content with
  | none => rfl
  | some cont => exact hcont cont

end Ids

/-! ## Both passes -/

section Passes

variable (model : Model) (naming : Option (Text → AssistantMessage V → Text)) (now : Nat)

/-- A message as the first pass takes it. -/
def prepared (msg : Message V) : Message V := downgradeUnsupportedImages model (normalizeContent msg)

/-- A turn of the first pass. -/
def taken (ids : Assoc Text Text) (msg : Message V) : Assoc Text Text × Message V := transformMessage model naming ids (prepared model msg)

/-- A message as it is sent; a result is not renamed yet. -/
def sent (msg : Message V) : Message V := (taken model naming [] msg).2

/-- The map after some messages. -/
def renames (messages : List (Message V)) : Assoc Text Text := messages.foldl (fun ids msg => (taken model naming ids msg).1) []

/-- The renamed IDs and the replay, after a message. -/
def step (state : Assoc Text Text × Replay V) (msg : Message V) : Assoc Text Text × Replay V :=
  ((taken model naming state.1 msg).1, state.2.next now (taken model naming state.1 msg).2)

/-- After some messages. -/
def passed (messages : List (Message V)) : Assoc Text Text × Replay V := messages.foldl (step model naming now) ([], Replay.start)

variable {model} {naming} {now} {r : Replay V} {msg : Message V} {msgs : List (Message V)} {m : AssistantMessage V}

section

variable (msgs)

theorem foldl_firstPass (ids : Assoc Text Text) (r : Replay V) :
    (firstPass model naming ids (msgs.map (prepared model))).foldl (Replay.next now) r =
      (msgs.foldl (step model naming now) (ids, r)).2 := by
  induction msgs generalizing ids r with
  | nil => rfl
  | cons msg msgs ih => exact ih _ _

theorem passed_concat (msg : Message V) :
    passed model naming now (msgs ++ [msg]) = step model naming now (passed model naming now msgs) msg :=
  foldl_concat ..

theorem renames_concat (msg : Message V) :
    renames model naming (msgs ++ [msg]) = (taken model naming (renames model naming msgs) msg).1 :=
  foldl_concat ..

theorem passed_fst : (passed model naming now msgs).1 = renames model naming msgs := by
  induction msgs using reverseRecOn with
  | nil => rfl
  | append_singleton msgs msg ih =>
    rw [passed_concat, renames_concat, ← ih]
    rfl

/-- The two passes, read together. -/
theorem transformMessages_eq :
    transformMessages model naming now msgs = ((passed model naming now msgs).2.closePendingToolCalls now).result := by
  unfold transformMessages
  exact congrArg (fun r => (Replay.closePendingToolCalls now r).result) (foldl_firstPass msgs [] Replay.start)

end

/-! ### How a message is taken -/

/-- Missing content counts as empty. -/
def AssistantMessage.filled (m : AssistantMessage V) : AssistantMessage V := { m with content := some (m.content.getD []) }

variable (model) in
def preparedResult (r : ToolResultMessage V) : ToolResultMessage V :=
  { r with content := some (if text "image" ∈ model.input then r.content.getD []
                            else replaceImagesWithPlaceholder (r.content.getD []) nonVisionToolImagePlaceholder) }

theorem prepared_assistant (m : AssistantMessage V) : prepared model (.assistant m) = .assistant m.filled := by
  unfold prepared downgradeUnsupportedImages
  split <;> rfl

theorem prepared_toolResult (r : ToolResultMessage V) : prepared model (.toolResult r) = .toolResult (preparedResult model r) := by
  unfold prepared downgradeUnsupportedImages preparedResult
  split <;> rfl

variable (cont : Option MessageContent)

variable (model) in
theorem prepared_system (rest : V) : ∃ cont', prepared model (.system cont rest) = .system cont' rest := by
  unfold prepared downgradeUnsupportedImages
  split <;> cases cont <;> exact ⟨_, rfl⟩

variable (model) in
theorem prepared_user (rest : V) : ∃ cont', prepared model (.user cont rest) = .user cont' rest := by
  unfold prepared downgradeUnsupportedImages
  split
  · cases cont <;> exact ⟨_, rfl⟩
  · rcases cont with _ | _ | _ <;> exact ⟨_, rfl⟩

theorem taken_assistant (ids : Assoc Text Text) (m : AssistantMessage V) : taken model naming ids (.assistant m) =
    (renameCalls model naming m.filled ids (toolCalls (m.content.getD [])), .assistant (transformAssistant model naming m.filled)) := by
  rw [taken, prepared_assistant]
  rfl

theorem taken_toolResult (ids : Assoc Text Text) (r : ToolResultMessage V) :
    taken model naming ids (.toolResult r) = (ids, .toolResult (renameResult ids (preparedResult model r))) := by
  rw [taken, prepared_toolResult]
  rfl

variable (model) (naming) in
theorem taken_system (rest : V) :
    ∃ cont', ∀ ids, taken model naming ids (.system cont rest) = (ids, .system cont' rest) := by
  obtain ⟨cont', h⟩ := prepared_system model cont rest
  exact ⟨cont', fun ids => by rw [taken, h]; rfl⟩

variable (model) (naming) in
theorem taken_user (rest : V) :
    ∃ cont', ∀ ids, taken model naming ids (.user cont rest) = (ids, .user cont' rest) := by
  obtain ⟨cont', h⟩ := prepared_user model cont rest
  exact ⟨cont', fun ids => by rw [taken, h]; rfl⟩

variable (model) (naming) in
/-- A message keeps its kind; only results are read with the map. -/
theorem taken_kind (ids : Assoc Text Text) (msg : Message V) : (taken model naming ids msg).2.isResult = msg.isResult ∧
    (taken model naming ids msg).2.isFailed = msg.isFailed ∧ (taken model naming ids msg).2.isSystem = msg.isSystem ∧
    (msg.isResult = false → (taken model naming ids msg).2 = sent model naming msg) := by
  unfold sent
  cases msg with
  | assistant m =>
    rw [taken_assistant, taken_assistant]
    exact ⟨rfl, rfl, rfl, fun _ => rfl⟩
  | toolResult r =>
    rw [taken_toolResult]
    exact ⟨rfl, rfl, rfl, nofun⟩
  | system cont rest =>
    obtain ⟨cont', h⟩ := taken_system model naming cont rest
    rw [h, h]
    exact ⟨rfl, rfl, rfl, fun _ => rfl⟩
  | user cont rest =>
    obtain ⟨cont', h⟩ := taken_user model naming cont rest
    rw [h, h]
    exact ⟨rfl, rfl, rfl, fun _ => rfl⟩

theorem filled_of_call {id : Text} (hid : id ∈ m.callIds) : m.filled = m := by
  cases hcont : m.content with
  | none =>
    rw [AssistantMessage.callIds, hcont] at hid
    cases hid
  | some cont =>
    unfold AssistantMessage.filled
    rw [hcont, Option.getD_some, ← hcont]

theorem callIds_sent (msg : Message V) : callIds (sent model naming msg) = match msg with
    | .assistant m => m.callIds.map (normalizedId model naming m)
    | _ => [] := by
  unfold sent
  cases msg with
  | assistant m =>
    rw [taken_assistant]
    exact (callIds_transformAssistant model naming m.filled).trans (map_congr_left fun id hid => by rw [filled_of_call (m := m) hid])
  | toolResult r =>
    rw [taken_toolResult]
    rfl
  | system cont rest =>
    obtain ⟨cont', h⟩ := taken_system model naming cont rest
    rw [h]
    rfl
  | user cont rest =>
    obtain ⟨cont', h⟩ := taken_user model naming cont rest
    rw [h]
    rfl

/-! ### What is sent -/

/-- The messages that are no results. -/
def others (messages : List (Message V)) : List (Message V) := messages.filter fun msg => !msg.isResult

/-- What stands, with what is held back. -/
def Replay.shown (r : Replay V) : List (Message V) := r.result ++ r.heldSystemMessages

/-- Nothing is held back where no call is open. -/
def Replay.Tidy (r : Replay V) : Prop := r.pendingToolCalls = [] → r.heldSystemMessages = []

/-- What a turn of the second pass does. -/
inductive Replay.Turns (now : Nat) (r : Replay V) (msg : Message V) : Replay V → Prop
  | drops (hfailed : msg.isFailed = true) : Turns now r msg (r.closePendingToolCalls now)
  | closes {calls : List (ToolCall V)} {existing : List Text} (hfailed : msg.isFailed = false) (hresult : msg.isResult = false) :
      Turns now r msg ⟨(r.closePendingToolCalls now).result ++ [msg], calls, existing, []⟩
  | pushes {existing : List Text} (hfailed : msg.isFailed = false) (hplace : msg.isResult = true ∨ r.pendingToolCalls = []) :
      Turns now r msg ⟨r.result ++ [msg], r.pendingToolCalls, existing, r.heldSystemMessages⟩
  | holds (hfailed : msg.isFailed = false) (hsystem : msg.isSystem = true) (hresult : msg.isResult = false)
      (hopen : r.pendingToolCalls ≠ []) : Turns now r msg { r with heldSystemMessages := r.heldSystemMessages ++ [msg] }

variable (now) in
theorem turns_next (r : Replay V) (msg : Message V) : r.Turns now msg (r.next now msg) := by
  cases msg with
  | assistant m =>
    simp only [Replay.next]
    split
    · exact .drops ‹_›
    · rename_i hfail
      have hsent : (Message.assistant m).isFailed = false := Bool.eq_false_iff.mpr hfail
      split
      · exact .closes hsent rfl
      · exact .closes hsent rfl
  | toolResult m => exact .pushes rfl (.inl rfl)
  | system cont rest =>
    simp only [Replay.next]
    split
    · rename_i hemp
      exact .pushes rfl (.inr (isEmpty_iff.mp hemp))
    · rename_i hopen
      exact .holds rfl rfl rfl fun hnone => hopen (isEmpty_iff.mpr hnone)
  | user cont rest => exact .closes rfl rfl

theorem others_append (msgs lat : List (Message V)) : others (msgs ++ lat) = others msgs ++ others lat := filter_append ..

variable (now) in
theorem others_close (r : Replay V) : others (r.closePendingToolCalls now).result = others r.shown := by
  have hmiss : others (r.missingResults now) = [] := by
    refine filter_eq_nil_iff.mpr fun msg hmsg => ?_
    obtain ⟨c, -, rfl⟩ := mem_map.mp hmsg
    simp [Replay.noResult, Message.isResult]
  simp only [Replay.closePendingToolCalls, Replay.shown, others_append, hmiss, append_nil]

variable (now) in
/-- What a turn of the second pass adds. -/
theorem next_shown (htidy : r.Tidy) (msg : Message V) : (r.next now msg).Tidy ∧
    others (r.next now msg).shown = others r.shown ++ [msg].filter fun msg => !msg.isResult && !msg.isFailed := by
  have hone : ∀ msg : Message V, msg.isResult = false → others [msg] = [msg] := fun msg h => by simp [others, h]
  generalize hturn : r.next now msg = r'
  cases hturn ▸ turns_next now r msg with
  | drops hfail =>
    refine ⟨fun _ => rfl, ?_⟩
    show others (_ ++ []) = _
    rw [append_nil, others_close]
    simp [hfail]
  | closes hfail hres =>
    refine ⟨fun _ => rfl, ?_⟩
    show others (_ ++ [msg] ++ []) = _
    rw [append_nil, others_append, others_close, hone msg hres]
    simp [hfail, hres]
  | pushes hfail hplace =>
    refine ⟨htidy, ?_⟩
    cases hres : msg.isResult with
    | true => simp [Replay.shown, others, hres]
    | false =>
      have hheld := htidy (hplace.resolve_left (by simp [hres]))
      simp [Replay.shown, hheld, others, hres, hfail]
  | holds hfail hsystem hres hopen =>
    refine ⟨fun hnone => absurd hnone hopen, ?_⟩
    simp [Replay.shown, others, hres, hfail]

variable (model) (naming) (now) in
/-- **The others keep their order.** -/
theorem others_passed (msgs : List (Message V)) : (passed model naming now msgs).2.Tidy ∧
    others (passed model naming now msgs).2.shown =
      (msgs.filter fun msg => !msg.isResult && !msg.isFailed).map (sent model naming) := by
  induction msgs using reverseRecOn with
  | nil => exact ⟨fun _ => rfl, rfl⟩
  | append_singleton msgs msg ih =>
    obtain ⟨htidy, hothers⟩ := ih
    rw [passed_concat]
    obtain ⟨htidy', hothers'⟩ := next_shown now htidy (taken model naming (passed model naming now msgs).1 msg).2
    obtain ⟨hres, hfail, -, hplain⟩ := taken_kind model naming (passed model naming now msgs).1 msg
    refine ⟨htidy', hothers'.trans ?_⟩
    rw [hothers, filter_append, map_append, filter_singleton, filter_singleton, hres, hfail]
    cases h : msg.isResult with
    | true => rfl
    | false =>
      rw [hplain h]
      cases msg.isFailed <;> rfl

/-! ### What is kept -/

section Kept

-- `p`: messages that are sent right away
variable {p : Message V → Bool} (hp : ∀ msg, p msg = true → msg.isFailed = false ∧ msg.isSystem = false)

variable (now) (p) in
theorem kept_close (r : Replay V) : (r.result.filter p).Sublist ((r.closePendingToolCalls now).result.filter p) := by
  unfold Replay.closePendingToolCalls
  rw [filter_append, filter_append, append_assoc]
  exact sublist_append_left _ _

include hp in
theorem kept_next (r : Replay V) (msg : Message V) : (r.result.filter p ++ [msg].filter p).Sublist ((r.next now msg).result.filter p) := by
  have hnone : ¬p msg = true → r.result.filter p ++ [msg].filter p = r.result.filter p := fun hnot => by
    rw [filter_cons_of_neg hnot, filter_nil, append_nil]
  generalize hturn : r.next now msg = r'
  cases hturn ▸ turns_next now r msg with
  | drops hfail =>
    rw [hnone fun hkept => absurd hfail (by simp [(hp msg hkept).1])]
    exact kept_close now p r
  | closes =>
    rw [filter_append]
    exact (kept_close now p r).append (Sublist.refl _)
  | pushes => rw [filter_append]
  | holds _ hsystem => rw [hnone fun hkept => absurd hsystem (by simp [(hp msg hkept).2])]

variable (now) in
include hp in
/-- None of them is left out, and they keep their order. -/
theorem kept_foldl (msgs : List (Message V)) (r : Replay V) :
    (r.result.filter p ++ msgs.filter p).Sublist ((msgs.foldl (Replay.next now) r).result.filter p) := by
  induction msgs generalizing r with
  | nil => exact (append_nil _).symm ▸ Sublist.refl _
  | cons msg msgs ih =>
    have hcons : (msg :: msgs).filter p = [msg].filter p ++ msgs.filter p := filter_append [msg] msgs
    rw [hcons, ← append_assoc]
    exact ((kept_next hp r msg).append (Sublist.refl _)).trans (ih _)

end Kept

/-! ### Renames -/

theorem firstPass_concat (msgs : List (Message V)) (msg : Message V) :
    firstPass model naming [] ((msgs ++ [msg]).map (prepared model)) = firstPass model naming [] (msgs.map (prepared model)) ++
      [(taken model naming (renames model naming msgs) msg).2] := by
  have hfrom : ∀ ids, firstPass model naming ids ((msgs ++ [msg]).map (prepared model)) =
      firstPass model naming ids (msgs.map (prepared model)) ++
        [(taken model naming (msgs.foldl (fun ids msg => (taken model naming ids msg).1) ids) msg).2] := by
    induction msgs with
    | nil => exact fun ids => rfl
    | cons msg' msgs ih => exact fun ids => congrArg _ (ih _)
  exact hfrom []

variable (model) (naming) in
/-- **The map knows the calls so far that are renamed**, and no others. -/
theorem get?_renames (hdist : (msgs.flatMap callIds).Nodup) (id : Text) :
    (∀ m, .assistant m ∈ msgs → id ∈ m.callIds → Assoc.get? (renames model naming msgs) id =
      if normalizedId model naming m id ≠ id then some (normalizedId model naming m id) else none) ∧
    (id ∉ msgs.flatMap callIds → Assoc.get? (renames model naming msgs) id = none) := by
  induction msgs using reverseRecOn with
  | nil => exact ⟨nofun, fun _ => rfl⟩
  | append_singleton msgs msg ih =>
    rw [flatMap_append, flatMap_singleton] at hdist ⊢
    obtain ⟨hbef, -, hdisj⟩ := nodup_append.mp hdist
    obtain ⟨hkn, hunkn⟩ := ih hbef
    have hkeep : callIds msg = [] → (taken model naming (renames model naming msgs) msg).1 = renames model naming msgs →
        (∀ m, .assistant m ∈ msgs ++ [msg] → id ∈ m.callIds → Assoc.get? (taken model naming (renames model naming msgs) msg).1 id =
            if normalizedId model naming m id ≠ id then some (normalizedId model naming m id) else none) ∧
        (id ∉ msgs.flatMap callIds ++ callIds msg → Assoc.get? (taken model naming (renames model naming msgs) msg).1 id = none) := by
      intro hnone hsame
      rw [hnone, append_nil, hsame]
      refine ⟨fun m hm hid => ?_, hunkn⟩
      rcases mem_append.mp hm with hm | hm
      · exact hkn m hm hid
      · cases mem_singleton.mp hm
        rw [show m.callIds = [] from hnone] at hid
        cases hid
    rw [renames_concat]
    cases msg with
    | assistant m' =>
      simp only [taken_assistant, get?_renameCalls]
      constructor
      · intro m hm hid
        rcases mem_append.mp hm with hm | hm
        · have hnot : id ∉ (toolCalls (m'.content.getD [])).map (·.id) := fun hmem => hdisj id (mem_flatMap_of_mem hm hid) id hmem rfl
          rw [if_neg fun h => hnot h.1]
          exact hkn m hm hid
        · cases mem_singleton.mp hm
          have hnone := hunkn fun hmem => hdisj id hmem id hid rfl
          have hid' : id ∈ (toolCalls (m'.content.getD [])).map (·.id) := hid
          simp only [hnone, hid', true_and, filled_of_call hid]
      · intro hnot
        rw [mem_append, not_or] at hnot
        rw [if_neg fun h => hnot.2 h.1]
        exact hunkn hnot.1
    | toolResult r => exact hkeep rfl (congrArg Prod.fst (taken_toolResult _ _))
    | system cont rest =>
      obtain ⟨cont', h⟩ := taken_system model naming cont rest
      exact hkeep rfl (congrArg Prod.fst (h _))
    | user cont rest =>
      obtain ⟨cont', h⟩ := taken_user model naming cont rest
      exact hkeep rfl (congrArg Prod.fst (h _))

variable (model) (naming) in
/-- A result gets the ID that its call has, unless that is empty. -/
theorem renameResult_id (hdist : (msgs.flatMap callIds).Nodup)
    {r : ToolResultMessage V} (hm : .assistant m ∈ msgs) (hid : r.toolCallId ∈ m.callIds) :
    (renameResult (renames model naming msgs) r).toolCallId =
      if normalizedId model naming m r.toolCallId = [] then r.toolCallId else normalizedId model naming m r.toolCallId := by
  have hget := (get?_renames model naming hdist r.toolCallId).1 m hm hid
  unfold renameResult
  rw [hget]
  by_cases hsame : normalizedId model naming m r.toolCallId = r.toolCallId
  · rw [if_neg (not_not.mpr hsame), hsame, ite_self]
    rfl
  · rw [if_pos hsame]
    by_cases hemp : normalizedId model naming m r.toolCallId = []
    · rw [hemp]
      rfl
    · rw [if_neg hemp, Option.filter_some, if_pos (by simpa using hemp)]
      rfl

/-! ### What stands -/

theorem standing_concat (msgs : List (Message V)) (msg : Message V) : standing (msgs ++ [msg]) = match msg with
    | .assistant m => some m
    | .user _ _ => none
    | _ => standing msgs :=
  foldl_concat ..

theorem answered_concat (msgs : List (Message V)) (msg : Message V) : answered (msgs ++ [msg]) = match msg with
    | .assistant _ | .user _ _ => []
    | .toolResult m => answered msgs ++ [m.toolCallId]
    | .system _ _ => answered msgs :=
  foldl_concat ..

/-- The message that stands is one of them. -/
theorem mem_of_standing (h : standing msgs = some m) : .assistant m ∈ msgs := by
  induction msgs using reverseRecOn with
  | nil => cases h
  | append_singleton msgs msg ih =>
    rw [standing_concat] at h
    cases msg with
    | assistant m' =>
      cases h
      exact mem_append_right _ (mem_singleton_self _)
    | user cont rest => cases h
    | system cont rest | toolResult r => exact mem_append_left _ (ih h)

/-- A call that is answered has an ID to carry, and its message is sent. -/
structure Clear (model : Model) (naming : Option (Text → AssistantMessage V → Text)) (messages : List (Message V)) : Prop where
  unfailed : ∀ before r after m, messages = before ++ .toolResult r :: after → standing before = some m → Replay.isFailed m = false
  named : ∀ before r after m, messages = before ++ .toolResult r :: after → standing before = some m →
    normalizedId model naming m r.toolCallId = [] → r.toolCallId = []

/-- What stands after some messages: a paired history, and the last assistant message with the results it has so far. -/
inductive Stands (model : Model) (naming : Option (Text → AssistantMessage V → Text)) (messages : List (Message V)) : Replay V → Prop
  | closed {done : List (Message V)} {existing : List Text} (hdone : Paired done)
      (hlast : ∀ m, standing messages = some m → Replay.isFailed m = true ∨ m.callIds = []) :
      Stands model naming messages ⟨done, [], existing, []⟩
  | turn {done held : List (Message V)} {m : AssistantMessage V} {answers : List (ToolResultMessage V)} (hdone : Paired done)
      (hlast : standing messages = some m) (hcalls : m.callIds ≠ [])
      (hanswers : answers.map (·.toolCallId) = (answered messages).map (normalizedId model naming m))
      (hnodup : (answered messages).Nodup) (hsub : ∀ id ∈ answered messages, id ∈ m.callIds)
      (hheld : ∀ msg ∈ held, callIds msg = [] ∧ msg.isResult = false) :
      Stands model naming messages
        ⟨done ++ .assistant (transformAssistant model naming m) :: answers.map .toolResult,
          toolCalls ((transformAssistant model naming m).content.getD []), answers.map (·.toolCallId), held⟩

theorem Paired.plains (h : ∀ msg ∈ msgs, callIds msg = [] ∧ msg.isResult = false) : Paired msgs := by
  induction msgs with
  | nil => exact .nil
  | cons msg msgs ih =>
    obtain ⟨hcalls, hres⟩ := h msg mem_cons_self
    exact .plain hcalls hres (ih fun msg hmsg => h msg (mem_cons_of_mem _ hmsg))

/-- The IDs that are there, with the missing ones, are the IDs. -/
theorem perm_missing {ids existing : List Text} (hids : ids.Nodup) (hexisting : existing.Nodup) (hsub : ∀ id ∈ existing, id ∈ ids) :
    (existing ++ ids.filter fun id => decide (id ∉ existing)).Perm ids := by
  refine (perm_ext_iff_of_nodup ?_ hids).mpr fun id => ?_
  · refine hexisting.append (hids.filter _) ?_
    intro id hid hmem
    simpa [hid] using (mem_filter.mp hmem).2
  · rw [mem_append, mem_filter, decide_eq_true_iff]
    constructor
    · rintro (hid | hid)
      · exact hsub id hid
      · exact hid.1
    · intro hid
      by_cases hmem : id ∈ existing
      · exact .inl hmem
      · exact .inr ⟨hid, hmem⟩

variable (now) in
/-- Closing leaves a paired history. -/
theorem Stands.close (h : Stands model naming msgs r)
    (hnorm : Normalizes naming msgs) (hdist : (msgs.flatMap callIds).Nodup) :
    Paired (r.closePendingToolCalls now).result ∧ (r.closePendingToolCalls now).pendingToolCalls = [] ∧
      (r.closePendingToolCalls now).heldSystemMessages = [] := by
  refine ⟨?_, rfl, rfl⟩
  cases h with
  | closed hdone hlast =>
    show Paired (_ ++ [] ++ [])
    rw [append_nil, append_nil]
    exact hdone
  | @turn done held m anss hdone hlast hcalls hans hnd hsub hheld =>
    have hm := mem_of_standing hlast
    have hinjective : ∀ id ∈ m.callIds, ∀ id' ∈ m.callIds, normalizedId model naming m id = normalizedId model naming m id' → id = id' :=
      fun id hid id' hid' heq => hnorm.one hm hid hm hid' heq
    have hown : m.callIds.Nodup := (nodup_flatMap.mp hdist).1 _ hm
    have hids : (transformAssistant model naming m).callIds.Nodup := by
      rw [callIds_transformAssistant]
      exact hown.map_on hinjective
    have hexisting : (anss.map (·.toolCallId)).Nodup := by
      rw [hans]
      exact hnd.map_on fun id hid id' hid' => hinjective id (hsub id hid) id' (hsub id' hid')
    have hwithin : ∀ id ∈ anss.map (·.toolCallId), id ∈ (transformAssistant model naming m).callIds := by
      rw [hans, callIds_transformAssistant]
      intro id hid
      obtain ⟨id', hid', rfl⟩ := mem_map.mp hid
      exact mem_map_of_mem (hsub id' hid')
    -- the missing results are in the order of the calls
    obtain ⟨missing, hmiss, hmissingIds⟩ : ∃ missing : List (ToolResultMessage V),
        Replay.missingResults now ⟨done ++ .assistant (transformAssistant model naming m) :: anss.map .toolResult,
          toolCalls ((transformAssistant model naming m).content.getD []), anss.map (·.toolCallId), held⟩ =
            missing.map .toolResult ∧ missing.map (·.toolCallId) = (transformAssistant model naming m).callIds.filter
              fun id => decide (id ∉ anss.map (·.toolCallId)) := by
      refine ⟨((toolCalls ((transformAssistant model naming m).content.getD [])).filter
        fun c => decide (c.id ∉ anss.map (·.toolCallId))).map fun c =>
          ⟨c.id, c.name, some [.text ⟨text "No result provided", none⟩], true, now, none⟩, ?_, ?_⟩
      · rw [map_map]
        rfl
      · rw [map_map, AssistantMessage.callIds, filter_map]
        rfl
    have hres : (Replay.closePendingToolCalls now
        ⟨done ++ .assistant (transformAssistant model naming m) :: anss.map .toolResult,
          toolCalls ((transformAssistant model naming m).content.getD []), anss.map (·.toolCallId), held⟩).result =
        done ++ (.assistant (transformAssistant model naming m) :: ((anss ++ missing).map .toolResult ++ held)) := by
      unfold Replay.closePendingToolCalls
      rw [hmiss, map_append]
      simp only [append_assoc, cons_append]
    rw [hres]
    refine hdone.append (.turn ?_ (.plains hheld))
    rw [map_append, hmissingIds]
    exact perm_missing hids hexisting hwithin

/-- What holds of a history holds of its beginning. -/
theorem History.before {msg : Message V} (h : History (msgs ++ [msg])) : History msgs where
  distinct := by
    have hdist := h.distinct
    rw [flatMap_append] at hdist
    exact (nodup_append.mp hdist).1
  answers := by
    rintro bef r aft rfl
    exact h.answers bef r (aft ++ [msg]) (by rw [append_assoc, cons_append])

theorem Clear.before (h : Clear model naming (msgs ++ [msg])) : Clear model naming msgs where
  unfailed := by
    rintro bef r aft m rfl
    exact h.unfailed bef r (aft ++ [msg]) m (by rw [append_assoc, cons_append])
  named := by
    rintro bef r aft m rfl
    exact h.named bef r (aft ++ [msg]) m (by rw [append_assoc, cons_append])

theorem Normalizes.before (h : Normalizes naming (msgs ++ [msg])) : Normalizes naming msgs where
  injective := fun normalize hnormalize m m' id id' hm hid hm' hid' =>
    h.injective normalize hnormalize m m' id id' (mem_append_left _ hm) hid (mem_append_left _ hm') hid'
  foreign := fun normalize hnormalize m m' id id' hm hid hm' hid' =>
    h.foreign normalize hnormalize m m' id id' (mem_append_left _ hm) hid (mem_append_left _ hm') hid'
  idempotent := fun normalize hnormalize m id hm => h.idempotent normalize hnormalize m id (mem_append_left _ hm)

theorem Stands.next (h : Stands model naming msgs r)
    (hhist : History (msgs ++ [msg])) (hnorm : Normalizes naming (msgs ++ [msg]))
    (hclear : Clear model naming (msgs ++ [msg])) : Stands model naming (msgs ++ [msg])
      (r.next now (taken model naming (renames model naming msgs) msg).2) := by
  obtain ⟨hpair, -, -⟩ := h.close now hnorm.before hhist.before.distinct
  cases msg with
  | assistant m =>
    have hlast : standing (msgs ++ [.assistant m]) = some m := standing_concat _ _
    have hids := callIds_transformAssistant model naming m.filled
    rw [taken_assistant]
    simp only [Replay.next]
    split
    · rename_i hfailed
      refine .closed hpair fun m' hm' => .inl ?_
      cases hlast.symm.trans hm'
      exact hfailed
    · split
      · rename_i hcalls
        rw [AssistantMessage.callIds, hcalls] at hids
        refine .closed (hpair.append (@Paired.turn V _ [] [] ?_ .nil)) fun m' hm' => .inr ?_
        · rw [AssistantMessage.callIds, hcalls]
          exact .nil
        · cases hlast.symm.trans hm'
          exact map_eq_nil_iff.mp hids.symm
      · rename_i hne
        have hcalls : m.callIds ≠ [] := by
          intro hnone
          rw [show m.filled.callIds = [] from hnone] at hids
          exact hne (map_eq_nil_iff.mp hids)
        obtain ⟨id, hid⟩ := exists_mem_of_ne_nil _ hcalls
        rw [filled_of_call hid]
        have hanswered := answered_concat msgs (.assistant m)
        have hturn := @Stands.turn V model naming (msgs ++ [.assistant m]) _ [] m [] hpair hlast hcalls ?_ ?_ ?_ nofun
        · exact hturn
        all_goals rw [hanswered]
        · rfl
        · exact nodup_nil
        · exact nofun
  | toolResult res =>
    obtain ⟨m, hstand, hid, hnew⟩ := hhist.answers msgs res [] rfl
    have hfailed := hclear.unfailed msgs res [] m rfl hstand
    have hcarried : (renameResult (renames model naming msgs) (preparedResult model res)).toolCallId =
        normalizedId model naming m res.toolCallId := by
      refine (renameResult_id model naming hhist.before.distinct (r := preparedResult model res) (mem_of_standing hstand) hid).trans ?_
      by_cases hemp : normalizedId model naming m res.toolCallId = []
      · exact (if_pos hemp).trans ((hclear.named msgs res [] m rfl hstand hemp).trans hemp.symm)
      · exact if_neg hemp
    cases h with
    | closed hdone hlast =>
      rcases hlast m hstand with hfail | hnone
      · rw [hfailed] at hfail
        cases hfail
      · rw [hnone] at hid
        cases hid
    | @turn done held m' anss hdone hlast hcalls hans hnd hsub hheld =>
      cases hlast.symm.trans hstand
      have hturn := @Stands.turn V model naming (msgs ++ [.toolResult res]) done held _
        (anss ++ [renameResult (renames model naming msgs) (preparedResult model res)]) hdone
        ((standing_concat msgs (.toolResult res)).trans hstand) hcalls ?_ ?_ ?_ hheld
      · simp only [taken_toolResult, Replay.next, Replay.push, append_assoc, cons_append]
        rw [map_append, map_append] at hturn
        exact hturn
      · rw [answered_concat, map_append, map_append, hans, map_singleton, map_singleton, hcarried]
      · rw [answered_concat]
        exact hnd.append (nodup_singleton _) (disjoint_singleton.mpr hnew)
      · rw [answered_concat]
        intro id hmem
        rcases mem_snoc.mp hmem with hmem | rfl
        · exact hsub id hmem
        · exact hid
  | system cont rest =>
    obtain ⟨cont', htaken⟩ := taken_system model naming cont rest
    rw [htaken]
    cases h with
    | closed hdone hlast =>
      exact .closed (hdone.append (.plain rfl rfl .nil)) fun m hm => hlast m ((standing_concat _ _).symm.trans hm)
    | @turn done held m anss hdone hlast hcalls hans hnd hsub hheld =>
      have hopen : (toolCalls ((transformAssistant model naming m).content.getD [])).isEmpty = false := by
        rw [isEmpty_eq_false_iff]
        intro hnone
        have hids := callIds_transformAssistant model naming m
        rw [AssistantMessage.callIds, hnone] at hids
        exact hcalls (map_eq_nil_iff.mp hids.symm)
      simp only [Replay.next, hopen, Bool.false_eq_true, if_false]
      refine .turn hdone ((standing_concat _ _).trans hlast) hcalls ?_ ?_ ?_ ?_
      · rw [answered_concat, hans]
      · rw [answered_concat]
        exact hnd
      · rw [answered_concat]
        exact hsub
      · intro msg hmsg
        rcases mem_snoc.mp hmsg with hmsg | rfl
        · exact hheld msg hmsg
        · exact ⟨rfl, rfl⟩
  | user cont rest =>
    obtain ⟨cont', htaken⟩ := taken_user model naming cont rest
    rw [htaken]
    refine .closed (hpair.append (.plain rfl rfl .nil)) fun m hm => ?_
    rw [standing_concat] at hm
    cases hm

/-- **What stands after the messages of a clear history.** -/
theorem stands_passed (hhist : History msgs)
    (hnorm : Normalizes naming msgs) (hclear : Clear model naming msgs) :
    Stands model naming msgs (passed model naming now msgs).2 := by
  induction msgs using reverseRecOn with
  | nil => exact .closed .nil fun m hm => nomatch hm
  | append_singleton msgs msg ih =>
    rw [passed_concat]
    unfold step
    rw [passed_fst]
    exact (ih hhist.before hnorm.before hclear.before).next hhist hnorm hclear

/-! ### Back from what is sent -/

theorem callIds_others (msgs : List (Message V)) : (others msgs).flatMap callIds = msgs.flatMap callIds := by
  induction msgs with
  | nil => rfl
  | cons msg msgs ih =>
    rw [flatMap_cons, ← ih]
    cases msg with
    | toolResult r => rfl
    | system | user | assistant => rfl

/-- Messages that share a call are one. -/
theorem eq_of_call (hdist : (msgs.flatMap callIds).Nodup) {m m' : AssistantMessage V} {id : Text}
    (hm : .assistant m ∈ msgs) (hid : id ∈ m.callIds) (hm' : .assistant m' ∈ msgs) (hid' : id ∈ m'.callIds) : m = m' := by
  by_contra hne
  have : Std.Symm (Function.onFun Disjoint (@callIds V)) := ⟨fun _ _ h => h.symm⟩
  have hdisj := (nodup_flatMap.mp hdist).2.forall hm hm' fun heq => hne (Message.assistant.inj heq)
  exact hdisj hid hid'

theorem mem_standing_before {bef aft : List (Message V)}
    (hmsgs : msgs = bef ++ msg :: aft) (h : standing bef = some m) : .assistant m ∈ msgs := by
  rw [hmsgs]
  exact mem_append_left _ (mem_of_standing h)

/-- A result in a history is in what is sent, with the ID the map gives it. -/
theorem mem_firstPass (bef aft : List (Message V)) (r : ToolResultMessage V) :
    .toolResult (renameResult (renames model naming bef) (preparedResult model r)) ∈
      firstPass model naming [] ((bef ++ .toolResult r :: aft).map (prepared model)) := by
  induction aft using reverseRecOn with
  | nil =>
    rw [firstPass_concat, taken_toolResult]
    exact mem_append_right _ (mem_singleton_self _)
  | append_singleton aft msg ih =>
    rw [← cons_append, ← append_assoc, firstPass_concat]
    exact mem_append_left _ ih

/-- **Only a clear history is paired when it is replayed.** -/
theorem clear_of_paired (hhist : History msgs) (hnorm : Normalizes naming msgs)
    (hpair : Paired ((passed model naming now msgs).2.closePendingToolCalls now).result) :
    Clear model naming msgs := by
  -- the result has its call, which is that of a message that is sent
  have hcall : ∀ bef r aft m, msgs = bef ++ .toolResult r :: aft → standing bef = some m →
      Replay.isFailed m = false ∧ (normalizedId model naming m r.toolCallId = [] → r.toolCallId = []) := by
    intro bef r aft m hmsgs hstand
    have hm := mem_standing_before hmsgs hstand
    obtain ⟨m', hstand', hid, -⟩ := hhist.answers bef r aft hmsgs
    cases hstand.symm.trans hstand'
    have hbef : (bef.flatMap callIds).Nodup := by
      have hdist := hhist.distinct
      rw [hmsgs, flatMap_append] at hdist
      exact (nodup_append.mp hdist).1
    have hrenamed := renameResult_id model naming hbef (r := preparedResult model r) (mem_of_standing hstand) hid
    have hplain : ∀ msg : Message V, msg.isResult = true → msg.isFailed = false ∧ msg.isSystem = false := by
      intro msg hres
      cases msg with
      | toolResult r => exact ⟨rfl, rfl⟩
      | system | user | assistant => cases hres
    have hsub := kept_foldl now hplain (firstPass model naming [] (msgs.map (prepared model))) Replay.start
    rw [foldl_firstPass] at hsub
    have hmem : .toolResult (renameResult (renames model naming bef) (preparedResult model r)) ∈
        (firstPass model naming [] (msgs.map (prepared model))).filter Message.isResult := by
      rw [hmsgs]
      exact mem_filter.mpr ⟨mem_firstPass bef aft r, rfl⟩
    have hout := (hsub.trans (kept_close now _ _)).subset (mem_append_right _ hmem)
    have hin := hpair.mem_calls (mem_filter.mp hout).1
    obtain ⟨-, hothers⟩ := others_passed model naming now msgs
    rw [← callIds_others, others_close, hothers] at hin
    obtain ⟨_, hsent, hmem'⟩ := mem_flatMap.mp hin
    obtain ⟨msg, hfilter, rfl⟩ := mem_map.mp hsent
    obtain ⟨hmsg, hkept⟩ := mem_filter.mp hfilter
    rw [callIds_sent] at hmem'
    cases msg with
    | system | user | toolResult => cases hmem'
    | assistant m' =>
      have hunf : Replay.isFailed m' = false := by simpa [Message.isResult, Message.isFailed] using hkept
      obtain ⟨id', hid', heq⟩ := mem_map.mp hmem'
      rw [hrenamed] at heq
      split at heq
      · rename_i hemp
        have hsame := hnorm.own model hmsg hid' hm hid heq
        subst hsame
        obtain rfl := eq_of_call hhist.distinct hmsg hid' hm hid
        exact ⟨hunf, fun _ => heq.symm.trans hemp⟩
      · rename_i hne
        have hsame := hnorm.one hmsg hid' hm hid heq
        subst hsame
        obtain rfl := eq_of_call hhist.distinct hmsg hid' hm hid
        exact ⟨hunf, fun hemp => absurd hemp hne⟩
  exact ⟨fun bef r aft m hmsgs hstand => (hcall bef r aft m hmsgs hstand).1,
    fun bef r aft m hmsgs hstand => (hcall bef r aft m hmsgs hstand).2⟩

end Passes

end PiBridge.Ai
