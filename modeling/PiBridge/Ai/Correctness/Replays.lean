import PiBridge.Ai.Correctness.PairedHistories

/-!
# `Ai.Correctness.Replays` — what a history is replayed as

A replayed history is replayed as it is (`transformMessages_settled`), as each of its messages is settled. Together with
the invariant of both passes: a history is replayed as it should exactly when no result answers a call that is not sent,
or that is sent with an empty ID (`replays_iff_clear`).
-/

namespace PiBridge.Ai

open Chord Lib List

variable {V : Type}

section Replays

variable {model : Model} {naming : Option (Text → AssistantMessage V → Text)} {now : Nat}

/-! ## Once more -/

/-- A message that is sent as it is. -/
structure Settled (model : Model) (naming : Option (Text → AssistantMessage V → Text)) (msg : Message V) : Prop where
  prepared : prepared model msg = msg
  transformed : transformMessage model naming [] msg = ([], msg)

variable {messages : List (Message V)} {msg : Message V}

theorem firstPass_settled (h : ∀ msg ∈ messages, Settled model naming msg) :
    messages.map (prepared model) = messages ∧ firstPass model naming [] messages = messages := by
  induction messages with
  | nil => exact ⟨rfl, rfl⟩
  | cons msg messages ih =>
    obtain ⟨hprepared, htransformed⟩ := h msg mem_cons_self
    obtain ⟨hmap, hpass⟩ := ih fun msg hmsg => h msg (mem_cons_of_mem _ hmsg)
    constructor
    · rw [map_cons, hprepared, hmap]
    · simp only [firstPass, htransformed, hpass]

theorem replaceImagesFrom_texts (placeholder : Text) (prev : Bool) {cont : List Part} (h : ∀ part ∈ cont, ∃ t, part = .text t) :
    replaceImagesFrom placeholder prev cont = cont := by
  induction cont generalizing prev with
  | nil => rfl
  | cons part cont ih =>
    obtain ⟨t, rfl⟩ := h part mem_cons_self
    exact congrArg _ (ih _ fun part hpart => h part (mem_cons_of_mem _ hpart))

theorem texts_replaceImagesFrom (placeholder : Text) (prev : Bool) (cont : List Part) :
    ∀ part ∈ replaceImagesFrom placeholder prev cont, ∃ t, part = .text t := by
  induction cont generalizing prev with
  | nil => exact nofun
  | cons part cont ih =>
    cases part with
    | text t =>
      intro part hpart
      rcases mem_cons.mp hpart with rfl | hpart
      · exact ⟨t, rfl⟩
      · exact ih _ part hpart
    | image i =>
      unfold replaceImagesFrom
      split
      · exact ih true
      · intro part hpart
        rcases mem_cons.mp hpart with rfl | hpart
        · exact ⟨_, rfl⟩
        · exact ih true part hpart

theorem replaceImages_again (cont : List Part) (placeholder placeholder' : Text) :
    replaceImagesWithPlaceholder (replaceImagesWithPlaceholder cont placeholder) placeholder' =
      replaceImagesWithPlaceholder cont placeholder :=
  replaceImagesFrom_texts _ _ (texts_replaceImagesFrom _ _ _)

theorem prepared_again (msg : Message V) : prepared model (prepared model msg) = prepared model msg := by
  unfold prepared downgradeUnsupportedImages
  cases msg with
  | assistant m => split <;> rfl
  | toolResult m =>
    split
    · rfl
    · simp only [normalizeContent, Option.map_some, Option.getD_some, replaceImages_again]
  | system cont rest => cases cont <;> split <;> rfl
  | user cont rest =>
    cases cont with
    | none => split <;> rfl
    | some cont =>
      cases cont with
      | str s => split <;> rfl
      | parts parts =>
        split
        · rfl
        · simp only [normalizeContent, replaceImages_again]

/-- What is left of a block is left of it again. -/
theorem transformBlock_again (m : AssistantMessage V) (block : Block V)
    (hid : ∀ id ∈ (toolCalls [block]).map (·.id), normalizedId model naming (transformAssistant model naming m)
      (normalizedId model naming m id) = normalizedId model naming m id) :
    (transformBlock model naming m block).flatMap
      (transformBlock model naming (transformAssistant model naming m)) = transformBlock model naming m block := by
  have hsame : isSameModel model (transformAssistant model naming m) = isSameModel model m := rfl
  cases block with
  | text block =>
    cases h : isSameModel model m <;> simp [transformBlock, hsame, h]
  | thinking block =>
    simp only [transformBlock]
    cases h : isSameModel model m with
    | false => rfl
    | true =>
      split_ifs with h1 h2 h3
      · rfl
      · rw [flatMap_singleton]
        simp [transformBlock, hsame, h, h2]
      · rfl
      · rw [flatMap_singleton]
        simp [transformBlock, hsame, h, h2, h3]
  | toolCall call =>
    have hcall := hid call.id (mem_singleton_self _)
    simp only [transformBlock, flatMap_singleton, hsame, hcall]
    cases hkeep : !isSameModel model m && isSet call.thoughtSignature with
    | false => simp [hkeep]
    | true => simp [isSet]

/-- A message that was taken is taken as it is. -/
theorem settled_taken (hnorm : Normalizes naming messages) (ids : Assoc Text Text) (hmsg : msg ∈ messages) :
    Settled model naming (taken model naming ids msg).2 := by
  cases msg with
  | system cont rest =>
    obtain ⟨cont', h⟩ := prepared_system model cont rest
    have hagain : prepared model (prepared model (.system cont rest)) = prepared model (.system cont rest) := prepared_again _
    rw [h] at hagain
    rw [taken, h]
    exact ⟨hagain, rfl⟩
  | user cont rest =>
    obtain ⟨cont', h⟩ := prepared_user model cont rest
    have hagain : prepared model (prepared model (.user cont rest)) = prepared model (.user cont rest) := prepared_again _
    rw [h] at hagain
    rw [taken, h]
    exact ⟨hagain, rfl⟩
  | toolResult r =>
    rw [taken_toolResult]
    refine ⟨?_, rfl⟩
    rw [prepared_toolResult]
    unfold preparedResult renameResult
    split
    · rfl
    · simp only [Option.getD_some, replaceImages_again]
  | assistant m =>
    have hcarries : ∀ id ∈ m.callIds, normalizedId model naming (transformAssistant model naming m.filled)
        (normalizedId model naming m.filled id) = normalizedId model naming m.filled id := by
      intro id hid
      rw [filled_of_call hid]
      cases naming with
      | none => rfl
      | some normalize =>
        have hsame : isSameModel model (transformAssistant model (some normalize) m) = isSameModel model m := rfl
        unfold normalizedId
        dsimp only
        rw [hsame]
        split
        · rfl
        · exact hnorm.idempotent normalize rfl m id hmsg hid _ rfl rfl rfl
    have hagain : transformAssistant model naming (transformAssistant model naming m.filled) = transformAssistant model naming m.filled := by
      have hflat : ((m.content.getD []).flatMap (transformBlock model naming m.filled)).flatMap
          (transformBlock model naming (transformAssistant model naming m.filled)) =
            (m.content.getD []).flatMap (transformBlock model naming m.filled) := by
        rw [flatMap_assoc]
        refine flatMap_congr fun block hblock => transformBlock_again m.filled block fun id hid => hcarries id ?_
        obtain ⟨call, hcall, rfl⟩ := mem_map.mp hid
        refine mem_map_of_mem (mem_filterMap.mpr ⟨block, hblock, ?_⟩)
        cases block with
        | toolCall call' => exact congrArg some (mem_singleton.mp hcall).symm
        | text | thinking => cases hcall
      exact congrArg (fun cont => { transformAssistant model naming m.filled with content := some cont }) hflat
    have hnone : renameCalls model naming (transformAssistant model naming m.filled) []
        (toolCalls ((transformAssistant model naming m.filled).content.getD [])) = [] := by
      have hall : ∀ call ∈ toolCalls ((transformAssistant model naming m.filled).content.getD []),
          normalizedId model naming (transformAssistant model naming m.filled) call.id = call.id := by
        intro call hcall
        have hid : call.id ∈ (transformAssistant model naming m.filled).callIds := mem_map_of_mem hcall
        rw [callIds_transformAssistant] at hid
        obtain ⟨id, hid, heq⟩ := mem_map.mp hid
        rw [← heq]
        exact hcarries id hid
      generalize toolCalls ((transformAssistant model naming m.filled).content.getD []) = cs at hall
      induction cs with
      | nil => rfl
      | cons call cs ih =>
        unfold renameCalls
        rw [foldl_cons, if_pos (hall call mem_cons_self)]
        exact ih fun call hcall => hall call (mem_cons_of_mem _ hcall)
    rw [taken_assistant]
    refine ⟨prepared_assistant _, ?_⟩
    simp only [transformMessage, hnone, hagain]

theorem foldl_next_results (anss : List (ToolResultMessage V)) (r : Replay V) :
    (anss.map Message.toolResult).foldl (Replay.next now) r =
      { r with result := r.result ++ anss.map .toolResult
               existingToolResultIds := r.existingToolResultIds ++ anss.map (·.toolCallId) } := by
  induction anss generalizing r with
  | nil => simp
  | cons answer anss ih =>
    rw [map_cons, foldl_cons, ih]
    simp [Replay.next, Replay.push]

/-- No call is without a result, and nothing that is held back comes too late. -/
structure Replay.Complete (r : Replay V) : Prop where
  tidy : r.Tidy
  answered : ∀ call ∈ r.pendingToolCalls, call.id ∈ r.existingToolResultIds

namespace Replay.Complete

variable {r : Replay V}

variable (now) in
theorem close (h : r.Complete) : (r.closePendingToolCalls now).result = r.shown := by
  have hnone : r.missingResults now = [] := by
    unfold missingResults
    rw [map_eq_nil_iff, filter_eq_nil_iff]
    intro call hcall
    simpa using h.answered call hcall
  unfold closePendingToolCalls shown
  rw [hnone, append_nil]

variable {m : AssistantMessage V}

/-- An assistant message starts afresh. -/
theorem next_assistant (h : r.Complete) (hfail : isFailed m = false) : r.next now (.assistant m) =
      ⟨r.shown ++ [.assistant m], toolCalls (m.content.getD []),
        if toolCalls (m.content.getD []) = [] ∧ r.pendingToolCalls = [] then r.existingToolResultIds else [], []⟩ := by
  simp only [next, hfail, Bool.false_eq_true, if_false]
  cases hcalls : toolCalls (m.content.getD []) with
  | nil | cons call cs =>
    dsimp only [push]
    rw [h.close now]
    simp [closePendingToolCalls]

theorem next_plain (h : r.Complete) {msg : Message V} (hcalls : callIds msg = []) (hres : msg.isResult = false)
    (hfail : msg.isFailed = false) : (r.next now msg).Complete ∧ (r.next now msg).shown = r.shown ++ [msg] := by
  cases msg with
  | toolResult m => cases hres
  | assistant m =>
    have hnone : toolCalls (m.content.getD []) = [] := map_eq_nil_iff.mp hcalls
    rw [h.next_assistant hfail, hnone]
    exact ⟨⟨fun _ => rfl, nofun⟩, append_nil _⟩
  | user cont rest =>
    refine ⟨⟨fun _ => rfl, nofun⟩, ?_⟩
    show (r.closePendingToolCalls now).result ++ [.user cont rest] ++ [] = _
    rw [h.close now, append_nil]
  | system cont rest =>
    unfold next
    dsimp only
    split
    · rename_i hemp
      have hheld := h.tidy (isEmpty_iff.mp hemp)
      refine ⟨⟨fun _ => hheld, h.answered⟩, ?_⟩
      simp [shown, push, hheld]
    · rename_i hopen
      exact ⟨⟨fun hemp => absurd (isEmpty_iff.mpr hemp) hopen, h.answered⟩, (append_assoc ..).symm⟩

theorem next_turn (h : r.Complete) {anss : List (ToolResultMessage V)}
    (hans : (anss.map (·.toolCallId)).Perm m.callIds) (hfail : isFailed m = false) :
    ((anss.map Message.toolResult).foldl (next now) (r.next now (.assistant m))).Complete ∧
      ((anss.map Message.toolResult).foldl (next now) (r.next now (.assistant m))).shown =
        r.shown ++ .assistant m :: anss.map .toolResult := by
  rw [foldl_next_results, h.next_assistant hfail]
  refine ⟨⟨fun _ => rfl, ?_⟩, ?_⟩
  · intro call hcall
    exact mem_append_right _ (hans.symm.subset (mem_map_of_mem hcall))
  · simp [shown]

end Replay.Complete

/-- A paired history is replayed as it is. -/
theorem foldl_next_paired (hpair : Paired messages) (hunf : ∀ msg ∈ messages, msg.isFailed = false)
    {r : Replay V} (h : r.Complete) :
    (messages.foldl (Replay.next now) r).Complete ∧ (messages.foldl (Replay.next now) r).shown = r.shown ++ messages := by
  induction hpair generalizing r with
  | nil => exact ⟨h, (append_nil _).symm⟩
  | @plain msg rest hcalls hres hrest ih =>
    obtain ⟨hmsg, hshown⟩ := h.next_plain hcalls hres (hunf _ mem_cons_self)
    obtain ⟨hrest, hshown'⟩ := ih (fun msg hmsg => hunf msg (mem_cons_of_mem _ hmsg)) hmsg
    refine ⟨hrest, hshown'.trans ?_⟩
    rw [hshown, append_assoc]
    rfl
  | @turn m anss rest hans hrest ih =>
    obtain ⟨hturn, hshown⟩ := h.next_turn hans (hunf _ mem_cons_self)
    rw [foldl_cons, foldl_append]
    obtain ⟨hrest, hshown'⟩ := ih (fun msg hmsg => hunf msg (mem_cons_of_mem _ (mem_append_right _ hmsg))) hturn
    refine ⟨hrest, hshown'.trans ?_⟩
    rw [hshown, append_assoc]
    rfl

/-- **A settled, paired history is its own transform.** -/
theorem transformMessages_settled (hsett : ∀ msg ∈ messages, Settled model naming msg)
    (hpair : Paired messages) (hunf : ∀ msg ∈ messages, msg.isFailed = false) :
    transformMessages model naming now messages = messages := by
  obtain ⟨hmap, hpass⟩ := firstPass_settled hsett
  have hsta : (Replay.start : Replay V).Complete := ⟨fun _ => rfl, nofun⟩
  obtain ⟨hcomplete, hshown⟩ := foldl_next_paired hpair hunf hsta
  have hmap' : (messages.map fun msg => downgradeUnsupportedImages model (normalizeContent msg)) = messages := hmap
  unfold transformMessages
  rw [hmap', hpass, hcomplete.close now, hshown]
  rfl

/-! ## Every message that is sent -/

section Every

variable {q : Message V → Prop} (hmade : ∀ call, q (Replay.noResult now call))

include hmade in
theorem forall_close {r : Replay V} (hr : ∀ msg ∈ r.shown, q msg) : ∀ msg ∈ (r.closePendingToolCalls now).result, q msg := by
  intro msg hmem
  simp only [Replay.closePendingToolCalls, Replay.missingResults, mem_append] at hmem
  rcases hmem with (hmem | hmem) | hmem
  · exact hr msg (mem_append_left _ hmem)
  · obtain ⟨call, -, rfl⟩ := mem_map.mp hmem
    exact hmade call
  · exact hr msg (mem_append_right _ hmem)

include hmade in
theorem forall_next {r : Replay V} (hr : ∀ msg ∈ r.shown, q msg) (hmsg : msg.isFailed = false → q msg) :
    ∀ msg' ∈ (r.next now msg).shown, q msg' := by
  have hclose := forall_close hmade hr
  have hone : msg.isFailed = false → ∀ msg' ∈ [msg], q msg' := fun hfail msg' hmem => mem_singleton.mp hmem ▸ hmsg hfail
  have hboth := forall_mem_append.mp hr
  generalize hturn : r.next now msg = r'
  cases hturn ▸ turns_next now r msg with
  | drops => exact forall_mem_append.mpr ⟨hclose, forall_mem_nil _⟩
  | closes hfail => exact forall_mem_append.mpr ⟨forall_mem_append.mpr ⟨hclose, hone hfail⟩, forall_mem_nil _⟩
  | pushes hfail => exact forall_mem_append.mpr ⟨forall_mem_append.mpr ⟨hboth.1, hone hfail⟩, hboth.2⟩
  | holds hfail => exact forall_mem_append.mpr ⟨hboth.1, forall_mem_append.mpr ⟨hboth.2, hone hfail⟩⟩

variable (model) (naming) (now) in
include hmade in
/-- What holds of the messages of the first pass that did not fail, and of the results that are made up. -/
theorem forall_passed (hsent : ∀ ids, ∀ msg ∈ messages, msg.isFailed = false → q (taken model naming ids msg).2) :
    ∀ msg ∈ (passed model naming now messages).2.shown, q msg := by
  induction messages using reverseRecOn with
  | nil => exact forall_mem_nil _
  | append_singleton messages msg ih =>
    rw [passed_concat]
    refine forall_next hmade (ih fun ids msg hmsg => hsent ids msg (mem_append_left _ hmsg)) fun hfail => ?_
    rw [(taken_kind model naming _ msg).2.1] at hfail
    exact hsent _ msg (mem_append_right _ (mem_singleton_self _)) hfail

end Every

variable (model) (naming) (now) in
theorem settled_noResult (call : ToolCall V) : Settled model naming (Replay.noResult now call) where
  prepared := by
    unfold prepared downgradeUnsupportedImages
    split <;> rfl
  transformed := rfl

/-! ## The specification -/

section Specification

variable (model) (naming) (messages : List (Message V))

/-- The ID that the call with an ID carries once it is sent. -/
def carriedId (id : Text) : Text :=
  (messages.findSome? fun
    | .assistant m => if id ∈ m.callIds then some (normalizedId model naming m id) else none
    | _ => none).getD id

/-- A message of a history as it is sent: a result carries the ID that its call carries. -/
def sentIn : Message V → Message V
  | .toolResult r => sent model naming (.toolResult { r with toolCallId := carriedId model naming messages r.toolCallId })
  | msg => sent model naming msg

/-- What a history is replayed as. -/
structure Replays (out : List (Message V)) : Prop where
  /-- Every call is answered by exactly one result, before any other message; no result lacks its call. -/
  paired : Paired out
  distinct : (out.flatMap callIds).Nodup
  unfailed : ∀ msg ∈ out, msg.isFailed = false
  /-- All but the results are the messages that did not fail, in their order. -/
  others : others out = (messages.filter fun msg => !msg.isResult && !msg.isFailed).map (sent model naming)
  /-- All but the system messages keep their order, results too. -/
  kept : ((messages.filter fun msg => !msg.isSystem && !msg.isFailed).map (sentIn model naming messages)).Sublist out
  again : ∀ now, transformMessages model naming now out = out

variable {messages}

theorem carriedId_eq (hdist : (messages.flatMap callIds).Nodup) {id : Text} (hm : .assistant m ∈ messages)
    (hid : id ∈ m.callIds) : carriedId model naming messages id = normalizedId model naming m id := by
  unfold carriedId
  cases hfind : messages.findSome? fun
      | .assistant m => if id ∈ m.callIds then some (normalizedId model naming m id) else none
      | _ => none with
  | none =>
    have hnone := findSome?_eq_none_iff.mp hfind _ hm
    dsimp only at hnone
    rw [if_pos hid] at hnone
    cases hnone
  | some id' =>
    obtain ⟨msg, hmsg, heq⟩ := exists_of_findSome?_eq_some hfind
    cases msg with
    | system | user | toolResult => cases heq
    | assistant m' =>
      dsimp only at heq
      split at heq
      · rename_i hid'
        obtain rfl := eq_of_call hdist hm hid hmsg hid'
        exact (Option.some.inj heq).symm
      · cases heq

variable {model} {naming}

/-- **The first pass sends each message as it should.** -/
theorem firstPass_prepared (h : History messages) (hclear : Clear model naming messages) :
    firstPass model naming [] (messages.map (prepared model)) = messages.map (sentIn model naming messages) := by
  have hfrom : ∀ bef aft, messages = bef ++ aft → firstPass model naming [] (bef.map (prepared model)) =
      bef.map (sentIn model naming messages) := by
    intro bef
    induction bef using reverseRecOn with
    | nil => exact fun aft _ => rfl
    | append_singleton bef msg ih =>
      intro aft hmsgs
      rw [append_assoc] at hmsgs
      rw [firstPass_concat, ih _ hmsgs, map_append, map_singleton]
      refine congrArg (fun msg => _ ++ [msg]) ?_
      cases msg with
      | toolResult r =>
        obtain ⟨m, hstand, hid, -⟩ := h.answers bef r aft hmsgs
        have hm := mem_of_standing hstand
        have hdist : (bef.flatMap callIds).Nodup := by
          have hall := h.distinct
          rw [hmsgs, flatMap_append] at hall
          exact (nodup_append.mp hall).1
        have hcarried := renameResult_id model naming hdist (r := preparedResult model r) hm hid
        have hspec := carriedId_eq model naming h.distinct (hmsgs ▸ mem_append_left _ hm) hid
        have hgets : (renameResult (renames model naming bef) (preparedResult model r)).toolCallId =
            carriedId model naming messages r.toolCallId := by
          rw [hcarried, hspec]
          split
          · rename_i hemp
            exact (hclear.named bef r aft m hmsgs hstand hemp).trans hemp.symm
          · rfl
        rw [taken_toolResult, sentIn, sent, taken_toolResult]
        exact congrArg (fun id => Message.toolResult { preparedResult model r with toolCallId := id }) hgets
      | system | user | assistant => exact (taken_kind model naming _ _).2.2.2 rfl
  exact hfrom messages [] (append_nil _).symm

theorem sentIn_kind (msg : Message V) : (sentIn model naming messages msg).isFailed = msg.isFailed ∧
    (sentIn model naming messages msg).isSystem = msg.isSystem := by
  cases msg with
  | toolResult r | system | user | assistant => exact ⟨(taken_kind model naming _ _).2.1, (taken_kind model naming _ _).2.2.1⟩

/-- The IDs that the calls carry are distinct. -/
theorem nodup_sent (h : History messages) (hnorm : Normalizes naming messages) :
    (((messages.filter fun msg => !msg.isResult && !msg.isFailed).map (sent model naming)).flatMap callIds).Nodup := by
  obtain ⟨hown, hpairwise⟩ := nodup_flatMap.mp h.distinct
  rw [flatMap_map, nodup_flatMap]
  constructor
  · intro msg hmsg
    have hmem := (mem_filter.mp hmsg).1
    cases msg with
    | assistant m =>
      rw [callIds_sent]
      exact (hown _ hmem).map_on fun id hid id' hid' heq => hnorm.one hmem hid hmem hid' heq
    | system | user | toolResult =>
      rw [callIds_sent]
      exact nodup_nil
  · refine (hpairwise.filter _).imp_of_mem fun {msg msg'} hmsg hmsg' hdisj => ?_
    have hmem := (mem_filter.mp hmsg).1
    have hmem' := (mem_filter.mp hmsg').1
    show Disjoint (callIds (sent model naming msg)) (callIds (sent model naming msg'))
    rw [callIds_sent, callIds_sent]
    intro id hid hid'
    cases msg with
    | system | user | toolResult => exact not_mem_nil hid
    | assistant m =>
      cases msg' with
      | system | user | toolResult => exact not_mem_nil hid'
      | assistant m' =>
        obtain ⟨call, hcall, rfl⟩ := mem_map.mp hid
        obtain ⟨call', hcall', heq⟩ := mem_map.mp hid'
        obtain rfl := hnorm.one hmem' hcall' hmem hcall heq
        exact hdisj hcall hcall'

/-- **A history is replayed as it should exactly when it is clear.** -/
theorem replays_iff_clear (h : History messages) (hnormalizes : Normalizes naming messages) :
    Replays model naming messages (transformMessages model naming now messages) ↔ Clear model naming messages := by
  rw [transformMessages_eq]
  constructor
  · exact fun hreplays => clear_of_paired h hnormalizes hreplays.paired
  · intro hclear
    have hpaired : Paired ((passed model naming now messages).2.closePendingToolCalls now).result :=
      ((stands_passed h hnormalizes hclear).close now hnormalizes h.distinct).1
    have hevery : ∀ msg ∈ ((passed model naming now messages).2.closePendingToolCalls now).result,
        Settled model naming msg ∧ msg.isFailed = false := by
      have hmade : ∀ call : ToolCall V, Settled model naming (Replay.noResult now call) ∧ (Replay.noResult now call).isFailed = false :=
        fun call => ⟨settled_noResult model naming now call, rfl⟩
      refine forall_close hmade (forall_passed model naming now hmade fun ids msg hmsg hfailed => ⟨settled_taken hnormalizes ids hmsg, ?_⟩)
      rw [(taken_kind model naming ids msg).2.1]
      exact hfailed
    have hunfailed := fun msg hmsg => (hevery msg hmsg).2
    have hothers := (others_close now _).trans (others_passed model naming now messages).2
    refine ⟨hpaired, ?_, hunfailed, hothers, ?_, fun now => transformMessages_settled (fun msg hmsg => (hevery msg hmsg).1) hpaired hunfailed⟩
    · rw [← callIds_others, hothers]
      exact nodup_sent h hnormalizes
    · have hkind : ∀ msg : Message V, (!msg.isSystem && !msg.isFailed) = true → msg.isFailed = false ∧ msg.isSystem = false := by
        intro msg hmsg
        simpa [and_comm] using hmsg
      have hsub := (kept_foldl now hkind (firstPass model naming [] (messages.map (prepared model))) Replay.start).trans
        (kept_close now _ _)
      have hsame : ((fun msg : Message V => !msg.isSystem && !msg.isFailed) ∘ sentIn model naming messages) =
          fun msg => !msg.isSystem && !msg.isFailed := by
        funext msg
        simp only [Function.comp_apply, sentIn_kind]
      rw [foldl_firstPass, firstPass_prepared h hclear, filter_map, hsame] at hsub
      exact hsub.trans filter_sublist

/-! ## Two histories -/

section Histories

/-- A model that sees no images. -/
def replayModel : Model := ⟨text "m", text "a", text "p", [text "text"]⟩

/-- A message of that model with one call. -/
def callTurn (stopReason : StopReason) : AssistantMessage Unit :=
  ⟨some [.toolCall ⟨text "c", text "read", none, ()⟩], text "a", text "p", text "m", stopReason, ()⟩

def callResult : ToolResultMessage Unit := ⟨text "c", text "read", some [], false, 0, some ()⟩

/-- A call with its result, and a system message in between. -/
def callHistory (stopReason : StopReason) : List (Message Unit) := [.assistant (callTurn stopReason), .system none (), .toolResult callResult]

theorem callHistory_places {sr : StopReason} {bef aft : List (Message Unit)} {r : ToolResultMessage Unit}
    (h : callHistory sr = bef ++ .toolResult r :: aft) :
    bef = [.assistant (callTurn sr), .system none ()] ∧ r = callResult := by
  unfold callHistory at h
  rcases bef with _ | ⟨fst, _ | ⟨second, _ | ⟨third, bef⟩⟩⟩
  · cases h
  · cases h
  · simp only [cons_append, nil_append, cons.injEq, Message.toolResult.injEq] at h
    obtain ⟨rfl, rfl, rfl, -⟩ := h
    exact ⟨rfl, rfl⟩
  · simp at h

theorem history_callHistory (sr : StopReason) : History (callHistory sr) where
  distinct := nodup_singleton _
  answers := by
    intro bef r aft h
    obtain ⟨rfl, rfl⟩ := callHistory_places h
    exact ⟨callTurn sr, rfl, mem_singleton_self _, not_mem_nil⟩

theorem normalizes_none (messages : List (Message Unit)) : Normalizes none messages := ⟨nofun, nofun, nofun⟩

/-- A turn whose result is there is replayed as it should. -/
theorem callHistory_replays : Replays replayModel none (callHistory .toolUse) (transformMessages replayModel none 0 (callHistory .toolUse)) := by
  refine (replays_iff_clear (history_callHistory _) (normalizes_none _)).mpr ⟨?_, ?_⟩
  · intro before r after m h hstanding
    obtain ⟨rfl, rfl⟩ := callHistory_places h
    cases hstanding
    rfl
  · intro before r after m h hstanding hempty
    exact hempty

/-- **The result of a turn that was aborted stays, without its call.** -/
theorem callHistory_aborted : History (callHistory .aborted) ∧ Normalizes none (callHistory .aborted) ∧
    ¬ Replays replayModel none (callHistory .aborted) (transformMessages replayModel none 0 (callHistory .aborted)) := by
  refine ⟨history_callHistory _, normalizes_none _, fun hreplays => ?_⟩
  have hmem : .toolResult callResult ∈ transformMessages replayModel none 0 (callHistory .aborted) := by decide
  have hcall := hreplays.paired.mem_calls hmem
  have hnone : (transformMessages replayModel none 0 (callHistory .aborted)).flatMap callIds = [] := by decide
  exact not_mem_nil hcall

end Histories

end Specification

end Replays

end PiBridge.Ai
