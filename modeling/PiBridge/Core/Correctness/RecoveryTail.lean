import PiBridge.Core.Correctness.RecoveryRelay

/-!
# `Core.Correctness.RecoveryTail` — what recovery cuts off

The entry that recovery branches past is on the tail run, so what follows it is no run start. Of what enters the context
there remain the run's own work and two foreign kinds: executions of the user's bash commands, and system messages. Only the
branch for a failed turn looks for them; the two others cut them off (`keeps_newer_iff`).
-/

namespace PiBridge.Recovery

open Chord Lib List Option

/-- An assistant message or a tool result. -/
def isOwnWork (entry : Entry) : Bool :=
  match entry.kind with
  | .message .assistant _ _ | .toolResult _ _ _ => true
  | _ => false

/-- Enters the context without being a run's own work or the start of one. -/
def isForeign (entry : Entry) : Bool :=
  match entry.kind with
  | .bashExecution | .message .system _ _ => true
  | _ => false

variable {entry : Entry} {run : List Entry} {id : Text}

theorem foreign_iff (hsta : isRunStart entry = false) (hbearing : isContextBearing entry = true) :
    isForeign entry = false ↔ isOwnWork entry = true := by
  obtain ⟨id, parentId, kind⟩ := entry
  cases kind with
  | message role cont sr =>
    cases role with
    | user => cases hsta
    | assistant | system => simp [isForeign, isOwnWork]
  | customMessage | branchSummary | compaction => cases hsta
  | toolResult _ _ _ | bashExecution => simp [isForeign, isOwnWork]
  | modelChange | thinkingLevelChange | label | sessionInfo | custom | unknown | internal => cases hbearing

theorem bearing_of_foreign (h : isForeign entry = true) : isContextBearing entry = true := by
  obtain ⟨id, parentId, kind⟩ := entry
  cases kind with
  | message _ _ _ | bashExecution | toolResult _ _ _ | customMessage | branchSummary | compaction => rfl
  | modelChange | thinkingLevelChange | label | sessionInfo | custom | unknown | internal => cases h

/-! ## The tail run -/

theorem tailRun_suffix (path : List Entry) : tailRun path <:+ path := by
  rw [tailRun, ← reverse_prefix, reverse_reverse]
  exact takeWhile_prefix _

theorem not_isRunStart_of_mem_tailRun {path : List Entry} (h : entry ∈ tailRun path) : isRunStart entry = false := by
  have := mem_takeWhile_imp (mem_reverse.mp h)
  simpa using this

/-- Where no entry comes twice, an entry of the tail run is followed on the path by what follows it in the run. -/
theorem suffix_tailRun {path bef aft : List Entry} (hnd : path.Nodup) (hmem : entry ∈ tailRun path)
    (hpath : path = bef ++ entry :: aft) : entry :: aft <:+ tailRun path := by
  obtain ⟨run, hrun⟩ := tailRun_suffix path
  obtain ⟨bef', aft', htail⟩ := append_of_mem hmem
  have hsame : path = (run ++ bef') ++ entry :: aft' := by rw [append_assoc, ← htail, hrun]
  -- The entry stands at one place only, so both ways to split the path at it are the same.
  have hsplit := nodup_append.mp (hsame ▸ hnd)
  have hbef : entry ∉ run ++ bef' := fun h => hsplit.2.2 entry h entry mem_cons_self rfl
  have haft : entry ∉ aft' := (nodup_cons.mp hsplit.2.1).1
  obtain ⟨-, -, rfl⟩ := (append_cons_inj_of_notMem hbef haft).mp (hsame.symm.trans hpath)
  exact ⟨bef', htail.symm⟩

/-! ## What the loop over the run finds -/

def isAssistant (entry : Entry) : Bool := (assistant? entry).isSome

/-- An assistant message with tool calls. -/
def hasCalls (entry : Entry) : Bool := (assistant? entry).any fun message => message.1.any isToolCall

/-- The tool calls of an entry. -/
def callsOf (entry : Entry) : List Text := ((assistant? entry).map fun message => callIds message.1).getD []

/-- The tool call that an entry answers, and if with an error. -/
def answer? (entry : Entry) : Option (Text × Bool) :=
  match entry.kind with
  | .toolResult toolCallId _ isError => some (toolCallId, isError)
  | _ => none

/-- The last entry of a run with a property. -/
def lastOf (p : Entry → Bool) (run : List Entry) : Option Entry := run.reverse.find? p

/-- A tool call of the run that no later entry of the run answers. -/
def Unanswered (run : List Entry) (id : Text) : Prop :=
  ∃ before entry after, run = before ++ entry :: after ∧ id ∈ callsOf entry ∧ ∀ other ∈ after, (answer? other).map Prod.fst ≠ some id

/-- The last tool result of the run is an error. -/
def EndsInError (run : List Entry) : Prop := (lastOf (fun entry => (answer? entry).isSome) run).bind answer? |>.any Prod.snd

theorem lastOf_append (p : Entry → Bool) (run : List Entry) (entry : Entry) :
    lastOf p (run ++ [entry]) = if p entry then some entry else lastOf p run := by
  rw [lastOf, reverse_append, reverse_singleton, singleton_append, find?_cons]
  cases p entry <;> rfl

theorem mem_of_lastOf {p : Entry → Bool} (h : lastOf p run = some entry) : entry ∈ run := mem_reverse.mp (mem_of_find?_eq_some h)

theorem unanswered_append :
    Unanswered (run ++ [entry]) id ↔ id ∈ callsOf entry ∨ (Unanswered run id ∧ (answer? entry).map Prod.fst ≠ some id) := by
  constructor
  · rintro ⟨bef, c, aft, hrun, hcall, haft⟩
    rcases eq_nil_or_concat aft with rfl | ⟨aft, last, rfl⟩
    · obtain ⟨-, hlast⟩ := append_inj' hrun rfl
      rw [(cons.inj hlast).1]
      exact .inl hcall
    · rw [concat_eq_append] at hrun haft
      have hshape : run ++ [entry] = (bef ++ c :: aft) ++ [last] := by simpa using hrun
      obtain ⟨rfl, hlast⟩ := append_inj' hshape rfl
      obtain rfl := (cons.inj hlast).1
      exact .inr ⟨⟨bef, c, aft, rfl, hcall, fun oth hoth => haft oth (mem_append_left _ hoth)⟩,
        haft entry (mem_append_right _ (mem_singleton_self _))⟩
  · rintro (hcall | ⟨⟨bef, c, aft, rfl, hcall, haft⟩, hent⟩)
    · exact ⟨run, entry, [], rfl, hcall, forall_mem_nil _⟩
    · refine ⟨bef, c, aft ++ [entry], by simp, hcall, ?_⟩
      intro oth hoth
      rcases mem_append.mp hoth with hoth | hoth
      · exact haft oth hoth
      · rwa [mem_singleton.mp hoth]

/-- The pairing of a run, in the run's own terms. -/
structure Pairing.Of (pairing : Pairing) (run : List Entry) : Prop where
  «open» : ∀ id, id ∈ pairing.open ↔ Unanswered run id
  dangling : pairing.danglingAssistant = lastOf hasCalls run
  last : pairing.lastAssistant = lastOf isAssistant run
  error : pairing.lastToolResultError = true ↔ EndsInError run

section

variable (pairing : Pairing)

theorem Pairing.step_assistant {entry : Entry} {cont : List Content} {sr : Option Text}
    (h : assistant? entry = some (cont, sr)) :
    answer? entry = none ∧ pairing.step entry = { pairing with
      «open» := pairing.open ++ callIds cont
      danglingAssistant := if cont.any isToolCall then some entry else pairing.danglingAssistant
      lastAssistant := some entry } := by
  obtain ⟨id, parentId, kind⟩ := entry
  cases kind with
  | message role _ _ =>
    cases role with
    | assistant => cases h; exact ⟨rfl, rfl⟩
    | user | system => cases h
  | _ => cases h

theorem Pairing.step_answer {isError : Bool} (h : answer? entry = some (id, isError)) : assistant? entry = none ∧
      pairing.step entry = { pairing with «open» := pairing.open.filter (· ≠ id), lastToolResultError := isError } := by
  obtain ⟨_, parentId, kind⟩ := entry
  cases kind with
  | toolResult _ _ _ => cases h; exact ⟨rfl, rfl⟩
  | _ => cases h

theorem Pairing.step_other (hasst : assistant? entry = none) (hansw : answer? entry = none) :
    pairing.step entry = pairing := by
  obtain ⟨id, parentId, kind⟩ := entry
  cases kind with
  | message role _ _ =>
    cases role with
    | assistant => cases hasst
    | user | system => rfl
  | toolResult _ _ _ => cases hansw
  | _ => rfl

end

theorem Pairing.Of.step {pairing : Pairing} {run : List Entry} (h : pairing.Of run) (entry : Entry) :
    (pairing.step entry).Of (run ++ [entry]) := by
  have herr := h.error
  rw [EndsInError] at herr
  cases hasst : assistant? entry with
  | some msg =>
    obtain ⟨hansw, hstep⟩ := pairing.step_assistant hasst
    rw [hstep]
    refine ⟨?_, ?_, ?_, ?_⟩
    · intro id
      rw [unanswered_append, ← h.open]
      simp [callsOf, hasst, hansw, or_comm]
    · rw [lastOf_append, ← h.dangling]
      simp [hasCalls, hasst]
    · rw [lastOf_append]
      simp [isAssistant, hasst]
    · rw [EndsInError, lastOf_append]
      simpa [hansw] using herr
  | none =>
    cases hansw : answer? entry with
    | some answer =>
      obtain ⟨toolCallId, isError⟩ := answer
      rw [(pairing.step_answer hansw).2]
      refine ⟨?_, ?_, ?_, ?_⟩
      · intro id
        rw [unanswered_append, ← h.open]
        simp [callsOf, hasst, hansw, @eq_comm _ id toolCallId]
      · rw [lastOf_append, ← h.dangling]
        simp [hasCalls, hasst]
      · rw [lastOf_append, ← h.last]
        simp [isAssistant, hasst]
      · rw [EndsInError, lastOf_append]
        simp [hansw]
    | none =>
      rw [pairing.step_other hasst hansw]
      refine ⟨?_, ?_, ?_, ?_⟩
      · intro id
        rw [unanswered_append, ← h.open]
        simp [callsOf, hasst, hansw]
      · rw [lastOf_append, ← h.dangling]
        simp [hasCalls, hasst]
      · rw [lastOf_append, ← h.last]
        simp [isAssistant, hasst]
      · rw [EndsInError, lastOf_append]
        simpa [hansw] using herr

theorem foldl_of (run : List Entry) : (run.foldl Pairing.step {}).Of run := by
  induction run using reverseRecOn with
  | nil =>
    refine ⟨?_, rfl, rfl, ?_⟩
    · intro id
      constructor
      · intro h
        cases h
      · rintro ⟨bef, entry, aft, hrun, -⟩
        cases bef <;> cases hrun
    · simp [EndsInError, lastOf]
  | append_singleton run entry ih =>
    rw [foldl_append]
    exact ih.step entry

/-! ## What is cut off -/

/-- The entry that recovery from an interruption branches past. -/
def Interrupted (path : List Entry) (entry : Entry) : Prop :=
  ((∃ id, Unanswered (tailRun path) id) ∧ lastOf hasCalls (tailRun path) = some entry) ∨
    ((¬∃ id, Unanswered (tailRun path) id) ∧ lastOf isAssistant (tailRun path) = some entry ∧ EndsInError (tailRun path) ∧
      ∃ message, assistant? entry = some message ∧ isDead message.2 = true ∧ producedWork message.1 = false)

theorem Unanswered.hasCalls (h : Unanswered run id) : ∃ entry, lastOf hasCalls run = some entry := by
  obtain ⟨bef, entry, aft, rfl, hcall, -⟩ := h
  refine isSome_iff_exists.mp (find?_isSome.mpr ⟨entry, by simp, ?_⟩)
  rw [callsOf] at hcall
  rw [Recovery.hasCalls]
  cases hasst : assistant? entry with
  | none =>
    rw [hasst] at hcall
    cases hcall
  | some msg =>
    rw [hasst] at hcall
    obtain ⟨block, hblock, hid⟩ := mem_filterMap.mp hcall
    refine any_eq_true.mpr ⟨block, hblock, ?_⟩
    cases block with
    | toolCall _ _ _ => rfl
    | text _ | thinking _ | image => cases hid

section

variable {path : List Entry} {entry : Entry}

theorem Interrupted.recovers (h : Interrupted path entry) : recoverableTurnOf path = some ⟨.interruptedTools, entry.id⟩ := by
  have hof := foldl_of (tailRun path)
  unfold recoverableTurnOf
  generalize (tailRun path).foldl Pairing.step {} = pairing at hof ⊢
  rcases h with ⟨⟨c, hcall⟩, hent⟩ | ⟨hnone, hlast, herr, msg, hasst, hdead, hwork⟩
  · have hfilled : pairing.open.isEmpty = false := isEmpty_eq_false_iff.mpr (ne_nil_of_mem ((hof.open c).mpr hcall))
    simp [hfilled, hof.dangling, hent]
  · have hemp : pairing.open = [] := eq_nil_iff_forall_not_mem.mpr fun c hcall => hnone ⟨c, (hof.open c).mp hcall⟩
    simp [hemp, hof.last, hlast, hasst, hof.error.mpr herr, hdead, hwork]

/-- Recovery branches past an interrupted entry, or past a dead assistant message that nothing in the context follows. -/
theorem recoverableTurnOf_cases {info : RecoverableTurnInfo} (h : recoverableTurnOf path = some info) (hkind : info.kind ≠ .unfinishedTurn) :
    (∃ entry, Interrupted path entry ∧ entry.id = info.entryId) ∨
      ∃ entry, lastOf isAssistant (tailRun path) = some entry ∧ path.reverse.find? isContextBearing = some entry ∧ entry.id = info.entryId := by
  have hof := foldl_of (tailRun path)
  unfold recoverableTurnOf at h
  generalize (tailRun path).foldl Pairing.step {} = pairing at hof h
  by_cases hopen : ∃ id, Unanswered (tailRun path) id
  · obtain ⟨c, hcall⟩ := hopen
    obtain ⟨entry, hent⟩ := hcall.hasCalls
    have hfilled : pairing.open.isEmpty = false := isEmpty_eq_false_iff.mpr (ne_nil_of_mem ((hof.open c).mpr hcall))
    simp only [hfilled, hof.dangling, hent, Bool.false_eq_true, if_false, some.injEq] at h
    exact .inl ⟨entry, .inl ⟨⟨c, hcall⟩, hent⟩, by rw [← h]⟩
  · have hemp : pairing.open = [] := eq_nil_iff_forall_not_mem.mpr fun c hcall => hopen ⟨c, (hof.open c).mp hcall⟩
    simp only [hemp, isEmpty_nil, if_true] at h
    obtain ⟨last, hlast, h⟩ := bind_eq_some_iff.mp h
    obtain ⟨msg, hasst, h⟩ := bind_eq_some_iff.mp h
    rw [hof.last] at hlast
    split_ifs at h with hmrk hdead hcalls
    · simp only [Bool.and_eq_true, Bool.not_eq_true'] at hmrk
      obtain ⟨⟨hdead, herr⟩, hwork⟩ := hmrk
      refine .inl ⟨last, .inr ⟨hopen, hlast, hof.error.mp herr, msg, hasst, hdead, hwork⟩, ?_⟩
      rw [← some.inj h]
    · obtain ⟨entry, hent, h⟩ := bind_eq_some_iff.mp h
      split_ifs at h with heq
      refine .inr ⟨entry, heq ▸ hlast, hent, ?_⟩
      rw [← some.inj h, heq]
    · exact absurd (congrArg RecoverableTurnInfo.kind (some.inj h)).symm hkind

theorem Interrupted.mem (h : Interrupted path entry) : entry ∈ tailRun path := by
  rcases h with ⟨-, hlast⟩ | ⟨-, hlast, -⟩
  · exact mem_of_lastOf hlast
  · exact mem_of_lastOf hlast

/-- What follows the last entry of the context does not enter the context. -/
theorem after_last {bef aft : List Entry} (hlast : path.reverse.find? isContextBearing = some entry)
    (hpath : path = bef ++ entry :: aft) (hnd : path.Nodup) : ∀ oth ∈ aft, isContextBearing oth = false := by
  obtain ⟨-, lat, earl, hreverse, hlat⟩ := find?_eq_some_iff_append.mp hlast
  have hsame : path = earl.reverse ++ entry :: lat.reverse := by
    rw [← reverse_reverse path, hreverse]
    simp
  have hsplit := nodup_append.mp (hsame ▸ hnd)
  have hearl : entry ∉ earl.reverse := fun h => hsplit.2.2 entry h entry mem_cons_self rfl
  obtain ⟨-, -, rfl⟩ := (append_cons_inj_of_notMem hearl (nodup_cons.mp hsplit.2.1).1).mp (hsame.symm.trans hpath)
  intro oth hoth
  have := hlat oth (mem_reverse.mp hoth)
  simpa using this

end

/-- Nothing foreign follows an entry on the path. -/
def FollowedByOwn (path : List Entry) (entry : Entry) : Prop :=
  ∀ before after, path = before ++ entry :: after → ∀ other ∈ after, isForeign other = false

/-- The entry that recovery branches past is on the tail run, and what follows it and enters the context is the run's own work. -/
def KeepsNewer (doc : Document) : Prop :=
  ∀ path info, leafPath doc = some path → computeRecoverableTurn doc = some (some info) → info.kind ≠ .unfinishedTurn →
    ∀ before entry after, path = before ++ entry :: after → entry.id = info.entryId →
      ∀ other ∈ after, isContextBearing other = true → isOwnWork other = true ∧ other ∈ tailRun path

/-- Recovery keeps newer work exactly when nothing foreign follows an interrupted entry. -/
theorem keeps_newer_iff (doc : Document) :
    KeepsNewer doc ↔ ∀ path entry, leafPath doc = some path → Interrupted path entry → FollowedByOwn path entry := by
  constructor
  · intro hkeeps path entry hpath hinterrupted before after hsplit other hother
    have hturn : computeRecoverableTurn doc = some (some ⟨.interruptedTools, entry.id⟩) := by
      rw [computeRecoverableTurn, hpath, map_some, hinterrupted.recovers]
    cases hforeign : isForeign other with
    | false => rfl
    | true =>
      have hbearing : isContextBearing other = true := bearing_of_foreign hforeign
      obtain ⟨hown, hrun⟩ := hkeeps path _ hpath hturn TurnKind.noConfusion before entry after hsplit rfl other hother hbearing
      rw [(foreign_iff (not_isRunStart_of_mem_tailRun hrun) hbearing).mpr hown] at hforeign
      cases hforeign
  · intro hfollowed path info hpath hturn hkind before entry after hsplit hid other hother hbearing
    have hids : (path.map Entry.id).Nodup := by
      have := (leafPath_eq_some.mp hpath).nodup
      rwa [map_reverse, nodup_reverse] at this
    rw [computeRecoverableTurn, hpath, map_some, some.injEq] at hturn
    have hentry : entry ∈ path := by rw [hsplit]; simp
    rcases recoverableTurnOf_cases hturn hkind with ⟨dead, hinterrupted, hdead⟩ | ⟨dead, hlast, hfind, hdead⟩
    · have hmem := hinterrupted.mem
      obtain rfl : entry = dead := inj_on_of_nodup_map hids hentry ((tailRun_suffix path).mem hmem) (hid.trans hdead.symm)
      have hrun : other ∈ tailRun path := (suffix_tailRun hids.of_map hmem hsplit).mem (mem_cons_of_mem _ hother)
      have hforeign := hfollowed path entry hpath hinterrupted before after hsplit other hother
      exact ⟨(foreign_iff (not_isRunStart_of_mem_tailRun hrun) hbearing).mp hforeign, hrun⟩
    · have hmem := (tailRun_suffix path).mem (mem_of_lastOf hlast)
      obtain rfl : entry = dead := inj_on_of_nodup_map hids hentry hmem (hid.trans hdead.symm)
      rw [after_last hfind hsplit hids.of_map other hother] at hbearing
      cases hbearing

/-- A call that no one answers, and then an execution of the user's bash. -/
def abandonedDocument : Document where
  leafId := some [3]
  entries := [⟨[1], none, .message .user [.text [65]] none⟩, ⟨[2], some [1], .message .assistant [.toolCall [120] [121] .null] none⟩,
    ⟨[3], some [2], .bashExecution⟩]

theorem bashExecution_cut : ¬KeepsNewer abandonedDocument := by
  intro h
  obtain ⟨path, hpath⟩ : ∃ path, leafPath abandonedDocument = some path := ⟨_, rfl⟩
  cases hpath
  have := h _ _ rfl (show computeRecoverableTurn abandonedDocument = some (some ⟨.interruptedTools, [2]⟩) by decide) (by decide)
    [⟨[1], none, .message .user [.text [65]] none⟩] ⟨[2], some [1], .message .assistant [.toolCall [120] [121] .null] none⟩
    [⟨[3], some [2], .bashExecution⟩] rfl rfl _ mem_cons_self rfl
  exact absurd this.1 (by decide)

end PiBridge.Recovery
