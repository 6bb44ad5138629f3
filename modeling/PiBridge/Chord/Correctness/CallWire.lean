import PiBridge.Chord.Correctness.CallWindow
import PiBridge.Chord.Remote.Provider

/-!
# `Chord.Correctness.CallWire` — what the two ends of a link know of each other

The tables of the provider, after everything on its way up was handled and nothing ended meanwhile, are a `View`; `replay`
computes it. `Wire` says that the view holds no call and no hold the consumer has not, that what the consumer has beside it
is told on its way down, and that no call on its way up finds the table full (`Bounded`).
-/

namespace PiBridge.Chord.Remote

open Lib List Assoc Bool

variable {μ α β ε : Type}

/-! ## Messages -/

/-- The calls a list of messages makes. -/
def callIds (up : List (ProviderMessage α)) : List Nat := up.filterMap fun | .call id _ _ _ => some id | _ => none

/-- The holds a list of messages makes. -/
def holdIds (up : List (ProviderMessage α)) : List Nat := up.filterMap fun | .hold hold => some hold | _ => none

/-- The calls a list of messages answers. -/
def replyIds (down : List (ConsumerMessage β ε)) : List Nat :=
  down.filterMap fun | .result id _ => some id | .error id _ => some id | _ => none

/-- The holds a list of messages ends. -/
def goneIds (down : List (ConsumerMessage β ε)) : List Nat := down.filterMap fun | .gone hold _ => some hold | _ => none

@[simp] theorem callIds_append (up more : List (ProviderMessage α)) : callIds (up ++ more) = callIds up ++ callIds more := filterMap_append

@[simp] theorem holdIds_append (up more : List (ProviderMessage α)) : holdIds (up ++ more) = holdIds up ++ holdIds more := filterMap_append

@[simp] theorem replyIds_append (down more : List (ConsumerMessage β ε)) : replyIds (down ++ more) = replyIds down ++ replyIds more :=
  filterMap_append

@[simp] theorem goneIds_append (down more : List (ConsumerMessage β ε)) : goneIds (down ++ more) = goneIds down ++ goneIds more :=
  filterMap_append

/-! ## Views -/

/-- The holds a provider side knows, and its calls with their holds. -/
structure View where
  known : List Nat
  running : List (Nat × Nat)

namespace View

/-- A message handled by a provider side that answers nothing. -/
def step (v : View) : ProviderMessage α → View
  | .hold hold => { v with known := v.known ++ [hold] }
  | .release hold => ⟨v.known.filter (· ≠ hold), v.running.filter (·.2 ≠ hold)⟩
  | .call id hold _ _ => if hold ∈ v.known then { v with running := v.running ++ [(id, hold)] } else v
  | .abort id => { v with running := v.running.filter (·.1 ≠ id) }
  | .retry _ | .ack => v

def replay (v : View) (up : List (ProviderMessage α)) : View := up.foldl step v

/-- Calls and holds taken out. -/
def drop (ids holds : List Nat) (v : View) : View :=
  ⟨v.known.filter (· ∉ holds), v.running.filter fun call => call.1 ∉ ids ∧ call.2 ∉ holds⟩

variable {v : View} {ids holds : List Nat} {up : List (ProviderMessage α)} {message : ProviderMessage α}

@[simp] theorem replay_nil : v.replay ([] : List (ProviderMessage α)) = v := rfl

@[simp] theorem replay_cons : v.replay (message :: up) = (v.step message).replay up := rfl

theorem step_call (v : View) (id hold meth : Nat) (args : α) :
    v.step (.call id hold meth args) = if hold ∈ v.known then { v with running := v.running ++ [(id, hold)] } else v := rfl

theorem replay_concat : v.replay (up ++ [message]) = (v.replay up).step message := by simp [replay]

theorem mem_drop_running {call : Nat × Nat} : call ∈ (v.drop ids holds).running ↔ call ∈ v.running ∧ call.1 ∉ ids ∧ call.2 ∉ holds := by
  simp [drop]

theorem mem_drop_known {hold : Nat} : hold ∈ (v.drop ids holds).known ↔ hold ∈ v.known ∧ hold ∉ holds := by simp [drop]

theorem drop_nil : v.drop [] [] = v := by simp [drop]

theorem drop_drop (ids' holds' : List Nat) : (v.drop ids holds).drop ids' holds' = v.drop (ids ++ ids') (holds ++ holds') := by
  simp only [drop, filter_filter, mem_append]
  congr 1
  · refine filter_congr fun hold _ => ?_
    simp [Bool.and_comm]
  · refine filter_congr fun call _ => ?_
    rw [← decide_and]
    exact decide_eq_decide.mpr (by tauto)

theorem drop_congr {ids' : List Nat} (h : ∀ id, id ∈ ids ↔ id ∈ ids') : v.drop ids holds = v.drop ids' holds := by
  unfold drop
  congr 1
  exact filter_congr fun call _ => decide_eq_decide.mpr (by rw [h])

/-- Taking out what a message does not bring, before it or after it. -/
theorem step_drop (hids : ∀ id ∈ callIds [message], id ∉ ids) (hholds : ∀ hold ∈ holdIds [message], hold ∉ holds) :
    (v.drop ids holds).step message = (v.step message).drop ids holds := by
  cases message with
  | hold hold =>
    have hnot : hold ∉ holds := hholds hold (by simp [holdIds])
    simp [step, drop, hnot]
  | release hold =>
    simp only [step, drop, filter_filter]
    congr 1
    · exact filter_congr fun _ _ => and_comm _ _
    · exact filter_congr fun _ _ => and_comm _ _
  | call id hold meth args =>
    have hnot : id ∉ ids := hids id (by simp [callIds])
    by_cases hkn : hold ∈ v.known
    · by_cases hdrop : hold ∈ holds
      · simp [step, drop, hkn, hdrop]
      · simp [step, drop, hkn, hdrop, hnot]
    · simp [step, drop, hkn]
  | abort id =>
    simp only [step, drop, filter_filter]
    congr 1
    exact filter_congr fun _ _ => and_comm _ _
  | retry hold => rfl
  | ack => rfl

theorem replay_drop (hids : ∀ id ∈ callIds up, id ∉ ids) (hholds : ∀ hold ∈ holdIds up, hold ∉ holds) :
    (v.drop ids holds).replay up = (v.replay up).drop ids holds := by
  induction up generalizing v with
  | nil => rfl
  | cons message up ih =>
    have hcallsSplit : callIds (message :: up) = callIds [message] ++ callIds up := callIds_append [message] up
    have hholdsSplit : holdIds (message :: up) = holdIds [message] ++ holdIds up := holdIds_append [message] up
    rw [hcallsSplit] at hids
    rw [hholdsSplit] at hholds
    rw [replay_cons, replay_cons, step_drop (fun id h => hids id (mem_append_left _ h)) fun hold h => hholds hold (mem_append_left _ h)]
    exact ih (fun id h => hids id (mem_append_right _ h)) fun hold h => hholds hold (mem_append_right _ h)

/-- The calls of a view come from the one before and from the messages. -/
theorem ids_step : ((v.step message).running.map Prod.fst).Sublist (v.running.map Prod.fst ++ callIds [message]) := by
  cases message with
  | call id hold meth args =>
    rw [step_call]
    split
    · simp [callIds]
    · exact sublist_append_left _ _
  | release hold | abort id => exact (filter_sublist.map _).trans (sublist_append_left _ _)
  | hold hold | retry hold | ack => exact sublist_append_left _ _

theorem ids_replay : ((v.replay up).running.map Prod.fst).Sublist (v.running.map Prod.fst ++ callIds up) := by
  induction up generalizing v with
  | nil => simp [callIds]
  | cons message up ih =>
    refine ih.trans ?_
    rw [show callIds (message :: up) = callIds [message] ++ callIds up from callIds_append [message] up, ← append_assoc]
    exact ids_step.append_right _

theorem holds_step : (v.step message).known.Sublist (v.known ++ holdIds [message]) := by
  cases message with
  | hold hold => simp [step, holdIds]
  | release hold => exact filter_sublist.trans (sublist_append_left _ _)
  | call id hold meth args =>
    rw [step_call]
    split <;> exact sublist_append_left _ _
  | abort id | retry hold | ack => exact sublist_append_left _ _

/-! ## The limit -/

/-- Whether handling a message finds room for its call. -/
def admits (limit : Nat) (v : View) : ProviderMessage α → Prop
  | .call _ hold _ _ => hold ∈ v.known → v.running.length < limit
  | _ => True

/-- Whether every call on its way up finds room. -/
def Bounded (limit : Nat) : View → List (ProviderMessage α) → Prop
  | _, [] => True
  | v, message :: up => v.admits limit message ∧ Bounded limit (v.step message) up

theorem Bounded.concat {lim : Nat} (h : v.Bounded lim up) (hlast : (v.replay up).admits lim message) : v.Bounded lim (up ++ [message]) := by
  induction up generalizing v with
  | nil => exact ⟨hlast, True.intro⟩
  | cons fst up ih => exact ⟨h.1, ih h.2 hlast⟩

theorem Bounded.drop {lim : Nat} (h : v.Bounded lim up) (hids : ∀ id ∈ callIds up, id ∉ ids) (hholds : ∀ hold ∈ holdIds up, hold ∉ holds) :
    (v.drop ids holds).Bounded lim up := by
  induction up generalizing v with
  | nil => exact True.intro
  | cons message up ih =>
    have hcallsSplit : callIds (message :: up) = callIds [message] ++ callIds up := callIds_append [message] up
    have hholdsSplit : holdIds (message :: up) = holdIds [message] ++ holdIds up := holdIds_append [message] up
    rw [hcallsSplit] at hids
    rw [hholdsSplit] at hholds
    constructor
    · -- Fewer calls run than before.
      cases message with
      | call id hold meth args =>
        intro hkn
        exact Nat.lt_of_le_of_lt (length_filter_le _ _) (h.1 (mem_drop_known.1 hkn).1)
      | _ => exact True.intro
    · rw [step_drop (fun id h => hids id (mem_append_left _ h)) fun hold h => hholds hold (mem_append_left _ h)]
      exact ih h.2 (fun id h => hids id (mem_append_right _ h)) fun hold h => hholds hold (mem_append_right _ h)

end View

/-! ## The wire -/

/-- Whether a consumer side holds it. -/
def Consumer.Holds (c : Consumer μ α β ε) (hold : Nat) : Prop := (Assoc.get? c.entries hold).isSome = true

/-- What a consumer side and the tables of its provider side know of each other, with the messages between them. -/
structure Wire (c : Consumer μ α β ε) (v : View) (up : List (ProviderMessage α)) (down : List (ConsumerMessage β ε))
    (errors : List ProtocolError) (limit : Nat) : Prop where
  ids : (v.running.map Prod.fst ++ callIds up).Nodup
  idsFresh : ∀ id ∈ v.running.map Prod.fst ++ callIds up, id < c.nextCall
  holds : (v.known ++ holdIds up).Nodup
  holdsFresh : ∀ hold ∈ v.known ++ holdIds up, hold < c.nextHold
  /-- A call that was answered runs no more, nor will it. -/
  replies : ∀ id ∈ replyIds down, id < c.nextCall ∧ id ∉ (v.replay up).running.map Prod.fst
  gones : ∀ hold ∈ goneIds down, hold < c.nextHold ∧ hold ∉ (v.replay up).known
  running : ∀ call ∈ (v.replay up).running, ∃ outgoing, Assoc.get? c.calls call.1 = some outgoing ∧ outgoing.hold = call.2
  known : ∀ hold ∈ (v.replay up).known, c.Holds hold
  runningKnown : ∀ call ∈ (v.replay up).running, call.2 ∈ (v.replay up).known
  entries : ∀ hold, c.Holds hold → hold ∈ (v.replay up).known ∨ hold ∈ goneIds down
  entriesFresh : ∀ hold, c.Holds hold → hold < c.nextHold
  /-- A call in flight will run, or its end is told. -/
  owed : errors = [] → ∀ id outgoing, Assoc.get? c.calls id = some outgoing → c.Holds outgoing.hold →
    (id, outgoing.hold) ∈ (v.replay up).running ∨ id ∈ replyIds down ∨ outgoing.hold ∈ goneIds down
  bounded : v.Bounded limit up
  window : c.limit ≤ limit
  hellos : ∀ calls, .hello calls ∈ down → calls = limit

namespace Wire

variable {c c' : Consumer μ α β ε} {v : View} {up : List (ProviderMessage α)} {down : List (ConsumerMessage β ε)}
  {errs : List ProtocolError} {lim : Nat}

theorem start (lim : Nat) : Wire (Consumer.new : Consumer μ α β ε) ⟨[], []⟩ [] [.hello lim] [] lim where
  ids := nodup_nil
  idsFresh := nofun
  holds := nodup_nil
  holdsFresh := nofun
  replies := nofun
  gones := nofun
  running := nofun
  known := nofun
  runningKnown := nofun
  entries _ h := absurd h false_ne_true
  entriesFresh _ h := absurd h false_ne_true
  owed _ _ _ h := by cases h
  bounded := True.intro
  window := Nat.zero_le lim
  hellos calls h := by simpa using h

/-- The wire says nothing of the queue and the log. -/
theorem congr (h : Wire c v up down errs lim) (hcalls : c'.calls = c.calls) (hents : ∀ hold, c'.Holds hold ↔ c.Holds hold)
    (hcall : c'.nextCall = c.nextCall) (hhold : c'.nextHold = c.nextHold) (hlim : c'.limit ≤ lim) : Wire c' v up down errs lim where
  ids := h.ids
  idsFresh := hcall ▸ h.idsFresh
  holds := h.holds
  holdsFresh := hhold ▸ h.holdsFresh
  replies := hcall ▸ h.replies
  gones := hhold ▸ h.gones
  running := hcalls ▸ h.running
  known hold hmem := (hents hold).mpr (h.known hold hmem)
  runningKnown := h.runningKnown
  entries hold hmem := h.entries hold ((hents hold).mp hmem)
  entriesFresh hold hmem := hhold ▸ h.entriesFresh hold ((hents hold).mp hmem)
  owed hnone id outgoing hget hholds := h.owed hnone id outgoing (hcalls ▸ hget) ((hents _).mp hholds)
  bounded := h.bounded
  window := hlim
  hellos := h.hellos

/-! ### What the consumer does -/

/-- A message that brings nothing and takes nothing. -/
theorem post {message : ProviderMessage α} (h : Wire c v up down errs lim) (hstep : ∀ w : View, w.step message = w)
    (hcalls : callIds [message] = []) (hholds : holdIds [message] = []) (hadmits : ∀ w : View, w.admits lim message) :
    Wire c v (up ++ [message]) down errs lim := by
  have hreplay : v.replay (up ++ [message]) = v.replay up := by rw [View.replay_concat, hstep]
  refine ⟨?_, ?_, ?_, ?_, ?_, ?_, ?_, ?_, ?_, ?_, h.entriesFresh, ?_, h.bounded.concat (hadmits _), h.window, h.hellos⟩
  · rw [callIds_append, hcalls, append_nil]
    exact h.ids
  · rw [callIds_append, hcalls, append_nil]
    exact h.idsFresh
  · rw [holdIds_append, hholds, append_nil]
    exact h.holds
  · rw [holdIds_append, hholds, append_nil]
    exact h.holdsFresh
  · rw [hreplay]
    exact h.replies
  · rw [hreplay]
    exact h.gones
  · rw [hreplay]
    exact h.running
  · rw [hreplay]
    exact h.known
  · rw [hreplay]
    exact h.runningKnown
  · rw [hreplay]
    exact h.entries
  · rw [hreplay]
    exact h.owed

/-- A call goes up: less than `limit` are in flight. -/
theorem send (h : Wire c v up down errs lim) (hfresh : ∀ id ∈ c.calls.map Prod.fst, id < c.nextCall) (hroom : c.calls.length < lim)
    (call : OutgoingCall α) (hholds : c.Holds call.hold) :
    Wire { c with nextCall := c.nextCall + 1, calls := Assoc.set c.calls c.nextCall call } v
      (up ++ [ProviderMessage.call c.nextCall call.hold call.method call.args]) down errs lim := by
  have hnew : c.nextCall ∉ v.running.map Prod.fst ++ callIds up := fun hmem => Nat.lt_irrefl _ (h.idsFresh _ hmem)
  have hget : ∀ id out, get? c.calls id = some out → get? (set c.calls c.nextCall call) id = some out := by
    intro id out hget
    rwa [get?_set_ne]
    intro heq
    exact Nat.lt_irrefl _ (hfresh _ (heq ▸ mem_map_of_mem (mem_of_get? hget)))
  have hstep : (v.replay (up ++ [ProviderMessage.call c.nextCall call.hold call.method call.args])) =
      if call.hold ∈ (v.replay up).known then
        { v.replay up with running := (v.replay up).running ++ [(c.nextCall, call.hold)] } else v.replay up := by
    rw [View.replay_concat, View.step_call]
  have hkn : (v.replay (up ++ [ProviderMessage.call c.nextCall call.hold call.method call.args])).known = (v.replay up).known := by
    rw [hstep]
    split <;> rfl
  have hmem : ∀ oth ∈ (v.replay (up ++ [ProviderMessage.call c.nextCall call.hold call.method call.args])).running,
      oth ∈ (v.replay up).running ∨ oth = (c.nextCall, call.hold) ∧ call.hold ∈ (v.replay up).known := by
    intro oth hoth
    rw [hstep] at hoth
    split at hoth
    · rename_i hin
      rcases mem_append.mp hoth with hoth | hoth
      · exact Or.inl hoth
      · exact Or.inr ⟨mem_singleton.mp hoth, hin⟩
    · exact Or.inl hoth
  have hsub : ∀ oth ∈ (v.replay up).running, oth ∈ (v.replay (up ++ [ProviderMessage.call c.nextCall call.hold call.method call.args])).running := by
    intro oth hoth
    rw [hstep]
    split
    · exact mem_append_left _ hoth
    · exact hoth
  have hids : callIds (up ++ [ProviderMessage.call c.nextCall call.hold call.method call.args]) = callIds up ++ [c.nextCall] := by simp [callIds]
  have hholdIds : holdIds (up ++ [ProviderMessage.call c.nextCall call.hold call.method call.args]) = holdIds up := by simp [holdIds]
  refine ⟨?_, ?_, ?_, ?_, ?_, ?_, ?_, ?_, ?_, ?_, h.entriesFresh, ?_, ?_, h.window, h.hellos⟩
  · rw [hids, ← append_assoc, nodup_append]
    refine ⟨h.ids, by simp, fun a ha b hb heq => hnew ?_⟩
    obtain rfl := mem_singleton.mp hb
    exact heq ▸ ha
  · rw [hids, ← append_assoc]
    intro id hid
    rcases mem_snoc.mp hid with hid | rfl
    · exact Nat.lt_succ_of_lt (h.idsFresh id hid)
    · exact Nat.lt_succ_self c.nextCall
  · rw [hholdIds]
    exact h.holds
  · rw [hholdIds]
    exact h.holdsFresh
  · intro id hid
    obtain ⟨hlt, hnot⟩ := h.replies id hid
    refine ⟨Nat.lt_succ_of_lt hlt, fun hin => ?_⟩
    obtain ⟨oth, hoth, rfl⟩ := mem_map.mp hin
    rcases hmem oth hoth with hoth | ⟨rfl, -⟩
    · exact hnot (mem_map_of_mem hoth)
    · exact Nat.lt_irrefl _ hlt
  · rw [hkn]
    exact h.gones
  · intro oth hoth
    rcases hmem oth hoth with hoth | ⟨rfl, -⟩
    · obtain ⟨out, hout, hhold⟩ := h.running oth hoth
      exact ⟨out, hget _ _ hout, hhold⟩
    · exact ⟨call, get?_set_self _ _ _, rfl⟩
  · rw [hkn]
    exact h.known
  · intro oth hoth
    rw [hkn]
    rcases hmem oth hoth with hoth | ⟨rfl, hin⟩
    · exact h.runningKnown oth hoth
    · exact hin
  · rw [hkn]
    exact h.entries
  · intro hnone id out hout hin
    by_cases hid : c.nextCall = id
    · -- The new call: its hold is known, or its end is on its way down.
      subst hid
      obtain rfl : call = out := by simpa using hout
      rcases h.entries call.hold hholds with hin | hgone
      · refine Or.inl ?_
        rw [hstep, if_pos hin]
        exact mem_append_right _ (mem_singleton_self _)
      · exact Or.inr (Or.inr hgone)
    · rw [get?_set_ne _ _ hid] at hout
      exact (h.owed hnone id out hout hin).imp_left (hsub _)
  · refine h.bounded.concat fun _ => ?_
    -- The calls of the view are in flight, each once.
    have hnd : ((v.replay up).running.map Prod.fst).Nodup := h.ids.sublist View.ids_replay
    have hsubset : (v.replay up).running.map Prod.fst ⊆ c.calls.map Prod.fst := by
      intro id hid
      obtain ⟨oth, hoth, rfl⟩ := mem_map.mp hid
      obtain ⟨out, hout, -⟩ := h.running oth hoth
      exact mem_map_of_mem (mem_of_get? hout)
    have hle := (subperm_of_subset hnd hsubset).length_le
    rw [length_map, length_map] at hle
    exact Nat.lt_of_le_of_lt hle hroom

/-- A call that will not run leaves the table. -/
theorem erase {id : Nat} (h : Wire c v up down errs lim) (hnot : id ∉ (v.replay up).running.map Prod.fst) :
    Wire { c with calls := Assoc.erase c.calls id } v up down errs lim where
  __ := h
  running call hcall := by
    obtain ⟨out, hget, hhold⟩ := h.running call hcall
    refine ⟨out, ?_, hhold⟩
    rwa [get?_erase_ne]
    exact fun heq => hnot (heq ▸ mem_map_of_mem hcall)
  owed hnone other out hget hholds := by
    by_cases heq : id = other
    · subst heq
      rw [get?_erase_self] at hget
      cases hget
    · rw [get?_erase_ne _ heq] at hget
      exact h.owed hnone other out hget hholds

/-- A call of a hold that was given up will not run. -/
theorem not_running {id : Nat} {call : OutgoingCall α} (h : Wire c v up down errs lim) (hget : Assoc.get? c.calls id = some call)
    (hholds : ¬c.Holds call.hold) : id ∉ (v.replay up).running.map Prod.fst := by
  intro hid
  obtain ⟨oth, hoth, rfl⟩ := mem_map.mp hid
  obtain ⟨out, hout, hhold⟩ := h.running oth hoth
  obtain rfl : call = out := Option.some.inj (hget.symm.trans hout)
  exact hholds (hhold ▸ h.known _ (h.runningKnown oth hoth))

/-- A call is given up, and the provider told. -/
theorem abort (h : Wire c v up down errs lim) (id : Nat) :
    Wire { c with calls := Assoc.erase c.calls id } v (up ++ [ProviderMessage.abort id]) down errs lim := by
  have hreplay : v.replay (up ++ [(.abort id : ProviderMessage α)]) =
      { v.replay up with running := (v.replay up).running.filter (·.1 ≠ id) } := View.replay_concat
  have hids : callIds (up ++ [(.abort id : ProviderMessage α)]) = callIds up := by simp [callIds]
  have hholds : holdIds (up ++ [(.abort id : ProviderMessage α)]) = holdIds up := by simp [holdIds]
  have hsub : ∀ call ∈ (v.replay (up ++ [(.abort id : ProviderMessage α)])).running, call ∈ (v.replay up).running ∧ call.1 ≠ id := by
    intro call hcall
    rw [hreplay] at hcall
    simpa using hcall
  refine ⟨?_, ?_, ?_, ?_, ?_, ?_, ?_, ?_, ?_, ?_, h.entriesFresh, ?_, h.bounded.concat True.intro, h.window, h.hellos⟩
  · rw [hids]
    exact h.ids
  · rw [hids]
    exact h.idsFresh
  · rw [hholds]
    exact h.holds
  · rw [hholds]
    exact h.holdsFresh
  · intro oth hoth
    refine ⟨(h.replies oth hoth).1, fun hin => (h.replies oth hoth).2 ?_⟩
    obtain ⟨call, hcall, rfl⟩ := mem_map.mp hin
    exact mem_map_of_mem (hsub call hcall).1
  · rw [hreplay]
    exact h.gones
  · intro call hcall
    obtain ⟨out, hget, hhold⟩ := h.running call (hsub call hcall).1
    refine ⟨out, ?_, hhold⟩
    rwa [get?_erase_ne]
    exact (hsub call hcall).2.symm
  · rw [hreplay]
    exact h.known
  · intro call hcall
    rw [hreplay]
    exact h.runningKnown call (hsub call hcall).1
  · rw [hreplay]
    exact h.entries
  · intro hnone oth out hget hin
    by_cases heq : id = oth
    · subst heq
      rw [get?_erase_self] at hget
      cases hget
    · rw [get?_erase_ne _ heq] at hget
      refine (h.owed hnone oth out hget hin).imp_left fun hrun => ?_
      rw [hreplay]
      simpa using ⟨hrun, Ne.symm heq⟩

theorem holds_erase {hold oth : Nat} : Consumer.Holds { c with entries := Assoc.erase c.entries hold } oth ↔ c.Holds oth ∧ oth ≠ hold := by
  unfold Consumer.Holds
  by_cases heq : hold = oth
  · subst heq
    simp
  · rw [get?_erase_ne _ heq]
    exact ⟨fun h => ⟨h, Ne.symm heq⟩, fun h => h.1⟩

/-- A hold is given up, and the provider told. -/
theorem release (h : Wire c v up down errs lim) (hold : Nat) :
    Wire { c with entries := Assoc.erase c.entries hold } v (up ++ [ProviderMessage.release hold]) down errs lim := by
  have hreplay : v.replay (up ++ [(.release hold : ProviderMessage α)]) =
      ⟨(v.replay up).known.filter (· ≠ hold), (v.replay up).running.filter (·.2 ≠ hold)⟩ := View.replay_concat
  have hids : callIds (up ++ [(.release hold : ProviderMessage α)]) = callIds up := by simp [callIds]
  have hholds : holdIds (up ++ [(.release hold : ProviderMessage α)]) = holdIds up := by simp [holdIds]
  have hsub : ∀ call ∈ (v.replay (up ++ [(.release hold : ProviderMessage α)])).running, call ∈ (v.replay up).running ∧ call.2 ≠ hold := by
    intro call hcall
    rw [hreplay] at hcall
    simpa using hcall
  have hkn : ∀ oth, oth ∈ (v.replay (up ++ [(.release hold : ProviderMessage α)])).known ↔ oth ∈ (v.replay up).known ∧ oth ≠ hold := by
    intro oth
    rw [hreplay]
    simp
  refine ⟨?_, ?_, ?_, ?_, ?_, ?_, ?_, ?_, ?_, ?_, ?_, ?_, h.bounded.concat True.intro, h.window, h.hellos⟩
  · rw [hids]
    exact h.ids
  · rw [hids]
    exact h.idsFresh
  · rw [hholds]
    exact h.holds
  · rw [hholds]
    exact h.holdsFresh
  · intro oth hoth
    refine ⟨(h.replies oth hoth).1, fun hin => (h.replies oth hoth).2 ?_⟩
    obtain ⟨call, hcall, rfl⟩ := mem_map.mp hin
    exact mem_map_of_mem (hsub call hcall).1
  · intro oth hoth
    exact ⟨(h.gones oth hoth).1, fun hin => (h.gones oth hoth).2 ((hkn oth).mp hin).1⟩
  · intro call hcall
    exact h.running call (hsub call hcall).1
  · intro oth hoth
    obtain ⟨hin, hne⟩ := (hkn oth).mp hoth
    exact holds_erase.2 ⟨h.known oth hin, hne⟩
  · intro call hcall
    obtain ⟨hin, hne⟩ := hsub call hcall
    exact (hkn _).mpr ⟨h.runningKnown call hin, hne⟩
  · intro oth hoth
    obtain ⟨hin, hne⟩ := holds_erase.1 hoth
    exact (h.entries oth hin).imp_left fun hin => (hkn oth).mpr ⟨hin, hne⟩
  · intro oth hoth
    exact h.entriesFresh oth (holds_erase.1 hoth).1
  · intro hnone id out hget hin
    obtain ⟨hin, hne⟩ := holds_erase.1 hin
    refine (h.owed hnone id out hget hin).imp_left fun hrun => ?_
    rw [hreplay]
    simpa using ⟨hrun, hne⟩

/-- A hold the provider forgot is given up. -/
theorem forget {hold : Nat} (h : Wire c v up down errs lim) (hnot : hold ∉ (v.replay up).known) :
    Wire { c with entries := Assoc.erase c.entries hold } v up down errs lim where
  __ := h
  known other hoth := holds_erase.2 ⟨h.known other hoth, fun heq => hnot (heq ▸ hoth)⟩
  entries other hoth := h.entries other (holds_erase.1 hoth).1
  entriesFresh other hoth := h.entriesFresh other (holds_erase.1 hoth).1
  owed hnone id outgoing hget hholds := h.owed hnone id outgoing hget (holds_erase.1 hholds).1

/-- A message was heard: what it answers and what it ends is in no table. -/
theorem heard {message : ConsumerMessage β ε} (h : Wire c v up (message :: down) errs lim)
    (hreply : ∀ id ∈ replyIds [message], Assoc.get? c.calls id = none) (hgone : ∀ hold ∈ goneIds [message], ¬c.Holds hold) :
    Wire c v up down errs lim := by
  have hreplies : replyIds (message :: down) = replyIds [message] ++ replyIds down := replyIds_append [message] down
  have hgones : goneIds (message :: down) = goneIds [message] ++ goneIds down := goneIds_append [message] down
  exact {
    h with
    replies := fun id hid => h.replies id (hreplies ▸ mem_append_right _ hid)
    gones := fun hold hhold => h.gones hold (hgones ▸ mem_append_right _ hhold)
    entries := by
      intro hold hholds
      refine (h.entries hold hholds).imp_right fun hin => ?_
      rw [hgones] at hin
      exact (mem_append.mp hin).resolve_left fun hin => hgone hold hin hholds
    owed := by
      intro hnone id out hget hholds
      rcases h.owed hnone id out hget hholds with hrun | hid | hin
      · exact Or.inl hrun
      · rw [hreplies] at hid
        refine Or.inr (Or.inl ((mem_append.mp hid).resolve_left fun hid => ?_))
        rw [hreply id hid] at hget
        cases hget
      · rw [hgones] at hin
        exact Or.inr (Or.inr ((mem_append.mp hin).resolve_left fun hin => hgone _ hin hholds))
    hellos := fun cs hmem => h.hellos cs (mem_cons_of_mem _ hmem) }

theorem attach (h : Wire c v up down errs lim) (hheld : ∀ id out, Assoc.get? c.calls id = some out → c.Holds out.hold)
    (obj : RemoteObject) :
    Wire { c with nextHold := c.nextHold + 1, entries := Assoc.set c.entries c.nextHold obj } v (up ++ [ProviderMessage.hold c.nextHold]) down errs lim := by
  have hnew : c.nextHold ∉ v.known ++ holdIds up := fun hmem => Nat.lt_irrefl _ (h.holdsFresh _ hmem)
  have hreplay : v.replay (up ++ [(.hold c.nextHold : ProviderMessage α)]) =
      { v.replay up with known := (v.replay up).known ++ [c.nextHold] } := View.replay_concat
  have hids : callIds (up ++ [(.hold c.nextHold : ProviderMessage α)]) = callIds up := by simp [callIds]
  have hholds : holdIds (up ++ [(.hold c.nextHold : ProviderMessage α)]) = holdIds up ++ [c.nextHold] := by simp [holdIds]
  have hset : ∀ hold, Consumer.Holds { c with nextHold := c.nextHold + 1, entries := set c.entries c.nextHold obj } hold ↔
      c.Holds hold ∨ hold = c.nextHold := by
    intro hold
    unfold Consumer.Holds
    rw [get?_set]
    split
    · rename_i heq
      simp [heq]
    · rename_i hne
      exact ⟨Or.inl, fun h => h.resolve_right fun heq => hne heq.symm⟩
  have hkn : ∀ hold ∈ (v.replay up).known, hold ∈ (v.replay (up ++ [(.hold c.nextHold : ProviderMessage α)])).known := by
    intro hold hin
    rw [hreplay]
    exact mem_append_left _ hin
  refine ⟨?_, ?_, ?_, ?_, ?_, ?_, ?_, ?_, ?_, ?_, ?_, ?_, h.bounded.concat True.intro, h.window, h.hellos⟩
  · rw [hids]
    exact h.ids
  · rw [hids]
    exact h.idsFresh
  · rw [hholds, ← append_assoc, nodup_append]
    refine ⟨h.holds, by simp, fun a ha b hb heq => hnew ?_⟩
    obtain rfl := mem_singleton.mp hb
    exact heq ▸ ha
  · rw [hholds, ← append_assoc]
    intro hold hin
    rcases mem_snoc.mp hin with hin | rfl
    · exact Nat.lt_succ_of_lt (h.holdsFresh hold hin)
    · exact Nat.lt_succ_self c.nextHold
  · rw [hreplay]
    exact h.replies
  · intro hold hin
    obtain ⟨hlt, hnot⟩ := h.gones hold hin
    refine ⟨Nat.lt_succ_of_lt hlt, ?_⟩
    rw [hreplay]
    intro hmem
    rcases mem_snoc.mp hmem with hmem | rfl
    · exact hnot hmem
    · exact Nat.lt_irrefl _ hlt
  · rw [hreplay]
    exact h.running
  · intro hold hin
    rw [hreplay] at hin
    exact (hset hold).mpr ((mem_append.mp hin).imp (h.known hold) mem_singleton.mp)
  · intro call hcall
    rw [hreplay] at hcall
    exact hkn _ (h.runningKnown call hcall)
  · intro hold hin
    rcases (hset hold).mp hin with hin | rfl
    · exact (h.entries hold hin).imp_left (hkn hold)
    · refine Or.inl ?_
      rw [hreplay]
      exact mem_append_right _ (mem_singleton_self _)
  · intro hold hin
    rcases (hset hold).mp hin with hin | rfl
    · exact Nat.lt_succ_of_lt (h.entriesFresh hold hin)
    · exact Nat.lt_succ_self c.nextHold
  · intro hnone id out hget _
    rw [hreplay]
    exact h.owed hnone id out hget (hheld id out hget)

/-! ### What the provider does -/

/-- A message was handled as the view says. -/
theorem pop {message : ProviderMessage α} (h : Wire c v (message :: up) down errs lim) : Wire c (v.step message) up down errs lim where
  __ := h
  ids := by
    refine (h.ids).sublist ?_
    rw [show callIds (message :: up) = callIds [message] ++ callIds up from callIds_append [message] up, ← append_assoc]
    exact View.ids_step.append_right _
  idsFresh := by
    intro id hid
    refine h.idsFresh id ?_
    rw [show callIds (message :: up) = callIds [message] ++ callIds up from callIds_append [message] up, ← append_assoc]
    exact (View.ids_step.append_right _).subset hid
  holds := by
    refine (h.holds).sublist ?_
    rw [show holdIds (message :: up) = holdIds [message] ++ holdIds up from holdIds_append [message] up, ← append_assoc]
    exact View.holds_step.append_right _
  holdsFresh := by
    intro hold hin
    refine h.holdsFresh hold ?_
    rw [show holdIds (message :: up) = holdIds [message] ++ holdIds up from holdIds_append [message] up, ← append_assoc]
    exact (View.holds_step.append_right _).subset hin
  bounded := h.bounded.2

/-- The provider answers calls and ends holds: those leave its tables, and the consumer is told; `lost` are calls it
    dropped with a protocol error. -/
theorem advance {msgs : List (ConsumerMessage β ε)} {lost : List Nat} {errs' : List ProtocolError} (h : Wire c v up down errs lim)
    (hids : ∀ id ∈ replyIds msgs ++ lost, id ∈ v.running.map Prod.fst) (hholds : ∀ hold ∈ goneIds msgs, hold ∈ v.known)
    (hhello : ∀ cs, .hello cs ∉ msgs) (hlost : lost ≠ [] → errs' ≠ []) (herrors : errs' = [] → errs = []) :
    Wire c (v.drop (replyIds msgs ++ lost) (goneIds msgs)) up (down ++ msgs) errs' lim := by
  -- What leaves the tables is not on its way up.
  have hidsUp : ∀ id ∈ callIds up, id ∉ replyIds msgs ++ lost := fun id hup hid =>
    (nodup_append.mp h.ids).2.2 id (hids id hid) id hup rfl
  have hholdsUp : ∀ hold ∈ holdIds up, hold ∉ goneIds msgs := fun hold hup hgone =>
    (nodup_append.mp h.holds).2.2 hold (hholds hold hgone) hold hup rfl
  have hreplay := View.replay_drop (v := v) hidsUp hholdsUp
  have hsub : ∀ call ∈ ((v.drop (replyIds msgs ++ lost) (goneIds msgs)).replay up).running,
      call ∈ (v.replay up).running ∧ call.1 ∉ replyIds msgs ++ lost ∧ call.2 ∉ goneIds msgs := by
    intro call hcall
    rw [hreplay] at hcall
    exact View.mem_drop_running.1 hcall
  have hkn : ∀ hold, hold ∈ ((v.drop (replyIds msgs ++ lost) (goneIds msgs)).replay up).known ↔
      hold ∈ (v.replay up).known ∧ hold ∉ goneIds msgs := by
    intro hold
    rw [hreplay]
    exact View.mem_drop_known
  have hdropIds : ((v.drop (replyIds msgs ++ lost) (goneIds msgs)).running.map Prod.fst ++ callIds up).Sublist
      (v.running.map Prod.fst ++ callIds up) := (filter_sublist.map _).append_right _
  have hdropHolds : ((v.drop (replyIds msgs ++ lost) (goneIds msgs)).known ++ holdIds up).Sublist (v.known ++ holdIds up) :=
    filter_sublist.append_right _
  refine ⟨h.ids.sublist hdropIds, fun id hid => h.idsFresh id (hdropIds.subset hid), h.holds.sublist hdropHolds,
    fun hold hin => h.holdsFresh hold (hdropHolds.subset hin), ?_, ?_, ?_, ?_, ?_, ?_, h.entriesFresh, ?_, h.bounded.drop hidsUp hholdsUp,
    h.window, ?_⟩
  · intro id hid
    rw [replyIds_append] at hid
    rcases mem_append.mp hid with hid | hid
    · refine ⟨(h.replies id hid).1, fun hin => (h.replies id hid).2 ?_⟩
      obtain ⟨call, hcall, rfl⟩ := mem_map.mp hin
      exact mem_map_of_mem (hsub call hcall).1
    · refine ⟨h.idsFresh id (mem_append_left _ (hids id (mem_append_left _ hid))), fun hin => ?_⟩
      obtain ⟨call, hcall, rfl⟩ := mem_map.mp hin
      exact (hsub call hcall).2.1 (mem_append_left _ hid)
  · intro hold hin
    rw [goneIds_append] at hin
    rcases mem_append.mp hin with hin | hin
    · exact ⟨(h.gones hold hin).1, fun hmem => (h.gones hold hin).2 ((hkn hold).mp hmem).1⟩
    · exact ⟨h.holdsFresh hold (mem_append_left _ (hholds hold hin)), fun hmem => ((hkn hold).mp hmem).2 hin⟩
  · intro call hcall
    exact h.running call (hsub call hcall).1
  · intro hold hin
    exact h.known hold ((hkn hold).mp hin).1
  · intro call hcall
    obtain ⟨hin, -, hnot⟩ := hsub call hcall
    exact (hkn _).mpr ⟨h.runningKnown call hin, hnot⟩
  · intro hold hin
    rw [goneIds_append]
    by_cases hgone : hold ∈ goneIds msgs
    · exact Or.inr (mem_append_right _ hgone)
    · exact (h.entries hold hin).imp (fun hmem => (hkn hold).mpr ⟨hmem, hgone⟩) (mem_append_left _)
  · intro hnone id out hget hin
    have hnoLost : lost = [] := Classical.not_not.mp fun hne => hlost hne hnone
    rw [replyIds_append, goneIds_append]
    rcases h.owed (herrors hnone) id out hget hin with hrun | hid | hgone
    · by_cases hid : id ∈ replyIds msgs
      · exact Or.inr (Or.inl (mem_append_right _ hid))
      · by_cases hgone : out.hold ∈ goneIds msgs
        · exact Or.inr (Or.inr (mem_append_right _ hgone))
        · refine Or.inl ?_
          rw [hreplay]
          refine View.mem_drop_running.2 ⟨hrun, ?_, hgone⟩
          rw [hnoLost, append_nil]
          exact hid
    · exact Or.inr (Or.inl (mem_append_left _ hid))
    · exact Or.inr (Or.inr (mem_append_left _ hgone))
  · intro cs hmem
    rcases mem_append.mp hmem with hmem | hmem
    · exact h.hellos cs hmem
    · exact absurd hmem (hhello cs)

end Wire

end PiBridge.Chord.Remote
