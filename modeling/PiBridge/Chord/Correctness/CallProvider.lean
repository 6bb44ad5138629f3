import PiBridge.Chord.Correctness.CallConsumer

/-!
# `Chord.Correctness.CallProvider` — what a provider side does to its tables, and what it tells

`Advances v p p'` says how `p` became `p'` when handling brought its tables to `v`: every call that left them was answered
or went with a hold whose end was told, but for those dropped with a protocol error. There is one lemma for each function;
the messages of a conforming consumer are handled without an id in use and without a call too many.
-/

namespace PiBridge.Chord.Remote

open Lib List Assoc Bool

variable {μ α β ε : Type}

/-- The errors a consumer that keeps to its ids and to the limit does not cause. -/
def ProtocolError.ofTables : ProtocolError → Bool
  | .holdInUse | .callInUse | .tooManyCalls => true
  | .noMethod | .malformed | .unboundObject => false

def ConsumerMessage.isHello : ConsumerMessage β ε → Bool
  | .hello _ => true
  | _ => false

namespace Provider

/-- The tables of a provider side. -/
def view (p : Provider μ β ε) : View := ⟨p.entries.map Prod.fst, p.calls.map fun call => (call.1, call.2.hold)⟩

/-- What was sent, and the calls dropped with an error. -/
structure Emits (v : View) (p p' : Provider μ β ε) (messages : List (ConsumerMessage β ε)) (lost : List Nat) : Prop where
  down : p'.down = p.down ++ messages
  view : p'.view = v.drop (replyIds messages ++ lost) (goneIds messages)
  ids : ∀ id ∈ replyIds messages ++ lost, id ∈ v.running.map Prod.fst
  holds : ∀ hold ∈ goneIds messages, hold ∈ v.known
  hello : ∀ calls, .hello calls ∉ messages
  lost : lost ≠ [] → p'.errors ≠ []
  errors : p'.errors = [] → p.errors = []
  tables : ∀ error ∈ p'.errors, error.ofTables = true → error ∈ p.errors
  limit : p'.limit = p.limit

def Advances (v : View) (p p' : Provider μ β ε) : Prop := ∃ messages lost, Emits v p p' messages lost

variable {v : View} {p p' p'' : Provider μ β ε} {hold : Nat} {e : Entry ε}

/-- Nothing is answered and nothing ends. -/
theorem Advances.quiet {msgs : List (ConsumerMessage β ε)} (hdown : p'.down = p.down ++ msgs) (hview : p'.view = v)
    (hreply : replyIds msgs = []) (hgone : goneIds msgs = []) (hhello : ∀ cs, .hello cs ∉ msgs)
    (herrors : p'.errors = p.errors) (hlim : p'.limit = p.limit) : Advances v p p' := by
  refine ⟨msgs, [], ⟨hdown, ?_, ?_, ?_, hhello, fun h => absurd rfl h, fun h => herrors ▸ h, fun _ h _ => herrors ▸ h, hlim⟩⟩
  · rw [hreply, hgone, append_nil, View.drop_nil, hview]
  · intro id hid
    simp [hreply] at hid
  · intro hold hin
    simp [hgone] at hin

theorem Advances.refl (p : Provider μ β ε) : Advances p.view p p := .quiet (append_nil _).symm rfl rfl rfl (fun _ => not_mem_nil) rfl rfl

theorem Advances.trans (h : Advances v p p') (h' : Advances p'.view p' p'') : Advances v p p'' := by
  obtain ⟨msgs, lost, h⟩ := h
  obtain ⟨msgs', lost', h'⟩ := h'
  have hrun : ∀ id ∈ p'.view.running.map Prod.fst, id ∈ v.running.map Prod.fst := by
    rw [h.view]
    exact fun id hid => (filter_sublist.map _).subset hid
  have hkn : ∀ hold ∈ p'.view.known, hold ∈ v.known := by
    rw [h.view]
    exact fun hold hin => (View.mem_drop_known.mp hin).1
  refine ⟨msgs ++ msgs', lost ++ lost', ⟨?_, ?_, ?_, ?_, ?_, ?_, fun hnil => h.errors (h'.errors hnil), ?_, h'.limit.trans h.limit⟩⟩
  · rw [h'.down, h.down, append_assoc]
  · rw [h'.view, h.view, View.drop_drop, goneIds_append, replyIds_append]
    refine View.drop_congr fun id => ?_
    simp only [mem_append]
    tauto
  · intro id hid
    rw [replyIds_append] at hid
    have hid : (id ∈ replyIds msgs ++ lost) ∨ id ∈ replyIds msgs' ++ lost' := by
      simp only [mem_append] at hid ⊢
      tauto
    exact hid.elim (h.ids id) fun hid => hrun id (h'.ids id hid)
  · intro hold hin
    rw [goneIds_append] at hin
    exact (mem_append.mp hin).elim (h.holds hold) fun hin => hkn hold (h'.holds hold hin)
  · intro cs hin
    exact (mem_append.mp hin).elim (h.hello cs) (h'.hello cs)
  · intro hne hnil
    by_cases hfst : lost = []
    · refine h'.lost (fun hsecond => hne ?_) hnil
      rw [hfst, hsecond, append_nil]
    · exact h.lost hfst (h'.errors hnil)
  · intro err hin hof
    exact h.tables err (h'.tables err hin hof) hof

/-! ## The tables -/

@[simp] theorem view_send (msg : ConsumerMessage β ε) : (p.send msg).view = p.view := rfl

theorem view_setHold (h : (Assoc.get? p.entries hold).isSome = true) : (p.setHold hold e).view = p.view := by
  have hmem : hold ∈ p.entries.map Prod.fst := by
    refine Classical.not_not.mp fun hnot => ?_
    rw [get?_eq_none_iff.mpr hnot] at h
    exact false_ne_true h
  unfold view setHold
  rw [keys_set, if_pos hmem]

theorem known_iff : hold ∈ p.view.known ↔ (Assoc.get? p.entries hold).isSome = true := by
  rw [Option.isSome_iff_ne_none, Ne, get?_eq_none_iff, Classical.not_not]
  rfl

variable (id : Nat) (oc : Except (CallError ε) (Option β))

theorem view_eraseCall : ({ p with calls := Assoc.erase p.calls id } : Provider μ β ε).view = p.view.drop [id] [] := by
  unfold view View.drop
  congr 1
  · exact (filter_eq_self.mpr (by simp)).symm
  · rw [erase_eq_filter, filter_map]
    congr 1
    exact filter_congr (by simp)

theorem view_forget (hold : Nat) : (p.forget hold).view = p.view.drop [] [hold] := by
  unfold view View.drop forget
  congr 1
  · rw [erase_eq_filter, filter_map]
    congr 1
    exact filter_congr (by simp)
  · rw [filter_map]
    congr 1
    exact filter_congr (by simp)

variable {msg : ConsumerMessage β ε}

theorem not_hello (h : msg.isHello = false) (cs : Nat) : .hello cs ∉ [msg] := by
  intro hin
  rw [← mem_singleton.mp hin] at h
  exact absurd h Bool.noConfusion

theorem Advances.send (hreply : replyIds [msg] = []) (hgone : goneIds [msg] = [])
    (hhello : msg.isHello = false) : Advances p.view p (p.send msg) :=
  .quiet rfl rfl hreply hgone (not_hello hhello) rfl rfl

theorem Advances.setHold (h : (Assoc.get? p.entries hold).isSome = true) (e : Entry ε) : Advances p.view p (p.setHold hold e) :=
  .quiet (append_nil _).symm (view_setHold h) rfl rfl (fun _ => not_mem_nil) rfl rfl

theorem Advances.fail {err : ProtocolError} (hof : err.ofTables = false) (p : Provider μ β ε) : Advances p.view p (p.fail err) := by
  refine ⟨[], [], ⟨(append_nil _).symm, View.drop_nil.symm, ?_, ?_, fun _ => not_mem_nil, fun h => absurd rfl h, ?_, ?_, rfl⟩⟩
  · exact nofun
  · exact nofun
  · intro h
    exact absurd h (by simp [Provider.fail])
  · intro oth hin hoth
    rcases mem_snoc.mp hin with hin | rfl
    · exact hin
    · rw [hof] at hoth
      exact absurd hoth false_ne_true

theorem replyIds_replyOf : replyIds [replyOf id oc] = [id] := by
  cases oc <;> rfl

theorem goneIds_replyOf : goneIds [replyOf id oc] = [] := by
  cases oc <;> rfl

theorem Advances.reply (p : Provider μ β ε) (id : Nat) (oc : Except (CallError ε) (Option β)) : Advances p.view p (p.reply id oc) := by
  unfold Provider.reply
  split
  · rename_i hsome
    refine ⟨[replyOf id oc], [], ⟨rfl, ?_, ?_, ?_, ?_, fun h => absurd rfl h, fun h => h, fun _ h _ => h, rfl⟩⟩
    · rw [replyIds_replyOf, goneIds_replyOf, append_nil, view_send, view_eraseCall]
    · intro oth hoth
      rw [replyIds_replyOf] at hoth
      obtain rfl : oth = id := by simpa using hoth
      obtain ⟨c, hget⟩ := Option.isSome_iff_exists.mp hsome
      exact mem_map.mpr ⟨(oth, c.hold), mem_map.mpr ⟨_, mem_of_get? hget, rfl⟩, rfl⟩
    · intro hold hin
      simp [goneIds_replyOf] at hin
    · intro cs hin
      have heq := mem_singleton.mp hin
      cases oc <;> cases heq
  · exact .refl p

theorem Advances.unbound (p : Provider μ β ε) (hold : Nat) (err : CallError ε) : Advances p.view p (p.unbound hold err) := by
  unfold Provider.unbound
  generalize p.calls.filter (·.2.hold = hold) = cs
  induction cs generalizing p with
  | nil => exact .refl p
  | cons c cs ih => exact (Advances.reply p c.1 _).trans (ih _)

theorem entries_reply : (p.reply id oc).entries = p.entries := by
  unfold Provider.reply
  split <;> rfl

theorem entries_unbound (p : Provider μ β ε) (hold : Nat) (err : CallError ε) : (p.unbound hold err).entries = p.entries := by
  unfold Provider.unbound
  generalize p.calls.filter (·.2.hold = hold) = cs
  induction cs generalizing p with
  | nil => rfl
  | cons c cs ih => exact (ih _).trans (entries_reply _ _)

/-- A hold ends, and the consumer is told. -/
theorem Advances.gone (h : (Assoc.get? p.entries hold).isSome = true) (err : ε) : Advances p.view p ((p.forget hold).send (.gone hold err)) := by
  refine ⟨[.gone hold err], [], ⟨rfl, ?_, ?_, ?_, ?_, fun h => absurd rfl h, fun h => h, fun _ h _ => h, rfl⟩⟩
  · have hreply : replyIds [(.gone hold err : ConsumerMessage β ε)] = [] := rfl
    have hgone : goneIds [(.gone hold err : ConsumerMessage β ε)] = [hold] := rfl
    rw [hreply, hgone, append_nil, view_send, view_forget]
  · exact nofun
  · intro oth hin
    obtain rfl : oth = hold := by simpa [goneIds] using hin
    exact known_iff.2 h
  · intro cs hin
    cases mem_singleton.mp hin

/-! ## A hold served here -/

section

variable (hv : ∀ e, (p.setHold hold e).view = v)

include hv

/-- A hold is set, and a message sent that answers nothing. -/
theorem Advances.setHoldSend (e : Entry ε)
    (hreply : replyIds [msg] = []) (hgone : goneIds [msg] = []) (hhello : msg.isHello = false) :
    Advances v p ((p.setHold hold e).send msg) :=
  .quiet rfl (hv e) hreply hgone (not_hello hhello) rfl rfl

theorem Advances.setHoldOnly (e : Entry ε) : Advances v p (p.setHold hold e) :=
  .quiet (append_nil _).symm (hv e) rfl rfl (fun _ => not_mem_nil) rfl rfl

theorem Advances.pending (toldFailed : Bool) (prev : Option Nat) (obj : ObjectState ε) :
    Advances v p (p.pending hold toldFailed prev obj) := by
  unfold Provider.pending
  split
  · exact .setHoldOnly hv _
  · exact .setHoldSend hv _ rfl rfl rfl
  · split
    · exact .setHoldSend hv _ rfl rfl rfl
    · exact .setHoldOnly hv _

theorem Advances.refuse (err : ε) : Advances v p (p.refuse hold err) :=
  .setHoldSend hv _ rfl rfl rfl

theorem Advances.start (plm : Placement ε) : Advances v p (p.start hold plm) := by
  cases plm with
  | unplaced | relayed us => exact .setHoldOnly hv _
  | malformed => exact (Advances.setHoldOnly hv _).trans (.fail rfl _)
  | refused err => exact .refuse hv err
  | served obj => exact .pending hv _ _ obj

end

variable (h : (Assoc.get? p.entries hold).isSome = true)

include h

theorem Advances.unbind (st : HoldState) (obj : ObjectState ε) : Advances p.view p (p.unbind hold st obj) := by
  unfold Provider.unbind
  split
  · refine (Advances.unbound p hold _).trans (.pending (fun _ => view_setHold ?_) _ _ _)
    rw [entries_unbound]
    exact h
  · exact (Advances.send rfl rfl rfl).trans (.pending (fun _ => view_setHold (p := p.send (.loading hold)) h) _ _ _)

omit h

theorem isSome_of_get? (hget : Assoc.get? p.entries hold = some e) : (Assoc.get? p.entries hold).isSome = true := by
  rw [hget]
  rfl

theorem Advances.moved (p : Provider μ β ε) (hold : Nat) (obj : ObjectState ε) : Advances p.view p (p.moved hold obj) := by
  unfold Provider.moved
  split
  · rename_i hget
    exact .pending (fun _ => view_setHold (isSome_of_get? hget)) _ _ _
  · rename_i hget
    have hin := isSome_of_get? hget
    split
    · exact .setHold hin _
    · exact .setHold hin _
    · exact .unbind hin _ _
  · rename_i hget
    have hin := isSome_of_get? hget
    split
    · split
      · exact .setHold hin _
      · exact .setHold hin _
    · split
      · exact .setHold hin _
      · exact .unbind hin _ _
    · split
      · exact .setHold hin _
      · exact .unbind hin _ _
  · exact .refl p

/-- A refused hold is started again. -/
theorem Advances.restart (hget : Assoc.get? p.entries hold = some e) (plm : Placement ε) :
    Advances p.view p ((p.send (.loading hold)).start hold plm) :=
  (Advances.send rfl rfl rfl).trans
    (.start (fun _ => view_setHold (p := p.send (.loading hold)) (isSome_of_get? hget)) plm)

section

variable (p)

theorem Advances.wake (hold : Nat) (plm : Placement ε) : Advances p.view p (p.wake hold plm) := by
  unfold Provider.wake
  split
  · rename_i hget
    exact .start (fun _ => view_setHold (isSome_of_get? hget)) plm
  · rename_i hget
    exact .restart hget plm
  · exact .refl p

theorem Advances.retry (hold : Nat) (plm : Placement ε) : Advances p.view p (p.retry hold plm) := by
  unfold Provider.retry
  split
  · rename_i hget
    exact .restart hget plm
  · exact .refl p

theorem Advances.removed (hold : Nat) (err : ε) : Advances p.view p (p.removed hold err) := by
  unfold Provider.removed
  split
  · rename_i hget
    refine (Advances.unbound p hold _).trans (.refuse (fun _ => view_setHold ?_) err)
    rw [entries_unbound]
    exact isSome_of_get? hget
  · exact .refl p

theorem Advances.endHold (hold : Nat) (err : ε) : Advances p.view p (p.endHold hold err) := by
  unfold Provider.endHold
  split
  · rename_i hin
    exact .gone hin err
  · exact .refl p

theorem Advances.boundEntries (holds : List Nat) : Advances p.view p (p.boundEntries holds).1 := by
  induction holds generalizing p with
  | nil => exact .refl p
  | cons hold rest ih =>
    unfold Provider.boundEntries
    split
    · rename_i vr instance' hget
      have hset := Advances.setHold (isSome_of_get? hget) (.served (.bound vr instance') (some (.live vr instance')))
      have hrest := hset.trans (ih _)
      generalize (p.setHold hold (.served (.bound vr instance') (some (.live vr instance')))).boundEntries rest = bound at hrest
      obtain ⟨p', entries⟩ := bound
      cases entries <;> exact hrest
    · exact .refl p
    · exact ih p

end

theorem Advances.sendEntries {κ : Type} {msg : List κ → ConsumerMessage β ε} (hreply : ∀ entries, replyIds [msg entries] = [])
    (hgone : ∀ entries, goneIds [msg entries] = []) (hhello : ∀ entries, (msg entries).isHello = false) (p : Provider μ β ε)
    (entries : List κ) : Advances p.view p (p.sendEntries msg entries) := by
  unfold Provider.sendEntries
  split
  · exact .refl p
  · exact .send (hreply _) (hgone _) (hhello _)

theorem Advances.sendBound (p : Provider μ β ε) (holds : List Nat) : Advances p.view p (p.sendBound holds) := by
  have hents := Advances.boundEntries p holds
  unfold Provider.sendBound
  generalize p.boundEntries holds = bound at hents
  obtain ⟨p', entries⟩ := bound
  cases entries with
  | none => exact hents.trans (.fail rfl p')
  | some entries => exact hents.trans (.sendEntries (fun _ => rfl) (fun _ => rfl) (fun _ => rfl) p' entries)

theorem Advances.sendState (p : Provider μ β ε) (holds : List Nat) : Advances p.view p (p.sendState holds) :=
  .sendEntries (fun _ => rfl) (fun _ => rfl) (fun _ => rfl) p _

/-! ## A relayed hold -/

section

variable (p)

theorem Advances.attach (hold us : Nat) : Advances p.view p (p.attach hold us) := by
  unfold Provider.attach
  split
  · rename_i hget
    exact .setHold (isSome_of_get? hget) _
  · exact .refl p

theorem Advances.dropped (hold : Nat) (err : CallError ε) : Advances p.view p (p.dropped hold err) := by
  unfold Provider.dropped
  split
  · rename_i hget
    exact ((Advances.setHold (isSome_of_get? hget) _).trans (.unbound _ hold err)).trans (.send rfl rfl rfl)
  · exact .refl p

theorem Advances.unreachable (hold : Nat) (err : ε) : Advances p.view p (p.unreachable hold err) := by
  unfold Provider.unreachable
  split
  · exact .send rfl rfl rfl
  · exact .refl p

end

theorem isSome_of_relayedOver {us : Nat} (h : p.relayedOver us hold = true) : (Assoc.get? p.entries hold).isSome = true := by
  unfold relayedOver at h
  split at h
  · rename_i hget
    exact isSome_of_get? hget
  · exact absurd h false_ne_true

theorem Advances.forwardReply (p : Provider μ β ε) (us id : Nat) (oc : Except (CallError ε) (Option β)) :
    Advances p.view p (p.forwardReply us id oc) := by
  unfold Provider.forwardReply
  split
  · split
    · exact .reply p id oc
    · exact .refl p
  · exact .refl p

/-- What is done for a hold relayed over the link. -/
theorem Advances.ifRelayed {us : Nat} (h : p.relayedOver us hold = true → Advances p.view p p') :
    Advances p.view p (if p.relayedOver us hold then p' else p) := by
  split
  · rename_i hin
    exact h hin
  · exact .refl p

theorem Advances.forward (p : Provider μ β ε) (upstream : Nat) (msg : ConsumerMessage β ε) : Advances p.view p (p.forward upstream msg) := by
  cases msg with
  | hello cs => exact .refl p
  | bound holds | state holds => exact .sendEntries (fun _ => rfl) (fun _ => rfl) (fun _ => rfl) p _
  | result id val | error id error => exact .forwardReply p upstream id _
  | gone hold error => exact .ifRelayed fun hin => .gone (isSome_of_relayedOver hin) error
  | failed hold error | loading hold => exact .ifRelayed fun _ => .send rfl rfl rfl

end Provider

/-! ## What the consumer sent -/

/-- The messages on their way up use each id once, and no call of them is one too many. -/
structure Orderly (v : View) (up : List (ProviderMessage α)) (limit : Nat) : Prop where
  ids : (v.running.map Prod.fst ++ callIds up).Nodup
  holds : (v.known ++ holdIds up).Nodup
  bounded : v.Bounded limit up

theorem Wire.orderly {c : Consumer μ α β ε} {v : View} {up : List (ProviderMessage α)} {down : List (ConsumerMessage β ε)}
    {errors : List ProtocolError} {limit : Nat} (h : Wire c v up down errors limit) : Orderly v up limit :=
  { h with }

namespace Orderly

variable {v : View} {up : List (ProviderMessage α)} {msg : ProviderMessage α} {limit : Nat}

theorem pop (h : Orderly v (msg :: up) limit) : Orderly (v.step msg) up limit where
  ids := by
    refine h.ids.sublist ?_
    rw [show callIds (msg :: up) = callIds [msg] ++ callIds up from callIds_append [msg] up, ← append_assoc]
    exact View.ids_step.append_right _
  holds := by
    refine h.holds.sublist ?_
    rw [show holdIds (msg :: up) = holdIds [msg] ++ holdIds up from holdIds_append [msg] up, ← append_assoc]
    exact View.holds_step.append_right _
  bounded := h.bounded.2

theorem advance {p p' : Provider μ β ε} (h : Orderly v up limit) (hadvances : p.Advances v p') : Orderly p'.view up limit := by
  obtain ⟨msgs, lost, hemits⟩ := hadvances
  rw [hemits.view]
  refine ⟨h.ids.sublist ((filter_sublist.map _).append_right _), h.holds.sublist (filter_sublist.append_right _), h.bounded.drop ?_ ?_⟩
  · exact fun id hup hid => (nodup_append.mp h.ids).2.2 id (hemits.ids id hid) id hup rfl
  · exact fun hold hup hgone => (nodup_append.mp h.holds).2.2 hold (hemits.holds hold hgone) hold hup rfl

end Orderly

namespace Provider

variable {v : View} {p p' : Provider μ β ε} {hold : Nat} {e : Entry ε} {up : List (ProviderMessage α)} {limit : Nat}

/-- A call of a hold that is known, taken in. -/
theorem step_known (hkn : hold ∈ v.known) (id meth : Nat) (args : α) :
    v.step (.call id hold meth args) = { v with running := v.running ++ [(id, hold)] } := by rw [View.step_call, if_pos hkn]

variable {id : Nat}

theorem drop_new (hkn : hold ∈ v.known) (hnew : id ∉ v.running.map Prod.fst) (meth : Nat) (args : α) :
    (v.step (.call id hold meth args)).drop [id] [] = v := by
  rw [step_known hkn]
  have hkept : v.running.filter (fun c => decide (c.1 ∉ [id] ∧ c.2 ∉ ([] : List Nat))) = v.running := by
    rw [filter_eq_self]
    intro c hcall
    have hne : c.1 ≠ id := fun heq => hnew (mem_map.mpr ⟨c, hcall, heq⟩)
    simpa using hne
  unfold View.drop
  rw [filter_append, hkept]
  simp

theorem Advances.lose {err : ProtocolError} (hof : err.ofTables = false) (hkn : hold ∈ p.view.known)
    (hnew : id ∉ p.view.running.map Prod.fst) (meth : Nat) (args : α) :
    Advances (p.view.step (.call id hold meth args)) p (p.fail err) := by
  refine ⟨[], [id], ⟨(append_nil _).symm, (drop_new hkn hnew meth args).symm, ?_, ?_, fun _ => not_mem_nil,
    fun _ => by simp [Provider.fail], ?_, ?_, rfl⟩⟩
  · intro oth hoth
    obtain rfl : oth = id := by simpa [replyIds] using hoth
    rw [step_known hkn]
    simp
  · exact forall_mem_nil _
  · exact fun h => absurd h (by simp [Provider.fail])
  · intro oth hin hoth
    rcases mem_snoc.mp hin with hin | rfl
    · exact hin
    · rw [hof] at hoth
      exact absurd hoth false_ne_true

section

variable (hkn : hold ∈ p.view.known) (hnew : id ∉ p.view.running.map Prod.fst)

include hkn hnew

/-- A call answered before it took a slot. -/
theorem Advances.refuseCall (meth : Nat) (args : α)
    (err : CallError ε) : Advances (p.view.step (.call id hold meth args)) p (p.refuseCall id err) := by
  refine ⟨[.error id err], [], ⟨rfl, (drop_new hkn hnew meth args).symm, ?_, ?_, not_hello rfl, fun h => absurd rfl h, fun h => h,
    fun _ h _ => h, rfl⟩⟩
  · intro oth hoth
    obtain rfl : oth = id := by simpa [replyIds] using hoth
    rw [step_known hkn]
    simp
  · exact forall_mem_nil _

theorem view_run (meth : Option μ) (idx : Nat) (args : α) :
    (p.run id hold meth).view = p.view.step (.call id hold idx args) := by
  have hkeys : id ∉ p.calls.map Prod.fst := by
    intro hin
    obtain ⟨c, hcall, rfl⟩ := mem_map.mp hin
    exact hnew (mem_map.mpr ⟨(c.1, c.2.hold), mem_map.mpr ⟨c, hcall, rfl⟩, rfl⟩)
  rw [step_known hkn]
  unfold view run
  rw [set_eq_append _ hkeys, map_append]
  rfl

theorem Advances.run (meth : Option μ) (idx : Nat) (args : α) :
    Advances (p.view.step (.call id hold idx args)) p (p.run id hold meth) :=
  .quiet (append_nil _).symm (view_run hkn hnew meth idx args) rfl rfl (fun _ => not_mem_nil) rfl rfl

end

theorem Advances.call {methods : Nat → Nat → List μ} {id idx : Nat} {args : α} (h : Orderly p.view (.call id hold idx args :: up) p.limit)
    (opening : Opening ε) : Advances (p.view.step (.call id hold idx args)) p (p.call methods id hold idx opening) := by
  have hnew : id ∉ p.view.running.map Prod.fst := fun hin =>
    (nodup_append.mp h.ids).2.2 id hin id (by simp [callIds]) rfl
  unfold Provider.call
  split
  · -- The id is new.
    rename_i hused
    obtain ⟨c, hget⟩ := Option.isSome_iff_exists.mp hused
    exact absurd (mem_map.mpr ⟨(id, c.hold), mem_map.mpr ⟨_, mem_of_get? hget, rfl⟩, rfl⟩) hnew
  · split
    · rename_i hnone
      have hunkn : hold ∉ p.view.known := by
        rw [known_iff, hnone]
        exact false_ne_true
      rw [View.step_call, if_neg hunkn]
      exact .refl p
    · rename_i e hget
      have hkn : hold ∈ p.view.known := known_iff.2 (isSome_of_get? hget)
      split
      · -- There is room.
        rename_i hfull
        have hroom : p.view.running.length < p.limit := h.bounded.1 hkn
        rw [view, length_map] at hroom
        exact absurd hroom (Nat.not_lt.mpr hfull)
      · split
        · split
          · exact .refuseCall hkn hnew idx args _
          · split
            · exact .run hkn hnew none idx args
            · refine (Advances.run hkn hnew none idx args).trans ?_
              exact .reply _ _ _
        · split
          · exact .refuseCall hkn hnew idx args _
          · split
            · exact .lose rfl hkn hnew idx args
            · split
              · exact .run hkn hnew _ idx args
              · exact .refuseCall hkn hnew idx args _
              · exact .lose rfl hkn hnew idx args

/-- **The provider handles a message** of a consumer that keeps to its ids and to the limit. -/
theorem Advances.message {methods : Nat → Nat → List μ} {msg : ProviderMessage α} (h : Orderly p.view (msg :: up) p.limit)
    (plm : Placement ε) (opening : Opening ε) : Advances (p.view.step msg) p (p.message methods plm opening msg) := by
  cases msg with
  | hold hold =>
    have hnew : hold ∉ p.view.known := fun hin => (nodup_append.mp h.holds).2.2 hold hin hold (by simp [holdIds]) rfl
    show Advances _ p (p.hold hold plm)
    unfold Provider.hold
    rw [if_neg (fun hin => hnew (known_iff.2 hin))]
    refine .start (fun e => ?_) plm
    unfold Provider.view Provider.setHold
    have hkeys : hold ∉ p.entries.map Prod.fst := hnew
    rw [keys_set, if_neg hkeys]
    rfl
  | release hold =>
    refine .quiet (append_nil _).symm ?_ rfl rfl (fun _ => not_mem_nil) rfl rfl
    rw [Provider.message, view_forget]
    simp [View.drop, View.step]
  | call id hold idx args => exact .call h opening
  | abort id =>
    refine .quiet (append_nil _).symm ?_ rfl rfl (fun _ => not_mem_nil) rfl rfl
    rw [Provider.message, view_eraseCall]
    simp [View.drop, View.step]
  | retry hold => exact .retry p hold plm
  | ack => exact .refl p

end Provider

end PiBridge.Chord.Remote
