import PiBridge.Chord.Correctness.CallProvider
import PiBridge.Chord.Remote.CallLink

/-!
# `Chord.Correctness.CallsSettle` — every call over a link settles once, and no window overflows

`Linked` is what every step of a link keeps: both ends settled between two handlers, or closed. It gives `Kept` of every
run: each call submitted is in one place or settled, once; the slots taken are the calls in flight, which the provider has
room for; calls go out in the order they were made; and a call in flight that does not run is answered, or its hold's end is
told, by a message on its way.

That no call goes out by an index of an older binding holds of the runs that bind a hold afresh only while none of its
calls waits, or to the variant it has (`KeepsWaiting`). A `loading` takes the waiting calls out first; a swap in place
binds afresh without one (`calls_outdated`).
-/

namespace PiBridge.Chord.Remote

open Lib List

variable {μ α β ε : Type}

namespace CallLink

/-- The holds an event binds at the consumer, with their variants. -/
def bindings (s : CallLink μ α β ε) : LinkEvent μ α β ε → List (Nat × Nat)
  | .receive opening =>
    match s.consumerOpen, s.provider.down with
    | true, .bound holds :: _ => Consumer.fitting Prod.fst holds opening
    | _, _ => []
  | _ => []

/-- No hold is bound to another variant while a call of it waits. -/
def KeepsWaiting (s : CallLink μ α β ε) (event : LinkEvent μ α β ε) : Prop :=
  ∀ entry ∈ s.bindings event, ∀ call ∈ s.consumer.waiting, call.hold = entry.1 → s.consumer.boundTo call.hold = some entry.2

instance (s : CallLink μ α β ε) (event : LinkEvent μ α β ε) : Decidable (s.KeepsWaiting event) :=
  inferInstanceAs (Decidable (∀ entry ∈ s.bindings event, ∀ call ∈ s.consumer.waiting, call.hold = entry.1 →
    s.consumer.boundTo call.hold = some entry.2))

/-- What every step keeps; `C` as in `Consumer.Sides`. -/
structure Linked (C : Prop) (methods : Nat → Nat → List μ) (limit : Nat) (s : CallLink μ α β ε) : Prop where
  consumer : s.consumerOpen = true → ∃ v, s.consumer.Settled C methods v s.provider.down s.provider.errors limit ∧
    (s.providerOpen = true → v = s.provider.view)
  closed : s.consumerOpen = false → s.consumer.Ended ∧ (C → ∀ place method bound, .sent place method bound ∈ s.consumer.log →
    ∃ made, s.consumer.submitted[place]? = some made ∧ made.Fits methods method bound)
  provider : s.providerOpen = true → Orderly s.provider.view s.consumer.up limit
  limit : s.provider.limit = limit
  errors : ∀ error ∈ s.provider.errors, error.ofTables = false

variable {C : Prop} {methods : Nat → Nat → List μ} {limit : Nat} {s : CallLink μ α β ε}

theorem linked_new (limit : Nat) : (new limit : CallLink μ α β ε).Linked C methods limit where
  consumer _ := ⟨_, Consumer.settled_new limit, fun _ => rfl⟩
  closed h := by cases h
  provider _ := by
    have hsett : (Consumer.new : Consumer μ α β ε).Settled C methods ⟨[], []⟩ [.hello limit] [] limit := Consumer.settled_new limit
    exact hsett.sides.wire.orderly
  limit := rfl
  errors := nofun

namespace Linked

section

variable (h : s.Linked C methods limit)

include h

section

variable (hopen : s.consumerOpen = true)

include hopen

/-- The consumer's host did something. -/
theorem consumerStep {c : Consumer μ α β ε}
    (hstep : ∀ v, s.consumer.Settled C methods v s.provider.down s.provider.errors limit →
      c.Settled C methods v s.provider.down s.provider.errors limit) : Linked C methods limit { s with consumer := c } := by
  obtain ⟨v, hsett, hview⟩ := h.consumer hopen
  refine ⟨fun _ => ⟨v, hstep v hsett, hview⟩, fun hclo => ?_, fun hprov => ?_, h.limit, h.errors⟩
  · exact nomatch hopen.symm.trans hclo
  · exact hview hprov ▸ (hstep v hsett).sides.wire.orderly

/-- The consumer handled the oldest message. -/
theorem receive (opening : Opening ε) (hkeep : C → s.KeepsWaiting (.receive opening)) :
    (s.receive opening).Linked C methods limit := by
  obtain ⟨v, hsett, hview⟩ := h.consumer hopen
  unfold CallLink.receive
  split
  · exact h
  · rename_i msg down hdown
    rw [hdown] at hsett
    have hhandled := hsett.handles opening fun hc holds heq c hcall vr hmem => by
      refine hkeep hc (c.hold, vr) ?_ c hcall rfl
      rw [bindings, hopen, hdown, heq]
      exact hmem
    refine ⟨fun _ => ⟨v, hhandled, hview⟩, fun hclo => ?_, fun hprov => ?_, h.limit, h.errors⟩
    · exact nomatch hopen.symm.trans hclo
    · exact hview hprov ▸ hhandled.sides.wire.orderly

theorem closeConsumer :
    Linked C methods limit { s with consumer := s.consumer.closed, consumerOpen := false } := by
  obtain ⟨v, hsett, -⟩ := h.consumer hopen
  have hup : s.consumer.closed.up = s.consumer.up := Consumer.reject_rule (I := fun t => t.up = s.consumer.up) (fun _ _ _ h => h) _ _ rfl
  refine ⟨(fun hopen => by cases hopen), fun _ => ⟨hsett.closed, fun hc pl meth bound hmem => ?_⟩, fun hprov => ?_, h.limit, h.errors⟩
  · obtain ⟨made, hmade, hfits⟩ := hsett.closed_sent hc hmem
    refine ⟨made, ?_, hfits⟩
    show s.consumer.closed.submitted[pl]? = some made
    rw [show s.consumer.closed.submitted = s.consumer.submitted from (Consumer.reject_submitted _ _).1]
    exact hmade
  · show Orderly s.provider.view s.consumer.closed.up limit
    rw [hup]
    exact h.provider hprov

end

section

variable (hopen : s.providerOpen = true)

include hopen

/-- The provider's host did something: `up` is what is left of the messages on their way. -/
theorem providerStep {p : Provider μ β ε} {v : View} {up : List (ProviderMessage α)}
    (hadvances : s.provider.Advances v p) (horderly : Orderly v up limit)
    (hpop : ∀ c : Consumer μ α β ε, Wire c s.provider.view s.consumer.up s.provider.down s.provider.errors limit →
      Wire c v up s.provider.down s.provider.errors limit) :
    Linked C methods limit { s with provider := p, consumer := { s.consumer with up } } := by
  have hnext := horderly.advance hadvances
  obtain ⟨msgs, lost, hemits⟩ := hadvances
  refine ⟨fun hcons => ?_, fun hclo => ?_, fun _ => hnext, hemits.limit.trans h.limit, fun err hin => ?_⟩
  · obtain ⟨w, hsett, hview⟩ := h.consumer hcons
    obtain rfl := hview hopen
    refine ⟨p.view, ⟨?_, hsett.full⟩, fun _ => rfl⟩
    have hwire := (hpop _ hsett.sides.wire).advance hemits.ids hemits.holds hemits.hello hemits.lost hemits.errors
    rw [← hemits.view, ← hemits.down] at hwire
    exact {
      books := hsett.sides.books.congr rfl rfl rfl rfl rfl rfl rfl
      live := hsett.sides.live
      held := hsett.sides.held
      wire := hwire.congr rfl (fun _ => Iff.rfl) rfl rfl hwire.window
      current := fun hc => ⟨(hsett.sides.current hc).waiting, (hsett.sides.current hc).sent⟩ }
  · obtain ⟨hend, hsent⟩ := h.closed hclo
    exact ⟨{ hend with }, hsent⟩
  · cases hof : err.ofTables with
    | false => rfl
    | true => exact nomatch (h.errors err (hemits.tables err hin hof)).symm.trans hof

theorem providerDoes {p : Provider μ β ε}
    (hadvances : s.provider.Advances s.provider.view p) : Linked C methods limit { s with provider := p } :=
  h.providerStep hopen hadvances (h.provider hopen) fun _ hwire => hwire

theorem handle (plm : Placement ε) (opening : Opening ε) :
    (s.handle methods plm opening).Linked C methods limit := by
  unfold CallLink.handle
  split
  · exact h
  · rename_i msg up hup
    have horderly := h.provider hopen
    rw [hup] at horderly
    refine h.providerStep hopen (Provider.Advances.message (h.limit.symm ▸ horderly) plm opening) horderly.pop fun c hwire => ?_
    rw [hup] at hwire
    exact hwire.pop

end

theorem closeProvider : Linked C methods limit { s with provider := s.provider.closed, providerOpen := false } := by
  refine ⟨fun hcons => ?_, h.closed, (fun hopen => by cases hopen), h.limit, h.errors⟩
  obtain ⟨v, hsett, -⟩ := h.consumer hcons
  exact ⟨v, hsett, (fun hopen => by cases hopen)⟩

end

/-- **Every step keeps it.** -/
theorem step [DecidableEq μ] (h : s.Linked C methods limit) (event : LinkEvent μ α β ε) (hkeep : C → s.KeepsWaiting event) :
    (s.step methods event).Linked C methods limit := by
  have hcons : (if s.consumerOpen then s.consumerStep methods event else s).Linked C methods limit := by
    split
    · rename_i hopen
      cases event with
      | attach bound => exact h.consumerStep hopen fun _ hs => hs.attach bound
      | call hold name args => exact h.consumerStep hopen fun _ hs => hs.called hold name args
      | cancel pl rsn => exact h.consumerStep hopen fun _ hs => hs.cancel pl rsn
      | release hold err => exact h.consumerStep hopen fun _ hs => hs.release hold err
      | retry hold => exact h.consumerStep hopen fun _ hs => hs.retry hold
      | receive opening => exact h.receive hopen opening hkeep
      | closeConsumer => exact h.closeConsumer hopen
      | _ => exact h
    · exact h
  unfold CallLink.step
  generalize (if s.consumerOpen then s.consumerStep methods event else s) = t at hcons
  dsimp only
  split
  · rename_i hopen
    cases event with
    | wake hold plm => exact hcons.providerDoes hopen (.wake _ _ _)
    | moved hold object => exact hcons.providerDoes hopen (.moved _ _ _)
    | removed hold err => exact hcons.providerDoes hopen (.removed _ _ _)
    | endHold hold err => exact hcons.providerDoes hopen (.endHold _ _ _)
    | sendBound holds => exact hcons.providerDoes hopen (.sendBound _ _)
    | sendState holds => exact hcons.providerDoes hopen (.sendState _ _)
    | answer call oc => exact hcons.providerDoes hopen (.reply _ _ _)
    | attachUpstream hold up => exact hcons.providerDoes hopen (.attach _ _ _)
    | dropped hold err => exact hcons.providerDoes hopen (.dropped _ _ _)
    | unreachable hold err => exact hcons.providerDoes hopen (.unreachable _ _ _)
    | forward up message => exact hcons.providerDoes hopen (.forward _ _ _)
    | handle plm opening => exact hcons.handle hopen plm opening
    | closeProvider => exact hcons.closeProvider
    | _ => exact hcons
  · exact hcons

end Linked

/-- What holds of a link at any moment of any run. -/
structure Kept (limit : Nat) (s : CallLink μ α β ε) : Prop where
  /-- A call that was submitted waits, is in flight or settled: one of these, once. -/
  located : (settledPlaces s.consumer.log ++ (s.consumer.waiting ++ s.consumer.calls.map Prod.snd).map (·.place)).Perm
    (List.range s.consumer.submitted.length)
  /-- When the link closed, every call settled. -/
  closed : s.consumerOpen = false → s.consumer.calls = [] ∧ s.consumer.waiting = []
  /-- Calls go out in the order they were made. -/
  ordered : (sentPlaces s.consumer.log).Pairwise (· < ·)
  /-- The slots taken are the calls in flight, at most as many as the peer said. -/
  slots : s.consumerOpen = true → s.consumer.inFlight = s.consumer.calls.length ∧ s.consumer.calls.length ≤ s.consumer.limit ∧
    s.consumer.limit ≤ limit
  /-- A call waits only while every slot is taken. -/
  full : s.consumerOpen = true → s.consumer.waiting ≠ [] → s.consumer.limit ≤ s.consumer.calls.length
  /-- The provider saw no call too many and no id in use. -/
  errors : ∀ error ∈ s.provider.errors, error.ofTables = false
  /-- A call in flight runs, or will once what is on its way up is handled, or it is answered, or its hold's end is told. -/
  owed : s.consumerOpen = true → s.providerOpen = true → s.provider.errors = [] → ∀ call ∈ s.consumer.calls,
    (call.1, call.2.hold) ∈ (s.provider.view.replay s.consumer.up).running ∨ call.1 ∈ replyIds s.provider.down ∨
      call.2.hold ∈ goneIds s.provider.down

theorem Linked.kept (h : s.Linked C methods limit) : s.Kept limit := by
  cases hopen : s.consumerOpen with
  | true =>
    obtain ⟨v, hsett, hview⟩ := h.consumer hopen
    have hbooks := hsett.sides.books
    have hcnt := hbooks.count
    have hwithin := hbooks.within
    refine ⟨?_, ?_, (pairwise_append.mp hbooks.ordered).1, fun _ => ⟨hcnt, ?_, hsett.sides.wire.window⟩, ?_, h.errors, ?_⟩
    · have hlocated := hbooks.located
      rwa [append_nil] at hlocated
    · intro hclo
      exact nomatch hopen.symm.trans hclo
    · omega
    · intro _ hne
      have hfull := hsett.full hne
      omega
    · intro _ hprov hnone c hcall
      obtain rfl := hview hprov
      have hget := Assoc.get?_of_mem hbooks.keys hcall
      exact hsett.sides.wire.owed hnone c.1 c.2 hget (hsett.held hget)
  | false =>
    obtain ⟨hend, -⟩ := h.closed hopen
    refine ⟨?_, fun _ => ⟨hend.calls, hend.waiting⟩, hend.ordered, ?_, ?_, h.errors, ?_⟩
    · rw [hend.calls, hend.waiting]
      simpa using hend.settled
    · intro h
      exact nomatch hopen.symm.trans h
    · intro h
      exact nomatch hopen.symm.trans h
    · intro h
      exact nomatch hopen.symm.trans h

/-- **Nothing is forgotten.** Once nothing is on its way and no handler runs, every call settled. -/
theorem Kept.quiet (h : s.Kept limit) (hcons : s.consumerOpen = true) (hprov : s.providerOpen = true) (herrors : s.provider.errors = [])
    (hgreeted : 0 < s.consumer.limit) (hup : s.consumer.up = []) (hdown : s.provider.down = []) (hrun : s.provider.calls = []) :
    (settledPlaces s.consumer.log).Perm (List.range s.consumer.submitted.length) := by
  have hcalls : s.consumer.calls = [] := by
    refine eq_nil_iff_forall_not_mem.mpr fun c hcall => ?_
    have howed := h.owed hcons hprov herrors c hcall
    simp [hup, hdown, Provider.view, hrun, replyIds, goneIds] at howed
  have hwait : s.consumer.waiting = [] := by
    refine Classical.not_not.mp fun hne => ?_
    have hfull := h.full hcons hne
    rw [hcalls] at hfull
    exact Nat.lt_irrefl _ (Nat.lt_of_lt_of_le hgreeted hfull)
  have hlocated := h.located
  rw [hcalls, hwait] at hlocated
  simpa using hlocated

/-- Every call that was sent named its method in the variant its hold was bound to. -/
def BoundCalls (methods : Nat → Nat → List μ) (s : CallLink μ α β ε) : Prop :=
  ∀ place method bound, .sent place method bound ∈ s.consumer.log →
    ∃ made, s.consumer.submitted[place]? = some made ∧ made.Fits methods method bound

theorem Linked.boundCalls (h : s.Linked True methods limit) : s.BoundCalls methods := by
  intro pl meth bound hmem
  cases hopen : s.consumerOpen with
  | true =>
    obtain ⟨v, hsett, -⟩ := h.consumer hopen
    exact (hsett.sides.current True.intro).sent pl meth bound hmem
  | false => exact (h.closed hopen).2 True.intro pl meth bound hmem

end CallLink

variable [DecidableEq μ] {methods : Nat → Nat → List μ} {limit : Nat} {s : CallLink μ α β ε} {events : List (LinkEvent μ α β ε)}

/-- A step that binds no hold to another variant while a call of it waits. -/
def KeepingStep (methods : Nat → Nat → List μ) (s : CallLink μ α β ε) (event : LinkEvent μ α β ε) (s' : CallLink μ α β ε) : Prop :=
  s.KeepsWaiting event ∧ s.step methods event = s'

/-- **Calls settle once, in order, within the window, by the binding their hold has.** -/
theorem calls_sound (h : Steps (KeepingStep methods) (CallLink.new limit) events s) : s.Kept limit ∧ s.BoundCalls methods ∧
      (s.consumerOpen = true → s.providerOpen = true → s.provider.errors = [] → 0 < s.consumer.limit → s.consumer.up = [] → s.provider.down = [] →
        s.provider.calls = [] → (settledPlaces s.consumer.log).Perm (List.range s.consumer.submitted.length)) := by
  have hlinked : s.Linked True methods limit :=
    h.invariant (I := fun s => s.Linked True methods limit) (fun ht hstep => hstep.2 ▸ ht.step _ fun _ => hstep.1) (CallLink.linked_new limit)
  have hkept := hlinked.kept
  exact ⟨hkept, hlinked.boundCalls, hkept.quiet⟩

/-- Two variants; the second has no method `0`, and its second one is `2`. -/
def twoVariants (_hold variant : Nat) : List Nat := if variant = 0 then [0, 1] else [1, 2]

/-- A call that is answered and one that waits for it; `rebinding` is what binds their hold afresh meanwhile. -/
def swapRun (rebinding : List (LinkEvent Nat Unit Unit Unit)) : List (LinkEvent Nat Unit Unit Unit) :=
  [LinkEvent.attach none, .receive .opened, .handle (.served (.live 0 1)) .opened, .sendBound [0], .receive .opened, .call 0 0 (), .call 0 1 (),
    .handle .unplaced .opened, .handle .unplaced .opened] ++ rebinding ++
  [LinkEvent.answer 0 (.ok none), .receive .opened, .handle .unplaced .opened, .handle .unplaced .opened]

/-- Where it comes to, one call being taken at once. -/
def afterSwap (rebinding : List (LinkEvent Nat Unit Unit Unit)) : CallLink Nat Unit Unit Unit :=
  (swapRun rebinding).foldl (CallLink.step twoVariants) (.new 1)

/-- An object that stops before its next variant: `loading`, then bound. -/
theorem calls_sound_restart :
    let s := afterSwap [.moved 0 (.loading none false), .receive .opened, .moved 0 (.live 1 2), .sendBound [0], .receive .opened]
    s.Kept 1 ∧ s.BoundCalls twoVariants ∧
      (s.consumerOpen = true → s.providerOpen = true → s.provider.errors = [] → 0 < s.consumer.limit → s.consumer.up = [] → s.provider.down = [] →
        s.provider.calls = [] → (settledPlaces s.consumer.log).Perm (range s.consumer.submitted.length)) :=
  calls_sound <| (Steps.guarded (fun s event => decide (s.KeepsWaiting event)) (by decide)).mono fun h => ⟨of_decide_eq_true h.1, h.2⟩

/-- A swap in place binds the hold afresh while a call of it waits: method `1` is called, by its index in the variant before
    the swap, and the provider runs method `2`. -/
theorem calls_outdated : ∃ (events : List (LinkEvent Nat Unit Unit Unit)) (s : CallLink Nat Unit Unit Unit),
    LinkRun twoVariants (.new 1) events s ∧ ¬s.BoundCalls twoVariants ∧
      s.consumer.submitted.map Submission.name = [0, 1] ∧ s.provider.calls.map (·.2.method) = [some 2] := by
  refine ⟨swapRun [.moved 0 (.live 1 2), .sendBound [0], .receive .opened], _, Steps.foldl _ _ _, ?_, by decide, by decide⟩
  intro hbound
  obtain ⟨made, hmade, hvariant, -⟩ := hbound 1 1 (some 1) (mem_of_getElem? (i := 1) rfl)
  obtain rfl : (⟨0, 0, 1⟩ : Submission Nat) = made := Option.some.inj hmade
  exact absurd hvariant (by decide)

end PiBridge.Chord.Remote
