import PiBridge.Chord.Correctness.CallWire

/-!
# `Chord.Correctness.CallConsumer` — what a consumer side does keeps its books and the wire

`Sides` is what holds between two moves of one handler: its books are in order, a call that waits is of a live hold, and
the wire is as `Wire` says. `Current` is the part that a binding can break: a call that waits carries an index of the
variant its hold is bound to. It is promised under `C` only.
-/

namespace PiBridge.Chord.Remote

open Lib List Assoc Consumer

variable {μ α β ε : Type}

/-- The index a call was sent with names its method in the variant its hold was bound to, which is the one it was made for. -/
def Submission.Fits (methods : Nat → Nat → List μ) (call : Submission μ) (method : Nat) (bound : Option Nat) : Prop :=
  bound = some call.variant ∧ (methods call.hold call.variant)[method]? = some call.name

namespace Consumer

/-- No call waits with an index of another variant, and none was sent with one. -/
structure Current (methods : Nat → Nat → List μ) (s : Consumer μ α β ε) : Prop where
  waiting : ∀ call ∈ s.waiting, ∃ made, s.submitted[call.place]? = some made ∧ made.Fits methods call.method (s.boundTo call.hold)
  sent : ∀ place method bound, .sent place method bound ∈ s.log → ∃ made, s.submitted[place]? = some made ∧ made.Fits methods method bound

/-- Between two moves: `out` are the calls at hand, `pending` calls in flight of a hold that was given up. -/
structure Sides (C : Prop) (methods : Nat → Nat → List μ) (s : Consumer μ α β ε) (out : List (OutgoingCall α))
    (pending : List (Nat × OutgoingCall α)) (v : View) (down : List (ConsumerMessage β ε)) (errors : List ProtocolError)
    (limit : Nat) : Prop where
  books : s.Books out
  live : ∀ call ∈ s.waiting, ∃ variant, Assoc.get? s.entries call.hold = some ⟨.live, some variant⟩
  held : ∀ call ∈ s.calls, s.Holds call.2.hold ∨ call ∈ pending
  wire : Wire s v s.up down errors limit
  current : C → s.Current methods

/-- Between two handlers. -/
structure Settled (C : Prop) (methods : Nat → Nat → List μ) (s : Consumer μ α β ε) (v : View) (down : List (ConsumerMessage β ε))
    (errors : List ProtocolError) (limit : Nat) : Prop where
  sides : s.Sides C methods [] [] v down errors limit
  full : s.Full

variable {C : Prop} {ms : Nat → Nat → List μ} {s : Consumer μ α β ε} {out : List (OutgoingCall α)}
  {pend : List (Nat × OutgoingCall α)} {v : View} {down : List (ConsumerMessage β ε)} {errs : List ProtocolError} {lim : Nat}
  {call : OutgoingCall α}

theorem settled_new (lim : Nat) : (new : Consumer μ α β ε).Settled C ms ⟨[], []⟩ [.hello lim] [] lim where
  sides := {
    books := books_new
    live := nofun
    held := nofun
    wire := Wire.start lim
    current := fun _ => ⟨nofun, nofun⟩ }
  full h := absurd rfl h

namespace Sides

section

variable (h : s.Sides C ms out pend v down errs lim)

include h

theorem holds (hmem : call ∈ s.waiting) : s.Holds call.hold := by
  obtain ⟨vr, hget⟩ := h.live call hmem
  rw [Holds, hget]
  rfl

/-- Less are in flight than the peer takes. -/
theorem room (hslot : s.inFlight < s.limit) : s.calls.length < lim := by
  have hcnt := h.books.count
  have hwindow := h.wire.window
  omega

theorem perm {out' : List (OutgoingCall α)} (hperm : out.Perm out') :
    s.Sides C ms out' pend v down errs lim where
  __ := h
  books := h.books.perm hperm

end

/-! ### Moves -/

theorem settle (h : s.Sides C ms (call :: out) pend v down errs lim) (oc : Except (CallError ε) (Option β)) :
    (s.settle oc call).Sides C ms out pend v down errs lim where
  books := h.books.settle oc
  live := h.live
  held := h.held
  wire := h.wire.congr rfl (fun _ => Iff.rfl) rfl rfl h.wire.window
  current hc := by
    refine ⟨(h.current hc).waiting, fun pl meth bound hmem => ?_⟩
    have hmem : .sent pl meth bound ∈ s.log ++ [CallEvent.settled call.place oc] := hmem
    simp only [mem_append, mem_singleton, reduceCtorEq, or_false] at hmem
    exact (h.current hc).sent pl meth bound hmem

theorem reject {cs : List (OutgoingCall α)} (h : s.Sides C ms (cs ++ out) pend v down errs lim) (err : CallError ε) :
    (s.reject cs err).Sides C ms out pend v down errs lim := by
  induction cs generalizing s with
  | nil => exact h
  | cons call rest ih => exact ih (h.settle (.error err))

theorem sendNext {rest : List (OutgoingCall α)} (h : s.Sides C ms out pend v down errs lim) (hwait : s.waiting = call :: rest)
    (hslot : s.inFlight < s.limit) : (s.sendNext call rest).Sides C ms out pend v down errs lim := by
  have hmem : call ∈ s.waiting := hwait ▸ mem_cons_self
  have hrest : ∀ oth ∈ rest, oth ∈ s.waiting := fun oth hoth => hwait ▸ mem_cons_of_mem _ hoth
  have hnew : s.nextCall ∉ s.calls.map Prod.fst := fun hin => Nat.lt_irrefl _ (h.books.fresh _ hin)
  have hcalls : set s.calls s.nextCall call = s.calls ++ [(s.nextCall, call)] := set_eq_append call hnew
  refine ⟨h.books.sendNext hwait hslot, fun oth hoth => h.live oth (hrest oth hoth), ?_, ?_, fun hc => ⟨?_, ?_⟩⟩
  · intro oth hoth
    have hoth : oth ∈ set s.calls s.nextCall call := hoth
    rw [hcalls] at hoth
    rcases mem_snoc.mp hoth with hoth | rfl
    · exact h.held oth hoth
    · exact Or.inl (h.holds hmem)
  · exact (h.wire.send h.books.fresh (h.room hslot) call (h.holds hmem)).congr rfl (fun _ => Iff.rfl) rfl rfl h.wire.window
  · exact fun oth hoth => (h.current hc).waiting oth (hrest oth hoth)
  · intro pl meth bound hin
    have hin : .sent pl meth bound ∈ s.log ++ [CallEvent.sent call.place call.method (s.boundTo call.hold)] := hin
    rcases mem_append.mp hin with hin | hin
    · exact (h.current hc).sent pl meth bound hin
    · -- The call goes out by the binding its hold has now.
      obtain ⟨rfl, rfl, rfl⟩ : pl = call.place ∧ meth = call.method ∧ bound = s.boundTo call.hold := by simpa using hin
      exact (h.current hc).waiting call hmem

theorem drain (h : s.Sides C ms out pend v down errs lim) : s.drain.Sides C ms out pend v down errs lim :=
  drain_rule (I := fun s => s.Sides C ms out pend v down errs lim) (fun _ _ _ h hwait hslot => h.sendNext hwait hslot) h

/-- A call in flight that will not run is taken out. -/
theorem free {id : Nat} (h : s.Sides C ms out ((id, call) :: pend) v down errs lim) (hget : Assoc.get? s.calls id = some call)
    (hnot : id ∉ (v.replay s.up).running.map Prod.fst) : (s.free id).Sides C ms (call :: out) pend v down errs lim where
  books := h.books.free hget
  live := h.live
  held other hoth := by
    have hoth : other ∈ s.calls.filter fun p => p.1 ≠ id := erase_eq_filter s.calls id ▸ hoth
    obtain ⟨hin, hne⟩ := mem_filter.mp hoth
    refine (h.held other hin).imp_right fun hpend => ?_
    refine (mem_cons.mp hpend).resolve_left fun heq => ?_
    simp [heq] at hne
  wire := (h.wire.erase hnot).congr rfl (fun _ => Iff.rfl) rfl rfl h.wire.window
  current hc := ⟨(h.current hc).waiting, (h.current hc).sent⟩

/-- Calls that wait are taken out. -/
theorem unwait (h : s.Sides C ms out pend v down errs lim) (p : OutgoingCall α → Bool) :
    Sides C ms { s with waiting := s.waiting.filter fun call => !p call } (s.waiting.filter p ++ out) pend v down errs lim where
  books := h.books.unwait p
  live oth hoth := h.live oth (mem_of_mem_filter hoth)
  held := h.held
  wire := h.wire.congr rfl (fun _ => Iff.rfl) rfl rfl h.wire.window
  current hc := ⟨fun oth hoth => (h.current hc).waiting oth (mem_of_mem_filter hoth), (h.current hc).sent⟩

theorem expect (h : s.Sides C ms out pend v down errs lim) (call : Nat × OutgoingCall α) :
    s.Sides C ms out (call :: pend) v down errs lim where
  __ := h
  held other hoth := (h.held other hoth).imp_right (mem_cons_of_mem _)

end Sides

/-! ## The calls of a hold that was given up -/

theorem drain_entries (s : Consumer μ α β ε) : s.drain.entries = s.entries :=
  drain_rule (I := fun t => t.entries = s.entries) (fun _ _ _ h _ _ => h) rfl

/-- A call in flight stays where it is while others get their slots. -/
theorem Sides.get?_drain (h : s.Sides C ms out pend v down errs lim) {id : Nat} (hget : Assoc.get? s.calls id = some call) :
    Assoc.get? s.drain.calls id = some call := by
  refine (drain_rule (I := fun t => t.Sides C ms out pend v down errs lim ∧ get? t.calls id = some call)
    (fun t next rest ht hwait hslot => ⟨ht.1.sendNext hwait hslot, ?_⟩) ⟨h, hget⟩).2
  show get? (set t.calls t.nextCall next) id = some call
  rw [get?_set_ne]
  · exact ht.2
  · intro heq
    exact Nat.lt_irrefl _ (ht.1.books.fresh _ (heq ▸ mem_map_of_mem (mem_of_get? ht.2)))

/-- The loop of `#failCalls` leaves no call of the hold in flight. -/
theorem Sides.dropCalls {hold : Nat} (h : s.Sides C ms out (s.calls.filter fun p => p.2.hold = hold) v down errs lim)
    (hnot : ¬s.Holds hold) :
    (s.dropCalls hold s.calls).Sides C ms ((s.calls.map Prod.snd).filter (·.hold = hold) ++ out) [] v down errs lim := by
  -- `done` are the calls taken out so far; those still to come are where they were.
  have hloop := dropCalls_rule hold
    (I := fun t rest => ∃ done, t.Sides C ms (done ++ out) (rest.filter fun p => p.2.hold = hold) v down errs lim ∧
      (done ++ (rest.map Prod.snd).filter (·.hold = hold)).Perm ((s.calls.map Prod.snd).filter (·.hold = hold)) ∧
      (∀ p ∈ rest, get? t.calls p.1 = some p.2) ∧ (rest.map Prod.fst).Nodup ∧ ¬t.Holds hold) ?_ ?_ s.calls s ?_
  · obtain ⟨done, hsides, hperm, -⟩ := hloop
    rw [map_nil, filter_nil, append_nil] at hperm
    exact hsides.perm (hperm.append_right out)
  · rintro t id call rest ⟨done, hsides, hperm, hget, hnd, hnot⟩ hhold
    rw [filter_cons_of_pos (by simpa using hhold)] at hsides
    have hfst := hget (id, call) mem_cons_self
    rw [map_cons, nodup_cons] at hnd
    have hfree := hsides.free hfst (hsides.wire.not_running hfst (hhold ▸ hnot))
    refine ⟨call :: done, hfree.drain, ?_, fun p hp => ?_, hnd.2, ?_⟩
    · refine Perm.trans ?_ hperm
      rw [map_cons, filter_cons_of_pos (by simpa using hhold)]
      exact perm_middle.symm
    · refine hfree.get?_drain ?_
      show get? (erase t.calls id) p.1 = some p.2
      rw [get?_erase_ne]
      · exact hget p (mem_cons_of_mem _ hp)
      · exact fun heq => hnd.1 (mem_map.mpr ⟨p, hp, heq.symm⟩)
    · rw [Holds, drain_entries]
      exact hnot
  · rintro t id call rest ⟨done, hsides, hperm, hget, hnd, hnot⟩ hhold
    rw [filter_cons_of_neg (by simpa using hhold)] at hsides
    rw [map_cons, filter_cons_of_neg (by simpa using hhold)] at hperm
    rw [map_cons, nodup_cons] at hnd
    exact ⟨done, hsides, hperm, fun p hp => hget p (mem_cons_of_mem _ hp), hnd.2, hnot⟩
  · refine ⟨[], h, Perm.refl _, fun p hp => ?_, h.books.keys, hnot⟩
    exact get?_of_mem h.books.keys hp

/-- The queue is full after the loop too. -/
theorem full_dropCalls (hold : Nat) (hfull : s.Full) : (s.dropCalls hold s.calls).Full :=
  dropCalls_rule _ (I := fun t _ => t.Full) (fun _ _ _ _ _ _ => full_drain _) (fun _ _ _ _ h _ => h) s.calls s hfull

theorem full_reject {cs : List (OutgoingCall α)} (err : CallError ε) (h : s.Full) : (s.reject cs err).Full :=
  reject_rule (fun _ _ _ h => h) cs err h

/-- `#failCalls` of a hold that was given up: `h` is the state before its calls were looked at. -/
theorem Settled.failCalls {hold : Nat} (hbooks : s.Books []) (hfull : s.Full)
    (hlive : ∀ call ∈ s.waiting, call.hold ≠ hold → ∃ vr, Assoc.get? s.entries call.hold = some ⟨.live, some vr⟩)
    (hheld : ∀ call ∈ s.calls, call.2.hold ≠ hold → s.Holds call.2.hold) (hwire : Wire s v s.up down errs lim)
    (hcur : C → ∀ call ∈ s.waiting, call.hold ≠ hold →
      ∃ made, s.submitted[call.place]? = some made ∧ made.Fits ms call.method (s.boundTo call.hold))
    (hsent : C → ∀ pl meth bound, .sent pl meth bound ∈ s.log → ∃ made, s.submitted[pl]? = some made ∧ made.Fits ms meth bound)
    (hnot : ¬s.Holds hold) (err : CallError ε) : (s.failCalls hold err).Settled C ms v down errs lim := by
  have hfilter : (s.waiting.filter fun call => call.hold ≠ hold) = s.waiting.filter fun call => !decide (call.hold = hold) :=
    filter_congr fun call _ => decide_not
  have hsides : Sides C ms { s with waiting := s.waiting.filter (·.hold ≠ hold) } (s.waiting.filter fun call => decide (call.hold = hold))
      (s.calls.filter fun p => p.2.hold = hold) v down errs lim := by
    refine ⟨?_, ?_, ?_, hwire.congr rfl (fun _ => Iff.rfl) rfl rfl hwire.window, fun hc => ⟨?_, hsent hc⟩⟩
    · rw [hfilter]
      have hbooks := hbooks.unwait fun call => decide (call.hold = hold)
      rwa [append_nil] at hbooks
    · intro call hcall
      obtain ⟨hin, hne⟩ := mem_filter.mp hcall
      exact hlive call hin (by simpa using hne)
    · intro call hcall
      by_cases hhold : call.2.hold = hold
      · exact Or.inr (mem_filter.mpr ⟨hcall, by simpa using hhold⟩)
      · exact Or.inl (hheld call hcall hhold)
    · intro call hcall
      obtain ⟨hin, hne⟩ := mem_filter.mp hcall
      exact hcur hc call hin (by simpa using hne)
  have hdrop := hsides.dropCalls hnot
  refine ⟨?_, ?_⟩
  · unfold Consumer.failCalls
    refine Sides.reject ?_ err
    rw [append_nil]
    exact hdrop.perm perm_append_comm
  · refine full_reject err (full_dropCalls (s := { s with waiting := s.waiting.filter (·.hold ≠ hold) }) hold fun hne => hfull ?_)
    intro hnil
    exact hne (by simp [hnil])

namespace Settled

theorem held (h : s.Settled C ms v down errs lim) {id : Nat} (hget : Assoc.get? s.calls id = some call) : s.Holds call.hold :=
  (h.sides.held (id, call) (mem_of_get? hget)).resolve_right not_mem_nil

/-! ## What the consumer's host does -/

theorem attach (h : s.Settled C ms v down errs lim) (bound : Option Nat) : (s.attach bound).Settled C ms v down errs lim := by
  have hne : ∀ call ∈ s.waiting, s.nextHold ≠ call.hold := by
    intro call hcall heq
    exact Nat.lt_irrefl _ (heq ▸ h.sides.wire.entriesFresh _ (h.sides.holds hcall))
  have hwire := h.sides.wire.attach (fun _ _ hget => h.held hget) ⟨.loading, bound⟩
  refine ⟨⟨h.sides.books.congr rfl rfl rfl rfl rfl rfl rfl, ?_, ?_, hwire.congr rfl (fun _ => Iff.rfl) rfl rfl hwire.window, fun hc => ⟨?_, ?_⟩⟩,
    h.full⟩
  · intro call hcall
    obtain ⟨vr, hget⟩ := h.sides.live call hcall
    refine ⟨vr, ?_⟩
    show Assoc.get? (Assoc.set s.entries s.nextHold _) call.hold = _
    rwa [get?_set_ne _ _ (hne call hcall)]
  · intro call hcall
    have hin := (h.sides.held call hcall).resolve_right not_mem_nil
    refine Or.inl ?_
    show (Assoc.get? (Assoc.set s.entries s.nextHold _) call.2.hold).isSome = true
    rw [get?_set]
    split
    · rfl
    · exact hin
  · intro call hcall
    obtain ⟨made, hmade, hfits⟩ := (h.sides.current hc).waiting call hcall
    refine ⟨made, hmade, ?_⟩
    rw [Consumer.attach, Consumer.post, boundTo, get?_set_ne _ _ (hne call hcall)]
    exact hfits
  · exact (h.sides.current hc).sent

/-- A message that brings nothing and takes nothing. -/
theorem post {msg : ProviderMessage α} (h : s.Settled C ms v down errs lim) (hstep : ∀ w : View, w.step msg = w)
    (hcalls : callIds [msg] = []) (hholds : holdIds [msg] = []) (hadmits : ∀ w : View, w.admits lim msg) :
    (s.post msg).Settled C ms v down errs lim where
  sides := {
    books := h.sides.books.congr rfl rfl rfl rfl rfl rfl rfl
    live := h.sides.live
    held := h.sides.held
    wire := (h.sides.wire.post hstep hcalls hholds hadmits).congr rfl (fun _ => Iff.rfl) rfl rfl h.sides.wire.window
    current := fun hc => ⟨(h.sides.current hc).waiting, (h.sides.current hc).sent⟩ }
  full := h.full

theorem retry (h : s.Settled C ms v down errs lim) (hold : Nat) : (s.retry hold).Settled C ms v down errs lim := by
  unfold Consumer.retry
  split
  · exact h.post (fun _ => rfl) rfl rfl fun _ => True.intro
  · exact h

/-- A call that is made comes last in the queue. -/
theorem enqueue (call : OutgoingCall α) {made : Submission μ} (h : s.Sides C ms [] [] v down errs lim) (hplace : call.place = s.submitted.length)
    {vr : Nat} (hlive : Assoc.get? s.entries call.hold = some ⟨.live, some vr⟩)
    (hfits : made.Fits ms call.method (some vr)) :
    Sides C ms { s with submitted := s.submitted ++ [made], waiting := s.waiting ++ [call] } [] [] v down errs lim := by
  have hbel : ∀ pl ∈ s.waiting.map (·.place), pl < s.submitted.length := by
    intro pl hplace
    have hin : pl ∈ range s.submitted.length := h.books.located.subset (by simp_all)
    exact mem_range.mp hin
  have hkept : ∀ (pl : Nat) (kept : Submission μ), s.submitted[pl]? = some kept → (s.submitted ++ [made])[pl]? = some kept := by
    intro pl kept hkept
    rwa [List.getElem?_append_left (List.getElem?_eq_some_iff.mp hkept).1]
  have hbooks : Books { s with submitted := s.submitted ++ [made], waiting := s.waiting ++ [call] } [] := by
    refine ⟨?_, ?_, ?_, h.books.keys, h.books.fresh, h.books.count, h.books.within⟩
    · rw [length_append, length_singleton, range_succ, ← hplace]
      refine Perm.trans ?_ ((hplace ▸ h.books.located).append_right _)
      simp only [map_append, map_cons, map_nil, append_assoc, append_nil]
      exact (perm_append_comm.append_left _).append_left _
    · have hord := pairwise_append.mp h.books.ordered
      rw [map_append, ← append_assoc, pairwise_append]
      refine ⟨h.books.ordered, pairwise_singleton _ _, ?_⟩
      intro pl hin last hlast
      obtain rfl : last = call.place := by simpa using hlast
      rw [hplace]
      exact (mem_append.mp hin).elim (h.books.sentBefore pl) (hbel pl)
    · intro pl hin
      rw [length_append]
      exact Nat.lt_of_lt_of_le (h.books.sentBefore pl hin) (Nat.le_add_right _ _)
  refine ⟨hbooks, ?_, h.held, h.wire.congr rfl (fun _ => Iff.rfl) rfl rfl h.wire.window, fun hc => ⟨?_, ?_⟩⟩
  · intro oth hoth
    rcases mem_snoc.mp hoth with hoth | rfl
    · exact h.live oth hoth
    · exact ⟨vr, hlive⟩
  · intro oth hoth
    rcases mem_snoc.mp hoth with hoth | rfl
    · obtain ⟨kept, hget, hfits⟩ := (h.current hc).waiting oth hoth
      exact ⟨kept, hkept _ _ hget, hfits⟩
    · refine ⟨made, ?_, ?_⟩
      · show (s.submitted ++ [made])[oth.place]? = some made
        rw [hplace, getElem?_concat_length]
      · show made.Fits ms oth.method ((get? s.entries oth.hold).bind RemoteObject.bound)
        rw [hlive]
        exact hfits
  · intro pl meth bound hin
    obtain ⟨kept, hget, hfits⟩ := (h.current hc).sent pl meth bound hin
    exact ⟨kept, hkept _ _ hget, hfits⟩

theorem called [DecidableEq μ] (h : s.Settled C ms v down errs lim) (hold : Nat) (name : μ) (args : α) :
    (s.call ms hold name args).Settled C ms v down errs lim := by
  unfold call
  split
  · rename_i vr hlive
    split
    · rename_i hname
      have hfits : Submission.Fits ms ⟨hold, vr, name⟩ ((ms hold vr).idxOf name) (some vr) := by
        refine ⟨rfl, ?_⟩
        have hlt := idxOf_lt_length_of_mem hname
        rw [getElem?_eq_getElem hlt]
        exact congrArg some (getElem_idxOf hlt)
      let og : OutgoingCall α := ⟨s.submitted.length, hold, (ms hold vr).idxOf name, args⟩
      have hqueu := enqueue og h.sides rfl hlive hfits
      unfold submit
      split
      · rename_i hfree
        -- Nothing waits and a slot is free: it goes out.
        have hnil : s.waiting = [] := isEmpty_iff.mp hfree.1
        have hlast : s.waiting ++ [og] = og :: [] := by rw [hnil, nil_append]
        have hsent := hqueu.sendNext hlast hfree.2
        refine ⟨?_, fun hne => absurd hnil hne⟩
        have hsame : sendNext { s with submitted := s.submitted ++ [⟨hold, vr, name⟩], waiting := s.waiting ++ [og] } og [] =
            send { s with submitted := s.submitted ++ [⟨hold, vr, name⟩], inFlight := s.inFlight + 1 } og := by
          simp only [sendNext, send, boundTo, hnil]
        exact hsame ▸ hsent
      · rename_i hfull
        refine ⟨hqueu, fun _ => ?_⟩
        by_cases hnil : s.waiting = []
        · exact Int.not_lt.mp fun hlt => hfull ⟨by simp [hnil], hlt⟩
        · exact h.full hnil
    · exact h
  · exact h

/-- A place is of one call that waits. -/
theorem filter_place {list : List (OutgoingCall α)} (hord : (list.map (·.place)).Pairwise (· < ·)) (hmem : call ∈ list) :
    list.filter (fun oth => decide (oth.place = call.place)) = [call] := by
  induction list with
  | nil => cases hmem
  | cons fst rest ih =>
    rw [map_cons, pairwise_cons] at hord
    rcases mem_cons.mp hmem with rfl | hmem
    · rw [filter_cons_of_pos (by simp), filter_eq_nil_iff.mpr]
      intro oth hoth heq
      have hlt := hord.1 _ (mem_map_of_mem hoth)
      exact Nat.lt_irrefl _ (of_decide_eq_true heq ▸ hlt)
    · have hlt := hord.1 _ (mem_map_of_mem hmem)
      rw [filter_cons_of_neg (by simpa using Nat.ne_of_lt hlt)]
      exact ih hord.2 hmem

theorem full_filter {list : List (OutgoingCall α)} (h : s.Full) (hsub : list.Sublist s.waiting) : Full { s with waiting := list } :=
  fun hne => h fun hnil => hne (sublist_nil.mp (hnil ▸ hsub))

theorem cancel (h : s.Settled C ms v down errs lim) (pl : Nat) (rsn : ε) :
    (s.cancel pl rsn).Settled C ms v down errs lim := by
  unfold Consumer.cancel
  split
  · -- It waits: it leaves the queue, nothing is sent.
    rename_i call hfind
    have hmem := mem_of_find?_eq_some hfind
    obtain rfl : call.place = pl := by simpa using find?_some hfind
    have hunwait := h.sides.unwait fun oth => decide (oth.place = call.place)
    rw [filter_place (pairwise_append.mp h.sides.books.ordered).2.1 hmem] at hunwait
    have hfilter : (s.waiting.filter fun oth => oth.place ≠ call.place) = s.waiting.filter fun oth => !decide (oth.place = call.place) :=
      filter_congr fun _ _ => decide_not
    rw [hfilter]
    have hfull : Full { s with waiting := s.waiting.filter fun oth => !decide (oth.place = call.place) } :=
      full_filter h.full filter_sublist
    exact ⟨hunwait.settle _, hfull⟩
  · split
    · -- It is in flight: the provider is told, its slot is free.
      rename_i id call hfind
      have hget : get? s.calls id = some call := get?_of_mem h.sides.books.keys (mem_of_find?_eq_some hfind)
      have hsides : Sides C ms ((s.post (.abort id)).free id) [call] [] v down errs lim := {
        books := (h.sides.books.free hget).congr rfl rfl rfl rfl rfl rfl rfl
        live := h.sides.live
        held := fun oth hoth => h.sides.held oth ((erase_sublist _ _).subset hoth)
        wire := (h.sides.wire.abort id).congr rfl (fun _ => Iff.rfl) rfl rfl h.sides.wire.window
        current := fun hc => ⟨(h.sides.current hc).waiting, (h.sides.current hc).sent⟩ }
      exact ⟨hsides.drain.settle _, full_drain _⟩
    · exact h

theorem release (h : s.Settled C ms v down errs lim) (hold : Nat) (err : CallError ε) :
    (s.release hold err).Settled C ms v down errs lim := by
  unfold Consumer.release
  split
  · have hne : ∀ oth, oth ≠ hold → get? (erase s.entries hold) oth = get? s.entries oth :=
      fun oth hoth => get?_erase_ne _ (Ne.symm hoth)
    refine Settled.failCalls (s := { s.post (.release hold) with entries := erase s.entries hold })
      (h.sides.books.congr rfl rfl rfl rfl rfl rfl rfl) h.full ?_ ?_ ?_ ?_ (fun hc => (h.sides.current hc).sent) ?_ err
    · intro call hcall hoth
      rw [hne _ hoth]
      exact h.sides.live call hcall
    · intro call hcall hoth
      rw [Holds, hne _ hoth]
      exact (h.sides.held call hcall).resolve_right not_mem_nil
    · exact (h.sides.wire.release hold).congr rfl (fun _ => Iff.rfl) rfl rfl h.sides.wire.window
    · intro hc call hcall hoth
      rw [boundTo, hne _ hoth]
      exact (h.sides.current hc).waiting call hcall
    · simp [Holds]
  · exact h

/-! ## What the provider sent -/

variable {msg : ConsumerMessage β ε}

/-- A message that answers nothing and ends nothing was heard. -/
theorem heard (h : s.Settled C ms v (msg :: down) errs lim) (hreply : ∀ id ∈ replyIds [msg], Assoc.get? s.calls id = none)
    (hgone : ∀ hold ∈ goneIds [msg], ¬s.Holds hold) : s.Settled C ms v down errs lim where
  sides := { h.sides with wire := h.sides.wire.heard hreply hgone }
  full := h.full

variable {hold : Nat}

theorem gone {err : ε} (h : s.Settled C ms v (.gone hold err :: down) errs lim) :
    (s.gone hold err).Settled C ms v down errs lim := by
  unfold Consumer.gone
  split
  · have hne : ∀ oth, oth ≠ hold → get? (erase s.entries hold) oth = get? s.entries oth :=
      fun oth hoth => get?_erase_ne _ (Ne.symm hoth)
    have hnot : ¬Holds { s with entries := erase s.entries hold } hold := by simp [Holds]
    have hforgot := (h.sides.wire.forget (h.sides.wire.gones hold (by simp [goneIds])).2).heard (fun id hid => by simp [replyIds] at hid)
      fun oth hoth => by
        obtain rfl : oth = hold := by simpa [goneIds] using hoth
        exact hnot
    refine Settled.failCalls (s := { s with entries := erase s.entries hold })
      (h.sides.books.congr rfl rfl rfl rfl rfl rfl rfl) h.full ?_ ?_ hforgot ?_ (fun hc => (h.sides.current hc).sent) hnot _
    · intro call hcall hoth
      rw [hne _ hoth]
      exact h.sides.live call hcall
    · intro call hcall hoth
      rw [Holds, hne _ hoth]
      exact (h.sides.held call hcall).resolve_right not_mem_nil
    · intro hc call hcall hoth
      rw [boundTo, hne _ hoth]
      exact (h.sides.current hc).waiting call hcall
  · rename_i hnot
    refine h.heard (fun id hid => by simp [replyIds] at hid) fun oth hoth => ?_
    obtain rfl : oth = hold := by simpa [goneIds] using hoth
    exact hnot

/-- A reply is heard: its call left the table, or had left it. -/
theorem reply {id : Nat} {oc : Except (CallError ε) (Option β)} (h : s.Settled C ms v (msg :: down) errs lim)
    (hreply : replyIds [msg] = [id]) (hgone : goneIds [msg] = []) : (s.reply id oc).Settled C ms v down errs lim := by
  have hnotRunning : id ∉ (v.replay s.up).running.map Prod.fst := by
    refine (h.sides.wire.replies id ?_).2
    rw [show replyIds (msg :: down) = replyIds [msg] ++ replyIds down from replyIds_append [msg] down, hreply]
    exact mem_cons_self
  unfold Consumer.reply
  split
  · rename_i hnone
    refine h.heard (fun oth hoth => ?_) fun hold hhold => by simp [hgone] at hhold
    obtain rfl : oth = id := by simpa [hreply] using hoth
    exact hnone
  · rename_i call hget
    have hfree := (h.sides.expect (id, call)).free hget hnotRunning
    have hheard : Sides C ms (s.free id) [call] [] v down errs lim := {
      hfree with
      wire := hfree.wire.heard (fun oth hoth => by
          obtain rfl : oth = id := by simpa [hreply] using hoth
          exact get?_erase_self _ _) fun hold hhold => by simp [hgone] at hhold }
    exact ⟨hheard.drain.settle _, full_drain _⟩

theorem opened {announced : Nat} (h : s.Settled C ms v (.hello announced :: down) errs lim) : (s.opened announced).Settled C ms v down errs lim := by
  obtain rfl : announced = lim := h.sides.wire.hellos announced mem_cons_self
  have hwithin : s.inFlight ≤ announced := Int.le_trans h.sides.books.within (Int.ofNat_le.mpr h.sides.wire.window)
  have hheard := h.sides.wire.heard (fun id hid => by simp [replyIds] at hid) fun hold hhold => by simp [goneIds] at hhold
  have hsides : Sides C ms { s with limit := announced } [] [] v down errs announced := {
    books := { h.sides.books with within := hwithin }
    live := h.sides.live
    held := h.sides.held
    wire := hheard.congr rfl (fun _ => Iff.rfl) rfl rfl (Nat.le_refl announced)
    current := fun hc => ⟨(h.sides.current hc).waiting, (h.sides.current hc).sent⟩ }
  exact ⟨hsides.drain, full_drain _⟩

theorem reject_waiting (cs : List (OutgoingCall α)) (err : CallError ε) : (s.reject cs err).waiting = s.waiting :=
  reject_rule (I := fun t => t.waiting = s.waiting) (fun _ _ _ h => h) cs err rfl

theorem reject_entries (cs : List (OutgoingCall α)) (err : CallError ε) : (s.reject cs err).entries = s.entries :=
  reject_rule (I := fun t => t.entries = s.entries) (fun _ _ _ h => h) cs err rfl

/-- A hold rebinds or fails: no call of it waits after that. -/
theorem moves {hold : Nat} {obj : RemoteObject} (h : s.Settled C ms v down errs lim) (hget : Assoc.get? s.entries hold = some obj)
    (err : CallError ε) (state : RefState) : ((s.rejectWaiting hold err).move hold obj state).Settled C ms v down errs lim := by
  have hfilter : (s.waiting.filter fun call => call.hold ≠ hold) = s.waiting.filter fun call => !decide (call.hold = hold) :=
    filter_congr fun _ _ => decide_not
  have hrej : (s.rejectWaiting hold err).Sides C ms [] [] v down errs lim := by
    unfold rejectWaiting
    rw [hfilter]
    exact (h.sides.unwait _).reject err
  have hwait : (s.rejectWaiting hold err).waiting = s.waiting.filter fun call => call.hold ≠ hold := reject_waiting _ _
  have hents : (s.rejectWaiting hold err).entries = s.entries := reject_entries _ _
  have hfull : (s.rejectWaiting hold err).Full := full_reject err (full_filter h.full filter_sublist)
  generalize s.rejectWaiting hold err = t at hrej hwait hents hfull
  have hne : ∀ call ∈ t.waiting, hold ≠ call.hold := by
    intro call hcall heq
    rw [hwait, mem_filter] at hcall
    simp [heq] at hcall
  have hset : ∀ call ∈ t.waiting, get? (set t.entries hold { obj with state }) call.hold = get? t.entries call.hold :=
    fun call hcall => get?_set_ne _ _ (hne call hcall)
  have hholds : ∀ other, Holds (t.move hold obj state) other ↔ t.Holds other := by
    intro other
    unfold Holds move
    rw [get?_set]
    split
    · rename_i heq
      subst heq
      simp [hents, hget]
    · exact Iff.rfl
  refine ⟨⟨hrej.books.congr rfl rfl rfl rfl rfl rfl rfl, ?_, ?_, hrej.wire.congr rfl hholds rfl rfl hrej.wire.window,
    fun hc => ⟨?_, (hrej.current hc).sent⟩⟩, hfull⟩
  · intro call hcall
    obtain ⟨vr, hlive⟩ := hrej.live call hcall
    exact ⟨vr, (hset call hcall).trans hlive⟩
  · intro call hcall
    exact (hrej.held call hcall).imp_left (hholds _).mpr
  · intro call hcall
    rw [boundTo, move, hset call hcall]
    exact (hrej.current hc).waiting call hcall

theorem loading (h : s.Settled C ms v (.loading hold :: down) errs lim) : (s.loading hold).Settled C ms v down errs lim := by
  have hheard := h.heard (fun id hid => by simp [replyIds] at hid) fun oth hoth => by simp [goneIds] at hoth
  unfold Consumer.loading
  split
  · exact hheard
  · rename_i obj hget
    exact hheard.moves hget _ _

theorem failed {err : ε} (h : s.Settled C ms v (.failed hold err :: down) errs lim) :
    (s.fail hold err).Settled C ms v down errs lim := by
  have hheard := h.heard (fun id hid => by simp [replyIds] at hid) fun oth hoth => by simp [goneIds] at hoth
  unfold fail
  split
  · exact hheard
  · rename_i obj hget
    exact hheard.moves hget _ _

/-- A hold is bound: the calls of it that wait are of the variant it is bound to. -/
theorem adopt {e : Nat × Nat} (h : s.Settled C ms v down errs lim)
    (hsame : C → ∀ call ∈ s.waiting, call.hold = e.1 → s.boundTo call.hold = some e.2) : (s.adopt e).Settled C ms v down errs lim := by
  unfold Consumer.adopt
  split
  · rename_i hin
    have hholds : ∀ oth, Holds { s with entries := set s.entries e.1 ⟨.live, some e.2⟩ } oth ↔ s.Holds oth := by
      intro oth
      unfold Holds
      rw [get?_set]
      split
      · rename_i heq
        subst heq
        simp [hin]
      · exact Iff.rfl
    refine ⟨⟨h.sides.books.congr rfl rfl rfl rfl rfl rfl rfl, ?_, ?_, h.sides.wire.congr rfl hholds rfl rfl h.sides.wire.window,
      fun hc => ⟨?_, (h.sides.current hc).sent⟩⟩, h.full⟩
    · intro call hcall
      show ∃ vr, Assoc.get? (Assoc.set s.entries e.1 _) call.hold = _
      rw [get?_set]
      split
      · exact ⟨e.2, rfl⟩
      · exact h.sides.live call hcall
    · intro call hcall
      exact (h.sides.held call hcall).imp_left (hholds _).mpr
    · intro call hcall
      obtain ⟨made, hmade, hfits⟩ := (h.sides.current hc).waiting call hcall
      refine ⟨made, hmade, ?_⟩
      rw [boundTo, get?_set]
      split
      · rename_i heq
        rw [hsame hc call hcall heq.symm] at hfits
        exact hfits
      · exact hfits
  · exact h

theorem adopt_waiting (e : Nat × Nat) : (s.adopt e).waiting = s.waiting := by
  unfold Consumer.adopt
  split <;> rfl

section

variable (h : s.Settled C ms v down errs lim)

include h

theorem adopts {es : List (Nat × Nat)}
    (hsame : C → ∀ call ∈ s.waiting, ∀ vr, (call.hold, vr) ∈ es → s.boundTo call.hold = some vr) :
    (es.foldl Consumer.adopt s).Settled C ms v down errs lim := by
  induction es generalizing s with
  | nil => exact h
  | cons e es ih =>
    refine ih (h.adopt fun hc call hcall heq => hsame hc call hcall e.2 (heq ▸ mem_cons_self)) ?_
    intro hc call hcall vr hmem
    rw [adopt_waiting] at hcall
    have hbnd := hsame hc call hcall vr (mem_cons_of_mem _ hmem)
    -- The entry before did not change the binding of a hold with a call that waits.
    unfold Consumer.adopt
    split
    · rw [boundTo, get?_set]
      split
      · rename_i heq
        have hfst := hsame hc call hcall e.2 (heq ▸ mem_cons_self)
        exact hfst.symm.trans hbnd
      · exact hbnd
    · exact hbnd

theorem releaseOversized (holds : List Nat) (opening : Opening ε) :
    (s.releaseOversized holds opening).Settled C ms v down errs lim := by
  unfold Consumer.releaseOversized
  split
  · rename_i oversized err
    generalize holds.filter (· ∈ oversized) = list
    induction list generalizing s with
    | nil => exact h
    | cons hold list ih => exact ih (h.release hold (.given err))
  · exact h

theorem acknowledge (opening : Opening ε) :
    (s.acknowledge opening).Settled C ms v down errs lim := by
  unfold Consumer.acknowledge
  split
  · exact h
  · exact h.post (fun _ => rfl) rfl rfl fun _ => True.intro

end

/-- **The consumer handles a message.** Under `C`, one that binds a hold with a call that waits binds it to the variant it
    is bound to. -/
theorem handles (h : s.Settled C ms v (msg :: down) errs lim) (opening : Opening ε)
    (hsame : C → ∀ holds, msg = .bound holds → ∀ call ∈ s.waiting, ∀ variant,
      (call.hold, variant) ∈ fitting Prod.fst holds opening → s.boundTo call.hold = some variant) :
    (s.message opening msg).Settled C ms v down errs lim := by
  cases msg with
  | hello announced => exact h.opened
  | bound holds =>
    have hheard := h.heard (fun id hid => by simp [replyIds] at hid) fun other hoth => by simp [goneIds] at hoth
    exact ((hheard.adopts fun hc => hsame hc holds rfl).releaseOversized _ opening).acknowledge opening
  | state holds =>
    have hheard := h.heard (fun id hid => by simp [replyIds] at hid) fun other hoth => by simp [goneIds] at hoth
    exact (hheard.releaseOversized holds opening).acknowledge opening
  | failed hold error => exact h.failed
  | loading hold => exact h.loading
  | result id val | error id error => exact h.reply rfl rfl
  | gone hold error => exact h.gone

end Settled

/-! ## The link closed -/

/-- After its link closed: every call settled, once, and those that were sent were sent in order. -/
structure Ended (s : Consumer μ α β ε) : Prop where
  settled : (settledPlaces s.log).Perm (List.range s.submitted.length)
  ordered : (sentPlaces s.log).Pairwise (· < ·)
  calls : s.calls = []
  waiting : s.waiting = []

theorem reject_submitted (cs : List (OutgoingCall α)) (err : CallError ε) :
    (s.reject cs err).submitted = s.submitted ∧ (s.reject cs err).calls = s.calls ∧
      sentPlaces (s.reject cs err).log = sentPlaces s.log :=
  reject_rule (I := fun t => t.submitted = s.submitted ∧ t.calls = s.calls ∧ sentPlaces t.log = sentPlaces s.log)
    (fun _ _ _ h => ⟨h.1, h.2.1, (sentPlaces_settled _ _ _).trans h.2.2⟩) cs err ⟨rfl, rfl, rfl⟩

theorem settledPlaces_reject (cs : List (OutgoingCall α)) (err : CallError ε) :
    settledPlaces (s.reject cs err).log = settledPlaces s.log ++ cs.map (·.place) := by
  unfold reject
  induction cs generalizing s with
  | nil => simp
  | cons call rest ih =>
    rw [foldl_cons, ih, settle, settledPlaces_settled, map_cons, append_assoc, singleton_append]

theorem Settled.closed (h : s.Settled C ms v down errs lim) : s.closed.Ended where
  settled := by
    unfold Consumer.closed
    rw [settledPlaces_reject, (reject_submitted _ _).1]
    refine Perm.trans (Perm.append_left _ (Perm.map _ ?_)) h.sides.books.located
    rw [append_nil]
    exact perm_append_comm
  ordered := by
    unfold Consumer.closed
    rw [(reject_submitted _ _).2.2]
    exact (pairwise_append.mp h.sides.books.ordered).1
  calls := (reject_submitted _ _).2.1
  waiting := Settled.reject_waiting _ _

theorem Settled.closed_sent (h : s.Settled C ms v down errs lim) (hc : C) {pl meth : Nat} {bound : Option Nat}
    (hmem : .sent pl meth bound ∈ s.closed.log) : ∃ made, s.submitted[pl]? = some made ∧ made.Fits ms meth bound := by
  refine (h.sides.current hc).sent pl meth bound ?_
  revert hmem
  refine reject_rule (I := fun t => .sent pl meth bound ∈ t.log → .sent pl meth bound ∈ s.log) ?_ _ _ ?_
  · intro t oc call ht hin
    exact ht (by simpa [settle] using hin)
  · exact id

end Consumer

end PiBridge.Chord.Remote
