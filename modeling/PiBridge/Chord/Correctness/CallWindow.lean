import PiBridge.Chord.Remote.Calls
import Mathlib.Data.List.Perm.Basic
import Mathlib.Data.List.Range

/-!
# `Chord.Correctness.CallWindow` — where each call of a consumer side is

A call that was submitted is waiting, in flight or settled, and only one of these (`Books.located`); the calls in flight
are the ones the window counts (`Books.count`). Both are kept by what moves one call: `send` out of the queue, `settle`
out of the tables. `drainFrom_rule` and `dropCalls_rule` carry a property over the two loops, and every handler is put
together from them.

`out` is the list of calls a handler took out of the tables and has not settled yet.
-/

namespace PiBridge.Chord.Remote

open Lib List Assoc

variable {μ α β ε : Type}

/-! ## What the log says -/

def CallEvent.settledPlace : CallEvent β ε → Option Nat
  | .settled place _ => some place
  | .sent _ _ _ => none

def CallEvent.sentPlace : CallEvent β ε → Option Nat
  | .sent place _ _ => some place
  | .settled _ _ => none

/-- The places of the calls that settled, in order, one for each time. -/
def settledPlaces (log : List (CallEvent β ε)) : List Nat := log.filterMap CallEvent.settledPlace

/-- The places of the calls that were sent, in order. -/
def sentPlaces (log : List (CallEvent β ε)) : List Nat := log.filterMap CallEvent.sentPlace

variable (log : List (CallEvent β ε)) (place : Nat)

@[simp] theorem settledPlaces_settled (oc : Except (CallError ε) (Option β)) :
    settledPlaces (log ++ [CallEvent.settled place oc]) = settledPlaces log ++ [place] := by simp [settledPlaces, CallEvent.settledPlace]

@[simp] theorem settledPlaces_sent (meth : Nat) (bound : Option Nat) :
    settledPlaces (log ++ [CallEvent.sent place meth bound]) = settledPlaces log := by simp [settledPlaces, CallEvent.settledPlace]

@[simp] theorem sentPlaces_settled (oc : Except (CallError ε) (Option β)) :
    sentPlaces (log ++ [CallEvent.settled place oc]) = sentPlaces log := by simp [sentPlaces, CallEvent.sentPlace]

@[simp] theorem sentPlaces_sent (meth : Nat) (bound : Option Nat) :
    sentPlaces (log ++ [CallEvent.sent place meth bound]) = sentPlaces log ++ [place] := by simp [sentPlaces, CallEvent.sentPlace]

namespace Consumer

/-! ## The two loops -/

/-- A call of the queue gets its slot. -/
def sendNext (s : Consumer μ α β ε) (call : OutgoingCall α) (rest : List (OutgoingCall α)) : Consumer μ α β ε :=
  send { s with waiting := rest, inFlight := s.inFlight + 1 } call

variable {I : Consumer μ α β ε → Prop}

/-- What sending the next call of the queue keeps, `#drain` keeps. -/
theorem drainFrom_rule (hsend : ∀ s call rest, I s → s.waiting = call :: rest → s.inFlight < s.limit → I (s.sendNext call rest))
    (list : List (OutgoingCall α)) (s : Consumer μ α β ε) (hwait : s.waiting = list) (h : I s) : I (s.drainFrom list) := by
  induction list generalizing s with
  | nil => exact h
  | cons call rest ih =>
    unfold drainFrom
    split
    · exact h
    · rename_i hslot
      exact ih (s.sendNext call rest) rfl (hsend s call rest h hwait (Int.not_le.mp hslot))

theorem drain_rule (hsend : ∀ s call rest, I s → s.waiting = call :: rest → s.inFlight < s.limit → I (s.sendNext call rest))
    {s : Consumer μ α β ε} (h : I s) : I s.drain :=
  drainFrom_rule hsend s.waiting s rfl h

/-- A slot is free: the call with this id left the table. -/
def free (s : Consumer μ α β ε) (id : Nat) : Consumer μ α β ε := { s with calls := Assoc.erase s.calls id, inFlight := s.inFlight - 1 }

/-- What taking out a call of the hold keeps, the loop of `#failCalls` keeps; `I` may speak of what is left to look at. -/
theorem dropCalls_rule (hold : Nat) {I : Consumer μ α β ε → List (Nat × OutgoingCall α) → Prop}
    (hfree : ∀ s id call rest, I s ((id, call) :: rest) → call.hold = hold → I (s.free id).drain rest)
    (hskip : ∀ s id call rest, I s ((id, call) :: rest) → call.hold ≠ hold → I s rest)
    (list : List (Nat × OutgoingCall α)) (s : Consumer μ α β ε) (h : I s list) : I (s.dropCalls hold list) [] := by
  induction list generalizing s with
  | nil => exact h
  | cons e rest ih =>
    obtain ⟨id, call⟩ := e
    unfold dropCalls
    split
    · rename_i hhold
      exact ih _ (hfree s id call rest h hhold)
    · rename_i hhold
      exact ih s (hskip s id call rest h hhold)

/-- What settling keeps, settling each of a list keeps. -/
theorem reject_rule (hsettle : ∀ s oc call, I s → I (settle s oc call))
    (cs : List (OutgoingCall α)) (err : CallError ε) {s : Consumer μ α β ε} (h : I s) : I (s.reject cs err) := by
  induction cs generalizing s with
  | nil => exact h
  | cons call rest ih => exact ih (hsettle s _ call h)

/-! ## The queue and the slots -/

/-- While a call waits, every slot is taken. -/
def Full (s : Consumer μ α β ε) : Prop := s.waiting ≠ [] → s.limit ≤ s.inFlight

theorem full_drain (s : Consumer μ α β ε) : s.drain.Full := by
  unfold drain
  generalize hlist : s.waiting = list
  induction list generalizing s with
  | nil =>
    intro hne
    exact absurd hlist hne
  | cons call rest ih =>
    unfold drainFrom
    split
    · rename_i hslot
      exact fun _ => hslot
    · exact ih _ rfl

/-! ## The books -/

/-- Where the calls submitted are: `out` are those a handler has at hand. -/
structure Books (s : Consumer μ α β ε) (out : List (OutgoingCall α)) : Prop where
  located : (settledPlaces s.log ++ (s.waiting ++ s.calls.map Prod.snd ++ out).map (·.place)).Perm (List.range s.submitted.length)
  ordered : (sentPlaces s.log ++ s.waiting.map (·.place)).Pairwise (· < ·)
  sentBefore : ∀ place ∈ sentPlaces s.log, place < s.submitted.length
  keys : (s.calls.map Prod.fst).Nodup
  fresh : ∀ id ∈ s.calls.map Prod.fst, id < s.nextCall
  count : s.inFlight = s.calls.length
  within : s.inFlight ≤ s.limit

variable {s : Consumer μ α β ε} {out out' : List (OutgoingCall α)} {call : OutgoingCall α}

theorem books_new : (new : Consumer μ α β ε).Books [] where
  located := Perm.refl []
  ordered := Pairwise.nil
  sentBefore := nofun
  keys := nodup_nil
  fresh := nofun
  count := rfl
  within := Int.le_refl 0

namespace Books

theorem perm (h : s.Books out) (hperm : out.Perm out') : s.Books out' where
  __ := h
  located := (((hperm.symm.append_left _).map _).append_left _).trans h.located

/-- The books say nothing of the holds and the wire. -/
theorem congr {s' : Consumer μ α β ε} (h : s.Books out) (hcalls : s'.calls = s.calls) (hwait : s'.waiting = s.waiting)
    (hlim : s'.limit = s.limit) (hinFlight : s'.inFlight = s.inFlight) (hnext : s'.nextCall = s.nextCall)
    (hsubmitted : s'.submitted = s.submitted) (hlog : s'.log = s.log) : s'.Books out := by
  obtain ⟨hlocated, hord, hbef, hkeys, hfresh, hcnt, hwithin⟩ := h
  refine ⟨?_, ?_, ?_, ?_, ?_, ?_, ?_⟩
  · rwa [hlog, hwait, hcalls, hsubmitted]
  · rwa [hlog, hwait]
  · rwa [hlog, hsubmitted]
  · rwa [hcalls]
  · rwa [hcalls, hnext]
  · rwa [hinFlight, hcalls]
  · rwa [hinFlight, hlim]

theorem settle (h : s.Books (call :: out)) (oc : Except (CallError ε) (Option β)) : (s.settle oc call).Books out where
  located := by
    refine Perm.trans ?_ h.located
    rw [Consumer.settle, settledPlaces_settled, append_assoc]
    refine Perm.append_left _ ?_
    simp only [map_append, map_cons, singleton_append]
    exact (@perm_middle _ _ (s.waiting.map (·.place) ++ (s.calls.map Prod.snd).map (·.place)) _).symm
  ordered := by
    rw [Consumer.settle, sentPlaces_settled]
    exact h.ordered
  sentBefore := by
    rw [Consumer.settle, sentPlaces_settled]
    exact h.sentBefore
  keys := h.keys
  fresh := h.fresh
  count := h.count
  within := h.within

/-- A call at hand is sent: it comes after those sent before and before those that wait. -/
theorem send (h : s.Books (call :: out)) (hslot : s.inFlight < s.limit) (hbef : ∀ place ∈ sentPlaces s.log, place < call.place)
    (haft : ∀ oth ∈ s.waiting, call.place < oth.place) :
    (Consumer.send { s with inFlight := s.inFlight + 1 } call).Books out := by
  have hnew : s.nextCall ∉ s.calls.map Prod.fst := fun hmem => Nat.lt_irrefl _ (h.fresh _ hmem)
  have hcalls : set s.calls s.nextCall call = s.calls ++ [(s.nextCall, call)] := set_eq_append call hnew
  refine ⟨?_, ?_, ?_, ?_, ?_, ?_, ?_⟩
  · rw [Consumer.send, settledPlaces_sent, hcalls]
    refine Perm.trans (Perm.append_left _ ?_) h.located
    simp only [map_append, map_cons, map_nil, append_assoc, singleton_append]
    exact Perm.refl _
  · rw [Consumer.send, sentPlaces_sent]
    have hord := pairwise_append.mp h.ordered
    rw [append_assoc, pairwise_append]
    refine ⟨hord.1, ?_, ?_⟩
    · rw [singleton_append, pairwise_cons]
      refine ⟨fun place hplace => ?_, hord.2.1⟩
      obtain ⟨oth, hoth, rfl⟩ := mem_map.mp hplace
      exact haft oth hoth
    · intro place hplace lat hlat
      rcases mem_append.mp hlat with hlat | hlat
      · obtain rfl := mem_singleton.mp hlat
        exact hbef place hplace
      · exact hord.2.2 place hplace lat hlat
  · rw [Consumer.send, sentPlaces_sent]
    intro place hplace
    rcases mem_snoc.mp hplace with hplace | rfl
    · exact h.sentBefore place hplace
    · have hin : call.place ∈ range s.submitted.length := h.located.subset (by simp)
      exact mem_range.mp hin
  · rw [Consumer.send, hcalls, map_append, nodup_append]
    refine ⟨h.keys, by simp, fun a ha b hb heq => hnew ?_⟩
    obtain rfl : b = s.nextCall := mem_singleton.mp hb
    exact heq ▸ ha
  · rw [Consumer.send, hcalls, map_append]
    intro id hid
    rcases mem_snoc.mp hid with hid | rfl
    · exact Nat.lt_succ_of_lt (h.fresh id hid)
    · exact Nat.lt_succ_self s.nextCall
  · show s.inFlight + 1 = _
    rw [Consumer.send, hcalls, length_append, h.count]
    rfl
  · exact hslot

/-- The first call that waits is at hand. -/
theorem next {rest : List (OutgoingCall α)} (h : s.Books out) (hwait : s.waiting = call :: rest) :
    Books { s with waiting := rest } (call :: out) := by
  refine ⟨?_, ?_, h.sentBefore, h.keys, h.fresh, h.count, h.within⟩
  · refine Perm.trans (Perm.append_left _ ?_) h.located
    simp only [hwait, map_append, map_cons, cons_append]
    exact @perm_middle _ _ (rest.map (·.place) ++ (s.calls.map Prod.snd).map (·.place)) _
  · have hord := h.ordered
    rw [hwait] at hord
    exact hord.sublist ((sublist_cons_self _ _).append_left _)

theorem sendNext {rest : List (OutgoingCall α)} (h : s.Books out) (hwait : s.waiting = call :: rest) (hslot : s.inFlight < s.limit) :
    (s.sendNext call rest).Books out := by
  have hord := h.ordered
  rw [hwait, map_cons, pairwise_append, pairwise_cons] at hord
  refine (h.next hwait).send hslot ?_ ?_
  · intro place hplace
    exact hord.2.2 place hplace _ mem_cons_self
  · intro oth hoth
    exact hord.2.1.1 _ (mem_map_of_mem hoth)

/-- Calls that wait are taken out. -/
theorem unwait (h : s.Books out) (p : OutgoingCall α → Bool) :
    Books { s with waiting := s.waiting.filter fun call => !p call } (s.waiting.filter p ++ out) := by
  refine ⟨?_, ?_, h.sentBefore, h.keys, h.fresh, h.count, h.within⟩
  · refine Perm.trans (Perm.append_left _ ((Perm.map _ ?_))) h.located
    have hsplit : (s.waiting.filter (fun call => !p call) ++ s.waiting.filter p).Perm s.waiting :=
      perm_append_comm.trans (filter_append_perm p s.waiting)
    refine Perm.trans ?_ ((hsplit.append_right _).append_right _)
    rw [append_assoc, append_assoc, append_assoc]
    exact Perm.append_left _ (perm_append_comm_assoc _ _ _)
  · exact h.ordered.sublist ((Sublist.map _ filter_sublist).append_left _)

/-- A call in flight leaves the table, and its slot is free. -/
theorem free {id : Nat} (h : s.Books out) (hget : Assoc.get? s.calls id = some call) : (s.free id).Books (call :: out) := by
  have herase : (erase s.calls id ++ [(id, call)]).Perm s.calls := erase_perm h.keys hget
  refine ⟨?_, h.ordered, h.sentBefore, ?_, ?_, ?_, ?_⟩
  · refine Perm.trans (Perm.append_left _ (Perm.map _ ?_)) h.located
    refine Perm.trans ?_ (((herase.map Prod.snd).append_left s.waiting).append_right out)
    rw [map_append, append_assoc, append_assoc, append_assoc]
    exact Perm.refl _
  · exact h.keys.sublist ((erase_sublist _ _).map Prod.fst)
  · intro oth hoth
    exact h.fresh oth (((erase_sublist _ _).map Prod.fst).subset hoth)
  · have hlen := herase.length_eq
    rw [length_append, length_singleton] at hlen
    have hcnt := h.count
    simp only [Consumer.free]
    omega
  · have hwithin := h.within
    simp only [Consumer.free]
    omega

end Books

end Consumer

end PiBridge.Chord.Remote
