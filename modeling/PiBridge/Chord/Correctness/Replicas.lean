import PiBridge.Chord.Correctness.CodecStream
import PiBridge.Chord.Correctness.PendingFold
import PiBridge.Chord.Remote.Followed

/-!
# `Chord.Correctness.Replicas` — a replica follows its member

Everything in flight is read, one after the other, and ends aligned with the encoder (`Arrives`). What is pending then leads
from the value that is told so far to the source's (`Owes`); for a replica told of a failure it begins with a replacement.
-/

namespace PiBridge.Chord.Remote

open List Option Lib

variable {v v' w : Json} {op : Op} {ops : List Op} {fold fold' : Folding} {pending : PendingOps}

theorem valid_of_applyTyped (h : applyTyped v ops = some w) : ∀ op ∈ ops, op.isValid = true := by
  induction ops generalizing v with
  | nil => exact forall_mem_nil _
  | cons op ops ih =>
    obtain ⟨u, hu, hrest⟩ := bind_eq_some_iff.mp h
    refine forall_mem_cons.mpr ⟨?_, ih hrest⟩
    by_contra hnot
    exact nomatch hu.symm.trans (if_neg hnot)

/-! ## What is pending after a failure -/

/-- What is pending replaces the root first. -/
def Based (pending : PendingOps) : Prop := ∀ ops, pending.take = .ops ops → isBase ops = true

theorem isBase_append (h : isBase ops = true) (more : List Op) : isBase (ops ++ more) = true := by
  cases ops with
  | nil => exact nomatch h
  | cons op ops => exact h

/-- The leaf operation that another is merged into is not the replacement. -/
theorem isBase_leaf {p : Path} (h : Folded v w fold) (hbase : isBase fold.ops = true) : isBase (fold.leaf p op).ops = true := by
  unfold Folding.leaf
  split
  · rename_i i hi
    obtain ⟨prev, f, hprev, hleaf, -⟩ := h.leaves p i hi
    split
    · cases hops : fold.ops with
      | nil =>
        rw [hops] at hbase
        exact nomatch hbase
      | cons fst rest =>
        rw [hops] at hbase hprev
        cases i with
        | zero =>
          cases hprev
          cases hleaf <;> exact nomatch hbase
        | succ i => exact hbase
    · exact isBase_append hbase _
  · exact isBase_append hbase _

theorem isBase_step (h : Folded v w fold) (hbase : isBase fold.ops = true) : isBase (fold.step op).ops = true := by
  cases op with
  | r val => rfl
  | a path sfx => exact isBase_leaf h hbase
  | s path val =>
    unfold Folding.step
    dsimp only
    split
    · exact isBase_leaf h hbase
    · exact isBase_append hbase _
  | d _ | t _ _ | p _ _ _ _ | m _ _ => exact isBase_append hbase _

theorem isBase_fold (h : Folded v w fold) (hbase : isBase fold.ops = true) (hrun : applyTyped w ops = some v')
    (hfold : fold.fold ops = some fold') : isBase fold'.ops = true := by
  induction ops generalizing fold w with
  | nil =>
    cases hfold
    exact hbase
  | cons op ops ih =>
    obtain ⟨u, hu, hrest⟩ := bind_eq_some_iff.mp hrun
    unfold Folding.fold at hfold
    split at hfold
    · cases hfold
    · exact ih (h.step hu) (isBase_step h hbase) hrest hfold

theorem based_push (h : Pends v w pending) (hbased : Based pending) (hrun : applyTyped w ops = some v') : Based (pending.push ops) := by
  have hfolded {fold? : Option Folding} (hbase : ∀ fold, fold? = some fold → isBase fold.ops = true) : Based (.folded fold?) := by
    cases fold? with
    | none =>
      rintro _ ⟨⟩
    | some fold =>
      rintro _ ⟨⟩
      exact hbase fold rfl
  unfold PendingOps.push
  split
  · exact hbased
  · rintro _ ⟨⟩
    rfl
  · cases pending with
    | empty => cases hbased [] rfl
    | batch ops₀ =>
      refine hfolded fun fold' hfold' => ?_
      obtain ⟨fold, hfold, hrest⟩ := bind_eq_some_iff.mp hfold'
      refine isBase_fold ((Folded.start v).fold h hfold) ?_ hrun hrest
      have hbase := hbased ops₀ rfl
      cases ops₀ with
      | nil => cases hbase
      | cons fst ops₀ =>
        cases fst with
        | r val =>
          have hrun₀ : applyTyped val ops₀ = some w := h
          unfold Folding.fold at hfold
          split at hfold
          · cases hfold
          · exact isBase_fold ((Folded.start v).step rfl) rfl hrun₀ hfold
        | s _ _ | d _ | a _ _ | t _ _ | p _ _ _ _ | m _ _ => cases hbase
    | folding fold => exact hfolded fun fold' hfold' => isBase_fold h (hbased _ rfl) hrun hfold'
    | replace =>
      rintro _ ⟨⟩

theorem typed_of_take (h : Pends v w pending) (htake : pending.take = .ops ops) : applyTyped v ops = some w := by
  cases pending with
  | empty =>
    cases htake
    exact congrArg some h
  | batch _ =>
    cases htake
    exact h
  | folding _ =>
    cases htake
    exact Folded.run h
  | replace => exact nomatch htake

/-! ## What is in flight -/

/-- What is in flight is read without an error, and leaves the replica with `told` and its decoder aligned with the encoder. -/
inductive Arrives (enc : Encoder) (told : Option Json) : Decoder → Option Json → List MemberChange → Prop where
  | nil {dec : Decoder} : Aligned enc dec → Arrives enc told dec told []
  | failed {dec : Decoder} {replica : Option Json} {wire : List MemberChange} :
      Arrives enc told dec none wire → Arrives enc told dec replica (.failed :: wire)
  | ops {dec dec' : Decoder} {replica : Option Json} {wire : List MemberChange} {tuples : List Tuple} {ops : List Op} {value : Json} :
      dec.decode tuples = some (dec', ops) → Followed.decoded replica ops = some value → Arrives enc told dec' (some value) wire →
      Arrives enc told dec replica (.ops tuples :: wire)

variable {enc : Encoder} {told replica : Option Json} {dec : Decoder} {wire : List MemberChange}

theorem Arrives.sendFailure (h : Arrives enc told dec replica wire) : Arrives enc none dec replica (wire ++ [.failed]) := by
  induction h with
  | nil halgn => exact .failed (.nil halgn)
  | failed _ ih => exact .failed ih
  | ops hdec hval _ ih => exact .ops hdec hval ih

theorem Arrives.send (h : Arrives enc told dec replica wire) (hvald : ∀ op ∈ ops, op.isValid = true)
    (hval : Followed.decoded told ops = some v) :
    Arrives (enc.encode ops).1 (some v) dec replica (wire ++ [.ops (enc.encode ops).2]) := by
  induction h with
  | nil halgn =>
    obtain ⟨dec', prev, hops, halgn', -⟩ := decodeFrom_encodeFrom halgn (previousAligned_none none) hvald
    refine .ops ?_ hval (.nil halgn')
    exact congrArg (Option.map _) hops
  | failed _ ih => exact .failed ih
  | ops hdec hval _ ih => exact .ops hdec hval ih

/-! ## Every run -/

/-- **What holds all along**: what is told, and then what is pending, lead to the source. -/
structure Follows (m : Followed) (told : Option Json) : Prop where
  arrives : Arrives m.encoder told m.decoder m.replica m.wire
  leads : ∀ v, m.source = some v → m.failed = false ∧ Pends (told.getD .null) v m.pending ∧ (told = none → Based m.pending)
  fails : m.source = none → m.pending = .empty ∧ (m.failed = false → told = none)
  idle : m.waiting = false → m.pending = .empty ∧ m.failed = false

variable {m m' : Followed}

/-- With nothing pending, operations that lead from what is told to the source are sent. -/
theorem follows_send (harrives : Arrives m.encoder told m.decoder m.replica m.wire) (hsource : m.source = some v)
    (hfailed : m.failed = false) (hpend : m.pending = .empty) (hrun : applyTyped (told.getD .null) ops = some v)
    (hbase : told = none → isBase ops = true) : ∃ told', Follows (m.send ops) told' := by
  have hval : Followed.decoded told ops = some v := by
    cases told with
    | none => exact (if_pos (hbase rfl)).trans (applyImmutable_of_applyTyped hrun)
    | some u => exact applyImmutable_of_applyTyped hrun
  have hthere {told' : Option Json} {enc' : Encoder} {wire' : List MemberChange} (harr : Arrives enc' told' m.decoder m.replica wire')
      (htold : told' = some v) : Follows { m with encoder := enc', wire := wire' } told' := by
    refine ⟨harr, fun v' hv' => ?_, fun hnone => (nomatch hsource.symm.trans hnone), fun _ => ⟨hpend, hfailed⟩⟩
    cases hsource.symm.trans hv'
    subst htold
    refine ⟨hfailed, ?_, fun hnone => nomatch hnone⟩
    show Pends v v m.pending
    rw [hpend]
    rfl
  unfold Followed.send
  split
  · rename_i hnil
    obtain rfl := isEmpty_iff.mp hnil
    cases told with
    | none => exact nomatch hbase rfl
    | some u => exact ⟨_, hthere harrives hrun⟩
  · exact ⟨_, hthere (harrives.send (valid_of_applyTyped hrun) hval) rfl⟩

/-- **Step lemma.** -/
theorem Follows.step (h : Follows m told) {action : FollowedAction} (hstep : m.Step action m') : ∃ told', Follows m' told' := by
  unfold Followed.Step Followed.next at hstep
  cases action with
  | frame value ops free =>
    dsimp only at hstep
    split at hstep
    · rename_i hcond
      obtain ⟨hframes, hfree⟩ := Bool.and_eq_true_iff.mp hcond
      unfold Followed.frames at hframes
      cases hstep
      cases free with
      | true =>
        show ∃ told', Follows (Followed.send _ ops) told'
        obtain ⟨hpend, -⟩ := h.idle (by simpa using hfree)
        cases hsource : m.source with
        | some bef =>
          rw [hsource] at hframes
          obtain ⟨-, hpends, hbased⟩ := h.leads bef hsource
          rw [hpend] at hpends hbased
          refine follows_send h.arrives rfl rfl hpend ?_ fun hnone => nomatch hbased hnone [] rfl
          rw [show told.getD .null = bef from hpends]
          exact of_decide_eq_true hframes
        | none =>
          rw [hsource] at hframes
          obtain rfl := of_decide_eq_true hframes
          refine follows_send h.arrives rfl rfl hpend ?_ ?_
          · rfl
          · exact fun _ => rfl
      | false =>
        refine ⟨told, h.arrives, fun v hv => ?_, fun hnone => (nomatch hnone), fun hidle => (nomatch hidle)⟩
        cases hv
        refine ⟨rfl, ?_⟩
        cases hsource : m.source with
        | some bef =>
          rw [hsource] at hframes
          obtain ⟨-, hpends, hbased⟩ := h.leads bef hsource
          have hrun := of_decide_eq_true hframes
          exact ⟨pends_push hpends hrun, fun hnone => based_push hpends (hbased hnone) hrun⟩
        | none =>
          rw [hsource] at hframes
          obtain rfl := of_decide_eq_true hframes
          refine ⟨rfl, fun _ => ?_⟩
          rintro _ ⟨⟩
          rfl
    · exact nomatch hstep
  | fails free =>
    dsimp only at hstep
    split at hstep
    · exact nomatch hstep
    · cases hstep
      cases free with
      | true => exact ⟨none, h.arrives.sendFailure, fun v hv => (nomatch hv), fun _ => ⟨rfl, fun _ => rfl⟩, fun _ => ⟨rfl, rfl⟩⟩
      | false => exact ⟨told, h.arrives, fun v hv => (nomatch hv), fun _ => ⟨rfl, fun hfailed => (nomatch hfailed)⟩, fun hidle => (nomatch hidle)⟩
  | slotFreed =>
    dsimp only at hstep
    split at hstep
    · obtain ⟨ops, hops, hent⟩ := map_eq_some_iff.mp hstep
      cases hsource : m.source with
      | some val =>
        obtain ⟨hfailed, hpends, hbased⟩ := h.leads val hsource
        rw [hfailed, if_neg Bool.false_ne_true, hsource] at hent
        subst hent
        have htaken : applyTyped (told.getD .null) ops = some val ∧ (told = none → isBase ops = true) := by
          split at hops
          · rename_i htake
            cases hops
            exact ⟨typed_of_take hpends htake, fun hnone => hbased hnone _ htake⟩
          · rw [hsource] at hops
            cases hops
            exact ⟨rfl, fun _ => rfl⟩
        exact follows_send h.arrives rfl rfl rfl htaken.1 htaken.2
      | none =>
        obtain ⟨hpend, htold⟩ := h.fails hsource
        rw [hpend] at hops
        cases hops
        subst hent
        split
        · exact ⟨none, h.arrives.sendFailure, fun v hv => (nomatch hsource.symm.trans hv), fun _ => ⟨rfl, fun _ => rfl⟩, fun _ => ⟨rfl, rfl⟩⟩
        · rename_i hnot
          have hfailed := eq_false_of_ne_true hnot
          exact ⟨told, h.arrives, fun v hv => (nomatch hsource.symm.trans hv), fun _ => ⟨rfl, fun _ => htold hfailed⟩, fun _ => ⟨rfl, hfailed⟩⟩
    · exact nomatch hstep
  | receive =>
    have harrives := h.arrives
    dsimp only at hstep
    split at hstep
    · exact nomatch hstep
    · rename_i wire hwire
      rw [hwire] at harrives
      cases hstep
      cases harrives with
      | failed harr => exact ⟨told, harr, h.leads, h.fails, h.idle⟩
    · rename_i tuples wire hwire
      rw [hwire] at harrives
      cases harrives with
      | ops hdec hval harr =>
        rw [hdec, Option.bind_some, hval] at hstep
        cases hstep
        exact ⟨told, harr, h.leads, h.fails, h.idle⟩

/-- **A replica follows its member.** In every run everything sent is read without an error, a freed slot finds what to send,
    and once nothing is in flight and nothing waits the replica has what the source has, its value or its failure. -/
theorem replica_follows {value : Option Json} {actions : List FollowedAction} (hrun : Steps Followed.Step (.bound value) actions m) :
    (m.wire ≠ [] → ∃ m', m.Step .receive m') ∧ (m.waiting = true → ∃ m', m.Step .slotFreed m') ∧
      (m.wire = [] → m.waiting = false → m.replica = m.source) := by
  obtain ⟨told, h⟩ : ∃ told, Follows m told := by
    refine hrun.invariant (I := fun m => ∃ told, Follows m told) ?_ ?_
    · exact fun ⟨_, h⟩ hstep => h.step hstep
    · refine ⟨value, .nil (aligned_start _), fun v hv => ?_, fun hnone => ⟨rfl, fun _ => hnone⟩, fun _ => ⟨rfl, rfl⟩⟩
      cases hv
      exact ⟨rfl, rfl, fun hnone => (nomatch hnone)⟩
  refine ⟨fun hwire => ?_, fun hwaiting => ?_, fun hwire hwaiting => ?_⟩
  · have harrives := h.arrives
    unfold Followed.Step Followed.next
    dsimp only
    split
    · rename_i hnil
      exact absurd hnil hwire
    · exact ⟨_, rfl⟩
    · rename_i tuples wire hthere
      rw [hthere] at harrives
      cases harrives with
      | ops hdec hval _ =>
        rw [hdec, Option.bind_some, hval]
        exact ⟨_, rfl⟩
  · unfold Followed.Step Followed.next
    dsimp only
    rw [if_pos hwaiting, Followed.pendingEntry]
    cases htake : m.pending.take with
    | ops ops => exact ⟨_, rfl⟩
    | replace =>
      cases hsource : m.source with
      | some val => exact ⟨_, rfl⟩
      | none =>
        rw [(h.fails hsource).1] at htake
        exact nomatch htake
  · obtain ⟨hpend, hfailed⟩ := h.idle hwaiting
    have harrives := h.arrives
    rw [hwire] at harrives
    cases harrives
    cases hsource : m.source with
    | none => exact (h.fails hsource).2 hfailed
    | some v =>
      obtain ⟨-, hpends, hbased⟩ := h.leads v hsource
      rw [hpend] at hpends hbased
      cases hreplica : m.replica with
      | none => exact nomatch hbased hreplica [] rfl
      | some u =>
        rw [hreplica] at hpends
        exact congrArg some hpends

/-- A value waits for a slot, which finds it. -/
theorem replica_follows_queued : ∃ m : Followed, m.source = some (.bool true) ∧ m.replica = some .null ∧ ∃ m', m.Step .slotFreed m' := by
  have hframe : (Followed.bound (some .null)).Step (.frame (.bool true) [.r (.bool true)] false) _ := rfl
  exact ⟨_, rfl, rfl, (replica_follows (Steps.single hframe)).2.1 rfl⟩

end PiBridge.Chord.Remote
