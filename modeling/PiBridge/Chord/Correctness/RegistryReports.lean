import PiBridge.Chord.Correctness.RegistryTables
import Mathlib.Data.List.Nodup

/-!
# `Chord.Correctness.RegistryReports` — each failure and each conflict is reported once per episode

Whatever a registry reports about, a contribution, its composition, the mapping of a version, or a conflict, has an
outcome each time it is evaluated. An episode is a run of the same bad outcome; `Tally` counts the episodes and the
reports of a log. Every step keeps the two equal (`Tracked`).
-/

namespace PiBridge.Chord

open Lib List Function RegistryEvent

variable {V ε Fn : Type}

/-! ## Outcomes and reports of a log -/

/-- The outcome an event is of what a report may be about. -/
def RegistryEvent.outcome (about : Subject) : RegistryEvent V ε Fn → Option Out
  | .built c out => if about = .contribution c then some out else none
  | .composed _ conflicts =>
    match about with
    | .composition => some .none
    | .conflict key => some (if key ∈ conflicts then .failed else .none)
    | _ => none
  | .threw => if about = .composition then some .failed else none
  | .unserved => if about = .composition then some .none else none
  | .mapped version out => if about = .mapping version then some out else none
  | .reported _ _ => none

/-- Whether an event reports it. -/
def RegistryEvent.reports (about : Subject) : RegistryEvent V ε Fn → Bool
  | .reported about' _ => about' = about
  | _ => false

/-- The last outcome of a log, and how many episodes and reports it has. -/
structure Tally where
  last : Out
  episodes : Nat
  reports : Nat

/-- An outcome: an episode begins with a bad one that is not the last. -/
def Tally.outcome (t : Tally) (out : Out) : Tally :=
  { t with last := out, episodes := if out ≠ .none ∧ out ≠ t.last then t.episodes + 1 else t.episodes }

def Tally.step (about : Subject) (t : Tally) (event : RegistryEvent V ε Fn) : Tally :=
  match event.outcome about with
  | some out => t.outcome out
  | none => if event.reports about then { t with reports := t.reports + 1 } else t

def tally (about : Subject) (log : List (RegistryEvent V ε Fn)) : Tally := log.foldl (Tally.step about) ⟨.none, 0, 0⟩

theorem tally_append (about : Subject) (log more : List (RegistryEvent V ε Fn)) :
    tally about (log ++ more) = more.foldl (Tally.step about) (tally about log) := foldl_append

/-! ## The invariant -/

/-- The outcome a registry stands at. -/
def Registry.standing (s : Registry V ε Fn) : Subject → Out
  | .contribution c => (s.states c).out
  | .composition => if s.failure.isSome then .failed else .none
  | .mapping version => if (s.values version).mapFailure.isSome then .failed else .none
  | .conflict key => if key ∈ s.conflicts then .failed else .none

/-- **Reported once per episode.** -/
def Tracked (s : Registry V ε Fn) : Prop :=
  ∀ about, (tally about s.log).last = s.standing about ∧ (tally about s.log).reports = (tally about s.log).episodes

variable {s' : Registry V ε Fn}

theorem Tracked.of_eq {s : Registry V ε Fn} (h : Tracked s) (hlog : s'.log = s.log) (hstand : ∀ about, s'.standing about = s.standing about) :
    Tracked s' := by
  intro about
  rw [hlog, hstand]
  exact h about

/-- The reports of an evaluation: one where it begins an episode. -/
def Reported (s : Registry V ε Fn) (about : Subject) (out : Out) (reports : List (RegistryEvent V ε Fn)) : Prop :=
  if out ≠ .none ∧ out ≠ s.standing about then ∃ error, reports = [.reported about error] else reports = []

theorem Reported.fine (s : Registry V ε Fn) (about : Subject) : Reported s about .none [] := by
  rw [Reported, if_neg fun hbegins => hbegins.1 rfl]

/-- **One evaluation.** -/
theorem Tracked.evaluate {s : Registry V ε Fn} (h : Tracked s) (ev : RegistryEvent V ε Fn) (about : Subject) (out : Out)
    (reports : List (RegistryEvent V ε Fn)) (hlog : s'.log = s.log ++ ev :: reports) (hrep : Reported s about out reports)
    (houtcome : ∀ about', ev.outcome about' = if about' = about then some out else none)
    (hreports : ∀ about', ev.reports about' = false)
    (hstand : ∀ about', s'.standing about' = if about' = about then out else s.standing about') : Tracked s' := by
  intro about'
  obtain ⟨hlast, hcnt⟩ := h about'
  rw [hlog, tally_append, foldl_cons, Tally.step, houtcome, hstand]
  unfold Reported at hrep
  by_cases habout : about' = about
  · subst habout
    rw [if_pos rfl, if_pos rfl]
    dsimp only
    split at hrep
    · rename_i hbegins
      obtain ⟨err, rfl⟩ := hrep
      have hreport : reports about' (.reported about' err : RegistryEvent V ε Fn) = true := by simp [reports]
      have hno : outcome about' (.reported about' err : RegistryEvent V ε Fn) = none := rfl
      rw [foldl_cons, foldl_nil, Tally.step, hno]
      rw [if_pos hreport, Tally.outcome, if_pos (by rw [hlast]; exact hbegins)]
      exact ⟨rfl, congrArg (· + 1) hcnt⟩
    · rename_i hstays
      rw [hrep, foldl_nil, Tally.outcome, if_neg (by rw [hlast]; exact hstays)]
      exact ⟨rfl, hcnt⟩
  · rw [if_neg habout, if_neg habout, hreports]
    split at hrep
    · obtain ⟨err, rfl⟩ := hrep
      have hreport : reports about' (.reported about err : RegistryEvent V ε Fn) = false := by
        simpa [reports] using fun heq => habout heq.symm
      have hno : outcome about' (.reported about err : RegistryEvent V ε Fn) = none := rfl
      rw [foldl_cons, foldl_nil, Tally.step, hno]
      dsimp only
      rw [if_neg (by rw [hreport]; exact Bool.false_ne_true)]
      exact ⟨hlast, hcnt⟩
    · rw [hrep]
      exact ⟨hlast, hcnt⟩

theorem Tracked.new (name : Text) (raw : RegistryContribution → Except ε V) : Tracked (Registry.new name raw : Registry V ε Fn) := by
  intro about
  cases about <;> exact ⟨rfl, rfl⟩

/-! ## A composition -/

/-- The reports of new conflicts. -/
def conflictReports (name : Text) (conflicts : Assoc Text RegistryConflict) : List (RegistryEvent V ε Fn) :=
  conflicts.map fun each => .reported (.conflict each.1) (.conflict name each.2.message each.2.plugins)

theorem foldl_conflictReports (name : Text) (about : Subject) (cfs : Assoc Text RegistryConflict) (t : Tally) :
    (conflictReports name cfs : List (RegistryEvent V ε Fn)).foldl (Tally.step about) t =
      { t with reports := t.reports + cfs.countP fun each => decide (Subject.conflict each.1 = about) } := by
  induction cfs generalizing t with
  | nil => rfl
  | cons each rest ih =>
    have hstep : Tally.step about t (.reported (.conflict each.1) (.conflict name each.2.message each.2.plugins) : RegistryEvent V ε Fn) =
        if Subject.conflict each.1 = about then { t with reports := t.reports + 1 } else t := by
      simp [Tally.step, outcome, reports]
    show (conflictReports name rest).foldl (Tally.step about) _ = _
    rw [hstep, ih, countP_cons]
    split
    · rename_i heq
      simp [heq, Nat.add_assoc, Nat.add_comm 1]
    · rename_i hne
      simp [hne]

theorem nodup_conflicts (rps : List RegistryConflict) (cfs : Assoc Text RegistryConflict)
    (h : (cfs.map Prod.fst).Nodup) :
    ((rps.foldl (fun cfs conflict => Assoc.set cfs conflict.key conflict) cfs).map Prod.fst).Nodup := by
  induction rps generalizing cfs with
  | nil => exact h
  | cons conflict rest ih => exact ih _ (Assoc.nodup_keys_set h _ _)

/-- A conflict that was not reported is, once. -/
theorem countP_newConflicts {cfs : Assoc Text RegistryConflict} (hnd : (cfs.map Prod.fst).Nodup) (reported : List Text)
    (key : Text) : ((cfs.filter fun each => each.1 ∉ reported).countP fun each => decide (Subject.conflict each.1 = .conflict key)) =
      if key ∈ cfs.map Prod.fst ∧ key ∉ reported then 1 else 0 := by
  have hcnt : (cfs.filter fun each => each.1 ∉ reported).countP (fun each => decide (Subject.conflict each.1 = .conflict key)) =
      ((cfs.filter fun each => each.1 ∉ reported).map Prod.fst).count key := by
    rw [count, countP_map]
    congr 1
    funext each
    exact Bool.eq_iff_iff.mpr (by simp)
  have hkeys : (cfs.filter fun each => each.1 ∉ reported).map Prod.fst = (cfs.map Prod.fst).filter (· ∉ reported) := by
    rw [filter_map]
    rfl
  rw [hcnt, hkeys]
  split
  · rename_i hnew
    exact count_eq_one_of_mem (hnd.filter _) (mem_filter.mpr ⟨hnew.1, by simpa using hnew.2⟩)
  · rename_i hold
    refine count_eq_zero.mpr fun hmem => hold ?_
    obtain ⟨hmem, hnot⟩ := mem_filter.mp hmem
    exact ⟨hmem, by simpa using hnot⟩

variable {code : PluginCode V ε Fn} {s : Registry V ε Fn} {prov : Provider Fn}

/-- A composition that gives a value ends the episode of a failure, and begins those of its new conflicts. -/
theorem Tracked.compose (h : Tracked s) (good : Good V Fn) {cfs : Assoc Text RegistryConflict}
    (hnd : (cfs.map Prod.fst).Nodup)
    (hlog : s'.log = s.log ++ .composed good (cfs.map Prod.fst) :: conflictReports s.name (cfs.filter fun each => each.1 ∉ s.conflicts))
    (hstates : s'.states = s.states) (hvals : s'.values = s.values) (hfails : s'.failure = none)
    (hconflicts : s'.conflicts = cfs.map Prod.fst) : Tracked s' := by
  intro about
  obtain ⟨hlast, hcnt⟩ := h about
  rw [hlog, tally_append, foldl_cons, foldl_conflictReports]
  cases about with
  | contribution c =>
    have hno : ∀ each : Text × RegistryConflict, decide (Subject.conflict each.1 = .contribution c) = false := fun _ => by simp
    simp only [hno, countP_false]
    refine ⟨hlast.trans ?_, hcnt⟩
    show (s.states c).out = (s'.states c).out
    rw [hstates]
  | mapping ver =>
    have hno : ∀ each : Text × RegistryConflict, decide (Subject.conflict each.1 = .mapping ver) = false := fun _ => by simp
    simp only [hno, countP_false]
    refine ⟨hlast.trans ?_, hcnt⟩
    show (if (s.values ver).mapFailure.isSome then Out.failed else .none) = if (s'.values ver).mapFailure.isSome then .failed else .none
    rw [hvals]
  | composition =>
    have hno : ∀ each : Text × RegistryConflict, decide (Subject.conflict each.1 = .composition) = false := fun _ => by simp
    simp only [hno, countP_false]
    refine ⟨?_, hcnt⟩
    show Out.none = if s'.failure.isSome then .failed else .none
    rw [hfails]
    rfl
  | conflict key =>
    rw [countP_newConflicts hnd]
    have hstand : s.standing (.conflict key) = if key ∈ s.conflicts then .failed else .none := rfl
    have hstand' : s'.standing (.conflict key) = if key ∈ cfs.map Prod.fst then .failed else .none := by
      rw [← hconflicts]
      rfl
    rw [hstand] at hlast
    rw [hstand']
    show ((tally (.conflict key) s.log).outcome (if key ∈ cfs.map Prod.fst then .failed else .none)).last = _ ∧
      ((tally (.conflict key) s.log).outcome (if key ∈ cfs.map Prod.fst then .failed else .none)).reports + _ =
        ((tally (.conflict key) s.log).outcome (if key ∈ cfs.map Prod.fst then .failed else .none)).episodes
    unfold Tally.outcome
    rw [hlast, hcnt]
    by_cases hnow : key ∈ cfs.map Prod.fst <;> by_cases hbef : key ∈ s.conflicts <;> simp [hnow, hbef]

theorem Tracked.composeTable (h : Tracked s) (tbl : List (TableEntry V)) : Tracked (s.composeTable code prov tbl) := by
  unfold Registry.composeTable
  split
  · rename_i rps err hcmp
    have hstand : s.standing .composition = if s.failure.isSome then .failed else .none := rfl
    dsimp only
    split
    · -- A throw begins an episode unless the last composition threw.
      rename_i hnone
      refine h.evaluate .threw .composition .failed [_] (append_assoc _ [_] [_]) ?_ (fun _ => rfl) (fun _ => rfl)
        fun about => by cases about <;> rfl
      rw [Reported, hstand, if_pos (by cases hfails : s.failure <;> simp [hfails] at hnone ⊢)]
      exact ⟨_, rfl⟩
    · rename_i hsome
      refine h.evaluate .threw .composition .failed [] rfl ?_ (fun _ => rfl) (fun _ => rfl)
        fun about => by cases about <;> rfl
      rw [Reported, hstand, if_neg (by cases hfails : s.failure <;> simp [hfails] at hsome ⊢)]
  · rename_i rps v hcmp
    have hnd := nodup_conflicts rps [] nodup_nil
    exact h.compose ⟨v, s.contributions, prov, tbl⟩ hnd (append_assoc _ [_] _) rfl rfl rfl rfl

/-! ## A table -/

variable [DecidableEq Fn]

/-- A contribution's report where it is left out otherwise than last time. -/
theorem Tracked.entryOf (h : Tracked s) (c : RegistryContribution) : Tracked (s.entryOf code prov c).1 := by
  have hout : (c.entry code prov (s.states c)).2.out = (c.entry code prov (s.states c)).1.out := RegistryContribution.entry_out
  have hstand : ∀ st log about, Registry.standing { s with states := update s.states c st, log := log } about =
      if about = .contribution c then st.out else s.standing about := by
    intro st log about
    cases about with
    | contribution c' =>
      show (update s.states c st c').out = _
      by_cases hc : c' = c
      · subst hc
        rw [update_self, if_pos rfl]
      · rw [update_of_ne hc, if_neg (by simpa using hc)]
        rfl
    | _ => rfl
  unfold Registry.entryOf
  dsimp only
  split
  · rename_i err herr
    have hbad : (c.entry code prov (s.states c)).2.out ≠ .none := by
      rw [hout]
      intro heq
      cases hgiven : (c.entry code prov (s.states c)).1 with
      | entry e =>
        rw [hgiven] at herr
        cases herr
      | _ =>
        rw [hgiven] at heq
        cases heq
    split
    · rename_i hchgd
      refine h.evaluate (.built c (c.entry code prov (s.states c)).2.out) (.contribution c) _ [_] (append_assoc _ [_] [_]) ?_
        (fun _ => rfl) (fun _ => rfl) fun about => hstand _ _ about
      rw [Reported, if_pos ⟨hbad, Ne.symm hchgd⟩]
      exact ⟨_, rfl⟩
    · rename_i hsame
      refine h.evaluate (.built c (c.entry code prov (s.states c)).2.out) (.contribution c) _ [] rfl ?_
        (fun _ => rfl) (fun _ => rfl) fun about => hstand _ _ about
      rw [Reported, if_neg fun hbegins => hsame (Ne.symm hbegins.2)]
  · rename_i hnone
    have hgood : (c.entry code prov (s.states c)).2.out = .none := by
      rw [hout]
      cases hgiven : (c.entry code prov (s.states c)).1 with
      | entry e => rfl
      | _ =>
        rw [hgiven] at hnone
        cases hnone
    refine h.evaluate (.built c (c.entry code prov (s.states c)).2.out) (.contribution c) _ [] rfl ?_ (fun _ => rfl) (fun _ => rfl)
      fun about => hstand _ _ about
    rw [Reported, if_neg fun hbegins => hbegins.1 hgood]

theorem Tracked.buildFrom (h : Tracked s) (cbs : List RegistryContribution) :
    Tracked (Registry.buildFrom code prov s cbs).1 := by
  induction cbs generalizing s with
  | nil => exact h
  | cons c rest ih => exact ih (h.entryOf c)

theorem Tracked.recompose (h : Tracked s) : Tracked (s.recompose code prov) := by
  have hbuilt : Tracked (Registry.buildFrom code prov { s with dirty := false } s.contributions).1 :=
    Tracked.buildFrom (s := { s with dirty := false }) (fun about => h about) s.contributions
  unfold Registry.recompose
  dsimp only
  split
  · exact hbuilt
  · exact hbuilt.composeTable _

/-! ## A read -/

theorem Tracked.start (h : Tracked s) : Tracked (s.start code).1 := by
  unfold Registry.start
  split
  · exact h
  · dsimp only
    split
    · exact h.recompose
    · exact h

omit [DecidableEq Fn] in
/-- A mapping that is made, that throws, or that is dropped. -/
theorem Tracked.mapping (h : Tracked s) (ver : Nat) (v : ValueState V ε Fn) {rps : List (RegistryEvent V ε Fn)}
    (hlog : s'.log = s.log ++ .mapped ver (if v.mapFailure.isSome then .failed else .none) :: rps)
    (hrep : Reported s (.mapping ver) (if v.mapFailure.isSome then .failed else .none) rps)
    (hstates : s'.states = s.states) (hfails : s'.failure = s.failure) (hconflicts : s'.conflicts = s.conflicts)
    (hvals : s'.values = Function.update s.values ver v) : Tracked s' := by
  refine h.evaluate (.mapped ver (if v.mapFailure.isSome then .failed else .none)) (.mapping ver) _ rps hlog hrep
    (fun _ => rfl) (fun _ => rfl) fun about => ?_
  cases about with
  | contribution c =>
    show (s'.states c).out = _
    rw [hstates]
    rfl
  | composition =>
    show (if s'.failure.isSome then Out.failed else .none) = _
    rw [hfails]
    rfl
  | conflict key =>
    show (if key ∈ s'.conflicts then Out.failed else .none) = _
    rw [hconflicts]
    rfl
  | mapping ver' =>
    show (if (s'.values ver').mapFailure.isSome then Out.failed else .none) = _
    rw [hvals]
    by_cases hver : ver' = ver
    · subst hver
      rw [update_self, if_pos rfl]
    · rw [update_of_ne hver]
      exact (if_neg (by simpa using hver)).symm

theorem Tracked.mapSource (h : Tracked s) (ver : Nat) (v : ValueState V ε Fn)
    (hval : v.mapFailure = (s.values ver).mapFailure) (src : V) (map : Fn) :
    Tracked (s.mapSource code ver v src map) := by
  unfold Registry.mapSource
  dsimp only
  split
  · exact h.mapping ver { v with mapFailure := none } rfl (.fine s _) rfl rfl rfl rfl
  · split
    · -- Nothing is evaluated.
      refine h.of_eq rfl fun about => ?_
      cases about with
      | mapping ver' =>
        show (if (update s.values ver v ver').mapFailure.isSome then Out.failed else .none) = _
        by_cases hver : ver' = ver
        · subst hver
          rw [update_self, hval]
          rfl
        · rw [update_of_ne hver]
          rfl
      | _ => rfl
    · cases code.adapt map src with
      | ok res => exact h.mapping ver ⟨_, none⟩ rfl (.fine s _) rfl rfl rfl rfl
      | error error =>
        have hstand : s.standing (.mapping ver) = if v.mapFailure.isSome then .failed else .none := by
          rw [hval]
          rfl
        dsimp only
        split
        · rename_i hnone
          refine h.mapping ver { v with mapFailure := some ⟨src, map, error⟩ } (append_assoc _ [_] [_]) ?_ rfl rfl rfl rfl
          rw [Reported, hstand, if_pos (by cases hfails : v.mapFailure <;> simp [hfails] at hnone ⊢)]
          exact ⟨_, rfl⟩
        · rename_i hsome
          refine h.mapping ver { v with mapFailure := some ⟨src, map, error⟩ } rfl ?_ rfl rfl rfl rfl
          rw [Reported, hstand, if_neg (by cases hfails : v.mapFailure <;> simp [hfails] at hsome ⊢)]

theorem Tracked.valueStart (h : Tracked s) (ver : Nat) : Tracked (s.valueStart code ver).1 := by
  unfold Registry.valueStart
  split
  · exact h.start
  · split
    · exact h.start
    · split
      · exact h
      · rename_i map _
        have hsta : Tracked (s.start code).1 := h.start
        unfold Registry.mappedStart
        dsimp only
        split
        · exact hsta
        · exact hsta.mapSource ver ((s.start code).1.keptValue ver) rfl _ _

/-- **Every step reports what begins an episode, once.** -/
theorem Tracked.step (h : Tracked s) (turn : RegistryTurn V ε Fn) : Tracked (s.step code turn) := by
  cases turn with
  | serve prov | add c => exact h.of_eq rfl fun about => by cases about <;> rfl
  | unserve =>
    refine h.evaluate .unserved .composition .none [] rfl (.fine s _) (fun _ => rfl) (fun _ => rfl)
      fun about => ?_
    cases about <;> rfl
  | remove c =>
    unfold Registry.step Registry.remove
    dsimp only
    split
    · exact h.of_eq rfl fun about => by cases about <;> rfl
    · exact h
  | change c raw =>
    have hstand : ∀ about, (s.setState c { s.states c with raw := raw }).standing about = s.standing about := by
      intro about
      cases about with
      | contribution c' =>
        show (update s.states c { s.states c with raw := raw } c').out = (s.states c').out
        by_cases hc : c' = c
        · subst hc
          rw [update_self]
        · rw [update_of_ne hc]
      | _ => rfl
    unfold Registry.step Registry.change
    dsimp only
    split
    · exact h.of_eq rfl fun about => (by cases about <;> rfl : _ = (s.setState c { s.states c with raw := raw }).standing about).trans (hstand about)
    · exact h.of_eq rfl hstand
  | read ver => exact h.valueStart ver
  | dropMapping ver => exact h.mapping ver ⟨none, none⟩ rfl (.fine s _) rfl rfl rfl rfl

end PiBridge.Chord
