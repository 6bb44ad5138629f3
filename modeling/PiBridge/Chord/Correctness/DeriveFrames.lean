import PiBridge.Chord.State.Derive
import PiBridge.Chord.Correctness.DiffExact
import PiBridge.Chord.Correctness.SameApply

/-!
# `Chord.Correctness.DeriveFrames` — the frames of a derive compose

Reads keep results (`Keeps`), marking forgets those computed from what changed (`Forgets`); both leave a sound table,
so a read returns the derive's value. A derive that awaits its frame has framed what its followers have (`Follows`),
as long as it is not marked again after a read; where it is, the frame starts from a value they never got.
-/

namespace PiBridge.Chord.State

open Lib Lib.Memo Revision List Function Batch

variable {heap : Nat → Revision} {X V ε : Type} {g : DeriveGraph X V ε} {b b' b₁ b₂ : Batch X V ε}

/-! ## Reads -/

/-- Nothing but the results changes, and those that were there stay. -/
structure Keeps (b b' : Batch X V ε) : Prop where
  rest : b' = { b with derives := b'.derives }
  framed : ∀ d, (b'.derives d).framed = (b.derives d).framed
  known : ∀ d r, b.known d = some r → b'.known d = some r

theorem Keeps.refl (b : Batch X V ε) : Keeps b b := ⟨rfl, fun _ => rfl, fun _ _ h => h⟩

theorem Keeps.trans (h : Keeps b b₁) (h' : Keeps b₁ b₂) : Keeps b b₂ := by
  refine ⟨?_, fun d => (h'.framed d).trans (h.framed d), fun d r hd => h'.known d r (h.known d r hd)⟩
  rw [h'.rest, h.rest]

theorem Keeps.sources (h : Keeps b b') : b'.sources = b.sources := by rw [h.rest]

theorem derives_setDerive_self (b : Batch X V ε) (d : Nat) (derive : Derive V ε) :
    (b.setDerive d derive).derives d = derive := update_self ..

variable {d fuel : Nat} {f : Follower (Value heap)} {nlen : Rat → Nat}

theorem derives_setDerive_ne (b : Batch X V ε) {e : Nat} (derive : Derive V ε) (h : e ≠ d) :
    (b.setDerive d derive).derives e = b.derives e := update_of_ne h ..

section

variable (b) (d)

theorem known_setDerive (derive : Derive V ε) :
    (b.setDerive d derive).known = Function.update b.known d derive.state.kept := by
  funext e
  unfold known
  by_cases h : e = d
  · subst h
    rw [derives_setDerive_self, update_self]
  · rw [derives_setDerive_ne b derive h, update_of_ne h]

theorem framed_setDerive {derive : Derive V ε} (h : derive.framed = (b.derives d).framed)
    (e : Nat) : ((b.setDerive d derive).derives e).framed = (b.derives e).framed := by
  by_cases he : e = d
  · subst he
    rw [derives_setDerive_self, h]
  · rw [derives_setDerive_ne b derive he]

theorem settle_eq (r : Except ε V) : ∃ derive : Derive V ε,
    b.settle d r = b.setDerive d derive ∧ derive.framed = (b.derives d).framed ∧ derive.state.kept = some r := by
  cases r with
  | ok v | error err => exact ⟨_, rfl, rfl, rfl⟩

theorem known_settle (r : Except ε V) : (b.settle d r).known = Function.update b.known d (some r) := by
  obtain ⟨derive, heq, -, hkept⟩ := settle_eq b d r
  rw [heq, known_setDerive, hkept]

end

theorem keeps_settle (hd : b.known d = none) (r : Except ε V) : Keeps b (b.settle d r) := by
  refine ⟨?_, fun e => ?_, fun e r' he => ?_⟩
  · obtain ⟨derive, heq, -, -⟩ := settle_eq b d r
    rw [heq]
    rfl
  · obtain ⟨derive, heq, hframed, -⟩ := settle_eq b d r
    rw [heq]
    exact framed_setDerive b d hframed e
  · have hne : e ≠ d := by
      rintro rfl
      rw [hd] at he
      cases he
    rw [known_settle, update_of_ne hne, he]

/-- What a read does: it returns a result that is kept, and touches no derive after this one. -/
structure ReadsTo (g : DeriveGraph X V ε) (d : Nat) (b : Batch X V ε) (r : Except ε V) (b' : Batch X V ε) : Prop where
  keeps : Keeps b b'
  sound : Sound g.toGraph b'.sources b'.known
  known : b'.known d = some r
  after : ∀ e, d < e → b'.known e = b.known e

/-- Inputs before `n`, read one after the other. -/
theorem readInputs_spec (read : Nat → Batch X V ε → Option (Except ε V × Batch X V ε)) (n : Nat)
    (hread : ∀ d b, d < n → Sound g.toGraph b.sources b.known → ∃ r b', read d b = some (r, b') ∧ ReadsTo g d b r b')
    {inputs : List Input} (hinputs : ∀ e, .cell e ∈ inputs → e < n) {b : Batch X V ε}
    (hsound : Sound g.toGraph b.sources b.known) :
    ∃ args b', Batch.readInputs read inputs b = some (args, b') ∧ Keeps b b' ∧ Sound g.toGraph b'.sources b'.known ∧
      peek b'.sources b'.known inputs = some args ∧ ∀ e, n ≤ e → b'.known e = b.known e := by
  induction inputs generalizing b with
  | nil => exact ⟨.ok [], b, rfl, .refl b, hsound, rfl, fun _ _ => rfl⟩
  | cons inp rest ih =>
    have hrest : ∀ e, .cell e ∈ rest → e < n := fun e he => hinputs e (mem_cons_of_mem _ he)
    cases inp with
    | source s =>
      obtain ⟨args, b', hrun, hkeep, hsound', hpeek, haft⟩ := ih hrest hsound
      refine ⟨args.map (.inl (b.sources s) :: ·), b', ?_, hkeep, hsound', ?_, haft⟩
      · rw [readInputs, hrun, Option.map_some]
      · rw [peek, hpeek, Option.map_some, hkeep.sources]
    | cell d =>
      obtain ⟨r, b₁, hrun, hto⟩ := hread d b (hinputs d mem_cons_self) hsound
      have haft₁ : ∀ e, n ≤ e → b₁.known e = b.known e := fun e he =>
        hto.after e (Nat.lt_of_lt_of_le (hinputs d mem_cons_self) he)
      cases r with
      | error err =>
        refine ⟨.error err, b₁, ?_, hto.keeps, hto.sound, ?_, haft₁⟩
        · rw [readInputs, hrun]
        · rw [peek, hto.known]
      | ok v =>
        obtain ⟨args, b', hrun', hkeep, hsound', hpeek, haft⟩ := ih hrest hto.sound
        refine ⟨args.map (.inr v :: ·), b', ?_, hto.keeps.trans hkeep, hsound', ?_, fun e he => (haft e he).trans (haft₁ e he)⟩
        · rw [readInputs, hrun]
          dsimp only
          rw [hrun', Option.map_some]
        · rw [peek, hkeep.known d _ hto.known]
          dsimp only
          rw [hpeek, Option.map_some]

/-- **A read returns, and keeps what it computed.** -/
theorem read_spec (hfuel : d < fuel) (hsound : Sound g.toGraph b.sources b.known) :
    ∃ r b', Batch.read g fuel d b = some (r, b') ∧ ReadsTo g d b r b' := by
  induction fuel generalizing d b with
  | zero => exact absurd hfuel (Nat.not_lt_zero d)
  | succ fuel ih =>
    cases hst : (b.derives d).state with
    | clean v =>
      refine ⟨.ok v, b, by rw [Batch.read, hst], .refl b, hsound, ?_, fun _ _ => rfl⟩
      rw [known, hst, DeriveState.kept]
    | failed err =>
      refine ⟨.error err, b, by rw [Batch.read, hst], .refl b, hsound, ?_, fun _ _ => rfl⟩
      rw [known, hst, DeriveState.kept]
    | dirty =>
      have hnone : b.known d = none := by rw [known, hst, DeriveState.kept]
      obtain ⟨args, b₁, hrun, hkeep, hsound₁, hpeek, haft⟩ :=
        readInputs_spec (g := g) (read g fuel) d
          (fun e b he hb => ih (Nat.lt_of_lt_of_le he (Nat.lt_succ_iff.mp hfuel)) hb) (g.earlier d) hsound
      have hnone₁ : b₁.known d = none := (haft d (Nat.le_refl d)).trans hnone
      have hstore := hsound₁.store hnone₁ hpeek
      refine ⟨_, b₁.settle d (result g.toGraph d args), by rw [Batch.read, hst]; dsimp only; rw [hrun, Option.map_some],
        hkeep.trans (keeps_settle hnone₁ _), ?_, ?_, fun e he => ?_⟩
      · rw [known_settle, (keeps_settle hnone₁ _).sources]
        exact hstore
      · rw [known_settle, update_self]
      · rw [known_settle, update_of_ne (Nat.ne_of_gt he)]
        exact haft e (Nat.le_of_lt he)

theorem valueOf_spec (hsound : Sound g.toGraph b.sources b.known) (d : Nat) :
    ∃ r b', b.valueOf g d = some (r, b') ∧ ReadsTo g d b r b' ∧ eval g.toGraph b.sources d = some r := by
  obtain ⟨r, b', hrun, hto⟩ := read_spec (Nat.lt_succ_self d) hsound
  refine ⟨r, b', hrun, hto, ?_⟩
  rw [← hto.keeps.sources]
  exact hto.sound.eval hto.known

/-! ## Marking -/

theorem mark_sources (b : Batch X V ε) (d : Nat) : (b.mark d).sources = b.sources := by
  unfold mark
  split <;> rfl

theorem known_mark (b : Batch X V ε) (d : Nat) : (b.mark d).known = Function.update b.known d none := by
  unfold mark
  split
  · exact known_setDerive b d _
  · exact known_setDerive b d _

/-- Results are forgotten, with those computed from them. -/
structure Forgets (g : DeriveGraph X V ε) (b b' : Batch X V ε) : Prop where
  sub : ∀ d r, b'.known d = some r → b.known d = some r
  closed : ∀ d e, b.known d ≠ none → b'.known d = none → e ∈ g.dependents (.cell d) → b'.known e = none

theorem Forgets.refl (g : DeriveGraph X V ε) (b : Batch X V ε) : Forgets g b b := ⟨fun _ _ h => h, fun _ _ h h' => absurd h' h⟩

theorem Forgets.stays (h : Forgets g b b') {d : Nat} (hd : b.known d = none) : b'.known d = none := by
  cases hd' : b'.known d with
  | none => rfl
  | some r =>
    rw [h.sub d r hd'] at hd
    cases hd

theorem Forgets.trans (h : Forgets g b b₁) (h' : Forgets g b₁ b₂) : Forgets g b b₂ := by
  refine ⟨fun d r hd => h.sub d r (h'.sub d r hd), fun d e hd hd' he => ?_⟩
  by_cases hd₁ : b₁.known d = none
  · exact h'.stays (h.closed d e hd hd₁ he)
  · exact h'.closed d e hd₁ hd' he

theorem dependents_lt {e : Nat} (h : e ∈ g.dependents (.cell d)) : d < e ∧ e < g.size := by
  have hinput := (g.mem_dependents _ _).mp h
  refine ⟨g.earlier e d hinput, ?_⟩
  by_contra hsize
  rw [g.beyond e (Nat.le_of_not_lt hsize)] at hinput
  exact not_mem_nil hinput

theorem invalidate_list (fuel : Nat) {l : List Nat}
    (h : ∀ d ∈ l, ∀ b : Batch X V ε, Forgets g b (Batch.invalidate g fuel b d) ∧ (Batch.invalidate g fuel b d).known d = none)
    (b : Batch X V ε) :
    Forgets g b (l.foldl (Batch.invalidate g fuel) b) ∧ ∀ d ∈ l, (l.foldl (Batch.invalidate g fuel) b).known d = none := by
  induction l generalizing b with
  | nil => exact ⟨.refl g b, nofun⟩
  | cons d l ih =>
    obtain ⟨hfst, hnone⟩ := h d mem_cons_self b
    obtain ⟨hrest, hnones⟩ := ih (fun e he => h e (mem_cons_of_mem d he)) (invalidate g fuel b d)
    refine ⟨hfst.trans hrest, fun e he => ?_⟩
    rcases mem_cons.mp he with rfl | he
    · exact hrest.stays hnone
    · exact hnones e he

/-- **Marking forgets** the derive and all that was computed from it. -/
theorem invalidate_forgets (hfuel : g.size ≤ fuel + d) (hd : d < g.size) (b : Batch X V ε) :
    Forgets g b (Batch.invalidate g fuel b d) ∧ (Batch.invalidate g fuel b d).known d = none := by
  induction fuel generalizing d b with
  | zero => omega
  | succ fuel ih =>
    have hlist : ∀ e ∈ g.dependents (.cell d), ∀ b : Batch X V ε,
        Forgets g b (invalidate g fuel b e) ∧ (invalidate g fuel b e).known e = none := by
      intro e he b
      obtain ⟨hlt, hsize⟩ := dependents_lt he
      exact ih (by omega) hsize b
    obtain ⟨hforgets, hnones⟩ := invalidate_list fuel hlist (b.mark d)
    have hmark : (b.mark d).known d = none := by rw [known_mark, update_self]
    have hmarked : Forgets g b ((g.dependents (.cell d)).foldl (invalidate g fuel) (b.mark d)) ∧
        ((g.dependents (.cell d)).foldl (invalidate g fuel) (b.mark d)).known d = none := by
      refine ⟨⟨fun e r he => ?_, fun e e' he he' hdep => ?_⟩, hforgets.stays hmark⟩
      · have he₁ := hforgets.sub e r he
        rw [known_mark] at he₁
        by_cases hed : e = d
        · rw [hed, update_self] at he₁
          cases he₁
        · rwa [update_of_ne hed] at he₁
      · by_cases hed : e = d
        · rw [hed] at hdep
          exact hnones e' hdep
        · refine hforgets.closed e e' ?_ he' hdep
          rw [known_mark, update_of_ne hed]
          exact he
    unfold invalidate
    split
    · rename_i hst
      exact ⟨.refl g b, by rw [known, hst]; rfl⟩
    · exact hmarked

/-- Marking marks derives that were settled and are reached. -/
theorem invalidate_rule {P : Batch X V ε → Prop} {R : Nat → Prop}
    (hmark : ∀ b d, P b → R d → b.known d ≠ none → P (b.mark d) ∧ ∀ e ∈ g.dependents (.cell d), R e) :
    ∀ {l : List Nat} {b : Batch X V ε}, P b → (∀ d ∈ l, R d) → P (l.foldl (Batch.invalidate g fuel) b) := by
  induction fuel with
  | zero =>
    intro l b hb _
    have hsame : ∀ l : List Nat, l.foldl (invalidate g 0) b = b := by
      intro l
      induction l with
      | nil => rfl
      | cons d l ih => exact ih
    rwa [hsame]
  | succ fuel ih =>
    intro l
    induction l with
    | nil => exact fun hb _ => hb
    | cons d l ihl =>
      intro b hb hl
      refine ihl ?_ fun e he => hl e (mem_cons_of_mem d he)
      have hd := hl d mem_cons_self
      have hstep : b.known d ≠ none → P ((g.dependents (.cell d)).foldl (invalidate g fuel) (b.mark d)) := by
        intro hne
        obtain ⟨hP, hR⟩ := hmark b d hb hd hne
        exact ih hP hR
      unfold invalidate
      split
      · exact hb
      · rename_i hst
        apply hstep
        unfold known
        cases hs : (b.derives d).state with
        | dirty => exact absurd hs hst
        | clean v | failed err => exact Option.some_ne_none _

/-- A retirement changes no result, no frame and no list. -/
theorem sourceRetired_keeps : ∀ (l visited : List Nat) (b : Batch X V ε), Keeps b (l.foldl (Batch.sourceRetired g fuel) (visited, b)).2 ∧
      (l.foldl (Batch.sourceRetired g fuel) (visited, b)).2.known = b.known := by
  induction fuel with
  | zero =>
    intro l visited b
    have hsame : l.foldl (sourceRetired g 0) (visited, b) = (visited, b) := by
      induction l with
      | nil => rfl
      | cons d l ih => exact ih
    rw [hsame]
    exact ⟨.refl b, rfl⟩
  | succ fuel ih =>
    intro l
    induction l with
    | nil => exact fun _ b => ⟨.refl b, rfl⟩
    | cons d l ihl =>
      intro visited b
      have hone : Keeps b (sourceRetired g (fuel + 1) (visited, b) d).2 ∧
          (sourceRetired g (fuel + 1) (visited, b) d).2.known = b.known := by
        unfold sourceRetired
        split
        · exact ⟨.refl b, rfl⟩
        · have hset : Keeps b (b.setDerive d { b.derives d with retired := true }) ∧
              (b.setDerive d { b.derives d with retired := true }).known = b.known := by
            have hkn : (b.setDerive d { b.derives d with retired := true }).known = b.known := by
              rw [known_setDerive]
              exact update_eq_self d b.known
            exact ⟨⟨rfl, framed_setDerive b d rfl, fun e r he => by rw [hkn]; exact he⟩, hkn⟩
          split
          · obtain ⟨hkeep, hkn⟩ := ih (g.dependents (.cell d)) (d :: visited)
              (b.setDerive d { b.derives d with retired := true })
            exact ⟨hset.1.trans hkeep, hkn.trans hset.2⟩
          · exact ih _ _ _
      obtain ⟨hkeep, hkn⟩ := ihl (sourceRetired g (fuel + 1) (visited, b) d).1
        (sourceRetired g (fuel + 1) (visited, b) d).2
      exact ⟨hone.1.trans hkeep, hkn.trans hone.2⟩

/-- A source with a new value. -/
def Batch.setSource (b : Batch X V ε) (s : Nat) (x : X) : Batch X V ε := { b with sources := Function.update b.sources s x }

/-- The derives a change marks, before retirements. -/
def Batch.marked (g : DeriveGraph X V ε) (b : Batch X V ε) (c : SourceChange X) : Batch X V ε :=
  (g.dependents (.source c.source)).foldl (Batch.invalidate g g.size) (b.setSource c.source c.value)

theorem applyChange_keeps (b : Batch X V ε) (c : SourceChange X) :
    Keeps (b.marked g c) (b.applyChange g c) ∧ (b.applyChange g c).known = (b.marked g c).known := by
  unfold applyChange
  split
  · exact sourceRetired_keeps _ _ _
  · exact ⟨.refl _, rfl⟩

theorem marked_sources (b : Batch X V ε) (c : SourceChange X) : (b.marked g c).sources = Function.update b.sources c.source c.value :=
  invalidate_rule (P := fun b' => b'.sources = update b.sources c.source c.value) (R := fun _ => True)
    (fun b' d hb' _ _ => ⟨(mark_sources b' d).trans hb', fun _ _ => trivial⟩) rfl fun _ _ => trivial

/-- **A change leaves a sound table.** -/
theorem applyChange_sound (hsound : Sound g.toGraph b.sources b.known) (c : SourceChange X) :
    Sound g.toGraph (b.applyChange g c).sources (b.applyChange g c).known := by
  obtain ⟨hkeep, hkn⟩ := applyChange_keeps (g := g) b c
  obtain ⟨hforgets, hnones⟩ := invalidate_list (g := g) g.size (l := g.dependents (.source c.source))
    (fun d hd b => by
      have hinput := (g.mem_dependents _ _).mp hd
      have hsize : d < g.size := by
        by_contra hsize
        rw [g.beyond d (Nat.le_of_not_lt hsize)] at hinput
        exact not_mem_nil hinput
      exact invalidate_forgets (by omega) hsize b) (b.setSource c.source c.value)
  rw [hkeep.sources, hkn, marked_sources]
  refine hsound.forget hforgets.sub (fun d e r hd he hr => ?_) (fun d s hd hs => ?_)
  · by_contra hne
    have hnone : (b.marked g c).known e = none := by
      cases he' : (b.marked g c).known e with
      | none => rfl
      | some r' =>
        have hr' := hforgets.sub e r' he'
        exact absurd (he'.trans (hr'.symm.trans hr)) hne
    have hsome : b.known e ≠ none := by
      rw [hr]
      exact Option.some_ne_none r
    exact hd (hforgets.closed e d hsome hnone ((g.mem_dependents _ _).mpr he))
  · refine update_of_ne ?_ ..
    rintro rfl
    exact hd (hnones d ((g.mem_dependents _ _).mpr hs))

/-! ## What the followers have -/

/-- The follower has what is framed. -/
def Follower.Has (f : Follower (Value heap)) : Framed (Value heap) → Prop
  | .value v => f.failed = false ∧ Json.Same f.value.json v.json
  | .noValue => f.failed = true

/-- The follower has the derive's result. -/
def Follower.HasResult (f : Follower (Value heap)) : Except ε (Value heap) → Prop
  | .ok v => f.failed = false ∧ Json.Same f.value.json v.json
  | .error _ => f.failed = true

/-- What a frame has to be for the follower that gets it. -/
structure CallOk (f : Follower (Value heap)) (frame : Frame (Value heap) ε) : Prop where
  /-- The operations lead from the value the follower has to the frame's. -/
  exact : ∀ v ops retired, frame = .value v ops retired → ∃ w, applyImmutable f.value.json ops = some w ∧ Json.Same w v.json
  /-- After a failure the value replaces the root. -/
  replaces : ∀ v ops retired, frame = .value v ops retired → f.failed = true → ops = [.r v.json]
  /-- One failure call for each episode. -/
  once : ∀ error, frame = .failed error → f.failed = false

section

variable (nlen)

theorem diff_spec (bef aft : Value heap) :
    (∃ w, applyImmutable bef.json (Value.diff nlen bef aft) = some w ∧ Json.Same w aft.json) ∧
      (Value.diff nlen bef aft = [] → Json.Same bef.json aft.json) := by
  obtain ⟨ops, hops, -, happl, hemp, -⟩ := diffRevisions_turns nlen bef.2 aft.2
  have hdiff : Value.diff nlen bef aft = ops := by
    rw [Value.diff, hops]
    rfl
  rw [hdiff]
  exact ⟨happl, hemp⟩

/-- The operations of a frame lead from what is framed to the value; there are none only between values that are the
same. -/
theorem frameOps_spec {framed : Framed (Value heap)} (h : f.Has framed) (aft : Value heap) :
    (∃ w, applyImmutable f.value.json (frameOps nlen (some framed) aft) = some w ∧ Json.Same w aft.json) ∧
      (f.failed = true → frameOps nlen (some framed) aft = [.r aft.json]) ∧
      (frameOps nlen (some framed) aft = [] → f.HasResult (ε := ε) (.ok aft)) := by
  cases framed with
  | noValue => exact ⟨⟨aft.json, rfl, rfl⟩, fun _ => rfl, fun hnil => absurd hnil (cons_ne_nil _ _)⟩
  | value bef =>
    obtain ⟨hfail, hsame⟩ := h
    have hnot : ¬ f.failed = true := by simp [hfail]
    rw [frameOps]
    split
    · obtain ⟨⟨w, hw, haft⟩, hemp⟩ := diff_spec nlen bef aft
      obtain ⟨w', hw', hsame'⟩ := applyImmutable_same hsame.symm hw
      exact ⟨⟨w', hw', hsame'.symm.trans haft⟩, fun ht => absurd ht hnot, fun hnil => ⟨hfail, hsame.trans (hemp hnil)⟩⟩
    · rename_i hdiffers
      have hident : bef.1.identical aft.1 = true := by simpa [Value.differs] using hdiffers
      have hequal : bef.json = aft.json := congrArg Revision.json (identical_eq bef.2 aft.2 hident)
      have haft : Json.Same f.value.json aft.json := by rw [← hequal]; exact hsame
      exact ⟨⟨_, rfl, haft⟩, fun ht => absurd ht hnot, fun _ => ⟨hfail, haft⟩⟩

/-- **The frame of a derive** is what a follower that has the framed value needs. -/
theorem frameOf_spec {framed : Framed (Value heap)} (h : f.Has framed)
    (ret : Bool) (aft : Except ε (Value heap)) :
    (∀ fr, frameOf nlen (some framed) ret aft = some fr → CallOk f fr ∧ (f.take fr).HasResult aft) ∧
      (frameOf nlen (some framed) ret aft = none → f.HasResult aft) := by
  cases aft with
  | error err =>
    cases framed with
    | noValue => exact ⟨fun fr hfrm => (by cases hfrm), fun _ => h⟩
    | value bef =>
      refine ⟨fun fr hfrm => ?_, fun hnone => by cases hnone⟩
      cases hfrm
      refine ⟨⟨?_, ?_, fun _ _ => h.1⟩, rfl⟩
      · rintro _ _ _ ⟨⟩
      · rintro _ _ _ ⟨⟩
  | ok aft =>
    obtain ⟨hexact, hreplaces, hemp⟩ := frameOps_spec (ε := ε) nlen h aft
    rw [frameOf]
    split
    · refine ⟨fun fr hfrm => ?_, fun hnone => by cases hnone⟩
      cases hfrm
      refine ⟨⟨?_, ?_, ?_⟩, rfl, rfl⟩
      · rintro _ _ _ ⟨rfl⟩
        exact hexact
      · rintro _ _ _ ⟨rfl⟩ hfail
        exact hreplaces hfail
      · rintro _ ⟨⟩
    · rename_i hsilent
      refine ⟨fun fr hfrm => by (cases hfrm), fun _ => hemp ?_⟩
      rw [Bool.or_eq_true, not_or] at hsilent
      simpa using hsilent.1

end

/-! ## What awaits its frame -/

/-- What a follower has once it gets the frame that is being delivered. -/
def told {ε : Type} (sending : Option (Frame (Value heap) ε × List Nat)) (i : Nat) (f : Follower (Value heap)) : Follower (Value heap) :=
  match sending with
  | none => f
  | some (frame, rest) => if i ∈ rest then f.take frame else f

variable {b b' : Batch X (Value heap) ε}

theorem take_derive (f : Follower (Value heap)) (fr : Frame (Value heap) ε) : (f.take fr).derive = f.derive := by
  cases fr <;> rfl

theorem told_of_sent (hsent : b.sent = true) (i : Nat) (f : Follower (Value heap)) : told b.sending i f = f := by
  unfold sent at hsent
  cases hsending : b.sending with
  | none => rfl
  | some p =>
    obtain ⟨fr, rest⟩ := p
    rw [hsending] at hsent
    have hrest : rest = [] := by simpa using hsent
    subst hrest
    rfl

/-- Followers have what is framed of a derive that is listed, and the result of one that is not. -/
structure Follows (b : Batch X (Value heap) ε) : Prop where
  nodup : b.changed.Nodup
  framed : ∀ (i : Nat) f, b.followers[i]? = some f → f.derive ∈ b.changed →
    ∃ framed, (b.derives f.derive).framed = some framed ∧ (told b.sending i f).Has framed
  settled : ∀ (i : Nat) f, b.followers[i]? = some f → f.derive ∉ b.changed →
    ∃ r, b.known f.derive = some r ∧ (told b.sending i f).HasResult r
  calls : ∀ frame rest, b.sending = some (frame, rest) → rest.Nodup ∧ ∀ i ∈ rest, ∀ f, b.followers[i]? = some f → CallOk f frame

theorem Follows.keeps (h : Follows b) (hkeep : Keeps b b') : Follows b' := by
  rw [hkeep.rest]
  refine ⟨h.nodup, fun i f hf hd => ?_, fun i f hf hd => ?_, h.calls⟩
  · obtain ⟨framed, hframed, hhas⟩ := h.framed i f hf hd
    exact ⟨framed, (hkeep.framed f.derive).trans hframed, hhas⟩
  · obtain ⟨r, hr, hhas⟩ := h.settled i f hf hd
    exact ⟨r, hkeep.known f.derive r hr, hhas⟩

theorem watched_iff : b.watched d = true ↔ ∃ (i : Nat) (f : Follower (Value heap)), b.followers[i]? = some f ∧ f.derive = d := by
  unfold watched
  rw [any_eq_true]
  constructor
  · rintro ⟨f, hf, hd⟩
    obtain ⟨i, hi⟩ := mem_iff_getElem?.mp hf
    exact ⟨i, f, hi, beq_iff_eq.mp hd⟩
  · rintro ⟨i, f, hf, rfl⟩
    exact ⟨f, mem_of_getElem? hf, beq_self_eq_true _⟩

/-- **A derive that is marked** frames what its followers have. -/
theorem Follows.mark (h : Follows b) (hkn : b.known d ≠ none) (hd : d ∉ b.changed) : Follows (b.mark d) := by
  have hframed : ∀ e, e ≠ d → ((b.mark d).derives e).framed = (b.derives e).framed := by
    intro e he
    unfold Batch.mark
    split
    · exact congrArg Derive.framed (update_of_ne he ..)
    · exact congrArg Derive.framed (update_of_ne he ..)
  have hkept : ∀ e, e ≠ d → (b.mark d).known e = b.known e := by
    intro e he
    rw [known_mark, update_of_ne he]
  have hrest : (b.mark d).followers = b.followers ∧ (b.mark d).sending = b.sending := by
    unfold Batch.mark
    split
    · exact ⟨rfl, rfl⟩
    · exact ⟨rfl, rfl⟩
  have hchgd : (b.mark d).changed = if b.watched d then b.changed ++ [d] else b.changed := by
    unfold Batch.mark
    split <;> rfl
  have hoth : ∀ e, e ≠ d → (e ∈ (b.mark d).changed ↔ e ∈ b.changed) := by
    intro e he
    rw [hchgd]
    split
    · simp [he]
    · rfl
  refine ⟨?_, fun i f hf hmem => ?_, fun i f hf hmem => ?_, fun fr rest hsending => ?_⟩
  · rw [hchgd]
    split
    · exact nodup_append.mpr ⟨h.nodup, nodup_singleton d, fun e he e' he' => by
        rw [mem_singleton.mp he']
        rintro rfl
        exact hd he⟩
    · exact h.nodup
  · rw [hrest.1] at hf
    rw [hrest.2]
    by_cases hfd : f.derive = d
    · -- The followers have the result that is framed now.
      have hwatched : b.watched d = true := watched_iff.2 ⟨i, f, hf, hfd⟩
      obtain ⟨r, hr, hhas⟩ := h.settled i f hf (by rw [hfd]; exact hd)
      have hnow : ((b.mark d).derives d).framed = framedBy (b.derives d).state := by
        unfold Batch.mark
        rw [if_pos hwatched]
        simp only [update_self]
      rw [hfd, hnow]
      rw [hfd, known] at hr
      cases hst : (b.derives d).state with
      | dirty =>
        rw [hst] at hr
        cases hr
      | clean v =>
        rw [hst] at hr
        cases hr
        exact ⟨.value v, rfl, hhas⟩
      | failed err =>
        rw [hst] at hr
        cases hr
        exact ⟨.noValue, rfl, hhas⟩
    · rw [hframed f.derive hfd]
      exact h.framed i f hf ((hoth f.derive hfd).mp hmem)
  · rw [hrest.1] at hf
    rw [hrest.2]
    by_cases hfd : f.derive = d
    · have hwatched : b.watched d = true := watched_iff.2 ⟨i, f, hf, hfd⟩
      rw [hchgd, if_pos hwatched, hfd] at hmem
      exact absurd (mem_append_right b.changed (mem_singleton_self d)) hmem
    · rw [hkept f.derive hfd]
      exact h.settled i f hf fun hin => hmem ((hoth f.derive hfd).mpr hin)
  · rw [hrest.2] at hsending
    rw [hrest.1]
    exact h.calls fr rest hsending

/-- The derives a change of the source reaches through those that are not dirty. -/
inductive Reaches {V : Type} (g : DeriveGraph X V ε) (b : Batch X V ε) (s : Nat) : Nat → Prop
  | source {d : Nat} : d ∈ g.dependents (.source s) → Reaches g b s d
  | derive {d e : Nat} : Reaches g b s d → b.known d ≠ none → e ∈ g.dependents (.cell d) → Reaches g b s e

variable {g : DeriveGraph X (Value heap) ε}

/-- No derive that awaits its frame is marked again: it is still dirty. -/
def MarksOnce {V : Type} (g : DeriveGraph X V ε) (b : Batch X V ε) (s : Nat) : Prop := ∀ d ∈ b.changed, Reaches g b s d → b.known d = none

theorem Follows.applyChange (h : Follows b) {c : SourceChange X} (honce : MarksOnce g b c.source) : Follows (b.applyChange g c) := by
  refine Follows.keeps ?_ (applyChange_keeps b c).1
  -- What was listed before is dirty where the change reaches it, what is listed since is dirty.
  have hrule : ∀ b' : Batch X (Value heap) ε, b' = b.marked g c → Follows b' ∧ (∀ d r, b'.known d = some r → b.known d = some r) ∧
      ∀ d ∈ b'.changed, d ∈ b.changed ∨ b'.known d = none := by
    rintro _ rfl
    refine invalidate_rule (R := Reaches g b c.source)
      (P := fun b' => Follows b' ∧ (∀ d r, b'.known d = some r → b.known d = some r) ∧
        ∀ d ∈ b'.changed, d ∈ b.changed ∨ b'.known d = none) ?_ ?_ fun d hd => .source hd
    · rintro b' d ⟨hfollows, hsub, hlist⟩ hreaches hkn
      obtain ⟨r, hr⟩ := Option.ne_none_iff_exists'.mp hkn
      have hbef := hsub d r hr
      have hnot : d ∉ b'.changed := by
        intro hmem
        rcases hlist d hmem with hold | hnone
        · rw [honce d hold hreaches] at hbef
          cases hbef
        · exact hkn hnone
      refine ⟨⟨hfollows.mark hkn hnot, fun e r' he => ?_, fun e he => ?_⟩, fun e he => ?_⟩
      · rw [known_mark] at he
        by_cases hed : e = d
        · rw [hed, update_self] at he
          cases he
        · rw [update_of_ne hed] at he
          exact hsub e r' he
      · rw [known_mark]
        by_cases hed : e = d
        · rw [hed, update_self]
          exact .inr rfl
        · rw [update_of_ne hed]
          refine hlist e ?_
          unfold Batch.mark at he
          split at he
          · exact (mem_append.mp he).resolve_right fun hsingle => hed (mem_singleton.mp hsingle)
          · exact he
      · exact .derive hreaches (by rw [hbef]; exact Option.some_ne_none r) he
    · exact ⟨{ h with }, fun _ _ hr => hr, fun _ hd => .inl hd⟩
  exact (hrule _ rfl).1

/-! ## Deliveries -/

theorem mem_followersOf {i : Nat} (hf : b.followers[i]? = some f) : i ∈ b.followersOf d ↔ f.derive = d := by
  have hlt := (List.getElem?_eq_some_iff.mp hf).1
  rw [followersOf, mem_filter, mem_range, hf]
  simp [hlt]

theorem nodup_followersOf (b : Batch X (Value heap) ε) (d : Nat) : (b.followersOf d).Nodup := nodup_range.filter _

/-- What a delivery leaves: the derive's result is kept, and its followers get the frame it needs. -/
structure Delivers (numberLength : Rat → Nat) (g : DeriveGraph X (Value heap) ε) (b : Batch X (Value heap) ε) (d : Nat)
    (rest : List Nat) (b' : Batch X (Value heap) ε) : Prop where
  lists : b'.changed = rest ∧ b'.followers = b.followers ∧ b'.phase = b.phase ∧ b'.adopting = b.adopting
  sound : Sound g.toGraph b'.sources b'.known
  framed : ∀ e, e ≠ d → (b'.derives e).framed = (b.derives e).framed
  known : ∀ e r, b.known e = some r → b'.known e = some r
  result : ∃ r, b'.known d = some r ∧ b'.sending =
    (frameOf numberLength (b.derives d).framed (b.derives d).retired r).map fun frame => (frame, b.followersOf d)

theorem tellRetired_keeps (b : Batch X (Value heap) ε) (d : Nat) (r : Except ε (Value heap)) :
    Keeps b (b.tellRetired d r) ∧ (b.tellRetired d r).known = b.known := by
  cases r with
  | error err => exact ⟨.refl b, rfl⟩
  | ok v =>
    have hkn : (b.setDerive d { b.derives d with retired := false }).known = b.known := by
      rw [known_setDerive]
      exact update_eq_self d b.known
    exact ⟨⟨rfl, framed_setDerive b d rfl, fun e r' he => by rw [tellRetired, hkn]; exact he⟩, hkn⟩

theorem deliver_spec (nlen : Rat → Nat) (hsound : Sound g.toGraph b.sources b.known) (d : Nat) (rest : List Nat) :
    ∃ b', ({ b with changed := rest, sending := none }).deliver nlen g d = some b' ∧ Delivers nlen g b d rest b' := by
  obtain ⟨b₁, hb₁⟩ : ∃ b₁ : Batch X (Value heap) ε, b₁ =
      ({ b with changed := rest, sending := none }).setDerive d { b.derives d with framed := none } := ⟨_, rfl⟩
  have hkn₁ : b₁.known = b.known := by
    rw [hb₁, known_setDerive]
    exact update_eq_self d b.known
  have hframed₁ : ∀ e, e ≠ d → (b₁.derives e).framed = (b.derives e).framed := by
    intro e he
    rw [hb₁, derives_setDerive_ne _ _ he]
  have hsound₁ : Sound g.toGraph b₁.sources b₁.known := by
    rw [hkn₁, hb₁]
    exact hsound
  obtain ⟨r, b₂, hrun, hto, -⟩ := valueOf_spec hsound₁ d
  obtain ⟨b₃, hb₃⟩ : ∃ b₃ : Batch X (Value heap) ε, b₃ = b₂.tellRetired d r := ⟨_, rfl⟩
  obtain ⟨hkeep, hkn₃⟩ : Keeps b₂ b₃ ∧ b₃.known = b₂.known := by
    rw [hb₃]
    exact tellRetired_keeps b₂ d r
  have hall := hto.keeps.trans hkeep
  have hlists : b₃.changed = rest ∧ b₃.followers = b.followers ∧ b₃.phase = b.phase ∧ b₃.adopting = b.adopting := by
    rw [hall.rest, hb₁]
    exact ⟨rfl, rfl, rfl, rfl⟩
  refine ⟨{ b₃ with
    sending := (frameOf nlen (b.derives d).framed (b.derives d).retired r).map fun fr => (fr, b₃.followersOf d) },
    ?_, ?_⟩
  · rw [deliver]
    rw [← hb₁, hrun, Option.map_some, hb₃]
  · refine ⟨hlists, ?_, fun e he => ?_, fun e r' he => ?_, r, ?_, ?_⟩
    · show Sound g.toGraph b₃.sources b₃.known
      rw [hkn₃, hkeep.sources]
      exact hto.sound
    · exact (hall.framed e).trans (hframed₁ e he)
    · exact hall.known e r' (by rw [hkn₁]; exact he)
    · show b₃.known d = some r
      rw [hkn₃]
      exact hto.known
    · unfold followersOf
      rw [hlists.2.1]

/-- **A delivery** gives every follower the frame it needs. -/
theorem Follows.deliver (h : Follows b) {rest : List Nat} (hchgd : b.changed = d :: rest)
    (hsent : b.sent = true) (hdeliv : Delivers nlen g b d rest b') : Follows b' := by
  obtain ⟨⟨hrest, hfollowers, -, -⟩, -, hframed, hkn, r, hr, hsending⟩ := hdeliv
  have hnd := h.nodup
  rw [hchgd, nodup_cons] at hnd
  have hd : d ∈ b.changed := by
    rw [hchgd]
    exact mem_cons_self
  -- The derive's followers, and the others.
  have hown : ∀ (i : Nat) f, b.followers[i]? = some f → f.derive = d →
      (∀ fr rest', b'.sending = some (fr, rest') → CallOk f fr) ∧ (told b'.sending i f).HasResult r := by
    intro i f hf hfd
    obtain ⟨framed, hfr, hhas⟩ := h.framed i f hf (by rw [hfd]; exact hd)
    rw [told_of_sent hsent] at hhas
    rw [hfd] at hfr
    obtain ⟨hfrm, hsilent⟩ := frameOf_spec nlen hhas (b.derives d).retired r
    rw [hfr] at hsending
    rw [hsending]
    cases hof : frameOf nlen (some framed) (b.derives d).retired r with
    | none => exact ⟨fun _ _ hnone => (by cases hnone), hsilent hof⟩
    | some fr =>
      obtain ⟨hcall, hhas'⟩ := hfrm fr hof
      refine ⟨fun fr' rest' hsome => ?_, ?_⟩
      · cases hsome
        exact hcall
      · show (if i ∈ b.followersOf d then f.take fr else f).HasResult r
        rw [if_pos ((mem_followersOf hf).mpr hfd)]
        exact hhas'
  have hoth : ∀ (i : Nat) f, b.followers[i]? = some f → f.derive ≠ d → told b'.sending i f = told b.sending i f := by
    intro i f hf hfd
    rw [told_of_sent hsent, hsending]
    cases frameOf nlen (b.derives d).framed (b.derives d).retired r with
    | none => rfl
    | some fr => exact if_neg fun hin => hfd ((mem_followersOf hf).mp hin)
  refine ⟨by rw [hrest]; exact hnd.2, fun i f hf hmem => ?_, fun i f hf hmem => ?_, fun fr rest' hsome => ?_⟩
  · rw [hfollowers] at hf
    rw [hrest] at hmem
    have hfd : f.derive ≠ d := by
      intro hfd
      rw [hfd] at hmem
      exact hnd.1 hmem
    rw [hframed f.derive hfd, hoth i f hf hfd]
    exact h.framed i f hf (by rw [hchgd]; exact mem_cons_of_mem d hmem)
  · rw [hfollowers] at hf
    rw [hrest] at hmem
    by_cases hfd : f.derive = d
    · exact ⟨r, by rw [hfd]; exact hr, (hown i f hf hfd).2⟩
    · obtain ⟨r', hr', hhas⟩ := h.settled i f hf (by
        rw [hchgd]
        exact fun hin => (mem_cons.mp hin).elim hfd hmem)
      rw [hoth i f hf hfd]
      exact ⟨r', hkn f.derive r' hr', hhas⟩
  · have hto : rest' = b.followersOf d := by
      rw [hsending] at hsome
      obtain ⟨fr', -, heq⟩ := Option.map_eq_some_iff.mp hsome
      exact (congrArg Prod.snd heq).symm
    subst hto
    refine ⟨nodup_followersOf b d, fun i hi f hf => ?_⟩
    rw [hfollowers] at hf
    exact (hown i f hf ((mem_followersOf hf).mp hi)).1 fr _ hsome

/-- **A call** leaves every follower with what it was to have. -/
theorem Follows.forward (h : Follows b) {fr : Frame (Value heap) ε} {i : Nat} {rest : List Nat}
    (hsending : b.sending = some (fr, i :: rest)) (hf : b.followers[i]? = some f) :
    CallOk f fr ∧ Follows { b with followers := b.followers.set i (f.take fr), sending := some (fr, rest) } := by
  obtain ⟨hnd, hcalls⟩ := h.calls fr (i :: rest) hsending
  rw [nodup_cons] at hnd
  have hlt := (List.getElem?_eq_some_iff.mp hf).1
  -- Each follower is the one there was, the same one once told.
  have hsame : ∀ (j : Nat) f', (b.followers.set i (f.take fr))[j]? = some f' → ∃ f₀, b.followers[j]? = some f₀ ∧
      f'.derive = f₀.derive ∧ told (some (fr, rest)) j f' = told b.sending j f₀ ∧ (j ∈ rest → f' = f₀) := by
    intro j f' hf'
    rw [hsending]
    by_cases hji : j = i
    · subst hji
      rw [getElem?_set_self hlt] at hf'
      cases hf'
      refine ⟨f, hf, take_derive f fr, ?_, fun hin => absurd hin hnd.1⟩
      show (if j ∈ rest then _ else _) = if j ∈ j :: rest then _ else _
      rw [if_neg hnd.1, if_pos mem_cons_self]
    · rw [getElem?_set_ne fun heq => hji heq.symm] at hf'
      refine ⟨f', hf', rfl, ?_, fun _ => rfl⟩
      show (if j ∈ rest then _ else _) = if j ∈ i :: rest then _ else _
      simp only [mem_cons, hji, false_or]
  refine ⟨hcalls i mem_cons_self f hf, h.nodup, fun j f' hf' hmem => ?_, fun j f' hf' hmem => ?_, fun fr' rest' hsome => ?_⟩
  · obtain ⟨f₀, hf₀, hd, htold, -⟩ := hsame j f' hf'
    rw [htold, hd]
    exact h.framed j f₀ hf₀ (by rw [← hd]; exact hmem)
  · obtain ⟨f₀, hf₀, hd, htold, -⟩ := hsame j f' hf'
    rw [htold, hd]
    exact h.settled j f₀ hf₀ (by rw [← hd]; exact hmem)
  · cases hsome
    refine ⟨hnd.2, fun j hj f' hf' => ?_⟩
    obtain ⟨f₀, hf₀, -, -, heq⟩ := hsame j f' hf'
    rw [heq hj]
    exact hcalls j (mem_cons_of_mem i hj) f₀ hf₀

/-! ## Runs -/

def Batch.start (sources : Nat → X) : Batch X V ε :=
  { sources, derives := fun _ => ⟨.dirty, none, false, none⟩, followers := [], phase := .idle, adopting := [], changed := []
    sending := none, later := [] }

/-- An entry, and what it shows. -/
structure BatchEvent (X V ε : Type) where
  action : BatchAction X
  outcome : BatchOutcome V ε

def Batch.Step (numberLength : Rat → Nat) (g : DeriveGraph X (Value heap) ε) (b : Batch X (Value heap) ε)
    (event : BatchEvent X (Value heap) ε) (b' : Batch X (Value heap) ε) : Prop :=
  b.act numberLength g event.action = some (b', event.outcome)

/-- The change that is made, if there is one, marks no derive that awaits its frame and was read since it was marked. -/
def Quiet (g : DeriveGraph X (Value heap) ε) (b : Batch X (Value heap) ε) : BatchAction X → Prop
  | .change c => b.phase = .running → MarksOnce g b c.source
  | .adopt => ∀ c rest, b.adopting = c :: rest → MarksOnce g { b with adopting := rest } c.source
  | _ => True

def Batch.QuietStep (numberLength : Rat → Nat) (g : DeriveGraph X (Value heap) ε) (b : Batch X (Value heap) ε)
    (event : BatchEvent X (Value heap) ε) (b' : Batch X (Value heap) ε) : Prop :=
  b.Step numberLength g event b' ∧ Quiet g b event.action

/-- The table is sound, followers have what they are to have, and nothing is listed outside a commit's adoptions and
deliveries. -/
structure Kept (g : DeriveGraph X (Value heap) ε) (b : Batch X (Value heap) ε) : Prop where
  sound : Sound g.toGraph b.sources b.known
  follows : Follows b
  quiet : b.phase ≠ .running → b.changed = [] ∧ b.adopting = [] ∧ b.sending = none

theorem kept_start (srcs : Nat → X) : Kept g (Batch.start srcs : Batch X (Value heap) ε) where
  sound d r h := by cases h
  follows := ⟨.nil, fun i f hf => (by cases hf), fun i f hf => (by cases hf), fun _ _ h => (by cases h)⟩
  quiet _ := ⟨rfl, rfl, rfl⟩

theorem Kept.change (h : Kept g b) {c : SourceChange X} (honce : MarksOnce g b c.source) (hrun : b.phase = .running) :
    Kept g (b.applyChange g c) := by
  have hphase : (b.applyChange g c).phase = b.phase := by
    rw [(applyChange_keeps b c).1.rest]
    exact invalidate_rule (P := fun b' => b'.phase = b.phase) (R := fun _ => True)
      (fun b' d hb' _ _ => ⟨by unfold mark; split <;> exact hb', fun _ _ => trivial⟩) rfl fun _ _ => trivial
  refine ⟨applyChange_sound h.sound c, h.follows.applyChange honce, fun hne => ?_⟩
  rw [hphase] at hne
  exact absurd hrun hne

theorem Kept.keeps (h : Kept g b) (hkeep : Keeps b b') (hsound : Sound g.toGraph b'.sources b'.known) : Kept g b' := by
  refine ⟨hsound, h.follows.keeps hkeep, fun hne => ?_⟩
  rw [hkeep.rest] at hne ⊢
  exact h.quiet hne

section

variable (h : Kept g b) (hidle : b.phase = .idle)

include h hidle

/-- A follower more, with the derive's result. -/
theorem Kept.append {r : Except ε (Value heap)}
    (hr : b.known f.derive = some r) (hhas : f.HasResult r) : Kept g { b with followers := b.followers ++ [f] } := by
  obtain ⟨hchgd, hadopting, hsending⟩ := h.quiet (by rw [hidle]; decide)
  refine ⟨h.sound, ⟨h.follows.nodup, fun i f' hf' hmem => ?_, fun i f' hf' _ => ?_, fun fr rest hsome => ?_⟩,
    fun _ => ⟨hchgd, hadopting, hsending⟩⟩
  · rw [hchgd] at hmem
    cases hmem
  · rcases mem_snoc.mp (mem_of_getElem? hf') with hold | rfl
    · obtain ⟨j, hj⟩ := mem_iff_getElem?.mp hold
      obtain ⟨r', hr', hhas'⟩ := h.follows.settled j f' hj (by rw [hchgd]; exact not_mem_nil)
      rw [hsending] at hhas' ⊢
      exact ⟨r', hr', hhas'⟩
    · rw [hsending]
      exact ⟨r, hr, hhas⟩
  · rw [hsending] at hsome
    cases hsome

theorem Kept.follow (hfollow : b.follow g d = some b') : Kept g b' := by
  obtain ⟨r, b₁, hrun, hto, -⟩ := valueOf_spec h.sound d
  have hkept := h.keeps hto.keeps hto.sound
  have hidle₁ : b₁.phase = .idle := by
    rw [hto.keeps.rest]
    exact hidle
  rw [Batch.follow, hrun] at hfollow
  cases r with
  | ok v =>
    cases hfollow
    exact hkept.append hidle₁ hto.known ⟨rfl, rfl⟩
  | error err =>
    dsimp only at hfollow
    cases hgood : (b₁.derives d).good with
    | none =>
      rw [hgood] at hfollow
      cases hfollow
      exact hkept
    | some v =>
      rw [hgood] at hfollow
      cases hfollow
      exact hkept.append hidle₁ hto.known rfl

theorem Kept.unfollow (i : Nat) : Kept g { b with followers := b.followers.eraseIdx i } := by
  obtain ⟨hchgd, hadopting, hsending⟩ := h.quiet (by rw [hidle]; decide)
  refine ⟨h.sound, ⟨h.follows.nodup, fun j f hf hmem => ?_, fun j f hf _ => ?_, fun fr rest hsome => ?_⟩,
    fun _ => ⟨hchgd, hadopting, hsending⟩⟩
  · rw [hchgd] at hmem
    cases hmem
  · obtain ⟨k, hk⟩ := mem_iff_getElem?.mp (mem_of_mem_eraseIdx (mem_of_getElem? hf))
    obtain ⟨r, hr, hhas⟩ := h.follows.settled k f hk (by rw [hchgd]; exact not_mem_nil)
    rw [hsending] at hhas ⊢
    exact ⟨r, hr, hhas⟩
  · rw [hsending] at hsome
    cases hsome

end

/-- The phase, and what waits for a commit, say nothing about the followers. -/
theorem Follows.elsewhere (h : Follows b) (phase : BatchPhase) (adopting lat : List (SourceChange X)) :
    Follows { b with phase := phase, adopting := adopting, later := lat } :=
  { h with }

/-- Once every follower has been told, nothing is being delivered. -/
theorem Follows.sent (h : Follows b) (hsent : b.sent = true) : Follows { b with sending := none } := by
  refine ⟨h.nodup, fun i f hf hmem => ?_, fun i f hf hmem => ?_, fun _ _ hsome => by cases hsome⟩
  · have hframed := h.framed i f hf hmem
    rwa [told_of_sent hsent] at hframed
  · have hsett := h.settled i f hf hmem
    rwa [told_of_sent hsent] at hsett

/-- What one entry shows: a read returns the derive's value, a call is what its follower needs. -/
structure Shows (g : DeriveGraph X (Value heap) ε) (b : Batch X (Value heap) ε) (outcome : BatchOutcome (Value heap) ε) : Prop where
  read : ∀ d r, outcome.read = some (d, r) → eval g.toGraph b.sources d = some r
  call : ∀ f frame, outcome.call = some (f, frame) → CallOk f frame

theorem shows_nothing (g : DeriveGraph X (Value heap) ε) (b : Batch X (Value heap) ε) : Shows g b ⟨none, none⟩ :=
  ⟨fun _ _ h => (by cases h), fun _ _ h => (by cases h)⟩

/-- An entry that is not refused shows nothing, or what it is to show. -/
theorem Kept.shows (h : Kept g b) {ev : BatchEvent X (Value heap) ε}
    (hstep : b.Step nlen g ev b') : Shows g b ev.outcome := by
  obtain ⟨action, oc⟩ := ev
  change b.act nlen g action = some (b', oc) at hstep
  show Shows g b oc
  have hnoth : ∀ {o : Option (Batch X (Value heap) ε)},
      o.map (fun b => (b, (⟨none, none⟩ : BatchOutcome (Value heap) ε))) = some (b', oc) → Shows g b oc := by
    intro o ho
    obtain ⟨b₁, -, heq⟩ := Option.map_eq_some_iff.mp ho
    cases heq
    exact shows_nothing g b
  cases action with
  | read d =>
    obtain ⟨r, b₁, hrun, -, heval⟩ := valueOf_spec h.sound d
    rw [act, hrun] at hstep
    cases hstep
    exact ⟨fun d' r' hr => by cases hr; exact heval, fun _ _ hcall => (by cases hcall)⟩
  | forward =>
    rw [act] at hstep
    split at hstep
    · rename_i fr i rest hsending
      obtain ⟨f, hf, heq⟩ := Option.map_eq_some_iff.mp hstep
      cases heq
      refine ⟨fun _ _ hr => (by cases hr), fun f' fr' hcall => ?_⟩
      cases hcall
      exact (h.follows.forward hsending hf).1
    · cases hstep
  | change c =>
    rw [act] at hstep
    split at hstep
    · cases hstep
    · cases hstep
      exact shows_nothing g b
    · cases hstep
      exact shows_nothing g b
  | adopt =>
    rw [act] at hstep
    split at hstep
    · cases hstep
    · cases hstep
      exact shows_nothing g b
  | deliver =>
    rw [act] at hstep
    split at hstep
    · cases hstep
    · split at hstep
      · exact hnoth hstep
      · cases hstep
  | begin | flush | finish | unfollow =>
    rw [act] at hstep
    split at hstep
    · cases hstep
      exact shows_nothing g b
    · cases hstep
  | follow =>
    rw [act] at hstep
    split at hstep
    · exact hnoth hstep
    · cases hstep

/-- **What one entry keeps.** -/
theorem Kept.step {nlen : Rat → Nat} (h : Kept g b) {ev : BatchEvent X (Value heap) ε}
    (hstep : b.QuietStep nlen g ev b') : Kept g b' := by
  obtain ⟨action, oc⟩ := ev
  obtain ⟨hact, hqui⟩ := hstep
  change b.act nlen g action = some (b', oc) at hact
  cases action with
  | begin =>
    rw [act] at hact
    split at hact
    · rename_i hidle
      cases hact
      exact ⟨h.sound, h.follows.elsewhere .running b.adopting b.later, fun hne => absurd rfl hne⟩
    · cases hact
  | change c =>
    rw [act] at hact
    split at hact
    · cases hact
    · rename_i hrunning
      cases hact
      exact h.change (hqui hrunning) hrunning
    · cases hact
      exact ⟨h.sound, h.follows.elsewhere b.phase b.adopting (b.later ++ [c]), h.quiet⟩
  | adopt =>
    rw [act] at hact
    split at hact
    · cases hact
    · rename_i c rest hadopting
      cases hact
      -- A change that waited is adopted by a commit, never outside.
      have hrunning : b.phase = .running := by
        by_contra hne
        rw [(h.quiet hne).2.1] at hadopting
        cases hadopting
      have hrest : Kept g { b with adopting := rest } := ⟨h.sound, h.follows.elsewhere b.phase rest b.later, fun hne => absurd hrunning hne⟩
      exact hrest.change (hqui c rest hadopting) hrunning
  | read d =>
    obtain ⟨r, b₁, hrun, hto, -⟩ := valueOf_spec h.sound d
    rw [act, hrun] at hact
    cases hact
    exact h.keeps hto.keeps hto.sound
  | deliver =>
    rw [act] at hact
    split at hact
    · cases hact
    · rename_i d rest hchgd
      split at hact
      · rename_i hnow
        obtain ⟨b₁, hrun, hdeliv⟩ := deliver_spec nlen h.sound d rest
        rw [hrun] at hact
        cases hact
        refine ⟨hdeliv.sound, h.follows.deliver hchgd hnow.2.2 hdeliv, fun hne => ?_⟩
        rw [hdeliv.lists.2.2.1] at hne
        exact absurd hnow.1 hne
      · cases hact
  | forward =>
    rw [act] at hact
    split at hact
    · rename_i fr i rest hsending
      obtain ⟨f, hf, heq⟩ := Option.map_eq_some_iff.mp hact
      cases heq
      refine ⟨h.sound, (h.follows.forward hsending hf).2, fun hne => ?_⟩
      rw [(h.quiet hne).2.2] at hsending
      cases hsending
    · cases hact
  | flush =>
    rw [act] at hact
    split at hact
    · rename_i hnow
      cases hact
      exact ⟨h.sound, (h.follows.sent hnow.2.2.2).elsewhere .flushing b.adopting b.later, fun _ => ⟨hnow.2.2.1, hnow.2.1, rfl⟩⟩
    · cases hact
  | finish =>
    rw [act] at hact
    split at hact
    · rename_i hflushing
      cases hact
      obtain ⟨hchgd, -, hsending⟩ := h.quiet (by rw [hflushing]; decide)
      refine ⟨h.sound, h.follows.elsewhere _ b.later [], fun hne => ?_⟩
      by_cases hlat : b.later = []
      · exact ⟨hchgd, hlat, hsending⟩
      · dsimp only at hne
        rw [if_neg hlat] at hne
        exact absurd rfl hne
    · cases hact
  | follow d =>
    rw [act] at hact
    split at hact
    · rename_i hidle
      obtain ⟨b₁, hfollow, heq⟩ := Option.map_eq_some_iff.mp hact
      cases heq
      exact h.follow hidle hfollow
    · cases hact
  | unfollow i =>
    rw [act] at hact
    split at hact
    · rename_i hidle
      cases hact
      exact h.unfollow hidle i
    · cases hact

/-- **The frames of derives are exact**, in every run in which no derive that awaits its frame is marked again after a
read: every read returns the derive's value, every call gives its follower what it needs, and between commits the
followers have the derives' results. -/
theorem derive_frames_exact (numberLength : Rat → Nat) (g : DeriveGraph X (Value heap) ε) {sources : Nat → X}
    {events : List (BatchEvent X (Value heap) ε)} {b : Batch X (Value heap) ε}
    (hrun : Steps (Batch.QuietStep numberLength g) (Batch.start sources) events b) :
    (∀ d, ∃ r b', b.act numberLength g (.read d) = some (b', ⟨some (d, r), none⟩) ∧ eval g.toGraph b.sources d = some r) ∧
      (∀ event b', b.Step numberLength g event b' → Shows g b event.outcome) ∧
      (b.phase = .idle → ∀ f ∈ b.followers, ∃ r, eval g.toGraph b.sources f.derive = some r ∧ f.HasResult r) := by
  have hkept : Kept g b := hrun.invariant (fun h hstep => h.step hstep) (kept_start sources)
  refine ⟨fun d => ?_, fun event b' hstep => hkept.shows hstep, fun hidle f hf => ?_⟩
  · obtain ⟨r, b', hvalue, -, heval⟩ := valueOf_spec hkept.sound d
    exact ⟨r, b', by rw [act, hvalue]; rfl, heval⟩
  · obtain ⟨hchanged, -, hsending⟩ := hkept.quiet (by rw [hidle]; decide)
    obtain ⟨i, hi⟩ := mem_iff_getElem?.mp hf
    obtain ⟨r, hr, hhas⟩ := hkept.follows.settled i f hi (by rw [hchanged]; exact not_mem_nil)
    rw [hsending] at hhas
    exact ⟨r, hkept.sound.eval hr, hhas⟩

/-! ### A derive over one source -/

/-- A derive that returns its source's value. -/
def copying (V : Type) : DeriveGraph V V Unit where
  inputs d := if d = 0 then [.source 0] else []
  compute _ args := match args with
    | [.inl v] => .ok v
    | _ => .error ()
  earlier d e h := by
    split at h
    · cases List.mem_singleton.mp h
    · cases h
  size := 1
  dependents i := if i = .source 0 then [0] else []
  beyond d h := if_neg (Nat.ne_of_gt h)
  mem_dependents i d := by
    by_cases hi : i = .source 0
    · by_cases hd : d = 0 <;> simp [hi, hd]
    · by_cases hd : d = 0 <;> simp [hi, hd]

/-- Objects with no, one and two properties. -/
def growing : Nat → Revision
  | 0 => .obj 0 []
  | 1 => .obj 1 [(text "a", .null)]
  | _ => .obj 2 [(text "a", .null), (text "b", .null)]

def growingAt : Fin 3 → Value growing
  | 0 => ⟨.obj 0 [], .obj rfl .nil (by simp)⟩
  | 1 => ⟨.obj 1 [(text "a", .null)], .obj rfl (by decide) (by simp [Lives.null])⟩
  | 2 => ⟨.obj 2 [(text "a", .null), (text "b", .null)], .obj rfl (by decide) (by simp [Lives.null])⟩

/-- One change in a commit: its frame is what the follower needs. -/
theorem derive_frames_exact_once :
    CallOk (ε := Unit) ⟨0, growingAt 0, false⟩ (.value (growingAt 1) [.s [.key (text "a")] .null] false) := by
  have hrun : ∃ b, Steps (QuietStep (fun _ => 1) (copying (Value growing))) (start fun _ => growingAt 0)
      [⟨.follow 0, none, none⟩, ⟨.begin, none, none⟩, ⟨.change ⟨0, growingAt 1, false⟩, none, none⟩, ⟨.deliver, none, none⟩] b ∧
      ∃ b', b.Step (fun _ => 1) (copying (Value growing))
        ⟨.forward, none, some (⟨0, growingAt 0, false⟩, .value (growingAt 1) [.s [.key (text "a")] .null] false)⟩ b' :=
    ⟨_, .head ⟨rfl, trivial⟩ (.head ⟨rfl, trivial⟩ (.head ⟨rfl, nofun⟩
      (.head ⟨rfl, trivial⟩ .refl))), _, rfl⟩
  obtain ⟨b, hsteps, b', hcall⟩ := hrun
  exact ((derive_frames_exact (fun _ => 1) (copying (Value growing)) hsteps).2.1 _ b' hcall).call _ _ rfl

/-- Entries one after the other. -/
def Batch.acts (numberLength : Rat → Nat) (g : DeriveGraph X (Value heap) ε) (b : Batch X (Value heap) ε) :
    List (BatchAction X) → Option (Batch X (Value heap) ε)
  | [] => some b
  | action :: rest => (b.act numberLength g action).bind fun (b, _) => b.acts numberLength g rest

theorem steps_of_acts {actions : List (BatchAction X)}
    (h : b.acts nlen g actions = some b') : ∃ evs, Steps (Batch.Step nlen g) b evs b' := by
  induction actions generalizing b with
  | nil =>
    cases h
    exact ⟨[], .refl⟩
  | cons action rest ih =>
    obtain ⟨⟨b₁, oc⟩, hstep, hrest⟩ := Option.bind_eq_some_iff.mp h
    obtain ⟨evs, hsteps⟩ := ih hrest
    exact ⟨⟨action, oc⟩ :: evs, .head hstep hsteps⟩

/-- A commit changes the source, the derive is read, and the commit changes the source again: the frame starts from the
value that was read, which the follower never got. -/
theorem second_mark_loses_frame : ¬ ∀ events (b : Batch (Value growing) (Value growing) Unit),
      Steps (Batch.Step (fun _ => 1) (copying (Value growing))) (Batch.start fun _ => growingAt 0) events b →
      ∀ event b', b.Step (fun _ => 1) (copying (Value growing)) event b' → Shows (copying (Value growing)) b event.outcome := by
  intro hall
  obtain ⟨b, hb⟩ : ∃ b, (start fun _ => growingAt 0).acts (fun _ => 1) (copying (Value growing))
      [.follow 0, .begin, .change ⟨0, growingAt 1, false⟩, .read 0, .change ⟨0, growingAt 2, false⟩, .deliver] = some b :=
    ⟨_, rfl⟩
  obtain ⟨events, hrun⟩ := steps_of_acts hb
  cases hb
  have hcall : CallOk (ε := Unit) ⟨0, growingAt 0, false⟩ (.value (growingAt 2) [.s [.key (text "b")] .null] false) :=
    (hall events _ hrun ⟨.forward, none, some (_, _)⟩ _ rfl).call _ _ rfl
  obtain ⟨w, hw, hsame⟩ := hcall.exact _ _ _ rfl
  obtain rfl : Json.obj [(text "b", .null)] = w := Option.some.inj hw
  have ha : (none : Option Sem) = some .null := congrFun (Sem.obj.inj hsame) (text "a")
  cases ha

end PiBridge.Chord.State
