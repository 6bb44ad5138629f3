import PiBridge.Durable.Correctness.TranscriptRuns

/-!
# `Durable.Correctness.TranscriptCalls` — calls of what is shown come to an end

A call of a placeholder that is shown, awaited until its page arrives, lowers `left`: what is missing, and the loads still
open. Whatever else happens meanwhile, but for merges, does not raise it (`left_of_wait`), and what leaves it as it was
leaves the placeholder in place. So only so many calls find one (`Awaits.bound`).
-/

namespace PiBridge.Durable

open Lib List

variable {V : Type}

namespace TranscriptSystem

variable {sys sys' : TranscriptSystem V} {lim : ℕ}

/-- The loads that wait for their page. -/
def openLoads (sys : TranscriptSystem V) : ℕ :=
  (if sys.earlier.any (fun load => !load.answered) then 1 else 0) + sys.filling.countP fun load => !load.answered

/-- What is missing, and the loads still open. -/
def left (sys : TranscriptSystem V) : ℕ := missing sys + openLoads sys

/-- Every load is either settled or waits for its page. -/
def AllOpen (sys : TranscriptSystem V) : Prop := (∀ load, sys.earlier = some load → load.answered = false) ∧ ∀ load ∈ sys.filling, load.answered = false

/-- Neither a merge nor a call. -/
def Waits (labels : List (TranscriptLabel V)) : Prop := ∀ label ∈ labels, label.isMerge = false ∧ label.isCall = false

/-- A call of a placeholder that is shown, until its page arrived. -/
inductive Awaited (limit : ℕ) (sys : TranscriptSystem V) : TranscriptSystem V → Prop
  | earlier {mid last : TranscriptSystem V} {labels : List (TranscriptLabel V)} {page : EntryPage V}
      (hshown : TranscriptItem.earlier ∈ sys.transcript.items) (hwait : Steps (Step limit) sys.callEarlier labels mid)
      (hlabels : Waits labels) (harrives : Step limit mid (.earlierArrives page) last) : Awaited limit sys last
  | gap {gap : Gap} {mid last : TranscriptSystem V} {labels : List (TranscriptLabel V)} {page : EntryPage V}
      (hshown : TranscriptItem.gap gap ∈ sys.transcript.items) (hwait : Steps (Step limit) (sys.callFill gap) labels mid)
      (hlabels : Waits labels) (harrives : Step limit mid (.fillArrives gap page) last) : Awaited limit sys last

/-- So many calls, one after the other, of placeholders that are shown, and no merge. -/
inductive Awaits (limit : ℕ) : ℕ → TranscriptSystem V → TranscriptSystem V → Prop
  | done {sys sys' : TranscriptSystem V} {labels : List (TranscriptLabel V)} (hwait : Steps (Step limit) sys labels sys') (hlabels : Waits labels) :
      Awaits limit 0 sys sys'
  | call {n : ℕ} {sys sys₁ sys₂ sys₃ : TranscriptSystem V} {labels : List (TranscriptLabel V)} (hwait : Steps (Step limit) sys labels sys₁)
      (hlabels : Waits labels) (hcall : Awaited limit sys₁ sys₂) (hrest : Awaits limit n sys₂ sys₃) : Awaits limit (n + 1) sys sys₃

/-! ## Open loads -/

/-- The load of a gap as it is answered. -/
def answered (gap : Gap) (load : EntryLoad Gap) : EntryLoad Gap := if load.bounds = gap then { load with answered := true } else load

theorem countP_answered_le (gap : Gap) (fil : List (EntryLoad Gap)) :
    ((fil.map (answered gap)).countP fun load => !load.answered) ≤ fil.countP fun load => !load.answered := by
  rw [countP_map]
  refine countP_mono_left fun load _ hopen => ?_
  rw [Function.comp_apply] at hopen
  unfold answered at hopen
  split at hopen
  · cases hopen
  · exact hopen

variable {gap : Gap}

/-- A load that gets its page is open no more. -/
theorem countP_answered_lt {snc : ℕ} {fil : List (EntryLoad Gap)} (hload : ⟨gap, snc, false⟩ ∈ fil) :
    ((fil.map (answered gap)).countP fun load => !load.answered) < fil.countP fun load => !load.answered := by
  obtain ⟨bef, aft, rfl⟩ := append_of_mem hload
  have hbef := countP_answered_le gap bef
  have haft := countP_answered_le gap aft
  have hself : answered gap ⟨gap, snc, false⟩ = ⟨gap, snc, true⟩ := if_pos rfl
  rw [map_append, map_cons, hself, countP_append, countP_append, countP_cons_of_neg Bool.false_ne_true, countP_cons_of_pos rfl]
  omega

/-- What is left, where the client shows the same and has the same loads open. -/
structure Still (sys sys' : TranscriptSystem V) : Prop where
  low : sys'.transcript.low = sys.transcript.low
  gaps : sys'.transcript.gaps = sys.transcript.gaps
  earlier : ∀ low since, sys'.earlier = some ⟨low, since, false⟩ → sys.earlier = some ⟨low, since, false⟩

theorem Still.trans {sys'' : TranscriptSystem V} (h : Still sys sys') (h' : Still sys' sys'') : Still sys sys'' :=
  ⟨h'.low.trans h.low, h'.gaps.trans h.gaps, fun low snc hload => h.earlier low snc (h'.earlier low snc hload)⟩

theorem missing_of_unchanged {t' : Transcript V} {earl : Option (EntryLoad ℤ)} {fil : List (EntryLoad Gap)} (h : sys.transcript.Unchanged t') :
    missing { sys with transcript := t', earlier := earl, filling := fil } = missing sys := by
  show 2 * (sys.known.length - t'.entries.length) + t'.gaps.length + (if t'.low = ⊥ then 0 else 2) = _
  rw [h.entries, h.gaps, h.low]
  rfl

theorem openLoads_earlier {low : ℤ} {snc : ℕ} (hload : sys.earlier = some ⟨low, snc, false⟩) :
    openLoads sys = 1 + sys.filling.countP fun load => !load.answered := by
  unfold openLoads
  rw [hload]
  rfl

/-- A page of what is earlier: the load is done, and one that nothing overtook brought something. -/
theorem Sound.left_earlierArrives (h : sys.Sound) {page : EntryPage V} (harrives : Step lim sys (.earlierArrives page) sys') :
    ∃ low snc, sys.earlier = some ⟨low, snc, false⟩ ∧ left sys' + 1 ≤ left sys ∧ (sys.transcript.low = (low : WithBot ℤ) → left sys' + 2 ≤ left sys) := by
  cases harrives with
  | @earlierArrives low snc kn _ hload hsinc hans =>
    have hopen := openLoads_earlier hload
    refine ⟨low, snc, hload, ?_⟩
    show missing _ + (0 + sys.filling.countP fun load => !load.answered) + 1 ≤ missing sys + openLoads sys ∧
      (_ → missing _ + (0 + sys.filling.countP fun load => !load.answered) + 2 ≤ missing sys + openLoads sys)
    obtain ⟨hsame, hne⟩ | hless := (h.earlierArrives hload hsinc hans).2.1
    · rw [missing_of_unchanged hsame]
      exact ⟨by omega, fun heq => absurd heq hne⟩
    · exact ⟨by omega, fun _ => by omega⟩

/-- A page of a gap: the load is done, and one that nothing overtook brought something. -/
theorem Sound.left_fillArrives (h : sys.Sound) {page : EntryPage V} (harrives : Step lim sys (.fillArrives gap page) sys') :
    left sys' + 1 ≤ left sys ∧ (gap ∈ sys.transcript.gaps → left sys' + 2 ≤ left sys) := by
  cases harrives with
  | @fillArrives _ snc kn _ hload hsinc hans =>
    have hopen := countP_answered_lt hload
    obtain ⟨hsame, hnot⟩ | hless := (h.fillArrives hload hsinc hans).2.1
    · have hmiss := @missing_of_unchanged V sys _ sys.earlier (sys.answerFill gap).filling hsame
      refine ⟨?_, fun hin => absurd hin hnot⟩
      exact Nat.add_lt_add_of_le_of_lt hmiss.le (Nat.add_lt_add_left hopen _)
    · have hboth := Nat.add_lt_add_of_lt_of_le hless (Nat.succ_le_of_lt (Nat.add_lt_add_left hopen (if sys.earlier.any (fun load => !load.answered) then 1 else 0)))
      refine ⟨?_, fun _ => ?_⟩
      · exact (Nat.lt_of_succ_lt hboth)
      · exact hboth

/-! ## Waiting -/

/-- **A step of waiting** gets something done, or leaves what is shown and which loads are open. -/
theorem Sound.wait_step {lab : TranscriptLabel V} (h : sys.Sound) (hstep : Step lim sys lab sys') (hmerge : lab.isMerge = false)
    (hcall : lab.isCall = false) : left sys' < left sys ∨ left sys' ≤ left sys ∧ Still sys sys' := by
  cases hstep with
  | @grows es hsrt =>
    right
    have hkn : (sys.conversation ++ es).take sys.seen = sys.known := take_append_of_le_length h.seen_le
    refine ⟨le_of_eq ?_, rfl, rfl, fun low snc hload => hload⟩
    show 2 * (((sys.conversation ++ es).take sys.seen).length - sys.transcript.entries.length) + _ + _ + _ = _
    rw [hkn]
    rfl
  | merges => cases hmerge
  | callsEarlier => cases hcall
  | callsFill => cases hcall
  | earlierArrives hload hsinc hans =>
    obtain ⟨-, -, -, hless, -⟩ := h.left_earlierArrives (.earlierArrives hload hsinc hans)
    exact .inl hless
  | earlierFails hload =>
    left
    have hopen := openLoads_earlier hload
    show missing sys + (0 + sys.filling.countP fun load => !load.answered) < missing sys + openLoads sys
    omega
  | earlierSettles hload =>
    right
    refine ⟨le_of_eq ?_, rfl, rfl, fun low snc hnone => ?_⟩
    · unfold left openLoads
      rw [hload]
      rfl
    · cases hnone
  | fillArrives hload hsinc hans => exact .inl (h.left_fillArrives (.fillArrives hload hsinc hans)).1
  | @fillFails gap snc hload =>
    left
    exact Nat.add_lt_add_left (Nat.add_lt_add_left (countP_answered_lt hload) _) (missing sys)
  | @fillSettles gap snc hload =>
    right
    have hopen := (filter_sublist (l := sys.filling) (p := fun load => decide (load.bounds ≠ gap))).countP_le (p := fun load => !load.answered)
    exact ⟨Nat.add_le_add_left (Nat.add_le_add_left hopen _) (missing sys), rfl, rfl, fun low snc hload => hload⟩

theorem Sound.wait {labs : List (TranscriptLabel V)} (h : sys.Sound) (hwait : Steps (Step lim) sys labs sys') (hlabs : Waits labs) :
    sys'.Sound ∧ (left sys' < left sys ∨ left sys' ≤ left sys ∧ Still sys sys') := by
  induction hwait with
  | refl => exact ⟨h, .inr ⟨le_refl _, rfl, rfl, fun low snc hload => hload⟩⟩
  | @tail labs mid last lab _ hstep ih =>
    obtain ⟨hmid, hleft⟩ := ih fun lab hlab => hlabs lab (mem_append_left _ hlab)
    obtain ⟨hmerge, hcall⟩ := hlabs lab (mem_append_right _ (.head _))
    refine ⟨hmid.step hstep, ?_⟩
    obtain hless | ⟨hle, hstill⟩ := hmid.wait_step hstep hmerge hcall
    · obtain hless' | ⟨hle', -⟩ := hleft
      · exact .inl (hless.trans hless')
      · exact .inl (lt_of_lt_of_le hless hle')
    · obtain hless' | ⟨hle', hstill'⟩ := hleft
      · exact .inl (lt_of_le_of_lt hle hless')
      · exact .inr ⟨hle.trans hle', hstill'.trans hstill⟩

/-! ## Awaited calls -/

variable {es : List (TranscriptEntry V)} {low : WithBot ℤ}

theorem mem_build_earlier {gaps : List Gap} : TranscriptItem.earlier ∈ build low gaps es ↔ low ≠ ⊥ := by
  have hnot : TranscriptItem.earlier ∉ interleave gaps es := by
    rw [mem_interleave]
    rintro (⟨gap, -, hgap⟩ | ⟨e, -, he⟩)
    · cases hgap
    · cases he
  unfold build
  split
  · rename_i hbot
    exact ⟨fun hin => absurd hin hnot, fun hne => absurd hbot hne⟩
  · rename_i hne
    exact ⟨fun _ => hne, fun _ => .head _⟩

theorem mem_build_gap {gaps : List Gap} : TranscriptItem.gap gap ∈ build low gaps es ↔ gap ∈ gaps := by
  have hin : TranscriptItem.gap gap ∈ interleave gaps es ↔ gap ∈ gaps := by
    rw [mem_interleave]
    simp
  unfold build
  split
  · exact hin
  · rw [mem_cons]
    simp [hin]

theorem mem_build_entry {gaps : List Gap} {e : TranscriptEntry V} : TranscriptItem.entry e ∈ build low gaps es ↔ e ∈ es := by
  have hin : TranscriptItem.entry e ∈ interleave gaps es ↔ e ∈ es := by
    rw [mem_interleave]
    simp
  unfold build
  split
  · exact hin
  · rw [mem_cons]
    simp [hin]

/-- A call of what is earlier shares the load there is, or begins one at the lower bound. -/
theorem Sound.callEarlier_cases (h : sys.Sound) (hlow : sys.transcript.low ≠ ⊥) : (sys.callEarlier = sys ∧ sys.earlier.isSome = true) ∨
      (left sys.callEarlier = left sys + 1 ∧ sys.callEarlier.transcript = sys.transcript ∧
        ∃ (low : ℤ) (snc : ℕ), sys.transcript.low = low ∧ sys.callEarlier.earlier = some ⟨low, snc, false⟩) := by
  have hstarted : sys.transcript.started = true := by
    by_contra hnot
    obtain ⟨-, -, htail⟩ := h.transcript.unstarted (Bool.eq_false_iff.mpr hnot)
    exact hlow (le_bot_iff.mp (htail ▸ h.transcript.low_le))
  obtain ⟨low, hbnd⟩ := exists_of_ne_bot hlow
  have hbnd' : sys.transcript.low = some low := hbnd
  unfold TranscriptSystem.callEarlier
  rw [hstarted, hbnd']
  cases hearl : sys.earlier with
  | some load => exact .inl ⟨rfl, rfl⟩
  | none =>
    refine .inr ⟨?_, rfl, low, _, rfl, rfl⟩
    have hnone : openLoads sys = 0 + sys.filling.countP fun load => !load.answered := by
      unfold openLoads
      rw [hearl]
      rfl
    show missing sys + (1 + sys.filling.countP fun load => !load.answered) = missing sys + openLoads sys + 1
    omega

/-- A gap there is stands for itself. -/
theorem current_self {gap : Gap} (hgap : gap ∈ sys.transcript.gaps) : sys.transcript.current gap = some gap := by
  unfold Transcript.current
  cases hfind : sys.transcript.gaps.find? fun each => each = gap with
  | none => exact absurd (decide_eq_true rfl) (find?_eq_none.mp hfind gap hgap)
  | some fnd =>
    have heq := find?_some hfind
    rw [decide_eq_true_eq] at heq
    rw [heq]
    rfl

/-- A call of a gap shares the load there is, or begins one. -/
theorem callFill_cases (hgap : gap ∈ sys.transcript.gaps) :
    sys.callFill gap = sys ∨ left (sys.callFill gap) = left sys + 1 ∧ (sys.callFill gap).transcript = sys.transcript := by
  have hcur := current_self hgap
  unfold TranscriptSystem.callFill
  rw [hcur]
  dsimp only
  split
  · exact .inl rfl
  · refine .inr ⟨?_, rfl⟩
    unfold left openLoads
    rw [countP_append]
    rfl

/-- **An awaited call** of what is shown leaves less. -/
theorem Awaited.less (hcall : Awaited lim sys sys') (h : sys.Sound) : sys'.Sound ∧ left sys' < left sys := by
  cases hcall with
  | @earlier mid _ labs page hshown hwait hlabs harrives =>
    have hlow : sys.transcript.low ≠ ⊥ := by
      rw [h.transcript.items_eq] at hshown
      exact mem_build_earlier.1 hshown
    obtain ⟨hmid, hleft⟩ := h.callEarlier.wait hwait hlabs
    obtain ⟨low, snc, hload, hone, htwo⟩ := hmid.left_earlierArrives harrives
    refine ⟨hmid.step harrives, ?_⟩
    obtain ⟨hshared, -⟩ | ⟨hnew, htranscript, low', snc', hbnd, hbegun⟩ := h.callEarlier_cases hlow
    · rw [hshared] at hleft
      obtain hless | ⟨hle, -⟩ := hleft
      · omega
      · omega
    · rw [hnew] at hleft
      obtain hless | ⟨hle, hstill⟩ := hleft
      · omega
      · -- Nothing overtook the load, so it still has the lower bound.
        have hsame := hstill.earlier low snc hload
        rw [hbegun] at hsame
        cases hsame
        have htwo := htwo (hstill.low.trans (htranscript ▸ hbnd))
        omega
  | @gap gap mid _ labs page hshown hwait hlabs harrives =>
    have hgap : gap ∈ sys.transcript.gaps := by
      rw [h.transcript.items_eq] at hshown
      exact mem_build_gap.1 hshown
    obtain ⟨hmid, hleft⟩ := (h.callFill gap).wait hwait hlabs
    obtain ⟨hone, htwo⟩ := hmid.left_fillArrives harrives
    refine ⟨hmid.step harrives, ?_⟩
    obtain hshared | ⟨hnew, htranscript⟩ := callFill_cases hgap
    · rw [hshared] at hleft
      obtain hless | ⟨hle, -⟩ := hleft
      · omega
      · omega
    · rw [hnew] at hleft
      obtain hless | ⟨hle, hstill⟩ := hleft
      · omega
      · have htwo := htwo (hstill.gaps ▸ htranscript ▸ hgap)
        omega

/-- **So many calls** find a placeholder, and no more. -/
theorem Awaits.bound {n : ℕ} (hcalls : Awaits lim n sys sys') (h : sys.Sound) : sys'.Sound ∧ n + left sys' ≤ left sys := by
  induction hcalls with
  | done hwait hlabs =>
    obtain ⟨hsound, hless | ⟨hle, -⟩⟩ := h.wait hwait hlabs
    · exact ⟨hsound, by omega⟩
    · exact ⟨hsound, by omega⟩
  | @call n sys sys₁ sys₂ sys₃ labs hwait hlabs hcall hrest ih =>
    obtain ⟨hsound₁, hleft⟩ := h.wait hwait hlabs
    obtain ⟨hsound₂, hless⟩ := hcall.less hsound₁
    obtain ⟨hsound₃, hle⟩ := ih hsound₂
    refine ⟨hsound₃, ?_⟩
    obtain hless' | ⟨hle', -⟩ := hleft
    · omega
    · omega

/-! ## Calls there are -/

/-- The whole answer to a query, as far as a page goes. -/
def pageOf (matching : List (TranscriptEntry V)) (limit : ℕ) : EntryPage V := ⟨matching.take limit, decide (limit < matching.length)⟩

theorem pageOf_answers (matching : List (TranscriptEntry V)) (hlim : 0 < lim) : (pageOf matching lim).Answers matching lim := by
  refine ⟨ take_prefix _ _, ?_, fun hnil => ?_, fun hwhole => ?_⟩
  · exact length_take_le _ _
  · obtain hzero | hnil := take_eq_nil_iff.mp hnil
    · omega
    · exact hnil
  · exact take_of_length_le (not_lt.mp (of_decide_eq_false hwhole))

/-- Loads that have their page settle. -/
theorem exists_settled (sys : TranscriptSystem V) :
    ∃ labs sys', Steps (Step lim) sys labs sys' ∧ Waits labs ∧ sys'.transcript = sys.transcript ∧ sys'.AllOpen := by
  -- The load of what is earlier first.
  have hfst : ∃ labs sys', Steps (Step lim) sys labs sys' ∧ Waits labs ∧ sys'.transcript = sys.transcript ∧
      ∀ load, sys'.earlier = some load → load.answered = false := by
    by_cases hanswered : ∃ low snc, sys.earlier = some ⟨low, snc, true⟩
    · obtain ⟨low, snc, hload⟩ := hanswered
      refine ⟨_, _, .single (.earlierSettles hload), ?_, rfl, fun load hnone => ?_⟩
      · intro lab hlab
        obtain rfl := mem_singleton.mp hlab
        exact ⟨rfl, rfl⟩
      · cases hnone
    · refine ⟨_, _, .refl, fun lab hlab => ?_, rfl, fun load hload => ?_⟩
      · cases hlab
      · obtain ⟨low, snc, answered⟩ := load
        cases answered with
        | false => rfl
        | true => exact absurd ⟨low, snc, hload⟩ hanswered
  obtain ⟨labs, sys₁, hrun, hlabs, hsame, hearl⟩ := hfst
  -- Then the loads of gaps, each with one of its own, so that there are fewer.
  have hrest (n : ℕ) : ∀ sys₁ : TranscriptSystem V, sys₁.filling.length = n → (∀ load, sys₁.earlier = some load → load.answered = false) →
      ∃ labs sys', Steps (Step lim) sys₁ labs sys' ∧ Waits labs ∧ sys'.transcript = sys₁.transcript ∧ sys'.AllOpen := by
    induction n using Nat.strong_induction_on with
    | _ n ih =>
      intro sys₁ hlen hearl
      by_cases hanswered : ∃ gap snc, ⟨gap, snc, true⟩ ∈ sys₁.filling
      · obtain ⟨gap, snc, hload⟩ := hanswered
        have hless : (sys₁.filling.filter fun load => decide (load.bounds ≠ gap)).length < n := by
          rw [← hlen]
          exact length_filter_lt_length_iff_exists.mpr ⟨_, hload, by simp⟩
        obtain ⟨labs, sys', hrun, hlabs, hsame, hopen⟩ :=
          ih _ hless { sys₁ with filling := sys₁.filling.filter fun load => decide (load.bounds ≠ gap) } rfl hearl
        refine ⟨_, sys', .head (.fillSettles hload) hrun, fun lab hlab => ?_, hsame, hopen⟩
        obtain rfl | hin := mem_cons.mp hlab
        · exact ⟨rfl, rfl⟩
        · exact hlabs lab hin
      · refine ⟨_, _, .refl, fun lab hlab => ?_, rfl, hearl, fun load hload => ?_⟩
        · cases hlab
        · obtain ⟨gap, snc, answered⟩ := load
          cases answered with
          | false => rfl
          | true => exact absurd ⟨gap, snc, hload⟩ hanswered
  obtain ⟨labs', sys', hrun', hlabs', hsame', hopen⟩ := hrest _ sys₁ rfl hearl
  refine ⟨_, sys', hrun.trans hrun', fun lab hlab => ?_, hsame'.trans hsame, hopen⟩
  obtain hin | hin := mem_append.mp hlab
  · exact hlabs lab hin
  · exact hlabs' lab hin

theorem waits_nil : Waits ([] : List (TranscriptLabel V)) := by
  intro lab hlab
  cases hlab

/-- **A placeholder** that is shown can be called. -/
theorem Sound.exists_awaited (h : sys.Sound) (hlim : 0 < lim)
    (hshown : TranscriptItem.earlier ∈ sys.transcript.items ∨ ∃ gap, TranscriptItem.gap gap ∈ sys.transcript.items) :
    ∃ labs sys₁ sys₂, Steps (Step lim) sys labs sys₁ ∧ Waits labs ∧ Awaited lim sys₁ sys₂ := by
  obtain ⟨labs, sys₁, hrun, hlabs, hsame, hopen⟩ := @exists_settled V lim sys
  have h₁ := (h.wait hrun hlabs).1
  obtain hearl | ⟨gap, hgap⟩ := hshown
  · have hlow : sys₁.transcript.low ≠ ⊥ := by
      rw [h.transcript.items_eq] at hearl
      exact hsame ▸ mem_build_earlier.1 hearl
    have hload : ∃ low snc, sys₁.callEarlier.earlier = some ⟨low, snc, false⟩ := by
      obtain ⟨hshared, hsome⟩ | ⟨-, -, low, snc, -, hbegun⟩ := h₁.callEarlier_cases hlow
      · obtain ⟨⟨low, snc, answered⟩, hload⟩ := Option.isSome_iff_exists.mp hsome
        obtain rfl : answered = false := hopen.1 _ hload
        refine ⟨low, snc, ?_⟩
        rw [hshared]
        exact hload
      · exact ⟨low, snc, hbegun⟩
    obtain ⟨low, snc, hload⟩ := hload
    exact ⟨labs, sys₁, _, hrun, hlabs,
      .earlier (hsame ▸ hearl) .refl waits_nil (.earlierArrives hload (le_refl snc) (pageOf_answers _ hlim))⟩
  · have hin : gap ∈ sys₁.transcript.gaps := by
      rw [h.transcript.items_eq] at hgap
      exact hsame ▸ mem_build_gap.1 hgap
    have hload : ∃ snc, ⟨gap, snc, false⟩ ∈ (sys₁.callFill gap).filling := by
      have hcur := @current_self V sys₁ gap hin
      unfold TranscriptSystem.callFill
      rw [hcur]
      dsimp only
      split
      · rename_i hany
        obtain ⟨⟨bds, snc, answered⟩, hload, heq⟩ := any_eq_true.mp hany
        obtain rfl : bds = gap := of_decide_eq_true heq
        obtain rfl : answered = false := hopen.2 _ hload
        exact ⟨snc, hload⟩
      · exact ⟨_, mem_append_right _ (.head _)⟩
    obtain ⟨snc, hload⟩ := hload
    exact ⟨labs, sys₁, _, hrun, hlabs, .gap (hsame ▸ hgap) .refl waits_nil (.fillArrives hload (le_refl snc) (pageOf_answers _ hlim))⟩

/-- **Calls of what is shown** come to an end, where nothing is. -/
theorem Sound.exists_awaits (h : sys.Sound) (hlim : 0 < lim) :
    ∃ n sys', Awaits lim n sys sys' ∧ TranscriptItem.earlier ∉ sys'.transcript.items ∧ ∀ gap, TranscriptItem.gap gap ∉ sys'.transcript.items := by
  obtain ⟨m, hm⟩ : ∃ m, left sys = m := ⟨_, rfl⟩
  induction m using Nat.strong_induction_on generalizing sys with
  | _ m ih =>
    by_cases hshown : TranscriptItem.earlier ∈ sys.transcript.items ∨ ∃ gap, TranscriptItem.gap gap ∈ sys.transcript.items
    · obtain ⟨labs, sys₁, sys₂, hrun, hlabs, hcall⟩ := h.exists_awaited hlim hshown
      obtain ⟨h₁, hleft⟩ := h.wait hrun hlabs
      obtain ⟨h₂, hless⟩ := hcall.less h₁
      have hdown : left sys₂ < m := by
        obtain hless' | ⟨hle, -⟩ := hleft
        · omega
        · omega
      obtain ⟨n, sys', hrest, hdone⟩ := ih _ hdown h₂ rfl
      exact ⟨n + 1, sys', .call hrun hlabs hcall hrest, hdone⟩
    · rw [not_or, not_exists] at hshown
      exact ⟨0, sys, .done .refl waits_nil, hshown⟩

end TranscriptSystem

end PiBridge.Durable
