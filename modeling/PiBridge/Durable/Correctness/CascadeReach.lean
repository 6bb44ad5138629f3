import PiBridge.Durable.Correctness.OwnershipWalks

/-!
# `Durable.Correctness.CascadeReach` — what a cancelled owner reaches, in the records

`IntentReaches` says, of stored records alone, that an owner's cancellation intent reaches a task: on the way down there is
no background task without intent. `Nearest` is the last such owner on the way. Where the chain above a task is loaded,
the memory's walks see the same owners (`between_iff`, `reaches_iff`).
-/

namespace PiBridge.Durable

open Lib Option

variable {V : Type} {t : Tables V} {n p x top : Node} {owner owner' id : TaskId}

namespace Tables

/-- What a node of stored records hangs from. -/
def up (t : Tables V) (n : Node) : Option Node := (t.parent? n).join

/-- A live task with cancellation intent. -/
def Cancels (t : Tables V) (id : TaskId) : Prop := ∃ record, Assoc.get? t.tasks id = some record ∧ cancellationIntent record = true

/-- A node that is not a background task without intent. -/
def Passes (t : Tables V) : Node → Prop
  | .conversation _ => True
  | .task id => ∀ record, Assoc.get? t.tasks id = some record → record.background = true → t.Cancels id

/-- A node that is neither a background task nor an owner with intent. -/
def Plain (t : Tables V) : Node → Prop
  | .conversation _ => True
  | .task id => (∀ record, Assoc.get? t.tasks id = some record → record.background = false) ∧ ¬t.Cancels id

/-- The owner's cancellation intent reaches the task. -/
def IntentReaches (t : Tables V) (owner id : TaskId) : Prop := t.Cancels owner ∧ Under t.up t.Passes (.task owner) (.task id)

/-- The nearest owner whose intent reaches the task. -/
def Nearest (t : Tables V) (owner id : TaskId) : Prop := t.Cancels owner ∧ Under t.up t.Plain (.task owner) (.task id)

theorem up_eq_some : t.up n = some p ↔ t.parent? n = some (some p) := join_eq_some_iff

/-- Where an intent reaches a task, there is a nearest one, whose owner is the given one or one it reaches. -/
theorem IntentReaches.nearest (h : t.IntentReaches owner id) : ∃ nearest, t.Nearest nearest id := by
  let stop : Node → Prop := fun n => ∃ id, n = .task id ∧ t.Cancels id
  obtain ⟨at', ⟨near, rfl, hcanc⟩, -, hunder⟩ := h.2.nearest stop ⟨owner, rfl, h.1⟩
  refine ⟨near, hcanc, hunder.mono fun y hy => ?_⟩
  cases y with
  | conversation => trivial
  | task y =>
    have hnot : ¬t.Cancels y := fun hcanc => hy.2 ⟨y, rfl, hcanc⟩
    refine ⟨fun rec hrec => ?_, hnot⟩
    rw [Bool.eq_false_iff]
    exact fun hback => hnot (hy.1 rec hrec hback)

theorem Nearest.unique (h : t.Nearest owner id) (h' : t.Nearest owner' id) : owner = owner' := by
  obtain heq | ⟨hplain, -⟩ | ⟨hplain, -⟩ := h.2.compare h'.2
  · exact Node.task.inj heq
  · exact absurd h'.1 hplain.2
  · exact absurd h.1 hplain.2

end Tables

namespace TaskScheduler

variable {s : TaskScheduler V}

/-- The chain above a node is loaded, up to its root. -/
inductive Loaded (s : TaskScheduler V) : Node → Prop where
  | root {n : Node} : s.parent? .none n = some none → Loaded s n
  | above {n p : Node} : s.parent? .none n = some (some p) → Loaded s p → Loaded s n

/-- The owner chains of the live tasks are loaded. -/
def ChainsLoaded (s : TaskScheduler V) : Prop := ∀ id record, s.task? id = some record → Loaded s (.task id)

theorem Loaded.known (h : Loaded s n) : ∃ at', s.parent? .none n = some at' := by
  cases h with
  | root h | above h => exact ⟨_, h⟩

theorem Holds.up (h : Holds s t) (hup : s.up n = some p) : t.up n = some p :=
  Tables.up_eq_some.2 (h.parent? (TaskScheduler.up_eq_some.1 hup))

/-- A loaded node hangs from what the records say, and that is loaded. -/
theorem Loaded.up (h : Holds s t) (hload : Loaded s n) (hup : t.up n = some p) : s.up n = some p ∧ Loaded s p := by
  rw [Tables.up_eq_some] at hup
  cases hload with
  | root hat =>
    rw [h.parent? hat] at hup
    cases hup
  | above hat habv =>
    rw [h.parent? hat] at hup
    cases some.inj hup
    exact ⟨TaskScheduler.up_eq_some.2 hat, habv⟩

theorem Holds.mem_intent (h : Holds s t) : id ∈ s.intent ↔ t.Cancels id := by
  rw [h.intent]
  constructor
  · rintro ⟨rec, hrec, hcanc⟩
    exact ⟨rec, ((h.live id rec).mp hrec).1, hcanc⟩
  · rintro ⟨rec, hrec, hcanc⟩
    have hlive : rec.isLive = true := (Bool.and_eq_true_iff.mp hcanc).1
    exact ⟨rec, (h.live id rec).mpr ⟨hrec, hlive⟩, hcanc⟩

/-- A node the walks enter is a plain one, and conversely where it is known. -/
theorem Holds.plain (h : Holds s t) (hbtw : s.Between n) : t.Plain n := by
  cases n with
  | conversation => trivial
  | task id =>
    obtain ⟨node, hnode, hfore, hnot⟩ := between_task.mp hbtw
    obtain ⟨rec, hrec, rfl⟩ := h.node? hnode
    refine ⟨fun fnd hfnd => ?_, fun hcanc => hnot (h.mem_intent.mpr hcanc)⟩
    rw [hrec] at hfnd
    exact some.inj hfnd ▸ hfore

theorem Holds.between (h : Holds s t) (hload : Loaded s n) (hplain : t.Plain n) : s.Between n := by
  cases n with
  | conversation => rfl
  | task id =>
    obtain ⟨at', hat⟩ := hload.known
    obtain ⟨node, hnode, -⟩ := map_eq_some_iff.mp hat
    obtain ⟨rec, hrec, rfl⟩ := h.node? hnode
    exact between_task.mpr ⟨_, hnode, hplain.1 rec hrec, fun hmem => hplain.2 (h.mem_intent.mp hmem)⟩

/-- **Over a loaded chain** the memory sees the ways that are there. -/
theorem Holds.under_iff (h : Holds s t) (hload : Loaded s x) : Under s.up s.Between top x ↔ Under t.up t.Plain top x := by
  constructor
  · intro hunder
    clear hload
    induction hunder with
    | child hup => exact .child (h.up hup)
    | step hup hbtw _ ih => exact .step (h.up hup) (h.plain hbtw) ih
  · intro hunder
    induction hunder with
    | child hup => exact .child (hload.up h hup).1
    | step hup hplain _ ih =>
      obtain ⟨hup', habv⟩ := hload.up h hup
      exact .step hup' (h.between habv hplain) (ih habv)

/-- The owner a walk up finds is the nearest one of the records. -/
theorem Holds.cancellingOwner (h : Holds s t) (hr : t.Ranked) (hload : Loaded s (.task id)) {rec : AnyTaskRecord V}
    (hrec : s.task? id = some rec) {fnd : AnyTaskRecord V} :
    s.cancellingOwner (parentNode rec.toTaskNode) = some fnd ↔ ∃ owner, Assoc.get? t.tasks owner = some fnd ∧ t.Nearest owner id := by
  have hup : s.up (.task id) = some (parentNode rec.toTaskNode) := by
    rw [up_task, node?_none, hrec]
    rfl
  rw [cancellingOwner_eq h (h.descends hr) hup]
  constructor
  · rintro ⟨owner, hown, hmem, hunder⟩
    exact ⟨owner, ((h.live owner fnd).mp hown).1, h.mem_intent.mp hmem, (h.under_iff hload).mp hunder⟩
  · rintro ⟨owner, hown, hcanc, hunder⟩
    obtain ⟨same, hsame, hmem⟩ := (h.intent owner).mp (h.mem_intent.mpr hcanc)
    have hsto := ((h.live owner same).mp hsame).1
    rw [hown] at hsto
    cases hsto
    exact ⟨owner, hsame, h.mem_intent.mpr hcanc, (h.under_iff hload).mpr hunder⟩

/-- The live tasks a walk down from an owner visits are the ones it is the nearest owner with intent of. -/
theorem Mirrors.mem_walkDown (h : Mirrors s t) (hr : t.Ranked) (hload : Loaded s (.task id)) {rec : AnyTaskRecord V}
    (hrec : s.task? id = some rec) :
    (∃ visit ∈ s.walkDown .none false (fun bel => !decide (bel ∈ s.intent)) (.task owner), visit.id = id) ↔
      Under t.up t.Plain (.task owner) (.task id) :=
  (TaskScheduler.mem_walkDown h.listed (h.toHolds.descends hr) hrec).trans (h.toHolds.under_iff hload)

end TaskScheduler

end PiBridge.Durable
