import PiBridge.Durable.Storage

/-!
# `Durable.Transaction` — the submission changes of a commit

A commit stages changes of submissions and writes the records they lead to.
-/

namespace PiBridge.Durable

open Lib

variable {V O : Type}

/-- A staged submission change: a settlement, or the placement of a queued submission at its entry. -/
inductive SubmissionChange (V : Type) where
  | placed (entry : EntryId)
  | done (answer : EntryId)
  | unanswered (reason : String) (detail : Option V)

/-- Complete record after applying one change. A settled record stays. -/
def applySubmissionChange (current : SubmissionRecord V) (change : SubmissionChange V) : Except String (SubmissionRecord V) :=
  if current.status = .done ∨ current.status = .unanswered then .ok current
  else match change with
    | .placed entry =>
      if current.status ≠ .queued then .error s!"Submission {current.id} is not queued"
      else .ok { current with status := if current.type = .input then .placed else .done, entry := some entry }
    | .done answer =>
      if current.status ≠ .placed then .error s!"Submission {current.id} is not a placed input or continue"
      else .ok { current with status := .done, answer := some answer }
    | .unanswered reason detail => .ok { current with status := .unanswered, reason := some reason, detail }

structure EntryDraft (V : Type) where
  /-- `self` starts the active context at the new entry. -/
  head : Option (EntryId ⊕ Unit)
  rest : V

/-- The submissions of the batch: the staged changes, in the order they were asked for, on the latest record of each. -/
def Transaction.foldSubmissions (s : Storage V O) : List (SubmissionId × SubmissionChange V) → Assoc SubmissionId (SubmissionRecord V) →
      Except String (Assoc SubmissionId (SubmissionRecord V))
  | [], submissions => .ok submissions
  | (id, change) :: rest, submissions =>
    match (Assoc.get? submissions id).or (s.submission id) with
    | none => .error s!"Submission {id} does not exist"
    | some current => do
      let next ← applySubmissionChange current change
      -- A settled record stays as it was, and is not written.
      if current.status = .done ∨ current.status = .unanswered then foldSubmissions s rest submissions
      else foldSubmissions s rest (Assoc.set submissions id next)

end PiBridge.Durable
