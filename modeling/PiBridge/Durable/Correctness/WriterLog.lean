import PiBridge.Durable.Writer
import Mathlib.Data.List.Nodup
import Mathlib.Data.List.Range

/-!
# `Durable.Correctness.WriterLog` — what a writer may do, and when

`Legal` says of one event what must have happened before it: a part is published after every part before it, a stored
one after its receipt, nothing once the Session failed; an outcome settles once, after its publication or its discard.
`Core` is what the log of a legal run says about the parts, with the parts whose outcome is still open; each way a
part's outcome ends, and each event, keeps it.
-/

namespace PiBridge.Durable

open Lib List Option Event

variable {ω ε : Type}

/-! ## Reading the log -/

def Event.published? : Event ω ε → Option (Part ω)
  | .published part _ _ => some part
  | _ => none

def Event.discarded? : Event ω ε → Option (Part ω)
  | .discarded part => some part
  | _ => none

def Event.settled? : Event ω ε → Option (Part ω)
  | .settled part _ => some part
  | _ => none

def Event.opened? : Event ω ε → Option (Part ω)
  | .opened part => some part
  | _ => none

/-- The Session failed. -/
def Event.isFailure : Event ω ε → Bool
  | .failed _ _ _ | .external _ => true
  | _ => false

/-- The adoption of a published part threw. -/
def Event.adoptionFails : Event ω ε → Bool
  | .published _ _ failure => failure.any (·.kind = .adoption)
  | _ => false

def publishedParts (log : List (Event ω ε)) : List (Part ω) := log.filterMap Event.published?

def discardedParts (log : List (Event ω ε)) : List (Part ω) := log.filterMap Event.discarded?

def settledParts (log : List (Event ω ε)) : List (Part ω) := log.filterMap Event.settled?

def openedParts (log : List (Event ω ε)) : List (Part ω) := log.filterMap Event.opened?

/-- The receipt after an event. -/
def Event.receiptOf (place : Nat) (receipt : Option Nat) : Event ω ε → Option Nat
  | .received part seq => if part.place = place then some seq else receipt
  | _ => receipt

/-- The seq of a part's last receipt. -/
def receipt (log : List (Event ω ε)) (place : Nat) : Option Nat := log.foldl (Event.receiptOf place) none

/-- Nothing said so far that a part is lost: no adoption threw, and no call rejected or left a stored part without a
receipt. -/
def Intact (log : List (Event ω ε)) : Prop := (∀ event ∈ log, event.adoptionFails = false) ∧
    ∀ parts result, Event.answered parts result ∈ log →
      result.rejected? = none ∧ ∀ part ∈ parts, part.stored = true → (receipt log part.place).isSome = true

/-- **What must have happened before an event.** -/
def Legal (log : List (Event ω ε)) : Event ω ε → Prop
  | .sent _ => (∀ event ∈ log, event.isFailure = false) ∧ Intact log
  | .published part seq _ =>
    (publishedParts log).map (·.place) = List.range part.place ∧ seq = receipt log part.place ∧ seq.isSome = part.stored ∧
      part ∉ discardedParts log ∧ (∀ event ∈ log, event.isFailure = false) ∧ (∀ event ∈ log, event.adoptionFails = false) ∧
      ∀ parts result, Event.answered parts result ∈ log → (result.rejected?.isSome = true → part ∈ parts) ∧
        ∀ other ∈ parts, other.stored = true → receipt log other.place = none → part.place < other.place
  | .discarded part => part ∉ publishedParts log ∧ part ∉ discardedParts log
  | .settled part _ => (part ∈ publishedParts log ∨ part ∈ discardedParts log) ∧ part ∉ settledParts log
  | .opened part => part ∈ settledParts log ∧ part ∉ openedParts log
  | .received _ _ | .answered _ _ | .failed _ _ _ | .external _ => True

/-- Every event was legal where it happened. -/
def Lawful (log : List (Event ω ε)) : Prop := ∀ before event after, log = before ++ event :: after → Legal before event

theorem Lawful.nil : Lawful ([] : List (Event ω ε)) := fun _ _ _ h => absurd h.symm (by simp)

theorem Lawful.append {log : List (Event ω ε)} (h : Lawful log) {event : Event ω ε} (hev : Legal log event) : Lawful (log ++ [event]) := by
  intro bef oth aft heq
  rcases eq_nil_or_concat aft with rfl | ⟨init, last, rfl⟩
  · obtain ⟨rfl, hsingle⟩ := append_inj' heq rfl
    obtain rfl := singleton_inj.mp hsingle
    exact hev
  · rw [concat_eq_append, ← cons_append, ← append_assoc] at heq
    obtain ⟨rfl, -⟩ := append_inj' heq rfl
    exact h bef oth init rfl

section Append

variable (log more : List (Event ω ε)) (event : Event ω ε)

theorem parts_cons {β : Type} (f : Event ω ε → Option β) : (event :: log).filterMap f = (f event).toList ++ log.filterMap f := by
  rw [filterMap_cons]
  cases f event <;> rfl

@[simp] theorem publishedParts_nil : publishedParts ([] : List (Event ω ε)) = [] := rfl

@[simp] theorem publishedParts_append : publishedParts (log ++ more) = publishedParts log ++ publishedParts more := filterMap_append

@[simp] theorem publishedParts_cons : publishedParts (event :: log) = event.published?.toList ++ publishedParts log := parts_cons ..

@[simp] theorem discardedParts_nil : discardedParts ([] : List (Event ω ε)) = [] := rfl

@[simp] theorem discardedParts_append : discardedParts (log ++ more) = discardedParts log ++ discardedParts more := filterMap_append

@[simp] theorem discardedParts_cons : discardedParts (event :: log) = event.discarded?.toList ++ discardedParts log := parts_cons ..

@[simp] theorem settledParts_nil : settledParts ([] : List (Event ω ε)) = [] := rfl

@[simp] theorem settledParts_append : settledParts (log ++ more) = settledParts log ++ settledParts more := filterMap_append

@[simp] theorem settledParts_cons : settledParts (event :: log) = event.settled?.toList ++ settledParts log := parts_cons ..

@[simp] theorem openedParts_nil : openedParts ([] : List (Event ω ε)) = [] := rfl

@[simp] theorem openedParts_append : openedParts (log ++ more) = openedParts log ++ openedParts more := filterMap_append

@[simp] theorem openedParts_cons : openedParts (event :: log) = event.opened?.toList ++ openedParts log := parts_cons ..

@[simp] theorem receipt_append (pl : Nat) : receipt (log ++ more) pl = more.foldl (Event.receiptOf pl) (receipt log pl) :=
  foldl_append

variable {log event} in
theorem publishedParts_event (h : event.published? = none) : publishedParts (log ++ [event]) = publishedParts log := by simp [h]

variable {log event} in
theorem settledParts_event (h : event.settled? = none) : settledParts (log ++ [event]) = settledParts log := by simp [h]

theorem receipt_isSome_append {pl : Nat} (h : (receipt log pl).isSome = true) : (receipt (log ++ [event]) pl).isSome = true := by
  rw [receipt_append, foldl_cons, foldl_nil]
  cases event with
  | received part seq =>
    rw [receiptOf]
    split
    · rfl
    · exact h
  | _ => exact h

theorem Intact.append {log : List (Event ω ε)} (h : Intact log) {event : Event ω ε} (hadopts : event.adoptionFails = false)
    (hansw : ∀ parts res, event ≠ .answered parts res) : Intact (log ++ [event]) := by
  refine ⟨fun oth hoth => ?_, fun parts res hoth => ?_⟩
  · rcases mem_snoc.mp hoth with hoth | rfl
    · exact h.1 oth hoth
    · exact hadopts
  · rcases mem_append.mp hoth with hoth | hoth
    · obtain ⟨hres, hpts⟩ := h.2 parts res hoth
      exact ⟨hres, fun part hpart hsto => receipt_isSome_append log event (hpts part hpart hsto)⟩
    · exact absurd (mem_singleton.mp hoth).symm (hansw parts res)

end Append

/-! ## The parts and their log -/

/-- What a log says about the admitted parts; `rest` are the ones whose outcome is still open. -/
structure Core (parts : List (Part ω)) (log : List (Event ω ε)) (rest : List (Part ω)) : Prop where
  places : parts.map (·.place) = List.range parts.length
  order : settledParts log ++ rest = parts
  opens : openedParts log = settledParts log
  published : publishedParts log <+: parts
  discarded : ∀ part ∈ discardedParts log, part ∈ settledParts log ∧ part ∉ publishedParts log
  ended : ∀ part ∈ settledParts log, part ∈ publishedParts log ∨ part ∈ discardedParts log
  held : ∀ part ∈ parts, part.stored = false → receipt log part.place = none
  beyond : ∀ place, parts.length ≤ place → receipt log place = none
  lawful : Lawful log

namespace Core

variable {parts rest : List (Part ω)} {log : List (Event ω ε)} {part : Part ω}

theorem new : Core ([] : List (Part ω)) ([] : List (Event ω ε)) [] where
  places := rfl
  order := rfl
  opens := rfl
  published := nil_prefix
  discarded := nofun
  ended := nofun
  held := nofun
  beyond _ _ := rfl
  lawful := Lawful.nil

theorem nodup (h : Core parts log rest) : parts.Nodup := by
  have hplaces : (parts.map (·.place)).Nodup := h.places ▸ nodup_range
  exact hplaces.of_map _

/-- A part comes after those before it. -/
theorem place_eq (h : Core parts log rest) {bef aft : List (Part ω)} (heq : parts = bef ++ part :: aft) :
    bef.map (·.place) = List.range part.place ∧ ∀ oth ∈ aft, part.place < oth.place := by
  have hplaces := h.places
  rw [heq, map_append, map_cons, length_append, length_cons] at hplaces
  have hat : ∀ i : Nat, (bef.map (·.place) ++ part.place :: aft.map (·.place))[i]? =
      (range (bef.length + (aft.length + 1)))[i]? := fun i => by rw [hplaces]
  have hpart : part.place = bef.length := by
    have hone := hat bef.length
    rw [getElem?_append_right (by rw [length_map]), length_map, Nat.sub_self, getElem?_range (by omega)] at hone
    exact some.inj hone
  constructor
  · rw [hpart]
    refine ext_getElem (by rw [length_map, length_range]) fun i hi _ => ?_
    rw [length_map] at hi
    have hone := hat i
    rw [getElem?_append_left (by rw [length_map]; exact hi), getElem?_range (by omega),
      getElem?_eq_getElem (by rw [length_map]; exact hi)] at hone
    rw [getElem_range]
    exact some.inj hone
  · intro oth hoth
    obtain ⟨i, hi, rfl⟩ := getElem_of_mem hoth
    have hone := hat (bef.length + 1 + i)
    rw [getElem?_append_right (by rw [length_map]; omega), length_map,
      show bef.length + 1 + i - bef.length = i + 1 by omega, getElem?_cons_succ,
      getElem?_range (by omega), getElem?_map, getElem?_eq_getElem hi] at hone
    have hplace : (aft[i]).place = bef.length + 1 + i := some.inj hone
    omega

/-- The first open part is not settled. -/
theorem not_settled (h : Core parts log (part :: rest)) : part ∉ settledParts log := by
  intro hmem
  have hnd := h.nodup
  rw [← h.order, nodup_append] at hnd
  exact hnd.2.2 part hmem part mem_cons_self rfl

/-- An event that says nothing about a part's end, its publication or its receipt. -/
theorem event (h : Core parts log rest) {event : Event ω ε} (hlegal : Legal log event) (hpub : event.published? = none)
    (hdiscarded : event.discarded? = none) (hsett : event.settled? = none) (hopened : event.opened? = none)
    (hrcpt : ∀ pl old, event.receiptOf pl old = old) : Core parts (log ++ [event]) rest where
  places := h.places
  order := by simpa [hsett] using h.order
  opens := by simpa [hsett, hopened] using h.opens
  published := by simpa [hpub] using h.published
  discarded := by simpa [hdiscarded, hsett, hpub] using h.discarded
  ended := by simpa [hdiscarded, hsett, hpub] using h.ended
  held := by simpa [hrcpt] using h.held
  beyond := by simpa [hrcpt] using h.beyond
  lawful := h.lawful.append hlegal

/-- **An outcome settles** after the part was published, and its gate opens. -/
theorem settle (h : Core parts log (part :: rest)) (hpub : part ∈ publishedParts log) (oc : Outcome ε) :
    Core parts (log ++ [Event.settled part oc] ++ [Event.opened part]) rest where
  places := h.places
  order := by
    have hordr := h.order
    simpa [settled?] using hordr
  opens := by simp [settled?, opened?, h.opens]
  published := by simpa [published?] using h.published
  discarded other hoth := by
    have hold : other ∈ discardedParts log := by simpa [discarded?] using hoth
    obtain ⟨hsett, hnot⟩ := h.discarded other hold
    simpa [settled?, published?] using And.intro (Or.inl hsett) hnot
  ended other hoth := by
    have hold : other ∈ settledParts log ++ [part] := by simpa [settled?] using hoth
    suffices hends : other ∈ publishedParts log ∨ other ∈ discardedParts log by
      simpa [published?, discarded?] using hends
    rcases mem_snoc.mp hold with hoth | rfl
    · exact h.ended other hoth
    · exact Or.inl hpub
  held := by simpa [receiptOf] using h.held
  beyond := by simpa [receiptOf] using h.beyond
  lawful := by
    have hsettle : Legal log (.settled part oc) := ⟨Or.inl hpub, h.not_settled⟩
    refine (h.lawful.append hsettle).append ⟨?_, ?_⟩
    · simp [settled?]
    · simpa [opened?, h.opens] using h.not_settled

/-- **A part that will never be published** is discarded before its outcome settles. -/
theorem discard (h : Core parts log (part :: rest)) (hnot : part ∉ publishedParts log) (oc : Outcome ε) :
    Core parts (log ++ [Event.discarded part] ++ [Event.settled part oc] ++ [Event.opened part]) rest where
  places := h.places
  order := by
    have hordr := h.order
    simpa [settled?] using hordr
  opens := by simp [settled?, opened?, h.opens]
  published := by simpa [published?] using h.published
  discarded other hoth := by
    have hold : other ∈ discardedParts log ++ [part] := by simpa [discarded?] using hoth
    suffices hends : other ∈ settledParts log ++ [part] ∧ other ∉ publishedParts log by
      simpa [settled?, published?] using hends
    rcases mem_snoc.mp hold with hoth | rfl
    · obtain ⟨hsett, hoth⟩ := h.discarded other hoth
      exact ⟨mem_append_left _ hsett, hoth⟩
    · exact ⟨mem_append_right _ (mem_singleton.mpr rfl), hnot⟩
  ended other hoth := by
    have hold : other ∈ settledParts log ++ [part] := by simpa [settled?] using hoth
    suffices hends : other ∈ publishedParts log ∨ other ∈ discardedParts log ++ [part] by
      simpa [published?, discarded?] using hends
    rcases mem_snoc.mp hold with hoth | rfl
    · exact (h.ended other hoth).imp_right (mem_append_left _)
    · exact Or.inr (mem_append_right _ (mem_singleton.mpr rfl))
  held := by simpa [receiptOf] using h.held
  beyond := by simpa [receiptOf] using h.beyond
  lawful := by
    have hdiscard : Legal log (.discarded part) := ⟨hnot, fun hmem => h.not_settled (h.discarded part hmem).1⟩
    have hsettle : Legal (log ++ [Event.discarded part]) (.settled part oc) := by
      refine ⟨Or.inr (by simp [discarded?]), ?_⟩
      simpa [settled?] using h.not_settled
    refine ((h.lawful.append hdiscard).append hsettle).append ⟨?_, ?_⟩
    · simp [settled?]
    · simpa [opened?, h.opens] using h.not_settled

/-- **A publication.** -/
theorem publish (h : Core parts log rest) {seq : Option Nat} {fl : Option (PublishFailure ε)}
    (hlegal : Legal log (.published part seq fl)) (hbegins : publishedParts log ++ [part] <+: parts)
    (hopen : part ∈ rest) : Core parts (log ++ [Event.published part seq fl]) rest where
  places := h.places
  order := by simpa [settled?] using h.order
  opens := by simpa [settled?, opened?] using h.opens
  published := by simpa [published?] using hbegins
  discarded other hoth := by
    have hold : other ∈ discardedParts log := by simpa [discarded?] using hoth
    obtain ⟨hsett, hnot⟩ := h.discarded other hold
    suffices hends : other ∈ settledParts log ∧ other ∉ publishedParts log ++ [part] by
      simpa [settled?, published?] using hends
    refine ⟨hsett, fun hmem => ?_⟩
    rcases mem_snoc.mp hmem with hmem | rfl
    · exact hnot hmem
    · have hnd := h.nodup
      rw [← h.order, nodup_append] at hnd
      exact hnd.2.2 other hsett other hopen rfl
  ended other hoth := by
    have hold : other ∈ settledParts log := by simpa [settled?] using hoth
    suffices hends : other ∈ publishedParts log ++ [part] ∨ other ∈ discardedParts log by
      simpa [published?, discarded?] using hends
    exact (h.ended other hold).imp_left (mem_append_left _)
  held := by simpa [receiptOf] using h.held
  beyond := by simpa [receiptOf] using h.beyond
  lawful := h.lawful.append hlegal

theorem receive (h : Core parts log rest) (hpart : part ∈ parts) (hsto : part.stored = true) (seq : Nat) :
    Core parts (log ++ [Event.received part seq]) rest where
  places := h.places
  order := by simpa [settled?] using h.order
  opens := by simpa [settled?, opened?] using h.opens
  published := by simpa [published?] using h.published
  discarded := by simpa [discarded?, settled?, published?] using h.discarded
  ended := by simpa [discarded?, settled?, published?] using h.ended
  held other hoth hnot := by
    rw [receipt_append, foldl_cons, foldl_nil, receiptOf, if_neg]
    · exact h.held other hoth hnot
    · intro heq
      have hplaces : (parts.map (·.place)).Nodup := h.places ▸ nodup_range
      obtain rfl := inj_on_of_nodup_map hplaces hpart hoth heq
      rw [hsto] at hnot
      cases hnot
  beyond place hplace := by
    rw [receipt_append, foldl_cons, foldl_nil, receiptOf, if_neg]
    · exact h.beyond place hplace
    · rintro rfl
      have hmem : part.place ∈ range parts.length := h.places ▸ mem_map_of_mem hpart
      exact absurd (mem_range.mp hmem) (by omega)
  lawful := h.lawful.append trivial

theorem admitPart (h : Core parts log rest) (hplace : part.place = parts.length) : Core (parts ++ [part]) log (rest ++ [part]) where
  places := by rw [map_append, h.places, map_singleton, hplace, length_append, length_singleton, range_succ]
  order := by rw [← append_assoc, h.order]
  opens := h.opens
  published := h.published.trans (prefix_append parts [part])
  discarded := h.discarded
  ended := h.ended
  held other hoth hnot := by
    rcases mem_snoc.mp hoth with hoth | rfl
    · exact h.held other hoth hnot
    · exact h.beyond _ (by rw [hplace])
  beyond place hle := h.beyond place (by rw [length_append] at hle; omega)
  lawful := h.lawful

end Core

end PiBridge.Durable
