import PiBridge.Session.Correctness.Lines
import PiBridge.Session.Correctness.Trees

/-!
# `Session.Correctness.Sessions` — a session and its file

The entries are a tree in every run. The file gives the session back, and a call that could not write leaves the session as
it was, in the runs whose writes fail as `Safe` says: before a byte of the file that they create, in the middle of a line that
follows a complete one, at the leaf. A session that is cut off elsewhere is not repaired (`summary_moves_leaf`).
-/

namespace PiBridge.Session

open Chord Lib List Option SessionManager

section Conditions

variable {numbers : Numbers} (m : SessionManager) (call : Call)

/-- The last line of the file is complete. -/
def SessionManager.endsLine : Prop := (m.file.getD []).getLast? = some 10

/-- The file is written when the entry is appended. -/
def SessionManager.writes (entry : Json) : Prop := m.flushed = true ∨ (m.push entry).hasConversation = true

/-- A line is written after a complete one, and a write that fails stops in its JSON text; no write fails once it has created
    the file. -/
def SafeWrite (numbers : Numbers) (entry : Json) : Option Fault → Prop
  | none => m.flushed = true → m.endsLine
  | some .opening => True
  | some (.after bytes) =>
    if m.flushed then bytes < byteLength (stringify numbers entry) ∧ (bytes = 0 ∨ m.endsLine) else (m.push entry).hasConversation = false

/-- How the write of a call may fail. -/
def Safe : Operation numbers → Prop
  | .createBranchedSession leafId =>
    m.getBranch (some leafId) ≠ [] → (m.branched call leafId).hasConversation = true → call.fault = none
  | op => ∀ entry ∈ m.entryToAppend call op,
    SafeWrite m numbers entry call.fault ∧ (m.writes entry → call.fault ≠ none → op.parentOf m = m.leafId)

/-- Every call of a sequence is safe where it is made. -/
def SafeCalls (m : SessionManager) : List (Call × Operation numbers) → Prop
  | [] => True
  | each :: calls => Safe m each.1 each.2 ∧ SafeCalls (m.perform each.1 each.2).1 calls

/-- If its write fails, the call leaves the entries, the index, the labels and the leaf as they were. -/
def SessionManager.Keeps (op : Operation numbers) : Prop :=
  (m.perform call op).2 = .error .io → (m.perform call op).1.fileEntries = m.fileEntries ∧ (m.perform call op).1.toIndex = m.toIndex

/-- The call does not fail to write. -/
def SessionManager.Succeeds (op : Operation numbers) : Prop := (m.perform call op).2 ≠ .error .io

/-- However the file is read, its entries are those of the session, with the same labels. -/
def SessionManager.Restores (numbers : Numbers) (m : SessionManager) : Prop := ∀ parts : List Text, m.file = some parts.flatten →
    (loadEntriesFromFile numbers parts).1 = m.fileEntries ∧ m.toIndex.SameEntries (buildIndex (loadEntriesFromFile numbers parts).1)

end Conditions

/-! ## The file -/

/-- A file that is written holds the records, and maybe a torn line. -/
structure SessionManager.Agrees (numbers : Numbers) (m : SessionManager) : Prop where
  unwritten : m.flushed = false → m.file = none ∧ m.hasConversation = false
  written : m.flushed = true → ∃ torn, m.file = some (lines numbers m.fileEntries ++ torn) ∧ Torn numbers torn

section Agreement

variable {numbers : Numbers} {m : SessionManager} {call : Call}

theorem Torn.nil_of_endsLine {recs torn : Text} (h : Torn numbers torn) (hends : (recs ++ torn).getLast? = some 10) : torn = [] := by
  by_contra hne
  rw [getLast?_append_of_ne_nil _ hne] at hends
  exact h.oneLine (mem_of_getLast? hends)

theorem lines_concat (recs : List Json) (e : Json) : lines numbers (recs ++ [e]) = lines numbers recs ++ line numbers e := by
  unfold lines
  rw [flatMap_append, flatMap_singleton]

theorem written_zero (s : Text) : Session.written s 0 = [] := by
  unfold Session.written
  cases chars s with
  | nil => rfl
  | cons c cs =>
    rw [cut, if_neg (Nat.not_le.mpr c.utf8Size_pos), if_pos rfl]

namespace SessionManager.Agrees

theorem newSession (st : Call) (cwd : Text) (psess : Option Text) : (newSession st cwd psess).Agrees numbers where
  unwritten := fun _ => by
    refine ⟨rfl, ?_⟩
    have hheader : isConversation (sessionHeader st.sessionId st.timestamp cwd psess) = false := by
      simp [sessionHeader, isConversation, entryType, textField, text_inj]
    show (sessionHeader st.sessionId st.timestamp cwd psess :: []).any isConversation = false
    rfl
  written := nofun

theorem congr (h : m.Agrees numbers) {m' : SessionManager} (hrecs : m'.fileEntries = m.fileEntries) (hfile : m'.file = m.file)
    (hflushed : m'.flushed = m.flushed) : m'.Agrees numbers where
  unwritten := by
    unfold hasConversation
    rw [hrecs, hfile, hflushed]
    exact h.unwritten
  written := by
    rw [hrecs, hfile, hflushed]
    exact h.written

variable {m' : SessionManager}

theorem fresh (hfile : m'.file = some (lines numbers m'.fileEntries)) (hflushed : m'.flushed = true) : m'.Agrees numbers where
  unwritten := fun hnot => by
    rw [hflushed] at hnot
    exact nomatch hnot
  written := fun _ => ⟨[], by rw [hfile, append_nil], .nil⟩

section

variable (h : m.Agrees numbers)

include h

/-- An entry is written as the file says, or not yet. -/
theorem persisted {e : Json} {reserved : List Text} {par : Option Text} {file : Option Text} {fls : Bool}
    (hsafe : SafeWrite m numbers e call.fault)
    (hpers : Persisted numbers ((m.moved reserved par).push e) e call.fault file fls true)
    (hrecs : m'.fileEntries = m.fileEntries ++ [e]) (hfile : m'.file = file) (hflushed : m'.flushed = fls) : m'.Agrees numbers := by
  cases hpers with
  | waits hwaits hconv =>
    refine ⟨fun _ => ⟨?_, ?_⟩, fun hnot => ?_⟩
    · rw [hfile]
      exact (h.unwritten hwaits).1
    · unfold hasConversation
      rw [hrecs]
      exact hconv
    · rw [hflushed] at hnot
      exact nomatch hnot
  | creates _ _ _ _ =>
    refine fresh ?_ hflushed
    rw [hfile, hrecs]
    rfl
  | appends hwrt hfault =>
    obtain ⟨torn, hheld, htorn⟩ := h.written hwrt
    rw [hfault] at hsafe
    have hends : m.endsLine := hsafe hwrt
    unfold endsLine at hends
    rw [hheld, getD_some] at hends
    obtain rfl := htorn.nil_of_endsLine hends
    refine fresh ?_ hflushed
    show m'.file = _
    rw [hfile, hrecs, lines_concat]
    show some (m.file.getD [] ++ line numbers e) = _
    rw [hheld, getD_some, append_nil]

/-- What a write that fails leaves is the records, and maybe a torn line. -/
theorem failed {e : Json} (hrec : Record numbers e) {reserved : List Text} {par : Option Text}
    {file : Option Text} {fls : Bool} (hsafe : SafeWrite m numbers e call.fault)
    (hpers : Persisted numbers ((m.moved reserved par).push e) e call.fault file fls false)
    (hrecs : m'.fileEntries = m.fileEntries) (hfile : m'.file = file) (hflushed : m'.flushed = fls) :
    m'.Agrees numbers ∧ m.writes e ∧ call.fault ≠ none := by
  cases hpers with
  | isThere hwaits _ hthere => exact absurd (h.unwritten hwaits).1 hthere
  | unopened hwrites hfault =>
    refine ⟨h.congr hrecs hfile hflushed, hwrites, ?_⟩
    rw [hfault]
    exact some_ne_none _
  | createdPart hwaits hconv _ hfault =>
    have hwaits' : m.flushed = false := hwaits
    rw [hfault, SafeWrite, if_neg (Bool.eq_false_iff.mp hwaits')] at hsafe
    exact absurd (hsafe.symm.trans hconv) Bool.false_ne_true
  | @appendedPart bs hwrt hfault =>
    have hwrt' : m.flushed = true := hwrt
    rw [hfault, SafeWrite, if_pos hwrt'] at hsafe
    obtain ⟨hbytes, hends⟩ := hsafe
    obtain ⟨torn, hheld, htorn⟩ := h.written hwrt'
    refine ⟨⟨fun hnot => ?_, fun _ => ?_⟩, .inl hwrt', ?_⟩
    · rw [hflushed] at hnot
      exact nomatch hnot
    · have hleft : m'.file = some (lines numbers m.fileEntries ++ torn ++ Session.written (line numbers e) bs) := by
        rw [hfile]
        show some (m.file.getD [] ++ _) = _
        rw [hheld, getD_some]
      rcases hends with rfl | hends
      · -- Nothing was written.
        refine ⟨torn, ?_, htorn⟩
        rw [hleft, hrecs, written_zero, append_nil]
      · unfold endsLine at hends
        rw [hheld, getD_some] at hends
        obtain rfl := htorn.nil_of_endsLine hends
        refine ⟨Session.written (line numbers e) bs, ?_, torn_written hrec hbytes⟩
        rw [hleft, hrecs, append_nil]
    · rw [hfault]
      exact some_ne_none _

/-- **A safe call keeps file and session in agreement**, and changes nothing if its write fails. -/
theorem performed {op : Operation numbers} (hsafe : Safe m call op)
    {res : Except Thrown Text} (hperfd : Performed m call op m' res) :
    m'.Agrees numbers ∧ (res = .error .io → m'.fileEntries = m.fileEntries ∧ m'.toIndex = m.toIndex) := by
  have happ : ∀ {e : Json}, m.entryToAppend call op = some e →
      SafeWrite m numbers e call.fault ∧ (m.writes e → call.fault ≠ none → op.parentOf m = m.leafId) := by
    intro e hent
    cases op with
    | createBranchedSession leaf => exact nomatch hent
    | _ => exact hsafe e hent
  cases hperfd with
  | stays _ _ hres => exact ⟨h.congr rfl rfl rfl, fun hio => absurd hio hres⟩
  | appends hent hpers => exact ⟨h.persisted (happ hent).1 hpers rfl rfl rfl, nofun⟩
  | @fails reserved e file fls hent hpers =>
    obtain ⟨hwrite, hpar⟩ := happ hent
    have hfail : ({ m.moved reserved (op.parentOf m) with file := file, flushed := fls } : SessionManager).Agrees numbers ∧
        m.writes e ∧ call.fault ≠ none :=
      h.failed (newEntry_of_entryToAppend hent).record hwrite hpers rfl rfl rfl
    refine ⟨hfail.1, fun _ => ⟨rfl, ?_⟩⟩
    have hleaf := hpar hfail.2.1 hfail.2.2
    show ({ m.toIndex with leafId := op.parentOf m } : Index) = m.toIndex
    rw [hleaf]
  | branches hop hpath hconv =>
    refine ⟨⟨fun _ => ⟨rfl, hconv⟩, nofun⟩, nofun⟩
  | branchesWritten hop hpath hconv hfault => exact ⟨fresh rfl rfl, nofun⟩
  | branchesFails hop hpath hconv hfault =>
    subst hop
    exact absurd (hsafe hpath hconv) hfault

/-- A call whose write does not fail goes through. -/
theorem returns {op : Operation numbers} (hfault : call.fault = none)
    {res : Except Thrown Text} (hperfd : Performed m call op m' res) : res ≠ .error .io := by
  cases hperfd with
  | stays _ _ hres => exact hres
  | appends _ _ | branches _ _ _ | branchesWritten _ _ _ _ => exact ok_ne_io _
  | fails _ hpers =>
    cases hpers with
    | isThere hwaits _ hthere => exact absurd (h.unwritten hwaits).1 hthere
    | unopened _ hfails | createdPart _ _ _ hfails | appendedPart _ hfails => exact nomatch hfault.symm.trans hfails
  | branchesFails _ _ _ hfails => exact absurd hfault hfails

theorem restores (hshaped : m.Shaped numbers) : m.Restores numbers := by
  intro ps hfile
  cases hflushed : m.flushed with
  | false => exact nomatch hfile.symm.trans (h.unwritten hflushed).1
  | true =>
    obtain ⟨torn, hheld, htorn⟩ := h.written hflushed
    obtain ⟨header, es, hrecs, hheader, hid, hrec, hents⟩ := hshaped.header
    have hpts : ps.flatten = lines numbers (header :: es) ++ torn := by
      rw [hheld, hrecs] at hfile
      exact (some.inj hfile).symm
    have hload := loadEntriesFromFile_lines (hrecs ▸ hshaped.records) hheader hid htorn hpts
    rw [hload, ← hrecs]
    exact ⟨rfl, hshaped.index⟩

end

end SessionManager.Agrees

/-- Safe calls keep file and session in agreement. -/
theorem agrees_run (h : m.Agrees numbers) {cs : List (Call × Operation numbers)} (hsafe : SafeCalls m cs) : (m.run cs).Agrees numbers := by
  induction cs generalizing m with
  | nil => exact h
  | cons each cs ih => exact ih (h.performed hsafe.1 (performed m each.1 each.2)).1 hsafe.2

end Agreement

/-- **The entries of a session are a tree in every run; in a run of safe calls the file gives the session back**, a call whose
    write fails leaves it as it was, and calls whose writes do not fail go through. -/
theorem session_keeps {numbers : Numbers} (hnumbers : numbers.Exact) (start : Call) (cwd : Text) (parentSession : Option Text)
    (calls : List (Call × Operation numbers)) :
    Tree (entriesOf ((newSession start cwd parentSession).run calls).fileEntries) ∧
    (∀ id ∈ ((newSession start cwd parentSession).run calls).leafId,
      id ∈ (entriesOf ((newSession start cwd parentSession).run calls).fileEntries).map entryId) ∧
    (SafeCalls (newSession start cwd parentSession) calls →
      ((newSession start cwd parentSession).run calls).Restores numbers ∧
      ∀ (call : Call) (op : Operation numbers),
        (Safe ((newSession start cwd parentSession).run calls) call op → ((newSession start cwd parentSession).run calls).Keeps call op) ∧
        (call.fault = none → ((newSession start cwd parentSession).run calls).Succeeds call op)) := by
  have hshaped := (@Shaped.newSession numbers start hnumbers cwd parentSession).run hnumbers calls
  refine ⟨hshaped.tree, hshaped.leaf, fun hsafe => ?_⟩
  have hagrees := agrees_run (Agrees.newSession start cwd parentSession) hsafe
  refine ⟨hagrees.restores hshaped, fun call op => ⟨fun hcall => ?_, fun hfault => hagrees.returns hfault (performed _ call op)⟩⟩
  exact (hagrees.performed hcall (performed _ call op)).2

/-- **A file that is cut at any byte** gives back the records that are whole before the cut. -/
theorem cut_loads {numbers : Numbers} (hnumbers : numbers.Exact) (start : Call) (cwd : Text) (parentSession : Option Text) (calls : List (Call × Operation numbers))
    (bytes : ℕ) {parts : List Text}
    (hparts : parts.flatten = written (lines numbers ((newSession start cwd parentSession).run calls).fileEntries) bytes) :
    (loadEntriesFromFile numbers parts).1 =
      whole numbers bytes ((newSession start cwd parentSession).run calls).fileEntries := by
  have hshaped := (@Shaped.newSession numbers start hnumbers cwd parentSession).run hnumbers calls
  obtain ⟨header, es, hrecs, hheader, hid, -⟩ := hshaped.header
  obtain ⟨done, torn, hwrt, hdone, htorn, hwhole⟩ := written_lines hshaped.records bytes
  have hread : (done.map (stringify numbers)).filterMap (entryOfLine numbers) = done := by
    rw [filterMap_map]
    exact (filterMap_congr fun e he => entryOfLine_stringify (hdone e he)).trans filterMap_some
  unfold loadEntriesFromFile
  rw [readParts_eq not_mem_nil, nil_append, hparts, hwrt, splitLines_lines hdone htorn]
  dsimp only
  rw [hread, hwhole, hrecs]
  cases hrest : whole numbers bytes (header :: es) with
  | nil => rfl
  | cons fst rest =>
    obtain rfl : fst = header := by
      rw [whole] at hrest
      split at hrest
      · exact (cons.inj hrest).1.symm
      · split at hrest
        · exact (cons.inj hrest).1.symm
        · cases hrest
    dsimp only
    rw [hheader, hid]
    rfl

/-- UUIDs that are longer than every ID in use. -/
def longerUuids : UuidSource where
  draw used := ([], used.flatten ++ [97])
  new used hmem := by
    have hle := List.Sublist.length_le (List.sublist_flatten_of_mem hmem)
    rw [List.length_append, List.length_singleton] at hle
    omega

def exampleCall (fault : Option Fault) : Call := ⟨text "now", longerUuids, fault, text "session", text "session.jsonl"⟩

def userMessage : Value decimalNumbers :=
  ⟨record [("role", some (.str (text "user")))], (Record.literal ["role"] rfl (by decide) (by decide) fun name x hx => by
    obtain rfl := Option.some.inj (Prod.mk.inj (List.mem_singleton.mp hx)).2
    exact .str).plain⟩

/-- A message, which creates the file, and an entry after it, whose line may not be written. -/
def twoAppends (fault : Option Fault) : List (Call × Operation decimalNumbers) :=
  [(exampleCall none, .appendMessage userMessage none), (exampleCall fault, .appendThinkingLevelChange (text "high"))]

theorem session_keeps_unopened : SafeCalls (newSession (exampleCall none) [] none) (twoAppends (some .opening)) ∧
    ((newSession (exampleCall none) [] none).run (twoAppends (some .opening))).Restores decimalNumbers := by
  have hsafe : SafeCalls (newSession (exampleCall none) [] none) (twoAppends (some .opening)) := by
    refine And.intro ?_ (And.intro ?_ trivial)
    · intro entry hentry
      constructor
      · exact nofun
      · intro hwrites hfault
        exact absurd rfl hfault
    · intro entry hentry
      constructor
      · exact trivial
      · intro hwrites hfault
        rfl
  exact ⟨hsafe, ((session_keeps decimalNumbers_exact (exampleCall none) [] none (twoAppends (some .opening))).2.2 hsafe).1⟩

/-- A file that is cut in its third line. -/
theorem cut_loads_message : (loadEntriesFromFile decimalNumbers
    [written (lines decimalNumbers ((newSession (exampleCall none) [] none).run (twoAppends none)).fileEntries) 200]).1.length = 2 := by
  rw [cut_loads decimalNumbers_exact (exampleCall none) [] none (twoAppends none) 200 flatten_singleton]
  decide +kernel

/-- A branch with a summary whose line is not written moves the leaf all the same. -/
theorem summary_moves_leaf : ¬ ∀ calls : List (Call × Operation decimalNumbers),
    Tree (entriesOf ((newSession (exampleCall none) [] none).run calls).fileEntries) ∧
    (∀ id ∈ ((newSession (exampleCall none) [] none).run calls).leafId,
      id ∈ (entriesOf ((newSession (exampleCall none) [] none).run calls).fileEntries).map entryId) ∧
    ((newSession (exampleCall none) [] none).run calls).Restores decimalNumbers ∧
    ∀ (call : Call) (op : Operation decimalNumbers),
      ((newSession (exampleCall none) [] none).run calls).Keeps call op ∧
      (call.fault = none → ((newSession (exampleCall none) [] none).run calls).Succeeds call op) := by
  intro h
  have hkeeps := ((h (twoAppends none)).2.2.2 (exampleCall (some .opening)) (.branchWithSummary (some [97]) [] none none none)).1 rfl
  have hbefore : ((newSession (exampleCall none) [] none).run (twoAppends none)).leafId = some [97, 97] := by decide
  have hafter := congrArg Index.leafId hkeeps.2
  have hmoved : (some [97] : Option Text) ≠ some [97, 97] := by decide
  exact hmoved hafter

end PiBridge.Session
