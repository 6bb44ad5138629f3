import PiBridge.Chord.Store.Engine

/-!
# `Chord.Correctness.PointReads` — reads at a point return history

A write makes edits of the two tables (`Edit`). Each edit keeps what a state is (`Holds`): the chain of a record's
revisions leads to the value its contents give (`Ledger`). And each edit at a later seq keeps what the state says of an
earlier one (`Agrees`), but for the records without history, which go.
-/

namespace PiBridge.Chord.Store

open Lib DocumentTables List Bool Rows Nat

variable {t t' t₀ : DocumentTables} {p q : Nat}

/-! ## What the documents are -/

/-- The value of each document, with nothing dropped: its base, and its changes in their order. -/
abbrev Ledger := Nat → Except LoadError Loaded

/-- A content, on the value so far. -/
def Loaded.take (loaded : Except LoadError Loaded) : DocumentContent → Except LoadError Loaded
  | .base b => .ok ⟨b.value, b.version, 0⟩
  | .delta version ops =>
    match loaded with
    | .error e => .error e
    | .ok loaded =>
      if version ≠ loaded.version then .error .crosses
      else
        match applyImmutable loaded.value ops with
        | none => .error .refused
        | some value => .ok ⟨value, loaded.version, loaded.deltasSinceBase + 1⟩

def Ledger.write (ledger : Ledger) : DocumentWrite → Ledger
  | .create record base => Function.update ledger record.id (.ok ⟨base.value, base.version, 0⟩)
  | .change id _ content => Function.update ledger id (Loaded.take (ledger id) content)
  | .retire _ _ => ledger

def Ledger.after (ledger : Ledger) : Option DocumentWrite → Ledger
  | none => ledger
  | some write => ledger.write write

/-- The revisions of a document. -/
def DocumentTables.chain (t : DocumentTables) (id : Nat) : List RevisionRow := t.revisions.filter (·.documentId = id)

/-- Revisions in the order of their seqs, whose newest base and later deltas load to the value. -/
def IsChain (rows : List RevisionRow) (value : Except LoadError Loaded) : Prop :=
  rows.Pairwise (fun r r' => r.seq < r'.seq) ∧ ∃ older newest deltas, rows = older ++ newest :: deltas ∧
    newest.content.isBase = true ∧ (∀ r ∈ deltas, r.content.isBase = false) ∧ loaded (newest :: deltas) = value

/-- One incarnation. -/
def DocumentRow.identity (row : DocumentRow) : Nat × Nat := (row.id, row.createdAt)

/-- A state up to a seq. -/
structure Holds (q : Nat) (ledger : Ledger) (t : DocumentTables) : Prop where
  ids : (t.documents.map (·.id)).Nodup
  created : ∀ row ∈ t.documents, row.createdAt ≤ q
  retired : ∀ row ∈ t.documents, ∀ seq, row.retiredAt = some seq → seq ≤ q
  addresses : ∀ row ∈ t.documents, ∀ row' ∈ t.documents, row.retiredAt = none → row'.retiredAt = none →
    row.address = row'.address → row.id = row'.id
  seqs : ∀ r ∈ t.revisions, r.seq ≤ q
  owned : ∀ r ∈ t.revisions, ∃ row ∈ t.documents, row.id = r.documentId
  chains : ∀ row ∈ t.documents, row.retiredAt = none ∨ row.history = .rewindable → IsChain (t.chain row.id) (ledger row.id)

/-- A row as it was at a seq, but for what its changes count. -/
def DocumentRow.asOf (p : Nat) (row : DocumentRow) : DocumentRow :=
  { row with retiredAt := row.retiredAt.filter (· ≤ p), revision := 0, version := 0, fingerprint := [] }

/-- An incarnation is still there. -/
def DocumentTables.keeps (t : DocumentTables) (i : Nat × Nat) : Bool := (t.documents.map (·.identity)).contains i

/-- What is there of an earlier state at its seq: every record that keeps its row, with the revisions of a rewindable
one. -/
structure Agrees (p : Nat) (t₀ t : DocumentTables) : Prop where
  documents : (t.documents.filter (·.createdAt ≤ p)).map (·.asOf p) = (t₀.documents.filter fun row => t.keeps row.identity).map (·.asOf p)
  kept : ∀ row₀ ∈ t₀.documents, row₀.history ≠ .none → ∃ row ∈ t.documents, row.identity = row₀.identity ∧ row.history = row₀.history
  revisions : ∀ row ∈ t.documents, row.history = .rewindable → row.createdAt ≤ p → (t.chain row.id).filter (·.seq ≤ p) = t₀.chain row.id

/-! ## Edits -/

/-- The revision a content makes. -/
def DocumentContent.row (content : DocumentContent) (id seq : Nat) : RevisionRow := ⟨id, seq, content.version, content.stored⟩

/-- What writes do to the tables, in the step of a seq, with the write whose value it is. Documents of `own` keep no
history. -/
inductive Edit (own : List Nat) (q : Nat) (t : DocumentTables) : Option DocumentWrite → DocumentTables → Prop where
  | insert (record : DocumentRecord) (base : DocumentBase) (hcreated : record.createdAt = q)
      (hretired : ∀ seq, record.retiredAt = some seq → seq = q) (hown : record.id ∈ own → record.history = .none)
      (hversion : record.version = base.version)
      (hfree : ∀ row ∈ t.documents, DocumentRow.clashes (.ofRecord record) row = false) :
      Edit own q t (some (.create record base))
        ⟨t.documents ++ [DocumentRow.ofRecord record], t.revisions ++ [⟨record.id, q, record.version, .base base.value⟩]⟩
  | change (revision : Nat) (content : DocumentContent) (row : DocumentRow) (hrow : row ∈ t.documents)
      (hchanges : changes row.id revision content row = true)
      (hfree : ∀ r ∈ t.revisions, r.documentId = row.id → r.seq ≠ q) :
      Edit own q t (some (.change row.id revision content))
        ⟨Rows.update (changes row.id revision content) (changed content) t.documents,
          if content.stored.isBase ∧ row.history ≠ .rewindable then
            Rows.delete (fun r => r.documentId = row.id && r.seq < q) (t.revisions ++ [content.row row.id q])
          else t.revisions ++ [content.row row.id q]⟩
  | mark (row : DocumentRow) (hrow : row ∈ t.documents) (hlive : row.retiredAt = none) (hhistory : row.history ≠ .none) :
      Edit own q t none
        ⟨Rows.update (·.id = row.id) (fun row => { row with retiredAt := some q }) t.documents, t.revisions⟩
  | drop (row : DocumentRow) (hrow : row ∈ t.documents) (hretired : row.history = .none ∨ row.retiredAt ≠ none) :
      Edit own q t none (t.dropRetired row.id row.history)

/-- The documents of `own` keep no history. -/
def Owns (own : List Nat) (t : DocumentTables) : Prop := ∀ row ∈ t.documents, row.id ∈ own → row.history = .none

variable {id revision : Nat} {content : DocumentContent} {row : DocumentRow}

theorem changes_iff (h : changes id revision content row = true) : row.id = id ∧ row.retiredAt = none := by
  cases content with
  | base b => simp only [changes, and_eq_true, decide_eq_true_eq, Option.isNone_iff_eq_none] at h; exact ⟨h.1.1, h.2⟩
  | delta ver ops =>
    simp only [changes, and_eq_true, decide_eq_true_eq, Option.isNone_iff_eq_none] at h
    exact ⟨h.1.1.1, h.2⟩

/-- A change writes the counts, the version and the fingerprint. -/
theorem changed_keeps (content : DocumentContent) (row : DocumentRow) :
    (changed content row).asOf p = row.asOf p ∧ (changed content row).identity = row.identity ∧
      (changed content row).id = row.id ∧ (changed content row).history = row.history ∧
      (changed content row).retiredAt = row.retiredAt ∧ (changed content row).address = row.address := by
  cases content <;> exact ⟨rfl, rfl, rfl, rfl, rfl, rfl⟩

theorem Holds.unique {ledger : Ledger} (h : Holds q ledger t) {row row' : DocumentRow} (hrow : row ∈ t.documents)
    (hrow' : row' ∈ t.documents) (hid : row.id = row'.id) : row = row' :=
  inj_on_of_nodup_map h.ids hrow hrow' hid

variable {rec : DocumentRecord}

theorem clashes_false (h : DocumentRow.clashes (.ofRecord rec) row = false) :
    rec.id ≠ row.id ∧ (rec.retiredAt = none → row.retiredAt = none → (DocumentRow.ofRecord rec).address ≠ row.address) := by
  simp only [DocumentRow.clashes, or_eq_false_iff, decide_eq_false_iff_not, and_eq_false_iff] at h
  refine ⟨h.1, fun hlive hlive' => ?_⟩
  rcases h.2 with (h | h) | h
  · rw [show (DocumentRow.ofRecord rec).retiredAt = none from hlive] at h
    cases h
  · rw [hlive'] at h
    cases h
  · exact h

/-! ## What an edit keeps -/

theorem chain_append (docs : List DocumentRow) (rows : List RevisionRow) (r : RevisionRow) (id : Nat) :
    (DocumentTables.mk docs (rows ++ [r])).chain id = (DocumentTables.mk docs rows).chain id ++ if r.documentId = id then [r] else [] := by
  unfold DocumentTables.chain
  rw [filter_append, filter_singleton]
  simp

theorem chain_delete_ne {docs : List DocumentRow} {rows : List RevisionRow} {q : RevisionRow → Bool}
    (h : ∀ r, r.documentId = id → q r = false) :
    (DocumentTables.mk docs (Rows.delete q rows)).chain id = (DocumentTables.mk docs rows).chain id := by
  unfold DocumentTables.chain delete
  rw [filter_filter]
  refine filter_congr fun r _ => ?_
  by_cases hid : r.documentId = id
  · simp [hid, h r hid]
  · simp [hid]

theorem loaded_base (id seq ver : Nat) (v : Json) (deltas : List RevisionRow) : loaded (⟨id, seq, ver, .base v⟩ :: deltas) =
      (deltas.foldlM (applyDelta ver) v).map fun v => ⟨v, ver, deltas.length⟩ := rfl

theorem loaded_append {nst : RevisionRow} {deltas : List RevisionRow} (hbase : nst.content.isBase = true)
    (id seq ver : Nat) (ops : List Op) :
    loaded (nst :: (deltas ++ [⟨id, seq, ver, .delta ops⟩])) = Loaded.take (loaded (nst :: deltas)) (.delta ver ops) := by
  obtain ⟨d, s, v, content⟩ := nst
  cases content with
  | delta ops => cases hbase
  | base val =>
    rw [loaded_base, loaded_base, foldlM_append]
    cases hfold : deltas.foldlM (applyDelta v) val with
    | error e => rfl
    | ok w =>
      show (foldlM (applyDelta v) w [⟨id, seq, ver, .delta ops⟩]).map _ = _
      rw [foldlM_cons]
      unfold applyDelta Loaded.take
      dsimp only [Except.map]
      by_cases hver : ver ≠ v
      · rw [if_pos hver, if_pos hver]
        rfl
      · rw [if_neg hver, if_neg hver]
        cases applyImmutable w ops with
        | none => rfl
        | some w' =>
          show Except.ok _ = Except.ok _
          rw [length_append]
          rfl

/-- A revision of a later seq, on a document's chain. -/
theorem IsChain.append {rows : List RevisionRow} {v : Except LoadError Loaded} (h : IsChain rows v)
    (hseq : ∀ r ∈ rows, r.seq < q) (content : DocumentContent) : IsChain (rows ++ [content.row id q]) (Loaded.take v content) := by
  obtain ⟨hsrt, older, nst, deltas, rfl, hbase, hdeltas, rfl⟩ := h
  refine ⟨pairwise_append.mpr ⟨hsrt, pairwise_singleton .., fun r hr r' hr' => ?_⟩, ?_⟩
  · rw [mem_singleton.mp hr']
    exact hseq r hr
  · cases content with
    | base b => exact ⟨_, _, [], rfl, rfl, fun r hr => (by cases hr), rfl⟩
    | delta ver ops =>
      refine ⟨older, nst, deltas ++ [⟨id, q, ver, .delta ops⟩], ?_, hbase, fun r hr => ?_, ?_⟩
      · rw [append_assoc]
        rfl
      · rcases mem_snoc.mp hr with hr | rfl
        · exact hdeltas r hr
        · rfl
      · exact loaded_append hbase id q ver ops

theorem isChain_base (id q ver : Nat) (v : Json) : IsChain [⟨id, q, ver, .base v⟩] (.ok ⟨v, ver, 0⟩) :=
  ⟨pairwise_singleton .., [], _, [], rfl, rfl, fun r hr => (by cases hr), rfl⟩

theorem chain_delete_other (t : DocumentTables) {id id' : Nat} (hid : id' ≠ id) (docs : List DocumentRow) :
    (DocumentTables.mk docs (Rows.delete (·.documentId = id) t.revisions)).chain id' = t.chain id' :=
  chain_delete_ne fun r hr => by simp [hr, hid]

variable {ledger : Ledger}

theorem Holds.insert (h : Holds q ledger t) {base : DocumentBase} (hmade : rec.createdAt = q)
    (hret : ∀ seq, rec.retiredAt = some seq → seq = q) (hver : rec.version = base.version)
    (hfree : ∀ row ∈ t.documents, DocumentRow.clashes (.ofRecord rec) row = false) :
    Holds q (ledger.write (.create rec base))
      ⟨t.documents ++ [DocumentRow.ofRecord rec], t.revisions ++ [⟨rec.id, q, rec.version, .base base.value⟩]⟩ := by
  have hnew : ∀ row ∈ t.documents, row.id ≠ rec.id := fun row hrow => (clashes_false (hfree row hrow)).1.symm
  have hnone : ∀ r ∈ t.revisions, r.documentId ≠ rec.id := by
    intro r hr hid
    obtain ⟨row, hrow, hrowid⟩ := h.owned r hr
    exact hnew row hrow (hrowid.trans hid)
  refine ⟨?_, fun row hrow => ?_, fun row hrow seq hseq => ?_, fun row hrow row' hrow' hlive hlive' haddr => ?_,
    fun r hr => ?_, fun r hr => ?_, fun row hrow hkeep => ?_⟩
  · rw [map_append, map_singleton]
    refine nodup_append.mpr ⟨h.ids, nodup_singleton _, fun i hi i' hi' => ?_⟩
    obtain ⟨row, hrow, rfl⟩ := mem_map.mp hi
    rw [mem_singleton.mp hi']
    exact hnew row hrow
  · rcases mem_snoc.mp hrow with hrow | rfl
    · exact h.created row hrow
    · exact le_of_eq hmade
  · rcases mem_snoc.mp hrow with hrow | rfl
    · exact h.retired row hrow seq hseq
    · exact le_of_eq (hret seq hseq)
  · -- The unique index: no live row has the new one's address.
    rcases mem_snoc.mp hrow with hrow | rfl
    · rcases mem_snoc.mp hrow' with hrow' | rfl
      · exact h.addresses row hrow row' hrow' hlive hlive' haddr
      · exact absurd haddr.symm ((clashes_false (hfree row hrow)).2 hlive' hlive)
    · rcases mem_snoc.mp hrow' with hrow' | rfl
      · exact absurd haddr ((clashes_false (hfree row' hrow')).2 hlive hlive')
      · rfl
  · rcases mem_snoc.mp hr with hr | rfl
    · exact h.seqs r hr
    · rfl
  · rcases mem_snoc.mp hr with hr | rfl
    · obtain ⟨row, hrow, hid⟩ := h.owned r hr
      exact ⟨row, mem_append_left _ hrow, hid⟩
    · exact ⟨.ofRecord rec, mem_append_right _ (mem_singleton_self _), rfl⟩
  · rw [chain_append]
    rcases mem_snoc.mp hrow with hrow | rfl
    · rw [if_neg fun heq => hnew row hrow heq.symm, append_nil]
      show IsChain _ (Function.update ledger rec.id _ row.id)
      rw [Function.update_of_ne (hnew row hrow)]
      exact h.chains row hrow hkeep
    · have hemp : t.chain rec.id = [] := filter_eq_nil_iff.mpr fun r hr => by simpa using hnone r hr
      show IsChain (t.chain rec.id ++ if rec.id = rec.id then _ else _) (Function.update ledger rec.id _ rec.id)
      rw [hemp, if_pos rfl, Function.update_self, ← hver]
      exact isChain_base rec.id q rec.version base.value

/-- What an update keeps that leaves ids, creations, addresses and histories alone, and unretires nothing. -/
theorem Holds.update (h : Holds q ledger t) {on : DocumentRow → Bool} {f : DocumentRow → DocumentRow}
    {revisions : List RevisionRow} {ledger' : Ledger}
    (hsame : ∀ row ∈ t.documents, on row = true → (f row).identity = row.identity ∧ (f row).address = row.address ∧
      ∀ seq, (f row).retiredAt = some seq → row.retiredAt = some seq ∨ seq = q)
    (hlive : ∀ row ∈ t.documents, on row = true → (f row).retiredAt = none → row.retiredAt = none)
    (hseqs : ∀ r ∈ revisions, r.seq ≤ q) (howned : ∀ r ∈ revisions, ∃ row ∈ t.documents, row.id = r.documentId)
    (hchains : ∀ row ∈ Rows.update on f t.documents, row.retiredAt = none ∨ row.history = .rewindable →
      IsChain ((DocumentTables.mk (Rows.update on f t.documents) revisions).chain row.id) (ledger' row.id)) :
    Holds q ledger' ⟨Rows.update on f t.documents, revisions⟩ := by
  -- Each row comes from one with its id, its creation and its address.
  have hfrom : ∀ row ∈ Rows.update on f t.documents, ∃ row₀ ∈ t.documents, row.identity = row₀.identity ∧
      row.address = row₀.address ∧ (row.retiredAt = none → row₀.retiredAt = none) ∧
      ∀ seq, row.retiredAt = some seq → row₀.retiredAt = some seq ∨ seq = q := by
    intro row hrow
    obtain ⟨row₀, hrow₀, hon, rfl⟩ | ⟨hrow, -⟩ := of_mem_update hrow
    · obtain ⟨hident, haddr, hret⟩ := hsame row₀ hrow₀ hon
      exact ⟨row₀, hrow₀, hident, haddr, hlive row₀ hrow₀ hon, hret⟩
    · exact ⟨row, hrow, rfl, rfl, id, fun _ => .inl⟩
  have hidents : (Rows.update on f t.documents).map (·.identity) = t.documents.map (·.identity) :=
    map_update fun row hrow hon => (hsame row hrow hon).1
  have hids : ∀ rows : List DocumentRow, rows.map (·.id) = (rows.map (·.identity)).map Prod.fst := fun rows => by
    rw [map_map]
    rfl
  refine ⟨?_, fun row hrow => ?_, fun row hrow seq hseq => ?_, fun row hrow row' hrow' hl hl' haddr => ?_, hseqs, fun r hr => ?_, hchains⟩
  · rw [hids, hidents, ← hids]
    exact h.ids
  · obtain ⟨row₀, hrow₀, hident, -⟩ := hfrom row hrow
    rw [show row.createdAt = row₀.createdAt from congrArg Prod.snd hident]
    exact h.created row₀ hrow₀
  · obtain ⟨row₀, hrow₀, -, -, -, hret⟩ := hfrom row hrow
    rcases hret seq hseq with hseq₀ | rfl
    · exact h.retired row₀ hrow₀ seq hseq₀
    · exact le_refl seq
  · obtain ⟨row₀, hrow₀, hident, ha, hlive₀, -⟩ := hfrom row hrow
    obtain ⟨row₀', hrow₀', hident', ha', hlive₀', -⟩ := hfrom row' hrow'
    have hsameid := h.addresses row₀ hrow₀ row₀' hrow₀' (hlive₀ hl) (hlive₀' hl') (by rw [← ha, ← ha', haddr])
    rw [show row.id = row₀.id from congrArg Prod.fst hident, hsameid]
    exact (congrArg Prod.fst hident').symm
  · obtain ⟨row, hrow, hid⟩ := howned r hr
    have hmem : row.identity ∈ (Rows.update on f t.documents).map (·.identity) := by
      rw [hidents]
      exact mem_map_of_mem hrow
    obtain ⟨row', hrow', hident⟩ := mem_map.mp hmem
    exact ⟨row', hrow', (congrArg Prod.fst hident).trans hid⟩

/-- The older revisions that a new base drops. -/
theorem chain_dropped {docs : List DocumentRow} {rows : List RevisionRow} (content : DocumentContent)
    (h : ∀ r ∈ rows, r.documentId = id → r.seq < q) :
    (DocumentTables.mk docs (Rows.delete (fun r => r.documentId = id && r.seq < q) (rows ++ [content.row id q]))).chain id =
      [content.row id q] := by
  unfold DocumentTables.chain delete
  rw [filter_filter, filter_append, filter_eq_nil_iff.mpr, nil_append]
  · simp [DocumentContent.row]
  · intro r hr
    by_cases hid : r.documentId = id
    · simp [hid, h r hr hid]
    · simp [hid]

section

variable (h : Holds q ledger t)

include h

theorem Holds.change (hrow : row ∈ t.documents) (hchgs : changes row.id revision content row = true)
    (hfree : ∀ r ∈ t.revisions, r.documentId = row.id → r.seq ≠ q) : Holds q (ledger.write (.change row.id revision content))
      ⟨Rows.update (changes row.id revision content) (changed content) t.documents,
        if content.stored.isBase ∧ row.history ≠ .rewindable then
          Rows.delete (fun r => r.documentId = row.id && r.seq < q) (t.revisions ++ [content.row row.id q])
        else t.revisions ++ [content.row row.id q]⟩ := by
  have hbef : ∀ r ∈ t.revisions, r.documentId = row.id → r.seq < q := fun r hr hid =>
    lt_of_le_of_ne (h.seqs r hr) (hfree r hr hid)
  have hsub : ∀ r, r ∈ (if content.stored.isBase ∧ row.history ≠ .rewindable then
      delete (fun r => r.documentId = row.id && r.seq < q) (t.revisions ++ [content.row row.id q])
      else t.revisions ++ [content.row row.id q]) → r ∈ t.revisions ∨ r = content.row row.id q := by
    intro r hr
    split at hr
    · exact (mem_append.mp (mem_delete.mp hr).1).imp_right mem_singleton.mp
    · exact (mem_append.mp hr).imp_right mem_singleton.mp
  refine h.update (fun row' _ _ => ⟨(changed_keeps (p := 0) content row').2.1, (changed_keeps (p := 0) content row').2.2.2.2.2,
      fun seq hseq => ?_⟩) (fun row' _ _ hlive => ?_) (fun r hr => ?_) (fun r hr => ?_) fun row' hrow' hkeep => ?_
  · rw [(changed_keeps (p := 0) content row').2.2.2.2.1] at hseq
    exact .inl hseq
  · rwa [(changed_keeps (p := 0) content row').2.2.2.2.1] at hlive
  · rcases hsub r hr with hr | rfl
    · exact h.seqs r hr
    · exact le_refl q
  · rcases hsub r hr with hr | rfl
    · exact h.owned r hr
    · exact ⟨row, hrow, rfl⟩
  · -- The changed document's chain has the content more, the others' are what they were.
    obtain ⟨row₀, hrow₀, hid, hret, hhist⟩ : ∃ row₀ ∈ t.documents, row'.id = row₀.id ∧
        row'.retiredAt = row₀.retiredAt ∧ row'.history = row₀.history := by
      obtain ⟨row₀, hrow₀, -, rfl⟩ | ⟨hrow', -⟩ := of_mem_update hrow'
      · obtain ⟨-, -, hid, hhist, hret, -⟩ := changed_keeps (p := 0) content row₀
        exact ⟨row₀, hrow₀, hid, hret, hhist⟩
      · exact ⟨row', hrow', rfl, rfl, rfl⟩
    rw [hret, hhist] at hkeep
    rw [hid]
    by_cases hrowid : row₀.id = row.id
    · have hchain := h.chains row hrow (.inl (changes_iff hchgs).2)
      show IsChain _ (Function.update ledger row.id _ row₀.id)
      rw [hrowid, Function.update_self]
      split
      · rename_i hdrops
        rw [chain_dropped content hbef]
        cases content with
        | base b => exact isChain_base row.id q b.version b.value
        | delta ver ops => exact absurd hdrops.1 false_ne_true
      · rw [chain_append, if_pos (show (content.row row.id q).documentId = row.id from rfl)]
        refine hchain.append (fun r hr => ?_) content
        obtain ⟨hr, hrid⟩ := mem_filter.mp hr
        exact hbef r hr (of_decide_eq_true hrid)
    · show IsChain _ (Function.update ledger row.id _ row₀.id)
      rw [Function.update_of_ne hrowid]
      have hsame : ∀ docs, (DocumentTables.mk docs (t.revisions ++ [content.row row.id q])).chain row₀.id = t.chain row₀.id := by
        intro docs
        rw [chain_append, if_neg fun heq => hrowid heq.symm, append_nil]
        rfl
      split
      · rw [chain_delete_ne fun r hr => by simp [hr, hrowid], hsame]
        exact h.chains row₀ hrow₀ hkeep
      · rw [hsame]
        exact h.chains row₀ hrow₀ hkeep

theorem Holds.mark (hrow : row ∈ t.documents) (hlive : row.retiredAt = none) :
    Holds q ledger ⟨Rows.update (·.id = row.id) (fun row => { row with retiredAt := some q }) t.documents, t.revisions⟩ := by
  refine h.update (fun row' _ _ => ⟨rfl, rfl, fun seq hseq => .inr (Option.some.inj hseq).symm⟩) (fun row' _ _ hnone => ?_)
    h.seqs h.owned fun row' hrow' hkeep => ?_
  · cases hnone
  · obtain ⟨row₀, hrow₀, hid, rfl⟩ | ⟨hrow', -⟩ := of_mem_update hrow'
    · -- The marked row was live.
      have heq : row₀ = row := h.unique hrow₀ hrow (of_decide_eq_true hid)
      exact h.chains row₀ hrow₀ (.inl (by rw [heq]; exact hlive))
    · exact h.chains row' hrow' hkeep

theorem Holds.drop (hrow : row ∈ t.documents)
    (hret : row.history = .none ∨ row.retiredAt ≠ none) : Holds q ledger (t.dropRetired row.id row.history) := by
  have hrevisions : ∀ r ∈ delete (fun r : RevisionRow => decide (r.documentId = row.id)) t.revisions,
      r ∈ t.revisions ∧ r.documentId ≠ row.id := fun r hr => by
    obtain ⟨hr, hid⟩ := mem_delete.mp hr
    exact ⟨hr, of_decide_eq_false hid⟩
  cases hhist : row.history with
  | rewindable => exact h
  | latest =>
    refine ⟨h.ids, h.created, h.retired, h.addresses, fun r hr => h.seqs r (hrevisions r hr).1,
      fun r hr => h.owned r (hrevisions r hr).1, fun row' hrow' hkeep => ?_⟩
    by_cases hid : row'.id = row.id
    · -- The retired row itself: it keeps no revisions, and none are asked for.
      rw [h.unique hrow' hrow hid, hhist] at hkeep
      rcases hkeep with hlive | hrewi
      · rcases hret with hnone | hne
        · rw [hhist] at hnone
          cases hnone
        · exact absurd hlive hne
      · cases hrewi
    · show IsChain ((DocumentTables.mk t.documents (delete (·.documentId = row.id) t.revisions)).chain row'.id) _
      rw [chain_delete_other t hid]
      exact h.chains row' hrow' hkeep
  | none =>
    have hdocuments : ∀ row' ∈ delete (fun r : DocumentRow => decide (r.id = row.id)) t.documents,
        row' ∈ t.documents ∧ row'.id ≠ row.id := fun row' hrow' => by
      obtain ⟨hrow', hid⟩ := mem_delete.mp hrow'
      exact ⟨hrow', of_decide_eq_false hid⟩
    refine ⟨(filter_sublist.map _).nodup h.ids, fun row' hrow' => h.created row' (hdocuments row' hrow').1,
      fun row' hrow' => h.retired row' (hdocuments row' hrow').1, fun r₁ hr₁ r₂ hr₂ =>
        h.addresses r₁ (hdocuments r₁ hr₁).1 r₂ (hdocuments r₂ hr₂).1,
      fun r hr => h.seqs r (hrevisions r hr).1, fun r hr => ?_, fun row' hrow' hkeep => ?_⟩
    · obtain ⟨hr, hid⟩ := hrevisions r hr
      obtain ⟨row', hrow', hrowid⟩ := h.owned r hr
      exact ⟨row', mem_delete.mpr ⟨hrow', decide_eq_false fun heq => hid (hrowid.symm.trans heq)⟩, hrowid⟩
    · obtain ⟨hrow', hid⟩ := hdocuments row' hrow'
      show IsChain ((DocumentTables.mk _ (delete (·.documentId = row.id) t.revisions)).chain row'.id) _
      rw [chain_delete_other t hid]
      exact h.chains row' hrow' hkeep

variable {w : Option DocumentWrite}

/-- **An edit keeps what a state is.** -/
theorem Holds.edit {own : List Nat} (hedit : Edit own q t w t') : Holds q (ledger.after w) t' := by
  cases hedit with
  | insert rec base hmade hret _ hver hfree => exact h.insert hmade hret hver hfree
  | change revision content row hrow hchgs hfree => exact h.change hrow hchgs hfree
  | mark row hrow hlive _ => exact h.mark hrow hlive
  | drop row hrow hret => exact h.drop hrow hret

end

/-! ## What an edit keeps of an earlier state -/

theorem keeps_iff {i : Nat × Nat} : t.keeps i = true ↔ ∃ row ∈ t.documents, row.identity = i := by
  unfold DocumentTables.keeps
  rw [contains_iff_mem, mem_map]

/-- Updates of what a state does not say of an earlier one. -/
theorem Agrees.update (h : Agrees p t₀ t) {on : DocumentRow → Bool} {f : DocumentRow → DocumentRow}
    {revisions : List RevisionRow}
    (hsame : ∀ row ∈ t.documents, on row = true →
      (f row).asOf p = row.asOf p ∧ (f row).identity = row.identity ∧ (f row).history = row.history)
    (hrevisions : ∀ docs, ∀ row ∈ t.documents, row.history = .rewindable →
      ((DocumentTables.mk docs revisions).chain row.id).filter (·.seq ≤ p) = (t.chain row.id).filter (·.seq ≤ p)) :
    Agrees p t₀ ⟨Rows.update on f t.documents, revisions⟩ := by
  have hidents : (Rows.update on f t.documents).map (·.identity) = t.documents.map (·.identity) :=
    map_update fun row hrow hon => (hsame row hrow hon).2.1
  have hkeep : ∀ i, (DocumentTables.mk (Rows.update on f t.documents) revisions).keeps i = t.keeps i := by
    intro i
    unfold DocumentTables.keeps
    rw [hidents]
  refine ⟨?_, fun row₀ hrow₀ hne => ?_, fun row hrow hrewi hmade => ?_⟩
  · rw [map_filter_update fun row hrow hon => ⟨?_, (hsame row hrow hon).1⟩, h.documents]
    · refine congrArg _ (filter_congr fun row _ => ?_)
      exact (hkeep row.identity).symm
    · rw [show (f row).createdAt = row.createdAt from congrArg Prod.snd (hsame row hrow hon).2.1]
  · obtain ⟨row, hrow, hident, hhist⟩ := h.kept row₀ hrow₀ hne
    refine ⟨_, mem_update.mpr ⟨row, hrow, rfl⟩, ?_⟩
    split
    · rename_i hon
      exact ⟨(hsame row hrow hon).2.1.trans hident, (hsame row hrow hon).2.2.trans hhist⟩
    · exact ⟨hident, hhist⟩
  · obtain ⟨row₁, hrow₁, hback⟩ : ∃ row₁ ∈ t.documents, row.identity = row₁.identity ∧ row.history = row₁.history := by
      obtain ⟨row₁, hrow₁, hon, rfl⟩ | ⟨hrow, -⟩ := of_mem_update hrow
      · exact ⟨row₁, hrow₁, (hsame row₁ hrow₁ hon).2⟩
      · exact ⟨row, hrow, rfl, rfl⟩
    have hid : row.id = row₁.id := congrArg Prod.fst hback.1
    have hmade₁ : row.createdAt = row₁.createdAt := congrArg Prod.snd hback.1
    rw [hback.2] at hrewi
    rw [hmade₁] at hmade
    rw [hid, hrevisions _ row₁ hrow₁ hrewi]
    exact h.revisions row₁ hrow₁ hrewi hmade

/-- A revision of a later seq is none of the earlier ones. -/
theorem chain_append_later (hpq : p < q) (docs : List DocumentRow) (rows : List RevisionRow) (r : RevisionRow)
    (hr : r.seq = q) (id : Nat) :
    ((DocumentTables.mk docs (rows ++ [r])).chain id).filter (·.seq ≤ p) = ((DocumentTables.mk docs rows).chain id).filter (·.seq ≤ p) := by
  have hlat : ¬ r.seq ≤ p := by omega
  rw [chain_append, filter_append]
  split
  · simp [hlat]
  · simp

theorem Agrees.insert (h : Agrees p t₀ t) (hpq : p < q) (h₀ : ∀ row ∈ t₀.documents, row.createdAt ≤ p)
    (hmade : rec.createdAt = q) {r : RevisionRow} (hr : r.seq = q) :
    Agrees p t₀ ⟨t.documents ++ [DocumentRow.ofRecord rec], t.revisions ++ [r]⟩ := by
  have hlat : ¬ (DocumentRow.ofRecord rec).createdAt ≤ p := by
    show ¬ rec.createdAt ≤ p
    omega
  refine ⟨?_, fun row₀ hrow₀ hne => ?_, fun row hrow hrewi hmade' => ?_⟩
  · rw [filter_append, filter_singleton, decide_eq_false hlat, cond_false, append_nil, h.documents]
    refine congrArg _ (filter_congr fun row hrow => ?_)
    -- The new record is no incarnation of the earlier state.
    rw [Bool.eq_iff_iff, keeps_iff, keeps_iff]
    constructor
    · rintro ⟨row', hrow', hident⟩
      exact ⟨row', mem_append_left _ hrow', hident⟩
    · rintro ⟨row', hrow', hident⟩
      rcases mem_snoc.mp hrow' with hrow' | rfl
      · exact ⟨row', hrow', hident⟩
      · have hle := h₀ row hrow
        rw [← show (DocumentRow.ofRecord rec).createdAt = row.createdAt from congrArg Prod.snd hident] at hle
        exact absurd hle hlat
  · obtain ⟨row, hrow, hident⟩ := h.kept row₀ hrow₀ hne
    exact ⟨row, mem_append_left _ hrow, hident⟩
  · rcases mem_snoc.mp hrow with hrow | rfl
    · rw [chain_append_later hpq _ _ r hr]
      exact h.revisions row hrow hrewi hmade'
    · exact absurd hmade' hlat

theorem Agrees.drop (h : Agrees p t₀ t) (holds : Holds q ledger t) (hrow : row ∈ t.documents) :
    Agrees p t₀ (t.dropRetired row.id row.history) := by
  cases hhist : row.history with
  | rewindable => exact h
  | latest =>
    refine ⟨h.documents, h.kept, fun row' hrow' hrewi hmade => ?_⟩
    have hid : row'.id ≠ row.id := by
      intro hid
      rw [holds.unique hrow' hrow hid, hhist] at hrewi
      cases hrewi
    show ((DocumentTables.mk t.documents (delete (·.documentId = row.id) t.revisions)).chain row'.id).filter _ = _
    rw [chain_delete_other t hid]
    exact h.revisions row' hrow' hrewi hmade
  | none =>
    have hkeep : ∀ i, (t.dropRetired row.id .none).keeps i = (t.keeps i && !decide (i.1 = row.id)) := by
      intro i
      rw [Bool.eq_iff_iff, Bool.and_eq_true, keeps_iff, keeps_iff]
      constructor
      · rintro ⟨row', hrow', rfl⟩
        obtain ⟨hrow', hid⟩ := mem_delete.mp hrow'
        exact ⟨⟨row', hrow', rfl⟩, by rw [not_eq_true']; exact hid⟩
      · rintro ⟨⟨row', hrow', rfl⟩, hid⟩
        rw [not_eq_true'] at hid
        exact ⟨row', mem_delete.mpr ⟨hrow', hid⟩, rfl⟩
    refine ⟨?_, fun row₀ hrow₀ hne => ?_, fun row' hrow' hrewi hmade => ?_⟩
    · -- The record goes from both.
      show ((t.documents.filter fun row' => !decide (row'.id = row.id)).filter (·.createdAt ≤ p)).map (·.asOf p) = _
      have hcomm : ∀ l : List DocumentRow, (l.filter fun row' => !decide (row'.id = row.id)).map (·.asOf p) =
          (l.map (·.asOf p)).filter fun row' => !decide (row'.id = row.id) := fun l => by
        rw [filter_map]
        rfl
      rw [filter_comm, hcomm, h.documents, ← hcomm, filter_filter]
      refine congrArg _ (filter_congr fun row' _ => ?_)
      rw [hkeep, Bool.and_comm]
      rfl
    · obtain ⟨row', hrow', hident, hsame⟩ := h.kept row₀ hrow₀ hne
      have hid : row'.id ≠ row.id := by
        intro hid
        rw [holds.unique hrow' hrow hid, hhist] at hsame
        exact hne hsame.symm
      exact ⟨row', mem_delete.mpr ⟨hrow', decide_eq_false hid⟩, hident, hsame⟩
    · obtain ⟨hrow', hid⟩ := mem_delete.mp hrow'
      show ((DocumentTables.mk _ (delete (·.documentId = row.id) t.revisions)).chain row'.id).filter _ = _
      rw [chain_delete_other t (of_decide_eq_false hid)]
      exact h.revisions row' hrow' hrewi hmade

/-- **An edit keeps what a state says of an earlier one.** -/
theorem Agrees.edit (h : Agrees p t₀ t) (holds : Holds q ledger t) (hpq : p < q)
    (h₀ : ∀ row ∈ t₀.documents, row.createdAt ≤ p) {own : List Nat}
    (hedit : Edit own q t w t') : Agrees p t₀ t' := by
  cases hedit with
  | insert rec base hmade _ _ _ _ => exact h.insert hpq h₀ hmade rfl
  | change revision content row hrow hchgs _ =>
    refine h.update (fun row' _ _ => ?_) fun docs row' hrow' hrewi => ?_
    · obtain ⟨hasOf, hident, -, hhist, -⟩ := changed_keeps (p := p) content row'
      exact ⟨hasOf, hident, hhist⟩
    · split
      · rename_i hdrops
        -- The older revisions that go are another document's.
        have hid : row'.id ≠ row.id := by
          intro hid
          rw [holds.unique hrow' hrow hid] at hrewi
          exact hdrops.2 hrewi
        rw [chain_delete_ne fun r hr => by simp [hr, hid]]
        exact chain_append_later hpq _ _ _ rfl _
      · exact chain_append_later hpq _ _ _ rfl _
  | mark row hrow hlive _ =>
    refine h.update (fun row' hrow' hon => ⟨?_, rfl, rfl⟩) fun _ _ _ _ => rfl
    have heq : row' = row := holds.unique hrow' hrow (of_decide_eq_true hon)
    unfold DocumentRow.asOf
    rw [heq, hlive]
    simp [hpq]
  | drop row hrow _ => exact h.drop holds hrow

/-! ## Writes -/

/-- What holds in a commit step of seq `q`, with an earlier state at `p`. -/
structure Kept (own : List Nat) (p : Nat) (t₀ : DocumentTables) (q : Nat) (ledger : Ledger) (t : DocumentTables) : Prop where
  before : p < q
  earlier : ∀ row ∈ t₀.documents, row.createdAt ≤ p
  holds : Holds q ledger t
  owns : Owns own t
  agrees : Agrees p t₀ t

variable {own : List Nat}

theorem Owns.edit (h : Owns own t) (hedit : Edit own q t w t') : Owns own t' := by
  cases hedit with
  | insert rec base _ _ hown _ _ =>
    intro row hrow hid
    rcases mem_snoc.mp hrow with hrow | rfl
    · exact h row hrow hid
    · exact hown hid
  | change revision content row hrow hchgs hfree =>
    intro row' hrow' hid
    obtain ⟨row₀, hrow₀, -, rfl⟩ | ⟨hrow', -⟩ := of_mem_update hrow'
    · obtain ⟨-, -, hsameid, hsame, -⟩ := changed_keeps (p := 0) content row₀
      rw [hsame]
      exact h row₀ hrow₀ (by rwa [hsameid] at hid)
    · exact h row' hrow' hid
  | mark row hrow _ _ =>
    intro row' hrow' hid
    obtain ⟨row₀, hrow₀, -, rfl⟩ | ⟨hrow', -⟩ := of_mem_update hrow'
    · exact h row₀ hrow₀ hid
    · exact h row' hrow' hid
  | drop row hrow _ =>
    intro row' hrow' hid
    refine h row' ?_ hid
    cases hhist : row.history with
    | rewindable | latest =>
      rw [hhist] at hrow'
      exact hrow'
    | none =>
      rw [hhist] at hrow'
      exact (mem_delete.mp hrow').1

theorem Kept.edit (h : Kept own p t₀ q ledger t) (hedit : Edit own q t w t') : Kept own p t₀ q (ledger.after w) t' :=
  ⟨h.before, h.earlier, h.holds.edit hedit, h.owns.edit hedit, h.agrees.edit h.holds h.before h.earlier hedit⟩

theorem insertRevision_spec {seq ver : Nat} {content : RevisionContent}
    (h : t.insertRevision id seq ver content = some t') : (∀ r ∈ t.revisions, r.documentId = id → r.seq ≠ seq) ∧
      t' = { t with revisions := t.revisions ++ [⟨id, seq, ver, content⟩] } := by
  obtain ⟨revisions, hinsert, rfl⟩ := Option.map_eq_some_iff.mp h
  obtain ⟨hfree, rfl⟩ := insert_eq_some.mp hinsert
  refine ⟨fun r hr hid hseq => ?_, rfl⟩
  have hclash := hfree r hr
  rw [hid, hseq] at hclash
  simp at hclash

section

variable (h : Kept own p t₀ q ledger t)

include h

theorem Kept.insertDocument {base : DocumentBase} (hmade : rec.createdAt = q) (hret : ∀ seq, rec.retiredAt = some seq → seq = q)
    (hown : rec.id ∈ own → rec.history = .none) (hver : rec.version = base.version)
    (hrun : t.insertDocument rec base = some t') : Kept own p t₀ q (ledger.write (.create rec base)) t' := by
  unfold DocumentTables.insertDocument at hrun
  split at hrun
  · cases hrun
  · rename_i docs hinsert
    obtain ⟨hfree, rfl⟩ := insert_eq_some.mp hinsert
    obtain ⟨t₁, hrevision, rfl⟩ := Option.map_eq_some_iff.mp hrun
    obtain ⟨-, rfl⟩ := insertRevision_spec hrevision
    have hinserted := h.edit (.insert rec base hmade hret hown hver hfree)
    rw [hmade]
    split
    · rename_i hend
      -- Created retired: its lifetime is empty.
      exact hinserted.edit (.drop (.ofRecord rec) (mem_append_right _ (mem_singleton_self _))
        (.inr (Option.isSome_iff_ne_none.mp hend)))
    · exact hinserted

theorem Kept.writeContent {history : DocumentHistory}
    (hhist : ∀ row ∈ t.documents, row.id = id → row.history = history)
    (hrun : t.writeContent q id history revision content = some t') :
    Kept own p t₀ q (ledger.write (.change id revision content)) t' := by
  unfold DocumentTables.writeContent at hrun
  split at hrun
  · cases hrun
  · split at hrun
    · cases hrun
    · rename_i t₁ hrevision
      obtain ⟨hfree, rfl⟩ := insertRevision_spec hrevision
      split at hrun
      · rename_i hcnt
        obtain ⟨row, hrow, hchgs⟩ := exists_of_counted hcnt
        obtain ⟨rfl, -⟩ := changes_iff hchgs
        have hedit := h.edit (.change revision content row hrow hchgs hfree)
        rw [hhist row hrow rfl] at hedit
        split at hrun
        · rename_i hdrops
          cases hrun
          rw [if_pos hdrops] at hedit
          exact hedit
        · rename_i hdrops
          cases hrun
          rw [if_neg hdrops] at hedit
          exact hedit
      · cases hrun

theorem Kept.retireRecord (hrow : row ∈ t.documents)
    (hlive : row.retiredAt = none) : Kept own p t₀ q ledger (t.retireRecord q row.id row.history) := by
  unfold DocumentTables.retireRecord
  split
  · rename_i hhist
    have hmark := h.edit (.mark row hrow hlive hhist)
    have hmem : { row with retiredAt := some q } ∈
        update (fun r : DocumentRow => decide (r.id = row.id)) (fun row => { row with retiredAt := some q }) t.documents :=
      mem_update.mpr ⟨row, hrow, if_pos (decide_eq_true rfl)⟩
    exact hmark.edit (.drop _ hmem (.inr (Option.some_ne_none q)))
  · rename_i hhist
    exact h.edit (.drop row hrow (.inl (not_not.mp hhist)))

theorem Kept.retireDocument (hown : id ∈ own)
    (hrun : t.retireDocument id revision = some t') : Kept own p t₀ q ledger t' := by
  unfold DocumentTables.retireDocument at hrun
  dsimp only at hrun
  split at hrun
  · rename_i hcnt
    cases hrun
    obtain ⟨row, hrow, hlive⟩ := exists_of_counted hcnt
    have hall := hlive
    simp only [and_eq_true, decide_eq_true_eq] at hall
    obtain ⟨⟨rfl, -⟩, -⟩ := hall
    have hdrop := h.edit (.drop row hrow (.inl (h.owns row hrow hown)))
    rw [h.owns row hrow hown] at hdrop
    -- The row the statement deletes is the only one with the id.
    have hsame : delete (fun r : DocumentRow => r.id = row.id && r.revision = revision && r.retiredAt.isNone) t.documents =
        delete (fun r : DocumentRow => decide (r.id = row.id)) t.documents := by
      refine filter_congr fun row' hrow' => ?_
      by_cases hid : row'.id = row.id
      · rw [h.holds.unique hrow' hrow hid]
        show (!(decide (row.id = row.id) && decide (row.revision = revision) && row.retiredAt.isNone)) = !decide (row.id = row.id)
        rw [hlive, decide_eq_true rfl]
      · simp [hid]
    rw [hsame]
    exact hdrop
  · cases hrun

end

/-! ## Commits -/

/-- Chord changes and retires documents of `own`, and adapters create others. -/
def StagedWrite.Respects (own : List Nat) : StagedWrite → Prop
  | .create _ _ => True
  | .change id _ _ => id ∈ own
  | .retire id _ => id ∈ own
  | .adapter writes => ∀ c, AdapterWrite.create c ∈ writes → c.id ∉ own

theorem liveAt_spec (h : t.liveAt id revision = some rec) :
    ∃ row ∈ t.documents, row.id = id ∧ row.retiredAt = none ∧ rec.history = row.history := by
  obtain ⟨hread, hlive⟩ := Option.filter_eq_some_iff.mp h
  obtain ⟨row, hfind, rfl⟩ := Option.map_eq_some_iff.mp hread
  rw [and_eq_true, Option.isNone_iff_eq_none] at hlive
  have hid := find?_some hfind
  exact ⟨row, mem_of_find?_eq_some hfind, of_decide_eq_true hid, hlive.1, rfl⟩

variable {s s' : CommitStep}

/-- What holds in a commit step, of the writes it recorded so far. -/
def CommitStep.Kept (own : List Nat) (p : Nat) (t₀ : DocumentTables) (q : Nat) (ledger : Ledger) (s : CommitStep) : Prop :=
  Store.Kept own p t₀ q (s.recorded.foldl Ledger.write ledger) s.tables

theorem CommitStep.Kept.record {tbls : Option DocumentTables} {w : DocumentWrite}
    (hkept : ∀ t', tbls = some t' → Store.Kept own p t₀ q ((s.recorded.foldl Ledger.write ledger).write w) t')
    (hrun : s.record w tbls = some s') : s'.Kept own p t₀ q ledger := by
  obtain ⟨t', htables, rfl⟩ := Option.map_eq_some_iff.mp hrun
  unfold CommitStep.Kept
  rw [foldl_append]
  exact hkept t' htables

section

variable (h : s.Kept own p t₀ q ledger)

include h

theorem CommitStep.Kept.applyAdapter {w : AdapterWrite}
    (hown : ∀ c, w = .create c → c.id ∉ own) (hrun : s.applyAdapter q w = some s') : s'.Kept own p t₀ q ledger := by
  cases w with
  | create c =>
    refine .record (fun t' ht' => h.insertDocument rfl (fun seq hseq => ?_) (fun hin => absurd hin (hown c rfl)) rfl ht') hrun
    unfold Creation.record at hseq
    split at hseq
    · exact (Option.some.inj hseq).symm
    · cases hseq
  | change id revision content =>
    unfold CommitStep.applyAdapter at hrun
    dsimp only at hrun
    split at hrun
    · cases hrun
    · rename_i rec hlive
      obtain ⟨row, hrow, hid, -, hhist⟩ := liveAt_spec hlive
      refine .record (fun t' ht' => h.writeContent (fun row' hrow' hid' => ?_) ht') hrun
      rw [h.holds.unique hrow' hrow (hid'.trans hid.symm), hhist]
  | retire id revision =>
    unfold CommitStep.applyAdapter at hrun
    dsimp only at hrun
    split at hrun
    · cases hrun
    · rename_i rec hlive
      obtain ⟨row, hrow, rfl, hnone, hhist⟩ := liveAt_spec hlive
      refine .record (fun t' ht' => ?_) hrun
      cases ht'
      rw [hhist]
      exact h.retireRecord hrow hnone

theorem CommitStep.Kept.apply {w : StagedWrite} (hown : w.Respects own)
    (hrun : s.apply q w = some s') : s'.Kept own p t₀ q ledger := by
  cases w with
  | create addr base =>
    unfold CommitStep.apply at hrun
    dsimp only at hrun
    split at hrun
    · cases hrun
    · have hminted : CommitStep.Kept own p t₀ q ledger { s with nextId := s.nextId + 1 } := h
      exact .record (fun t' ht' => hminted.insertDocument rfl (fun _ hseq => by cases hseq) (fun _ => rfl) rfl ht') hrun
  | change id revision content =>
    exact .record (fun t' ht' => h.writeContent (fun row hrow hid => h.owns row hrow (by rw [hid]; exact hown)) ht') hrun
  | retire id revision =>
    refine .record (fun t' ht' => ?_) hrun
    exact h.retireDocument hown ht'
  | adapter ws =>
    exact foldlM_invariant (fun w hwrite s s' hs hrun =>
      hs.applyAdapter (fun c hc => hown c (by rw [← hc]; exact hwrite)) hrun) h hrun

theorem CommitStep.Kept.write {ws : List StagedWrite} (hown : ∀ w ∈ ws, w.Respects own)
    (hrun : s.write q ws = some s') : s'.Kept own p t₀ q ledger :=
  foldlM_invariant (fun _ _ _ _ hs hphase =>
    foldlM_invariant (fun w hw _ _ hs' hone => hs'.apply (hown w (mem_of_mem_filter hw)) hone) hs hphase) h hrun

end

theorem Holds.later (h : Holds q ledger t) {q' : Nat} (hle : q ≤ q') : Holds q' ledger t :=
  ⟨h.ids, fun row hrow => le_trans (h.created row hrow) hle,
    fun row hrow seq hseq => le_trans (h.retired row hrow seq hseq) hle, h.addresses,
    fun r hr => le_trans (h.seqs r hr) hle, h.owned, h.chains⟩

/-! ## Reads -/

theorem loadRows_eq (t : DocumentTables) (id upper : Nat) : t.loadRows id upper =
    match ((((t.chain id).filter (·.seq ≤ upper)).filter (·.content.isBase)).map (·.seq)).max? with
    | none => []
    | some nst => orderBy (·.seq) (((t.chain id).filter (·.seq ≤ upper)).filter (nst ≤ ·.seq)) := by
  have hbases : (t.revisions.filter fun r => r.documentId = id && r.content.isBase && r.seq ≤ upper) =
      ((t.chain id).filter (·.seq ≤ upper)).filter (·.content.isBase) := by
    unfold DocumentTables.chain
    rw [filter_filter, filter_filter]
    refine filter_congr fun r _ => ?_
    rw [Bool.and_assoc, Bool.and_comm]
  have hrows : ∀ nst, (t.revisions.filter fun r => r.documentId = id && r.seq ≤ upper && nst ≤ r.seq) =
      ((t.chain id).filter (·.seq ≤ upper)).filter (nst ≤ ·.seq) := by
    intro nst
    unfold DocumentTables.chain
    rw [filter_filter, filter_filter]
    refine filter_congr fun r _ => ?_
    rw [Bool.and_comm, Bool.and_assoc, Bool.and_comm (decide (r.seq ≤ upper))]
  unfold DocumentTables.loadRows DocumentTables.newestBase
  rw [hbases]
  cases ((((t.chain id).filter (·.seq ≤ upper)).filter (·.content.isBase)).map (·.seq)).max? with
  | none => rfl
  | some nst =>
    dsimp only
    rw [hrows]

/-- A load reads the newest base and the deltas after it. -/
theorem loadRows_of_isChain {upper : Nat} {older deltas : List RevisionRow} {nst : RevisionRow}
    (hchain : (t.chain id).filter (·.seq ≤ upper) = older ++ nst :: deltas)
    (hsrt : (older ++ nst :: deltas).Pairwise fun r r' => r.seq < r'.seq) (hbase : nst.content.isBase = true)
    (hdeltas : ∀ r ∈ deltas, r.content.isBase = false) : t.loadRows id upper = nst :: deltas := by
  obtain ⟨-, hlat, hbef⟩ := pairwise_append.mp hsrt
  have hbases : ((older ++ nst :: deltas).filter (·.content.isBase)) = older.filter (·.content.isBase) ++ [nst] := by
    have hnone : deltas.filter (·.content.isBase) = [] := filter_eq_nil_iff.mpr fun r hr => by simp [hdeltas r hr]
    rw [filter_append, filter_cons, if_pos hbase, hnone]
  have hmax : ((older.filter (·.content.isBase) ++ [nst]).map (·.seq)).max? = some nst.seq := by
    rw [max?_eq_some_iff]
    refine ⟨by simp, fun seq hseq => ?_⟩
    obtain ⟨r, hr, rfl⟩ := mem_map.mp hseq
    rcases mem_snoc.mp hr with hr | rfl
    · exact le_of_lt (hbef r (mem_of_mem_filter hr) nst mem_cons_self)
    · rfl
  have hrows : (older ++ nst :: deltas).filter (nst.seq ≤ ·.seq) = nst :: deltas := by
    rw [filter_append, filter_eq_nil_iff.mpr, nil_append, filter_eq_self]
    · intro r hr
      rcases mem_cons.mp hr with rfl | hr
      · simp
      · exact decide_eq_true (le_of_lt (rel_of_pairwise_cons hlat hr))
    · intro r hr
      have hlt := hbef r hr nst mem_cons_self
      simpa using hlt
  rw [loadRows_eq, hchain, hbases, hmax]
  dsimp only
  rw [hrows]
  exact Pairwise.insertionSort_eq (hlat.imp le_of_lt)

/-- All of a chain is there at its state's seq. -/
theorem Holds.chain_filter (h : Holds q ledger t) {upper : Nat} (hupper : q ≤ upper) (id : Nat) :
    (t.chain id).filter (·.seq ≤ upper) = t.chain id := by
  rw [filter_eq_self]
  exact fun r hr => decide_eq_true (le_trans (h.seqs r (mem_of_mem_filter hr)) hupper)

/-- **A current read** returns what the contents give, whatever was dropped. -/
theorem Holds.loadContent (h : Holds q ledger t) (hq : q ≤ maxSafeInteger) (hrow : row ∈ t.documents)
    (hkeep : row.retiredAt = none ∨ row.history = .rewindable) : t.loadContent row.id .current = ledger row.id := by
  obtain ⟨hsrt, older, nst, deltas, hchain, hbase, hdeltas, hval⟩ := h.chains row hrow hkeep
  rw [hchain] at hsrt
  rw [← hval]
  exact congrArg loaded (loadRows_of_isChain ((h.chain_filter hq row.id).trans hchain) hsrt hbase hdeltas)

/-- A read of a rewindable document at the seq is the current read there was. -/
theorem Agrees.loadContent (h : Agrees p t₀ t) (h₀ : Holds p ledger t₀) (hp : p ≤ maxSafeInteger)
    (hrow : row ∈ t.documents) (hrewi : row.history = .rewindable) (hmade : row.createdAt ≤ p) :
    t.loadContent row.id (.at p) = t₀.loadContent row.id .current := by
  have hrows : t.loadRows row.id p = t₀.loadRows row.id maxSafeInteger := by
    rw [loadRows_eq, loadRows_eq, h.revisions row hrow hrewi hmade, h₀.chain_filter hp]
  exact congrArg loaded hrows

theorem livesAt_asOf (row : DocumentRow) : row.livesAt (.at p) = (decide (row.createdAt ≤ p) && (row.asOf p).retiredAt.isNone) := by
  unfold DocumentRow.livesAt DocumentRow.asOf
  cases row.retiredAt with
  | none => rfl
  | some seq =>
    by_cases hseq : seq ≤ p
    · simp [Option.filter, hseq, not_lt.mpr hseq]
    · simp [Option.filter, hseq, Nat.lt_of_not_le hseq]

/-- The rows that live at the seq are those that lived, where they are still there. -/
theorem Agrees.rows (h : Agrees p t₀ t) (h₀ : Holds p ledger t₀) {k : DocumentRow → Bool}
    (hk : ∀ row, k (row.asOf p) = k row) :
    (t.documents.filter fun row => k row && row.livesAt (.at p)).map (·.asOf p) =
      ((t₀.documents.filter fun row => k row && row.livesAt .current).filter fun row => t.keeps row.identity).map (·.asOf p) := by
  have hnow : ∀ l : List DocumentRow, (l.map (·.asOf p)).filter (fun row => k row && row.retiredAt.isNone) =
      (l.filter fun row => k row && (row.asOf p).retiredAt.isNone).map (·.asOf p) := by
    intro l
    rw [filter_map]
    refine congrArg _ (filter_congr fun row _ => ?_)
    show (k (row.asOf p) && _) = _
    rw [hk]
  have hleft : (t.documents.filter fun row => k row && row.livesAt (.at p)) =
      (t.documents.filter (·.createdAt ≤ p)).filter fun row => k row && (row.asOf p).retiredAt.isNone := by
    rw [filter_filter]
    refine filter_congr fun row _ => ?_
    rw [livesAt_asOf, Bool.and_comm (decide _), Bool.and_assoc]
  have hright : (t₀.documents.filter fun row => k row && row.livesAt .current).filter (fun row => t.keeps row.identity) =
      (t₀.documents.filter fun row => t.keeps row.identity).filter fun row => k row && (row.asOf p).retiredAt.isNone := by
    rw [filter_comm]
    refine filter_congr fun row hrow => ?_
    -- The row's retirement is no later than the seq.
    have hret := h₀.retired row (mem_of_mem_filter hrow)
    unfold DocumentRow.livesAt DocumentRow.asOf
    cases hseq : row.retiredAt with
    | none => rfl
    | some seq =>
      have hle := hret seq hseq
      simp [Option.filter, hle]
  rw [hleft, ← hnow, h.documents, hnow, hright]

/-- One record is live at an address. -/
theorem Holds.one (h : Holds q ledger t) (addr : DocumentAddress) :
    (t.documents.filter fun row => row.hasAddress addr && row.livesAt .current).length ≤ 1 := by
  refine length_le_one ((Nodup.of_map _ h.ids).filter _) fun row hrow row' hrow' => ?_
  obtain ⟨hrow, hcond⟩ := mem_filter.mp hrow
  obtain ⟨hrow', hcond'⟩ := mem_filter.mp hrow'
  simp only [DocumentRow.hasAddress, DocumentRow.livesAt, and_eq_true, decide_eq_true_eq, Option.isNone_iff_eq_none] at hcond hcond'
  exact h.unique hrow hrow' (h.addresses row hrow row' hrow' hcond.2 hcond'.2 (hcond.1.trans hcond'.1.symm))

def DocumentRecord.identity (record : DocumentRecord) : Nat × Nat := (record.id, record.createdAt)

/-- The incarnations in a selection at the seq are those there were, where they are still there. -/
theorem Agrees.identities (h : Agrees p t₀ t) (h₀ : Holds p ledger t₀) {k : DocumentRow → Bool}
    (hk : ∀ row, k (row.asOf p) = k row) :
    (t.documents.filter fun row => k row && row.livesAt (.at p)).map (·.identity) =
      ((t₀.documents.filter fun row => k row && row.livesAt .current).map (·.identity)).filter t.keeps := by
  have hmap : ∀ l : List DocumentRow, l.map (·.identity) = (l.map (·.asOf p)).map (·.identity) := fun l => by
    rw [map_map]
    rfl
  rw [hmap, h.rows h₀ hk, ← hmap, filter_map]
  rfl

theorem Agrees.one (h : Agrees p t₀ t) (h₀ : Holds p ledger t₀) (addr : DocumentAddress) :
    (t.documents.filter fun row => row.hasAddress addr && row.livesAt (.at p)).length ≤ 1 := by
  have hidents := congrArg length (h.identities h₀ (k := (·.hasAddress addr)) fun _ => rfl)
  rw [length_map] at hidents
  refine hidents ▸ le_trans (length_filter_le _ _) ?_
  rw [length_map]
  exact h₀.one addr

theorem findDocument_eq {addr : DocumentAddress} {point : DocumentPoint}
    (hone : (t.documents.filter fun row => row.hasAddress addr && row.livesAt point).length ≤ 1) :
    t.findDocument addr point = (t.documents.filter fun row => row.hasAddress addr && row.livesAt point).head?.map (·.recordOf) := by
  cases point with
  | current => rfl
  | «at» seq =>
    unfold DocumentTables.findDocument
    dsimp only
    rw [orderBy_of_length_le_one hone, getLast?_of_length_le_one hone]

section

variable (h : Agrees p t₀ t) (h₀ : Holds p ledger t₀)

include h h₀

/-- **A find at the seq** returns the one record whose lifetime has it. -/
theorem Agrees.findDocument_iff (addr : DocumentAddress) (rec : DocumentRecord) :
    t.findDocument addr (.at p) = some rec ↔
      ∃ row ∈ t.documents, row.hasAddress addr = true ∧ row.livesAt (.at p) = true ∧ row.recordOf = rec := by
  have hone := h.one h₀ addr
  rw [findDocument_eq hone]
  have hmem : ∀ row, row ∈ (t.documents.filter fun row => row.hasAddress addr && row.livesAt (.at p)) ↔
      row ∈ t.documents ∧ row.hasAddress addr = true ∧ row.livesAt (.at p) = true := by
    intro row
    rw [mem_filter, and_eq_true]
  constructor
  · intro hfind
    obtain ⟨row, hhead, hrec⟩ := Option.map_eq_some_iff.mp hfind
    obtain ⟨hrow, haddr, hlives⟩ := (hmem row).mp (mem_of_head? hhead)
    exact ⟨row, hrow, haddr, hlives, hrec⟩
  · rintro ⟨row, hrow, haddr, hlives, rfl⟩
    have hin := (hmem row).mpr ⟨hrow, haddr, hlives⟩
    generalize (t.documents.filter fun row => row.hasAddress addr && row.livesAt (.at p)) = l at hone hin
    match l, hone with
    | [], _ => cases hin
    | [_], _ =>
      rw [mem_singleton.mp hin]
      rfl

theorem Agrees.findDocument (addr : DocumentAddress) :
    (t.findDocument addr (.at p)).map (·.identity) = ((t₀.findDocument addr .current).map (·.identity)).filter t.keeps := by
  have hidents := h.identities h₀ (k := (·.hasAddress addr)) fun _ => rfl
  have hhead : ∀ l : List (Nat × Nat), l.length ≤ 1 → (l.filter t.keeps).head? = l.head?.filter t.keeps := by
    intro l hl
    match l, hl with
    | [], _ => rfl
    | [i], _ =>
      cases hkeep : t.keeps i <;> simp [Option.filter, hkeep]
  have hback : ∀ l : List DocumentRow, (l.head?.map (·.recordOf)).map (·.identity) = (l.map (·.identity)).head? := by
    intro l
    rw [head?_map, Option.map_map]
    rfl
  rw [findDocument_eq (h.one h₀ addr), findDocument_eq (h₀.one addr), hback, hback, hidents, hhead]
  rw [length_map]
  exact h₀.one addr

/-- **A listing at the seq** has the incarnations that were live then and are still there. -/
theorem Agrees.listDocuments (scope : DocumentScope) (aft lim : Nat) :
    (t.listDocuments scope (.at p) aft lim).map (·.identity) =
      (((t₀.listDocuments scope .current aft t₀.documents.length).map (·.identity)).filter t.keeps).take lim := by
  have hidents := h.identities h₀ (k := fun row => row.inScope scope && aft < row.id) fun _ => rfl
  have hlist : ∀ (l : List DocumentRow) (lim : Nat), (((orderBy (·.id) l).take lim).map (·.recordOf)).map (·.identity) =
      (orderBy Prod.fst (l.map (·.identity))).take lim := by
    intro l lim
    have hordr : (orderBy (·.id) l).map (·.identity) = orderBy Prod.fst (l.map (·.identity)) := map_orderBy fun _ => rfl
    rw [← hordr, map_map, ← map_take]
    rfl
  -- As many as there are rows are all of them.
  have hall : ∀ l : List DocumentRow, l.length ≤ t₀.documents.length →
      (orderBy Prod.fst (l.map (·.identity))).take t₀.documents.length = orderBy Prod.fst (l.map (·.identity)) := by
    intro l hl
    refine take_of_length_le ?_
    show (insertionSort _ _).length ≤ _
    rw [length_insertionSort, length_map]
    exact hl
  unfold DocumentTables.listDocuments
  rw [hlist, hlist, hidents, hall _ (length_filter_le _ _), filter_orderBy]

end

/-! ## Runs -/

/-- What happens to a store: an adapter raises the allocator, or a commit is stored, with the writes it recorded. -/
inductive StoreEvent where
  | raise (id : Nat)
  | commit (writes : List StagedWrite) (recorded : List DocumentWrite)

/-- Chord's writes are of documents that keep no history, which no adapter creates. -/
def DocumentStore.Step (s : DocumentStore) (event : StoreEvent) (s' : DocumentStore) : Prop :=
  match event with
  | .raise id => s' = s.raise id
  | .commit writes recorded =>
    (∃ own, Owns own s.tables ∧ ∀ w ∈ writes, w.Respects own) ∧ s.commit writes = some (s', recorded)

/-- A new store. -/
def DocumentStore.empty : DocumentStore := ⟨⟨[], []⟩, 0, 2⟩

def Ledger.event (ledger : Ledger) : StoreEvent → Ledger
  | .raise _ => ledger
  | .commit _ recorded => recorded.foldl Ledger.write ledger

def Ledger.empty : Ledger := fun _ => .error .noBase

/-- What holds of a store, with an earlier state. -/
structure DocumentStore.Kept (p : Nat) (t₀ : DocumentTables) (s : DocumentStore) (ledger : Ledger) : Prop where
  before : p ≤ s.lastSeq
  safe : s.lastSeq ≤ maxSafeInteger
  earlier : ∀ row ∈ t₀.documents, row.createdAt ≤ p
  holds : Holds s.lastSeq ledger s.tables
  agrees : Agrees p t₀ s.tables

theorem DocumentStore.Kept.step {s s' : DocumentStore} (h : s.Kept p t₀ ledger) {ev : StoreEvent}
    (hstep : s.Step ev s') : s'.Kept p t₀ (ledger.event ev) := by
  cases ev with
  | raise id =>
    obtain rfl : s' = s.raise id := hstep
    unfold DocumentStore.raise
    split
    · exact { h with }
    · exact h
  | commit ws recorded =>
    obtain ⟨⟨own, howns, hown⟩, hcomm⟩ := hstep
    unfold DocumentStore.commit at hcomm
    split at hcomm
    · cases hcomm
      exact h
    · split at hcomm
      · cases hcomm
      · rename_i hsafe
        obtain ⟨step, hwrite, heq⟩ := Option.map_eq_some_iff.mp hcomm
        cases heq
        have hkept : CommitStep.Kept own p t₀ (s.lastSeq + 1) ledger ⟨s.tables, s.nextId, []⟩ :=
          ⟨lt_succ_of_le h.before, h.earlier, h.holds.later (le_succ _), howns, h.agrees⟩
        have hwrt := hkept.write hown hwrite
        exact ⟨Nat.le_succ_of_le h.before, Nat.le_of_not_lt hsafe, h.earlier, hwrt.holds, hwrt.agrees⟩

theorem DocumentStore.Kept.run {s s' : DocumentStore} (h : s.Kept p t₀ ledger) {evs : List StoreEvent}
    (hrun : Steps DocumentStore.Step s evs s') : s'.Kept p t₀ (evs.foldl Ledger.event ledger) :=
  hrun.fold_rel (R := fun s ledger => s.Kept p t₀ ledger) (fun hkept hstep => hkept.step hstep) h

theorem kept_empty : DocumentStore.empty.Kept 0 ⟨[], []⟩ Ledger.empty where
  before := le_refl 0
  safe := zero_le _
  earlier _ hrow := absurd hrow not_mem_nil
  holds := ⟨.nil, forall_mem_nil _, forall_mem_nil _,
    forall_mem_nil _, forall_mem_nil _, forall_mem_nil _,
    forall_mem_nil _⟩
  agrees := ⟨rfl, forall_mem_nil _, forall_mem_nil _⟩

theorem Holds.agrees (h : Holds q ledger t) : Agrees q t t := by
  refine ⟨?_, fun row hrow _ => ⟨row, hrow, rfl, rfl⟩, fun row _ _ _ => h.chain_filter (le_refl q) row.id⟩
  rw [filter_eq_self.mpr fun row hrow => decide_eq_true (h.created row hrow),
    filter_eq_self.mpr fun row hrow => keeps_iff.2 ⟨row, hrow, rfl⟩]

theorem step_lastSeq {s s' : DocumentStore} {ev : StoreEvent} (h : s.Step ev s') : s'.lastSeq ≤ s.lastSeq + 1 := by
  cases ev with
  | raise id =>
    obtain rfl : s' = s.raise id := h
    unfold DocumentStore.raise
    split <;> exact le_succ _
  | commit ws recorded =>
    have hcomm := h.2
    unfold DocumentStore.commit at hcomm
    split at hcomm
    · cases hcomm
      exact le_succ _
    · split at hcomm
      · cases hcomm
      · obtain ⟨step, -, heq⟩ := Option.map_eq_some_iff.mp hcomm
        cases heq
        exact le_refl _

/-- What reads at a seq return, once `sₚ` was the store right after its commit. -/
structure PointReads (events : List StoreEvent) (sₚ s : DocumentStore) : Prop where
  /-- A find returns the one record of the address whose lifetime has the seq, -/
  find : ∀ address record, s.tables.findDocument address (.at sₚ.lastSeq) = some record ↔
    ∃ row ∈ s.tables.documents, row.hasAddress address = true ∧ row.livesAt (.at sₚ.lastSeq) = true ∧ row.recordOf = record
  /-- which is the one that was live, where its row is still there; -/
  found : ∀ address, (s.tables.findDocument address (.at sₚ.lastSeq)).map (·.identity) =
    ((sₚ.tables.findDocument address .current).map (·.identity)).filter s.tables.keeps
  /-- a listing has the records that were live, where their rows are still there: -/
  list : ∀ scope after limit, (s.tables.listDocuments scope (.at sₚ.lastSeq) after limit).map (·.identity) =
    (((sₚ.tables.listDocuments scope .current after sₚ.tables.documents.length).map (·.identity)).filter s.tables.keeps).take limit
  /-- only a record without history loses its row. -/
  kept : ∀ row ∈ sₚ.tables.documents, row.history ≠ .none → s.tables.keeps row.identity = true
  /-- A load of a rewindable record returns what a current read returned. -/
  load : ∀ row ∈ s.tables.documents, row.history = .rewindable → row.createdAt ≤ sₚ.lastSeq →
    s.tables.loadContent row.id (.at sₚ.lastSeq) = sₚ.tables.loadContent row.id .current
  /-- A current read of a live record of any history returns what all its contents give. -/
  current : ∀ row ∈ s.tables.documents, row.retiredAt = none →
    s.tables.loadContent row.id .current = events.foldl Ledger.event Ledger.empty row.id

/-- **Point reads return history**: in every run, for every seq up to the last. -/
theorem point_reads_return_history {events : List StoreEvent} {s : DocumentStore}
    (hrun : Steps DocumentStore.Step .empty events s) {p : Nat} (hp : p ≤ s.lastSeq) :
    (∃ before after sₚ, events = before ++ after ∧ Steps DocumentStore.Step .empty before sₚ ∧
      Steps DocumentStore.Step sₚ after s ∧ sₚ.lastSeq = p) ∧
    ∀ before after sₚ, events = before ++ after → Steps DocumentStore.Step .empty before sₚ →
      Steps DocumentStore.Step sₚ after s → sₚ.lastSeq = p → PointReads events sₚ s := by
  refine ⟨hrun.exists_at (m := DocumentStore.lastSeq) (fun hstep => step_lastSeq hstep) (zero_le p) hp, ?_⟩
  rintro before after sₚ - hbefore hafter rfl
  have hearly := kept_empty.run hbefore
  have hlate : s.Kept sₚ.lastSeq sₚ.tables (after.foldl Ledger.event (before.foldl Ledger.event Ledger.empty)) :=
    DocumentStore.Kept.run ⟨le_refl _, hearly.safe, hearly.holds.created, hearly.holds, hearly.holds.agrees⟩ hafter
  have hall := kept_empty.run hrun
  refine ⟨fun address record => hlate.agrees.findDocument_iff hearly.holds address record,
    fun address => hlate.agrees.findDocument hearly.holds address,
    fun scope after limit => hlate.agrees.listDocuments hearly.holds scope after limit, fun row hrow hne => ?_,
    fun row hrow hrewindable hcreated => hlate.agrees.loadContent hearly.holds hearly.safe hrow hrewindable hcreated,
    fun row hrow hlive => hall.holds.loadContent hall.safe hrow (.inl hlive)⟩
  obtain ⟨row', hrow', hidentity, -⟩ := hlate.agrees.kept row hrow hne
  exact keeps_iff.2 ⟨row', hrow', hidentity⟩

/-- A document that is created, changed and retired. -/
theorem point_reads_return_history_retired : ∃ events s, Steps DocumentStore.Step .empty events s ∧ s.lastSeq = 3 ∧
    s.tables.loadContent 10 (.at 1) = .ok ⟨.null, 1, 0⟩ := by
  let creation : StagedWrite := .adapter [.create ⟨10, ⟨[], [], [], none⟩, .rewindable, none, ⟨1, [], .null⟩, false⟩]
  let change : StagedWrite := .adapter [.change 10 1 (.delta 1 [.r (.bool true)])]
  let retirement : StagedWrite := .adapter [.retire 10 2]
  have hown : ∀ {t : DocumentTables} {w : StagedWrite}, w.Respects [] → ∃ own, Owns own t ∧ ∀ w' ∈ [w], w'.Respects own :=
    fun hw => ⟨[], nofun, fun w' hw' => by rw [mem_singleton.mp hw']; exact hw⟩
  have hnone : ∀ writes, (StagedWrite.adapter writes).Respects [] := fun _ _ _ => not_mem_nil
  have hruns : ∃ recorded₁ recorded₂ recorded₃ s₁ s, Steps DocumentStore.Step .empty [.commit [creation] recorded₁] s₁ ∧
      Steps DocumentStore.Step s₁ [.commit [change] recorded₂, .commit [retirement] recorded₃] s ∧ s₁.lastSeq = 1 ∧ s.lastSeq = 3 ∧
      s₁.tables.loadContent 10 .current = .ok ⟨.null, 1, 0⟩ ∧
      ∃ row ∈ s.tables.documents, row.id = 10 ∧ row.history = .rewindable ∧ row.createdAt ≤ 1 :=
    ⟨_, _, _, _, _, .head ⟨hown (hnone _), rfl⟩ .refl, .head ⟨hown (hnone _), rfl⟩ (.head ⟨hown (hnone _), rfl⟩ .refl), rfl, rfl,
      rfl, _, mem_singleton_self _, rfl, rfl, le_refl 1⟩
  obtain ⟨recorded₁, recorded₂, recorded₃, s₁, s, hbefore, hafter, hp, hlast, hvalue, row, hrow, hid, hrewindable, hcreated⟩ := hruns
  have hreads := (point_reads_return_history (hbefore.trans hafter) (by rw [hlast]; decide : 1 ≤ s.lastSeq)).2 _ _ s₁ rfl
    hbefore hafter hp
  have hload := hreads.load row hrow hrewindable (by rw [hp]; exact hcreated)
  rw [hid, hp, hvalue] at hload
  exact ⟨_, s, hbefore.trans hafter, hlast, hload⟩

end PiBridge.Chord.Store
