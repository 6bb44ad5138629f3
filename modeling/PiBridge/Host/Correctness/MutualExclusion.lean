import PiBridge.Host.StorageLock

/-!
# `Host.Correctness.MutualExclusion` — at most one holder, while no guard is taken from under its holder

The lock is deleted only by its holder or under the guard, and what a call that holds the guard deletes is
the record of a call that is over. So two calls never both hold the lock, as long as the guard excludes.

The guard itself is reclaimed by a bare check-then-unlink. Between the check and the unlink another call
can have reclaimed the stale guard and created its own; the unlink then removes *that*, and two calls
reclaim the lock side by side (`stale_guard_admits_second_holder`). `Guarded` is the condition on a step
that rules this out, and `lock_excludes` is what then holds in every state reached.
-/

namespace PiBridge.StorageLock

open Lib Option Function

variable {Token : Type} {h : Host Token} {s t : State Token}

/-- `p` has returned from acquire without releasing, and its claim was deleted by nobody else. -/
def State.Holds (h : Host Token) (s : State Token) (p : Nat) : Prop := s.alive p = true ∧
    ∃ c, h.pid c = p ∧ s.phase c = .held ∧ ∀ d, (c, d) ∈ s.deletions → h.pid d = p

/-- At most one live process holds the lock. -/
def State.MutualExclusion (h : Host Token) (s : State Token) : Prop := ∀ p q, s.Holds h p → s.Holds h q → p = q

/-- The step does not unlink a guard whose writer is reclaiming under it. -/
def Guarded (s : State Token) : Action Token → Prop
  | .step c =>
    s.phase c = .unlinkGuard → ∀ r, s.files .reclaimFile = .record r → (s.phase r.token).holdsGuard = false
  | _ => True

/-- A step that meets the condition. -/
def GuardedStep [DecidableEq Token] (h : Host Token) (s : State Token) (a : Action Token) (t : State Token) : Prop :=
  Step h s a t ∧ Guarded s a

/-! ## The invariant -/

/-- The call that wrote the record is over. -/
def State.Over (s : State Token) (r : LockRecord Token) : Prop := (s.phase r.token).isGone = true

/-- What the files hold while the call `c` is in a phase. -/
def Sound (h : Host Token) (s : State Token) (c : Token) : Phase Token → Prop
  | .judgeHeld held => s.Known h held
  | .createGuard stale => s.Over stale
  | .judgeGuard held => s.Known h held
  | .readAgain stale => s.Over stale ∧ s.files .reclaimFile = .record (h.record c)
  | .unlinkStale stale =>
    s.Over stale ∧ s.files .reclaimFile = .record (h.record c) ∧ ∃ r, s.files .lockFile = .record r ∧ r.token = stale.token
  | .readOwnGuard | .releaseGuard => s.files .reclaimFile = .record (h.record c)
  | .held | .readOwnLock | .releaseLock => s.files .lockFile = .record (h.record c)
  | _ => True

/-- The files a phase speaks of. -/
def Phase.relies (ph : Phase Token) : LockPath → Bool
  | .lockFile => ph.holdsLock || match ph with | .unlinkStale _ => true | _ => false
  | .reclaimFile => ph.holdsGuard

variable {ph : Phase Token} {c : Token} {path : LockPath} {d : Token}

theorem relies_lockFile : ph.relies .lockFile = true ↔ ph.holdsLock = true ∨ ∃ stale, ph = .unlinkStale stale := by
  cases ph <;> simp [Phase.relies, Phase.holdsLock]

structure Inv (h : Host Token) (s : State Token) : Prop where
  known : ∀ path r, s.files path = .record r → s.Known h r
  alive : ∀ c, (s.phase c).isLive = true → s.alive (h.pid c) = true
  sound : ∀ c, Sound h s c (s.phase c)
  deleted : ∀ c d, (c, d) ∈ s.deletions → (s.phase c).isGone = true

theorem Sound.lock (hs : Sound h s c ph) (hph : ph.holdsLock = true) : s.files .lockFile = .record (h.record c) := by
  cases ph <;> first | exact hs | simp [Phase.holdsLock] at hph

theorem Sound.guard (hs : Sound h s c ph) (hph : ph.holdsGuard = true) : s.files .reclaimFile = .record (h.record c) := by
  cases ph <;> first | exact hs | exact hs.2 | exact hs.2.1 | simp [Phase.holdsGuard] at hph

/-- A call is live while it holds one of the files. -/
theorem isGone_of_relies (hph : ph.relies path = true) : ph.isGone = false := by
  cases path <;> cases ph <;> simp_all [Phase.relies, Phase.holdsLock, Phase.holdsGuard, Phase.isGone]

/-- Two calls with one record are one call. -/
theorem record_injective (hcd : h.record c = h.record d) : c = d := by
  rw [← h.token_record c, ← h.token_record d, hcd]

theorem isGone_of_not_isLive (hidle : ph ≠ .idle) (hlive : ph.isLive = false) : ph.isGone = true := by
  cases ph <;> first | rfl | exact absurd rfl hidle | exact Bool.noConfusion hlive

/-- What a stale record says: its call is over. -/
theorem Inv.over_of_isStale (hinv : Inv h s) {me : Nat} {r : LockRecord Token} (hr : s.Known h r)
    (hstale : isStale h.hostname me r s.alive = true) : s.Over r := by
  have hdead := not_alive_of_isStale hstale
  obtain ⟨heq, hidle⟩ := hr
  have hpid : h.pid r.token = r.pid := by rw [Host.pid, ← heq]
  have hlive : (s.phase r.token).isLive = false := by
    by_contra hcon
    have := hinv.alive r.token (by simpa using hcon)
    rw [hpid, hdead] at this
    exact absurd this (by simp)
  exact isGone_of_not_isLive hidle hlive

/-! ## What keeps it -/

/-- A phase stays sound while the files stand and calls only go on. -/
theorem Sound.mono (hs : Sound h s c ph) (hfiles : t.files = s.files)
    (hgone : ∀ d, (s.phase d).isGone = true → (t.phase d).isGone = true)
    (hidle : ∀ d, s.phase d ≠ .idle → t.phase d ≠ .idle) : Sound h t c ph := by
  have hover : ∀ r, s.Over r → t.Over r := fun r hr => hgone r.token hr
  have hkn : ∀ r, s.Known h r → t.Known h r := fun r hr => ⟨hr.1, hidle r.token hr.2⟩
  cases ph with
  | judgeHeld held => exact hkn held hs
  | createGuard stale => exact hover stale hs
  | judgeGuard held => exact hkn held hs
  | readAgain stale => exact ⟨hover stale hs.1, hfiles ▸ hs.2⟩
  | unlinkStale stale => exact ⟨hover stale hs.1, hfiles ▸ hs.2⟩
  | readOwnGuard | releaseGuard | held | readOwnLock | releaseLock =>
    simp only [Sound, hfiles]
    exact hs
  | _ => trivial

section

variable (hinv : Inv h s)

include hinv

theorem Inv.goto [DecidableEq Token] (hc : (s.phase c).isGone = false)
    (hph : ph ≠ .idle) (halive : ph.isLive = true → s.alive (h.pid c) = true) (hsound : Sound h s c ph) : Inv h (s.goto c ph) := by
  have hgone : ∀ d, (s.phase d).isGone = true → ((s.goto c ph).phase d).isGone = true := by
    intro d hd
    have hne : d ≠ c := by
      rintro rfl
      rw [hc] at hd
      exact absurd hd (by simp)
    rw [goto_phase_of_ne s c ph hne]
    exact hd
  have hidle : ∀ d, s.phase d ≠ .idle → (s.goto c ph).phase d ≠ .idle := by
    intro d hd
    by_cases hdc : d = c
    · rw [hdc, goto_phase_self]
      exact hph
    · rw [goto_phase_of_ne s c ph hdc]
      exact hd
  constructor
  · intro path r hr
    exact ⟨(hinv.known path r hr).1, hidle _ (hinv.known path r hr).2⟩
  · intro d hd
    by_cases hdc : d = c
    · rw [hdc, goto_phase_self] at hd
      rw [hdc]
      exact halive hd
    · rw [goto_phase_of_ne s c ph hdc] at hd
      exact hinv.alive d hd
  · intro d
    by_cases hdc : d = c
    · rw [hdc, goto_phase_self]
      exact hsound.mono rfl hgone hidle
    · rw [goto_phase_of_ne s c ph hdc]
      exact (hinv.sound d).mono rfl hgone hidle
  · intro d e hde
    exact hgone d (hinv.deleted d e hde)

/-- A file changes that no call holds. -/
theorem Inv.write {f : File Token} {dels : List (Token × Token)}
    (hf : ∀ r, f = .record r → s.Known h r) (hfrm : ∀ d, (s.phase d).relies path = false)
    (hdels : ∀ c d, (c, d) ∈ dels → (s.phase c).isGone = true) :
    Inv h { s with files := Function.update s.files path f, deletions := dels } := by
  constructor
  · intro q r hr
    by_cases hq : q = path
    · subst hq
      exact hf r (by simpa using hr)
    · exact hinv.known q r (by simpa [hq] using hr)
  · exact hinv.alive
  · intro d
    have hd := hfrm d
    have hs := hinv.sound d
    cases hph : s.phase d <;> rw [hph] at hs hd <;> first | exact hs | skip
    all_goals
      cases path <;>
        simp_all [Sound, Phase.relies, Phase.holdsLock, Phase.holdsGuard, State.Over]
  · exact hdels

/-- `createExclusive` wins only where no call holds the file. -/
theorem Inv.not_relies_of_absent (habs : s.files path = .absent) (d : Token) : (s.phase d).relies path = false := by
  have hs := hinv.sound d
  cases hph : s.phase d <;> rw [hph] at hs <;> cases path <;>
    simp_all [Sound, Phase.relies, Phase.holdsLock, Phase.holdsGuard]

/-- The holder of the guard is the only call that relies on it. -/
theorem Inv.guard_unique (hc : (s.phase c).holdsGuard = true) (hd : (s.phase d).holdsGuard = true) : c = d := by
  have hcr := (hinv.sound c).guard hc
  have hdr := (hinv.sound d).guard hd
  rw [hcr] at hdr
  exact record_injective (File.record.inj hdr)

/-- What the call `c` deletes the lock for is not held: the lock holds the record of a call that is over. -/
theorem Inv.unlinkStale_frame {stale : LockRecord Token} (hc : s.phase c = .unlinkStale stale) (hd : d ≠ c) :
    (s.phase d).relies .lockFile = false := by
  have hs := hinv.sound c
  rw [hc] at hs
  obtain ⟨hover, -, r, hr, htoken⟩ := hs
  by_contra hcon
  have hrelies : (s.phase d).relies .lockFile = true := by simpa using hcon
  rcases relies_lockFile.1 hrelies with hlock | ⟨stale', hunlink⟩
  · -- `d` holds the lock, so the record is its own, and its call is over.
    have hdr := (hinv.sound d).lock hlock
    have hdstale : d = stale.token := by
      rw [← htoken, ← h.token_record d]
      exact congrArg LockRecord.token (File.record.inj (hdr.symm.trans hr))
    have hlive := isGone_of_relies hrelies
    rw [hdstale] at hlive
    rw [State.Over, hlive] at hover
    exact absurd hover (by simp)
  · -- `d` is deleting under the guard too.
    exact hd (hinv.guard_unique (by rw [hunlink]; rfl) (by rw [hc]; rfl))

/-- The holder of the lock is the only call that relies on it. -/
theorem Inv.releaseLock_frame (hc : s.phase c = .releaseLock) (hd : d ≠ c) : (s.phase d).relies .lockFile = false := by
  have hcr := (hinv.sound c).lock (by rw [hc]; rfl)
  by_contra hcon
  have hrelies : (s.phase d).relies .lockFile = true := by simpa using hcon
  rcases relies_lockFile.1 hrelies with hlock | ⟨stale, hunlink⟩
  · have hdr := (hinv.sound d).lock hlock
    exact hd (record_injective (File.record.inj (hdr.symm.trans hcr)))
  · -- `d` deletes the lock for a record of a call that is over, and the record is `c`'s.
    have hs := hinv.sound d
    rw [hunlink] at hs
    obtain ⟨hover, -, r, hr, htoken⟩ := hs
    have hcstale : c = stale.token := by
      rw [← htoken, ← h.token_record c]
      exact congrArg LockRecord.token (File.record.inj (hcr.symm.trans hr))
    rw [State.Over, ← hcstale, hc] at hover
    exact absurd hover (by simp [Phase.isGone])

end

/-! ## Every step keeps it -/

/-- What an unlink adds to the bookkeeping. -/
theorem mem_deletions_unlink {e : Token} (hde : (d, e) ∈ (s.unlink path c).deletions) :
    (d, e) ∈ s.deletions ∨ (path = .lockFile ∧ ∃ r, s.files path = .record r ∧ r.token = d) := by
  simp only [State.unlink] at hde
  split at hde
  · rename_i r hr
    rcases List.mem_cons.mp hde with heq | hold
    · exact Or.inr ⟨rfl, r, readRecord_eq_some _ _ hr, (congrArg Prod.fst heq).symm⟩
    · exact Or.inl hold
  · exact Or.inl hde

/-- A process ends: what its calls held, nobody holds, and every record of theirs is over. -/
theorem Inv.crash (hinv : Inv h s) (p : Nat) :
    Inv h { s with
      alive := Function.update s.alive p false
      phase := fun c => if h.pid c = p ∧ (s.phase c).isLive then .crashed else s.phase c } := by
  have hgone : ∀ d, (s.phase d).isGone = true → (if h.pid d = p ∧ (s.phase d).isLive then Phase.crashed else s.phase d).isGone = true := by
    intro d hd
    split
    · rfl
    · exact hd
  have hidle : ∀ d, s.phase d ≠ .idle → (if h.pid d = p ∧ (s.phase d).isLive then Phase.crashed else s.phase d) ≠ .idle := by
    intro d hd
    split
    · simp
    · exact hd
  constructor
  · intro path r hr
    exact ⟨(hinv.known path r hr).1, hidle _ (hinv.known path r hr).2⟩
  · intro c hc
    simp only at hc ⊢
    split at hc
    · exact absurd hc (by simp [Phase.isLive, Phase.isGone])
    · rename_i hnot
      have hne : h.pid c ≠ p := fun heq => hnot ⟨heq, hc⟩
      rw [update_of_ne hne]
      exact hinv.alive c hc
  · intro c
    simp only
    split
    · trivial
    · exact (hinv.sound c).mono rfl hgone hidle
  · intro c d hcd
    exact hgone c (hinv.deleted c d hcd)

section Steps

variable [DecidableEq Token]

variable {c : Token} {ph : Phase Token}

/-- A file is deleted: the call has gone on, and no call relies on the file. -/
theorem Inv.unlink (hinv : Inv h s) {path : LockPath} (hc : (s.phase c).isGone = false) (hph : ph ≠ .idle)
    (halive : ph.isLive = true → s.alive (h.pid c) = true) (hsound : Sound h s c ph)
    (hself : ph.relies path = false) (hfrm : ∀ d, d ≠ c → (s.phase d).relies path = false)
    (hclaim : path = .lockFile → ∀ r, s.files path = .record r → ((s.goto c ph).phase r.token).isGone = true) :
    Inv h ((s.unlink path c).goto c ph) := by
  have hgoto := hinv.goto hc hph halive hsound
  refine hgoto.write (f := .absent) (by simp) ?_ ?_
  · intro d
    by_cases hdc : d = c
    · rw [hdc, goto_phase_self]
      exact hself
    · rw [goto_phase_of_ne s c ph hdc]
      exact hfrm d hdc
  · intro d e hde
    rcases mem_deletions_unlink hde with hold | ⟨hpath, r, hr, rfl⟩
    · exact hgoto.deleted d e hold
    · exact hclaim hpath r hr

/-- A file is created: no call relied on it, and the call that made it holds it now. -/
theorem Inv.createExclusive (hinv : Inv h s) {path : LockPath} (hcreate : s.createExclusive path (h.record c) = some t)
    (hc : (s.phase c).isLive = true) (hph : ph ≠ .idle)
    (hsound : t.files path = .record (h.record c) → s.phase = t.phase → Sound h t c ph) : Inv h (t.goto c ph) := by
  obtain ⟨habs, rfl⟩ := createExclusive_eq_some s path hcreate
  have hwrite : Inv h { s with files := update s.files path (.record (h.record c)) } := by
    apply hinv.write _ (hinv.not_relies_of_absent habs) hinv.deleted
    intro r hr
    cases hr
    refine ⟨by rw [h.token_record], ?_⟩
    rw [h.token_record]
    intro hidle
    rw [hidle] at hc
    exact absurd hc (by simp [Phase.isLive])
  have hgone : (s.phase c).isGone = false := by
    cases hph : s.phase c <;> rw [hph] at hc <;> simp_all [Phase.isLive, Phase.isGone]
  exact hwrite.goto hgone hph (fun _ => hinv.alive c hc) (hsound (by simp) rfl)

theorem Inv.proceed (hinv : Inv h s) (hguard : Guarded s (.step c)) (hstep : s.proceed h c (s.phase c) = some t) : Inv h t := by
  have hs := hinv.sound c
  have halive := hinv.alive c
  have hguarded : s.phase c = .unlinkGuard → ∀ r, s.files .reclaimFile = .record r → (s.phase r.token).holdsGuard = false := hguard
  -- A step that writes no file.
  have hgo : ∀ ph, (s.phase c).isLive = true → ph ≠ .idle → Sound h s c ph → Inv h (s.goto c ph) := by
    intro ph hlive hph hsound
    refine hinv.goto ?_ hph (fun _ => halive hlive) hsound
    cases hq : s.phase c <;> rw [hq] at hlive <;> simp_all [Phase.isLive, Phase.isGone]
  cases hph : s.phase c <;> rw [hph] at hstep hs hgo <;> simp only [State.proceed] at hstep
  case create =>
    split at hstep
    · rename_i s' hcreate
      cases hstep
      exact hinv.createExclusive hcreate (by rw [hph]; rfl) (by simp) (fun hfile _ => hfile)
    · cases hstep
      exact hgo _ rfl (by simp) trivial
  case readHeld =>
    split at hstep
    · rename_i held hread
      cases hstep
      exact hgo _ rfl (by simp) (hinv.known _ _ (readRecord_eq_some _ _ hread))
    · cases hstep
      exact hgo _ rfl (by simp) trivial
  case judgeHeld held =>
    split at hstep
    · rename_i hstale
      cases hstep
      exact hgo _ rfl (by simp) (hinv.over_of_isStale hs hstale)
    · cases hstep
      exact hgo _ rfl (by simp) trivial
  case checkDeadline | readCurrent =>
    cases hstep
    exact hgo _ rfl (by simp) trivial
  case createGuard stale =>
    split at hstep
    · rename_i s' hcreate
      cases hstep
      refine hinv.createExclusive hcreate (by rw [hph]; rfl) (by simp) ?_
      intro hfile hphase
      refine ⟨?_, hfile⟩
      have hover : (s.phase stale.token).isGone = true := hs
      rw [State.Over, ← hphase]
      exact hover
    · cases hstep
      exact hgo _ rfl (by simp) trivial
  case readGuard =>
    split at hstep
    · rename_i held hread
      cases hstep
      exact hgo _ rfl (by simp) (hinv.known _ _ (readRecord_eq_some _ _ hread))
    · cases hstep
      exact hgo _ rfl (by simp) trivial
  case judgeGuard held =>
    split at hstep <;> obtain rfl := some.inj hstep <;> exact hgo _ rfl (by simp) trivial
  case unlinkGuard =>
    cases hstep
    refine hinv.unlink (by rw [hph]; rfl) (by simp) (fun _ => halive (by rw [hph]; rfl)) trivial rfl ?_
      (by simp)
    -- A call that held the guard would have written the record that stands there.
    intro d _
    by_contra hcon
    have hd : (s.phase d).holdsGuard = true := by simpa [Phase.relies] using hcon
    have hnot := hguarded hph _ ((hinv.sound d).guard hd)
    rw [h.token_record, hd] at hnot
    exact absurd hnot (by simp)
  case readAgain stale =>
    split at hstep
    · rename_i htoken
      cases hstep
      exact hgo _ rfl (by simp) ⟨hs.1, hs.2, (hasToken_iff _ _).mp htoken⟩
    · cases hstep
      exact hgo _ rfl (by simp) hs.2
  case unlinkStale stale =>
    cases hstep
    obtain ⟨hover, hguard, r, hr, htoken⟩ := hs
    refine hinv.unlink (by rw [hph]; rfl) (by simp) (fun _ => halive (by rw [hph]; rfl)) hguard rfl
      (fun d hd => hinv.unlinkStale_frame hph hd) ?_
    intro _ r' hr'
    obtain rfl := File.record.inj (hr.symm.trans hr')
    have hne : r.token ≠ c := by
      intro heq
      rw [State.Over, ← htoken, heq, hph] at hover
      exact absurd hover (by simp [Phase.isGone])
    rw [goto_phase_of_ne s c _ hne, htoken]
    exact hover
  case readOwnGuard =>
    split at hstep
    · cases hstep
      exact hgo _ rfl (by simp) hs
    · cases hstep
      exact hgo _ rfl (by simp) trivial
  case releaseGuard =>
    cases hstep
    refine hinv.unlink (by rw [hph]; rfl) (by simp) (fun _ => halive (by rw [hph]; rfl)) trivial rfl ?_
      (by simp)
    intro d hd
    by_contra hcon
    exact hd (hinv.guard_unique (by simpa [Phase.relies] using hcon) (by rw [hph]; rfl))
  case readOwnLock =>
    split at hstep
    · cases hstep
      exact hgo _ rfl (by simp) hs
    · cases hstep
      exact hgo _ rfl (by simp) trivial
  case releaseLock =>
    cases hstep
    refine hinv.unlink (by rw [hph]; rfl) (by simp)
      (fun hlive => absurd hlive (by simp [Phase.isLive, Phase.isGone])) trivial rfl
      (fun d hd => hinv.releaseLock_frame hph hd) ?_
    intro _ r hr
    obtain rfl := File.record.inj (hr.symm.trans hs)
    rw [h.token_record, goto_phase_self]
    rfl
  all_goals exact absurd hstep (by simp)

/-- An operation that fails changes no file. -/
theorem Inv.fault (hinv : Inv h s) {err : String}
    (hfault : faulted h.directory err (s.phase c) = some ph) : Inv h (s.goto c ph) := by
  have hs := hinv.sound c
  have halive := hinv.alive c
  cases hph : s.phase c <;> rw [hph] at hfault hs halive <;> simp only [faulted] at hfault <;>
    first
      | (cases hfault
         refine hinv.goto (by rw [hph]; rfl) (by simp) (fun _ => halive rfl) ?_
         first | trivial | exact hs.2 | exact hs.2.1)
      | exact nomatch hfault

/-- **Step lemma.** A step that leaves the guard to a call that reclaims under it keeps the invariant. -/
theorem Inv.step (hinv : Inv h s) {a : Action Token} (hstep : GuardedStep h s a t) : Inv h t := by
  obtain ⟨hnext, hguard⟩ := hstep
  unfold Step at hnext
  cases a <;> simp only [State.next] at hnext
  case spawn p =>
    split at hnext
    · exact absurd hnext (by simp)
    · cases hnext
      refine ⟨hinv.known, ?_, hinv.sound, hinv.deleted⟩
      intro c hc
      have hc' := hinv.alive c hc
      simp only [update_apply]
      split
      · rfl
      · exact hc'
  case crash p =>
    split at hnext
    · cases hnext
      exact hinv.crash p
    · exact absurd hnext (by simp)
  case start c =>
    split at hnext
    · rename_i hsta
      cases hnext
      exact hinv.goto (by rw [hsta.1]; rfl) (by simp) (fun _ => hsta.2.1) trivial
    · exact absurd hnext (by simp)
  case step c => exact hinv.proceed hguard hnext
  case expire c =>
    split at hnext
    · rename_i hph
      cases hnext
      exact hinv.goto (by rw [hph]; rfl) (by simp) (fun _ => hinv.alive c (by rw [hph]; rfl)) trivial
    · exact absurd hnext (by simp)
  case fault c error =>
    obtain ⟨ph, hfault, rfl⟩ := map_eq_some_iff.mp hnext
    exact hinv.fault hfault
  case release c =>
    split at hnext
    · rename_i hph
      cases hnext
      have hs := hinv.sound c
      rw [hph] at hs
      exact hinv.goto (by rw [hph]; rfl) (by simp) (fun _ => hinv.alive c (by rw [hph]; rfl)) hs
    · exact absurd hnext (by simp)

end Steps

/-! ## Every run -/

theorem Inv.initial (hinit : s.Initial h) : Inv h s := by
  refine ⟨hinit.known, ?_, ?_, ?_⟩
  · intro c hc
    rw [hinit.notLive c] at hc
    exact absurd hc (by simp)
  · intro c
    have hc := hinit.notLive c
    cases hph : s.phase c <;> rw [hph] at hc <;> trivial
  · intro c d hcd
    rw [hinit.deletions] at hcd
    exact absurd hcd (by simp)

/-- **Run lemma.** -/
theorem Inv.run [DecidableEq Token] (hinit : s.Initial h) {as : List (Action Token)}
    (hrun : Steps (GuardedStep h) s as t) : Inv h t :=
  hrun.invariant (fun hinv hstep => hinv.step hstep) (Inv.initial hinit)

/-- The claim of a call that holds the lock stands, and nobody has deleted it. -/
theorem Inv.claim (hinv : Inv h s) (hc : s.phase c = .held) : s.files .lockFile = .record (h.record c) ∧ ∀ d, (c, d) ∉ s.deletions := by
  refine ⟨(hinv.sound c).lock (by rw [hc]; rfl), ?_⟩
  intro d hcd
  have hgone := hinv.deleted c d hcd
  rw [hc] at hgone
  exact absurd hgone (by simp [Phase.isGone])

theorem Inv.held_unique (hinv : Inv h s) (hc : s.phase c = .held) (hd : s.phase d = .held) : c = d :=
  record_injective (File.record.inj ((hinv.claim hc).1.symm.trans (hinv.claim hd).1))

/-- **The lock excludes**, in every run that never unlinks a guard from under its holder: at most one live
    process holds the lock. More than that, at most one call has returned without releasing, and its claim
    stands in the lock file. -/
theorem lock_excludes [DecidableEq Token] (hinit : s.Initial h) {as : List (Action Token)}
    (hrun : Steps (GuardedStep h) s as t) :
    t.MutualExclusion h ∧ (∀ c d, t.phase c = .held → t.phase d = .held → c = d) ∧ ∀ c, t.phase c = .held →
        t.files .lockFile = .record (h.record c) ∧ ∀ d, (c, d) ∉ t.deletions := by
  have hinv := Inv.run hinit hrun
  refine ⟨?_, fun c d hc hd => hinv.held_unique hc hd, fun c hc => hinv.claim hc⟩
  rintro p q ⟨-, c, rfl, hc, -⟩ ⟨-, d, rfl, hd, -⟩
  rw [hinv.held_unique hc hd]

/-! ## Runs on one host -/

/-- A host where call `c` is made by process `pid c`. -/
def exampleHost (pid : Nat → Nat) : Host Nat :=
  { hostname := "host"
    directory := "/sessions"
    record := fun c => ⟨pid c, "host", c, "2026-01-01T00:00:00.000Z"⟩
    token_record := fun _ => rfl }

theorem lock_excludes_single : ∃ t, Steps (GuardedStep (exampleHost id)) State.empty [.spawn 1, .start 1, .step 1] t ∧
      t.phase 1 = .held ∧ t.MutualExclusion (exampleHost id) ∧
      t.files .lockFile = .record ((exampleHost id).record 1) := by
  have hinit : (State.empty : State Nat).Initial (exampleHost id) := ⟨fun _ => rfl, nofun, rfl⟩
  have hrun : Steps (GuardedStep (exampleHost id)) State.empty [.spawn 1, .start 1, .step 1] _ :=
    Steps.head ⟨rfl, trivial⟩ (Steps.head ⟨rfl, trivial⟩
      (Steps.single ⟨rfl, fun hph => by simp [State.goto] at hph⟩))
  have hmain := lock_excludes hinit hrun
  exact ⟨_, hrun, goto_phase_self _ 1 .held, hmain.1, (hmain.2.2 1 (goto_phase_self _ 1 .held)).1⟩

/-- Process 0 has died holding the lock, and process 1 while reclaiming it. -/
def leftBehind : List (Action Nat) :=
  [.spawn 0, .start 0, .step 0, .crash 0, .spawn 1, .start 1, .step 1, .step 1, .step 1, .step 1, .crash 1]

/-- Calls 2 and 3 both judge the guard stale. Call 2 unlinks it, creates its own and finds the lock still
    stale; call 3 unlinks *that* guard, reclaims the lock and returns. -/
def overtaken : List (Action Nat) := [Action.start 2, .start 3] ++ List.replicate 6 (Action.step 2) ++ List.replicate 6 (Action.step 3) ++
    List.replicate 6 (Action.step 2) ++ List.replicate 10 (Action.step 3)

/-- **A stale guard admits a second holder.** Call 2 now deletes the claim of call 3 and creates the lock:
    processes 2 and 3 are live and both have returned from acquire without releasing. And where 2 and 3 are
    calls of one process, a third process can create the lock after the delete: two live processes have
    returned without releasing, and the claim of neither was deleted by another process. -/
theorem stale_guard_admits_second_holder : (∃ as t, Steps (Step (exampleHost id)) State.empty as t ∧
      t.alive 2 = true ∧ t.alive 3 = true ∧ t.phase 2 = .held ∧ t.phase 3 = .held) ∧
    (∃ as t, Steps (Step (exampleHost fun c => if c = 3 then 2 else c)) State.empty as t ∧
      ¬ t.MutualExclusion (exampleHost fun c => if c = 3 then 2 else c)) := by
  constructor
  · have hrun : (State.empty.run (exampleHost id) (leftBehind ++ [Action.spawn 2, .spawn 3] ++ overtaken ++
        [Action.step 2, .step 2, .step 2])).any (fun t =>
          t.alive 2 && t.alive 3 && decide (t.phase 2 = .held) && decide (t.phase 3 = .held)) = true := by
      decide
    obtain ⟨t, ht, hend⟩ := (any_eq_true _ _).mp hrun
    simp only [Bool.and_eq_true, decide_eq_true_eq] at hend
    exact ⟨_, t, steps_of_run ht, hend.1.1.1, hend.1.1.2, hend.1.2, hend.2⟩
  · have hrun : (State.empty.run (exampleHost fun c => if c = 3 then 2 else c)
        (leftBehind ++ [Action.spawn 2, .spawn 4] ++ overtaken ++ [Action.step 2, .start 4, .step 4])).any (fun t =>
          t.alive 2 && t.alive 4 && decide (t.phase 3 = .held) && decide (t.phase 4 = .held) &&
            decide (t.deletions = [(3, 2), (0, 3)])) = true := by
      decide
    obtain ⟨t, ht, hend⟩ := (any_eq_true _ _).mp hrun
    simp only [Bool.and_eq_true, decide_eq_true_eq] at hend
    obtain ⟨⟨⟨⟨halive2, halive4⟩, hheld3⟩, hheld4⟩, hdels⟩ := hend
    refine ⟨_, t, steps_of_run ht, fun hex => absurd (hex 2 4 ?_ ?_) (by decide)⟩
    · exact ⟨halive2, 3, rfl, hheld3, fun d hd => by rw [hdels] at hd; simp_all [exampleHost, Host.pid]⟩
    · exact ⟨halive4, 4, rfl, hheld4, fun d hd => by rw [hdels] at hd; simp_all⟩

end PiBridge.StorageLock
