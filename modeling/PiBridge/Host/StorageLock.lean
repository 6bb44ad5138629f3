import PiBridge.Lib.Steps

/-!
# `Host.StorageLock` — the execution lock of a Session directory

Any number of processes on one host run `acquireStorageLock` on one directory. A call is named by the token
it draws, which no other call has; its `Phase` is the next thing it does: one file operation, one probe of
a pid, or a look at the clock. One step of the system is one such operation of one call, so every order of
them is a run, and a process can crash between any two.
-/

namespace PiBridge.StorageLock

open Lib Option

/-- The two files: `.pi-bridge.lock` and the guard `.pi-bridge.lock.reclaim`. -/
inductive LockPath where
  | lockFile
  | reclaimFile
deriving DecidableEq

variable {Token : Type}

structure LockRecord (Token : Type) where
  pid : Nat
  host : String
  token : Token
  acquiredAt : String
deriving DecidableEq

/-- What stands at a path. -/
inductive File (Token : Type) where
  | absent
  /-- A file that is no record. -/
  | unreadable
  | record (r : LockRecord Token)

/-- What a call does next, with what it remembers. -/
inductive Phase (Token : Type) where
  | idle
  /-- `createExclusive(path, record)`, the head of the loop. -/
  | create
  | readHeld
  | judgeHeld (held : LockRecord Token)
  /-- `Date.now() >= deadline`, and the sleep when it is not. -/
  | checkDeadline
  | readCurrent
  | rejected (error : String)
  /-- `reclaim(stale)`: `createExclusive(reclaimPath, record)`. -/
  | createGuard (stale : LockRecord Token)
  /-- `removeIfStale(reclaimPath)`: its read, its judgement and its unlink. -/
  | readGuard
  | judgeGuard (held : LockRecord Token)
  | unlinkGuard
  /-- The read of the lock under the guard, and the unlink it licenses. -/
  | readAgain (stale : LockRecord Token)
  | unlinkStale (stale : LockRecord Token)
  /-- The `finally` of `reclaim`. -/
  | readOwnGuard
  | releaseGuard
  /-- `acquireStorageLock` has returned, and `release` was not called. -/
  | held
  | readOwnLock
  | releaseLock
  | released
  | crashed
deriving DecidableEq

namespace Phase

/-- The call is over. -/
def isGone : Phase Token → Bool
  | rejected _ | released | crashed => true
  | _ => false

/-- The call has begun and is not over. -/
def isLive : Phase Token → Bool
  | idle => false
  | ph => !ph.isGone

/-- The call has created the lock and has not deleted it. -/
def holdsLock : Phase Token → Bool
  | held | readOwnLock | releaseLock => true
  | _ => false

/-- The call has created the guard and has not released it. -/
def holdsGuard : Phase Token → Bool
  | readAgain _ | unlinkStale _ | readOwnGuard | releaseGuard => true
  | _ => false

end Phase

/-- The host and the calls that may be made: the record each would write. -/
structure Host (Token : Type) where
  hostname : String
  directory : String
  record : Token → LockRecord Token
  /-- `token` is drawn by `randomUUID`, once per call. -/
  token_record : ∀ c, (record c).token = c

namespace Host

/-- `process.pid` of the process that makes the call. -/
def pid (h : Host Token) (c : Token) : Nat := (h.record c).pid

end Host

/-- The directory, the calls and the processes. -/
structure State (Token : Type) where
  files : LockPath → File Token
  phase : Token → Phase Token
  /-- `process.kill(pid, 0)` finds the process. -/
  alive : Nat → Bool
  /-- The claims on the lock that were deleted: whose, and by which call. -/
  deletions : List (Token × Token)

namespace State

def goto [DecidableEq Token] (s : State Token) (c : Token) (ph : Phase Token) : State Token :=
  { s with phase := Function.update s.phase c ph }

/-- `readRecord` -/
def readRecord (s : State Token) (path : LockPath) : Option (LockRecord Token) :=
  match s.files path with
  | .record r => some r
  | _ => none

/-- `createExclusive`; `none` when the file exists. -/
def createExclusive (s : State Token) (path : LockPath) (r : LockRecord Token) : Option (State Token) :=
  match s.files path with
  | .absent => some { s with files := Function.update s.files path (.record r) }
  | _ => none

/-- `unlink(path)` by the call `c`. -/
def unlink (s : State Token) (path : LockPath) (c : Token) : State Token :=
  { s with
    files := Function.update s.files path .absent
    deletions :=
      match path, s.readRecord path with
      | .lockFile, some r => (r.token, c) :: s.deletions
      | _, _ => s.deletions }

end State

/-- `isStale`, asked by a process with pid `me`. -/
def isStale (hostname : String) (me : Nat) (record : LockRecord Token) (isPidAlive : Nat → Bool) : Bool :=
  if record.pid = me then false
  else if record.host ≠ hostname then false
  else !isPidAlive record.pid

/-- The message of the rejection. -/
def lockedMessage (directory : String) : Option (LockRecord Token) → String
  | none => s!"Session directory is locked: {directory}"
  | some current =>
    s!"Session directory is locked by pid {current.pid} on {current.host}: {directory}"

/-- The file's token is this one. -/
def State.hasToken [DecidableEq Token] (s : State Token) (path : LockPath) (token : Token) : Bool :=
  (s.readRecord path).any fun current => current.token = token

variable [DecidableEq Token]

/-- The next operation of the call `c`, which is in phase `ph`, and where it leads. -/
def State.proceed (h : Host Token) (s : State Token) (c : Token) : Phase Token → Option (State Token)
  | .create =>
    match s.createExclusive .lockFile (h.record c) with
    | some s' => some (s'.goto c .held)
    | none => some (s.goto c .readHeld)
  | .readHeld =>
    match s.readRecord .lockFile with
    | some held => some (s.goto c (.judgeHeld held))
    | none => some (s.goto c .checkDeadline)
  | .judgeHeld held =>
    if isStale h.hostname (h.pid c) held s.alive then some (s.goto c (.createGuard held))
    else some (s.goto c .checkDeadline)
  | .checkDeadline => some (s.goto c .create)
  | .readCurrent => some (s.goto c (.rejected (lockedMessage h.directory (s.readRecord .lockFile))))
  | .createGuard stale =>
    match s.createExclusive .reclaimFile (h.record c) with
    | some s' => some (s'.goto c (.readAgain stale))
    | none => some (s.goto c .readGuard)
  | .readGuard =>
    match s.readRecord .reclaimFile with
    | some held => some (s.goto c (.judgeGuard held))
    | none => some (s.goto c .create)
  | .judgeGuard held =>
    if isStale h.hostname (h.pid c) held s.alive then some (s.goto c .unlinkGuard)
    else some (s.goto c .create)
  -- The guard is not read again: whatever stands there now is deleted.
  | .unlinkGuard => some ((s.unlink .reclaimFile c).goto c .create)
  | .readAgain stale =>
    if s.hasToken .lockFile stale.token then some (s.goto c (.unlinkStale stale))
    else some (s.goto c .readOwnGuard)
  | .unlinkStale _ => some ((s.unlink .lockFile c).goto c .readOwnGuard)
  | .readOwnGuard =>
    if s.hasToken .reclaimFile c then some (s.goto c .releaseGuard) else some (s.goto c .create)
  | .releaseGuard => some ((s.unlink .reclaimFile c).goto c .create)
  | .readOwnLock =>
    if s.hasToken .lockFile c then some (s.goto c .releaseLock) else some (s.goto c .released)
  | .releaseLock => some ((s.unlink .lockFile c).goto c .released)
  | .idle | .rejected _ | .held | .released | .crashed => none

/-- Where the call goes when its operation fails: `createExclusive` throws, a failed read reads `null`, and
    a failed unlink is caught. -/
def faulted (directory error : String) : Phase Token → Option (Phase Token)
  | .create | .createGuard _ => some (.rejected error)
  | .readHeld => some .checkDeadline
  | .readCurrent => some (.rejected (lockedMessage directory (none : Option (LockRecord Token))))
  | .readGuard | .unlinkGuard | .readOwnGuard | .releaseGuard => some .create
  | .readAgain _ | .unlinkStale _ => some .readOwnGuard
  | .readOwnLock | .releaseLock => some .released
  | _ => none

/-- What happens in one step. -/
inductive Action (Token : Type) where
  /-- A process starts; the pid may have been used before. -/
  | spawn (pid : Nat)
  /-- A process ends, and with it every call it was making and every lock it held. -/
  | crash (pid : Nat)
  | start (c : Token)
  | step (c : Token)
  /-- The clock has passed the deadline. -/
  | expire (c : Token)
  /-- The operation fails with an error. -/
  | fault (c : Token) (error : String)
  | release (c : Token)

/-- One step; `none` when the action is not possible. -/
def State.next (h : Host Token) (s : State Token) : Action Token → Option (State Token)
  | .spawn p => if s.alive p then none else some { s with alive := Function.update s.alive p true }
  | .crash p =>
    if s.alive p then
      some { s with
        alive := Function.update s.alive p false
        phase := fun c => if h.pid c = p ∧ (s.phase c).isLive then .crashed else s.phase c }
    else none
  | .start c =>
    if s.phase c = .idle ∧ s.alive (h.pid c) ∧ (h.record c).host = h.hostname then
      some (s.goto c .create)
    else none
  | .step c => s.proceed h c (s.phase c)
  | .expire c => if s.phase c = .checkDeadline then some (s.goto c .readCurrent) else none
  | .fault c error => (faulted h.directory error (s.phase c)).map (s.goto c)
  | .release c => if s.phase c = .held then some (s.goto c .readOwnLock) else none

def Step (h : Host Token) (s : State Token) (a : Action Token) (t : State Token) : Prop := s.next h a = some t

/-- A record that a call has written. -/
def State.Known (h : Host Token) (s : State Token) (r : LockRecord Token) : Prop := r = h.record r.token ∧ s.phase r.token ≠ .idle

/-- No call of this host is running. Each file is absent, is no record, or was left by a call that is over,
    here or on another host. -/
structure State.Initial (h : Host Token) (s : State Token) : Prop where
  notLive : ∀ c, (s.phase c).isLive = false
  known : ∀ path r, s.files path = .record r → s.Known h r
  deletions : s.deletions = []

/-- A directory without the two files, and no process. -/
def State.empty : State Token := { files := fun _ => .absent, phase := fun _ => .idle, alive := fun _ => false, deletions := [] }

/-- The actions in order. -/
def State.run (h : Host Token) (s : State Token) : List (Action Token) → Option (State Token)
  | [] => some s
  | a :: as => (s.next h a).bind fun t => t.run h as

theorem steps_of_run {h : Host Token} {s t : State Token} {as : List (Action Token)}
    (hrun : s.run h as = some t) : Steps (Step h) s as t := by
  induction as generalizing s with
  | nil =>
    cases hrun
    exact Steps.refl
  | cons a as ih =>
    obtain ⟨u, hu, htail⟩ := bind_eq_some_iff.mp hrun
    exact Steps.head hu (ih htail)

/-! ## What the operations leave alone -/

section Operations

variable (s : State Token) (c : Token) (path : LockPath)

@[simp] theorem goto_phase_self (ph : Phase Token) : (s.goto c ph).phase c = ph := by
  simp [State.goto]

theorem goto_phase_of_ne (ph : Phase Token) {d : Token} (hd : d ≠ c) : (s.goto c ph).phase d = s.phase d := by
  simp [State.goto, hd]

theorem hasToken_iff {token : Token} : s.hasToken path token = true ↔ ∃ r, s.files path = .record r ∧ r.token = token := by
  unfold State.hasToken State.readRecord
  cases s.files path <;> simp

omit [DecidableEq Token]

variable {r : LockRecord Token}

theorem readRecord_eq_some (h : s.readRecord path = some r) : s.files path = .record r := by
  unfold State.readRecord at h
  split at h
  · rename_i heq
    rw [heq, some.inj h]
  · exact absurd h (by simp)

/-- `createExclusive` creates only what is not there. -/
theorem createExclusive_eq_some {t : State Token} (h : s.createExclusive path r = some t) :
    s.files path = .absent ∧ t = { s with files := Function.update s.files path (.record r) } := by
  unfold State.createExclusive at h
  split at h
  · rename_i heq
    exact ⟨heq, (some.inj h).symm⟩
  · exact absurd h (by simp)

/-- The owner of a stale record is dead. -/
theorem not_alive_of_isStale {hostname : String} {me : Nat} {alive : Nat → Bool}
    (h : isStale hostname me r alive = true) : alive r.pid = false := by
  unfold isStale at h
  split at h
  · exact absurd h (by simp)
  split at h
  · exact absurd h (by simp)
  · simpa using h

end Operations

end PiBridge.StorageLock
