import Mathlib.Data.Int.Init
import Mathlib.Logic.Function.Basic
import Mathlib.Tactic.FinCases
import NpuOj.Lib.TransSystem

/-!
# One daemon at a time

`main` is to go on with the judging in one process only. `daemon_run` asks with
`F_GETLK` whether another process has the write lock on the pid file, becomes a daemon,
and takes the lock with `F_SETLK`. Between the question and the lock there is a fork, and
a process that asks there is told that nobody has the lock.

The second of two such processes is refused the lock. What happens then depends on
`errno`: for `EACCES` and `EAGAIN`, which is what a lock held by another process gives,
`daemon_run` returns `-1`, and for any other value it exits. `main` does not look at what
`daemon_run` returns, so that the processes are exclusive only in the runs in which no
process is refused in the first way: `NpuOj.daemons_exclusive`. The build is the one with
`NDEBUG`, as `main` does not call `daemon_run` in the other.

A process is a start of the program and goes by the same name before and after the fork
in `daemon`, whose parent exits without a lock. It may be killed at any time.
-/

namespace NpuOj

/-! ### The processes -/

/-- The values of `errno` that `daemon_run` tells apart. -/
inductive LockErrno
  | eacces
  | eagain
  | other
  deriving DecidableEq, Repr

/-- What `lock_file` comes to. -/
inductive SetlkReply
  | granted
  | refused (errno : LockErrno)
  deriving DecidableEq, Repr

/-- Where a process is. -/
inductive DaemonLoc
  | notStarted
  /-- In `main`, before `geteuid`. -/
  | main
  /-- In `daemon_run`, before the pid file is opened. -/
  | opening
  /-- Before `F_GETLK` in `check_daemon_running`. -/
  | checking
  /-- Before `daemon`. -/
  | forking
  /-- Before `F_SETLK` in `lock_file`. -/
  | locking
  /-- With the lock, before `ftruncate`. -/
  | truncating
  /-- Before the process id is written. -/
  | writing
  /-- Back in `main`. -/
  | returned (ret : ℤ)
  /-- In the start-up of the judging. -/
  | startup
  /-- In `loop_routine`. -/
  | loopRoutine
  | exited
  deriving DecidableEq, Repr

/-- The process is past `F_SETLK`. -/
def DaemonLoc.pastLock : DaemonLoc → Bool
  | .truncating | .writing | .returned _ | .startup | .loopRoutine => true
  | _ => false

/-- The process is past the call of `daemon_run` in `main`. -/
def DaemonLoc.pastDaemonRun : DaemonLoc → Bool
  | .returned _ | .startup | .loopRoutine => true
  | _ => false

/-- A step of a process, with what the system replies. -/
inductive DaemonStep
  | start
  | geteuid (root : Bool)
  | openFile (ok : Bool)
  | getlk (ok : Bool)
  /-- `daemon`, which goes on in the child, or in the process itself if there is none. -/
  | daemon
  | setlk (reply : SetlkReply)
  | ftruncate
  | write
  /-- `main` goes on. -/
  | goOn
  /-- The start-up ends, in `loop_routine` or in an exit. -/
  | started (ok : Bool)
  /-- The process is killed, or exits by itself. -/
  | die
  deriving DecidableEq, Repr

/-- The processes and the pid file. -/
structure DaemonsState (ι : Type*) where
  loc : ι → DaemonLoc
  /-- The process that has the write lock. -/
  lock : Option ι
  /-- The process whose id the file holds. -/
  pidFile : Option ι

section Daemon

variable {ι : Type*} [DecidableEq ι]

namespace DaemonsState

/-- The state after one process has moved. -/
def move (s : DaemonsState ι) (i : ι) (l : DaemonLoc) : DaemonsState ι :=
  { s with loc := Function.update s.loc i l }

/-- The state after a process has exited, which gives up its lock. -/
def exit (s : DaemonsState ι) (i : ι) : DaemonsState ι :=
  { s.move i .exited with lock := if s.lock = some i then none else s.lock }

omit [DecidableEq ι] in
/-- No other process has the lock: what `F_GETLK` answers with `F_UNLCK`. -/
def FreeFor (s : DaemonsState ι) (i : ι) : Prop := s.lock = none ∨ s.lock = some i

instance (s : DaemonsState ι) (i : ι) : Decidable (s.FreeFor i) :=
  inferInstanceAs (Decidable (_ ∨ _))

/-- `lock_file` and the branches after it. The lock is granted only if no other process
has it, and only then is a refusal one with `EACCES` or `EAGAIN`. -/
def setlk (s : DaemonsState ι) (i : ι) : SetlkReply → Option (DaemonsState ι)
  | .granted => if s.FreeFor i then some { s.move i .truncating with lock := some i } else none
  | .refused .eacces | .refused .eagain =>
    if s.FreeFor i then none else some (s.move i (.returned (-1)))
  | .refused .other => some (s.exit i)

/-- One step of one process. -/
def step (s : DaemonsState ι) : ι × DaemonStep → Option (DaemonsState ι)
  | (i, a) => match a, s.loc i with
    | .start, .notStarted => some (s.move i .main)
    | .geteuid root, .main => some (if root then s.move i .opening else s.exit i)
    | .openFile ok, .opening => some (if ok then s.move i .checking else s.exit i)
    | .getlk ok, .checking => some (if ok ∧ s.FreeFor i then s.move i .forking else s.exit i)
    | .daemon, .forking => some (s.move i .locking)
    | .setlk reply, .locking => s.setlk i reply
    | .ftruncate, .truncating => some { s.move i .writing with pidFile := none }
    | .write, .writing => some { s.move i (.returned 0) with pidFile := some i }
    -- what `daemon_run` returned is not looked at
    | .goOn, .returned _ => some (s.move i .startup)
    | .started ok, .startup => some (if ok then s.move i .loopRoutine else s.exit i)
    | .die, .notStarted | .die, .exited => none
    | .die, _ => some (s.exit i)
    | _, _ => none

end DaemonsState

/-- **The processes**, none of which has been started. -/
def daemons (ι : Type*) [DecidableEq ι] : TransSystem (DaemonsState ι) (ι × DaemonStep) where
  Init s := (∀ i, s.loc i = .notStarted) ∧ s.lock = none ∧ s.pidFile = none
  step := DaemonsState.step

/-! ### What a step can do -/

/-- The steps, as far as the lock and the pid file are concerned. -/
inductive DaemonMove (s : DaemonsState ι) (i : ι) : DaemonStep → DaemonsState ι → Prop
  /-- A step before the lock. -/
  | before {a : DaemonStep} {l : DaemonLoc} (hl : l.pastLock = false) :
      DaemonMove s i a (s.move i l)
  /-- A step after the pid has been written. -/
  | after {a : DaemonStep} {l : DaemonLoc} (hi : (s.loc i).pastDaemonRun = true)
      (hl : l.pastDaemonRun = true) : DaemonMove s i a (s.move i l)
  | exit {a : DaemonStep} : DaemonMove s i a (s.exit i)
  | granted (hi : s.loc i = .locking) (hfree : s.FreeFor i) :
      DaemonMove s i (.setlk .granted) { s.move i .truncating with lock := some i }
  | refused {errno : LockErrno} (hi : s.loc i = .locking) (herrno : errno ≠ .other)
      (hfree : ¬s.FreeFor i) :
      DaemonMove s i (.setlk (.refused errno)) (s.move i (.returned (-1)))
  | ftruncate (hi : s.loc i = .truncating) :
      DaemonMove s i .ftruncate { s.move i .writing with pidFile := none }
  | write (hi : s.loc i = .writing) :
      DaemonMove s i .write { s.move i (.returned 0) with pidFile := some i }

variable {s s' : DaemonsState ι} {i : ι} {a : DaemonStep}

theorem DaemonsState.move_of_setlk {reply : SetlkReply} (hi : s.loc i = .locking)
    (h : s.setlk i reply = some s') : DaemonMove s i (.setlk reply) s' := by
  rcases reply with _ | _ | _ | _ <;> simp only [setlk] at h
  · split at h
    · next hfree => exact Option.some.inj h ▸ .granted hi hfree
    · cases h
  · split at h
    · cases h
    · next hfree => exact Option.some.inj h ▸ .refused hi (by simp) hfree
  · split at h
    · cases h
    · next hfree => exact Option.some.inj h ▸ .refused hi (by simp) hfree
  · exact Option.some.inj h ▸ .exit

/-- **Inversion of a step.** -/
theorem DaemonsState.move_of_step (h : s.step (i, a) = some s') : DaemonMove s i a s' := by
  have hbranch : ∀ {c : Prop} [Decidable c] {t : DaemonsState ι}, DaemonMove s i a t →
      (if c then t else s.exit i) = s' → DaemonMove s i a s' := by
    intro c _ t ht hs
    split at hs
    · exact hs ▸ ht
    · exact hs ▸ .exit
  simp only [step] at h
  split at h
  · exact Option.some.inj h ▸ .before rfl
  · exact hbranch (.before rfl) (Option.some.inj h)
  · exact hbranch (.before rfl) (Option.some.inj h)
  · exact hbranch (.before rfl) (Option.some.inj h)
  · exact Option.some.inj h ▸ .before rfl
  · next hi => exact move_of_setlk hi h
  · next hi => exact Option.some.inj h ▸ .ftruncate hi
  · next hi => exact Option.some.inj h ▸ .write hi
  · next hi => exact Option.some.inj h ▸ .after (by rw [hi]; rfl) rfl
  · next hi => exact hbranch (.after (by rw [hi]; rfl) rfl) (Option.some.inj h)
  · cases h
  · cases h
  · exact Option.some.inj h ▸ .exit
  · cases h

/-! ### Who has the lock -/

/-- **The invariant**: a process past `F_SETLK` has the lock, and the file holds its id as
soon as `daemon_run` has returned. -/
structure LockInv (s : DaemonsState ι) : Prop where
  lock : ∀ i, (s.loc i).pastLock = true → s.lock = some i
  pidFile : ∀ i, (s.loc i).pastDaemonRun = true → s.pidFile = some i

theorem DaemonLoc.pastLock_of_pastDaemonRun {l : DaemonLoc} (h : l.pastDaemonRun = true) :
    l.pastLock = true := by
  cases l <;> first | rfl | cases h

omit [DecidableEq ι] in
theorem lockInv_init (h : ∀ i, s.loc i = .notStarted) : LockInv s where
  lock i hi := by
    rw [h i] at hi
    cases hi
  pidFile i hi := by
    rw [h i] at hi
    cases hi

/-- A process other than the one that moves has not moved. -/
theorem DaemonsState.loc_move_of_ne {l : DaemonLoc} {k : ι} (hk : k ≠ i) :
    (s.move i l).loc k = s.loc k :=
  Function.update_of_ne hk _ _

theorem DaemonsState.loc_move_self {l : DaemonLoc} : (s.move i l).loc i = l :=
  Function.update_self ..

/-- What is so of the processes in some region of the program stays so if the one that
moves does not enter it. -/
theorem DaemonsState.forall_move {Q : ι → Prop} {R : DaemonLoc → Bool} {l : DaemonLoc}
    (hs : ∀ k, R (s.loc k) = true → Q k) (hl : R l = true → Q i) (k : ι)
    (hk : R ((s.move i l).loc k) = true) : Q k :=
  (Function.forall_update_iff s.loc fun k l => R l = true → Q k).mpr ⟨hl, fun k _ => hs k⟩ k hk

theorem LockInv.before (hinv : LockInv s) {l : DaemonLoc} (hl : l.pastLock = false) :
    LockInv (s.move i l) where
  lock := DaemonsState.forall_move hinv.lock fun hp => by
    rw [hl] at hp
    cases hp
  pidFile := DaemonsState.forall_move hinv.pidFile fun hp => by
    rw [DaemonLoc.pastLock_of_pastDaemonRun hp] at hl
    cases hl

theorem LockInv.after (hinv : LockInv s) {l : DaemonLoc} (hi : (s.loc i).pastDaemonRun = true) :
    LockInv (s.move i l) where
  lock := DaemonsState.forall_move hinv.lock fun _ =>
    hinv.lock i (DaemonLoc.pastLock_of_pastDaemonRun hi)
  pidFile := DaemonsState.forall_move hinv.pidFile fun _ => hinv.pidFile i hi

theorem LockInv.exit (hinv : LockInv s) : LockInv (s.exit i) where
  lock k hk := by
    have hki : k ≠ i := fun heq => by
      rw [heq, DaemonsState.exit, DaemonsState.loc_move_self] at hk
      cases hk
    rw [DaemonsState.exit, DaemonsState.loc_move_of_ne hki] at hk
    have hlock := hinv.lock k hk
    rw [DaemonsState.exit, hlock, if_neg fun heq => hki (Option.some.inj heq)]
  pidFile := DaemonsState.forall_move hinv.pidFile fun hp => by cases hp

/-- A process that is granted the lock is the only one past `F_SETLK`. -/
theorem LockInv.granted (hinv : LockInv s) (hfree : s.FreeFor i) :
    LockInv { s.move i .truncating with lock := some i } where
  lock := by
    refine DaemonsState.forall_move (R := DaemonLoc.pastLock) (fun k hk => ?_) fun _ => rfl
    have hlock := hinv.lock k hk
    rcases hfree with hnone | hself
    · rw [hnone] at hlock
      cases hlock
    · exact hself.symm.trans hlock
  pidFile := DaemonsState.forall_move hinv.pidFile fun hp => by cases hp

omit [DecidableEq ι] in
/-- While a process is past `F_SETLK`, no other one is. -/
theorem LockInv.eq_of_pastLock (hinv : LockInv s) {k : ι} (hi : (s.loc i).pastLock = true)
    (hk : (s.loc k).pastLock = true) : k = i :=
  Option.some.inj ((hinv.lock k hk).symm.trans (hinv.lock i hi))

theorem LockInv.ftruncate (hinv : LockInv s) (hi : s.loc i = .truncating) :
    LockInv { s.move i .writing with pidFile := none } where
  lock := DaemonsState.forall_move hinv.lock fun _ => hinv.lock i (by rw [hi]; rfl)
  pidFile := by
    refine DaemonsState.forall_move (R := DaemonLoc.pastDaemonRun) (fun k hk => ?_)
      fun hp => by cases hp
    have hki := hinv.eq_of_pastLock (i := i) (by rw [hi]; rfl)
      (DaemonLoc.pastLock_of_pastDaemonRun hk)
    rw [hki, hi] at hk
    cases hk

theorem LockInv.write (hinv : LockInv s) (hi : s.loc i = .writing) :
    LockInv { s.move i (.returned 0) with pidFile := some i } where
  lock := DaemonsState.forall_move hinv.lock fun _ => hinv.lock i (by rw [hi]; rfl)
  pidFile := by
    refine DaemonsState.forall_move (R := DaemonLoc.pastDaemonRun) (fun k hk => ?_)
      fun _ => rfl
    rw [hinv.eq_of_pastLock (i := i) (by rw [hi]; rfl) (DaemonLoc.pastLock_of_pastDaemonRun hk)]

/-! ### The results -/

/-- The step is not a refusal of the lock with `EACCES` or `EAGAIN`. -/
def LockNotRefused (_ : DaemonsState ι) : ι × DaemonStep → Prop
  | (_, .setlk (.refused errno)) => errno = .other
  | _ => True

theorem LockInv.move (hinv : LockInv s) (hok : LockNotRefused s (i, a))
    (h : DaemonMove s i a s') : LockInv s' := by
  cases h with
  | before hl => exact hinv.before hl
  | after hi hl => exact hinv.after hi
  | exit => exact hinv.exit
  | granted hi hfree => exact hinv.granted hfree
  | refused hi herrno hfree => exact absurd hok herrno
  | ftruncate hi => exact hinv.ftruncate hi
  | write hi => exact hinv.write hi

/-- **At most one process is past `daemon_run`**, and it has the lock on the pid file,
which holds its id; so in every run in which no process is refused the lock with `EACCES`
or `EAGAIN`. -/
theorem daemons_exclusive (h : (daemons ι).ReachableBy LockNotRefused s) :
    (∀ i k, (s.loc i).pastDaemonRun = true → (s.loc k).pastDaemonRun = true → i = k) ∧
      ∀ i, (s.loc i).pastDaemonRun = true → s.lock = some i ∧ s.pidFile = some i := by
  have hinv : LockInv s := h.invariant
    (by rintro _ ⟨hloc, -⟩; exact lockInv_init hloc)
    fun _ ⟨_, _⟩ _ _ hinv hok hstep => hinv.move hok (DaemonsState.move_of_step hstep)
  exact ⟨fun i k hi hk => hinv.eq_of_pastLock (DaemonLoc.pastLock_of_pastDaemonRun hk)
      (DaemonLoc.pastLock_of_pastDaemonRun hi),
    fun i hi => ⟨hinv.lock i (DaemonLoc.pastLock_of_pastDaemonRun hi), hinv.pidFile i hi⟩⟩

end Daemon

/-! ### Two starts -/

/-- No process has been started, and nobody has touched the pid file. -/
def daemonsDown (ι : Type*) : DaemonsState ι := ⟨fun _ => .notStarted, none, none⟩

/-- The steps of a start up to the fork. -/
def startSteps : List DaemonStep := [.start, .geteuid true, .openFile true, .getlk true, .daemon]

/-- The steps of a process that is granted the lock, up to the main loop. -/
def lockSteps : List DaemonStep :=
  [.setlk .granted, .ftruncate, .write, .goOn, .started true]

/-- The second start finds the lock taken and exits. -/
theorem daemons_exclusive_twoStarts : ∃ s : DaemonsState (Fin 2),
    s.loc 0 = .loopRoutine ∧ s.loc 1 = .exited ∧ s.lock = some 0 ∧ s.pidFile = some 0 :=
  have hrun : (daemons (Fin 2)).ReachableBy LockNotRefused _ :=
    TransSystem.ReachableBy.run (.init ⟨fun _ => rfl, rfl, rfl⟩)
      (by
        intro s a ha
        fin_cases ha <;> trivial)
      (show (daemons (Fin 2)).run (daemonsDown (Fin 2))
        ((startSteps ++ lockSteps).map (0, ·) ++ (startSteps.take 4).map (1, ·)) = some _
        from rfl)
  ⟨_, rfl, rfl, (daemons_exclusive hrun).2 0 rfl⟩

/-- **Two starts whose checks come before either lock**: the second is refused the lock
and goes on to the main loop without it. -/
theorem daemons_twoInMainLoop : ∃ s : DaemonsState (Fin 2), (daemons (Fin 2)).Reachable s ∧
    s.loc 0 = .loopRoutine ∧ s.loc 1 = .loopRoutine ∧ s.lock = some 0 :=
  ⟨_, TransSystem.reachable_of_run ⟨fun _ => rfl, rfl, rfl⟩
      (show (daemons (Fin 2)).run (daemonsDown (Fin 2))
        (startSteps.map (0, ·) ++ startSteps.map (1, ·) ++ lockSteps.map (0, ·)
          ++ [(1, .setlk (.refused .eagain)), (1, .goOn), (1, .started true)]) = some _ from rfl),
    rfl, rfl, rfl⟩

end NpuOj
