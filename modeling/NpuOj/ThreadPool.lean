import Mathlib.Data.Fintype.Basic
import Mathlib.Logic.Function.Basic
import NpuOj.Lib.TransSystem

/-!
# The thread pool

`ThreadPoolManager` hands tasks from the callers of `add_task` to worker threads
through a queue under one mutex and one condition variable, and `pool_destroy` sets
`m_shutdown` without taking the mutex.

The system has any number of producers, the workers of the pool, and one thread that
may destroy it. A step is what a thread does between two points at which another thread
could notice: the lock and unlock calls are steps of their own, a worker that has decided
to wait has not yet gone to sleep (`WorkerLoc.aboutToWait`), and one that was woken has
not yet got the mutex back (`WorkerLoc.waking`).

A task is known by its place in the order in which the tasks were taken out, so that a
task that is added twice counts as two. What has become of each is recorded in
`NpuOj.History`, which no step reads.
-/

namespace NpuOj

/-! ### Places -/

/-- Where a caller of `add_task` is. -/
inductive ProducerLoc (τ : Type)
  /-- Outside. -/
  | idle
  /-- Before the mutex. -/
  | locking (task : τ)
  /-- With the mutex, before the push. -/
  | locked (task : τ)
  /-- Past the unlock, before `pthread_cond_signal`. -/
  | signalling
  deriving DecidableEq

/-- Where a worker is in `WorkThread::run`. -/
inductive WorkerLoc (τ : Type)
  /-- At the head of the loop of `run`. -/
  | loop
  /-- In `get_task`, before the mutex. -/
  | locking
  /-- With the mutex, before the test of the inner loop. -/
  | testing
  /-- With the mutex, past a test that sends it to sleep. -/
  | aboutToWait
  /-- Blocked in `pthread_cond_wait`. -/
  | waiting
  /-- Woken in `pthread_cond_wait`, without the mutex. -/
  | waking
  /-- With the mutex, past the inner loop. -/
  | loopExit
  /-- With `NULL` from `get_task`. -/
  | gotNull
  /-- With a task from `get_task`. -/
  | got (k : ℕ) (task : τ)
  /-- With a task that it found the pool shut down for. -/
  | dropping (k : ℕ) (task : τ)
  /-- Before `p_task->run()`. -/
  | running (k : ℕ) (task : τ)
  /-- Past it, before `free`. -/
  | ran (k : ℕ) (task : τ)
  /-- Past `pthread_exit`. -/
  | exited
  /-- In `front` of an empty queue, which has no defined behaviour. -/
  | crashed
  deriving DecidableEq

/-- Where the thread that destroys the pool is. -/
inductive DestroyerLoc
  | idle
  /-- With `m_shutdown` set, before `pthread_cond_broadcast`. -/
  | flagSet
  /-- Before `pthread_join` of the worker with this number. -/
  | joining (i : ℕ)
  | done
  deriving DecidableEq

/-- The thread holds the mutex. -/
def ProducerLoc.holdsMutex {τ : Type} : ProducerLoc τ → Bool
  | .locked _ => true
  | _ => false

@[inherit_doc ProducerLoc.holdsMutex]
def WorkerLoc.holdsMutex {τ : Type} : WorkerLoc τ → Bool
  | .testing | .aboutToWait | .loopExit => true
  | _ => false

def WorkerLoc.isWaiting {τ : Type} : WorkerLoc τ → Bool
  | .waiting => true
  | _ => false

/-! ### The state -/

/-- What has happened to the tasks: those added and those taken out, in order, and for
each that was taken out how often it was run, freed, and discarded. -/
structure History (τ : Type) where
  added : List τ
  popped : List τ
  runs : ℕ → ℕ
  frees : ℕ → ℕ
  drops : ℕ → ℕ

namespace History

variable {τ : Type} (h : History τ) (k : ℕ)

/-- The task has been run. -/
def ran : History τ := { h with runs := Function.update h.runs k (h.runs k + 1) }

/-- The task has been freed. -/
def freed : History τ := { h with frees := Function.update h.frees k (h.frees k + 1) }

/-- The task has been freed without being run. -/
def discarded : History τ :=
  { h.freed k with drops := Function.update h.drops k (h.drops k + 1) }

theorem ran_runs (j : ℕ) : (h.ran k).runs j = h.runs j + if k = j then 1 else 0 := by
  simp only [ran, Function.update_apply, eq_comm (a := j)]
  split
  · next hj => rw [hj]
  · rfl

theorem freed_frees (j : ℕ) : (h.freed k).frees j = h.frees j + if k = j then 1 else 0 := by
  simp only [freed, Function.update_apply, eq_comm (a := j)]
  split
  · next hj => rw [hj]
  · rfl

theorem discarded_drops (j : ℕ) :
    (h.discarded k).drops j = h.drops j + if k = j then 1 else 0 := by
  simp only [discarded, Function.update_apply, eq_comm (a := j)]
  split
  · next hj => rw [hj]
  · rfl

end History

/-- The state of the pool and of the threads that use it. -/
structure PoolState (P τ : Type) (n : ℕ) where
  mutex : Option (P ⊕ Fin n)
  mQueTasks : List τ
  mShutdown : Bool
  producer : P → ProducerLoc τ
  worker : Fin n → WorkerLoc τ
  destroyer : DestroyerLoc
  history : History τ

/-- A step of one thread. -/
inductive PoolStep (P τ : Type) (n : ℕ)
  | call (p : P) (task : τ)
  | lockAdd (p : P)
  | push (p : P)
  /-- `pthread_cond_signal`, with the worker that it wakes. -/
  | signal (p : P) (woken : Option (Fin n))
  | enter (w : Fin n)
  | lock (w : Fin n)
  | test (w : Fin n)
  | wait (w : Fin n)
  /-- A wake-up without a signal. -/
  | spurious (w : Fin n)
  | relock (w : Fin n)
  | leave (w : Fin n)
  | check (w : Fin n)
  | discard (w : Fin n)
  | run (w : Fin n)
  | free (w : Fin n)
  | destroy
  | broadcast
  | join

section Pool

variable {P τ : Type} [DecidableEq P] {n : ℕ}

namespace PoolState

/-- `init_workthreads`: every worker is about to enter its loop. -/
def initPool (P τ : Type) (n : ℕ) : PoolState P τ n where
  mutex := none
  mQueTasks := []
  mShutdown := false
  producer _ := .idle
  worker _ := .loop
  destroyer := .idle
  history := ⟨[], [], fun _ => 0, fun _ => 0, fun _ => 0⟩

def setProducer (s : PoolState P τ n) (p : P) (l : ProducerLoc τ) : PoolState P τ n :=
  { s with producer := Function.update s.producer p l }

omit [DecidableEq P] in
/-- The state after one worker has moved. -/
def setWorker (s : PoolState P τ n) (w : Fin n) (l : WorkerLoc τ) : PoolState P τ n :=
  { s with worker := Function.update s.worker w l }

@[simp] theorem setProducer_producer_self (s : PoolState P τ n) (p : P) (l : ProducerLoc τ) :
    (s.setProducer p l).producer p = l := Function.update_self ..

theorem setProducer_producer_of_ne (s : PoolState P τ n) {p q : P} (l : ProducerLoc τ)
    (h : q ≠ p) : (s.setProducer p l).producer q = s.producer q := Function.update_of_ne h ..

omit [DecidableEq P] in
@[simp] theorem setWorker_worker_self (s : PoolState P τ n) (w : Fin n) (l : WorkerLoc τ) :
    (s.setWorker w l).worker w = l := Function.update_self ..

omit [DecidableEq P] in
theorem setWorker_worker_of_ne (s : PoolState P τ n) {w v : Fin n} (l : WorkerLoc τ)
    (h : v ≠ w) : (s.setWorker w l).worker v = s.worker v := Function.update_of_ne h ..

omit [DecidableEq P] in
@[simp] theorem setWorker_mQueTasks (s : PoolState P τ n) (w : Fin n) (l : WorkerLoc τ) :
    (s.setWorker w l).mQueTasks = s.mQueTasks := rfl

omit [DecidableEq P] in
/-- What holds of every worker holds after one of them has moved, if it holds at the new
place. -/
theorem forall_setWorker (s : PoolState P τ n) {Q : WorkerLoc τ → Prop} (w : Fin n)
    {l : WorkerLoc τ} (hs : ∀ v, Q (s.worker v)) (hl : Q l) (v : Fin n) :
    Q ((s.setWorker w l).worker v) :=
  (Function.forall_update_iff s.worker fun _ l => Q l).mpr ⟨hl, fun v _ => hs v⟩ v

/-- One step. -/
def step (s : PoolState P τ n) : PoolStep P τ n → Option (PoolState P τ n)
  -- `add_task`
  | .call p task => match s.producer p with
    | .idle => some (s.setProducer p (.locking task))
    | _ => none
  | .lockAdd p => match s.producer p, s.mutex with
    | .locking task, none => some { s.setProducer p (.locked task) with mutex := some (.inl p) }
    | _, _ => none
  | .push p => match s.producer p with
    | .locked task =>
      let history := { s.history with added := s.history.added ++ [task] }
      some { s.setProducer p .signalling with
        mutex := none, mQueTasks := s.mQueTasks ++ [task], history := history }
    | _ => none
  | .signal p (some w) => match s.producer p, s.worker w with
    | .signalling, .waiting => some ((s.setProducer p .idle).setWorker w .waking)
    | _, _ => none
  | .signal p none => match s.producer p with
    | .signalling =>
      if ∀ w, (s.worker w).isWaiting = false then some (s.setProducer p .idle) else none
    | _ => none
  -- `get_task`
  | .enter w => match s.worker w with
    | .loop => some (s.setWorker w .locking)
    | _ => none
  | .lock w => match s.worker w, s.mutex with
    | .locking, none => some { s.setWorker w .testing with mutex := some (.inr w) }
    | _, _ => none
  | .test w => match s.worker w with
    | .testing =>
      some (s.setWorker w (if s.mQueTasks.isEmpty && !s.mShutdown then .aboutToWait else .loopExit))
    | _ => none
  -- `pthread_cond_wait` releases the mutex and falls asleep in one step
  | .wait w => match s.worker w with
    | .aboutToWait => some { s.setWorker w .waiting with mutex := none }
    | _ => none
  | .spurious w => match s.worker w with
    | .waiting => some (s.setWorker w .waking)
    | _ => none
  | .relock w => match s.worker w, s.mutex with
    | .waking, none => some { s.setWorker w .testing with mutex := some (.inr w) }
    | _, _ => none
  | .leave w => match s.worker w with
    | .loopExit =>
      if s.mShutdown then some { s.setWorker w .gotNull with mutex := none }
      else match s.mQueTasks with
        | task :: rest =>
          let history := { s.history with popped := s.history.popped ++ [task] }
          some { s.setWorker w (.got s.history.popped.length task) with
            mutex := none, mQueTasks := rest, history := history }
        | [] => some (s.setWorker w .crashed)
    | _ => none
  -- `WorkThread::run`
  | .check w => match s.worker w with
    | .gotNull => some (s.setWorker w .exited)
    | .got k task =>
      some (s.setWorker w (if s.mShutdown then .dropping k task else .running k task))
    | _ => none
  | .discard w => match s.worker w with
    | .dropping k _ =>
      if s.mShutdown then
        some { s.setWorker w .exited with history := s.history.discarded k }
      else some (s.setWorker w .exited)
    | _ => none
  | .run w => match s.worker w with
    | .running k task => some { s.setWorker w (.ran k task) with history := s.history.ran k }
    | _ => none
  | .free w => match s.worker w with
    | .ran k _ => some { s.setWorker w .loop with history := s.history.freed k }
    | _ => none
  -- `pool_destroy`
  | .destroy => match s.destroyer with
    | .idle =>
      if s.mShutdown then some { s with destroyer := .done }
      else some { s with mShutdown := true, destroyer := .flagSet }
    | _ => none
  | .broadcast => match s.destroyer with
    | .flagSet =>
      let worker := fun w => if (s.worker w).isWaiting then .waking else s.worker w
      some { s with worker := worker, destroyer := .joining 0 }
    | _ => none
  | .join => match s.destroyer with
    | .joining i =>
      if h : i < n then match s.worker ⟨i, h⟩ with
        | .exited => some { s with destroyer := .joining (i + 1) }
        | _ => none
      else some { s with destroyer := .done }
    | _ => none

end PoolState

/-- **The thread pool**, from the state that `init_workthreads` builds. -/
def threadPool (P τ : Type) [DecidableEq P] (n : ℕ) :
    TransSystem (PoolState P τ n) (PoolStep P τ n) where
  Init s := s = PoolState.initPool P τ n
  step := PoolState.step

/-! ### What a step can do -/

/-- The steps of the pool, one constructor for each branch of the code. -/
inductive PoolMove (s : PoolState P τ n) : PoolState P τ n → Prop
  | call {p : P} {task : τ} (hp : s.producer p = .idle) :
      PoolMove s (s.setProducer p (.locking task))
  | lockAdd {p : P} {task : τ} (hp : s.producer p = .locking task) (hm : s.mutex = none) :
      PoolMove s { s.setProducer p (.locked task) with mutex := some (.inl p) }
  | push {p : P} {task : τ} (hp : s.producer p = .locked task) :
      PoolMove s { s.setProducer p .signalling with
        mutex := none
        mQueTasks := s.mQueTasks ++ [task]
        history := { s.history with added := s.history.added ++ [task] } }
  | signal {p : P} {w : Fin n} (hp : s.producer p = .signalling) (hw : s.worker w = .waiting) :
      PoolMove s ((s.setProducer p .idle).setWorker w .waking)
  | signalNone {p : P} (hp : s.producer p = .signalling) (hw : ∀ w, s.worker w ≠ .waiting) :
      PoolMove s (s.setProducer p .idle)
  | enter {w : Fin n} (hw : s.worker w = .loop) : PoolMove s (s.setWorker w .locking)
  | lock {w : Fin n} (hw : s.worker w = .locking) (hm : s.mutex = none) :
      PoolMove s { s.setWorker w .testing with mutex := some (.inr w) }
  | testWait {w : Fin n} (hw : s.worker w = .testing) (hq : s.mQueTasks = [])
      (hs : s.mShutdown = false) : PoolMove s (s.setWorker w .aboutToWait)
  | testLeave {w : Fin n} (hw : s.worker w = .testing)
      (h : s.mQueTasks ≠ [] ∨ s.mShutdown = true) : PoolMove s (s.setWorker w .loopExit)
  | wait {w : Fin n} (hw : s.worker w = .aboutToWait) :
      PoolMove s { s.setWorker w .waiting with mutex := none }
  | spurious {w : Fin n} (hw : s.worker w = .waiting) : PoolMove s (s.setWorker w .waking)
  | relock {w : Fin n} (hw : s.worker w = .waking) (hm : s.mutex = none) :
      PoolMove s { s.setWorker w .testing with mutex := some (.inr w) }
  | leaveNull {w : Fin n} (hw : s.worker w = .loopExit) (hs : s.mShutdown = true) :
      PoolMove s { s.setWorker w .gotNull with mutex := none }
  | leaveTask {w : Fin n} {task : τ} {rest : List τ} (hw : s.worker w = .loopExit)
      (hs : s.mShutdown = false) (hq : s.mQueTasks = task :: rest) :
      PoolMove s { s.setWorker w (.got s.history.popped.length task) with
        mutex := none
        mQueTasks := rest
        history := { s.history with popped := s.history.popped ++ [task] } }
  | leaveEmpty {w : Fin n} (hw : s.worker w = .loopExit) (hs : s.mShutdown = false)
      (hq : s.mQueTasks = []) : PoolMove s (s.setWorker w .crashed)
  | checkNull {w : Fin n} (hw : s.worker w = .gotNull) : PoolMove s (s.setWorker w .exited)
  | checkDrop {w : Fin n} {k : ℕ} {task : τ} (hw : s.worker w = .got k task)
      (hs : s.mShutdown = true) : PoolMove s (s.setWorker w (.dropping k task))
  | checkRun {w : Fin n} {k : ℕ} {task : τ} (hw : s.worker w = .got k task)
      (hs : s.mShutdown = false) : PoolMove s (s.setWorker w (.running k task))
  | discard {w : Fin n} {k : ℕ} {task : τ} (hw : s.worker w = .dropping k task)
      (hs : s.mShutdown = true) :
      PoolMove s { s.setWorker w .exited with history := s.history.discarded k }
  | discardNot {w : Fin n} {k : ℕ} {task : τ} (hw : s.worker w = .dropping k task)
      (hs : s.mShutdown = false) : PoolMove s (s.setWorker w .exited)
  | run {w : Fin n} {k : ℕ} {task : τ} (hw : s.worker w = .running k task) :
      PoolMove s { s.setWorker w (.ran k task) with history := s.history.ran k }
  | free {w : Fin n} {k : ℕ} {task : τ} (hw : s.worker w = .ran k task) :
      PoolMove s { s.setWorker w .loop with history := s.history.freed k }
  | destroy (hd : s.destroyer = .idle) (hs : s.mShutdown = false) :
      PoolMove s { s with mShutdown := true, destroyer := .flagSet }
  | broadcast (hd : s.destroyer = .flagSet) :
      PoolMove s { s with
        worker := fun w => if (s.worker w).isWaiting then .waking else s.worker w
        destroyer := .joining 0 }
  | destroyer (d : DestroyerLoc) : PoolMove s { s with destroyer := d }

omit [DecidableEq P] in
theorem WorkerLoc.isWaiting_eq_true_iff {l : WorkerLoc τ} : l.isWaiting = true ↔ l = .waiting := by
  cases l <;> simp [isWaiting]

omit [DecidableEq P] in
/-- A worker that is not waking after a broadcast is where it was. -/
theorem WorkerLoc.eq_of_broadcast {l l' : WorkerLoc τ}
    (h : (if l.isWaiting then .waking else l) = l') (hl' : l' ≠ .waking) : l = l' := by
  split at h
  · exact absurd h.symm hl'
  · exact h

/-- **Inversion of a step.** -/
theorem PoolState.move_of_step {s s' : PoolState P τ n} {a : PoolStep P τ n}
    (h : s.step a = some s') : PoolMove s s' := by
  cases a with
  | signal p woken =>
    cases woken with
    | none =>
      simp only [step] at h
      split at h
      · next hp =>
        split at h
        · next hw =>
          cases h
          exact .signalNone hp fun w hwait => by simpa [hwait, WorkerLoc.isWaiting] using hw w
        · cases h
      · cases h
    | some w =>
      simp only [step] at h
      split at h
      · next hp hw => cases h; exact .signal hp hw
      · cases h
  | call | lockAdd | push | enter | lock | wait | spurious | run | free | broadcast =>
    -- one branch steps, and the constructor of its name is the one that fits
    simp only [step] at h
    split at h
    · obtain rfl := Option.some.inj h
      constructor <;> assumption
    · cases h
  | test w =>
    simp only [step] at h
    split at h
    · next hw =>
      cases h
      cases hs : s.mShutdown with
      | true => simpa using PoolMove.testLeave hw (Or.inr hs)
      | false =>
        cases hq : s.mQueTasks with
        | nil => simpa using PoolMove.testWait hw hq hs
        | cons task rest => simpa using PoolMove.testLeave hw (Or.inl (by simp [hq]))
    · cases h
  | relock w =>
    simp only [step] at h
    split at h
    · next hw hm => cases h; exact .relock hw hm
    · cases h
  | leave w =>
    simp only [step] at h
    split at h
    · next hw =>
      split at h
      · next hs => cases h; exact .leaveNull hw hs
      · next hs =>
        have hs' : s.mShutdown = false := by simpa using hs
        split at h
        · next hq => cases h; exact .leaveTask hw hs' hq
        · next hq => cases h; exact .leaveEmpty hw hs' hq
    · cases h
  | check w =>
    simp only [step] at h
    split at h
    · next hw => cases h; exact .checkNull hw
    · next hw =>
      cases h
      cases hs : s.mShutdown with
      | true => exact .checkDrop hw hs
      | false => exact .checkRun hw hs
    · cases h
  | discard w =>
    simp only [step] at h
    split at h
    · next hw =>
      split at h
      · next hs => cases h; exact .discard hw hs
      · next hs => cases h; exact .discardNot hw (by simpa using hs)
    · cases h
  | destroy =>
    simp only [step] at h
    split at h
    · next hd =>
      split at h
      · cases h; exact .destroyer _
      · next hs => cases h; exact .destroy hd (by simpa using hs)
    · cases h
  | join =>
    simp only [step] at h
    split at h
    · split at h
      · split at h
        · cases h; exact .destroyer _
        · cases h
      · cases h; exact .destroyer _
    · cases h

end Pool

end NpuOj
