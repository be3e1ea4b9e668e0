import NpuOj.Lib.Counting
import NpuOj.ThreadPool.Mutex

/-!
# No lost wake-up

`add_task` signals after it has released the mutex, so that a task may be gone before
the worker that was woken for it gets the mutex, and signals of several pushes overlap.
All the same no task is left lying while a worker sleeps: as long as the pool is not shut
down and some worker waits, every task in the queue has a signal that is still to come or
a worker that is awake in `get_task`. This is `NpuOj.threadPool_wakeup`, and it is an
invariant by itself, given what the mutex protects.
-/

namespace NpuOj

/-- The call of `add_task` is between its unlock and its signal. -/
def ProducerLoc.isSignalling {τ : Type} : ProducerLoc τ → Bool
  | .signalling => true
  | _ => false

/-- The worker is awake inside `get_task`. -/
def WorkerLoc.isAwake {τ : Type} : WorkerLoc τ → Bool
  | .locking | .testing | .aboutToWait | .waking | .loopExit => true
  | _ => false

section Wakeup

variable {P τ : Type} [DecidableEq P] [Fintype P] {n : ℕ} {s s' : PoolState P τ n}

/-- The signals that are still to come. -/
def PoolState.signals (s : PoolState P τ n) : ℕ := countIn (·.isSignalling = true) s.producer

/-- The workers that are awake inside `get_task`. -/
def PoolState.awake (s : PoolState P τ n) : ℕ := countIn (·.isAwake = true) s.worker

/-- **The wake-up invariant**: before shutdown, a queue that outnumbers the signals to
come and the workers awake leaves no worker waiting. -/
def WakeInv (s : PoolState P τ n) : Prop :=
  s.mShutdown = false → (∃ w, s.worker w = .waiting) → s.mQueTasks.length ≤ s.signals + s.awake

theorem PoolState.signals_setProducer (s : PoolState P τ n) (p : P) (l : ProducerLoc τ) :
    (s.setProducer p l).signals + (if (s.producer p).isSignalling then 1 else 0)
      = s.signals + (if l.isSignalling then 1 else 0) :=
  countIn_update s.producer p l

omit [DecidableEq P] [Fintype P] in
theorem PoolState.awake_setWorker (s : PoolState P τ n) (w : Fin n) (l : WorkerLoc τ) :
    (s.setWorker w l).awake + (if (s.worker w).isAwake then 1 else 0)
      = s.awake + (if l.isAwake then 1 else 0) :=
  countIn_update s.worker w l

omit [DecidableEq P] [Fintype P] in
/-- A worker that waits after another one has moved elsewhere was waiting before. -/
theorem PoolState.exists_waiting_of_setWorker {w : Fin n} {l : WorkerLoc τ} (hl : l ≠ .waiting)
    (h : ∃ v, (s.setWorker w l).worker v = .waiting) : ∃ v, s.worker v = .waiting := by
  obtain ⟨v, hv⟩ := h
  by_cases hvw : v = w
  · rw [hvw, setWorker_worker_self] at hv
    exact absurd hv hl
  · exact ⟨v, by rwa [setWorker_worker_of_ne s l hvw] at hv⟩

omit [DecidableEq P] in
/-- **A step of one worker that does not fall asleep** keeps the invariant, if a worker
that is no longer awake has taken a task with it. -/
theorem WakeInv.worker (hinv : WakeInv s) {w : Fin n} {l : WorkerLoc τ}
    (hs' : s'.worker = (s.setWorker w l).worker) (hp : s'.producer = s.producer)
    (hd : s'.mShutdown = s.mShutdown) (hl : l ≠ .waiting)
    (hq : s'.mQueTasks.length + (if (s.worker w).isAwake then 1 else 0)
      ≤ s.mQueTasks.length + (if l.isAwake then 1 else 0)) : WakeInv s' := by
  intro hshutdown hwaiting
  rw [hs'] at hwaiting
  have hold := hinv (hd ▸ hshutdown) (PoolState.exists_waiting_of_setWorker hl hwaiting)
  have hawake := s.awake_setWorker w l
  have hsignals : s'.signals = s.signals := by rw [PoolState.signals, hp, PoolState.signals]
  have hawake' : s'.awake = (s.setWorker w l).awake := by rw [PoolState.awake, hs', PoolState.awake]
  rw [hsignals, hawake']
  omega

/-- A step of one producer: the queue grows by no more than the signals. -/
theorem WakeInv.producer (hinv : WakeInv s) {p : P} {l : ProducerLoc τ}
    (hs' : s'.producer = (s.setProducer p l).producer) (hw : s'.worker = s.worker)
    (hd : s'.mShutdown = s.mShutdown)
    (hq : s'.mQueTasks.length + (if (s.producer p).isSignalling then 1 else 0)
      ≤ s.mQueTasks.length + (if l.isSignalling then 1 else 0)) : WakeInv s' := by
  intro hshutdown hwaiting
  rw [hw] at hwaiting
  have hold := hinv (hd ▸ hshutdown) hwaiting
  have hsignals := s.signals_setProducer p l
  have hsignals' : s'.signals = (s.setProducer p l).signals := by
    rw [PoolState.signals, hs', PoolState.signals]
  have hawake : s'.awake = s.awake := by rw [PoolState.awake, hw, PoolState.awake]
  rw [hsignals', hawake]
  omega

/-- **Every step keeps the wake-up invariant.** -/
theorem WakeInv.move (hinv : WakeInv s) (hqueue : s.QueueInv) (h : PoolMove s s') :
    WakeInv s' := by
  cases h with
  | call hp => exact hinv.producer rfl rfl rfl (by rw [hp]; exact le_rfl)
  | lockAdd hp hm => exact hinv.producer rfl rfl rfl (by rw [hp]; exact le_rfl)
  | push hp => exact hinv.producer rfl rfl rfl (by rw [hp]; simp [ProducerLoc.isSignalling])
  | @signal p w hp hw =>
    -- the signal is gone, and the worker that it woke is awake
    intro hshutdown hwaiting
    have hwaiting' : ∃ v, (s.setProducer p .idle).worker v = .waiting :=
      PoolState.exists_waiting_of_setWorker (by simp) hwaiting
    have hold := hinv hshutdown hwaiting'
    have hsignals := s.signals_setProducer p .idle
    have hawake := (s.setProducer p .idle).awake_setWorker w .waking
    have hw' : (s.setProducer p .idle).worker w = .waiting := hw
    rw [hp] at hsignals
    rw [hw'] at hawake
    change s.mQueTasks.length ≤ (s.setProducer p .idle).signals
      + ((s.setProducer p .idle).setWorker w .waking).awake
    change _ = s.awake + _ at hawake
    simp only [ProducerLoc.isSignalling, WorkerLoc.isAwake, if_true, Bool.false_eq_true,
      if_false] at hsignals hawake
    omega
  | signalNone hp hw => exact fun _ ⟨w, hwaiting⟩ => absurd hwaiting (hw w)
  | wait hw =>
    intro _ _
    change s.mQueTasks.length ≤ _
    rw [hqueue.empty _ hw]
    exact Nat.zero_le _
  | leaveNull hw hs => exact fun hshutdown => absurd (hs.symm.trans hshutdown) (by simp)
  | leaveTask hw hs hq =>
    exact hinv.worker rfl rfl rfl (by simp) (by rw [hw]; simp [hq, WorkerLoc.isAwake])
  | leaveEmpty hw hs hq =>
    intro _ _
    change s.mQueTasks.length ≤ _
    rw [hq]
    exact Nat.zero_le _
  | destroy hd hs => exact fun hshutdown => absurd hshutdown (by simp)
  | broadcast hd =>
    -- nobody waits any more
    rintro - ⟨w, hwaiting⟩
    have hwas := WorkerLoc.eq_of_broadcast hwaiting (by simp)
    simp [hwas, WorkerLoc.isWaiting] at hwaiting
  | destroyer d => exact hinv
  | enter hw | lock hw hm | testWait hw hq hs | testLeave hw h | spurious hw | relock hw hm
  | checkNull hw | checkDrop hw hs | checkRun hw hs | discard hw hs | discardNot hw hs | run hw
  | free hw =>
    exact hinv.worker rfl rfl rfl (by simp) (by rw [hw]; simp [WorkerLoc.isAwake])

/-- **No lost wake-up.** Before shutdown, whenever a worker waits, the tasks in the queue
are no more than the signals still to come and the workers awake inside `get_task`. So
there is no state in which a task is queued and a worker waits, while no signal is to come
and no worker is awake. -/
theorem threadPool_wakeup (h : (threadPool P τ n).Reachable s) (hs : s.mShutdown = false) :
    (∀ w, s.worker w = .waiting → s.mQueTasks.length ≤ s.signals + s.awake) ∧
      ¬(s.mQueTasks ≠ [] ∧ (∃ w, s.worker w = .waiting) ∧ (∀ p, s.producer p ≠ .signalling) ∧
        ∀ w, (s.worker w).isAwake = false) := by
  have hinv : WakeInv s := h.invariant (I := WakeInv)
    (by rintro _ rfl - ⟨w, hw⟩; cases hw)
    fun _ _ _ hreach hinv _ hstep =>
      hinv.move (queue_of_reachable hreach) (PoolState.move_of_step hstep)
  refine ⟨fun w hw => hinv hs ⟨w, hw⟩, ?_⟩
  rintro ⟨hne, hwaiting, hnosignal, hasleep⟩
  have hsignals : s.signals = 0 := countIn_eq_zero_iff.mpr fun p hp => by
    refine hnosignal p ?_
    cases hl : s.producer p <;> simp [hl, ProducerLoc.isSignalling] at hp ⊢
  have hawake : s.awake = 0 := countIn_eq_zero_iff.mpr fun w => by simp [hasleep w]
  have hlength := hinv hs hwaiting
  rw [hsignals, hawake] at hlength
  exact hne (List.length_eq_zero_iff.mp (Nat.le_zero.mp hlength))

/-- A worker has gone to sleep and a task has been pushed: its signal is still to come. -/
theorem threadPool_wakeup_once : ∃ s : PoolState (Fin 1) ℕ 1,
    s.worker 0 = .waiting ∧ s.mQueTasks = [7] ∧ s.mQueTasks.length ≤ s.signals + s.awake :=
  have hrun : (threadPool (Fin 1) ℕ 1).Reachable _ := TransSystem.reachable_of_run rfl
    (show (threadPool (Fin 1) ℕ 1).run (PoolState.initPool (Fin 1) ℕ 1)
      [.enter 0, .lock 0, .test 0, .wait 0, .call 0 7, .lockAdd 0, .push 0] = some _ from rfl)
  ⟨_, rfl, rfl, (threadPool_wakeup hrun rfl).1 0 rfl⟩

end Wakeup

end NpuOj
