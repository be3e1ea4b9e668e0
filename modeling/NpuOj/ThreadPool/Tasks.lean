import NpuOj.Lib.Counting
import NpuOj.ThreadPool.Mutex

/-!
# What becomes of the tasks

A worker tests for shutdown twice, the second time outside the mutex and with a task in
hand, so that a task that was taken out is either run or discarded depending on a flag
that another thread may set in between.

`NpuOj.threadPool_tasks` is the account of them over every interleaving. The queue is
first in, first out: what was added is what was taken out followed by what is still
there. Every task that was taken out is in the hands of one worker, or has been run once,
or was discarded after shutdown; and none is run or freed twice. The invariant is
`NpuOj.TaskInv`, which counts for every task the workers that have not yet run it and
those that have not yet freed it.
-/

namespace NpuOj

/-- The task in the hands of a worker, with its place among those taken out. -/
def WorkerLoc.task {τ : Type} : WorkerLoc τ → Option (ℕ × τ)
  | .got k task | .dropping k task | .running k task | .ran k task => some (k, task)
  | _ => none

/-- The place of a task that the worker has not yet run. -/
def WorkerLoc.unrun {τ : Type} : WorkerLoc τ → Option ℕ
  | .got k _ | .dropping k _ | .running k _ => some k
  | _ => none

/-- The place of a task that the worker has run and not yet freed. -/
def WorkerLoc.unfreed {τ : Type} : WorkerLoc τ → Option ℕ
  | .ran k _ => some k
  | _ => none

section Tasks

variable {P τ : Type} [DecidableEq P] {n : ℕ} {s s' : PoolState P τ n}

/-- The number of workers that a reading of their places gives the task. -/
def countTask (f : WorkerLoc τ → Option ℕ) (k : ℕ) (worker : Fin n → WorkerLoc τ) : ℕ :=
  countIn (fun l => f l = some k) worker

/-- **The account of the tasks.** -/
structure TaskInv (s : PoolState P τ n) : Prop where
  fifo : s.history.added = s.history.popped ++ s.mQueTasks
  /-- A task that was taken out waits to be run, or was run, or was discarded. -/
  unrun : ∀ k, countTask WorkerLoc.unrun k s.worker + s.history.runs k + s.history.drops k
    = if k < s.history.popped.length then 1 else 0
  /-- A task that was run or discarded waits to be freed or was freed. -/
  unfreed : ∀ k, countTask WorkerLoc.unfreed k s.worker + s.history.frees k
    = s.history.runs k + s.history.drops k
  dropped : ∀ k, 0 < s.history.drops k → s.mShutdown = true
  dropping : ∀ w k task, s.worker w = .dropping k task → s.mShutdown = true
  held : ∀ w k task, (s.worker w).task = some (k, task) → s.history.popped[k]? = some task

omit [DecidableEq P] in
theorem taskInv_init : TaskInv (PoolState.initPool P τ n) where
  fifo := rfl
  unrun k := by
    have hzero : countTask WorkerLoc.unrun k (PoolState.initPool P τ n).worker = 0 :=
      countIn_eq_zero_iff.mpr fun _ => by simp [PoolState.initPool, WorkerLoc.unrun]
    rw [hzero]
    rfl
  unfreed k := by
    have hzero : countTask WorkerLoc.unfreed k (PoolState.initPool P τ n).worker = 0 :=
      countIn_eq_zero_iff.mpr fun _ => by simp [PoolState.initPool, WorkerLoc.unfreed]
    rw [hzero]
    rfl
  dropped k h := by simp [PoolState.initPool] at h
  dropping w k task h := by simp [PoolState.initPool] at h
  held w k task h := by simp [PoolState.initPool, WorkerLoc.task] at h

omit [DecidableEq P] in
theorem countTask_setWorker (s : PoolState P τ n) {f : WorkerLoc τ → Option ℕ} {w : Fin n}
    {l : WorkerLoc τ} {a b : Option ℕ} (ha : f (s.worker w) = a) (hb : f l = b) (k : ℕ) :
    countTask f k (s.setWorker w l).worker + (if a = some k then 1 else 0)
      = countTask f k s.worker + (if b = some k then 1 else 0) := by
  subst ha hb
  exact countIn_update s.worker w l

omit [DecidableEq P] in
theorem countTask_setWorker_eq (s : PoolState P τ n) {f : WorkerLoc τ → Option ℕ} {w : Fin n}
    {l : WorkerLoc τ} (h : f l = f (s.worker w)) (k : ℕ) :
    countTask f k (s.setWorker w l).worker = countTask f k s.worker :=
  Nat.add_right_cancel (countTask_setWorker s rfl h k)

omit [DecidableEq P] in
theorem TaskInv.dropping_setWorker (hinv : TaskInv s) {w : Fin n} {l : WorkerLoc τ}
    (hl : ∀ k task, l = .dropping k task → s.mShutdown = true) (v : Fin n) (k : ℕ) (task : τ) :
    (s.setWorker w l).worker v = .dropping k task → s.mShutdown = true :=
  s.forall_setWorker (Q := fun l => l = .dropping k task → s.mShutdown = true) w
    (fun v => hinv.dropping v k task) (hl k task) v

omit [DecidableEq P] in
/-- A worker that moves with the task that it has, or lets go of it. -/
theorem TaskInv.held_setWorker (hinv : TaskInv s) {w : Fin n} {l : WorkerLoc τ}
    (hl : ∀ k task, l.task = some (k, task) → (s.worker w).task = some (k, task)) (v : Fin n)
    (k : ℕ) (task : τ) :
    ((s.setWorker w l).worker v).task = some (k, task) → s.history.popped[k]? = some task :=
  s.forall_setWorker
    (Q := fun l => l.task = some (k, task) → s.history.popped[k]? = some task) w
    (fun v => hinv.held v k task) (fun h => hinv.held w k task (hl k task h)) v

omit [DecidableEq P] in
/-- **A step of one worker that neither runs nor frees a task**: it keeps the task that
it has, or has none. -/
theorem TaskInv.worker (hinv : TaskInv s) {w : Fin n} {l : WorkerLoc τ}
    (hs' : s'.worker = (s.setWorker w l).worker) (hh : s'.history = s.history)
    (hq : s'.mQueTasks = s.mQueTasks) (hd : s'.mShutdown = s.mShutdown)
    (hunrun : l.unrun = (s.worker w).unrun) (hunfreed : l.unfreed = (s.worker w).unfreed)
    (htask : l.task = (s.worker w).task)
    (hdropping : ∀ k task, l = .dropping k task → s.mShutdown = true) : TaskInv s' where
  fifo := by rw [hh, hq, hinv.fifo]
  unrun k := by
    rw [hh, hs', countTask_setWorker_eq s hunrun k, hinv.unrun k]
  unfreed k := by
    rw [hh, hs', countTask_setWorker_eq s hunfreed k, hinv.unfreed k]
  dropped k h := by
    rw [hd]
    exact hinv.dropped k (hh ▸ h)
  dropping := by
    rw [hs', hd]
    exact hinv.dropping_setWorker hdropping
  held := by
    rw [hs', hh]
    exact hinv.held_setWorker fun k task hl => htask ▸ hl

omit [DecidableEq P] in
/-- A task is taken out: it is the last of those taken out, and nobody had it before. -/
theorem TaskInv.leaveTask (hinv : TaskInv s) {w : Fin n} {task : τ} {rest : List τ}
    (hw : s.worker w = .loopExit) (hq : s.mQueTasks = task :: rest) :
    TaskInv { s.setWorker w (.got s.history.popped.length task) with
      mutex := none
      mQueTasks := rest
      history := { s.history with popped := s.history.popped ++ [task] } } where
  fifo := by
    rw [hinv.fifo, hq]
    simp
  unrun k := by
    have hcount := countTask_setWorker s (f := WorkerLoc.unrun) (w := w) (a := none)
      (b := some s.history.popped.length) (l := .got _ task) (by rw [hw]; rfl) rfl k
    have hold := hinv.unrun k
    -- the place of the new task is one past all that any worker had
    simp only [Option.some.injEq, reduceCtorEq, if_false, List.length_append,
      List.length_singleton] at hcount ⊢
    split at hcount <;> split at hold <;> split <;> omega
  unfreed k :=
    (congrArg (· + _) (countTask_setWorker_eq s (by rw [hw]; rfl) k)).trans (hinv.unfreed k)
  dropped := hinv.dropped
  dropping := hinv.dropping_setWorker (by simp)
  held v k t h := s.forall_setWorker
    (Q := fun l => l.task = some (k, t) → (s.history.popped ++ [task])[k]? = some t) w
    (fun v hv => by
      have hold := hinv.held v k t hv
      rw [List.getElem?_append_left (List.getElem?_eq_some_iff.mp hold).1, hold])
    (fun hl => by
      obtain ⟨rfl, rfl⟩ : s.history.popped.length = k ∧ task = t := by
        simpa [WorkerLoc.task] using hl
      simp) v h

omit [DecidableEq P] in
/-- A task is run: it moves from the ones not yet run to the ones not yet freed. -/
theorem TaskInv.run (hinv : TaskInv s) {w : Fin n} {k₀ : ℕ} {task : τ}
    (hw : s.worker w = .running k₀ task) :
    TaskInv { s.setWorker w (.ran k₀ task) with history := s.history.ran k₀ } where
  fifo := hinv.fifo
  unrun k := by
    have hcount := countTask_setWorker s (f := WorkerLoc.unrun) (w := w) (a := some k₀) (b := none)
      (l := .ran k₀ task) (by rw [hw]; rfl) rfl k
    change countTask WorkerLoc.unrun k (s.setWorker w (.ran k₀ task)).worker
      + (s.history.ran k₀).runs k + s.history.drops k
        = if k < s.history.popped.length then 1 else 0
    simp only [Option.some.injEq, reduceCtorEq, if_false] at hcount
    rw [← hinv.unrun k, History.ran_runs]
    omega
  unfreed k := by
    have hcount := countTask_setWorker s (f := WorkerLoc.unfreed) (w := w) (a := none)
      (b := some k₀) (l := .ran k₀ task) (by rw [hw]; rfl) rfl k
    have hold := hinv.unfreed k
    change countTask WorkerLoc.unfreed k (s.setWorker w (.ran k₀ task)).worker
      + s.history.frees k = (s.history.ran k₀).runs k + s.history.drops k
    simp only [Option.some.injEq, reduceCtorEq, if_false] at hcount
    rw [History.ran_runs]
    omega
  dropped := hinv.dropped
  dropping := hinv.dropping_setWorker (by simp)
  held := hinv.held_setWorker fun k t hl => by rw [hw]; exact hl

omit [DecidableEq P] in
theorem TaskInv.free (hinv : TaskInv s) {w : Fin n} {k₀ : ℕ} {task : τ}
    (hw : s.worker w = .ran k₀ task) :
    TaskInv { s.setWorker w .loop with history := s.history.freed k₀ } where
  fifo := hinv.fifo
  unrun k :=
    (congrArg (· + _ + _) (countTask_setWorker_eq s (by rw [hw]; rfl) k)).trans (hinv.unrun k)
  unfreed k := by
    have hcount := countTask_setWorker s (f := WorkerLoc.unfreed) (w := w) (a := some k₀)
      (b := none) (l := .loop) (by rw [hw]; rfl) rfl k
    change countTask WorkerLoc.unfreed k (s.setWorker w .loop).worker
      + (s.history.freed k₀).frees k = s.history.runs k + s.history.drops k
    simp only [Option.some.injEq, reduceCtorEq, if_false] at hcount
    rw [← hinv.unfreed k, History.freed_frees]
    omega
  dropped := hinv.dropped
  dropping := hinv.dropping_setWorker (by simp)
  held := hinv.held_setWorker (by simp [WorkerLoc.task])

omit [DecidableEq P] in
/-- A task is discarded: it is freed without having been run. -/
theorem TaskInv.discard (hinv : TaskInv s) {w : Fin n} {k₀ : ℕ} {task : τ}
    (hw : s.worker w = .dropping k₀ task) :
    TaskInv { s.setWorker w .exited with history := s.history.discarded k₀ } where
  fifo := hinv.fifo
  unrun k := by
    have hcount := countTask_setWorker s (f := WorkerLoc.unrun) (w := w) (a := some k₀) (b := none)
      (l := .exited) (by rw [hw]; rfl) rfl k
    change countTask WorkerLoc.unrun k (s.setWorker w .exited).worker
      + s.history.runs k + (s.history.discarded k₀).drops k
        = if k < s.history.popped.length then 1 else 0
    simp only [Option.some.injEq, reduceCtorEq, if_false] at hcount
    rw [← hinv.unrun k, History.discarded_drops]
    omega
  unfreed k := by
    have hcount := countTask_setWorker_eq s (f := WorkerLoc.unfreed) (w := w) (l := .exited)
      (by rw [hw]; rfl) k
    have hold := hinv.unfreed k
    change countTask WorkerLoc.unfreed k (s.setWorker w .exited).worker
      + (s.history.freed k₀).frees k = s.history.runs k + (s.history.discarded k₀).drops k
    rw [History.freed_frees, History.discarded_drops]
    omega
  dropped _ _ := hinv.dropping w k₀ task hw
  dropping := hinv.dropping_setWorker (by simp)
  held := hinv.held_setWorker (by simp [WorkerLoc.task])

omit [DecidableEq P] in
theorem countTask_broadcast (s : PoolState P τ n) {f : WorkerLoc τ → Option ℕ}
    (h : f .waking = f .waiting) (k : ℕ) :
    countTask f k (fun w => if (s.worker w).isWaiting then .waking else s.worker w)
      = countTask f k s.worker :=
  countIn_congr fun w => by
    split
    · next hw => rw [WorkerLoc.isWaiting_eq_true_iff.mp hw, h]
    · rfl

/-- **Every step keeps the account of the tasks.** -/
theorem TaskInv.move (hinv : TaskInv s) (h : PoolMove s s') : TaskInv s' := by
  cases h with
  | call hp | lockAdd hp hm | signalNone hp hw | destroyer d =>
    exact ⟨hinv.fifo, hinv.unrun, hinv.unfreed, hinv.dropped, hinv.dropping, hinv.held⟩
  | destroy hd hs =>
    exact ⟨hinv.fifo, hinv.unrun, hinv.unfreed, fun _ _ => rfl, fun _ _ _ _ => rfl, hinv.held⟩
  | @push p task hp =>
    refine ⟨?_, hinv.unrun, hinv.unfreed, hinv.dropped, hinv.dropping, hinv.held⟩
    simp only [hinv.fifo, List.append_assoc]
  | leaveTask hw hs hq => exact hinv.leaveTask hw hq
  | run hw => exact hinv.run hw
  | free hw => exact hinv.free hw
  | discard hw hs => exact hinv.discard hw
  | @discardNot w k task hw hs =>
    -- a task is only ever dropped after shutdown
    exact absurd (hinv.dropping w k task hw) (by simp [hs])
  | @signal p w hp hw =>
    have hmid : TaskInv (s.setProducer p .idle) :=
      ⟨hinv.fifo, hinv.unrun, hinv.unfreed, hinv.dropped, hinv.dropping, hinv.held⟩
    have hw' : (s.setProducer p .idle).worker w = .waiting := hw
    exact hmid.worker rfl rfl rfl rfl (by rw [hw']; rfl) (by rw [hw']; rfl) (by rw [hw']; rfl)
      (by simp)
  | broadcast hd =>
    refine ⟨hinv.fifo, fun k => ?_, fun k => ?_, hinv.dropped,
      fun w k task hw => hinv.dropping w k task (WorkerLoc.eq_of_broadcast hw (by simp)),
      fun w k task hw => ?_⟩
    · exact (congrArg (· + _ + _) (countTask_broadcast s rfl k)).trans (hinv.unrun k)
    · exact (congrArg (· + _) (countTask_broadcast s rfl k)).trans (hinv.unfreed k)
    · refine hinv.held w k task ?_
      rw [← hw]
      refine congrArg _ (WorkerLoc.eq_of_broadcast rfl fun hwaking => ?_)
      rw [hwaking] at hw
      cases hw
  | checkDrop hw hs =>
    exact hinv.worker rfl rfl rfl rfl (by rw [hw]; rfl) (by rw [hw]; rfl) (by rw [hw]; rfl)
      fun _ _ _ => hs
  | checkRun hw hs | checkNull hw | leaveEmpty hw hs hq | leaveNull hw hs | relock hw hm
  | spurious hw | wait hw | testLeave hw h | testWait hw hq hs | lock hw hm | enter hw =>
    exact hinv.worker rfl rfl rfl rfl (by rw [hw]; rfl) (by rw [hw]; rfl) (by rw [hw]; rfl)
      (by simp)

theorem taskInv_of_reachable (h : (threadPool P τ n).Reachable s) : TaskInv s :=
  h.invariant (by rintro _ rfl; exact taskInv_init)
    fun _ _ _ _ hinv _ hstep => hinv.move (PoolState.move_of_step hstep)

/-- **No task is lost or duplicated.** In every state of every run, what was added is what
was taken out followed by the queue. Every task that was taken out is in the hands of
exactly one worker that has not yet run it, or was run exactly once, or was discarded
after shutdown. A worker has the task that it took out, and no task is run or freed
twice. -/
theorem threadPool_tasks (h : (threadPool P τ n).Reachable s) :
    s.history.added = s.history.popped ++ s.mQueTasks ∧
      (∀ k < s.history.popped.length,
        ((∃! w, (s.worker w).unrun = some k) ∧ s.history.runs k = 0 ∧ s.history.drops k = 0) ∨
        ((∀ w, (s.worker w).unrun ≠ some k) ∧ s.history.runs k = 1 ∧ s.history.drops k = 0) ∨
        ((∀ w, (s.worker w).unrun ≠ some k) ∧ s.history.runs k = 0 ∧ s.history.drops k = 1 ∧
          s.mShutdown = true)) ∧
      (∀ w k task, (s.worker w).task = some (k, task) → s.history.popped[k]? = some task) ∧
      ∀ k, s.history.runs k ≤ 1 ∧ s.history.frees k ≤ 1 := by
  have hinv := taskInv_of_reachable h
  refine ⟨hinv.fifo, fun k hk => ?_, hinv.held, fun k => ?_⟩
  · have hsum : countTask WorkerLoc.unrun k s.worker + s.history.runs k + s.history.drops k = 1 :=
      (hinv.unrun k).trans (if_pos hk)
    have hone : countTask WorkerLoc.unrun k s.worker = 1 →
        ∃! w, (s.worker w).unrun = some k := countIn_eq_one_iff.mp
    have hnone : countTask WorkerLoc.unrun k s.worker = 0 →
        ∀ w, (s.worker w).unrun ≠ some k := countIn_eq_zero_iff.mp
    rcases Nat.eq_zero_or_pos (s.history.drops k) with hdrops | hdrops
    · rcases Nat.eq_zero_or_pos (s.history.runs k) with hruns | hruns
      · exact Or.inl ⟨hone (by omega), hruns, hdrops⟩
      · exact Or.inr (Or.inl ⟨hnone (by omega), by omega, hdrops⟩)
    · exact Or.inr (Or.inr ⟨hnone (by omega), by omega, by omega, hinv.dropped k hdrops⟩)
  · have hunrun := hinv.unrun k
    have hunfreed := hinv.unfreed k
    split at hunrun <;> exact ⟨by omega, by omega⟩

/-- One producer, one worker and one task, up to the point where it has been run. -/
theorem threadPool_tasks_once : ∃ s : PoolState (Fin 1) ℕ 1,
    s.history.popped = [7] ∧ s.history.runs 0 = 1 ∧
      s.history.added = s.history.popped ++ s.mQueTasks :=
  have hrun : (threadPool (Fin 1) ℕ 1).Reachable _ := TransSystem.reachable_of_run rfl
    (show (threadPool (Fin 1) ℕ 1).run (PoolState.initPool (Fin 1) ℕ 1)
      [.call 0 7, .lockAdd 0, .push 0, .signal 0 none, .enter 0, .lock 0, .test 0, .leave 0,
        .check 0, .run 0] = some _ from rfl)
  ⟨_, rfl, rfl, (threadPool_tasks hrun).1⟩

end Tasks

end NpuOj
