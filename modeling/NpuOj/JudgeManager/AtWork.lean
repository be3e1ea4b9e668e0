import NpuOj.JudgeManager.FetchSubmission
import NpuOj.ThreadPool.Progress

/-!
# The daemon at work

The main loop, the thread pool and the judges have been looked at one by one: the pool with any
callers of `add_task` (`NpuOj.threadPool`), the judges with any users (`NpuOj.judges`), the main
loop with a queue that is simply there (`NpuOj.loopRoutine`). Here they are put together as
`init_judges` and `loop_routine` do it. The main loop is the only caller of `add_task`; the tasks
are `JudgeTask`s, so that a worker that has taken one out asks for a judge, judges, gives the
judge back and returns a permit; and there are as many workers as judges, since both are made from
`JUDGES_NUM`.

The steps of the three parts are those of the three systems, with the restriction that a worker is
in `JudgeTask::run` only while the pool has it run its task. What was proved of the parts is
carried over by projection (`NpuOj.pool_of_nojd`, `NpuOj.judges_of_nojd`), and the coarse system is
what one sees from far away: `NpuOj.WorkState.toLoop` is a simulation.

The pool is not shut down: `terminate_NOJ` does not touch it, and nothing else calls
`pool_destroy` while the main loop runs.
-/

namespace NpuOj

/-- A step of the main loop itself. -/
inductive MainStep
  | semWait
  | fetched (submit : Submission)
  | addDebug
  | addRelease
  | tryWait
  | update

/-- A step of the daemon. -/
inductive WorkStep (N : ℕ)
  /-- In `loop_routine`, outside of `add_task`. -/
  | main (a : MainStep)
  /-- In `add_task`, `get_task` or `WorkThread::run`. -/
  | pool (a : PoolStep Unit Submission N)
  /-- In `JudgeTask::run`. -/
  | task (w : Fin N) (a : TaskStep)

/-- The state of the daemon. What has been fetched is recorded, and no step reads it. -/
structure WorkState (N : ℕ) where
  main : MainLoc
  jmSemFetchSubmissions : ℕ
  pool : PoolState Unit Submission N
  judges : JudgesState N (Fin N)
  fetched : List Submission

/-- The pool takes the step by itself: the main loop calls `add_task`, a task that returns does
more than that, and nobody destroys the pool. -/
def PoolStep.byItself {P τ : Type} {n : ℕ} : PoolStep P τ n → Bool
  | .call _ _ | .run _ | .destroy | .broadcast | .join => false
  | _ => true

section AtWork

variable {N : ℕ} {s s' : WorkState N} {a : WorkStep N} {w : Fin N}

namespace WorkState

/-- `init_judges`, before the first `sem_wait`. -/
def initNojd (N : ℕ) : WorkState N where
  main := .semWait
  jmSemFetchSubmissions := N
  pool := .initPool Unit Submission N
  judges := .initJudges N (Fin N)
  fetched := []

/-- A mode of the submission: where it is set, the main loop calls `add_task`. -/
def addMode (s : WorkState N) (submit : Submission) (mode : NojJudgeMode) (next : MainLoc) :
    Option (WorkState N) :=
  if submit.hasMode mode then
    (s.pool.step (.call () { submit with sbmCurMode := mode })).map fun pool =>
      { s with main := next, pool := pool }
  else some { s with main := next }

/-- A step of the main loop. -/
def mainStep (s : WorkState N) (a : MainStep) : Option (WorkState N) :=
  match a, s.main with
  | .semWait, .semWait =>
    if 0 < s.jmSemFetchSubmissions then
      some { s with main := .fetch, jmSemFetchSubmissions := s.jmSemFetchSubmissions - 1 }
    else none
  | .fetched submit, .fetch =>
    some { s with main := .addDebug submit, fetched := s.fetched ++ [submit] }
  | .addDebug, .addDebug submit => s.addMode submit .debug (.addRelease submit)
  | .addRelease, .addRelease submit => s.addMode submit .release .tryWait
  | .tryWait, .tryWait =>
    if 0 < s.jmSemFetchSubmissions then
      some { s with main := .fetch, jmSemFetchSubmissions := s.jmSemFetchSubmissions - 1 }
    else some { s with main := .update }
  | .update, .update => some { s with main := .semWait }
  | _, _ => none

/-- One step. -/
def step (s : WorkState N) : WorkStep N → Option (WorkState N)
  -- a call of `add_task` has to return before the main loop goes on
  | .main a => if s.pool.producer () = .idle then s.mainStep a else none
  -- `JudgeTask::run` returns with the last `sem_post` of `release_judge`
  | .pool (.run w) =>
    (s.pool.step (.run w)).bind fun pool => (s.judges.step (w, .postFetch)).map fun judges =>
      { s with
        pool := pool
        judges := judges
        jmSemFetchSubmissions := s.jmSemFetchSubmissions + 1 }
  | .pool a => if a.byItself then (s.pool.step a).map fun pool => { s with pool := pool } else none
  | .task w a => match s.pool.worker w, a with
    | .running _ _, .postFetch => none
    | .running _ _, a => (s.judges.step (w, a)).map fun judges => { s with judges := judges }
    | _, _ => none

end WorkState

/-- **The daemon at work**, with as many workers as judges. -/
def nojd (N : ℕ) : TransSystem (WorkState N) (WorkStep N) where
  Init s := s = WorkState.initNojd N
  step := WorkState.step

/-! ### What a step can do -/

/-- The places at which `loop_routine` tests for a mode: the test, the mode, and where it goes
on. -/
inductive AddsMode : MainStep → MainLoc → Submission → NojJudgeMode → MainLoc → Prop
  | debug (submit : Submission) :
      AddsMode .addDebug (.addDebug submit) submit .debug (.addRelease submit)
  | release (submit : Submission) :
      AddsMode .addRelease (.addRelease submit) submit .release .tryWait

/-- The steps of the daemon, one constructor for each branch. -/
inductive WorkMove (s : WorkState N) : WorkStep N → WorkState N → Prop
  | permit {a : MainStep} (hp : s.pool.producer () = .idle)
      (ha : a = .semWait ∧ s.main = .semWait ∨ a = .tryWait ∧ s.main = .tryWait)
      (hsem : 0 < s.jmSemFetchSubmissions) :
      WorkMove s (.main a)
        { s with main := .fetch, jmSemFetchSubmissions := s.jmSemFetchSubmissions - 1 }
  | fetched (submit : Submission) (hp : s.pool.producer () = .idle) (hmain : s.main = .fetch) :
      WorkMove s (.main (.fetched submit))
        { s with main := .addDebug submit, fetched := s.fetched ++ [submit] }
  | add {a : MainStep} {submit : Submission} {mode : NojJudgeMode} {next : MainLoc}
      (hp : s.pool.producer () = .idle) (ha : AddsMode a s.main submit mode next)
      (hmode : submit.hasMode mode = true) :
      WorkMove s (.main a) { s with
        main := next
        pool := s.pool.setProducer () (.locking { submit with sbmCurMode := mode }) }
  | skip {a : MainStep} {submit : Submission} {mode : NojJudgeMode} {next : MainLoc}
      (hp : s.pool.producer () = .idle) (ha : AddsMode a s.main submit mode next)
      (hmode : submit.hasMode mode = false) :
      WorkMove s (.main a) { s with main := next }
  | tryWait (hp : s.pool.producer () = .idle) (hmain : s.main = .tryWait)
      (hsem : s.jmSemFetchSubmissions = 0) :
      WorkMove s (.main .tryWait) { s with main := .update }
  | update (hp : s.pool.producer () = .idle) (hmain : s.main = .update) :
      WorkMove s (.main .update) { s with main := .semWait }
  | pool {a : PoolStep Unit Submission N} {pool : PoolState Unit Submission N}
      (ha : a.byItself = true) (h : s.pool.step a = some pool) :
      WorkMove s (.pool a) { s with pool := pool }
  | run {w : Fin N} {pool : PoolState Unit Submission N} {judges : JudgesState N (Fin N)}
      (hpool : s.pool.step (.run w) = some pool)
      (hjudges : s.judges.step (w, .postFetch) = some judges) :
      WorkMove s (.pool (.run w)) { s with
        pool := pool
        judges := judges
        jmSemFetchSubmissions := s.jmSemFetchSubmissions + 1 }
  | task {w : Fin N} {a : TaskStep} {k : ℕ} {task : Submission} {judges : JudgesState N (Fin N)}
      (ha : a ≠ .postFetch) (hw : s.pool.worker w = .running k task)
      (hjudges : s.judges.step (w, a) = some judges) :
      WorkMove s (.task w a) { s with judges := judges }

theorem WorkMove.of_addMode {a : MainStep} {submit : Submission} {mode : NojJudgeMode}
    {next : MainLoc} (hp : s.pool.producer () = .idle) (ha : AddsMode a s.main submit mode next)
    (h : s.addMode submit mode next = some s') : WorkMove s (.main a) s' := by
  rw [WorkState.addMode] at h
  split at h
  · next hmode =>
    simp only [PoolState.step, hp] at h
    obtain rfl := Option.some.inj h
    exact .add hp ha hmode
  · next hmode =>
    obtain rfl := Option.some.inj h
    exact .skip hp ha (by simpa using hmode)

/-- **Inversion of a step.** -/
theorem WorkState.move_of_step (h : s.step a = some s') : WorkMove s a s' := by
  cases a with
  | main a =>
    simp only [step] at h
    split at h
    · next hp =>
      simp only [mainStep] at h
      split at h
      · next hmain =>
        split at h
        · next hsem => exact Option.some.inj h ▸ .permit hp (Or.inl ⟨rfl, hmain⟩) hsem
        · cases h
      · next submit hmain => exact Option.some.inj h ▸ .fetched submit hp hmain
      · next submit hmain => exact .of_addMode hp (hmain ▸ .debug submit) h
      · next submit hmain => exact .of_addMode hp (hmain ▸ .release submit) h
      · next hmain =>
        split at h
        · next hsem => exact Option.some.inj h ▸ .permit hp (Or.inr ⟨rfl, hmain⟩) hsem
        · next hsem => exact Option.some.inj h ▸ .tryWait hp hmain (Nat.eq_zero_of_not_pos hsem)
      · next hmain => exact Option.some.inj h ▸ .update hp hmain
      · cases h
    · cases h
  | pool a =>
    by_cases hrun : ∃ w, a = .run w
    · obtain ⟨w, rfl⟩ := hrun
      obtain ⟨pool, hpool, h⟩ := Option.bind_eq_some_iff.mp h
      obtain ⟨judges, hjudges, rfl⟩ := Option.map_eq_some_iff.mp h
      exact .run hpool hjudges
    · have hstep : s.step (.pool a) =
          if a.byItself then (s.pool.step a).map fun pool => { s with pool := pool } else none := by
        cases a with
        | run w => exact absurd ⟨w, rfl⟩ hrun
        | _ => rfl
      rw [hstep] at h
      split at h
      · next ha =>
        obtain ⟨pool, hpool, rfl⟩ := Option.map_eq_some_iff.mp h
        exact .pool ha hpool
      · cases h
  | task w a =>
    simp only [step] at h
    split at h
    · cases h
    · next hw hne =>
      obtain ⟨judges, hjudges, rfl⟩ := Option.map_eq_some_iff.mp h
      exact .task hne hw hjudges
    · cases h

/-! ### The parts -/

/-- What a step does to the pool. -/
theorem WorkMove.pool_step (h : WorkMove s a s') :
    s'.pool = s.pool ∨ ∃ b, b ≠ .destroy ∧ s.pool.step b = some s'.pool := by
  cases h with
  | @add a submit mode next hp ha hmode =>
    exact Or.inr ⟨.call () { submit with sbmCurMode := mode }, by simp,
      by simp only [PoolState.step, hp]⟩
  | @pool a pool ha h =>
    refine Or.inr ⟨a, ?_, h⟩
    rintro rfl
    cases ha
  | run hpool hjudges => exact Or.inr ⟨_, by simp, hpool⟩
  | _ => exact Or.inl rfl

/-- What a step does to the judges. -/
theorem WorkMove.judges_step (h : WorkMove s a s') :
    s'.judges = s.judges ∨ ∃ b, s.judges.step b = some s'.judges := by
  cases h with
  | run hpool hjudges => exact Or.inr ⟨_, hjudges⟩
  | task ha hw hjudges => exact Or.inr ⟨_, hjudges⟩
  | _ => exact Or.inl rfl

/-- **What is proved of the pool holds in the daemon.** -/
theorem pool_of_nojd (h : (nojd N).Reachable s) : (threadPool Unit Submission N).Reachable s.pool :=
  h.map WorkState.pool (by rintro _ rfl; rfl) fun _ _ _ hstep =>
    (WorkState.move_of_step hstep).pool_step.imp_right fun ⟨b, _, hb⟩ => ⟨b, hb⟩

/-- **What is proved of the judges holds in the daemon.** -/
theorem judges_of_nojd (h : (nojd N).Reachable s) : (judges N (Fin N)).Reachable s.judges :=
  h.map WorkState.judges (by rintro _ rfl; rfl) fun _ _ _ hstep =>
    (WorkState.move_of_step hstep).judges_step

/-- The pool is open. -/
theorem open_of_nojd (h : (nojd N).Reachable s) : s.pool.mShutdown = false := by
  refine h.invariant (I := fun s => s.pool.mShutdown = false) (by rintro _ rfl; rfl) ?_
  intro s a s' _ hopen _ hstep
  rcases (WorkState.move_of_step hstep).pool_step with hsame | ⟨b, hb, hpool⟩
  · rwa [hsame]
  · exact PoolState.open_of_step hpool hopen hb

/-! ### The workers and their judges -/

/-- A worker that runs its task goes on to do so until the task returns. -/
theorem PoolState.running_of_step {P τ : Type} [DecidableEq P] {n : ℕ} {s s' : PoolState P τ n}
    {a : PoolStep P τ n} {w : Fin n} {k : ℕ} {task : τ} (h : s.step a = some s')
    (ha : a ≠ .run w) (hw : s.worker w = .running k task) : s'.worker w = .running k task := by
  by_cases howed : a.OwedTo (.worker w)
  · cases a with
    | enter v | lock v | test v | wait v | relock v | leave v | check v | discard v | free v =>
      obtain rfl : w = v := by simpa [PoolStep.OwedTo] using howed
      simp [step, hw] at h
    | run v =>
      obtain rfl : w = v := by simpa [PoolStep.OwedTo] using howed
      exact absurd rfl ha
    | _ => simp [PoolStep.OwedTo] at howed
  · rcases worker_of_not_owed h howed with hstay | ⟨hwaiting, -⟩
    · rw [hstay, hw]
    · rw [hw] at hwaiting
      cases hwaiting

/-- A step of one user of the judges leaves the others where they are. -/
theorem JudgesState.loc_of_step {ι : Type*} [DecidableEq ι] {s s' : JudgesState N ι} {i j : ι}
    {a : TaskStep} (h : s.step (i, a) = some s') (hj : j ≠ i) : s'.loc j = s.loc j := by
  rcases JudgesState.step_cases h with ⟨-, -, rfl⟩ | ⟨-, -, -, rfl⟩ | ⟨-, -, rfl⟩ |
    ⟨-, jdg, -, rfl⟩ | ⟨-, -, rfl⟩ | ⟨-, -, rfl⟩ <;> exact Function.update_of_ne hj ..

/-- **Only a worker that runs its task has to do with the judges.** -/
def WorkState.BusyInv (s : WorkState N) : Prop :=
  ∀ w, s.judges.loc w ≠ .idle → ∃ k task, s.pool.worker w = .running k task

theorem WorkState.BusyInv.move (hinv : s.BusyInv) (h : WorkMove s a s') : s'.BusyInv := by
  cases h with
  | pool ha h =>
    intro w hw
    obtain ⟨k, task, hrun⟩ := hinv w hw
    exact ⟨k, task, PoolState.running_of_step h (by rintro rfl; cases ha) hrun⟩
  | @run w pool judges hpool hjudges =>
    intro v hv
    have hvw : v ≠ w := by
      rintro rfl
      rcases JudgesState.step_cases hjudges with ⟨ha, -⟩ | ⟨ha, -⟩ | ⟨ha, -⟩ | ⟨ha, -⟩ | ⟨ha, -⟩ |
        ⟨-, -, rfl⟩
      all_goals first | cases ha | exact hv (Function.update_self ..)
    obtain ⟨k, task, hrun⟩ := hinv v (JudgesState.loc_of_step hjudges hvw ▸ hv)
    exact ⟨k, task, PoolState.running_of_step hpool (by simpa using hvw.symm) hrun⟩
  | @task w a k task judges ha hw hjudges =>
    intro v hv
    by_cases hvw : v = w
    · exact ⟨k, task, hvw ▸ hw⟩
    · exact hinv v (JudgesState.loc_of_step hjudges hvw ▸ hv)
  | _ => exact hinv

theorem busy_of_nojd (h : (nojd N).Reachable s) : s.BusyInv :=
  h.invariant (by rintro _ rfl w hw; exact absurd rfl hw)
    fun _ _ _ _ hinv _ hstep => hinv.move (WorkState.move_of_step hstep)

/-! ### What becomes of the submissions -/

/-- The task that a call of `add_task` has not yet put into the queue. -/
def ProducerLoc.atHand {τ : Type} : ProducerLoc τ → List τ
  | .locking task | .locked task => [task]
  | _ => []

/-- The tasks that the main loop has still to add for the submission at hand. -/
def MainLoc.toAdd : MainLoc → List Submission
  | .addDebug submit => tasksOf submit
  | .addRelease submit =>
    if submit.hasMode .release then [{ submit with sbmCurMode := .release }] else []
  | _ => []

/-- A call of `add_task` puts its task into the queue. -/
theorem PoolState.added_of_step {P τ : Type} [DecidableEq P] [Subsingleton P] {n : ℕ}
    {s s' : PoolState P τ n} {a : PoolStep P τ n} {p : P} (h : s.step a = some s')
    (ha : ∀ q task, a ≠ .call q task) :
    s'.history.added ++ (s'.producer p).atHand = s.history.added ++ (s.producer p).atHand := by
  cases a with
  | call q task => exact absurd rfl (ha q task)
  | lockAdd q =>
    obtain rfl : p = q := Subsingleton.elim _ _
    simp only [step] at h
    split at h
    · next hl hm =>
      obtain rfl := Option.some.inj h
      simp [hl, ProducerLoc.atHand, setProducer]
    · cases h
  | push q =>
    obtain rfl : p = q := Subsingleton.elim _ _
    simp only [step] at h
    split at h
    · next hl =>
      obtain rfl := Option.some.inj h
      simp [hl, ProducerLoc.atHand]
    · cases h
  | signal q woken =>
    obtain rfl : p = q := Subsingleton.elim _ _
    have hsignal : s.producer p = .signalling ∧ s'.history = s.history ∧
        s'.producer = (s.setProducer p .idle).producer := by
      rcases woken with _ | w <;> simp only [step] at h <;> repeat' split at h
      all_goals first | (cases h; exact ⟨‹_›, rfl, rfl⟩) | cases h
    obtain ⟨hl, hhistory, hproducer⟩ := hsignal
    rw [hhistory, hproducer, hl, setProducer_producer_self]
    rfl
  | _ =>
    simp only [step] at h
    repeat' split at h
    all_goals first | cases h; rfl | cases h

/-- The modes of a submission, one test after the other. -/
theorem AddsMode.toAdd {a : MainStep} {main next : MainLoc} {submit : Submission}
    {mode : NojJudgeMode} (h : AddsMode a main submit mode next) :
    main.toAdd =
      (if submit.hasMode mode then [{ submit with sbmCurMode := mode }] else []) ++ next.toAdd := by
  cases h with
  | debug =>
    cases hdebug : submit.hasMode .debug <;> cases hrelease : submit.hasMode .release <;>
      simp [MainLoc.toAdd, tasksOf, hdebug, hrelease]
  | release => simp [MainLoc.toAdd]

/-- **The account of the submissions**: the tasks of those that were fetched have been added, or
are at hand in `add_task` or in the main loop. -/
def WorkState.FetchedInv (s : WorkState N) : Prop :=
  s.fetched.flatMap tasksOf =
    s.pool.history.added ++ (s.pool.producer ()).atHand ++ s.main.toAdd

theorem WorkState.FetchedInv.move (hinv : s.FetchedInv) (h : WorkMove s a s') : s'.FetchedInv := by
  have hold : s.fetched.flatMap tasksOf = _ := hinv
  have hpool : ∀ {b pool}, s.pool.step b = some pool → (∀ q task, b ≠ .call q task) →
      s.fetched.flatMap tasksOf =
        pool.history.added ++ (pool.producer ()).atHand ++ s.main.toAdd := fun hb hcall => by
    rw [PoolState.added_of_step hb hcall, hold]
  cases h with
  | fetched submit hp hmain =>
    rw [hp, hmain] at hold
    simp only [FetchedInv, List.flatMap_append, hold]
    simp [hp, ProducerLoc.atHand, MainLoc.toAdd]
  | add hp ha hmode =>
    rw [hp, ha.toAdd, if_pos hmode] at hold
    simpa [FetchedInv, ProducerLoc.atHand, PoolState.setProducer] using hold
  | skip hp ha hmode =>
    rw [ha.toAdd, if_neg (by simp [hmode])] at hold
    simpa [FetchedInv] using hold
  | permit hp ha hsem =>
    rcases ha with ⟨-, hmain⟩ | ⟨-, hmain⟩ <;> rw [hmain] at hold <;> exact hold
  | tryWait hp hmain hsem | update hp hmain =>
    rw [hmain] at hold
    exact hold
  | @pool b pool hb h => exact hpool h fun q task hcall => by rw [hcall] at hb; cases hb
  | run h hjudges => exact hpool h fun q task hcall => by cases hcall
  | task ha hw hjudges => exact hold

theorem fetched_of_nojd (h : (nojd N).Reachable s) : s.FetchedInv :=
  h.invariant (by rintro _ rfl; rfl)
    fun _ _ _ _ hinv _ hstep => hinv.move (WorkState.move_of_step hstep)

/-! ### The judges suffice -/

/-- The worker has a judge, or a judge is set aside for it. -/
def TaskLoc.hasJudge : TaskLoc N → Bool
  | .passedSem | .using (some _) | .freed => true
  | _ => false

/-- **With as many judges as users, `sem_wait` finds the semaphore up.** -/
theorem JudgesInv.sem_pos {s : JudgesState N (Fin N)} (hinv : JudgesInv s) {w : Fin N}
    (hw : s.loc w = .requesting) : 0 < s.jmSemJudge := by
  -- every judge is available or used, and what is used is in the hands of one user
  have hflags : countAt .available s.jmJudgesFlag + ∑ j, countAt (.using (some j)) s.loc = N := by
    have hone : ∀ j, (if s.jmJudgesFlag j = .available then 1 else 0) +
        countAt (.using (some j)) s.loc = 1 := fun j => by
      rw [hinv.held j]
      cases s.jmJudgesFlag j <;> simp
    have hsum := Finset.sum_congr rfl fun j (_ : j ∈ Finset.univ) => hone j
    rw [Finset.sum_add_distrib] at hsum
    simpa [countAt, countIn_eq_sum] using hsum
  have hloc : countIn (·.hasJudge = true) s.loc = countAt .passedSem s.loc +
      countAt .freed s.loc + ∑ j, countAt (.using (some j)) s.loc := by
    simp only [countAt, countIn_eq_sum]
    rw [Finset.sum_comm, ← Finset.sum_add_distrib, ← Finset.sum_add_distrib]
    refine Finset.sum_congr rfl fun v _ => ?_
    rcases hv : s.loc v with _ | _ | _ | ⟨_ | j⟩ | _ | _ <;> simp [TaskLoc.hasJudge]
  have hlt : countIn (·.hasJudge = true) s.loc < N := by
    simpa using countIn_lt_card (p := (·.hasJudge = true)) (f := s.loc) (i := w)
      (by simp [hw, TaskLoc.hasJudge])
  have havailable := hinv.available
  omega

/-- **Every mode of every submission is judged once.** In every state of every run of the daemon,
the tasks of the submissions fetched are, in the order of the fetches, those taken out of the
queue, those in it, the one in the hands of `add_task` and those that the main loop has still to
add. A task that was taken out is in the hands of one worker, or was run once. A worker that has
to do with the judges runs the task that it took out, no two workers have the same judge, and the
`sem_wait` of `get_judge` does not block. -/
theorem nojd_judges (h : (nojd N).Reachable s) :
    s.fetched.flatMap tasksOf = s.pool.history.popped ++ s.pool.mQueTasks ++
        (s.pool.producer ()).atHand ++ s.main.toAdd ∧
      (∀ k < s.pool.history.popped.length,
        ((∃! w, (s.pool.worker w).unrun = some k) ∧ s.pool.history.runs k = 0) ∨
        ((∀ w, (s.pool.worker w).unrun ≠ some k) ∧ s.pool.history.runs k = 1)) ∧
      (∀ w, s.judges.loc w ≠ .idle → ∃ k task, s.pool.worker w = .running k task ∧
        s.pool.history.popped[k]? = some task) ∧
      (∀ v w j, s.judges.loc v = .using (some j) → s.judges.loc w = .using (some j) → v = w) ∧
      ∀ w, s.judges.loc w ≠ .using none ∧
        (s.judges.loc w = .requesting → 0 < s.judges.jmSemJudge) := by
  have htasks := taskInv_of_reachable (pool_of_nojd h)
  have hjudges := judgesInv_of_reachable (judges_of_nojd h)
  refine ⟨?_, fun k hk => ?_, fun w hw => ?_, fun v w j => hjudges.eq_of_using,
    fun w => ⟨hjudges.notNull w, hjudges.sem_pos⟩⟩
  · rw [← htasks.fifo]
    exact fetched_of_nojd h
  · have hsum : countTask WorkerLoc.unrun k s.pool.worker + s.pool.history.runs k
        + s.pool.history.drops k = 1 := (htasks.unrun k).trans (if_pos hk)
    have hdrops : s.pool.history.drops k = 0 := by
      by_contra hne
      have hshut := htasks.dropped k (Nat.pos_of_ne_zero hne)
      rw [open_of_nojd h] at hshut
      cases hshut
    have hone : countTask WorkerLoc.unrun k s.pool.worker = 1 →
        ∃! w, (s.pool.worker w).unrun = some k := countIn_eq_one_iff.mp
    have hnone : countTask WorkerLoc.unrun k s.pool.worker = 0 →
        ∀ w, (s.pool.worker w).unrun ≠ some k := countIn_eq_zero_iff.mp
    rcases Nat.eq_zero_or_pos (s.pool.history.runs k) with hruns | hruns
    · exact Or.inl ⟨hone (by omega), hruns⟩
    · exact Or.inr ⟨hnone (by omega), by omega⟩
  · obtain ⟨k, task, hrun⟩ := busy_of_nojd h w hw
    exact ⟨k, task, hrun, htasks.held w k task (by rw [hrun]; rfl)⟩

/-- A submission in release mode: the only worker has the only judge. -/
theorem nojd_judges_released : ∃ s : WorkState 1,
    s.fetched = [.released 1000 7] ∧ s.judges.loc 0 = .using (some 0) ∧
      s.pool.history.popped ++ s.pool.mQueTasks ++ (s.pool.producer ()).atHand ++ s.main.toAdd =
        tasksOf (.released 1000 7) := by
  have hrun : (nojd 1).Reachable _ := TransSystem.reachable_of_run rfl
    (show (nojd 1).run (WorkState.initNojd 1)
      [.main .semWait, .main (.fetched (.released 1000 7)), .main .addDebug, .main .addRelease,
        .pool (.lockAdd ()), .pool (.push ()), .pool (.enter 0), .pool (.lock 0), .pool (.test 0),
        .pool (.leave 0), .pool (.check 0), .task 0 .request, .task 0 .semWait, .task 0 .take] =
      some _ from rfl)
  exact ⟨_, rfl, rfl, (nojd_judges hrun).1.symm⟩

/-! ### The view from far away -/

/-- Where a worker is with respect to the judges, as the coarse system sees it: a worker that has
taken a task out asks for a judge from then on. -/
def WorkState.seenLoc (s : WorkState N) (w : Fin N) : TaskLoc N :=
  if s.judges.loc w = .idle ∧ (s.pool.worker w).unrun.isSome then .requesting else s.judges.loc w

/-- **What the coarse system sees**: the task in the hands of `add_task` is in the queue. -/
def WorkState.toLoop (s : WorkState N) : LoopState N (Fin N) where
  main := s.main
  jmSemFetchSubmissions := s.jmSemFetchSubmissions
  queTasks := s.pool.mQueTasks ++ (s.pool.producer ()).atHand
  judges := { s.judges with loc := s.seenLoc }

theorem WorkState.seenLoc_of_ne_idle (hw : s.judges.loc w ≠ .idle) :
    s.seenLoc w = s.judges.loc w :=
  if_neg fun h => hw h.1

/-- A step of the pool that leaves alone what its workers have yet to run, and the tasks that are
queued or at hand, is not seen. -/
theorem WorkState.toLoop_of_pool {pool : PoolState Unit Submission N}
    (hunrun : ∀ w, (pool.worker w).unrun = (s.pool.worker w).unrun)
    (hque : pool.mQueTasks ++ (pool.producer ()).atHand =
      s.pool.mQueTasks ++ (s.pool.producer ()).atHand) :
    { s with pool := pool }.toLoop = s.toLoop := by
  have hseen : { s with pool := pool }.seenLoc = s.seenLoc :=
    funext fun w => by simp only [seenLoc, hunrun w]
  simp only [toLoop, hseen, hque]

/-- What the pool does by itself: nothing that is seen from far away, or a worker takes a task out
of the queue. -/
theorem PoolState.seen_of_step {P τ : Type} [DecidableEq P] [Subsingleton P] {n : ℕ}
    {s s' : PoolState P τ n} {a : PoolStep P τ n} (p : P) (h : s.step a = some s')
    (ha : a.byItself = true) (hopen : s.mShutdown = false) (hqueue : s.QueueInv)
    (hin : ∀ w, (s.worker w).isLeaving = false) :
    ((∀ w, (s'.worker w).unrun = (s.worker w).unrun) ∧
      s'.mQueTasks ++ (s'.producer p).atHand = s.mQueTasks ++ (s.producer p).atHand) ∨
    ∃ w task rest, a = .leave w ∧ s.worker w = .loopExit ∧ s.mQueTasks = task :: rest ∧
      s' = { s.setWorker w (.got s.history.popped.length task) with
        mutex := none
        mQueTasks := rest
        history := { s.history with popped := s.history.popped ++ [task] } } := by
  have hworker : ∀ {v : Fin n} {l : WorkerLoc τ}, l.unrun = (s.worker v).unrun →
      ∀ w, ((s.setWorker v l).worker w).unrun = (s.worker w).unrun := fun {v l} hl w => by
    rcases eq_or_ne w v with rfl | hw
    · rw [setWorker_worker_self, hl]
    · rw [setWorker_worker_of_ne s l hw]
  have hstays : ∀ {v : Fin n}, (s.worker v).isLeaving = true → False := fun hv => by
    simp [hin] at hv
  cases a with
  | call q task | run v | destroy | broadcast | join => cases ha
  | lockAdd q =>
    obtain rfl : p = q := Subsingleton.elim _ _
    simp only [step] at h
    split at h
    · next hl hm =>
      obtain rfl := Option.some.inj h
      exact Or.inl ⟨fun _ => rfl, by simp [hl, ProducerLoc.atHand, setProducer]⟩
    · cases h
  | push q =>
    obtain rfl : p = q := Subsingleton.elim _ _
    simp only [step] at h
    split at h
    · next hl =>
      obtain rfl := Option.some.inj h
      exact Or.inl ⟨fun _ => rfl, by simp [hl, ProducerLoc.atHand]⟩
    · cases h
  | signal q woken =>
    obtain rfl : p = q := Subsingleton.elim _ _
    refine Or.inl ?_
    rcases woken with _ | v <;> simp only [step] at h
    · split at h
      · next hl =>
        split at h
        · obtain rfl := Option.some.inj h
          exact ⟨fun _ => rfl, by rw [setProducer_producer_self, hl]; rfl⟩
        · cases h
      · cases h
    · split at h
      · next hl hv =>
        obtain rfl := Option.some.inj h
        exact ⟨hworker (v := v) (by rw [hv]; rfl), by
          change s.mQueTasks ++ ((s.setProducer p .idle).producer p).atHand = _
          rw [setProducer_producer_self, hl]
          rfl⟩
      · cases h
  | leave v =>
    simp only [step, hopen] at h
    split at h
    · next hl =>
      split at h
      · next hs => cases hs
      · split at h
        · next task rest hq => exact Or.inr ⟨v, task, rest, rfl, hl, hq, (Option.some.inj h).symm⟩
        · next hq => exact absurd hq ((hqueue.nonempty v hl).resolve_right (by simp [hopen]))
    · cases h
  | check v =>
    simp only [step] at h
    split at h
    · next hl => exact (hstays (by rw [hl]; rfl)).elim
    · next hl =>
      obtain rfl := Option.some.inj h
      exact Or.inl ⟨hworker (by rw [hl, hopen]; rfl), rfl⟩
    · cases h
  | discard v =>
    simp only [step] at h
    split at h
    · next hl => exact (hstays (by rw [hl]; rfl)).elim
    · cases h
  | test v =>
    simp only [step] at h
    split at h
    · next hl =>
      obtain rfl := Option.some.inj h
      exact Or.inl ⟨hworker (by rw [hl]; split <;> rfl), rfl⟩
    · cases h
  | enter v | lock v | wait v | spurious v | relock v | free v =>
    simp only [step] at h
    split at h
    · obtain rfl := Option.some.inj h
      exact Or.inl ⟨hworker (by simp [*, WorkerLoc.unrun]), rfl⟩
    · cases h

/-- What a user of the judges does depends on where it is, not on where the others are. -/
theorem JudgesState.step_withLoc {ι : Type*} [DecidableEq ι] {s s' : JudgesState N ι} {i : ι}
    {a : TaskStep} {loc : ι → TaskLoc N} (h : s.step (i, a) = some s') (hi : loc i = s.loc i) :
    { s with loc := loc }.step (i, a) =
      some { s' with loc := Function.update loc i (s'.loc i) } := by
  rcases JudgesState.step_cases h with ⟨rfl, hloc, rfl⟩ | ⟨rfl, hloc, hsem, rfl⟩ |
    ⟨rfl, hloc, rfl⟩ | ⟨rfl, jdg, hloc, rfl⟩ | ⟨rfl, hloc, rfl⟩ | ⟨rfl, hloc, rfl⟩ <;>
    simp [step, move, *]

/-- A step of one worker moves one worker there. -/
theorem WorkState.seenLoc_update (hothers : ∀ v, v ≠ w → s'.judges.loc v = s.judges.loc v ∧
    (s'.pool.worker v).unrun = (s.pool.worker v).unrun) :
    s'.seenLoc = Function.update s.seenLoc w (s'.seenLoc w) := by
  refine Function.eq_update_iff.mpr ⟨rfl, fun v hv => ?_⟩
  obtain ⟨hloc, hunrun⟩ := hothers v hv
  rw [seenLoc, seenLoc, hloc, hunrun]

/-- A test for a mode is seen as what it is. -/
theorem WorkState.toLoop_addMode {a : MainStep} {submit : Submission} {mode : NojJudgeMode}
    {next : MainLoc} (h : AddsMode a s.main submit mode next) :
    ∃ b : LoopStep (Fin N), (∀ submit', b = .fetched submit' →
        WorkStep.main a = (.main (.fetched submit') : WorkStep N)) ∧
      s.toLoop.step b = some (s.toLoop.addMode submit mode next) := by
  have hmain : s.toLoop.main = s.main := rfl
  generalize s.main = main at h hmain
  cases h with
  | debug => exact ⟨.addDebug, by simp, by simp only [LoopState.step, hmain]⟩
  | release => exact ⟨.addRelease, by simp, by simp only [LoopState.step, hmain]⟩

/-- A worker that takes a task out is seen to take it off the queue and to ask for a judge. -/
theorem WorkState.toLoop_leave {k : ℕ} {task : Submission} {rest : List Submission}
    (hque : s.pool.mQueTasks = task :: rest) (hw : s.pool.worker w = .loopExit)
    (hidle : s.judges.loc w = .idle)
    (hworker : s'.pool.worker = (s.pool.setWorker w (.got k task)).worker)
    (hque' : s'.pool.mQueTasks = rest) (hproducer : s'.pool.producer = s.pool.producer)
    (hrest : s'.main = s.main ∧ s'.jmSemFetchSubmissions = s.jmSemFetchSubmissions ∧
      s'.judges = s.judges) :
    s.toLoop.step (.worker w .request) = some s'.toLoop := by
  obtain ⟨hmain, hsem, hjudges⟩ := hrest
  have hseen : s.seenLoc w = .idle := by rw [seenLoc, hidle, hw]; rfl
  have hseen' : s'.seenLoc w = .requesting := by
    rw [seenLoc, hjudges, hidle, hworker, PoolState.setWorker_worker_self]
    rfl
  have hloc : s'.seenLoc = Function.update s.seenLoc w .requesting := by
    rw [← hseen']
    refine seenLoc_update fun v hv => ⟨by rw [hjudges], ?_⟩
    rw [hworker, PoolState.setWorker_worker_of_ne _ _ hv]
  simp only [LoopState.step, LoopState.workerStep, toLoop, JudgesState.step, hseen, hque, hque',
    hproducer, hmain, hsem, hjudges, hloc]
  rfl

/-- A task that returns is seen to return a permit. -/
theorem WorkState.toLoop_run (hjudges : s.judges.step (w, .postFetch) = some s'.judges)
    (hworker : ∃ k task, s'.pool.worker = (s.pool.setWorker w (.ran k task)).worker)
    (hrest : s'.main = s.main ∧ s'.jmSemFetchSubmissions = s.jmSemFetchSubmissions + 1 ∧
      s'.pool.mQueTasks = s.pool.mQueTasks ∧ s'.pool.producer = s.pool.producer) :
    s.toLoop.step (.worker w .postFetch) = some s'.toLoop := by
  obtain ⟨hmain, hsem, hque, hproducer⟩ := hrest
  obtain ⟨k, task, hworker⟩ := hworker
  have hne : s.judges.loc w ≠ .idle := by
    intro hidle
    simp [JudgesState.step, hidle] at hjudges
  have hseen' : s'.seenLoc w = s'.judges.loc w := by
    rw [seenLoc, hworker, PoolState.setWorker_worker_self]
    exact if_neg fun h => by cases h.2
  have hloc : s'.seenLoc = Function.update s.seenLoc w (s'.judges.loc w) := by
    rw [← hseen']
    refine seenLoc_update fun v hv => ⟨JudgesState.loc_of_step hjudges hv, ?_⟩
    rw [hworker, PoolState.setWorker_worker_of_ne _ _ hv]
  have hstep := JudgesState.step_withLoc hjudges (seenLoc_of_ne_idle hne)
  simp only [LoopState.step, LoopState.workerStep, toLoop, hstep, hque, hproducer, hmain, hsem,
    hloc, Option.bind_some]

/-- What a task does in between is seen, but for its first step. -/
theorem WorkState.toLoop_task {b : TaskStep} {k : ℕ} {task : Submission}
    {judges : JudgesState N (Fin N)} (hb : b ≠ .postFetch)
    (hw : s.pool.worker w = .running k task) (hjudges : s.judges.step (w, b) = some judges) :
    { s with judges := judges }.toLoop = s.toLoop ∨
      s.toLoop.step (.worker w b) = some { s with judges := judges }.toLoop := by
  have hloc : { s with judges := judges }.seenLoc =
      Function.update s.seenLoc w ({ s with judges := judges }.seenLoc w) :=
    seenLoc_update fun v hv => ⟨JudgesState.loc_of_step hjudges hv, rfl⟩
  by_cases hidle : s.judges.loc w = .idle
  · -- it asks for a judge, and is seen to do so already
    obtain ⟨rfl, rfl⟩ : b = .request ∧ judges = s.judges.move w .requesting := by
      cases b <;> simp_all [JudgesState.step]
    have hseen : s.seenLoc w = .requesting := by rw [seenLoc, hidle, hw]; rfl
    have hseen' : { s with judges := s.judges.move w .requesting }.seenLoc w = .requesting := by
      simp [seenLoc, JudgesState.move]
    have hsame : Function.update s.seenLoc w .requesting = s.seenLoc := by
      rw [← hseen, Function.update_eq_self]
    rw [hseen', hsame] at hloc
    left
    simp only [toLoop, hloc]
    rfl
  · have hne : judges.loc w ≠ .idle := by
      rcases JudgesState.step_cases hjudges with ⟨-, -, rfl⟩ | ⟨-, -, -, rfl⟩ | ⟨-, -, rfl⟩ |
        ⟨-, jdg, -, rfl⟩ | ⟨-, -, rfl⟩ | ⟨rfl, -⟩
      all_goals first | exact absurd rfl hb | simp [JudgesState.move]
    have hrequest : b ≠ .request := by
      rintro rfl
      simp [JudgesState.step, hidle] at hjudges
    rw [seenLoc_of_ne_idle hne] at hloc
    have hstep := JudgesState.step_withLoc hjudges (seenLoc_of_ne_idle hidle)
    right
    simp only [LoopState.step, LoopState.workerStep, toLoop, hstep, hloc, Option.bind_some]
    cases b <;> first | rfl | contradiction

/-- **Every step of the daemon is a step of the coarse system** or is not seen there, and nothing
is fetched there that is not fetched here. -/
theorem WorkState.toLoop_of_step (hreach : (nojd N).Reachable s) (h : s.step a = some s') :
    s'.toLoop = s.toLoop ∨
      ∃ b, (∀ submit, b = .fetched submit → a = .main (.fetched submit)) ∧
        s.toLoop.step b = some s'.toLoop := by
  have hbusy := busy_of_nojd hreach
  cases move_of_step h with
  | @permit a hp ha hsem =>
    rcases ha with ⟨rfl, hmain⟩ | ⟨rfl, hmain⟩
    · exact Or.inr ⟨.semWait, by simp, by simp [LoopState.step, toLoop, hmain, hsem]; rfl⟩
    · exact Or.inr ⟨.tryWait, by simp, by simp [LoopState.step, toLoop, hmain, hsem]; rfl⟩
  | fetched submit hp hmain =>
    exact Or.inr ⟨.fetched submit, by simp, by simp [LoopState.step, toLoop, hmain]; rfl⟩
  | tryWait hp hmain hsem =>
    exact Or.inr ⟨.tryWait, by simp, by simp [LoopState.step, toLoop, hmain, hsem]; rfl⟩
  | update hp hmain =>
    exact Or.inr ⟨.update, by simp, by simp [LoopState.step, toLoop, hmain]; rfl⟩
  | @add a submit mode next hp ha hmode =>
    have hadd : { s with
        main := next
        pool := s.pool.setProducer () (.locking { submit with sbmCurMode := mode }) }.toLoop =
          s.toLoop.addMode submit mode next := by
      rw [LoopState.addMode, if_pos hmode]
      simp [toLoop, hp, ProducerLoc.atHand, PoolState.setProducer, seenLoc, funext_iff]
    rw [hadd]
    exact Or.inr (toLoop_addMode ha)
  | @skip a submit mode next hp ha hmode =>
    have hskip : { s with main := next }.toLoop = s.toLoop.addMode submit mode next := by
      rw [LoopState.addMode, if_neg (by simp [hmode])]
      rfl
    rw [hskip]
    exact Or.inr (toLoop_addMode ha)
  | @pool b pool hb hpool =>
    have hopen := open_of_nojd hreach
    rcases PoolState.seen_of_step () hpool hb hopen (queue_of_reachable (pool_of_nojd hreach))
      (not_leaving_of_reachable (pool_of_nojd hreach) hopen) with ⟨hunrun, hque⟩ |
        ⟨w, task, rest, rfl, hw, hque, rfl⟩
    · exact Or.inl (toLoop_of_pool hunrun hque)
    -- a worker takes a task out
    · have hidle : s.judges.loc w = .idle := by
        by_contra hne
        obtain ⟨k, task, hrun⟩ := hbusy w hne
        rw [hw] at hrun
        cases hrun
      exact Or.inr ⟨.worker w .request, by simp,
        toLoop_leave hque hw hidle rfl rfl rfl ⟨rfl, rfl, rfl⟩⟩
  | @run w pool judges hpool hjudges =>
    simp only [PoolState.step] at hpool
    split at hpool
    · next k task hw =>
      obtain rfl := Option.some.inj hpool
      exact Or.inr ⟨.worker w .postFetch, by simp,
        toLoop_run hjudges ⟨k, task, rfl⟩ ⟨rfl, rfl, rfl, rfl⟩⟩
    · cases hpool
  | @task w b k task judges hb hw hjudges =>
    exact (toLoop_task hb hw hjudges).imp_right fun hstep =>
      ⟨.worker w b, by simp, hstep⟩

/-- A submission that `fetch_submission_from_db` returns, for some answers of the server. -/
def FetchedBy (ctx : LoadContext) (submit : Submission) : Prop :=
  ∃ submit₀ replies s rest, fetchSubmissionFromDb ctx submit₀ replies = .ret (s, rest) ∧
    s.submit = submit

/-- The main loop fetches what `fetch_submission_from_db` returns. -/
def FetchesFromDb (ctx : LoadContext) (_ : WorkState N) : WorkStep N → Prop
  | .main (.fetched submit) => FetchedBy ctx submit
  | _ => True

theorem loopRoutine_of_nojd {ctx : LoadContext} (h : (nojd N).ReachableBy (FetchesFromDb ctx) s) :
    (loopRoutine N (Fin N)).ReachableBy FetchesOneMode s.toLoop := by
  refine h.map WorkState.toLoop ?_ fun s a s' hreach hok hstep => ?_
  · rintro _ rfl
    rfl
  · refine (WorkState.toLoop_of_step hreach hstep).imp_right fun ⟨b, hfetched, hb⟩ => ⟨b, ?_, hb⟩
    cases b with
    | fetched submit =>
      rw [hfetched submit rfl] at hok
      obtain ⟨submit₀, replies, st, rest, hret, rfl⟩ := hok
      exact fetchesOneMode s.toLoop hret
    | _ => trivial

/-- The workers that the coarse system sees at work have a task that they have not yet run. -/
theorem WorkState.running_toLoop (hbusy : s.BusyInv) :
    s.toLoop.judges.running = countIn (fun l => l.unrun.isSome = true) s.pool.worker :=
  countIn_congr fun w => by
    change s.seenLoc w ≠ .idle ↔ _
    by_cases hidle : s.judges.loc w = .idle
    · rw [seenLoc, hidle]
      cases (s.pool.worker w).unrun.isSome <;> simp
    · obtain ⟨k, task, hrun⟩ := hbusy w hidle
      rw [seenLoc_of_ne_idle hidle, hrun]
      exact iff_of_true hidle rfl

/-- The balance of permits, read in the daemon. -/
theorem permits_of_nojd {ctx : LoadContext} (h : (nojd N).ReachableBy (FetchesFromDb ctx) s) :
    s.pool.mQueTasks.length + (s.pool.producer ()).atHand.length +
        countIn (fun l => l.unrun.isSome = true) s.pool.worker +
      s.jmSemFetchSubmissions + permitPending s.main = N := by
  have hinv : PermitInv s.toLoop := (loopRoutine_of_nojd h).invariant
    (by rintro _ rfl; exact permitInv_init) fun _ _ _ _ hinv hok hstep => hinv.step hok hstep
  have hbalance := hinv.balance
  rw [WorkState.running_toLoop (busy_of_nojd h.reachable)] at hbalance
  have hque : s.toLoop.queTasks.length =
      s.pool.mQueTasks.length + (s.pool.producer ()).atHand.length := List.length_append
  rwa [hque] at hbalance

/-- **The daemon has never more tasks in flight than judges.** It is a refinement of the coarse
system, whose steps are all that is seen of its own; and as it fetches submissions to be judged in
one mode, the tasks that are queued or in the hands of `add_task`, the workers with a task to run,
the permits to be had and the one in the hands of the main loop add up to the number of judges. -/
theorem nojd_permits {ctx : LoadContext} (h : (nojd N).ReachableBy (FetchesFromDb ctx) s) :
    (loopRoutine N (Fin N)).ReachableBy FetchesOneMode s.toLoop ∧
      (∀ a s', (nojd N).step s a = some s' → s'.toLoop = s.toLoop ∨
        ∃ b, (loopRoutine N (Fin N)).step s.toLoop b = some s'.toLoop) ∧
      s.pool.mQueTasks.length + (s.pool.producer ()).atHand.length +
          countIn (fun l => l.unrun.isSome = true) s.pool.worker +
        s.jmSemFetchSubmissions + permitPending s.main = N ∧
      s.pool.mQueTasks.length ≤ N := by
  have hbalance := permits_of_nojd h
  have hseen : ∀ a s', (nojd N).step s a = some s' → s'.toLoop = s.toLoop ∨
      ∃ b, (loopRoutine N (Fin N)).step s.toLoop b = some s'.toLoop := by
    intro a s' hstep
    obtain hsame | ⟨b, -, hb⟩ := WorkState.toLoop_of_step h.reachable hstep
    · exact Or.inl hsame
    · exact Or.inr ⟨b, hb⟩
  exact ⟨loopRoutine_of_nojd h, hseen, hbalance, by omega⟩

/-- The submission that the daemon fetches from a row. -/
def fetchedFrom (row : FetchedRow) : Submission :=
  ((fetchRow nojContext ⟨.unfetched 0, []⟩ row).map FetchState.submit).getD (.unfetched 0)

theorem fetchedBy_fetchedFrom {row : FetchedRow} (h : row.Complete) :
    FetchedBy nojContext (fetchedFrom row) := by
  obtain ⟨s, hs⟩ := (exists_fetchRow_iff nojContext ⟨.unfetched 0, []⟩).mpr h
  refine ⟨.unfetched 0, [.results ⟨[row], []⟩], s, [], runLoop_cons_stop ?_, ?_⟩
  · simp [pollRound, hs]
  · rw [fetchedFrom, hs]
    rfl

/-- A row with a program in C. -/
def rowInC : FetchedRow := ⟨some "7", some "1000", some "7.c", some "C"⟩

/-- A submission whose task waits in the queue of a daemon with one judge. -/
theorem nojd_permits_oneJudge : ∃ s : WorkState 1, s.main = .tryWait ∧
    s.pool.mQueTasks.length = 1 ∧ s.pool.mQueTasks.length ≤ 1 := by
  have hrun : (nojd 1).ReachableBy (FetchesFromDb nojContext) _ :=
    TransSystem.ReachableBy.run (.init rfl)
      (show ∀ s, ∀ a ∈ [WorkStep.main .semWait,
          .main (.fetched (fetchedFrom rowInC)), .main .addDebug,
          .main .addRelease, .pool (.lockAdd ()), .pool (.push ())],
        FetchesFromDb nojContext (s : WorkState 1) a from fun s a ha => by
          simp only [List.mem_cons, List.not_mem_nil, or_false] at ha
          rcases ha with rfl | rfl | rfl | rfl | rfl | rfl
          exacts [trivial, fetchedBy_fetchedFrom (by decide), trivial, trivial, trivial, trivial])
      (show (nojd 1).run (WorkState.initNojd 1) _ = some _ from rfl)
  exact ⟨_, rfl, rfl, (nojd_permits hrun).2.2.2⟩

end AtWork

end NpuOj
