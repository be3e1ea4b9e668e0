import NpuOj.JudgeManager.AtWork

/-!
# Every submission is judged

The daemon does not lose a submission (`NpuOj.nojd_judges`). Here is that it gets to each of them:
whatever a scheduler does that is fair to the threads, the main loop comes back to
`fetch_submission_from_db` again and again, and the task of every submission that was fetched is
run to its end (`NpuOj.nojd_serves`). A fair scheduler does not owe the daemon a submission, nor
that a judging comes to its end: `init_work_dir` and `judge_sbm` may crash, end the daemon or wait
for ever, and that they return is an assumption of its own (`NpuOj.JudgingReturns`). Nor is there
a step that ends the daemon, as a query that fails in the fetch does: an execution is one in which
the threads go on. No assumption is made about the semaphores, since the judges suffice
(`NpuOj.JudgesInv.sem_pos`) and the permits come back (`NpuOj.nojd_permits`).

The argument is the one about the pool, seen through the projection of an execution. What is new
is that fairness has to be carried over: a worker that the pool would have go on may be inside
`JudgeTask::run`, and a thread that runs the main loop may be inside `add_task`
(`TransSystem.Execution.StronglyFair.narrow`).
-/

namespace NpuOj

/-- The steps of the main thread (`none`) or of a worker, but for the fetch of a submission. -/
def WorkStep.OfThread {N : ℕ} (t : Option (Fin N)) : WorkStep N → Prop
  | .main (.fetched _) => False
  | .main _ => t = none
  | .pool a => match t with
    | none => a.OwedTo (.producer ())
    | some w => a.OwedTo (.worker w)
  | .task w _ => t = some w

/-- The steps that a fair scheduler owes to a thread: all of these but the one that gives a judge
back, before which come `init_work_dir`, `judge_sbm` and `clear_work_dir`. -/
def WorkStep.OwedTo {N : ℕ} (t : Option (Fin N)) (a : WorkStep N) : Prop :=
  a.OfThread t ∧ ∀ w, a ≠ .task w .release

/-- The steps that a task has left with the judges. -/
def TaskLoc.stepsLeft {N : ℕ} : TaskLoc N → ℕ
  | .idle => 5
  | .requesting => 4
  | .passedSem => 3
  | .using _ => 2
  | .freed => 1
  | .posted => 0

/-- The tests that the main loop has to make before it fetches again. -/
def MainLoc.stepsToFetch : MainLoc → ℕ
  | .addDebug _ => 5
  | .addRelease _ => 4
  | .tryWait => 3
  | .update => 2
  | .semWait => 1
  | .fetch => 0

/-- The main loop is not inside `add_task` here. -/
def MainLoc.betweenCalls : MainLoc → Bool
  | .addRelease _ | .tryWait => false
  | _ => true

section Service

variable {N : ℕ} {s s' : WorkState N} {a : WorkStep N} {w : Fin N}

/-! ### The pool in an execution of the daemon -/

/-- What the pool sees of a step. -/
def WorkState.poolStep (s : WorkState N) : WorkStep N → Option (PoolStep Unit Submission N)
  | .pool a => some a
  | .main .addDebug => match s.main with
    | .addDebug submit =>
      if submit.hasMode .debug then some (.call () { submit with sbmCurMode := .debug }) else none
    | _ => none
  | .main .addRelease => match s.main with
    | .addRelease submit =>
      if submit.hasMode .release then some (.call () { submit with sbmCurMode := .release })
      else none
    | _ => none
  | _ => none

theorem WorkState.poolStep_of_addsMode {m : MainStep} {submit : Submission} {mode : NojJudgeMode}
    {next : MainLoc} (h : AddsMode m s.main submit mode next) :
    s.poolStep (.main m) =
      if submit.hasMode mode then some (.call () { submit with sbmCurMode := mode }) else none := by
  generalize hmain : s.main = main at h
  cases h <;> simp only [poolStep, hmain]

/-- The pool takes the step that it sees, or does not move. -/
theorem WorkMove.poolStep (h : WorkMove s a s') :
    (∃ b, s.poolStep a = some b ∧ s.pool.step b = some s'.pool) ∨
      s.poolStep a = none ∧ s'.pool = s.pool := by
  cases h with
  | @add m submit mode next hp ha hmode =>
    exact Or.inl ⟨_, by rw [s.poolStep_of_addsMode ha, if_pos hmode],
      by simp only [PoolState.step, hp]⟩
  | skip hp ha hmode =>
    exact Or.inr ⟨by rw [s.poolStep_of_addsMode ha, if_neg (by simp [hmode])], rfl⟩
  | pool ha h => exact Or.inl ⟨_, rfl, h⟩
  | run hpool hjudges => exact Or.inl ⟨_, rfl, hpool⟩
  | permit hp ha hsem =>
    rcases ha with ⟨rfl, -⟩ | ⟨rfl, -⟩ <;> exact Or.inr ⟨rfl, rfl⟩
  | fetched | tryWait | update | task => exact Or.inr ⟨rfl, rfl⟩

/-- **The pool in an execution of the daemon.** -/
def poolView {ok : WorkState N → WorkStep N → Prop} (e : (nojd N).Execution ok) :
    (threadPool Unit Submission N).Execution fun _ _ => True :=
  e.map WorkState.pool WorkState.poolStep
    (fun s a s' b hb h => by
      rcases (WorkState.move_of_step h).poolStep with ⟨b', hb', hstep⟩ | ⟨hnone, -⟩
      · obtain rfl := Option.some.inj (hb.symm.trans hb')
        exact hstep
      · rw [hb] at hnone
        cases hnone)
    fun s a s' hnone h => by
      rcases (WorkState.move_of_step h).poolStep with ⟨b', hb', -⟩ | ⟨-, hsame⟩
      · rw [hnone] at hb'
        cases hb'
      · exact hsame

/-! ### Fairness, seen from the pool -/

/-- A task comes closer to its end with every step. -/
theorem JudgesState.stepsLeft_of_step {s s' : JudgesState N (Fin N)} {b : TaskStep}
    (h : s.step (w, b) = some s') (hb : b ≠ .postFetch) :
    (s'.loc w).stepsLeft < (s.loc w).stepsLeft := by
  rcases JudgesState.step_cases h with ⟨-, hloc, rfl⟩ | ⟨-, hloc, -, rfl⟩ | ⟨-, hloc, rfl⟩ |
    ⟨-, jdg, hloc, rfl⟩ | ⟨-, hloc, rfl⟩ | ⟨rfl, -⟩
  all_goals first | exact absurd rfl hb | simp [JudgesState.move, hloc, TaskLoc.stepsLeft]

theorem WorkState.step_pool {b : PoolStep Unit Submission N} {pool : PoolState Unit Submission N}
    (hb : b.byItself = true) (h : s.pool.step b = some pool) :
    s.step (.pool b) = some { s with pool := pool } := by
  cases b with
  | run v => cases hb
  | _ => simp only [step, h, if_pos hb, Option.map_some]

/-- A worker that its pool would have go on can go on, be it inside `JudgeTask::run`. -/
theorem WorkState.enabled_worker (hreach : (nojd N).Reachable s)
    (h : (threadPool Unit Submission N).Enabled (PoolStep.OwedTo (.worker w)) s.pool) :
    (nojd N).Enabled (WorkStep.OfThread (some w)) s := by
  have hjudges := judgesInv_of_reachable (judges_of_nojd hreach)
  obtain ⟨b, howed, pool, hb⟩ := h
  by_cases hrun : b = .run w
  · subst hrun
    obtain ⟨k, task, hw⟩ : ∃ k task, s.pool.worker w = .running k task := by
      cases hw : s.pool.worker w <;> simp_all [threadPool, PoolState.step]
    have htask : ∀ {b}, b ≠ .postFetch → (∃ judges, s.judges.step (w, b) = some judges) →
        (nojd N).Enabled (WorkStep.OfThread (some w)) s := by
      rintro b hne ⟨judges, hb⟩
      refine ⟨.task w b, rfl, { s with judges := judges }, ?_⟩
      cases b <;> first | exact absurd rfl hne | simp only [nojd, step, hw, hb, Option.map_some]
    cases hloc : s.judges.loc w with
    | idle =>
      exact htask (b := .request) (by simp) ⟨_, by simp only [JudgesState.step, hloc]; rfl⟩
    | requesting =>
      exact htask (b := .semWait) (by simp)
        ⟨_, by simp only [JudgesState.step, hloc, if_pos (hjudges.sem_pos hloc)]; rfl⟩
    | passedSem =>
      exact htask (b := .take) (by simp) ⟨_, by simp only [JudgesState.step, hloc]; rfl⟩
    | «using» jdg =>
      cases jdg with
      | none => exact absurd hloc (hjudges.notNull w)
      | some j =>
        exact htask (b := .release) (by simp) ⟨_, by simp only [JudgesState.step, hloc]; rfl⟩
    | freed =>
      exact htask (b := .postJudge) (by simp) ⟨_, by simp only [JudgesState.step, hloc]; rfl⟩
    | posted =>
      refine ⟨.pool (.run w), rfl, ?_⟩
      simp only [threadPool] at hb
      simp only [nojd, step, hb, JudgesState.step, hloc, Option.bind_some, Option.map_some]
      exact ⟨_, rfl⟩
  · have hself : b.byItself = true := by
      cases b with
      | run v =>
        obtain rfl : w = v := by simpa [PoolStep.OwedTo] using howed
        exact absurd rfl hrun
      | _ => first | rfl | simp [PoolStep.OwedTo] at howed
    exact ⟨.pool b, howed, _, step_pool hself hb⟩

/-- A call of `add_task` that the pool would have go on can go on. -/
theorem WorkState.enabled_main
    (h : (threadPool Unit Submission N).Enabled (PoolStep.OwedTo (.producer ())) s.pool) :
    (nojd N).Enabled (WorkStep.OfThread none) s := by
  obtain ⟨b, howed, pool, hb⟩ := h
  have hself : b.byItself = true := by
    cases b <;> first | rfl | simp [PoolStep.OwedTo] at howed
  exact ⟨.pool b, howed, _, step_pool hself hb⟩

/-- Only a call that is under way has a step left. -/
theorem PoolState.not_idle_of_enabled {P τ : Type} [DecidableEq P] {n : ℕ} {s : PoolState P τ n}
    {p : P} (h : (threadPool P τ n).Enabled (PoolStep.OwedTo (.producer p)) s) :
    s.producer p ≠ .idle := by
  obtain ⟨b, howed, s', hb⟩ := h
  intro hidle
  cases b with
  | lockAdd q | push q =>
    obtain rfl : p = q := by simpa [PoolStep.OwedTo] using howed
    simp [threadPool, step, hidle] at hb
  | signal q woken =>
    obtain rfl : p = q := by simpa [PoolStep.OwedTo] using howed
    rcases woken with _ | v <;> simp [threadPool, step, hidle] at hb
  | _ => simp [PoolStep.OwedTo] at howed

/-- What is not a step of the worker in the pool brings its task closer to its end, or leaves it
alone. -/
theorem WorkMove.task_keeps (h : WorkMove s a s')
    (ha : ¬∃ b, a = .pool b ∧ b.OwedTo (.worker w)) :
    (s'.judges.loc w).stepsLeft ≤ (s.judges.loc w).stepsLeft ∧
      (a.OfThread (some w) → (s'.judges.loc w).stepsLeft < (s.judges.loc w).stepsLeft) := by
  cases h with
  | pool hb h => exact ⟨le_rfl, fun howed => absurd ⟨_, rfl, howed⟩ ha⟩
  | @run v pool judges hpool hjudges =>
    have hne : w ≠ v := fun hwv => ha ⟨.run v, rfl, by rw [hwv]; rfl⟩
    exact ⟨(congrArg TaskLoc.stepsLeft (JudgesState.loc_of_step hjudges hne)).le,
      fun howed => absurd ⟨_, rfl, howed⟩ ha⟩
  | @task v b k task judges hb hw hjudges =>
    rcases eq_or_ne w v with rfl | hne
    · have hlt := JudgesState.stepsLeft_of_step hjudges hb
      exact ⟨hlt.le, fun _ => hlt⟩
    · exact ⟨(congrArg TaskLoc.stepsLeft (JudgesState.loc_of_step hjudges hne)).le,
        fun howed => absurd (Option.some.inj howed) hne⟩
  | permit hp hcase hsem =>
    rcases hcase with ⟨rfl, -⟩ | ⟨rfl, -⟩ <;>
      exact ⟨le_rfl, fun howed => by cases howed⟩
  | add hp hadds hmode | skip hp hadds hmode =>
    generalize s.main = main at hadds
    cases hadds <;> exact ⟨le_rfl, fun howed => by cases howed⟩
  | fetched | tryWait | update => exact ⟨le_rfl, fun howed => by cases howed⟩

/-- While `add_task` is under way, the main thread is nowhere else. -/
theorem WorkMove.addTask_keeps (h : WorkMove s a s') (hp : s.pool.producer () ≠ .idle)
    (ha : ¬∃ b, a = .pool b ∧ b.OwedTo (.producer ())) :
    s'.pool.producer () ≠ .idle ∧ ¬a.OfThread none := by
  have hpool : ∀ {b pool}, a = .pool b → s.pool.step b = some pool →
      pool.producer () ≠ .idle ∧ ¬a.OfThread none := fun {b pool} hab hb => by
    have hnot : ¬b.OwedTo (.producer ()) := fun howed => ha ⟨b, hab, howed⟩
    refine ⟨?_, by rw [hab]; exact hnot⟩
    rcases PoolState.producer_of_step hb hp with ⟨-, hstay⟩ | ⟨howed, -⟩
    · rwa [hstay]
    · exact absurd howed hnot
  cases h with
  | pool hb h => exact hpool rfl h
  | run h hjudges => exact hpool rfl h
  | task hb hw hjudges => exact ⟨hp, fun howed => by cases howed⟩
  | permit hidle | fetched _ hidle | add hidle | skip hidle | tryWait hidle | update hidle =>
    exact absurd hidle hp

/-- The destroyer starts with `pool_destroy`. -/
theorem PoolState.destroyer_of_step {P τ : Type} [DecidableEq P] {n : ℕ} {s s' : PoolState P τ n}
    {a : PoolStep P τ n} (h : s.step a = some s') (hidle : s.destroyer = .idle)
    (ha : a ≠ .destroy) : s'.destroyer = .idle := by
  cases destroyerMove_of_step h with
  | other _ hd _ => rwa [hd]
  | destroyAgain | destroy => exact absurd rfl ha
  | broadcast hd | join hd _ =>
    rw [hidle] at hd
    cases hd

/-- Nobody destroys the pool. -/
theorem destroyer_of_nojd (h : (nojd N).Reachable s) : s.pool.destroyer = .idle := by
  refine h.invariant (I := fun s => s.pool.destroyer = .idle) (by rintro _ rfl; rfl) ?_
  intro s a s' _ hidle _ hstep
  rcases (WorkState.move_of_step hstep).pool_step with hsame | ⟨b, hb, hpool⟩
  · rwa [hsame]
  · exact PoolState.destroyer_of_step hpool hidle hb

/-! ### The main loop -/

/-- A producer that is outside of `add_task` stays there until it calls. -/
theorem PoolState.idle_of_step {P τ : Type} [DecidableEq P] {n : ℕ} {s s' : PoolState P τ n}
    {b : PoolStep P τ n} {p : P} (h : s.step b = some s') (hb : b.byItself = true ∨ ∃ v, b = .run v)
    (hidle : s.producer p = .idle) : s'.producer p = .idle := by
  have hother : ∀ {q : P} {l : ProducerLoc τ}, s.producer q ≠ .idle →
      (s.setProducer q l).producer p = .idle := fun {q l} hq => by
    have hpq : p ≠ q := by
      rintro rfl
      exact hq hidle
    rw [setProducer_producer_of_ne s l hpq, hidle]
  cases b with
  | call q task => simp [PoolStep.byItself] at hb
  | lockAdd q | push q =>
    simp only [step] at h
    split at h
    · next hl =>
      obtain rfl := Option.some.inj h
      exact hother (by simp [*])
    · cases h
  | signal q woken =>
    rcases woken with _ | w <;> simp only [step] at h <;> repeat' split at h
    all_goals first | (cases h; exact hother (by simp [*])) | cases h
  | _ =>
    simp only [step] at h
    repeat' split at h
    all_goals first | (cases h; exact hidle) | cases h

/-- Only tasks that return count as run. -/
theorem PoolState.runs_of_step {P τ : Type} [DecidableEq P] {n : ℕ} {s s' : PoolState P τ n}
    {b : PoolStep P τ n} (h : s.step b = some s') (hb : b.byItself = true) :
    s'.history.runs = s.history.runs := by
  cases b with
  | run v => cases hb
  | signal q woken =>
    rcases woken with _ | w <;> simp only [step] at h <;> repeat' split at h
    all_goals first | (cases h; rfl) | cases h
  | _ =>
    simp only [step] at h
    repeat' split at h
    all_goals first | (cases h; rfl) | cases h

/-- Between the calls of `add_task` the main thread is in none. -/
theorem idle_of_nojd (h : (nojd N).Reachable s) (hmain : s.main.betweenCalls = true) :
    s.pool.producer () = .idle := by
  refine h.invariant (I := fun s => s.main.betweenCalls = true → s.pool.producer () = .idle)
    (by rintro _ rfl -; rfl) ?_ hmain
  intro s a s' _ hinv _ hstep hmain
  cases WorkState.move_of_step hstep with
  | add hp ha hmode =>
    generalize s.main = main at ha
    cases ha <;> cases hmain
  | permit hp | fetched _ hp | skip hp | tryWait hp | update hp => exact hp
  | pool hb h => exact PoolState.idle_of_step h (Or.inl hb) (hinv hmain)
  | run h _ => exact PoolState.idle_of_step h (Or.inr ⟨_, rfl⟩) (hinv hmain)
  | task _ _ _ => exact hinv hmain

/-- The steps of the main loop that a fair scheduler owes to it. -/
def WorkStep.OfLoop (a : WorkStep N) : Prop := (∃ m, a = .main m) ∧ a.OfThread none

/-- **The main loop comes closer to the next fetch** with every step of its own. -/
theorem WorkMove.main_step (h : WorkMove s a s') (hne : s.main ≠ .fetch) :
    ¬a.OfLoop ∧ s'.main = s.main ∨
      a.OfLoop ∧ s'.main.stepsToFetch < s.main.stepsToFetch := by
  cases h with
  | permit hp ha hsem =>
    rcases ha with ⟨rfl, hmain⟩ | ⟨rfl, hmain⟩ <;>
      exact Or.inr ⟨⟨⟨_, rfl⟩, rfl⟩, by rw [hmain]; simp [MainLoc.stepsToFetch]⟩
  | fetched submit hp hmain => exact absurd hmain hne
  | add hp ha hmode | skip hp ha hmode =>
    generalize s.main = main at ha
    cases ha <;> exact Or.inr ⟨⟨⟨_, rfl⟩, rfl⟩, by simp [MainLoc.stepsToFetch]⟩
  | tryWait hp hmain | update hp hmain =>
    exact Or.inr ⟨⟨⟨_, rfl⟩, rfl⟩, by rw [hmain]; simp [MainLoc.stepsToFetch]⟩
  | pool | run | task =>
    refine Or.inl ⟨?_, rfl⟩
    rintro ⟨⟨_, h⟩, -⟩
    cases h

/-- The main loop can go on, if it need not wait for `add_task` or for a permit. -/
theorem WorkState.enabled_ofLoop (hne : s.main ≠ .fetch) (hp : s.pool.producer () = .idle)
    (hsem : s.main = .semWait → 0 < s.jmSemFetchSubmissions) :
    (nojd N).Enabled WorkStep.OfLoop s := by
  have hmain : ∀ m, WorkStep.OfThread none (.main m : WorkStep N) →
      (∃ s', s.mainStep m = some s') → (nojd N).Enabled WorkStep.OfLoop s :=
    fun m howed ⟨s', hs'⟩ => ⟨.main m, ⟨⟨m, rfl⟩, howed⟩, s', by
      simp only [nojd, step, if_pos hp, hs']⟩
  have hadds : ∀ submit mode next, ∃ s', s.addMode submit mode next = some s' :=
    fun submit mode next => by
      rw [addMode]
      split
      · simp only [PoolState.step, hp]
        exact ⟨_, rfl⟩
      · exact ⟨_, rfl⟩
  cases hloc : s.main with
  | fetch => exact absurd hloc hne
  | semWait =>
    exact hmain .semWait rfl ⟨_, by simp only [mainStep, hloc, if_pos (hsem hloc)]; rfl⟩
  | addDebug submit => exact hmain .addDebug rfl (by simpa only [mainStep, hloc] using hadds ..)
  | addRelease submit =>
    exact hmain .addRelease rfl (by simpa only [mainStep, hloc] using hadds ..)
  | tryWait =>
    refine hmain .tryWait rfl ?_
    simp only [mainStep, hloc]
    split <;> exact ⟨_, rfl⟩
  | update => exact hmain .update rfl ⟨_, by simp only [mainStep, hloc]; rfl⟩

/-- Outside of `add_task` the steps of the main loop are all that the main thread does. -/
theorem WorkMove.loop_keeps (h : WorkMove s a s') (hp : s.pool.producer () = .idle)
    (ha : ¬a.OfLoop) : s'.pool.producer () = .idle ∧ ¬a.OfThread none := by
  have hpool : ∀ {b pool}, s.pool.step b = some pool → ¬b.OwedTo (.producer ()) := fun hb howed =>
    PoolState.not_idle_of_enabled ⟨_, howed, _, hb⟩ hp
  cases h with
  | fetched => exact ⟨hp, id⟩
  | pool hb h => exact ⟨PoolState.idle_of_step h (Or.inl hb) hp, hpool h⟩
  | run h _ => exact ⟨PoolState.idle_of_step h (Or.inr ⟨_, rfl⟩) hp, hpool h⟩
  | task => exact ⟨hp, fun howed => by cases howed⟩
  | permit _ hcase _ =>
    rcases hcase with ⟨rfl, -⟩ | ⟨rfl, -⟩ <;> exact absurd ⟨⟨_, rfl⟩, rfl⟩ ha
  | add _ hadds _ | skip _ hadds _ =>
    generalize s.main = main at hadds
    cases hadds <;> exact absurd ⟨⟨_, rfl⟩, rfl⟩ ha
  | tryWait | update => exact absurd ⟨⟨_, rfl⟩, rfl⟩ ha

/-- A task that returns returns a permit. -/
theorem WorkMove.runs_or_post (h : WorkMove s a s') :
    s'.pool.history.runs = s.pool.history.runs ∨
      s'.jmSemFetchSubmissions = s.jmSemFetchSubmissions + 1 := by
  cases h with
  | pool hb h => exact Or.inl (PoolState.runs_of_step h hb)
  | run => exact Or.inr rfl
  | _ => exact Or.inl rfl

section Fair

variable {ok : WorkState N → WorkStep N → Prop} {e : (nojd N).Execution ok}

/-! ### Judgings that return -/

/-- **Every judging returns**: a worker that was given a judge gives it back. -/
def JudgingReturns (e : (nojd N).Execution ok) : Prop :=
  ∀ k w jdg, (e.state k).judges.loc w = .using jdg →
    ∃ l, k ≤ l ∧ e.action l = some (.task w .release)

/-- A worker has its judge until it gives it back. -/
theorem WorkMove.using_keeps {jdg : Option (Fin N)} (h : WorkMove s a s')
    (hw : s.judges.loc w = .using jdg) (ha : a ≠ .task w .release) :
    s'.judges.loc w = .using jdg := by
  cases h with
  | @run v pool judges hpool hjudges =>
    rcases eq_or_ne w v with rfl | hne
    · rcases JudgesState.step_cases hjudges with ⟨hb, -⟩ | ⟨hb, -⟩ | ⟨hb, -⟩ | ⟨hb, -⟩ | ⟨hb, -⟩ |
        ⟨-, hloc, -⟩
      all_goals first | cases hb | simp [hloc] at hw
    · exact (JudgesState.loc_of_step hjudges hne).trans hw
  | @task v b k task judges hb hv hjudges =>
    rcases eq_or_ne w v with rfl | hne
    · rcases JudgesState.step_cases hjudges with ⟨-, hloc, -⟩ | ⟨-, hloc, -⟩ | ⟨-, hloc, -⟩ |
        ⟨rfl, -⟩ | ⟨-, hloc, -⟩ | ⟨rfl, -⟩
      all_goals first | exact absurd rfl ha | exact absurd rfl hb | simp [hloc] at hw
    · exact (JudgesState.loc_of_step hjudges hne).trans hw
  | _ => exact hw

/-- If no worker has a judge at the end, every judging has returned. -/
theorem judgingReturns_of_end {n : ℕ}
    (hend : ∀ k, n ≤ k → ∀ w jdg, (e.state k).judges.loc w ≠ .using jdg) : JudgingReturns e := by
  intro k w jdg hk
  by_contra hnone
  have hstays : ∀ l, k ≤ l → (e.state l).judges.loc w = .using jdg := by
    intro l hkl
    induction l, hkl using Nat.le_induction with
    | base => exact hk
    | succ l hkl ih =>
      cases ha : e.action l with
      | none => rwa [e.rests l ha]
      | some a =>
        refine (WorkState.move_of_step (e.moves l a ha).2).using_keeps ih ?_
        rintro rfl
        exact hnone ⟨l, hkl, ha⟩
  exact hend _ (le_max_left n k) w jdg (hstays _ (le_max_right n k))

/-- **Fairness to all the steps of the threads**, if every judging returns. -/
theorem stronglyFair_ofThread (hjudging : JudgingReturns e)
    (hfair : ∀ t, e.StronglyFair (WorkStep.OwedTo t)) (t : Option (Fin N)) :
    e.StronglyFair (WorkStep.OfThread t) := by
  refine (hfair t).widen (fun a ha => ha.1) ?_
  rintro k a ha hnot ⟨s', hs'⟩
  obtain ⟨w, rfl⟩ : ∃ w, a = .task w .release := by
    by_contra hne
    exact hnot ⟨ha, fun w hw => hne ⟨w, hw⟩⟩
  have hstep : (e.state k).step (.task w .release) = some s' := hs'
  cases WorkState.move_of_step hstep with
  | task _ hw hjudges =>
    rcases JudgesState.step_cases hjudges with ⟨hb, -⟩ | ⟨hb, -⟩ | ⟨hb, -⟩ | ⟨-, jdg, hloc, -⟩ |
      ⟨hb, -⟩ | ⟨hb, -⟩
    case inr.inr.inr.inl =>
      obtain ⟨l, hkl, hl⟩ := hjudging k w _ hloc
      exact ⟨l, hkl, _, ha, hl⟩
    all_goals cases hb

/-! ### Fairness, seen from the pool -/

variable (hreach : ∀ k, (nojd N).Reachable (e.state k))
  (hfair : ∀ t, e.StronglyFair (WorkStep.OfThread t))

include hreach hfair

/-- **Fairness to the workers**, seen from the pool: the steps of a task with the judges come to
an end. -/
theorem stronglyFair_worker (w : Fin N) :
    (poolView e).StronglyFair (PoolStep.OwedTo (.worker w)) := by
  intro hoften k
  obtain ⟨l, hkl, a, ⟨b, rfl, hb⟩, ha⟩ := (hfair (some w)).narrow
    (E := fun s => (threadPool Unit Submission N).Enabled (PoolStep.OwedTo (.worker w)) s.pool)
    (B := fun a => ∃ b, a = .pool b ∧ b.OwedTo (.worker w)) (fun _ => True)
    (fun s => (s.judges.loc w).stepsLeft)
    (fun k hE => ⟨trivial, WorkState.enabled_worker (hreach k) hE⟩)
    (fun k a _ ha hB => ⟨trivial,
      (WorkState.move_of_step (e.moves k a ha).2).task_keeps hB⟩) hoften k
  exact ⟨l, hkl, b, hb, by simp [poolView, TransSystem.Execution.map, ha, WorkState.poolStep]⟩

omit hreach in
/-- **Fairness to `add_task`**: while it is under way, its steps are all that the main thread
does. -/
theorem stronglyFair_addTask :
    (poolView e).StronglyFair (PoolStep.OwedTo (.producer ())) := by
  intro hoften k
  obtain ⟨l, hkl, a, ⟨b, rfl, hb⟩, ha⟩ := (hfair none).narrow
    (E := fun s => (threadPool Unit Submission N).Enabled (PoolStep.OwedTo (.producer ())) s.pool)
    (B := fun a => ∃ b, a = .pool b ∧ b.OwedTo (.producer ()))
    (fun s => s.pool.producer () ≠ .idle) (fun _ => 0)
    (fun k hE => ⟨PoolState.not_idle_of_enabled hE, WorkState.enabled_main hE⟩)
    (fun k a hp ha hB => by
      obtain ⟨hp', hnot⟩ := (WorkState.move_of_step (e.moves k a ha).2).addTask_keeps hp hB
      exact ⟨hp', le_rfl, fun howed => absurd howed hnot⟩) hoften k
  exact ⟨l, hkl, b, hb, by simp [poolView, TransSystem.Execution.map, ha, WorkState.poolStep]⟩

/-- **Fairness to the threads of the pool.** -/
theorem stronglyFair_pool (t : PoolThread Unit N) :
    (poolView e).StronglyFair (PoolStep.OwedTo t) := by
  cases t with
  | producer p => exact stronglyFair_addTask hfair
  | worker w => exact stronglyFair_worker hreach hfair w
  | destroyer =>
    intro hoften
    obtain ⟨l, -, b, howed, pool, hb⟩ := hoften 0
    have hidle : ((poolView e).state l).destroyer = .idle := destroyer_of_nojd (hreach l)
    cases b <;> simp_all [PoolStep.OwedTo, threadPool, PoolState.step]

/-- **A call of `add_task` returns.** -/
theorem addTask_returns_nojd (k : ℕ) : ∃ l, k ≤ l ∧ (e.state l).pool.producer () = .idle := by
  by_cases hidle : (e.state k).pool.producer () = .idle
  · exact ⟨k, le_rfl, hidle⟩
  · exact addTask_returns (e := poolView e) (fun k => pool_of_nojd (hreach k))
      (stronglyFair_pool hreach hfair) (fun k => open_of_nojd (hreach k)) () k hidle

/-- **A task that was added is run.** -/
theorem added_runs_nojd (hN : 0 < N) (k i : ℕ) (hk : k < (e.state i).pool.history.added.length) :
    ∃ j, i ≤ j ∧ (e.state j).pool.history.runs k = 1 := by
  have hpool : ∀ k, (threadPool Unit Submission N).Reachable ((poolView e).state k) := fun k =>
    pool_of_nojd (hreach k)
  have hopen : ∀ k, ((poolView e).state k).mShutdown = false := fun k => open_of_nojd (hreach k)
  have howed := stronglyFair_pool hreach hfair
  exact ((added_leads_popped hpool howed hopen hN k).trans
    (popped_leads_run hpool howed hopen k)) i hk

omit hreach in
/-- **Fairness to the main loop**: outside of `add_task` its steps are all that the main thread
does. -/
theorem stronglyFair_loop : e.StronglyFair WorkStep.OfLoop := by
  refine (hfair none).narrow (E := (nojd N).Enabled WorkStep.OfLoop)
    (fun s => s.pool.producer () = .idle) (fun _ => 0) (fun k hE => ?_) fun k a hp ha hB => ?_
  · obtain ⟨a, ⟨⟨m, rfl⟩, howed⟩, s', hs'⟩ := hE
    refine ⟨?_, _, howed, s', hs'⟩
    by_contra hp
    simp only [nojd, WorkState.step, if_neg hp] at hs'
    cases hs'
  · obtain ⟨hp', hnot⟩ := (WorkState.move_of_step (e.moves k a ha).2).loop_keeps hp hB
    exact ⟨hp', le_rfl, fun howed => absurd howed hnot⟩

end Fair

/-- A task that is queued or in the hands of a worker has not been run. -/
theorem exists_unrun (h : (nojd N).Reachable s)
    (hpos : 0 < s.pool.mQueTasks.length +
      countIn (fun l => l.unrun.isSome = true) s.pool.worker) :
    ∃ k < s.pool.history.added.length, s.pool.history.runs k = 0 := by
  have htasks := taskInv_of_reachable (pool_of_nojd h)
  have hlength := congrArg List.length htasks.fifo
  rw [List.length_append] at hlength
  by_cases hque : s.pool.mQueTasks.length = 0
  · obtain ⟨w, hw⟩ := countIn_pos_iff.mp (by rwa [hque, Nat.zero_add] at hpos)
    obtain ⟨k, hk⟩ := Option.isSome_iff_exists.mp hw
    have hcount : 0 < countTask WorkerLoc.unrun k s.pool.worker := countIn_pos_iff.mpr ⟨w, hk⟩
    have hunrun := htasks.unrun k
    split at hunrun
    · exact ⟨k, by omega, by omega⟩
    · omega
  · have hunrun := htasks.unrun s.pool.history.popped.length
    rw [if_neg (lt_irrefl _)] at hunrun
    exact ⟨s.pool.history.popped.length, by omega, by omega⟩

/-! ### What is fetched -/

/-- The task of a submission that was fetched. -/
def Submission.inRelease (submit : Submission) : Submission :=
  { submit with sbmCurMode := .release }

theorem tasksOf_of_fetchedBy {ctx : LoadContext} {submit : Submission} (h : FetchedBy ctx submit) :
    tasksOf submit = [submit.inRelease] := by
  obtain ⟨submit₀, replies, st, rest, hret, rfl⟩ := h
  obtain ⟨row, s₀, t, ht, hs⟩ := exists_row_of_fetched hret
  rw [hs, tasksOf_fetchRow ht]
  rfl

theorem WorkMove.fetched_grows (h : WorkMove s a s') : s.fetched <+: s'.fetched := by
  cases h with
  | fetched submit hp hmain => exact List.prefix_append ..
  | _ => exact List.prefix_rfl

/-- Each submission has one task. -/
theorem flatMap_tasksOf_of_nojd {ctx : LoadContext}
    (h : (nojd N).ReachableBy (FetchesFromDb ctx) s) :
    s.fetched.flatMap tasksOf = s.fetched.map Submission.inRelease := by
  refine h.invariant
    (I := fun s => s.fetched.flatMap tasksOf = s.fetched.map Submission.inRelease)
    (by rintro _ rfl; rfl) ?_
  intro s a s' _ hinv hok hstep
  cases WorkState.move_of_step hstep with
  | fetched submit hp hmain =>
    simp only [List.flatMap_append, List.map_append, hinv, List.flatMap_singleton,
      tasksOf_of_fetchedBy hok, List.map_singleton]
  | _ => exact hinv

section Served

variable {ctx : LoadContext} {e : (nojd N).Execution (FetchesFromDb ctx)}
  (hreach : ∀ k, (nojd N).ReachableBy (FetchesFromDb ctx) (e.state k))
  (hfair : ∀ t, e.StronglyFair (WorkStep.OfThread t)) (hN : 0 < N)

include hreach hfair hN

/-- **A permit comes back**: the main loop does not wait for ever. -/
theorem permit_returns (k : ℕ) :
    ∃ l, k ≤ l ∧ ((e.state l).main = .semWait → 0 < (e.state l).jmSemFetchSubmissions) := by
  by_contra hnone
  have hwaits : ∀ l, k ≤ l → (e.state l).main = .semWait ∧
      (e.state l).jmSemFetchSubmissions = 0 := fun l hkl => by
    by_contra hnot
    refine hnone ⟨l, hkl, fun hmain => Nat.pos_of_ne_zero fun hzero => hnot ⟨hmain, hzero⟩⟩
  have hall : ∀ k, (nojd N).Reachable (e.state k) := fun k => (hreach k).reachable
  -- then some task has not been run, and it will be
  obtain ⟨hmain, hsem⟩ := hwaits k le_rfl
  have hbalance := permits_of_nojd (hreach k)
  rw [hmain, hsem, idle_of_nojd (hall k) (by rw [hmain]; rfl)] at hbalance
  simp only [ProducerLoc.atHand, List.length_nil, permitPending] at hbalance
  obtain ⟨t, ht, hzero⟩ := exists_unrun (hall k) (by omega)
  obtain ⟨j, hkj, hj⟩ := added_runs_nojd hall hfair hN t k ht
  -- which returns a permit
  have hnot : (e.state j).pool.history.runs t = 0 := by
    clear hj
    induction j, hkj using Nat.le_induction with
    | base => exact hzero
    | succ j hkj ih =>
      cases ha : e.action j with
      | none => rwa [e.rests j ha]
      | some a =>
        rcases (WorkState.move_of_step (e.moves j a ha).2).runs_or_post with hsame | hpost
        · rwa [hsame]
        · have hno := (hwaits (j + 1) (hkj.trans j.le_succ)).2
          rw [hpost] at hno
          cases hno
  rw [hnot] at hj
  cases hj

/-- **The main loop comes back to the fetch.** -/
theorem loop_leads_fetch : e.LeadsTo (fun s => s.main ≠ .fetch) fun s => s.main = .fetch := by
  have hall : ∀ k, (nojd N).Reachable (e.state k) := fun k => (hreach k).reachable
  refine .of_rank (fun s => s.main.stepsToFetch) fun r =>
    .of_fair (stronglyFair_loop hfair) ?_ fun k => ?_
  · rintro k a ⟨hne, hr⟩ ha
    rcases (WorkState.move_of_step (e.moves k a ha).2).main_step hne with ⟨hnot, hsame⟩ | ⟨-, hlt⟩
    · exact Or.inl ⟨hnot, hsame ▸ hne, by rw [hsame, hr]⟩
    · by_cases hfetch : (e.state (k + 1)).main = .fetch
      · exact Or.inr (Or.inl hfetch)
      · exact Or.inr (Or.inr ⟨hfetch, hr ▸ hlt⟩)
  · by_cases hr : r = MainLoc.stepsToFetch .semWait
    · obtain ⟨l, hkl, hsem⟩ := permit_returns hreach hfair hN k
      refine ⟨l, hkl, fun ⟨hne, hrank⟩ => ?_⟩
      have hmain : (e.state l).main = .semWait := by
        rw [hr] at hrank
        cases hmain : (e.state l).main <;> simp_all [MainLoc.stepsToFetch]
      exact WorkState.enabled_ofLoop hne (idle_of_nojd (hall l) (by rw [hmain]; rfl)) hsem
    · obtain ⟨l, hkl, hp⟩ := addTask_returns_nojd hall hfair k
      refine ⟨l, hkl, fun ⟨hne, hrank⟩ => WorkState.enabled_ofLoop hne hp fun hmain => ?_⟩
      rw [hmain] at hrank
      exact absurd hrank.symm hr

theorem fetches_again (k : ℕ) : ∃ l, k ≤ l ∧ (e.state l).main = .fetch := by
  by_cases hfetch : (e.state k).main = .fetch
  · exact ⟨k, le_rfl, hfetch⟩
  · exact loop_leads_fetch hreach hfair hN k hfetch

end Served

/-- **Every submission is judged**, if nothing ends the daemon and every judging returns. In every
such execution of a daemon with judges, under a scheduler that is fair to its threads, the main
loop comes back to the fetch again and again, and for every submission that it has fetched a
worker takes the task and runs it to its end, once and for all. -/
theorem nojd_serves {ctx : LoadContext} (hN : 0 < N)
    {e : (nojd N).Execution (FetchesFromDb ctx)}
    (hinit : (nojd N).ReachableBy (FetchesFromDb ctx) (e.state 0))
    (hjudging : JudgingReturns e) (howed : ∀ t, e.StronglyFair (WorkStep.OwedTo t)) :
    (∀ i, ∃ j, i ≤ j ∧ (e.state j).main = .fetch) ∧
      ∀ i k submit, (e.state i).fetched[k]? = some submit →
        ∃ j, i ≤ j ∧ ∀ l, j ≤ l →
          (e.state l).pool.history.popped[k]? = some { submit with sbmCurMode := .release } ∧
            (e.state l).pool.history.runs k = 1 := by
  have hfair := stronglyFair_ofThread hjudging howed
  have hreach : ∀ k, (nojd N).ReachableBy (FetchesFromDb ctx) (e.state k) := e.reachableBy hinit
  have hall : ∀ k, (nojd N).Reachable (e.state k) := fun k => (hreach k).reachable
  have htasks := fun k => taskInv_of_reachable (pool_of_nojd (hall k))
  -- the account of the submissions, at each moment
  have haccount : ∀ k, (e.state k).fetched.map Submission.inRelease =
      (e.state k).pool.history.popped ++ (e.state k).pool.mQueTasks ++
        ((e.state k).pool.producer ()).atHand ++ (e.state k).main.toAdd := fun k => by
    rw [← flatMap_tasksOf_of_nojd (hreach k), ← (htasks k).fifo]
    exact fetched_of_nojd (hall k)
  refine ⟨fetches_again hreach hfair hN, fun i k submit hk => ?_⟩
  have hstays : ∀ l, i ≤ l → (e.state l).fetched[k]? = some submit := fun l hil =>
    TransSystem.Execution.always_of_stable (e := e) (P := fun s => s.fetched[k]? = some submit)
      (fun m a hm ha => by
        obtain ⟨rest, hrest⟩ := (WorkState.move_of_step (e.moves m a ha).2).fetched_grows
        rw [← hrest, List.getElem?_append_left (List.getElem?_eq_some_iff.mp hm).1, hm]) hk hil
  -- when the main loop is back at the fetch, the task has been added
  obtain ⟨m, him, hm⟩ := fetches_again hreach hfair hN i
  have hadded : k < (e.state m).pool.history.added.length := by
    have hfetched := fetched_of_nojd (hall m)
    have hlength := congrArg List.length (haccount m)
    rw [hm, idle_of_nojd (hall m) (by rw [hm]; rfl), ← (htasks m).fifo] at hlength
    have hlt := (List.getElem?_eq_some_iff.mp (hstays m him)).1
    simp only [ProducerLoc.atHand, MainLoc.toAdd, List.append_nil, List.length_map] at hlength
    omega
  obtain ⟨j, hmj, hj⟩ := added_runs_nojd hall hfair hN k m hadded
  refine ⟨j, him.trans hmj, fun l hjl => ?_⟩
  have hruns : 1 ≤ (e.state l).pool.history.runs k :=
    TransSystem.Execution.always_of_stable (e := poolView e) (P := fun s => 1 ≤ s.history.runs k)
      (fun m a hm ha => hm.trans ((PoolState.history_of_move
        (PoolState.move_of_step ((poolView e).moves m a ha).2)).2.2 k)) hj.ge hjl
  have hunrun := (htasks l).unrun k
  split at hunrun
  · next hpopped =>
    refine ⟨?_, by omega⟩
    have hget := congrArg (·[k]?) (haccount l)
    simp only [List.append_assoc, List.getElem?_append_left hpopped, List.getElem?_map,
      hstays l ((him.trans hmj).trans hjl)] at hget
    exact hget.symm
  · omega

/-- In a daemon that fetches, with its workers asleep, a fair scheduler owes nobody a step. -/
theorem WorkState.not_enabled_of_asleep (t : Option (Fin N)) (hmain : s.main = .fetch)
    (hp : s.pool.producer () = .idle) (hw : ∀ w, s.pool.worker w = .waiting) :
    ¬(nojd N).Enabled (WorkStep.OwedTo t) s := by
  rintro ⟨a, ⟨howed, -⟩, s', hs'⟩
  cases a with
  | main m => cases m <;> simp_all [WorkStep.OfThread, nojd, step, mainStep]
  | task w b => simp [nojd, step, hw] at hs'
  | pool b =>
    cases b with
    | call | spurious | destroy | broadcast | join => cases t <;> simp [WorkStep.OfThread,
        PoolStep.OwedTo] at howed
    | lockAdd | push => simp [nojd, step, PoolState.step, hp] at hs'
    | signal p woken => rcases woken with _ | w <;> simp [nojd, step, PoolState.step, hp] at hs'
    | _ => simp [nojd, step, PoolState.step, hw] at hs'

/-- A submission is fetched, and its task is run, after which the main loop fetches again. -/
theorem nojd_serves_once : ∃ e : (nojd 1).Execution (FetchesFromDb nojContext),
    (e.state 0).fetched = [fetchedFrom rowInC] ∧
      ∃ j, ∀ l, j ≤ l → (e.state l).pool.history.runs 0 = 1 := by
  let s := ((nojd 1).run (WorkState.initNojd 1)
    [.main .semWait, .main (.fetched (fetchedFrom rowInC))]).get rfl
  have hinit : (nojd 1).ReachableBy (FetchesFromDb nojContext) s :=
    TransSystem.ReachableBy.run (.init rfl)
      (show ∀ s, ∀ a ∈ [WorkStep.main .semWait,
          .main (.fetched (fetchedFrom rowInC))],
        FetchesFromDb nojContext (s : WorkState 1) a from fun s a ha => by
          simp only [List.mem_cons, List.not_mem_nil, or_false] at ha
          rcases ha with rfl | rfl
          exacts [trivial, fetchedBy_fetchedFrom (by decide)])
      (show (nojd 1).run (WorkState.initNojd 1) _ = some _ from rfl)
  obtain ⟨e, he, hend, hfair⟩ := TransSystem.Execution.exists_of_run
    (show ∀ s : WorkState 1, ∀ a ∈ _, FetchesFromDb nojContext s a by
      simp [FetchesFromDb])
    (show (nojd 1).run s
      [.main .addDebug, .main .addRelease, .pool (.lockAdd ()), .pool (.push ()),
        .pool (.signal () none), .main .tryWait, .main .update, .pool (.enter 0), .pool (.lock 0),
        .pool (.test 0), .pool (.leave 0), .pool (.check 0), .task 0 .request, .task 0 .semWait,
        .task 0 .take, .task 0 .release, .task 0 .postJudge, .pool (.run 0), .main .semWait,
        .pool (.free 0), .pool (.enter 0), .pool (.lock 0), .pool (.test 0), .pool (.wait 0)] =
      some _ from rfl)
  have howed : ∀ t, e.StronglyFair (WorkStep.OwedTo t) := fun t =>
    hfair _ (WorkState.not_enabled_of_asleep t rfl rfl (Fin.forall_fin_one.mpr rfl))
  have hjudging : JudgingReturns e := judgingReturns_of_end fun k hk w jdg => by
    obtain rfl : w = 0 := Subsingleton.elim w 0
    rw [hend k hk]
    exact fun h => by cases h
  obtain ⟨j, -, hj⟩ := (nojd_serves Nat.one_pos (he ▸ hinit) hjudging howed).2 0 0
    (fetchedFrom rowInC) (by rw [he]; rfl)
  exact ⟨e, by rw [he]; rfl, j, fun l hl => (hj l hl).2⟩

end Service

end NpuOj
