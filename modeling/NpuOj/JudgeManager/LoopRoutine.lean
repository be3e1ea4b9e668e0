import NpuOj.JudgeManager.Judges

/-!
# Fetching no more than the judges can take

`JudgeManager::loop_routine` takes a permit of `jm_sem_fetch_submissions`, fetches a
submission, and hands one task to the thread pool for every mode the submission is to be
judged in; `release_judge` returns a permit for every task. Permits are taken once per
submission and returned once per task.

The system below puts the main loop beside the workers of `NpuOj.judges`, which take the
tasks off a queue. `NpuOj.loopRoutine_permits` is the balance of permits over the runs
that fetch only submissions with one mode, and `NpuOj.loopRoutine_twoModes` is a run
without it.
-/

namespace NpuOj

/-- Where the main loop is. -/
inductive MainLoc
  /-- Before `sem_wait`. -/
  | semWait
  /-- With a permit, in `fetch_submission_from_db`. -/
  | fetch
  /-- Before the test for `NojMode_Debug`. -/
  | addDebug (submit : Submission)
  /-- Before the test for `NojMode_Release`. -/
  | addRelease (submit : Submission)
  /-- Before `sem_trywait`. -/
  | tryWait
  /-- Before `update_results_to_server`. -/
  | update
  deriving DecidableEq

/-- A step of the main loop or of a worker. -/
inductive LoopStep (ι : Type*)
  | semWait
  | fetched (submit : Submission)
  | addDebug
  | addRelease
  | tryWait
  | update
  | worker (i : ι) (a : TaskStep)

/-- The main loop, the tasks in the pool, and the workers with the judges. -/
structure LoopState (N : ℕ) (ι : Type*) where
  main : MainLoc
  jmSemFetchSubmissions : ℕ
  queTasks : List Submission
  judges : JudgesState N ι

/-- The test of `sbm_judge_set` for a mode. -/
def Submission.hasMode (submit : Submission) (mode : NojJudgeMode) : Bool :=
  submit.sbmJudgeSet &&& mode.bits ≠ 0

section LoopRoutine

variable {N : ℕ} {ι : Type*} {s s' : LoopState N ι}

namespace LoopState

/-- `init_judges`, before the first `sem_wait`. -/
def initLoop (N : ℕ) (ι : Type*) : LoopState N ι where
  main := .semWait
  jmSemFetchSubmissions := N
  queTasks := []
  judges := .initJudges N ι

/-- A mode of the submission: where it is set, a task in this mode is queued. -/
def addMode (s : LoopState N ι) (submit : Submission) (mode : NojJudgeMode) (next : MainLoc) :
    LoopState N ι :=
  if submit.hasMode mode then
    { s with main := next, queTasks := s.queTasks ++ [{ submit with sbmCurMode := mode }] }
  else { s with main := next }

@[simp] theorem addMode_main (submit : Submission) (mode : NojJudgeMode)
    (next : MainLoc) : (s.addMode submit mode next).main = next := by
  rw [addMode]
  split <;> rfl

@[simp] theorem addMode_judges (submit : Submission) (mode : NojJudgeMode)
    (next : MainLoc) : (s.addMode submit mode next).judges = s.judges := by
  rw [addMode]
  split <;> rfl

@[simp] theorem addMode_jmSemFetchSubmissions (submit : Submission)
    (mode : NojJudgeMode) (next : MainLoc) :
    (s.addMode submit mode next).jmSemFetchSubmissions = s.jmSemFetchSubmissions := by
  rw [addMode]
  split <;> rfl

theorem addMode_queTasks_length (submit : Submission) (mode : NojJudgeMode)
    (next : MainLoc) : (s.addMode submit mode next).queTasks.length
      = s.queTasks.length + if submit.hasMode mode then 1 else 0 := by
  rw [addMode]
  split <;> simp

variable [DecidableEq ι]

/-- A step of a worker: the first takes a task off the queue, and the last returns a
permit. -/
def workerStep (s : LoopState N ι) (i : ι) (a : TaskStep) : Option (LoopState N ι) :=
  (s.judges.step (i, a)).bind fun judges =>
    match a, s.queTasks with
    | .request, [] => none
    | .request, _ :: queTasks => some { s with judges := judges, queTasks := queTasks }
    | .postFetch, _ =>
      some { s with judges := judges, jmSemFetchSubmissions := s.jmSemFetchSubmissions + 1 }
    | _, _ => some { s with judges := judges }

/-- One step. -/
def step (s : LoopState N ι) (a : LoopStep ι) : Option (LoopState N ι) :=
  match a, s.main with
  | .semWait, .semWait =>
    if 0 < s.jmSemFetchSubmissions then
      some { s with main := .fetch, jmSemFetchSubmissions := s.jmSemFetchSubmissions - 1 }
    else none
  | .fetched submit, .fetch => some { s with main := .addDebug submit }
  | .addDebug, .addDebug submit => some (s.addMode submit .debug (.addRelease submit))
  | .addRelease, .addRelease submit => some (s.addMode submit .release .tryWait)
  | .tryWait, .tryWait =>
    if 0 < s.jmSemFetchSubmissions then
      some { s with main := .fetch, jmSemFetchSubmissions := s.jmSemFetchSubmissions - 1 }
    else some { s with main := .update }
  | .update, .update => some { s with main := .semWait }
  | .worker i a, _ => s.workerStep i a
  | _, _ => none

end LoopState

variable [DecidableEq ι]

/-- **The daemon at work.** -/
def loopRoutine (N : ℕ) (ι : Type*) [DecidableEq ι] : TransSystem (LoopState N ι) (LoopStep ι) where
  Init s := s = LoopState.initLoop N ι
  step := LoopState.step

/-- The submission is to be judged in exactly one of the two modes. -/
def Submission.OneMode (submit : Submission) : Prop :=
  (submit.hasMode .debug = true ∧ submit.hasMode .release = false) ∨
    (submit.hasMode .debug = false ∧ submit.hasMode .release = true)

/-- The step fetches no other submission. -/
def FetchesOneMode (_ : LoopState N ι) : LoopStep ι → Prop
  | .fetched submit => submit.OneMode
  | _ => True

variable {i : ι}

/-- **What a step of a worker can do.** -/
theorem LoopState.workerStep_cases {a : TaskStep} (h : s.workerStep i a = some s') :
    ∃ judges, s.judges.step (i, a) = some judges ∧
      ((a = .request ∧ ∃ task rest, s.queTasks = task :: rest ∧
        s' = { s with judges := judges, queTasks := rest }) ∨
      (a = .postFetch ∧
        s' = { s with judges := judges, jmSemFetchSubmissions := s.jmSemFetchSubmissions + 1 }) ∨
      (a ≠ .request ∧ a ≠ .postFetch ∧ s' = { s with judges := judges })) := by
  obtain ⟨judges, hjudges, h⟩ := Option.bind_eq_some_iff.mp h
  refine ⟨judges, hjudges, ?_⟩
  cases a with
  | request =>
    cases hque : s.queTasks with
    | nil => simp [hque] at h
    | cons task rest => exact Or.inl ⟨rfl, task, rest, rfl, by simpa [hque] using h.symm⟩
  | postFetch => exact Or.inr (Or.inl ⟨rfl, (Option.some.inj h).symm⟩)
  | _ => exact Or.inr (Or.inr ⟨by simp, by simp, (Option.some.inj h).symm⟩)

/-- **What a step can do.** -/
theorem LoopState.step_cases {a : LoopStep ι} (h : s.step a = some s') :
    (∃ i b, a = .worker i b ∧ s.workerStep i b = some s') ∨
    ((s.main = .semWait ∨ s.main = .tryWait) ∧ 0 < s.jmSemFetchSubmissions ∧
      s' = { s with main := .fetch, jmSemFetchSubmissions := s.jmSemFetchSubmissions - 1 }) ∨
    (∃ submit, a = .fetched submit ∧ s.main = .fetch ∧ s' = { s with main := .addDebug submit }) ∨
    (∃ submit, s.main = .addDebug submit ∧ s' = s.addMode submit .debug (.addRelease submit)) ∨
    (∃ submit, s.main = .addRelease submit ∧ s' = s.addMode submit .release .tryWait) ∨
    (s.main = .tryWait ∧ s' = { s with main := .update }) ∨
    (s.main = .update ∧ s' = { s with main := .semWait }) := by
  simp only [step] at h
  split at h
  · next hmain =>
    split at h
    · next hsem => exact Or.inr (Or.inl ⟨Or.inl hmain, hsem, (Option.some.inj h).symm⟩)
    · cases h
  · next submit hmain =>
    exact Or.inr (Or.inr (Or.inl ⟨submit, rfl, hmain, (Option.some.inj h).symm⟩))
  · next submit hmain =>
    exact Or.inr (Or.inr (Or.inr (Or.inl ⟨submit, hmain, (Option.some.inj h).symm⟩)))
  · next submit hmain =>
    exact Or.inr (Or.inr (Or.inr (Or.inr (Or.inl ⟨submit, hmain, (Option.some.inj h).symm⟩))))
  · next hmain =>
    split at h
    · next hsem => exact Or.inr (Or.inl ⟨Or.inr hmain, hsem, (Option.some.inj h).symm⟩)
    · exact Or.inr (Or.inr (Or.inr (Or.inr (Or.inr (Or.inl
        ⟨hmain, (Option.some.inj h).symm⟩)))))
  · next hmain =>
    exact Or.inr (Or.inr (Or.inr (Or.inr (Or.inr (Or.inr ⟨hmain, (Option.some.inj h).symm⟩)))))
  · next i b => exact Or.inl ⟨i, b, rfl, h⟩
  · cases h

/-! ### The workers are those of the judges -/

/-- A step of the daemon is a step of a worker or does not touch the judges. -/
theorem LoopState.step_judges {a : LoopStep ι} (h : s.step a = some s') :
    s'.judges = s.judges ∨ ∃ b, s.judges.step b = some s'.judges := by
  rcases step_cases h with ⟨i, b, -, hworker⟩ | ⟨-, -, rfl⟩ | ⟨submit, -, -, rfl⟩ |
    ⟨submit, -, rfl⟩ | ⟨submit, -, rfl⟩ | ⟨-, rfl⟩ | ⟨-, rfl⟩
  · obtain ⟨judges, hjudges, hcases⟩ := workerStep_cases hworker
    refine Or.inr ⟨(i, b), ?_⟩
    rcases hcases with ⟨-, task, rest, -, rfl⟩ | ⟨-, rfl⟩ | ⟨-, -, rfl⟩ <;> exact hjudges
  all_goals exact Or.inl (by simp)

/-- **What is proved of the judges holds in the daemon.** -/
theorem judges_reachable_of_loopRoutine (h : (loopRoutine N ι).Reachable s) :
    (judges N ι).Reachable s.judges :=
  h.map LoopState.judges (by rintro _ rfl; rfl) fun _ _ _ hstep => LoopState.step_judges hstep

/-! ### The balance of permits -/

/-- The permit that the main loop holds: it has taken one and has not yet queued the
task that is to return it. -/
def permitPending : MainLoc → ℕ
  | .fetch => 1
  | .addDebug _ => 1
  | .addRelease submit => if submit.hasMode .debug then 0 else 1
  | _ => 0

variable [Fintype ι]

/-- The workers whose `release_judge` has not yet returned a permit. -/
def JudgesState.running (s : JudgesState N ι) : ℕ := countIn (· ≠ .idle) s.loc

theorem JudgesState.running_move (s : JudgesState N ι) (i : ι) (k : TaskLoc N) :
    (s.move i k).running + (if s.loc i ≠ .idle then 1 else 0)
      = s.running + (if k ≠ .idle then 1 else 0) :=
  countIn_update s.loc i k

/-- The first step of a worker makes it a running one, and the last one ends that. -/
theorem JudgesState.running_step {s s' : JudgesState N ι} {a : TaskStep}
    (h : s.step (i, a) = some s') :
    s'.running + (if a = .postFetch then 1 else 0)
      = s.running + (if a = .request then 1 else 0) := by
  rcases JudgesState.step_cases h with ⟨rfl, hloc, rfl⟩ | ⟨rfl, hloc, -, rfl⟩ | ⟨rfl, hloc, rfl⟩ |
    ⟨rfl, jdg, hloc, rfl⟩ | ⟨rfl, hloc, rfl⟩ | ⟨rfl, hloc, rfl⟩
  · simpa [hloc] using s.running_move i .requesting
  · change (s.move i .passedSem).running + _ = _
    simpa [hloc] using s.running_move i .passedSem
  · change (s.move i (.using _)).running + _ = _
    simpa [hloc] using s.running_move i (.using (firstAvailable s.jmJudgesFlag))
  · change (s.move i .freed).running + _ = _
    simpa [hloc] using s.running_move i .freed
  · change (s.move i .posted).running + _ = _
    simpa [hloc] using s.running_move i .posted
  · simpa [hloc] using s.running_move i .idle

/-- **The balance, with the modes of the submission at hand.** -/
structure PermitInv (s : LoopState N ι) : Prop where
  balance : s.queTasks.length + s.judges.running + s.jmSemFetchSubmissions
    + permitPending s.main = N
  oneMode : ∀ submit, s.main = .addDebug submit ∨ s.main = .addRelease submit → submit.OneMode

omit [DecidableEq ι] in
theorem permitInv_init : PermitInv (LoopState.initLoop N ι) where
  balance := by
    simp [LoopState.initLoop, JudgesState.initJudges, JudgesState.running, permitPending,
      countIn_const]
  oneMode submit h := by simp [LoopState.initLoop] at h

theorem PermitInv.workerStep {a : TaskStep} (hinv : PermitInv s)
    (h : s.workerStep i a = some s') : PermitInv s' := by
  obtain ⟨judges, hjudges, hcases⟩ := LoopState.workerStep_cases h
  have hrunning := JudgesState.running_step hjudges
  have hbalance := hinv.balance
  rcases hcases with ⟨rfl, task, rest, hque, rfl⟩ | ⟨rfl, rfl⟩ | ⟨hrequest, hpost, rfl⟩
  · refine ⟨?_, hinv.oneMode⟩
    simp only [hque, List.length_cons, if_true, reduceCtorEq, if_false] at hbalance hrunning ⊢
    omega
  · refine ⟨?_, hinv.oneMode⟩
    simp only [if_true, reduceCtorEq, if_false] at hrunning ⊢
    omega
  · refine ⟨?_, hinv.oneMode⟩
    simp only [if_neg hrequest, if_neg hpost] at hrunning ⊢
    omega

/-- **Every step keeps the balance**, if it fetches no submission with two modes or
none. -/
theorem PermitInv.step {a : LoopStep ι} (hinv : PermitInv s) (hok : FetchesOneMode s a)
    (h : s.step a = some s') : PermitInv s' := by
  have hbalance := hinv.balance
  rcases LoopState.step_cases h with ⟨i, b, -, hworker⟩ | ⟨hmain, hsem, rfl⟩ |
    ⟨submit, rfl, hmain, rfl⟩ | ⟨submit, hmain, rfl⟩ | ⟨submit, hmain, rfl⟩ | ⟨hmain, rfl⟩ |
    ⟨hmain, rfl⟩
  · exact hinv.workerStep hworker
  · -- a permit is taken, by `sem_wait` or by `sem_trywait`
    refine ⟨?_, by simp⟩
    rcases hmain with hmain | hmain <;> rw [hmain] at hbalance <;>
      simp only [permitPending] at hbalance ⊢ <;> omega
  · rw [hmain] at hbalance
    exact ⟨hbalance, by rintro submit' (h | h) <;> cases h; exact hok⟩
  · -- with `NojMode_Debug` the permit goes over to the task
    have hone := hinv.oneMode submit (Or.inl hmain)
    rw [hmain] at hbalance
    refine ⟨?_, ?_⟩
    · rw [LoopState.addMode_queTasks_length]
      simp only [LoopState.addMode_judges, LoopState.addMode_jmSemFetchSubmissions,
        LoopState.addMode_main, permitPending] at hbalance ⊢
      split <;> omega
    · rintro submit' (h | h) <;> rw [LoopState.addMode_main] at h <;> cases h
      exact hone
  · -- with `NojMode_Release` it does so here, as it has not before
    have hone := hinv.oneMode submit (Or.inr hmain)
    rw [hmain] at hbalance
    refine ⟨?_, by simp⟩
    rw [LoopState.addMode_queTasks_length]
    simp only [LoopState.addMode_judges, LoopState.addMode_jmSemFetchSubmissions,
      LoopState.addMode_main, permitPending] at hbalance ⊢
    rcases hone with ⟨hdebug, hrelease⟩ | ⟨hdebug, hrelease⟩ <;>
      simp only [hdebug, hrelease, if_true, Bool.false_eq_true, if_false] at hbalance ⊢ <;> omega
  · rw [hmain] at hbalance
    exact ⟨hbalance, by simp⟩
  · rw [hmain] at hbalance
    exact ⟨hbalance, by simp⟩

/-- **The balance of permits.** In every run that fetches only submissions with one
mode, the tasks that are queued or running, the value of the semaphore and the permit in
the hands of the main loop add up to the number of judges in every state reached; so
there are never more tasks in flight than judges. -/
theorem loopRoutine_permits (h : (loopRoutine N ι).ReachableBy FetchesOneMode s) :
    s.queTasks.length + s.judges.running + s.jmSemFetchSubmissions + permitPending s.main = N ∧
      s.queTasks.length + s.judges.running ≤ N := by
  have hinv : PermitInv s := h.invariant (by rintro _ rfl; exact permitInv_init)
    fun _ _ _ _ hinv hok hstep => hinv.step hok hstep
  have hbalance := hinv.balance
  exact ⟨hbalance, by omega⟩

/-- One submission in release mode, up to the point where its task is queued. -/
theorem loopRoutine_permits_released : ∃ s : LoopState 1 (Fin 1),
    s.main = .tryWait ∧ s.queTasks.length = 1 ∧
      s.queTasks.length + s.judges.running + s.jmSemFetchSubmissions + permitPending s.main = 1 :=
  have hrun : (loopRoutine 1 (Fin 1)).ReachableBy FetchesOneMode _ :=
    TransSystem.ReachableBy.run (.init rfl)
      (show ∀ s, ∀ a ∈ [LoopStep.semWait, .fetched (.released 1000 7), .addDebug, .addRelease],
        FetchesOneMode (s : LoopState 1 (Fin 1)) a from fun s a ha => by
          simp only [List.mem_cons, List.not_mem_nil, or_false] at ha
          rcases ha with rfl | rfl | rfl | rfl
          exacts [trivial, Or.inr ⟨by decide, by decide⟩, trivial, trivial])
      (show (loopRoutine 1 (Fin 1)).run (LoopState.initLoop 1 (Fin 1)) _ = some _ from rfl)
  ⟨_, rfl, rfl, (loopRoutine_permits hrun).1⟩

/-- A submission that is fetched to be judged in both modes takes one permit and makes two
tasks: one judge, and two tasks in flight. -/
theorem loopRoutine_twoModes : ∃ s : LoopState 1 (Fin 1),
    (loopRoutine 1 (Fin 1)).Reachable s ∧ s.main = .tryWait ∧
      s.queTasks.length + s.judges.running + s.jmSemFetchSubmissions + permitPending s.main = 2 :=
  have hrun : (loopRoutine 1 (Fin 1)).Reachable _ := TransSystem.reachable_of_run rfl
    (show (loopRoutine 1 (Fin 1)).run (LoopState.initLoop 1 (Fin 1))
      [.semWait, .fetched { Submission.released 1000 7 with sbmJudgeSet := 0x03 }, .addDebug,
        .addRelease] = some _ from rfl)
  ⟨_, hrun, rfl, by decide⟩

end LoopRoutine

end NpuOj
