import NpuOj.Lang.JudgeVerdict

/-!
# What the results of a submission record

`LangC::judge` appends one `Result` for every test case. It is the one that `launch` has
built, or, where the run passed, a new one that `check` builds from the submission; the
measurements of `launch` are then gone. The mode is the one that the constructor sets, and
nobody writes the number of the test case.

`NpuOj.judge_records` says what is recorded, and `NpuOj.judge_records_iff` that this is all
one would want only where there is nothing to record.
-/

namespace NpuOj

open Posix Outcome

/-! ### What says which run a result belongs to -/

/-- The fields that say which run a result belongs to. -/
def Result.run (res : Result) : ℤ × NojLanguage × NojJudgeMode × Option ℤ :=
  (res.resSbmId, res.resLang, res.resJudgeMode, res.resTcId)

section Run

variable {pf : Platform} {rl rl' : ResourceLimit} {sysCallInit s : Option SyscallLimits}
  {heap : SyscallLimits} {jdg : Judge} {submit : Submission} {tc : TestCase} {reply : CheckReply}
  {res : Result}

theorem checkSyscall_run {st st' : LaunchState} {nr : ℤ}
    (h : checkSyscall st nr = .next st' ∨ checkSyscall st nr = .stop st') :
    st'.res.run = st.res.run := by
  simp only [checkSyscall] at h
  repeat' split at h
  all_goals rcases h with h | h <;> cases h <;> rfl

theorem launchStep_run {st st' : LaunchState} {e : WaitEvent} {timeLeft : ℤ}
    (h : launchStep pf rl timeLeft st e = .next st' ∨ launchStep pf rl timeLeft st e = .stop st') :
    st'.res.run = st.res.run := by
  have hsampled : (if rl.memoryLimit.isSet = true then raiseMaxMemory st.res (memFigure pf e)
      else st.res).run = st.res.run := by
    split <;> rfl
  simp only [launchStep, launchStepWith] at h
  generalize (if rl.memoryLimit.isSet = true then raiseMaxMemory st.res (memFigure pf e)
    else st.res) = res at h hsampled
  repeat' split at h
  all_goals try (rcases h with h | h <;> cases h <;> exact hsampled)
  exact (checkSyscall_run h).trans hsampled

/-- A launch does not change it. -/
theorem launch_run {run : LaunchRun}
    (h : launch pf sysCallInit heap submit rl run = .ret (res, rl', s)) :
    res.run = (Result.ofSubmission submit).run := by
  obtain ⟨-, ⟨-, -, rfl⟩ | ⟨-, st, rest, vmPeak, -, hloop, rfl, -⟩⟩ := launch_cases h
  · rfl
  · have hst : st.res.run = (Result.ofSubmission submit).run :=
      runLoop_invariant (I := fun st => st.res.run = (Result.ofSubmission submit).run)
        (fun _ _ _ hs hnext => (launchStep_run (Or.inl hnext)).trans hs)
        (fun _ _ _ hs hstop => (launchStep_run (Or.inr hstop)).trans hs) rfl hloop
    rw [← hst, samplePeak]
    split <;> rfl

theorem check_run : (check jdg submit tc reply).run = (Result.ofSubmission submit).run := by
  simp only [check, checkNormal]
  repeat' split
  all_goals rfl

/-- What check builds has no measurements. -/
theorem check_measured : (check jdg submit tc reply).resElapsedTime = {} ∧
    (check jdg submit tc reply).resMaxMemory = {} := by
  simp only [check, checkNormal]
  repeat' split
  all_goals exact ⟨rfl, rfl⟩

end Run

/-! ### What a result should record, and what it does -/

section Records

variable {ctx : LoadContext} {lang : LangCDebug} {jdg : Judge} {submit submit' : Submission}
  {st st' : DaemonState ctx} {replies : JudgeReplies} {prob : Problem} {res : Result}
  {stat : NojState}

/-- What `launch` returns for one test case. -/
def launchedResult (ctx : LoadContext) (submit : Submission) (rl : ResourceLimit)
    (block : SyscallLimits) (run : TestRun) : Outcome Fault Result :=
  (launch ctx.platform (some block) block submit rl run.launch).bind fun r => .ret r.1

/-- **The result records the run it belongs to**: submission, language, mode, test case,
and what was measured if the program was launched. -/
structure RecordsRun (submit : Submission) (tc : TestCase) (run : TestRun)
    (launched res : Result) : Prop where
  sbmId : res.resSbmId = submit.sbmId
  lang : res.resLang = submit.sbmLang
  judgeMode : res.resJudgeMode = submit.sbmCurMode
  tcId : res.resTcId = some tc.tcId
  measured : run.launch.pid ≠ none →
    res.resElapsedTime = launched.resElapsedTime ∧ res.resMaxMemory = launched.resMaxMemory

/-- What the result does record: the mode and the test case are missing, and so is what
was measured where the output has been checked. -/
structure RecordsPart (submit : Submission) (launched res : Result) : Prop where
  sbmId : res.resSbmId = submit.sbmId
  lang : res.resLang = submit.sbmLang
  judgeMode : res.resJudgeMode = .unSet
  tcId : res.resTcId = none
  measured : launched.resType ≠ .runPass →
    res.resElapsedTime = launched.resElapsedTime ∧ res.resMaxMemory = launched.resMaxMemory
  checked : launched.resType = .runPass → res.resElapsedTime = {} ∧ res.resMaxMemory = {}

/-- One result for every test case, in their order, each related to what was launched for
the test case. -/
def ResultsFor (jdg : Judge) (submit : Submission) (st : DaemonState ctx) (replies : JudgeReplies)
    (prob : Problem) (R : TestCase → TestRun → Result → Result → Prop)
    (results : List Result) : Prop :=
  List.Forall₂ (fun x res => ∃ launched,
    launchedResult ctx submit (rlLaunch jdg prob) (sysCallBlock st.sysCallInit replies.heap)
      (replies.tests x.2) = .ret launched ∧ R x.1 (replies.tests x.2) launched res)
    (prob.probTestcases.zipIdx 0) results

theorem recordsPart_of_testResult {rl : ResourceLimit} {block : SyscallLimits} {run : TestRun}
    {tc : TestCase} (file : String)
    (h : testResult ctx jdg submit rl block run tc = .ret res) :
    ∃ launched, launchedResult ctx submit rl block run = .ret launched ∧
      RecordsPart submit launched { res with resOutputFile := file } := by
  obtain ⟨⟨launched, rl', s⟩, hlaunch, hret⟩ := bind_eq_ret_iff.mp h
  refine ⟨launched, by rw [launchedResult, hlaunch, ret_bind], ?_⟩
  have hrun : res.run = (Result.ofSubmission submit).run := by
    rw [← ret.inj hret]
    split
    · exact check_run
    · exact launch_run hlaunch
  simp only [Result.run, Result.ofSubmission, Prod.mk.injEq] at hrun
  obtain ⟨hid, hlang, hmode, htc⟩ := hrun
  refine ⟨hid, hlang, hmode, htc, fun hne => ?_, fun hpass => ?_⟩
  · obtain rfl : launched = res := by simpa [hne] using hret
    exact ⟨rfl, rfl⟩
  · obtain rfl : check jdg submit tc run.check = res := by simpa [hpass] using hret
    exact check_measured

/-- **What the results record.** -/
theorem judge_records (hprob : problemOf submit st replies = .ret prob)
    (hres : compilationOf ctx lang jdg submit replies = .ret res)
    (hpass : res.resType = .compilePass)
    (h : judge lang jdg submit st replies = .ret (stat, submit', st')) :
    ∃ results, submit'.sbmResults = submit.sbmResults ++ results ∧
      ResultsFor jdg submit st replies prob (fun _ _ => RecordsPart submit) results := by
  obtain ⟨results, happend, hall⟩ := judge_results hprob hres hpass h
  refine ⟨results, happend, hall.imp ?_⟩
  rintro x _ ⟨res', file, hres', rfl⟩
  exact recordsPart_of_testResult file hres'

/-- **When the results record their runs**: every result of a submission that compiles has
its submission, language, mode, test case and measurements exactly if the problem has no
test case. -/
theorem judge_records_iff (hprob : problemOf submit st replies = .ret prob)
    (hres : compilationOf ctx lang jdg submit replies = .ret res)
    (hpass : res.resType = .compilePass)
    (h : judge lang jdg submit st replies = .ret (stat, submit', st')) :
    (∃ results, submit'.sbmResults = submit.sbmResults ++ results ∧
      ResultsFor jdg submit st replies prob (RecordsRun submit) results) ↔
    prob.probTestcases = [] := by
  obtain ⟨results, happend, hpart⟩ := judge_records hprob hres hpass h
  constructor
  · rintro ⟨results', happend', hall⟩
    obtain rfl : results = results' := List.append_cancel_left (happend.symm.trans happend')
    -- the first result has no test case
    by_contra hne
    obtain ⟨tc, tcs, htcs⟩ := List.exists_cons_of_ne_nil hne
    rw [ResultsFor, htcs, List.zipIdx_cons] at hpart hall
    rcases hpart with _ | ⟨⟨_, -, hrecord⟩, -⟩
    rcases hall with _ | ⟨⟨_, -, hrecord'⟩, -⟩
    cases hrecord.tcId.symm.trans hrecord'.tcId
  · intro hempty
    rw [ResultsFor, hempty] at hpart
    refine ⟨results, happend, ?_⟩
    rw [ResultsFor, hempty]
    rcases hpart with _ | _
    exact .nil

/-- The judge for C in release mode, as it is installed. -/
def cRelease : LangCDebug := ⟨some "/usr/local/noj/scripts/compile_c_release.sh"⟩

/-- The first judge of the daemon. -/
def judge0 : Judge := ⟨"/home/noj/judge0", 1001⟩

/-- A world with one test case, on which the program exits after 40 ms and answers
correctly. -/
def oneTest : JudgeReplies where
  load :=
    { limits := .rows [⟨some "1000", some "67108864"⟩]
      tests := .rows [⟨some "5", some "/tc/5.in", some "/tc/5.out"⟩]
      downloads := fun _ => ⟨fun _ => 0, fun _ => 0⟩
      leftover := fun _ => 0 }
  compile _ _ := ⟨0, some 4242, some (.status 0), []⟩
  tests _ := ⟨⟨some 4243, [⟨.exited 0, ⟨⟨0, 40000⟩, ⟨0, 0⟩, 100⟩, 0⟩], some 4096⟩,
    ⟨fun _ => 0, fun _ => 0⟩⟩
  heap _ := 0

/-- A problem without test cases: there is nothing to record. With one, there is something that is
not recorded. -/
theorem judge_records_iff_databaseDown :
    (∃ submit' st',
      judge cRelease judge0 (.released 1000 7) (.start nojContext) databaseDown
        = .ret (.normal, submit', st') ∧
      ∃ results, submit'.sbmResults = (Submission.released 1000 7).sbmResults ++ results ∧
        ResultsFor judge0 (.released 1000 7) (.start nojContext) databaseDown {}
          (RecordsRun (.released 1000 7)) results) ∧
    ∃ prob submit' st', problemOf (.released 1000 7) (.start nojContext) oneTest = .ret prob ∧
      judge cRelease judge0 (.released 1000 7) (.start nojContext) oneTest
        = .ret (.normal, submit', st') ∧
      ¬∃ results, submit'.sbmResults = (Submission.released 1000 7).sbmResults ++ results ∧
        ResultsFor judge0 (.released 1000 7) (.start nojContext) oneTest prob
          (RecordsRun (.released 1000 7)) results := by
  constructor
  · have hprob : problemOf (.released 1000 7) (.start nojContext) databaseDown = .ret {} := rfl
    have hres : compilationOf nojContext cRelease judge0 (.released 1000 7) databaseDown
        = .ret _ := rfl
    have hjudge : judge cRelease judge0 (.released 1000 7) (.start nojContext) databaseDown
        = .ret (.normal, _, _) := rfl
    exact ⟨_, _, hjudge, (judge_records_iff hprob hres rfl hjudge).mpr rfl⟩
  · have hprob : problemOf (.released 1000 7) (.start nojContext) oneTest = .ret _ := rfl
    have hres : compilationOf nojContext cRelease judge0 (.released 1000 7) oneTest
        = .ret _ := rfl
    have hjudge : judge cRelease judge0 (.released 1000 7) (.start nojContext) oneTest
        = .ret (.normal, _, _) := rfl
    refine ⟨_, _, _, hprob, hjudge, fun hrecords => ?_⟩
    have hempty := (judge_records_iff hprob hres rfl hjudge).mp hrecords
    cases hempty

/-- The submission is in release mode, the test case has the number 5, and `launch` has
measured 40 ms; the result says none of this. -/
theorem judge_oneTest : ∃ submit' st' prob launched res,
    problemOf (.released 1000 7) (.start nojContext) oneTest = .ret prob ∧
    prob.probTestcases.map TestCase.tcId = [5] ∧
    judge cRelease judge0 (.released 1000 7) (.start nojContext) oneTest
      = .ret (.normal, submit', st') ∧
    submit'.sbmResults = [res] ∧ submit'.sbmCurMode = .release ∧ res.resJudgeMode = .unSet ∧
    res.resTcId = none ∧
    launchedResult nojContext (.released 1000 7) (rlLaunch judge0 prob)
      (sysCallBlock none oneTest.heap) (oneTest.tests 0) = .ret launched ∧
    launched.resElapsedTime = ⟨40, true⟩ ∧ res.resElapsedTime = ⟨0, false⟩ :=
  ⟨_, _, _, _, _, rfl, rfl, rfl, rfl, rfl, rfl, rfl, rfl, rfl, rfl⟩

end Records

end NpuOj
