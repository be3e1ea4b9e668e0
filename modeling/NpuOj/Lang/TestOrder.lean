import NpuOj.Lang.JudgeVerdict
import NpuOj.Lang.Sandbox
import NpuOj.Lib.Accumulate

/-!
# The order of the test cases

`LangC::judge` runs a program on one test case after the other, with the same limits and in
the same work directory. The budgets and the limit on files are set anew for every launch,
`stdin.in` is copied and `stdout.out` is emptied; but `stderr.out` is opened for append and
never emptied, and grows until it meets the limit on files.

So the verdict on a test case depends on the bytes that the test cases before it have
written to `stderr.out`, and on nothing else: `NpuOj.sandboxJudge_eq_ret_iff`. When the
order of the test cases plays no role is `NpuOj.sandboxJudge_perm_iff`. That the loop in its
work directory is the one of `judge` is `NpuOj.judge_of_sandboxJudge`.
-/

namespace NpuOj

open Posix Outcome

/-! ### The loop in its work directory -/

/-- A test case with its local input file, and what the two comparisons answer when
`stdout.out` holds the given bytes. -/
structure SandboxTest where
  tc : TestCase
  input : List UInt8
  answer : List UInt8 → CheckReply

/-- The files at the last stop that the parent reads. -/
def filesAfter (pf : Platform) (rl : ResourceLimit) (submit : Submission)
    (stops : List (WaitEvent × WorkDir)) (dir : WorkDir) : WorkDir :=
  match launchLoop pf rl submit (stops.map Prod.fst) with
  | .ret (_, unread) => (stops[stops.length - unread.length - 1]?.map Prod.snd).getD dir
  | _ => dir

/-- What the world answers to the launch and the check of a test case in the given work
directory, and the files afterwards. -/
def sandboxRun (pf : Platform) (rl : ResourceLimit) (submit : Submission)
    (program : List UInt8 → Behaviour) (test : SandboxTest) (dir : WorkDir) : TestRun × WorkDir :=
  let run := program dir.stdinIn
  let stops := childStops rl.fileLimit.getByte run.steps dir
  let dir := filesAfter pf rl submit stops dir
  (⟨⟨some 1, stops.map Prod.fst, some run.vmPeak⟩, test.answer dir.stdoutOut⟩, dir)

section Loop

variable {ctx : LoadContext}

/-- The files after the output of a wrong answer has been moved away. -/
def outputKept (s : TestsState ctx) (dir : WorkDir) : WorkDir :=
  match s.submit.sbmResults.getLast? with
  | some res =>
    if res.resType = .wrongAnswer ∨ res.resType = .presentationError then
      { dir with stdoutOut := [] }
    else dir
  | none => dir

@[simp] theorem outputKept_stderrOut (s : TestsState ctx) (dir : WorkDir) :
    (outputKept s dir).stderrOut = dir.stderrOut := by
  rw [outputKept]
  split
  · split <;> rfl
  · rfl

/-- **The body of the loop** on a test case whose input is copied and for which a child is
made: what the program does is decided by `stdin.in`. -/
def sandboxTest (jdg : Judge) (heap : SyscallLimits) (program : List UInt8 → Behaviour)
    (test : SandboxTest) (s : TestsState ctx × WorkDir) :
    Outcome Fault (TestsState ctx × WorkDir) :=
  let dir := { s.2 with stdinIn := test.input }.reopened
  let rl := launchLimits ctx.platform s.1.st.sysCallInit heap s.1.rlLaunch
  let (run, dir) := sandboxRun ctx.platform rl s.1.submit program test dir
  (judgeTest jdg heap run test.tc s.1).bind fun s => .ret (s, outputKept s dir)

/-- The loop. -/
def sandboxTests (jdg : Judge) (heap : SyscallLimits) (program : List UInt8 → Behaviour) :
    List SandboxTest → TestsState ctx × WorkDir → Outcome Fault (TestsState ctx × WorkDir)
  | [], s => .ret s
  | test :: tests, s =>
    (sandboxTest jdg heap program test s).bind fun s => sandboxTests jdg heap program tests s

/-- **The loop of `LangC::judge`**, from a submission that has been compiled, the limits of
its problem and a work directory: the verdicts that are appended to `sbm_results`, and
`sbm_res_type`. -/
def sandboxJudge (jdg : Judge) (heap : SyscallLimits) (program : List UInt8 → Behaviour)
    (submit : Submission) (rl : ResourceLimit) (st : DaemonState ctx) (tests : List SandboxTest)
    (dir : WorkDir) : Outcome Fault (List NojResult × NojResult) :=
  (sandboxTests jdg heap program tests
    (⟨{ submit with sbmResType := .compilePass }, rl, true, st⟩, dir)).bind fun s =>
      .ret ((s.1.submit.sbmResults.drop submit.sbmResults.length).map Result.resType,
        if s.1.flgAc then .accept else .notAccept)

end Loop

/-! ### One test case -/

section Test

variable {ctx : LoadContext} {jdg : Judge} {submit : Submission} {rl : ResourceLimit}
  {block heap : SyscallLimits} {program : List UInt8 → Behaviour} {test : SandboxTest}
  {tests : List SandboxTest} {dir : WorkDir} {σ : ℕ} {s : TestsState ctx} {results : List Result}

/-- The run of the program on a test case, if nothing limits `stderr.out`. -/
def runAlone (ctx : LoadContext) (rl : ResourceLimit) (program : List UInt8 → Behaviour)
    (test : SandboxTest) : FreeRun :=
  freeRun ctx.platform rl (rlimitFsize ctx.platform) [] (program test.input).steps []

/-- How much the program writes to `stderr.out` on a test case. -/
def stderrOf (ctx : LoadContext) (rl : ResourceLimit) (program : List UInt8 → Behaviour)
    (test : SandboxTest) : ℕ :=
  (runAlone ctx rl program test).stderrSize

/-- The verdict after the last sample of memory and the check of the output. -/
def checkedVerdict (ctx : LoadContext) (jdg : Judge) (submit : Submission) (rl : ResourceLimit)
    (test : SandboxTest) (vmPeak : ℤ) (stdout : List UInt8) (v : NojResult) : NojResult :=
  if OverPeak ctx.platform rl vmPeak then .memoryLimitExceed
  else if v = .runPass then (check jdg submit test.tc (test.answer stdout)).resType else v

/-- **The verdict on a test case** with `σ` bytes in `stderr.out`. -/
def sandboxVerdict (ctx : LoadContext) (jdg : Judge) (submit : Submission) (rl : ResourceLimit)
    (program : List UInt8 → Behaviour) (test : SandboxTest) (σ : ℕ) : Outcome Fault NojResult :=
  let run := runAlone ctx rl program test
  (run.outcomeBehind (rlimitFsize ctx.platform) σ).bind fun v =>
    .ret (checkedVerdict ctx jdg submit rl test (program test.input).vmPeak run.stdout v)

/-- The files are those at the stop that ends the loop. -/
theorem filesAfter_of_ret {pf : Platform} (dir : WorkDir)
    {before after : List (WaitEvent × WorkDir)} {stop : WaitEvent} {dir' : WorkDir}
    {st : LaunchState} (h : launchLoop pf rl submit ((before ++ (stop, dir') :: after).map Prod.fst)
      = .ret (st, after.map Prod.fst)) :
    filesAfter pf rl submit (before ++ (stop, dir') :: after) dir = dir' := by
  have hlast : (before ++ (stop, dir') :: after).length - (after.map Prod.fst).length - 1
      = before.length := by
    simp only [List.length_append, List.length_cons, List.length_map]
    omega
  simp only [filesAfter, h, hlast, List.getElem?_append_right le_rfl, Nat.sub_self,
    List.getElem?_cons_zero, Option.map_some, Option.getD_some]

/-- **The loop of `launch`** and the stops that it reads. -/
theorem launchLoop_readStops (pf : Platform) (rl : ResourceLimit) (submit : Submission)
    (stops : List (WaitEvent × WorkDir)) (dir : WorkDir) :
    let loop := launchLoop pf rl submit (stops.map Prod.fst)
    (∃ st unread v, loop = .ret (st, unread) ∧ st.res.resType = v ∧
      (rl.memoryLimit.isSet = true →
        st.res.resMaxMemory.getByte ≤ rl.memoryLimit.getByte ∨ v = .memoryLimitExceed) ∧
      readStops pf rl [] stops = .ret (v, filesAfter pf rl submit stops dir)) ∨
    (∃ e, loop = .fault e ∧ readStops pf rl [] stops = .fault e) ∨
    loop = .pending ∧ readStops pf rl [] stops = .pending := by
  have hnil : Passes (eventVerdict pf rl) [] := passes_nil
  have hmap (before after : List (WaitEvent × WorkDir)) (stop : WaitEvent) (dir' : WorkDir) :
      (before ++ (stop, dir') :: after).map Prod.fst
        = before.map Prod.fst ++ stop :: after.map Prod.fst := by
    rw [List.map_append, List.map_cons]
  rcases readStops_cases stops hnil with
    ⟨before, stop, dir', after, v, rfl, hpass, hv, hin, hret⟩ |
    ⟨before, stop, dir', after, rfl, hpass, hcheck, hout, hfault⟩ | ⟨hpass, hpending⟩
  · obtain ⟨st, hloop, htype, hmax⟩ :=
      launchLoop_of_first submit (after.map Prod.fst) hin hpass hv
    rw [List.nil_append, ← hmap before after stop dir'] at hloop
    rw [filesAfter_of_ret dir hloop]
    exact Or.inl ⟨st, after.map Prod.fst, v, hloop, htype, hmax, hret⟩
  · have hloop := launchLoop_of_not_inTable submit (after.map Prod.fst) hpass hcheck hout
    rw [List.nil_append, ← hmap before after stop dir'] at hloop
    exact Or.inr (Or.inl ⟨_, hloop, hfault⟩)
  · exact Or.inr (Or.inr ⟨launchLoop_of_passes hpass, hpending⟩)

/-- A launch and its check, from what the loop reads. -/
theorem testVerdict_readStops (jdg : Judge) (submit : Submission) (rl : ResourceLimit)
    (block : SyscallLimits) (test : SandboxTest) (stops : List (WaitEvent × WorkDir))
    (vmPeak : ℤ) (dir : WorkDir) :
    let watched := launchLimits ctx.platform (some block) heap rl
    let last := filesAfter ctx.platform watched submit stops dir
    testVerdict ctx jdg submit rl block
        ⟨⟨some 1, stops.map Prod.fst, some vmPeak⟩, test.answer last.stdoutOut⟩ test.tc
      = (readStops ctx.platform watched [] stops).bind fun r =>
        .ret (checkedVerdict ctx jdg submit watched test vmPeak r.2.stdoutOut r.1) := by
  intro watched last
  have hwatched : watched = _ := launchLimits_some ctx.platform block heap rl
  have hlaunch (answer : CheckReply) : testVerdict ctx jdg submit rl block
        ⟨⟨some 1, stops.map Prod.fst, some vmPeak⟩, answer⟩ test.tc
      = (launchLoop ctx.platform watched submit (stops.map Prod.fst)).bind fun r =>
        .ret (if (samplePeak ctx.platform watched r.1.res vmPeak).resType = .runPass then
          (check jdg submit test.tc answer).resType
          else (samplePeak ctx.platform watched r.1.res vmPeak).resType) := by
    simp only [testVerdict, launch, launchWith, initSystemCallLimits_some, hwatched]
    rcases launchLoop ctx.platform _ submit (stops.map Prod.fst) with r | e | _ <;> rfl
  rw [hlaunch]
  rcases launchLoop_readStops ctx.platform watched submit stops dir with
    ⟨st, unread, v, hloop, htype, hmax, hret⟩ | ⟨e, hloop, hfault⟩ | ⟨hloop, hpending⟩
  · have hpeak : (samplePeak ctx.platform watched st.res vmPeak).resType = _ :=
      samplePeak_resType (htype ▸ hmax)
    rw [hloop, hret, ret_bind, ret_bind, hpeak, htype, checkedVerdict]
    by_cases hover : OverPeak ctx.platform watched vmPeak
    · rw [if_pos hover, if_pos hover, if_neg (by decide)]
    · rw [if_neg hover, if_neg hover]
  · rw [hloop, hfault]
    rfl
  · rw [hloop, hpending]
    rfl

theorem filesAfter_of_readStops {submit : Submission} {stops : List (WaitEvent × WorkDir)}
    {dir dir' : WorkDir} {pf : Platform} {v : NojResult}
    (h : readStops pf rl [] stops = .ret (v, dir')) : filesAfter pf rl submit stops dir = dir' := by
  rcases launchLoop_readStops pf rl submit stops dir with
    ⟨-, -, w, -, -, -, hret⟩ | ⟨e, -, hfault⟩ | ⟨-, hpending⟩
  · exact (Prod.mk.inj (ret.inj (hret.symm.trans h))).2
  · exact absurd (hfault.symm.trans h) (by simp)
  · exact absurd (hpending.symm.trans h) (by simp)

/-- **One launch and its check** in a work directory with `σ` bytes in `stderr.out`: the
verdict, and what `stderr.out` holds afterwards, as far as the limit. -/
theorem testVerdict_sandboxRun (heap : SyscallLimits) (jdg : Judge) (submit : Submission)
    (rl : ResourceLimit) (block : SyscallLimits) (program : List UInt8 → Behaviour)
    {test : SandboxTest} (hin : dir.stdinIn = test.input) (hdir : dir.stdoutOut = [])
    (hσ : min (rlimitFsize ctx.platform) dir.stderrOut.length
      = min (rlimitFsize ctx.platform) σ) :
    let watched := launchLimits ctx.platform (some block) heap rl
    let out := sandboxRun ctx.platform watched submit program test dir
    testVerdict ctx jdg submit rl block out.1 test.tc
        = sandboxVerdict ctx jdg submit watched program test σ ∧
      ∀ v, sandboxVerdict ctx jdg submit watched program test σ = .ret v →
        min (rlimitFsize ctx.platform) out.2.stderrOut.length
          = min (rlimitFsize ctx.platform) (σ + stderrOf ctx watched program test) := by
  intro watched out
  let run := runAlone ctx watched program test
  let stops := childStops (rlimitFsize ctx.platform) (program test.input).steps dir
  have hout : out = (⟨⟨some 1, stops.map Prod.fst, some (program test.input).vmPeak⟩,
      test.answer (filesAfter ctx.platform watched submit stops dir).stdoutOut⟩,
      filesAfter ctx.platform watched submit stops dir) := by
    simp only [out, sandboxRun, hin]
    rfl
  obtain ⟨dir', hread, hsize, hstdout⟩ := readStops_childStops ctx.platform watched
    (rlimitFsize ctx.platform) [] (program test.input).steps hσ
  rw [hdir] at hread hsize hstdout
  have hread' : readStops ctx.platform watched [] stops
      = (run.outcomeBehind (rlimitFsize ctx.platform) σ).bind fun v => .ret (v, dir') := hread
  rw [hout, testVerdict_readStops, hread', sandboxVerdict]
  rcases hrun : run.outcomeBehind (rlimitFsize ctx.platform) σ with v | e | _
  · rw [hrun] at hread'
    rw [filesAfter_of_readStops hread']
    refine ⟨?_, fun _ _ => hsize⟩
    simp only [ret_bind]
    by_cases hpass : v = .runPass
    · -- the program has not been stopped
      have hover : ¬StderrOver (rlimitFsize ctx.platform) σ run.chunks := fun hover => by
        rw [FreeRun.outcomeBehind, if_pos hover] at hrun
        exact absurd ((ret.inj hrun).trans hpass) (by decide)
      rw [hstdout hover]
      rfl
    · simp only [checkedVerdict, if_neg hpass]
      rfl
  · exact ⟨rfl, fun v hv => by simp at hv⟩
  · exact ⟨rfl, fun v hv => by simp at hv⟩

/-! ### The loop -/

/-- What the program makes of a test case is the same at every place in the loop. -/
theorem sandboxRun_of_testsInv (hinv : TestsInv submit rl block heap results s)
    (program : List UInt8 → Behaviour) (test : SandboxTest) (dir : WorkDir) :
    sandboxRun ctx.platform (launchLimits ctx.platform s.st.sysCallInit heap s.rlLaunch) s.submit
        program test dir
      = sandboxRun ctx.platform (launchLimits ctx.platform (some block) heap rl) submit program
        test dir := by
  have hsubmit : Result.ofSubmission s.submit = Result.ofSubmission submit := by
    rw [hinv.submit_eq]
    rfl
  simp only [sandboxRun, filesAfter, launchLoop, hsubmit, launchLimits_of_testsInv hinv]

/-- The step of the loop: the verdict is appended, and `stderr.out` grows. -/
theorem sandboxTest_of_verdict {v : NojResult} (program : List UInt8 → Behaviour)
    (hinv : TestsInv submit rl block heap results s)
    (hσ : min (rlimitFsize ctx.platform) dir.stderrOut.length
      = min (rlimitFsize ctx.platform) σ)
    (hv : sandboxVerdict ctx jdg submit (launchLimits ctx.platform (some block) heap rl) program
      test σ = .ret v) :
    ∃ s' dir' res, sandboxTest jdg heap program test (s, dir) = .ret (s', dir') ∧
      res.resType = v ∧ TestsInv submit rl block heap (results ++ [res]) s' ∧
      min (rlimitFsize ctx.platform) dir'.stderrOut.length = min (rlimitFsize ctx.platform)
        (σ + stderrOf ctx (launchLimits ctx.platform (some block) heap rl) program test) := by
  let opened : WorkDir := { dir with stdinIn := test.input }.reopened
  let out := sandboxRun ctx.platform (launchLimits ctx.platform (some block) heap rl) submit
    program test opened
  have hσ' : min (rlimitFsize ctx.platform) opened.stderrOut.length
      = min (rlimitFsize ctx.platform) σ := hσ
  obtain ⟨hverdict, hsize⟩ := testVerdict_sandboxRun heap jdg submit rl block program rfl rfl hσ'
  obtain ⟨s', res, htest, hres, hinv'⟩ := judgeTest_of_verdict hinv (hverdict.trans hv)
  refine ⟨s', outputKept s' out.2, res, ?_, hres, hinv', ?_⟩
  · simp only [sandboxTest, sandboxRun_of_testsInv hinv]
    exact (congrArg (Outcome.bind · _) htest).trans (ret_bind _ _)
  · rw [outputKept_stderrOut]
    exact hsize v hv

theorem exists_verdict_of_sandboxTest {s' : TestsState ctx × WorkDir}
    (hinv : TestsInv submit rl block heap results s)
    (hσ : min (rlimitFsize ctx.platform) dir.stderrOut.length
      = min (rlimitFsize ctx.platform) σ)
    (h : sandboxTest jdg heap program test (s, dir) = .ret s') :
    ∃ v, sandboxVerdict ctx jdg submit (launchLimits ctx.platform (some block) heap rl) program
      test σ = .ret v := by
  simp only [sandboxTest, sandboxRun_of_testsInv hinv] at h
  obtain ⟨s₁, htest, -⟩ := bind_eq_ret_iff.mp h
  obtain ⟨v, hv⟩ := exists_verdict_of_judgeTest hinv htest
  have hσ' : min (rlimitFsize ctx.platform)
      { dir with stdinIn := test.input }.reopened.stderrOut.length = _ := hσ
  exact ⟨v, (testVerdict_sandboxRun heap jdg submit rl block program rfl rfl hσ').1.symm.trans hv⟩

/-- **The loop and its verdicts**: a pass over the test cases whose counter is the size of
`stderr.out`. -/
theorem sandboxTests_of_verdicts {vs : List NojResult} (program : List UInt8 → Behaviour)
    (hinv : TestsInv submit rl block heap results s)
    (hσ : min (rlimitFsize ctx.platform) dir.stderrOut.length
      = min (rlimitFsize ctx.platform) σ)
    (hvs : passOver (sandboxVerdict ctx jdg submit
        (launchLimits ctx.platform (some block) heap rl) program)
      (stderrOf ctx (launchLimits ctx.platform (some block) heap rl) program) σ tests
      = vs.map .ret) :
    ∃ s' results', sandboxTests jdg heap program tests (s, dir) = .ret s' ∧
      TestsInv submit rl block heap (results ++ results') s'.1 ∧
      results'.map Result.resType = vs := by
  induction tests generalizing s dir σ results vs with
  | nil =>
    obtain rfl : vs = [] := List.map_eq_nil_iff.mp hvs.symm
    exact ⟨(s, dir), [], rfl, by rwa [List.append_nil], rfl⟩
  | cons test tests ih =>
    obtain ⟨v, vs, rfl, hv, hrest⟩ := List.map_eq_cons_iff.mp hvs.symm
    obtain ⟨s₁, dir₁, res, htest, rfl, hinv₁, hσ₁⟩ :=
      sandboxTest_of_verdict program hinv hσ hv.symm
    obtain ⟨s', results', hloop, hinv', rfl⟩ := ih hinv₁ hσ₁ hrest.symm
    refine ⟨s', res :: results', ?_, by rwa [List.append_cons], rfl⟩
    rw [sandboxTests, htest, ret_bind, hloop]

theorem exists_verdicts_of_sandboxTests {s' : TestsState ctx × WorkDir}
    (hinv : TestsInv submit rl block heap results s)
    (hσ : min (rlimitFsize ctx.platform) dir.stderrOut.length
      = min (rlimitFsize ctx.platform) σ)
    (h : sandboxTests jdg heap program tests (s, dir) = .ret s') :
    ∃ vs : List NojResult, passOver (sandboxVerdict ctx jdg submit
        (launchLimits ctx.platform (some block) heap rl) program)
      (stderrOf ctx (launchLimits ctx.platform (some block) heap rl) program) σ tests
      = vs.map .ret := by
  induction tests generalizing s dir σ results with
  | nil => exact ⟨[], rfl⟩
  | cons test tests ih =>
    obtain ⟨s₁, htest, hloop⟩ := bind_eq_ret_iff.mp h
    obtain ⟨v, hv⟩ := exists_verdict_of_sandboxTest hinv hσ htest
    obtain ⟨s₂, dir₂, res, htest', -, hinv₂, hσ₂⟩ := sandboxTest_of_verdict program hinv hσ hv
    obtain rfl : s₁ = (s₂, dir₂) := ret.inj (htest.symm.trans htest')
    obtain ⟨vs, hvs⟩ := ih hinv₂ hσ₂ hloop
    exact ⟨v :: vs, by rw [passOver, hv, hvs, List.map_cons]⟩

/-- **What judging comes to**: the verdicts of the pass, and the one that they add up to. -/
theorem sandboxJudge_eq_ret_iff {vs : List NojResult} {v : NojResult} (jdg : Judge)
    (heap : SyscallLimits) (program : List UInt8 → Behaviour) (submit : Submission)
    (rl : ResourceLimit) (st : DaemonState ctx) (tests : List SandboxTest) (dir : WorkDir) :
    let watched := launchLimits ctx.platform st.sysCallInit heap rl
    sandboxJudge jdg heap program submit rl st tests dir = .ret (vs, v) ↔
      passOver (sandboxVerdict ctx jdg submit watched program) (stderrOf ctx watched program)
        dir.stderrOut.length tests = vs.map .ret ∧ v = overallVerdict vs := by
  intro watched
  have hstart := testsInv_nil submit rl heap st
  have hwatched : watched = _ := launchLimits_of_testsInv hstart
  have hjudged {vs : List NojResult}
      (hvs : passOver (sandboxVerdict ctx jdg submit watched program)
        (stderrOf ctx watched program) dir.stderrOut.length tests = vs.map .ret) :
      sandboxJudge jdg heap program submit rl st tests dir = .ret (vs, overallVerdict vs) := by
    rw [hwatched] at hvs
    obtain ⟨s, results, hloop, hinv, rfl⟩ := sandboxTests_of_verdicts program hstart
      (rfl : min (rlimitFsize ctx.platform) dir.stderrOut.length = _) hvs
    have hflag := hinv.flgAc_iff
    rw [List.nil_append] at hflag
    rw [sandboxJudge, hloop, ret_bind]
    simp only [hinv.submit_eq, List.nil_append, List.drop_left, overallVerdict, hflag,
      List.forall_mem_map]
  constructor
  · intro h
    obtain ⟨s, hloop, -⟩ := bind_eq_ret_iff.mp h
    obtain ⟨ws, hws⟩ := exists_verdicts_of_sandboxTests hstart
      (rfl : min (rlimitFsize ctx.platform) dir.stderrOut.length = _) hloop
    rw [← hwatched] at hws
    obtain ⟨rfl, rfl⟩ : ws = vs ∧ overallVerdict ws = v := by
      simpa using (hjudged hws).symm.trans h
    exact ⟨hws, rfl⟩
  · rintro ⟨hvs, rfl⟩
    exact hjudged hvs

/-! ### The whole of judging -/

theorem judgeTests_congr {runs runs' : ℕ → TestRun} {tcs : List TestCase} (n : ℕ)
    (h : ∀ i, n ≤ i → runs i = runs' i) :
    judgeTests jdg heap runs n tcs s = judgeTests jdg heap runs' n tcs s := by
  induction tcs generalizing n s with
  | nil => rfl
  | cons tc tcs ih =>
    have hrest (s' : TestsState ctx) := ih (n + 1) (s := s') fun i hi => h i (Nat.le_of_succ_le hi)
    simp only [judgeTests, bind_def, h n le_rfl, hrest]

theorem judgeTest_of_sandboxTest {s s' : TestsState ctx × WorkDir}
    (h : sandboxTest jdg heap program test s = .ret s') :
    ∃ run, judgeTest jdg heap run test.tc s.1 = .ret s'.1 := by
  obtain ⟨s₁, hjudge, hret⟩ := bind_eq_ret_iff.mp h
  obtain rfl : _ = s' := ret.inj hret
  exact ⟨_, hjudge⟩

/-- The loop in its work directory is the loop of `judgeTests`, in a world that answers what
the program makes it answer. -/
theorem judgeTests_of_sandboxTests {s s' : TestsState ctx × WorkDir} (n : ℕ)
    (h : sandboxTests jdg heap program tests s = .ret s') :
    ∃ runs, judgeTests jdg heap runs n (tests.map SandboxTest.tc) s.1 = .ret s'.1 := by
  induction tests generalizing n s with
  | nil =>
    obtain rfl : s = s' := ret.inj h
    exact ⟨fun _ => ⟨⟨none, [], none⟩, ⟨fun _ => 0, fun _ => 0⟩⟩, rfl⟩
  | cons test tests ih =>
    obtain ⟨s₁, htest, hloop⟩ := bind_eq_ret_iff.mp h
    obtain ⟨runs, hruns⟩ := ih (n + 1) hloop
    obtain ⟨run, hrun⟩ := judgeTest_of_sandboxTest htest
    refine ⟨Function.update runs n run, ?_⟩
    rw [List.map_cons, judgeTests, bind_def, Function.update_self, hrun, ret_bind,
      judgeTests_congr (n + 1) fun i hi => Function.update_of_ne (Nat.ne_of_gt hi) _ _]
    exact hruns

/-- **Judging in a work directory is judging**: on a problem with these test cases, a
submission that compiles gets the results of the loop in the work directory. -/
theorem judge_of_sandboxJudge {lang : LangCDebug} {replies : JudgeReplies} {prob : Problem}
    {res : Result} {st : DaemonState ctx} {vs : List NojResult} {v : NojResult}
    (hprob : problemOf submit st replies = .ret prob)
    (hres : compilationOf ctx lang jdg submit replies = .ret res)
    (hpass : res.resType = .compilePass)
    (htests : prob.probTestcases = tests.map SandboxTest.tc)
    (h : sandboxJudge jdg replies.heap program submit (rlLaunch jdg prob) st tests dir
      = .ret (vs, v)) :
    ∃ runs submit' st' results,
      judge lang jdg submit st { replies with tests := runs } = .ret (.normal, submit', st') ∧
      submit'.sbmResults = submit.sbmResults ++ results ∧ results.map Result.resType = vs ∧
      submit'.sbmResType = v := by
  obtain ⟨hvs, rfl⟩ := (sandboxJudge_eq_ret_iff jdg replies.heap program submit
    (rlLaunch jdg prob) st tests dir).mp h
  rw [launchLimits_of_testsInv (testsInv_nil submit (rlLaunch jdg prob) replies.heap st)] at hvs
  obtain ⟨s, results, hloop, hinv, rfl⟩ := sandboxTests_of_verdicts program
    (testsInv_start jdg submit st replies prob)
    (rfl : min (rlimitFsize ctx.platform) dir.stderrOut.length = _) hvs
  obtain ⟨runs, hruns⟩ := judgeTests_of_sandboxTests 0 hloop
  have htestsOf : testsOf jdg submit st { replies with tests := runs } prob = .ret s.1 := by
    rw [testsOf, htests]
    exact hruns
  have hjudge : judge lang jdg submit st { replies with tests := runs } = _ := judge_eq
  have hprob' : problemOf submit st { replies with tests := runs } = .ret prob := hprob
  have hres' : compilationOf ctx lang jdg submit { replies with tests := runs } = .ret res := hres
  rw [hprob', ret_bind, hres', ret_bind, if_neg (not_not.mpr hpass), htestsOf, ret_bind] at hjudge
  have hflag := hinv.flgAc_iff
  rw [List.nil_append] at hflag
  refine ⟨runs, _, _, results, hjudge, ?_, rfl, ?_⟩
  · simp only [hinv.submit_eq, List.nil_append]
  · simp only [overallVerdict, hflag, List.forall_mem_map]

/-! ### Other orders -/

theorem checkNormal_resType_ne (jdg : Judge) (submit : Submission) (tc : TestCase)
    (reply : CheckReply) :
    (checkNormal jdg submit tc reply).resType ≠ .outputLimitExceed := by
  simp only [checkNormal]
  split_ifs <;> simp [Result.withType]

/-- The check never finds that there is too much output. -/
theorem check_resType_ne (jdg : Judge) (submit : Submission) (tc : TestCase)
    (reply : CheckReply) :
    (check jdg submit tc reply).resType ≠ .outputLimitExceed := by
  rw [check]
  split_ifs
  · exact checkNormal_resType_ne jdg submit tc reply
  · simp

theorem checkedVerdict_eq_iff {vmPeak : ℤ} {stdout : List UInt8} {v : NojResult} :
    checkedVerdict ctx jdg submit rl test vmPeak stdout v
        = checkedVerdict ctx jdg submit rl test vmPeak stdout .outputLimitExceed ↔
      OverPeak ctx.platform rl vmPeak ∨ v = .outputLimitExceed := by
  by_cases hpeak : OverPeak ctx.platform rl vmPeak
  · simp [checkedVerdict, hpeak]
  · by_cases hpass : v = .runPass
    · have hcheck := check_resType_ne jdg submit test.tc (test.answer stdout)
      simp [checkedVerdict, hpeak, hpass, hcheck]
    · simp [checkedVerdict, hpeak, hpass]

/-- The bytes that the others have written to `stderr.out` play no role for a test case: the
program finds `stderr.out` full as it was before the others; or left to itself it ends, and
is over the limit of memory or on files in any case, or does not find `stderr.out` full even
behind all the others. -/
def StderrIndifferent (ctx : LoadContext) (rl : ResourceLimit)
    (program : List UInt8 → Behaviour) (test : SandboxTest) (before others : ℕ) : Prop :=
  StderrOver (rlimitFsize ctx.platform) before (runAlone ctx rl program test).chunks ∨
    ∃ v, (runAlone ctx rl program test).outcome = .ret v ∧
      (OverPeak ctx.platform rl (program test.input).vmPeak ∨ v = .outputLimitExceed ∨
        ¬StderrOver (rlimitFsize ctx.platform) (before + others)
          (runAlone ctx rl program test).chunks)

/-- Below the limit the bytes in `stderr.out` play no role. -/
theorem sandboxVerdict_of_not_stderrOver {σ σ' : ℕ} (hσ : σ ≤ σ')
    (h : ¬StderrOver (rlimitFsize ctx.platform) σ' (runAlone ctx rl program test).chunks) :
    sandboxVerdict ctx jdg submit rl program test σ
      = sandboxVerdict ctx jdg submit rl program test σ' := by
  simp only [sandboxVerdict, FreeRun.outcomeBehind, if_neg h,
    if_neg fun h' : StderrOver _ σ _ => h (h'.mono hσ)]

/-- Above it they play no role either. -/
theorem sandboxVerdict_of_stderrOver {σ σ' : ℕ} (hσ : σ ≤ σ')
    (h : StderrOver (rlimitFsize ctx.platform) σ (runAlone ctx rl program test).chunks) :
    sandboxVerdict ctx jdg submit rl program test σ
      = sandboxVerdict ctx jdg submit rl program test σ' := by
  simp only [sandboxVerdict, FreeRun.outcomeBehind, if_pos h, if_pos (h.mono hσ)]

theorem settles_sandboxVerdict (ctx : LoadContext) (jdg : Judge) (submit : Submission)
    (rl : ResourceLimit) (program : List UInt8 → Behaviour) :
    Settles (sandboxVerdict ctx jdg submit rl program) := by
  intro test x y z hxy hyz hxz
  by_cases hover : StderrOver (rlimitFsize ctx.platform) y (runAlone ctx rl program test).chunks
  · exact (sandboxVerdict_of_stderrOver hyz hover).trans hxz.symm
  · exact (sandboxVerdict_of_not_stderrOver hxy hover).symm

/-- **When a test case has the same verdict behind the others.** -/
theorem stderrIndifferent_iff (jdg : Judge) (submit : Submission) (σ others : ℕ) :
    StderrIndifferent ctx rl program test σ others ↔
      (∃ v, sandboxVerdict ctx jdg submit rl program test σ = .ret v) ∧
        sandboxVerdict ctx jdg submit rl program test σ
          = sandboxVerdict ctx jdg submit rl program test (σ + others) := by
  by_cases hover : StderrOver (rlimitFsize ctx.platform) σ (runAlone ctx rl program test).chunks
  · refine iff_of_true (Or.inl hover) ⟨?_, sandboxVerdict_of_stderrOver (by omega) hover⟩
    simp only [sandboxVerdict, FreeRun.outcomeBehind, if_pos hover, ret_bind, ret.injEq,
      exists_eq']
  rw [StderrIndifferent, or_iff_right hover]
  by_cases hover' : StderrOver (rlimitFsize ctx.platform) (σ + others)
      (runAlone ctx rl program test).chunks
  · -- behind the others it is stopped
    rcases hrun : (runAlone ctx rl program test).outcome with v | e | _
    · simp [sandboxVerdict, FreeRun.outcomeBehind, hover, hover', hrun, checkedVerdict_eq_iff]
    · simp [sandboxVerdict, FreeRun.outcomeBehind, hover, hrun]
    · simp [sandboxVerdict, FreeRun.outcomeBehind, hover, hrun]
  · rw [and_iff_left (sandboxVerdict_of_not_stderrOver (by omega) hover')]
    rcases hrun : (runAlone ctx rl program test).outcome with v | e | _ <;>
      simp [sandboxVerdict, FreeRun.outcomeBehind, hover, hover', hrun]

/-- The test cases in another order have the same verdicts in that order, which add up to
the same. -/
def PermutesVerdicts {n : ℕ}
    (judged : List SandboxTest → Outcome Fault (List NojResult × NojResult))
    (f : Fin n → SandboxTest) (e : Equiv.Perm (Fin n)) : Prop :=
  ∃ (verdicts : Fin n → NojResult) (v : NojResult),
    judged (List.ofFn f) = .ret (List.ofFn verdicts, v) ∧
    judged (List.ofFn (f ∘ e)) = .ret (List.ofFn (verdicts ∘ e), v)

theorem overallVerdict_comp {n : ℕ} (verdicts : Fin n → NojResult) (e : Equiv.Perm (Fin n)) :
    overallVerdict (List.ofFn (verdicts ∘ e)) = overallVerdict (List.ofFn verdicts) := by
  have hall : (∀ i, (verdicts ∘ e) i = .correctAnswer) ↔ ∀ i, verdicts i = .correctAnswer :=
    e.forall_congr_right (q := fun i => verdicts i = .correctAnswer)
  simp only [overallVerdict, List.forall_mem_ofFn_iff, hall]

/-- The results of the test cases of a family, one by one. -/
theorem sandboxJudge_ofFn_iff (jdg : Judge) (heap : SyscallLimits)
    (program : List UInt8 → Behaviour) (submit : Submission) (rl : ResourceLimit)
    (st : DaemonState ctx) (dir : WorkDir) {n : ℕ} (f : Fin n → SandboxTest)
    (verdicts : Fin n → NojResult) (v : NojResult) :
    let watched := launchLimits ctx.platform st.sysCallInit heap rl
    sandboxJudge jdg heap program submit rl st (List.ofFn f) dir = .ret (List.ofFn verdicts, v) ↔
      (∀ i, sandboxVerdict ctx jdg submit watched program (f i)
        (countBefore (stderrOf ctx watched program) f dir.stderrOut.length i)
          = .ret (verdicts i)) ∧ v = overallVerdict (List.ofFn verdicts) := by
  intro watched
  refine (sandboxJudge_eq_ret_iff jdg heap program submit rl st (List.ofFn f) dir).trans ?_
  rw [passOver_ofFn, List.map_ofFn, List.ofFn_injective.eq_iff, funext_iff]
  rfl

/-- One other order, and the verdicts of the pass. -/
theorem permutesVerdicts_iff (jdg : Judge) (heap : SyscallLimits)
    (program : List UInt8 → Behaviour) (submit : Submission) (rl : ResourceLimit)
    (st : DaemonState ctx) (dir : WorkDir) {n : ℕ} (f : Fin n → SandboxTest)
    (e : Equiv.Perm (Fin n)) :
    let watched := launchLimits ctx.platform st.sysCallInit heap rl
    let verdict := sandboxVerdict ctx jdg submit watched program
    let size := stderrOf ctx watched program
    PermutesVerdicts (fun tests => sandboxJudge jdg heap program submit rl st tests dir) f e ↔
      (∀ i, ∃ v, verdict (f i) (countBefore size f dir.stderrOut.length i) = .ret v) ∧
      ∀ i, verdict (f (e i)) (countBefore size (f ∘ e) dir.stderrOut.length i)
        = verdict (f (e i)) (countBefore size f dir.stderrOut.length (e i)) := by
  intro watched verdict size
  simp only [PermutesVerdicts, sandboxJudge_ofFn_iff]
  constructor
  · rintro ⟨verdicts, v, ⟨h, -⟩, h', -⟩
    exact ⟨fun i => ⟨_, h i⟩, fun i => (h' i).trans (h (e i)).symm⟩
  · rintro ⟨hret, hsame⟩
    choose verdicts h using hret
    exact ⟨verdicts, _, ⟨h, rfl⟩, fun i => (hsame i).trans (h (e i)),
      (overallVerdict_comp verdicts e).symm⟩

/-- **When the order of the test cases plays no role**: exactly if for each of them it plays
no role what the others have written to `stderr.out`. -/
theorem sandboxJudge_perm_iff (jdg : Judge) (heap : SyscallLimits)
    (program : List UInt8 → Behaviour) (submit : Submission) (rl : ResourceLimit)
    (st : DaemonState ctx) (dir : WorkDir) {n : ℕ} (f : Fin n → SandboxTest) :
    (∀ e : Equiv.Perm (Fin n), PermutesVerdicts
        (fun tests => sandboxJudge jdg heap program submit rl st tests dir) f e) ↔
      let watched := launchLimits ctx.platform st.sysCallInit heap rl
      ∀ i, StderrIndifferent ctx watched program (f i) dir.stderrOut.length
        (othersAdd (stderrOf ctx watched program) f i) := by
  have hsettles := settles_sandboxVerdict ctx jdg submit
    (launchLimits ctx.platform st.sysCallInit heap rl) program
  have horder := orderFree_iff
    (A := stderrOf ctx (launchLimits ctx.platform st.sysCallInit heap rl) program) hsettles f
    dir.stderrOut.length
  simp only [permutesVerdicts_iff, stderrIndifferent_iff jdg submit]
  constructor
  · intro h i
    have hsame := horder.mp fun e => (h e).2
    obtain ⟨v, hv⟩ := (h (Equiv.refl (Fin n))).1 i
    exact ⟨⟨v, (hsettles.countBefore (hsame i)).symm.trans hv⟩, hsame i⟩
  · intro h e
    refine ⟨fun i => ?_, horder.mpr (fun i => (h i).2) e⟩
    obtain ⟨⟨v, hv⟩, hsame⟩ := h i
    exact ⟨v, (hsettles.countBefore hsame).trans hv⟩

end Test

/-! ### Two test cases -/

/-- A program that exits after it has filled `stderr.out` if it has an input, and written
one byte to it otherwise. -/
def noisyProgram (input : List UInt8) : Behaviour where
  steps := [⟨some (.stderr, List.replicate (if input = [] then 1 else 5242880) 46),
    eventOf (.stopped 5) 4⟩, ⟨none, eventOf (.exited 0) 252⟩]
  vmPeak := 0

/-- The test case on which the program writes much. -/
def noisyTest : SandboxTest :=
  ⟨⟨5, 1000, "5.in", "5.out", 0, "", ""⟩, [49], fun _ => ⟨fun _ => 0, fun _ => 0⟩⟩

/-- The test case on which it writes little. -/
def quietTest : SandboxTest :=
  ⟨⟨6, 1000, "6.in", "6.out", 0, "", ""⟩, [], fun _ => ⟨fun _ => 0, fun _ => 0⟩⟩

theorem runAlone_noisyProgram (test : SandboxTest) :
    runAlone nojContext (launchLimits lp64 none (fun _ => 0) {}) noisyProgram test
      = ⟨.ret .runPass, [], [if test.input = [] then 1 else 5242880], 0⟩ := by
  have hwrite : stopOutcome lp64 (launchLimits lp64 none (fun _ => 0) {}) []
      (eventOf (.stopped 5) 4) = none := by decide +kernel
  have hexit : stopOutcome lp64 (launchLimits lp64 none (fun _ => 0) {})
      [eventOf (.stopped 5) 4] (eventOf (.exited 0) 252) = some (.ret .runPass) := by
    decide +kernel
  simp only [runAlone, noisyProgram, freeRun, nojContext, hwrite, List.nil_append, hexit]
  simp [ChildStep.bytesTo, StartsOver, writeUpTo]

/-- The verdict on either test case with `σ` bytes in `stderr.out`. -/
theorem sandboxVerdict_noisyProgram {test : SandboxTest} (σ : ℕ)
    (htest : test = noisyTest ∨ test = quietTest) :
    sandboxVerdict nojContext ⟨"/home/noj/judge0", 1001⟩ (.released 1000 7)
        (launchLimits lp64 none (fun _ => 0) {}) noisyProgram test σ
      = .ret (if 5242880 ≤ σ then .outputLimitExceed else .correctAnswer) := by
  have hpass : checkedVerdict nojContext ⟨"/home/noj/judge0", 1001⟩ (.released 1000 7)
      (launchLimits lp64 none (fun _ => 0) {}) test 0 [] .runPass = .correctAnswer := by
    rcases htest with rfl | rfl <;> rfl
  have hover (size : ℕ) (hsize : 0 < size) :
      StderrOver (rlimitFsize nojContext.platform) σ [size] ↔ 5242880 ≤ σ :=
    ⟨fun h => h.elim And.right False.elim, fun h => Or.inl ⟨hsize, h⟩⟩
  have hpos : 0 < if test.input = [] then 1 else 5242880 := by split <;> decide
  have hpeak : (noisyProgram test.input).vmPeak = 0 := rfl
  simp only [sandboxVerdict, runAlone_noisyProgram, FreeRun.outcomeBehind, hover _ hpos, hpeak]
  split
  · rfl
  · rw [ret_bind, hpass]

/-- **A test that fails only after another one**: behind the test case that fills
`stderr.out`, a program that writes one byte to it is stopped by the limit on files. -/
theorem sandboxJudge_noisyFirst :
    let judged (tests : List SandboxTest) := sandboxJudge ⟨"/home/noj/judge0", 1001⟩ (fun _ => 0)
      noisyProgram (.released 1000 7) {} (.start nojContext) tests ⟨[], [], []⟩
    judged [noisyTest, quietTest]
        = .ret ([.correctAnswer, .outputLimitExceed], .notAccept) ∧
      judged [quietTest, noisyTest] = .ret ([.correctAnswer, .correctAnswer], .accept) := by
  intro judged
  have hnoisy (σ : ℕ) := sandboxVerdict_noisyProgram σ (Or.inl rfl : noisyTest = _ ∨ _)
  have hquiet (σ : ℕ) := sandboxVerdict_noisyProgram σ (Or.inr rfl : _ ∨ quietTest = _)
  have hsize : stderrOf nojContext (launchLimits lp64 none (fun _ => 0) {}) noisyProgram noisyTest
      = 5242880 := by
    rw [stderrOf, runAlone_noisyProgram]
    rfl
  have hsize' : stderrOf nojContext (launchLimits lp64 none (fun _ => 0) {}) noisyProgram quietTest
      = 1 := by
    rw [stderrOf, runAlone_noisyProgram]
    rfl
  have hwatched : launchLimits nojContext.platform (DaemonState.start nojContext).sysCallInit
    (fun _ => 0) {} = launchLimits lp64 none (fun _ => 0) {} := rfl
  constructor
  · simp only [judged, sandboxJudge_eq_ret_iff, hwatched, passOver, hnoisy, hquiet, hsize]
    decide
  · simp only [judged, sandboxJudge_eq_ret_iff, hwatched, passOver, hnoisy, hquiet, hsize']
    decide

end NpuOj
