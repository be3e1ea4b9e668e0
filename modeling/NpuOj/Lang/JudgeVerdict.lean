import Mathlib.Data.List.Forall2
import NpuOj.Lang.Judge

/-!
# The verdict on a submission

What `LangC::judge` makes of the outcomes of loading, compiling and running. The
verdict on one test case, `NpuOj.testVerdict`, is computed without the variables of the
loop, and `NpuOj.judgeTests_of_verdicts` brings the loop down to the list of these
verdicts.

Two statements about the whole follow. A verdict `accept` is earned exactly where the
problem is loaded and has test cases (`NpuOj.judge_accept_iff`), and a failure of the
judge itself is turned into a verdict against the contestant in two places, which
`NpuOj.judge_blame_iff` names: every failed compilation, and a list of results in which
nothing but `systemError` is wrong.
-/

namespace NpuOj

/-! ### One test case -/

/-- The budgets in force: those of the static block, or of the block that the first
call builds. -/
def sysCallBlock (sysCallInit : Option SyscallLimits) (heap : SyscallLimits) : SyscallLimits :=
  sysCallInit.getD (fillLimits rfC (memsetZero heap 512))

section Launch

variable {pf : Posix.Platform} {sysCallInit : Option SyscallLimits} {block heap : SyscallLimits}
  {submit submit' : Submission} {rl rl' : ResourceLimit} {run : LaunchRun} {res : Result}

theorem launch_submit_congr (h : Result.ofSubmission submit = Result.ofSubmission submit') :
    launch pf sysCallInit heap submit rl run = launch pf sysCallInit heap submit' rl run := by
  simp only [launch, launchWith, launchLoop, h]

/-- **A launch starts afresh**: neither the budgets that an earlier launch has left nor
its limit on files plays a role. -/
theorem launch_reset (f : MemorySize) (t : SyscallLimits) :
    launch pf sysCallInit heap submit { rl with fileLimit := f, syscallLimits := t } run
      = launch pf (some (sysCallBlock sysCallInit heap)) heap submit rl run := by
  cases sysCallInit <;>
    simp only [launch, launchWith, sysCallBlock, initSystemCallLimits_none,
      initSystemCallLimits_some, MemorySize.setMB, Option.getD_some, Option.getD_none]

theorem launch_heap (heap' : SyscallLimits) :
    launch pf (some block) heap submit rl run = launch pf (some block) heap' submit rl run := by
  simp only [launch, launchWith, initSystemCallLimits_some]

/-- The limits that `launch` watches. -/
def launchLimits (pf : Posix.Platform) (sysCallInit : Option SyscallLimits) (heap : SyscallLimits)
    (rl : ResourceLimit) : ResourceLimit :=
  (initSystemCallLimits sysCallInit heap { rl with fileLimit := rl.fileLimit.setMB pf 5 }).1

theorem launchLimits_some (pf : Posix.Platform) (block heap : SyscallLimits) (rl : ResourceLimit) :
    launchLimits pf (some block) heap rl
      = { rl with fileLimit := rl.fileLimit.setMB pf 5, syscallLimits := block } := by
  rw [launchLimits, initSystemCallLimits_some]

/-- **A launch that made a child** is the parent under the limits that it watches. -/
theorem launch_of_pid {pid : ℕ} {vmPeak : ℤ} (hpid : run.pid = some pid)
    (hpeak : run.vmPeak = some vmPeak) :
    launch pf (some block) heap submit rl run =
      (launchParent pf (launchLimits pf (some block) heap rl) submit run.events vmPeak).bind
        fun r => .ret (r.1, { launchLimits pf (some block) heap rl with syscallLimits := r.2 },
          some block) := by
  simp only [launch, launchWith, launchParent, launchLimits_some, initSystemCallLimits_some, hpid,
    hpeak]
  cases launchLoop pf _ submit run.events <;> rfl

/-- A launch without a child does not come to its loop. -/
theorem launchWith_of_pid_none {loop loop' : ResourceLimit → Outcome Fault LaunchState}
    (hpid : run.pid = none) :
    launchWith loop pf sysCallInit heap submit rl run
      = launchWith loop' pf sysCallInit heap submit rl run := by
  simp only [launchWith, hpid]

/-- **A launch with a child returns** once its loop is left and the number for `VmPeak` is
read. -/
theorem launchWith_eq_ret_iff {loop : ResourceLimit → Outcome Fault LaunchState}
    {x : Result × ResourceLimit × Option SyscallLimits} (hpid : run.pid ≠ none) :
    launchWith loop pf sysCallInit heap submit rl run = .ret x ↔
      ∃ st, loop (launchLimits pf sysCallInit heap rl) = .ret st ∧ ∃ vmPeak ∈ run.vmPeak,
        x = (samplePeak pf (launchLimits pf sysCallInit heap rl) st.res vmPeak,
          { launchLimits pf sysCallInit heap rl with syscallLimits := st.syscallLimits },
          (initSystemCallLimits sysCallInit heap
            { rl with fileLimit := rl.fileLimit.setMB pf 5 }).2) := by
  rcases run with ⟨_ | pid, events, _ | vmPeak⟩
  · exact absurd rfl hpid
  · exact absurd rfl hpid
  · refine Outcome.bind_eq_ret_iff.trans ⟨?_, ?_⟩
    · rintro ⟨st, -, hnull⟩
      cases hnull
    · rintro ⟨st, -, _, hpeak, -⟩
      cases hpeak
  · refine Outcome.bind_eq_ret_iff.trans (exists_congr fun st => and_congr_right fun _ => ?_)
    simp only [Option.mem_def, Option.some.injEq, exists_eq_left', Outcome.ret.injEq]
    exact eq_comm

/-- **Inversion of a launch**: it has returned without a child, or it has left its loop and
read the number for `VmPeak`. -/
theorem launch_cases {s : Option SyscallLimits}
    (h : launch pf sysCallInit heap submit rl run = .ret (res, rl', s)) :
    let limits := launchLimits pf sysCallInit heap rl
    s = (initSystemCallLimits sysCallInit heap
        { rl with fileLimit := rl.fileLimit.setMB pf 5 }).2 ∧
      (run.pid = none ∧ rl' = limits ∧ res = { (Result.ofSubmission submit).withType .systemError
          with resContent := Posix.ascii "Launch fork error" } ∨
        run.pid ≠ none ∧ ∃ st rest, ∃ vmPeak ∈ run.vmPeak,
          launchLoop pf limits submit run.events = .ret (st, rest) ∧
          res = samplePeak pf limits st.res vmPeak ∧
          rl' = { limits with syscallLimits := st.syscallLimits }) := by
  by_cases hpid : run.pid = none
  · simp only [launch, launchWith, hpid, Outcome.ret.injEq, Prod.mk.injEq] at h
    exact ⟨h.2.2.symm, Or.inl ⟨hpid, h.2.1.symm, h.1.symm⟩⟩
  · obtain ⟨st, hleft, vmPeak, hpeak, hx⟩ := (launchWith_eq_ret_iff hpid).mp h
    obtain ⟨⟨st', rest⟩, hloop, hst⟩ := Outcome.bind_eq_ret_iff.mp hleft
    obtain rfl : st' = st := Outcome.ret.inj hst
    obtain ⟨rfl, rfl, rfl⟩ : _ ∧ _ ∧ _ := by simpa using hx
    exact ⟨rfl, Or.inr ⟨hpid, st', rest, vmPeak, hpeak, hloop, rfl, rfl⟩⟩

/-- A launch changes no other limit, and keeps the block. -/
theorem launch_eq_ret {s : Option SyscallLimits}
    (h : launch pf (some block) heap submit rl run = .ret (res, rl', s)) :
    s = some block ∧ ∃ f t, rl' = { rl with fileLimit := f, syscallLimits := t } := by
  have hcases := launch_cases h
  simp only [launchLimits_some, initSystemCallLimits_some] at hcases
  obtain ⟨rfl, ⟨-, rfl, -⟩ | ⟨-, _, _, _, -, -, -, rfl⟩⟩ := hcases
  · exact ⟨rfl, _, _, rfl⟩
  · exact ⟨rfl, _, _, rfl⟩

end Launch

section Tests

open Outcome

variable {ctx : LoadContext} {jdg : Judge} {submit submit' : Submission} {rl : ResourceLimit}
  {block heap : SyscallLimits} {run : TestRun} {runs : ℕ → TestRun} {tc : TestCase}
  {s s' : TestsState ctx} {results : List Result} {res : Result}

/-- **The verdict on one test case**, from the submission, the limits of the problem
and the block of budgets: that of the launch, or that of the check if the run passed. -/
def testVerdict (ctx : LoadContext) (jdg : Judge) (submit : Submission) (rl : ResourceLimit)
    (block : SyscallLimits) (run : TestRun) (tc : TestCase) : Outcome Fault NojResult :=
  (launch ctx.platform (some block) block submit rl run.launch).bind fun r =>
    .ret (if r.1.resType = .runPass then (check jdg submit tc run.check).resType else r.1.resType)

/-- The result that the verdict is the type of, before its output is kept. -/
def testResult (ctx : LoadContext) (jdg : Judge) (submit : Submission) (rl : ResourceLimit)
    (block : SyscallLimits) (run : TestRun) (tc : TestCase) : Outcome Fault Result :=
  (launch ctx.platform (some block) block submit rl run.launch).bind fun r =>
    .ret (if r.1.resType = .runPass then check jdg submit tc run.check else r.1)

theorem testVerdict_eq_bind : testVerdict ctx jdg submit rl block run tc
    = (testResult ctx jdg submit rl block run tc).bind fun res => .ret res.resType := by
  rw [testVerdict, testResult]
  cases launch ctx.platform (some block) block submit rl run.launch with
  | ret r =>
    simp only [ret_bind]
    split <;> rfl
  | fault e => rfl
  | pending => rfl

/-- Keeping the output gives the result the name of a file and changes nothing else. -/
theorem keepOutputWith_eq (call : DaemonState ctx → ℕ × DaemonState ctx) (jdg : Judge)
    (submit : Submission) (res : Result) (st : DaemonState ctx) :
    ∃ file, (keepOutputWith call jdg submit res st).1 = { res with resOutputFile := file } := by
  rw [keepOutputWith]
  split
  · exact ⟨_, rfl⟩
  · exact ⟨res.resOutputFile, rfl⟩

/-- The verdicts on the test cases, from the given number on. -/
def testVerdicts (ctx : LoadContext) (jdg : Judge) (submit : Submission) (rl : ResourceLimit)
    (block : SyscallLimits) (runs : ℕ → TestRun) :
    ℕ → List TestCase → Outcome Fault (List NojResult)
  | _, [] => .ret []
  | n, tc :: tcs => do
    let v ← testVerdict ctx jdg submit rl block (runs n) tc
    let vs ← testVerdicts ctx jdg submit rl block runs (n + 1) tcs
    .ret (v :: vs)

/-- **The invariant of the loop** after the given results: apart from what a launch
sets anew, nothing has changed but the list of results and the flag. -/
structure TestsInv (submit : Submission) (rl : ResourceLimit) (block heap : SyscallLimits)
    (results : List Result) (s : TestsState ctx) : Prop where
  submit_eq : s.submit = { submit with
    sbmResType := .compilePass, sbmResults := submit.sbmResults ++ results }
  rl_eq : ∃ f t, s.rlLaunch = { rl with fileLimit := f, syscallLimits := t }
  block_eq : sysCallBlock s.st.sysCallInit heap = block
  flgAc_iff : s.flgAc = true ↔ ∀ res ∈ results, res.resType = .correctAnswer

theorem check_submit_congr {tc : TestCase} {reply : CheckReply}
    (h : Result.ofSubmission submit = Result.ofSubmission submit') :
    check jdg submit tc reply = check jdg submit' tc reply := by
  simp only [check, checkNormal, h]

/-- The launch that the loop makes is the one of the verdict. -/
theorem launch_of_testsInv {run : LaunchRun} (hinv : TestsInv submit rl block heap results s) :
    launch ctx.platform s.st.sysCallInit heap s.submit s.rlLaunch run
      = launch ctx.platform (some block) block submit rl run := by
  obtain ⟨f, t, hrl⟩ := hinv.rl_eq
  have hsubmit : Result.ofSubmission s.submit = Result.ofSubmission submit := by
    rw [hinv.submit_eq]
    rfl
  rw [hrl, launch_reset, hinv.block_eq, launch_heap block, launch_submit_congr hsubmit]

/-- The limits that a launch watches are the same for every test case. -/
theorem launchLimits_of_testsInv (hinv : TestsInv submit rl block heap results s) :
    launchLimits ctx.platform s.st.sysCallInit heap s.rlLaunch
      = launchLimits ctx.platform (some block) heap rl := by
  obtain ⟨f, t, hrl⟩ := hinv.rl_eq
  have hblock := hinv.block_eq
  rw [launchLimits_some, hrl, ← hblock]
  cases s.st.sysCallInit <;>
    simp only [launchLimits, sysCallBlock, initSystemCallLimits_none, initSystemCallLimits_some,
      MemorySize.setMB, Option.getD_some, Option.getD_none]

/-- **The step lemma of the loop**: the result of a test case is appended, with the file
that its output is kept in, and the invariant is kept. -/
theorem judgeTestWith_of_result {call : DaemonState ctx → ℕ × DaemonState ctx}
    (hcall : ∀ st, (call st).2.sysCallInit = st.sysCallInit)
    (hinv : TestsInv submit rl block heap results s)
    (hres : testResult ctx jdg submit rl block run tc = .ret res) :
    let st := { copyTestcaseInput jdg tc s.st with sysCallInit := some block }
    ∃ s', judgeTestWith (launch ctx.platform s.st.sysCallInit heap s.submit s.rlLaunch run.launch)
        call jdg run tc s = .ret s' ∧
      s'.st = (keepOutputWith call jdg s.submit res st).2 ∧
      TestsInv submit rl block heap
        (results ++ [(keepOutputWith call jdg s.submit res st).1]) s' := by
  intro st
  obtain ⟨⟨launched, rl', sysCallInit⟩, hlaunch, hret⟩ := bind_eq_ret_iff.mp hres
  obtain ⟨rfl, f, t, rfl⟩ := launch_eq_ret hlaunch
  have hrun : launch ctx.platform s.st.sysCallInit heap s.submit s.rlLaunch run.launch
      = .ret (launched, _, some block) := (launch_of_testsInv hinv).trans hlaunch
  have hsubmit : Result.ofSubmission s.submit = Result.ofSubmission submit := by
    rw [hinv.submit_eq]
    rfl
  obtain ⟨file, hfile⟩ := keepOutputWith_eq call jdg s.submit res st
  have hblock : (keepOutputWith call jdg s.submit res st).2.sysCallInit = some block := by
    rw [keepOutputWith]
    split
    · exact hcall st
    · rfl
  simp only [judgeTestWith, bind_def, hrun, ret_bind, check_submit_congr hsubmit, ret.inj hret]
  refine ⟨_, rfl, rfl, ?_, ⟨f, t, rfl⟩, ?_, ?_⟩
  · simp only [hinv.submit_eq, List.append_assoc, st]
  · simp only [sysCallBlock, st, hblock, Option.getD_some]
  · simp only [Bool.and_eq_true, decide_eq_true_eq, hinv.flgAc_iff, List.forall_mem_append,
      List.forall_mem_singleton, hfile, st]

theorem judgeTest_of_result (hinv : TestsInv submit rl block heap results s)
    (hres : testResult ctx jdg submit rl block run tc = .ret res) :
    ∃ s' file, judgeTest jdg heap run tc s = .ret s' ∧
      TestsInv submit rl block heap (results ++ [{ res with resOutputFile := file }]) s' := by
  have hcall : ∀ st : DaemonState ctx, (getResultCount st).2.sysCallInit = st.sysCallInit :=
    fun _ => rfl
  obtain ⟨s', htest, -, hinv'⟩ := judgeTestWith_of_result hcall hinv hres
  obtain ⟨file, hfile⟩ := keepOutputWith_eq getResultCount jdg s.submit res
    { copyTestcaseInput jdg tc s.st with sysCallInit := some block }
  exact ⟨s', file, htest, hfile ▸ hinv'⟩

theorem judgeTest_of_verdict {v : NojResult} (hinv : TestsInv submit rl block heap results s)
    (hv : testVerdict ctx jdg submit rl block run tc = .ret v) :
    ∃ s' res, judgeTest jdg heap run tc s = .ret s' ∧ res.resType = v ∧
      TestsInv submit rl block heap (results ++ [res]) s' := by
  rw [testVerdict_eq_bind] at hv
  obtain ⟨res, hres, htype⟩ := bind_eq_ret_iff.mp hv
  obtain ⟨s', file, htest, hinv'⟩ := judgeTest_of_result hinv hres
  exact ⟨s', { res with resOutputFile := file }, htest, ret.inj htype, hinv'⟩

theorem exists_result_of_judgeTest (hinv : TestsInv submit rl block heap results s)
    (h : judgeTest jdg heap run tc s = .ret s') :
    ∃ res, testResult ctx jdg submit rl block run tc = .ret res := by
  obtain ⟨r, hlaunch, -⟩ := bind_eq_ret_iff.mp h
  have hrun := (launch_of_testsInv hinv).symm.trans hlaunch
  exact ⟨_, by rw [testResult, hrun, ret_bind]⟩

theorem exists_verdict_of_judgeTest (hinv : TestsInv submit rl block heap results s)
    (h : judgeTest jdg heap run tc s = .ret s') :
    ∃ v, testVerdict ctx jdg submit rl block run tc = .ret v := by
  obtain ⟨res, hres⟩ := exists_result_of_judgeTest hinv h
  exact ⟨res.resType, by rw [testVerdict_eq_bind, hres, ret_bind]⟩

/-- **The loop and its verdicts.** -/
theorem judgeTests_of_verdicts {tcs : List TestCase} {vs : List NojResult} (n : ℕ)
    (hinv : TestsInv submit rl block heap results s)
    (hvs : testVerdicts ctx jdg submit rl block runs n tcs = .ret vs) :
    ∃ s' results', judgeTests jdg heap runs n tcs s = .ret s' ∧
      results'.map Result.resType = vs ∧
      TestsInv submit rl block heap (results ++ results') s' := by
  induction tcs generalizing n s results vs with
  | nil =>
    obtain rfl : [] = vs := ret.inj hvs
    exact ⟨s, [], rfl, rfl, by rwa [List.append_nil]⟩
  | cons tc tcs ih =>
    obtain ⟨v, hv, hrest⟩ := bind_eq_ret_iff.mp hvs
    obtain ⟨ws, hws, hcons⟩ := bind_eq_ret_iff.mp hrest
    obtain ⟨s₁, res, htest, hres, hinv₁⟩ := judgeTest_of_verdict hinv hv
    obtain ⟨s', results', hloop, hmap, hinv'⟩ := ih (n + 1) hinv₁ hws
    refine ⟨s', res :: results', ?_, ?_, by rwa [List.append_cons]⟩
    · rw [judgeTests, bind_def, htest, ret_bind, hloop]
    · rw [List.map_cons, hres, hmap, ret.inj hcons]

/-- **The loop and its results**, one for every test case and in their order. -/
theorem judgeTests_results {tcs : List TestCase} (n : ℕ)
    (hinv : TestsInv submit rl block heap results s)
    (h : judgeTests jdg heap runs n tcs s = .ret s') :
    ∃ results', TestsInv submit rl block heap (results ++ results') s' ∧
      List.Forall₂ (fun x res => ∃ res' file,
        testResult ctx jdg submit rl block (runs x.2) x.1 = .ret res' ∧
          res = { res' with resOutputFile := file }) (tcs.zipIdx n) results' := by
  induction tcs generalizing n s results with
  | nil =>
    obtain rfl : s = s' := ret.inj h
    exact ⟨[], by rwa [List.append_nil], .nil⟩
  | cons tc tcs ih =>
    obtain ⟨s₁, htest, hloop⟩ := bind_eq_ret_iff.mp h
    obtain ⟨res, hres⟩ := exists_result_of_judgeTest hinv htest
    obtain ⟨s₂, file, htest', hinv₂⟩ := judgeTest_of_result hinv hres
    obtain rfl : s₁ = s₂ := ret.inj (htest.symm.trans htest')
    obtain ⟨results', hinv', hall⟩ := ih (n + 1) hinv₂ hloop
    refine ⟨{ res with resOutputFile := file } :: results', by rwa [List.append_cons], ?_⟩
    rw [List.zipIdx_cons]
    exact .cons ⟨res, file, hres, rfl⟩ hall

theorem exists_verdicts_of_judgeTests {tcs : List TestCase} (n : ℕ)
    (hinv : TestsInv submit rl block heap results s)
    (h : judgeTests jdg heap runs n tcs s = .ret s') :
    ∃ vs, testVerdicts ctx jdg submit rl block runs n tcs = .ret vs := by
  induction tcs generalizing n s results with
  | nil => exact ⟨[], rfl⟩
  | cons tc tcs ih =>
    obtain ⟨s₁, htest, hloop⟩ := bind_eq_ret_iff.mp h
    obtain ⟨v, hv⟩ := exists_verdict_of_judgeTest hinv htest
    obtain ⟨s₂, res, htest', -, hinv₂⟩ := judgeTest_of_verdict hinv hv
    obtain rfl : s₁ = s₂ := ret.inj (htest.symm.trans htest')
    obtain ⟨vs, hvs⟩ := ih (n + 1) hinv₂ hloop
    exact ⟨v :: vs, by rw [testVerdicts, bind_def, hv, ret_bind, bind_def, hvs, ret_bind]⟩

end Tests

/-! ### The submission -/

section Judge

open Outcome

variable {ctx : LoadContext} {lang : LangCDebug} {jdg : Judge} {submit : Submission}
  {st : DaemonState ctx} {replies : JudgeReplies} {prob : Problem} {res : Result}

/-- The problem that the submission is judged by. -/
def problemOf (submit : Submission) (st : DaemonState ctx) (replies : JudgeReplies) :
    Outcome Fault Problem :=
  loadedProblem ctx submit.sbmProbId (st.cache.repliesFor submit.sbmProbId replies.load)

/-- The compilation of the submission. -/
def compilationOf (ctx : LoadContext) (lang : LangCDebug) (jdg : Judge) (submit : Submission)
    (replies : JudgeReplies) : Outcome Fault Result :=
  compile ctx.platform lang submit (rlCompile ctx.platform jdg) replies.compile

/-- The verdicts on the test cases of the problem. -/
def verdictsOf (jdg : Judge) (submit : Submission) (st : DaemonState ctx) (replies : JudgeReplies)
    (prob : Problem) : Outcome Fault (List NojResult) :=
  testVerdicts ctx jdg submit (rlLaunch jdg prob) (sysCallBlock st.sysCallInit replies.heap)
    replies.tests 0 prob.probTestcases

/-- The verdict that the flag of the loop stands for. -/
def overallVerdict (vs : List NojResult) : NojResult :=
  if ∀ v ∈ vs, v = .correctAnswer then .accept else .notAccept

/-- The variables of the loop before it starts. -/
def testsStart (jdg : Judge) (submit : Submission) (st : DaemonState ctx) (replies : JudgeReplies)
    (prob : Problem) : TestsState ctx where
  submit := { submit with sbmResType := .compilePass }
  rlLaunch := rlLaunch jdg prob
  flgAc := true
  st := { copySrc jdg submit st with cache := (st.cache.get submit.sbmProbId replies.load).2 }

/-- The loop on the test cases of the problem. -/
def testsOf (jdg : Judge) (submit : Submission) (st : DaemonState ctx) (replies : JudgeReplies)
    (prob : Problem) : Outcome Fault (TestsState ctx) :=
  judgeTests jdg replies.heap replies.tests 0 prob.probTestcases
    (testsStart jdg submit st replies prob)

/-- The loop starts with the invariant. -/
theorem testsInv_nil (submit : Submission) (rl : ResourceLimit) (heap : SyscallLimits)
    (st : DaemonState ctx) :
    TestsInv submit rl (sysCallBlock st.sysCallInit heap) heap []
      ⟨{ submit with sbmResType := .compilePass }, rl, true, st⟩ where
  submit_eq := by simp only [List.append_nil]
  rl_eq := ⟨_, _, rfl⟩
  block_eq := rfl
  flgAc_iff := by simp

theorem testsInv_start (jdg : Judge) (submit : Submission) (st : DaemonState ctx)
    (replies : JudgeReplies) (prob : Problem) :
    TestsInv submit (rlLaunch jdg prob) (sysCallBlock st.sysCallInit replies.heap) replies.heap []
      (testsStart jdg submit st replies prob) :=
  testsInv_nil submit (rlLaunch jdg prob) replies.heap (testsStart jdg submit st replies prob).st

/-- **The stages of judging**: the problem, the compilation, the loop. -/
theorem judge_eq : judge lang jdg submit st replies =
    (problemOf submit st replies).bind fun prob =>
      (compilationOf ctx lang jdg submit replies).bind fun res =>
        if res.resType ≠ .compilePass then
          let submit := { submit with sbmResults := submit.sbmResults ++ [res] }
          .ret (.normal, { submit with sbmResType := .compileError },
            { copySrc jdg submit st with cache := (st.cache.get submit.sbmProbId replies.load).2 })
        else (testsOf jdg submit st replies prob).bind fun s =>
          let verdict := if s.flgAc then .accept else .notAccept
          .ret (.normal, { s.submit with sbmResType := verdict }, s.st) := by
  have hload : (st.cache.get submit.sbmProbId replies.load).1 = problemOf submit st replies :=
    st.cache.getProblem_eq submit.sbmProbId replies.load
  rw [← hload]
  rfl

/-- A compilation that does not pass. -/
theorem judge_of_not_compilePass (hprob : problemOf submit st replies = .ret prob)
    (hres : compilationOf ctx lang jdg submit replies = .ret res)
    (hfail : res.resType ≠ .compilePass) :
    ∃ submit' st', judge lang jdg submit st replies = .ret (.normal, submit', st') ∧
      submit'.sbmResType = .compileError := by
  have hjudge : judge lang jdg submit st replies = _ := judge_eq
  rw [hprob, ret_bind, hres, ret_bind, if_pos hfail] at hjudge
  exact ⟨_, _, hjudge, rfl⟩

/-- **A compilation that passes**: one result for every test case, and the verdict that
they add up to. -/
theorem judge_of_verdicts {vs : List NojResult} (hprob : problemOf submit st replies = .ret prob)
    (hres : compilationOf ctx lang jdg submit replies = .ret res)
    (hpass : res.resType = .compilePass) (hvs : verdictsOf jdg submit st replies prob = .ret vs) :
    ∃ submit' st' results, judge lang jdg submit st replies = .ret (.normal, submit', st') ∧
      results.map Result.resType = vs ∧ submit'.sbmResults = submit.sbmResults ++ results ∧
      submit'.sbmResType = overallVerdict vs := by
  obtain ⟨s, results, hloop, rfl, hinv⟩ := judgeTests_of_verdicts 0
    (testsInv_start jdg submit st replies prob) hvs
  have htests : testsOf jdg submit st replies prob = .ret s := hloop
  have hjudge : judge lang jdg submit st replies = _ := judge_eq
  rw [hprob, ret_bind, hres, ret_bind, if_neg (not_not.mpr hpass), htests, ret_bind] at hjudge
  refine ⟨_, _, results, hjudge, rfl, ?_, ?_⟩
  · simp only [hinv.submit_eq, List.nil_append]
  · have hflag := hinv.flgAc_iff
    rw [List.nil_append] at hflag
    simp only [overallVerdict, hflag, List.forall_mem_map]

/-- **Inversion of judging.** A judge that returned has compiled the submission, and where
that passed it has run every test case. -/
theorem judge_cases {stat : NojState} {submit' : Submission} {st' : DaemonState ctx}
    (h : judge lang jdg submit st replies = .ret (stat, submit', st')) :
    ∃ prob res, problemOf submit st replies = .ret prob ∧
      compilationOf ctx lang jdg submit replies = .ret res ∧
      (res.resType ≠ .compilePass ∧ submit'.sbmResType = .compileError ∨
        res.resType = .compilePass ∧ ∃ vs results,
          verdictsOf jdg submit st replies prob = .ret vs ∧ results.map Result.resType = vs ∧
          submit'.sbmResults = submit.sbmResults ++ results ∧
          submit'.sbmResType = overallVerdict vs) := by
  have hstages := h
  rw [judge_eq] at hstages
  obtain ⟨prob, hprob, hstages⟩ := bind_eq_ret_iff.mp hstages
  obtain ⟨res, hres, hstages⟩ := bind_eq_ret_iff.mp hstages
  refine ⟨prob, res, hprob, hres, ?_⟩
  by_cases hpass : res.resType = .compilePass
  · rw [if_neg (not_not.mpr hpass)] at hstages
    obtain ⟨s, htests, -⟩ := bind_eq_ret_iff.mp hstages
    obtain ⟨vs, hvs⟩ := exists_verdicts_of_judgeTests 0
      (testsInv_start jdg submit st replies prob) htests
    obtain ⟨submit'', st'', results, hjudge, hmap, hresults, htype⟩ :=
      judge_of_verdicts hprob hres hpass hvs
    obtain ⟨-, rfl, -⟩ : _ ∧ submit' = submit'' ∧ _ := by simpa using h.symm.trans hjudge
    exact Or.inr ⟨hpass, vs, results, hvs, hmap, hresults, htype⟩
  · obtain ⟨submit'', st'', hjudge, herror⟩ := judge_of_not_compilePass hprob hres hpass
    obtain ⟨-, rfl, -⟩ : _ ∧ submit' = submit'' ∧ _ := by simpa using h.symm.trans hjudge
    exact Or.inl ⟨hpass, herror⟩

/-- **The results of a submission that compiles**, one for every test case of its problem
and in their order. -/
theorem judge_results {stat : NojState} {submit' : Submission} {st' : DaemonState ctx}
    (hprob : problemOf submit st replies = .ret prob)
    (hres : compilationOf ctx lang jdg submit replies = .ret res)
    (hpass : res.resType = .compilePass)
    (h : judge lang jdg submit st replies = .ret (stat, submit', st')) :
    ∃ results, submit'.sbmResults = submit.sbmResults ++ results ∧
      List.Forall₂ (fun x res => ∃ res' file,
        testResult ctx jdg submit (rlLaunch jdg prob) (sysCallBlock st.sysCallInit replies.heap)
          (replies.tests x.2) x.1 = .ret res' ∧ res = { res' with resOutputFile := file })
        (prob.probTestcases.zipIdx 0) results := by
  rw [judge_eq, hprob, ret_bind, hres, ret_bind, if_neg (not_not.mpr hpass)] at h
  obtain ⟨s, htests, hret⟩ := bind_eq_ret_iff.mp h
  obtain ⟨results, hinv, hall⟩ := judgeTests_results 0
    (testsInv_start jdg submit st replies prob) htests
  obtain ⟨-, rfl, -⟩ : _ ∧ _ = submit' ∧ _ := by simpa using hret
  exact ⟨results, by simp only [hinv.submit_eq, List.nil_append], hall⟩

/-- The replies that the problem of the submission was loaded by, or is about to be. -/
def loadRepliesOf (submit : Submission) (st : DaemonState ctx) (replies : JudgeReplies) :
    LoadReplies :=
  st.cache.repliesFor submit.sbmProbId replies.load

theorem exists_problemOf_iff :
    (∃ prob, problemOf submit st replies = .ret prob) ↔
      ¬(loadRepliesOf submit st replies).DerefsNull :=
  exists_loadedProblem_iff

/-- The compilation passes. -/
def Compiles (ctx : LoadContext) (lang : LangCDebug) (jdg : Judge) (submit : Submission)
    (replies : JudgeReplies) : Prop :=
  ∃ res, compilationOf ctx lang jdg submit replies = .ret res ∧ res.resType = .compilePass

/-- The program answers correctly in every test case that the problem has. -/
def AllCorrect (jdg : Judge) (submit : Submission) (st : DaemonState ctx)
    (replies : JudgeReplies) : Prop :=
  ∃ prob vs, problemOf submit st replies = .ret prob ∧
    verdictsOf jdg submit st replies prob = .ret vs ∧ ∀ v ∈ vs, v = .correctAnswer

theorem overallVerdict_eq_accept_iff {vs : List NojResult} :
    overallVerdict vs = .accept ↔ ∀ v ∈ vs, v = .correctAnswer := by
  rw [overallVerdict]
  split
  · next h => exact iff_of_true rfl h
  · next h => exact iff_of_false (by decide) h

theorem length_of_testVerdicts {rl : ResourceLimit} {block : SyscallLimits}
    {runs : ℕ → TestRun} {tcs : List TestCase} {vs : List NojResult} {n : ℕ}
    (h : testVerdicts ctx jdg submit rl block runs n tcs = .ret vs) :
    vs.length = tcs.length := by
  induction tcs generalizing n vs with
  | nil =>
    obtain rfl : [] = vs := ret.inj h
    rfl
  | cons tc tcs ih =>
    obtain ⟨v, -, h⟩ := bind_eq_ret_iff.mp h
    obtain ⟨ws, hws, h⟩ := bind_eq_ret_iff.mp h
    obtain rfl : v :: ws = vs := ret.inj h
    rw [List.length_cons, List.length_cons, ih hws]

/-- **When `accept` is earned.** A submission is accepted only on a problem that is fully
loaded, with at least one test case and correct results on all of them, exactly if the
loader crashes, the compilation does not pass, some test case is not answered correctly,
or the problem is fully loaded and the query for its test cases delivered one. -/
theorem judge_accept_iff (lang : LangCDebug) (jdg : Judge) (submit : Submission)
    (st : DaemonState ctx) (replies : JudgeReplies) :
    (∀ stat submit' st', judge lang jdg submit st replies = .ret (stat, submit', st') →
      submit'.sbmResType = .accept →
        FullyLoaded ctx (loadRepliesOf submit st replies) ∧
        ∃ prob results, problemOf submit st replies = .ret prob ∧ prob.probTestcases ≠ [] ∧
          submit'.sbmResults = submit.sbmResults ++ results ∧
          results.length = prob.probTestcases.length ∧
          ∀ res ∈ results, res.resType = .correctAnswer) ↔
    (loadRepliesOf submit st replies).DerefsNull ∨ ¬Compiles ctx lang jdg submit replies ∨
      ¬AllCorrect jdg submit st replies ∨
      FullyLoaded ctx (loadRepliesOf submit st replies) ∧
        (loadRepliesOf submit st replies).tests ≠ .rows [] := by
  constructor
  · -- where the condition fails, the submission is accepted on a problem not loaded
    intro h
    by_contra hcond
    obtain ⟨-, hcompiles, hcorrect, hloaded⟩ :
        ¬_ ∧ Compiles ctx lang jdg submit replies ∧ AllCorrect jdg submit st replies ∧ ¬_ := by
      simpa only [not_or, not_not] using hcond
    obtain ⟨res, hres, hpass⟩ := hcompiles
    obtain ⟨prob, vs, hprob, hvs, hall⟩ := hcorrect
    obtain ⟨submit', st', results, hjudge, -, -, htype⟩ := judge_of_verdicts hprob hres hpass hvs
    obtain ⟨hfull, prob', results', hprob', htests, -⟩ :=
      h _ _ _ hjudge (htype.trans (overallVerdict_eq_accept_iff.mpr hall))
    refine hloaded ⟨hfull, fun hempty => htests ?_⟩
    exact List.length_eq_zero_iff.mp (loadedProblem_length hempty hprob')
  · intro hcond stat submit' st' hjudge haccept
    obtain ⟨prob, res, hprob, hres, hcases⟩ := judge_cases hjudge
    rcases hcases with ⟨-, herror⟩ | ⟨hpass, vs, results, hvs, hmap, hresults, htype⟩
    · rw [herror] at haccept
      cases haccept
    have hall := overallVerdict_eq_accept_iff.mp (htype.symm.trans haccept)
    have hnull : ¬(loadRepliesOf submit st replies).DerefsNull :=
      exists_problemOf_iff.mp ⟨prob, hprob⟩
    obtain ⟨hfull, hne⟩ : FullyLoaded ctx (loadRepliesOf submit st replies) ∧
        (loadRepliesOf submit st replies).tests ≠ .rows [] := by
      rcases hcond with hbad | hbad | hbad | hgood
      · exact absurd hbad hnull
      · exact absurd ⟨res, hres, hpass⟩ hbad
      · exact absurd ⟨prob, vs, hprob, hvs, hall⟩ hbad
      · exact hgood
    refine ⟨hfull, prob, results, hprob, fun hempty => ?_, hresults, ?_, ?_⟩
    · obtain ⟨rows, hrows, -⟩ := hfull.tests
      have hlength := loadedProblem_length hrows hprob
      rw [hempty, List.length_nil] at hlength
      exact hne (hrows.trans (by rw [List.length_eq_zero_iff.mp hlength.symm]))
    · rw [← length_of_testVerdicts hvs, ← hmap, List.length_map]
    · exact List.forall_mem_map.mp (hmap ▸ hall)

/-- A world in which the database is down and the script succeeds. -/
def databaseDown : JudgeReplies where
  load := failedReplies
  compile _ _ := ⟨0, some 4242, some (.status 0), []⟩
  tests _ := ⟨⟨none, [], none⟩, ⟨fun _ => 0, fun _ => 0⟩⟩
  heap _ := 0

/-- With the database down, every submission that compiles is accepted. -/
theorem judge_databaseDown :
    ¬FullyLoaded nojContext databaseDown.load ∧ ∃ submit' st',
      judge ⟨some "/etc/noj/compile_c_release.sh"⟩ ⟨"/home/noj/judge0", 1001⟩
        (.released 1000 7) (.start nojContext) databaseDown = .ret (.normal, submit', st') ∧
      submit'.sbmResType = .accept ∧ submit'.sbmResults = [] := by
  refine ⟨fun h => ?_, _, _, rfl, rfl, rfl⟩
  obtain ⟨row, rows, hlimits, -⟩ := h.limits
  cases hlimits

/-- **When a failure of the judge is not blamed on the contestant.** A verdict
`compileError` comes only from a script that failed, and `notAccept` only from a result
that is neither correct nor a system error, exactly if the loader crashes, or the
compilation is no system error and the verdicts on the test cases, if it passes, are all
correct or contain one that is neither. -/
theorem judge_blame_iff (lang : LangCDebug) (jdg : Judge) (submit : Submission)
    (st : DaemonState ctx) (replies : JudgeReplies) :
    (∀ stat submit' st', judge lang jdg submit st replies = .ret (stat, submit', st') →
      (submit'.sbmResType = .compileError → ∃ res,
        compilationOf ctx lang jdg submit replies = .ret res ∧ res.resType = .compileError) ∧
      (submit'.sbmResType = .notAccept → ∃ results,
        submit'.sbmResults = submit.sbmResults ++ results ∧
        ∃ res ∈ results, res.resType ≠ .correctAnswer ∧ res.resType ≠ .systemError)) ↔
    (loadRepliesOf submit st replies).DerefsNull ∨
      (∀ res, compilationOf ctx lang jdg submit replies = .ret res →
        res.resType ≠ .systemError) ∧
      (Compiles ctx lang jdg submit replies → ∀ prob vs, problemOf submit st replies = .ret prob →
        verdictsOf jdg submit st replies prob = .ret vs →
        (∀ v ∈ vs, v = .correctAnswer) ∨ ∃ v ∈ vs, v ≠ .correctAnswer ∧ v ≠ .systemError) := by
  constructor
  · intro h
    by_cases hnull : (loadRepliesOf submit st replies).DerefsNull
    · exact Or.inl hnull
    · obtain ⟨prob, hprob⟩ := exists_problemOf_iff.mpr hnull
      refine Or.inr ⟨fun res hres hsystem => ?_, fun ⟨res, hres, hpass⟩ prob' vs hprob' hvs => ?_⟩
      · -- a system error of the compilation is blamed
        have hfail : res.resType ≠ .compilePass := by simp [hsystem]
        obtain ⟨submit', st', hjudge, herror⟩ := judge_of_not_compilePass hprob hres hfail
        obtain ⟨res', hres', herror'⟩ := (h _ _ _ hjudge).1 herror
        obtain rfl : res = res' := ret.inj (hres.symm.trans hres')
        exact absurd (hsystem.symm.trans herror') (by decide)
      · -- so are system errors of the runs, if nothing else is wrong
        refine or_iff_not_imp_left.mpr fun hnot => ?_
        obtain ⟨submit', st', results, hjudge, hmap, hresults, htype⟩ :=
          judge_of_verdicts hprob' hres hpass hvs
        have hverdict : submit'.sbmResType = .notAccept := by
          rw [htype, overallVerdict, if_neg hnot]
        obtain ⟨results', hresults', res', hmem, hne⟩ := (h _ _ _ hjudge).2 hverdict
        obtain rfl : results = results' := List.append_cancel_left (hresults.symm.trans hresults')
        exact ⟨res'.resType, hmap ▸ List.mem_map_of_mem hmem, hne⟩
  · intro hcond stat submit' st' hjudge
    obtain ⟨prob, res, hprob, hres, hcases⟩ := judge_cases hjudge
    obtain ⟨hsystem, hverdicts⟩ := hcond.resolve_left (exists_problemOf_iff.mp ⟨prob, hprob⟩)
    rcases hcases with ⟨hfail, herror⟩ | ⟨hpass, vs, results, hvs, rfl, hresults, htype⟩
    · -- not a system error and not a pass: a failed script
      have hscript := ((compile_resType hres).resolve_left (hsystem res hres)).resolve_left hfail
      exact ⟨fun _ => ⟨res, hres, hscript⟩, fun h => absurd (herror.symm.trans h) (by decide)⟩
    · have hne : overallVerdict (results.map Result.resType) ≠ .compileError := by
        rw [overallVerdict]
        split <;> decide
      refine ⟨fun h => absurd (htype.symm.trans h) hne, fun h => ⟨results, hresults, ?_⟩⟩
      rcases hverdicts ⟨res, hres, hpass⟩ prob _ hprob hvs with hall | ⟨v, hv, hblame⟩
      · rw [htype, overallVerdict_eq_accept_iff.mpr hall] at h
        cases h
      · obtain ⟨res', hmem, rfl⟩ := List.mem_map.mp hv
        exact ⟨res', hmem, hblame⟩

/-- A world in which no process can be created. -/
def noProcess : JudgeReplies where
  load := failedReplies
  compile _ _ := ⟨0, none, none, []⟩
  tests _ := ⟨⟨none, [], none⟩, ⟨fun _ => 0, fun _ => 0⟩⟩
  heap _ := 0

/-- A `fork` that fails becomes a compile error of the contestant. -/
theorem judge_noProcess : ∃ submit' st' res,
    judge ⟨some "/etc/noj/compile_c_release.sh"⟩ ⟨"/home/noj/judge0", 1001⟩
      (.released 1000 7) (.start nojContext) noProcess = .ret (.normal, submit', st') ∧
    submit'.sbmResType = .compileError ∧ submit'.sbmResults = [res] ∧
    res.resType = .systemError :=
  ⟨_, _, _, rfl, rfl, rfl, rfl⟩

end Judge

end NpuOj
