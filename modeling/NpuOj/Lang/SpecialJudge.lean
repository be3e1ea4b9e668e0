import NpuOj.Lang.Records
import NpuOj.Lang.Rounds

/-!
# The field that selects the checker

`LangC::check` compares the output if `is_special_judge` of the test case is zero, and reports
a system error otherwise. No constructor of `TestCase` sets this field and no query loads it:
its value is what the memory of the object held before.

`NpuOj.Problem.overMemory` is a problem whose test cases were constructed over the given
memory, and `NpuOj.loadedProblem_overMemory` says that the loader makes such a problem. When
what was there before plays no role is `NpuOj.judge_overMemory_iff`.
-/

namespace NpuOj

open Posix Outcome

/-! ### Loading over other memory -/

/-- The problem, with its test cases constructed over the given memory. -/
def Problem.overMemory (l : ℕ → ℤ) (prob : Problem) : Problem :=
  { prob with
    probTestcases := prob.probTestcases.mapIdx fun n tc => { tc with isSpecialJudge := l n } }

/-- The same replies, with the test cases constructed over the given memory. -/
def LoadReplies.overMemory (l : ℕ → ℤ) (replies : LoadReplies) : LoadReplies :=
  { replies with leftover := l }

section Loader

variable {ctx : LoadContext} {probId : ℤ} {replies : LoadReplies} {l : ℕ → ℤ}

theorem Problem.overMemory_addTestcase (l : ℕ → ℤ) (prob : Problem) (tc : TestCase) :
    (prob.addTestcase tc).overMemory l =
      (prob.overMemory l).addTestcase
        { tc with isSpecialJudge := l prob.probTestcases.length } := by
  simp [Problem.overMemory, Problem.addTestcase, List.mapIdx_append]

theorem Problem.overMemory_of_noTestcases {prob : Problem} (h : prob.probTestcases = []) :
    prob.overMemory l = prob := by
  rw [Problem.overMemory, h, List.mapIdx_nil, ← h]

theorem fetchTestcase_overMemory (ctx : LoadContext) (probId leftover leftover' : ℤ)
    (reply : DownloadReply) (row : TestRow) :
    fetchTestcase ctx probId leftover' reply row =
      (fetchTestcase ctx probId leftover reply row).bind fun tc =>
        .ret { tc with isSpecialJudge := leftover' } := by
  rcases row with ⟨_ | id, _ | input, _ | output⟩ <;> rfl

theorem fetchTestcases_overMemory (l : ℕ → ℤ) (rows : List TestRow) {n : ℕ} {prob : Problem}
    (hn : n = prob.probTestcases.length) :
    fetchTestcases ctx probId (replies.overMemory l) n rows (prob.overMemory l) =
      (fetchTestcases ctx probId replies n rows prob).bind fun prob =>
        .ret (prob.overMemory l) := by
  induction rows generalizing n prob with
  | nil => rfl
  | cons row rows ih =>
    have htestcase := fetchTestcase_overMemory ctx probId (replies.leftover n) (l n)
      (replies.downloads n) row
    simp only [fetchTestcases, bind_def]
    change (fetchTestcase ctx probId (l n) (replies.downloads n) row).bind _ = _
    rw [htestcase]
    cases fetchTestcase ctx probId (replies.leftover n) (replies.downloads n) row with
    | fault e => rfl
    | pending => rfl
    | ret tc =>
      have hadd := prob.overMemory_addTestcase l tc
      rw [← hn] at hadd
      simp only [ret_bind, ← hadd]
      refine ih ?_
      rw [Problem.addTestcase, List.length_append, hn]
      rfl

/-- **The loader fills in the memory** that the test cases were constructed over, and nothing
else depends on it. -/
theorem loadedProblem_overMemory (l : ℕ → ℤ) (probId : ℤ) (replies : LoadReplies) :
    loadedProblem ctx probId (replies.overMemory l) =
      (loadedProblem ctx probId replies).bind fun prob => .ret (prob.overMemory l) := by
  have hlimits : (replies.overMemory l).limits = replies.limits := rfl
  have htests : (replies.overMemory l).tests = replies.tests := rfl
  simp only [loadedProblem, getProblem, fetchProblemFromDb, Option.isNone_none, if_true, hlimits,
    htests]
  cases hprob : fetchLimits ctx probId replies.limits with
  | fault e => rfl
  | pending => rfl
  | ret prob =>
    have hempty := fetchLimits_probTestcases hprob
    cases replies.tests with
    | error => rfl
    | noResult => rfl
    | rows rows =>
      have hrows : fetchTestcases ctx probId (replies.overMemory l) 0 rows prob = _ :=
        Problem.overMemory_of_noTestcases hempty (l := l) ▸
          fetchTestcases_overMemory l rows (by rw [hempty, List.length_nil])
      simp only [hrows]
      cases fetchTestcases ctx probId replies 0 rows prob with
      | ret prob => simp [ProbLists.at]
      | fault e => rfl
      | pending => rfl

end Loader

/-! ### The daemon over other memory -/

section Daemon

variable {ctx : LoadContext} {l : ℕ → ℤ} {submit : Submission} {st : DaemonState ctx}
  {replies : JudgeReplies}

/-- The cache, with its problems constructed over the given memory. -/
def ProbCache.overMemory (l : ℕ → ℤ) (cache : ProbCache ctx) : ProbCache ctx where
  lists probId := (cache.lists probId).map (Problem.overMemory l)
  source probId := (cache.source probId).map (LoadReplies.overMemory l)
  loaded probId r h := by
    obtain ⟨replies, hsource, rfl⟩ := Option.map_eq_some_iff.mp h
    obtain ⟨prob, hprob, hlists⟩ := cache.loaded probId replies hsource
    refine ⟨prob.overMemory l, ?_, by rw [hlists, Option.map_some]⟩
    rw [loadedProblem_overMemory, hprob, ret_bind]
  missing probId h := by
    rw [cache.missing probId (Option.map_eq_none_iff.mp h), Option.map_none]

/-- The daemon, with the problems of its cache constructed over the given memory. -/
def DaemonState.overMemory (l : ℕ → ℤ) (st : DaemonState ctx) : DaemonState ctx :=
  { st with cache := st.cache.overMemory l }

/-- The same replies, with the test cases constructed over the given memory. -/
def JudgeReplies.overMemory (l : ℕ → ℤ) (replies : JudgeReplies) : JudgeReplies :=
  { replies with load := replies.load.overMemory l }

/-- The problem of a submission, over other memory. -/
theorem problemOf_overMemory (l : ℕ → ℤ) (submit : Submission) (st : DaemonState ctx)
    (replies : JudgeReplies) :
    problemOf submit (st.overMemory l) (replies.overMemory l) =
      (problemOf submit st replies).bind fun prob => .ret (prob.overMemory l) := by
  have hsource : (st.overMemory l).cache.repliesFor submit.sbmProbId (replies.overMemory l).load =
      (st.cache.repliesFor submit.sbmProbId replies.load).overMemory l := by
    change ((st.cache.source submit.sbmProbId).map _).getD _ = _
    rw [ProbCache.repliesFor]
    cases st.cache.source submit.sbmProbId <;> rfl
  rw [problemOf, hsource, loadedProblem_overMemory]
  rfl

end Daemon

/-! ### One round -/

section Round

variable {ctx : LoadContext} {jdg : Judge} {heap : SyscallLimits} {run : TestRun}
  {runs : ℕ → TestRun} {tc : TestCase} {tcs : List TestCase} {s : TestsState ctx} {r : Round ctx}
  {n : ℕ} {submit : Submission} {reply : CheckReply}

/-- The test case with the field at zero. -/
def TestCase.cleared (tc : TestCase) : TestCase := { tc with isSpecialJudge := 0 }

theorem check_of_zero (h : tc.isSpecialJudge = 0) :
    check jdg submit tc reply = checkNormal jdg submit tc reply := by
  rw [check, if_pos h]

/-- A comparison has nothing to tell. -/
theorem checkNormal_resContent : (checkNormal jdg submit tc reply).resContent = [] := by
  simp only [checkNormal]
  repeat' split
  all_goals rfl

/-- **Which checker it is** can be seen from the result. -/
theorem check_eq_checkNormal_iff :
    check jdg submit tc reply = checkNormal jdg submit tc reply ↔ tc.isSpecialJudge = 0 := by
  refine ⟨fun h => ?_, check_of_zero⟩
  by_contra hspecial
  have hcontent := congrArg Result.resContent h
  rw [check, if_neg hspecial, checkNormal_resContent] at hcontent
  have hne : ascii "LangC: Check method not found" ≠ [] := by decide +kernel
  exact hne hcontent

/-- The launch of the round passes, so that its output is checked. -/
def Round.Checked (heap : SyscallLimits) (runs : ℕ → TestRun) (r : Round ctx) : Prop :=
  ∃ x, r.launched heap runs = .ret x ∧ x.1.resType = .runPass

/-- The variables of the loop, with another cache. -/
def TestsState.withCache (c : ProbCache ctx) (s : TestsState ctx) : TestsState ctx :=
  { s with st := { s.st with cache := c } }

theorem keepOutput_withCache (jdg : Judge) (submit : Submission) (c : ProbCache ctx)
    (res : Result) (st : DaemonState ctx) :
    keepOutput jdg submit res { st with cache := c } =
      ((keepOutput jdg submit res st).1, { (keepOutput jdg submit res st).2 with cache := c }) := by
  simp only [keepOutput, keepOutputWith]
  split <;> rfl

/-- The end of a round: the output is kept, and the result is appended. -/
def TestsState.appendResult (jdg : Judge) (res : Result) (rl : ResourceLimit)
    (st : DaemonState ctx) (s : TestsState ctx) : TestsState ctx :=
  let kept := keepOutput jdg s.submit res st
  ⟨{ s.submit with sbmResults := s.submit.sbmResults ++ [kept.1] }, rl,
    s.flgAc && kept.1.resType = .correctAnswer, kept.2⟩

/-- A round is a launch, the check of what passed, and the end. -/
theorem judgeTest_eq : judgeTest jdg heap (runs n) tc s =
    ((Round.mk n tc s).launched heap runs).bind fun x =>
      let res := if x.1.resType = .runPass then check jdg s.submit tc (runs n).check else x.1
      .ret (s.appendResult jdg res x.2.1
        { copyTestcaseInput jdg tc s.st with sysCallInit := x.2.2 }) := rfl

theorem appendResult_withCache (c : ProbCache ctx) (res : Result) (rl : ResourceLimit)
    (st : DaemonState ctx) :
    (s.withCache c).appendResult jdg res rl { st with cache := c } =
      (s.appendResult jdg res rl st).withCache c := by
  have hkeep := keepOutput_withCache jdg s.submit c res st
  simp only [TestsState.appendResult, TestsState.withCache, hkeep]

/-- **The body of the loop** reads neither the cache nor, where the field is zero or the
output is not checked, the field. -/
theorem judgeTest_cleared (c : ProbCache ctx)
    (h : (Round.mk n tc s).Checked heap runs → tc.isSpecialJudge = 0) :
    judgeTest jdg heap (runs n) tc.cleared (s.withCache c) =
      (judgeTest jdg heap (runs n) tc s).bind fun s' => .ret (s'.withCache c) := by
  have hlaunched : (Round.mk n tc.cleared (s.withCache c)).launched heap runs =
      (Round.mk n tc s).launched heap runs := rfl
  rw [judgeTest_eq, judgeTest_eq, hlaunched]
  cases hx : (Round.mk n tc s).launched heap runs with
  | fault e => rfl
  | pending => rfl
  | ret x =>
    have hcheck : (if x.1.resType = .runPass then check jdg s.submit tc.cleared (runs n).check
        else x.1) = if x.1.resType = .runPass then check jdg s.submit tc (runs n).check
        else x.1 := by
      by_cases hpass : x.1.resType = .runPass
      · rw [if_pos hpass, if_pos hpass, check_of_zero (h ⟨x, hx, hpass⟩), check_of_zero rfl]
        rfl
      · rw [if_neg hpass, if_neg hpass]
    have hsubmit : (s.withCache c).submit = s.submit := rfl
    simp only [ret_bind, hsubmit, hcheck]
    exact congrArg Outcome.ret (appendResult_withCache c _ _
      { copyTestcaseInput jdg tc s.st with sysCallInit := x.2.2 })

/-- The loop over the test cases with their fields at zero. -/
theorem judgeTests_cleared (c : ProbCache ctx)
    (h : ∀ r ∈ rounds jdg heap runs n tcs s, r.Checked heap runs → r.tc.isSpecialJudge = 0) :
    judgeTests jdg heap runs n (tcs.map TestCase.cleared) (s.withCache c) =
      (judgeTests jdg heap runs n tcs s).bind fun s' => .ret (s'.withCache c) := by
  induction tcs generalizing n s with
  | nil => rfl
  | cons tc tcs ih =>
    simp only [rounds_cons, List.forall_mem_cons] at h
    obtain ⟨hround, hrest⟩ := h
    simp only [List.map_cons, judgeTests, bind_def, judgeTest_cleared c hround]
    cases htest : judgeTest jdg heap (runs n) tc s with
    | fault e => rfl
    | pending => rfl
    | ret s' =>
      rw [htest] at hrest
      exact ih hrest

end Round

/-! ### The submission -/

section Judging

variable {ctx : LoadContext} {lang : LangCDebug} {jdg : Judge} {submit : Submission}
  {st : DaemonState ctx} {replies : JudgeReplies} {l : ℕ → ℤ} {r : Round ctx}

/-- The verdicts that judging comes to: that of the submission and those of its results. -/
def judgeVerdicts (lang : LangCDebug) (jdg : Judge) (submit : Submission) (st : DaemonState ctx)
    (replies : JudgeReplies) : Outcome Fault (NojResult × List NojResult) :=
  (judge lang jdg submit st replies).bind fun r =>
    .ret (r.2.1.sbmResType, r.2.1.sbmResults.map Result.resType)

/-- **A round whose output is checked**: the problem is loaded, the submission compiles, the
round is entered, and its launch passes. -/
def CheckedRound (lang : LangCDebug) (jdg : Judge) (submit : Submission) (st : DaemonState ctx)
    (replies : JudgeReplies) (r : Round ctx) : Prop :=
  ∃ prob, problemOf submit st replies = .ret prob ∧ Compiles ctx lang jdg submit replies ∧
    r ∈ roundsOf jdg submit st replies prob ∧ r.Checked replies.heap replies.tests

/-- The output of a test case is compared whenever it is checked: no special judge has been
loaded for it. -/
def ComparesOutputs (lang : LangCDebug) (jdg : Judge) (submit : Submission) (st : DaemonState ctx)
    (replies : JudgeReplies) : Prop :=
  ∀ r, CheckedRound lang jdg submit st replies r →
    check jdg r.before.submit r.tc (replies.tests r.test).check =
      checkNormal jdg r.before.submit r.tc (replies.tests r.test).check

/-- What is in the field is what was in the memory. -/
theorem isSpecialJudge_of_checkedRound
    (hr : CheckedRound lang jdg submit (st.overMemory l) (replies.overMemory l) r) :
    r.tc.isSpecialJudge = l r.test := by
  obtain ⟨prob, hprob, -, hround, -⟩ := hr
  rw [problemOf_overMemory] at hprob
  obtain ⟨prob₀, -, hret⟩ := bind_eq_ret_iff.mp hprob
  obtain rfl : prob₀.overMemory l = prob := ret.inj hret
  obtain ⟨-, htc⟩ := getElem?_of_mem_rounds hround
  rw [Nat.sub_zero, Problem.overMemory, List.getElem?_mapIdx] at htc
  obtain ⟨tc, -, htc⟩ := Option.map_eq_some_iff.mp htc
  rw [← htc]

theorem comparesOutputs_iff :
    ComparesOutputs lang jdg submit (st.overMemory l) (replies.overMemory l) ↔
      ∀ r, CheckedRound lang jdg submit (st.overMemory l) (replies.overMemory l) r →
        l r.test = 0 := by
  refine forall₂_congr fun r hr => ?_
  rw [check_eq_checkNormal_iff, isSpecialJudge_of_checkedRound hr]

/-- The test cases over cleared memory are those over any other with their fields at zero. -/
theorem overMemory_zero_probTestcases (l : ℕ → ℤ) (prob : Problem) :
    (prob.overMemory fun _ => 0).probTestcases =
      (prob.overMemory l).probTestcases.map TestCase.cleared := by
  refine List.ext_getElem? fun n => ?_
  simp only [Problem.overMemory, List.getElem?_map, List.getElem?_mapIdx, Option.map_map]
  rfl

/-- The loop starts over other memory as it does over this one, but for the cache. -/
theorem testsStart_overMemory (l l' : ℕ → ℤ) (prob : Problem) :
    testsStart jdg submit (st.overMemory l') (replies.overMemory l') (prob.overMemory l') =
      (testsStart jdg submit (st.overMemory l) (replies.overMemory l)
        (prob.overMemory l)).withCache
          ((st.overMemory l').cache.get submit.sbmProbId (replies.overMemory l').load).2 := by
  simp only [testsStart, TestsState.withCache, rlLaunch, copySrc, DaemonState.system,
    DaemonState.overMemory, Problem.overMemory]

/-- **Where the outputs are compared, the memory plays no role**: the verdicts are those over
memory that has been cleared. -/
theorem judgeVerdicts_cleared
    (h : ∀ r, CheckedRound lang jdg submit (st.overMemory l) (replies.overMemory l) r →
      l r.test = 0) :
    judgeVerdicts lang jdg submit (st.overMemory l) (replies.overMemory l) =
      judgeVerdicts lang jdg submit (st.overMemory fun _ => 0)
        (replies.overMemory fun _ => 0) := by
  have hcompile (l : ℕ → ℤ) : compilationOf ctx lang jdg submit (replies.overMemory l) =
      compilationOf ctx lang jdg submit replies := rfl
  rw [judgeVerdicts, judgeVerdicts, judge_eq, judge_eq, problemOf_overMemory,
    problemOf_overMemory, hcompile, hcompile]
  cases hprob : problemOf submit st replies with
  | fault e => simp only [fault_bind]
  | pending => simp only [pending_bind]
  | ret prob =>
    cases hres : compilationOf ctx lang jdg submit replies with
    | fault e => simp only [ret_bind, fault_bind]
    | pending => simp only [ret_bind, pending_bind]
    | ret res =>
      simp only [ret_bind]
      by_cases hpass : res.resType = .compilePass
      · have hzero : ∀ r ∈ roundsOf jdg submit (st.overMemory l) (replies.overMemory l)
            (prob.overMemory l), r.Checked replies.heap replies.tests →
            r.tc.isSpecialJudge = 0 := by
          intro r hr hchecked
          have hround : CheckedRound lang jdg submit (st.overMemory l) (replies.overMemory l) r :=
            ⟨prob.overMemory l, by rw [problemOf_overMemory, hprob, ret_bind], ⟨res, hres, hpass⟩,
              hr, hchecked⟩
          rw [isSpecialJudge_of_checkedRound hround, h r hround]
        have hloop := judgeTests_cleared
          ((st.overMemory fun _ => 0).cache.get submit.sbmProbId
            (replies.overMemory fun _ => 0).load).2 hzero
        rw [← overMemory_zero_probTestcases l, ← testsStart_overMemory] at hloop
        have htests : testsOf jdg submit (st.overMemory fun _ => 0)
            (replies.overMemory fun _ => 0) (prob.overMemory fun _ => 0) = _ := hloop
        rw [if_neg (not_not.mpr hpass), if_neg (not_not.mpr hpass), htests, testsOf]
        cases judgeTests jdg (replies.overMemory l).heap (replies.overMemory l).tests 0
            (prob.overMemory l).probTestcases
            (testsStart jdg submit (st.overMemory l) (replies.overMemory l)
              (prob.overMemory l)) with
        | fault e => simp only [fault_bind]
        | pending => simp only [pending_bind]
        | ret s => simp only [ret_bind, TestsState.withCache]
      · rw [if_pos hpass, if_pos hpass, ret_bind, ret_bind]

/-- **When left-over memory plays no role**: over two contents of the memory in which the test
cases are constructed the verdicts are the same, and the output of every test case is compared,
exactly if both are zero where an output is checked. -/
theorem judge_overMemory_iff (lang : LangCDebug) (jdg : Judge) (submit : Submission)
    (st : DaemonState ctx) (replies : JudgeReplies) (l l' : ℕ → ℤ) :
    (judgeVerdicts lang jdg submit (st.overMemory l) (replies.overMemory l) =
        judgeVerdicts lang jdg submit (st.overMemory l') (replies.overMemory l') ∧
      ComparesOutputs lang jdg submit (st.overMemory l) (replies.overMemory l) ∧
      ComparesOutputs lang jdg submit (st.overMemory l') (replies.overMemory l')) ↔
    (∀ r, CheckedRound lang jdg submit (st.overMemory l) (replies.overMemory l) r →
        l r.test = 0) ∧
      ∀ r, CheckedRound lang jdg submit (st.overMemory l') (replies.overMemory l') r →
        l' r.test = 0 := by
  rw [comparesOutputs_iff, comparesOutputs_iff]
  constructor
  · rintro ⟨-, hzero⟩
    exact hzero
  · rintro ⟨hzero, hzero'⟩
    exact ⟨(judgeVerdicts_cleared hzero).trans (judgeVerdicts_cleared hzero').symm, hzero, hzero'⟩

/-- The same submission, world and problem: the output is found to be correct over memory that
holds zero, and over other memory the judge has no method to check it. -/
theorem judge_oneTest_overMemory :
    judgeVerdicts cRelease judge0 (.released 1000 7) ((DaemonState.start nojContext).overMemory
        fun _ => 0) (oneTest.overMemory fun _ => 0) = .ret (.accept, [.correctAnswer]) ∧
      judgeVerdicts cRelease judge0 (.released 1000 7) ((DaemonState.start nojContext).overMemory
        fun _ => 1) (oneTest.overMemory fun _ => 1) = .ret (.notAccept, [.systemError]) :=
  ⟨rfl, rfl⟩

end Judging

end NpuOj
