import NpuOj.JudgeManager.Problem
import NpuOj.Lang.Compile
import NpuOj.Lang.Launch

/-!
# Judging a submission

`LangC::judge` gets the problem of a submission, compiles the submission, and runs it
on every test case: a run that passes is checked against the expected output. One flag
collects the results, and the verdict is `accept` if the flag survives.

The limits, the block of system call budgets, the counter of kept outputs and the
results found so far are carried from one test case to the next. What a test case
comes to depends on none of them but the block: that is the subject of
`NpuOj.Lang.JudgeVerdict`.
-/

namespace NpuOj

open Posix

/-- The fields of `Judge`. -/
structure Judge where
  workDir : String
  mUid : ℕ
  deriving DecidableEq, Repr

/-! ### Checking the output -/

/-- What `system` answers to the two comparisons. -/
structure CheckReply where
  diff : SystemReply
  diffIgnoring : SystemReply

/-- The comparison of the output with the expected one. -/
def diffCmd (jdg : Judge) (tc : TestCase) : String :=
  snprintf (bufferSize - 1)
    ("diff " ++ jdg.workDir ++ "/stdout.out " ++ tc.tcOutputFile ++ " 2>/dev/null 1>&2")

/-- The comparison that ignores blanks and case. -/
def diffIgnoringCmd (jdg : Judge) (tc : TestCase) : String :=
  snprintf (bufferSize - 1)
    ("diff " ++ jdg.workDir ++ "/stdout.out " ++ tc.tcOutputFile ++ " -b -i 1>/dev/null 2>&1")

/-- `check_normal` -/
def checkNormal (jdg : Judge) (submit : Submission) (tc : TestCase) (reply : CheckReply) :
    Result :=
  let res := Result.ofSubmission submit
  let ret := reply.diff (diffCmd jdg tc)
  if ret = 0 then res.withType .correctAnswer
  else if wexitstatus ret = 1 then
    let ret := reply.diffIgnoring (diffIgnoringCmd jdg tc)
    if ret = 0 then res.withType .presentationError
    else if wexitstatus ret = 1 then res.withType .wrongAnswer
    else res.withType .systemError
  else res.withType .systemError

/-- `LangC::check` -/
def check (jdg : Judge) (submit : Submission) (tc : TestCase) (reply : CheckReply) : Result :=
  if tc.isSpecialJudge = 0 then checkNormal jdg submit tc reply
  else
    { Result.ofSubmission submit with
      resType := .systemError, resContent := ascii "LangC: Check method not found" }

/-! ### The state of the daemon -/

/-- What judging reads and changes of the daemon. The commands are those that move files
about; nothing but the log reads their status. -/
structure DaemonState (ctx : LoadContext) where
  cache : ProbCache ctx
  /-- The static block of `init_system_call_limits`. -/
  sysCallInit : Option SyscallLimits
  /-- The static counter of `get_result_count`. -/
  resultCount : ℕ
  commands : List String

/-- What the world answers while a submission is run on one test case. -/
structure TestRun where
  launch : LaunchRun
  check : CheckReply

/-- What the world answers while a submission is judged. The test cases are numbered
from `0`; `heap` is the block that `malloc` would hand out. -/
structure JudgeReplies where
  load : LoadReplies
  compile : CompileReply
  tests : ℕ → TestRun
  heap : SyscallLimits

/-- The state of a daemon that has just started. -/
def DaemonState.start (ctx : LoadContext) : DaemonState ctx := ⟨.empty ctx, none, 0, []⟩

section Judging

variable {ctx : LoadContext}

def DaemonState.system (st : DaemonState ctx) (cmd : String) : DaemonState ctx :=
  { st with commands := st.commands ++ [cmd] }

/-- `copy_src` -/
def copySrc (jdg : Judge) (submit : Submission) (st : DaemonState ctx) : DaemonState ctx :=
  st.system (snprintf (bufferSize - 1)
    ("cp " ++ submit.sbmSourceFile ++ " " ++ jdg.workDir ++ "/code"))

/-- `copy_testcase_input` -/
def copyTestcaseInput (jdg : Judge) (tc : TestCase) (st : DaemonState ctx) : DaemonState ctx :=
  st.system (snprintf (bufferSize - 1)
    ("cp " ++ tc.tcInputFile ++ " " ++ jdg.workDir ++ "/stdin.in && chown judge " ++
      jdg.workDir ++ "/stdin.in"))

/-- `copy_output_file` -/
def copyOutputFile (jdg : Judge) (res : Result) (st : DaemonState ctx) : DaemonState ctx :=
  st.system (snprintf bufferSize ("mv " ++ jdg.workDir ++ "/stdout.out " ++ res.resOutputFile))

/-- The value that follows in `get_result_count`. -/
def nextResultCount (count : ℕ) : ℕ := (count + 1) % 1000000

/-- `get_result_count`, where no other worker is in it. -/
def getResultCount (st : DaemonState ctx) : ℕ × DaemonState ctx :=
  let count := nextResultCount st.resultCount
  (count, { st with resultCount := count })

/-- `str_judge_mode` -/
def strJudgeMode : NojJudgeMode → String
  | .debug => "Debug"
  | .release => "Release"
  | .unSet => "UnSet"

/-- A number printed by `%04u`. -/
def fourDigits (n : ℕ) : String :=
  let digits := (toString n).toList
  String.ofList (List.replicate (4 - digits.length) '0' ++ digits)

/-- The output of a run that answered wrongly is kept, under a name with the number that the
given call returns. -/
def keepOutputWith (call : DaemonState ctx → ℕ × DaemonState ctx) (jdg : Judge)
    (submit : Submission) (res : Result) (st : DaemonState ctx) : Result × DaemonState ctx :=
  if res.resType = .wrongAnswer ∨ res.resType = .presentationError then
    let (count, st) := call st
    let buffer := snprintf bufferSize (ctx.getOutputDir ++ "/" ++ toString submit.sbmId ++ "_" ++
      strJudgeMode submit.sbmCurMode ++ "_" ++ fourDigits (count % 100000) ++ ".out")
    let res := { res with resOutputFile := buffer }
    (res, copyOutputFile jdg res st)
  else (res, st)

/-- The output of a run that answered wrongly is kept, under a name of its own. -/
def keepOutput (jdg : Judge) (submit : Submission) (res : Result) (st : DaemonState ctx) :
    Result × DaemonState ctx :=
  keepOutputWith getResultCount jdg submit res st

@[simp] theorem keepOutput_sysCallInit (jdg : Judge) (submit : Submission) (res : Result)
    (st : DaemonState ctx) : (keepOutput jdg submit res st).2.sysCallInit = st.sysCallInit := by
  rw [keepOutput, keepOutputWith]
  split <;> rfl

/-! ### The loop over the test cases -/

/-- The variables of the loop. -/
structure TestsState (ctx : LoadContext) where
  submit : Submission
  rlLaunch : ResourceLimit
  flgAc : Bool
  st : DaemonState ctx

/-- The body of the loop, on one test case; what the launch comes to, and the call that numbers
the outputs, are parameters. -/
def judgeTestWith (launched : Outcome Fault (Result × ResourceLimit × Option SyscallLimits))
    (call : DaemonState ctx → ℕ × DaemonState ctx) (jdg : Judge) (run : TestRun) (tc : TestCase)
    (s : TestsState ctx) : Outcome Fault (TestsState ctx) := do
  let st := copyTestcaseInput jdg tc s.st
  let (res, rlLaunch, sysCallInit) ← launched
  let st := { st with sysCallInit := sysCallInit }
  let res := if res.resType = .runPass then check jdg s.submit tc run.check else res
  let (res, st) := keepOutputWith call jdg s.submit res st
  let submit := { s.submit with sbmResults := s.submit.sbmResults ++ [res] }
  .ret ⟨submit, rlLaunch, s.flgAc && res.resType = .correctAnswer, st⟩

/-- **The body of the loop**, on one test case. -/
def judgeTest (jdg : Judge) (heap : SyscallLimits) (run : TestRun) (tc : TestCase)
    (s : TestsState ctx) : Outcome Fault (TestsState ctx) :=
  -- the copy of the input does not touch the block
  judgeTestWith (launch ctx.platform s.st.sysCallInit heap s.submit s.rlLaunch run.launch)
    getResultCount jdg run tc s

/-- The loop, from the given number on. -/
def judgeTests (jdg : Judge) (heap : SyscallLimits) (runs : ℕ → TestRun) :
    ℕ → List TestCase → TestsState ctx → Outcome Fault (TestsState ctx)
  | _, [], s => .ret s
  | n, tc :: tcs, s => do
    let s ← judgeTest jdg heap (runs n) tc s
    judgeTests jdg heap runs (n + 1) tcs s

/-! ### The submission -/

/-- `path`: the work directory as the limits hold it. -/
def limitsPath (jdg : Judge) : String := snprintf (bufferSize - 1) jdg.workDir

/-- The limits of a compilation. -/
def rlCompile (pf : Platform) (jdg : Judge) : ResourceLimit :=
  ResourceLimit.setWorkdir
    { rlUid := jdg.mUid
      singleTimeLimit := TimeUsage.setSecond {} 20
      fileLimit := MemorySize.setMB pf {} 20
      memoryLimit := MemorySize.setMB pf {} 100 }
    (limitsPath jdg)

/-- The limits of a run: those of the problem, for this judge. -/
def rlLaunch (jdg : Judge) (prob : Problem) : ResourceLimit :=
  ResourceLimit.setWorkdir { prob.probRscLim with rlUid := jdg.mUid } (limitsPath jdg)

/-- `LangC::judge` -/
def judge (lang : LangCDebug) (jdg : Judge) (submit : Submission) (st : DaemonState ctx)
    (replies : JudgeReplies) : Outcome Fault (NojState × Submission × DaemonState ctx) := do
  let submit := { submit with sbmResType := .init }
  let st := copySrc jdg submit st
  let (loading, cache) := st.cache.get submit.sbmProbId replies.load
  let prob ← loading
  let st := { st with cache := cache }
  let res ← compile ctx.platform lang submit (rlCompile ctx.platform jdg) replies.compile
  -- a system error takes this branch as well
  if res.resType ≠ .compilePass then
    let submit := { submit with sbmResults := submit.sbmResults ++ [res] }
    .ret (.normal, { submit with sbmResType := .compileError }, st)
  else
    let submit := { submit with sbmResType := .compilePass }
    let s ← judgeTests jdg replies.heap replies.tests 0 prob.probTestcases
      ⟨submit, rlLaunch jdg prob, true, st⟩
    let verdict := if s.flgAc then .accept else .notAccept
    .ret (.normal, { s.submit with sbmResType := verdict }, s.st)

end Judging

end NpuOj
