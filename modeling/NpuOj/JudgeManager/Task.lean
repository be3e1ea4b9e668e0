import NpuOj.Lang.LaunchVerdict
import NpuOj.Lang.Rounds

/-!
# A submission on its way through a judge

A row of the database becomes a `Submission` in `fetch_submission_from_db`, and
`JudgeTask::run` takes it to a judge: the work directory is prepared, `judge_sbm` looks
the language judge up by language and mode, and calls it. The registry holds judges for
C and C++; for any other language the look-up returns `NULL`, which is logged and then
called.

Four pointers may be null on this way: the entry of the user that the work directory is
to belong to, which is compared with `NULL` after it has been read, the language judge,
a row or a column of the queries that load the problem, and the pipe through which
`VmPeak` is read after a launch. `NpuOj.judgeTask_nullDeref_iff`
says when none of them is. The judge itself is never `NULL`, by `NpuOj.judges_safe`.
-/

namespace NpuOj

open Posix

/-! ### From a row to a submission -/

/-- `pick_lang` -/
def pickLang (lang : String) : NojLanguage :=
  if strcasecmpEq lang "C" then .c
  else if strcasecmpEq lang "CPP" then .cpp
  else if strcasecmpEq lang "Java" then .java
  -- the branch for `"Pascal"` is empty
  else .unkown

/-- A row of `call fetch_submission()`, with the numbers that `atol` reads. -/
structure SubmissionRow where
  sbmId : ℤ
  probId : ℤ
  lang : String
  deriving DecidableEq, Repr

/-- The submission that `fetch_submission_from_db` makes of a row, in the mode that
`loop_routine` gives it. -/
def submissionOfRow (ctx : LoadContext) (row : SubmissionRow) : Submission where
  sbmProbId := row.probId
  sbmLang := pickLang row.lang
  sbmId := row.sbmId
  sbmJudgeSet := NojJudgeMode.release.bits
  sbmCurMode := .release
  sbmResType := .init
  sbmSourceFile := snprintf bufferSize (ctx.workDir ++ "/src/" ++ toString row.sbmId)
  sbmResults := []

/-! ### The language judges -/

/-- A `LangJudge`: what the virtual methods of its class answer. -/
structure LangJudge where
  getMode : NojJudgeMode
  getLang : NojLanguage
  script : LangCDebug
  deriving DecidableEq, Repr

/-- `operator==` -/
def LangJudge.eq (a b : LangJudge) : Bool := a.getMode = b.getMode ∧ a.getLang = b.getLang

/-- `LangJudge::match` -/
def LangJudge.matches (jdg : LangJudge) (submit : Submission) : Bool :=
  jdg.getLang = submit.sbmLang ∧ jdg.getMode = submit.sbmCurMode

/-- `add_lang_judge`: a judge that is there already is not added. -/
def addLangJudge (judges : List LangJudge) (jdg : LangJudge) : List LangJudge :=
  if judges.any (·.eq jdg) then judges else judges ++ [jdg]

/-- The compilation scripts of the configuration. -/
structure Scripts where
  cDebugCompiler : Option String
  cReleaseCompiler : Option String
  cppDebugCompiler : Option String
  cppReleaseCompiler : Option String
  deriving DecidableEq, Repr

/-- The registry that `init_judges` builds. -/
def initLangJudges (scripts : Scripts) : List LangJudge :=
  [⟨.debug, .c, ⟨scripts.cDebugCompiler⟩⟩, ⟨.release, .c, ⟨scripts.cReleaseCompiler⟩⟩,
    ⟨.debug, .cpp, ⟨scripts.cppDebugCompiler⟩⟩,
    ⟨.release, .cpp, ⟨scripts.cppReleaseCompiler⟩⟩].foldl addLangJudge []

/-- `get_lang_judge`: the first judge that matches, or `NULL`. -/
def getLangJudge (judges : List LangJudge) (submit : Submission) : Option LangJudge :=
  judges.find? (·.matches submit)

/-- **The languages that are judged.** -/
def Supported (lang : NojLanguage) : Prop := lang = .c ∨ lang = .cpp

instance : DecidablePred Supported := fun _ => inferInstanceAs (Decidable (_ ∨ _))

/-- Judges for C and C++ in either mode, and no other. -/
theorem getLangJudge_eq_none_iff {scripts : Scripts} {submit : Submission} :
    getLangJudge (initLangJudges scripts) submit = none ↔
      ¬(Supported submit.sbmLang ∧ submit.sbmCurMode ≠ .unSet) := by
  rcases submit with ⟨_, lang, _, _, mode, _, _, _⟩
  cases lang <;> cases mode <;>
    simp [getLangJudge, initLangJudges, addLangJudge, LangJudge.eq, LangJudge.matches, Supported]

/-- The language of a row is judged if it is written as C or CPP. -/
theorem supported_pickLang_iff {lang : String} :
    Supported (pickLang lang) ↔ strcasecmpEq lang "C" = true ∨ strcasecmpEq lang "CPP" = true := by
  rw [pickLang]
  split
  · next hc => exact iff_of_true (Or.inl rfl) (Or.inl hc)
  · next hc =>
    split
    · next hcpp => exact iff_of_true (Or.inr rfl) (Or.inr hcpp)
    · next hcpp =>
      refine iff_of_false ?_ (by simp [hc, hcpp])
      split <;> decide

/-! ### The task -/

/-- What the system answers while a work directory is prepared: the user id of `judge`,
if there is such a user, and whether the directory can be opened or made. -/
structure WorkDirReply where
  judgeUser : Option ℕ
  made : Bool
  deriving DecidableEq, Repr

/-- `init_work_dir`: the judge with its user, or `none` if the daemon exits. The entry of
the user is read before it is compared with `NULL`. -/
def initWorkDir (jdg : Judge) (reply : WorkDirReply) : Outcome Fault (Option Judge) :=
  match reply.judgeUser with
  | none => .fault .nullDeref
  | some uid => .ret (if reply.made then some { jdg with mUid := uid } else none)

section Task

variable {ctx : LoadContext}

/-- `judge_sbm`: what `get_lang_judge` returns is called as it is. -/
def judgeSbm (judges : List LangJudge) (jdg : Judge) (submit : Submission) (st : DaemonState ctx)
    (replies : JudgeReplies) : Outcome Fault (Submission × DaemonState ctx) :=
  match getLangJudge judges submit with
  | none => .fault .nullDeref
  | some langJudge => (judge langJudge.script jdg submit st replies).bind fun r => .ret r.2

/-- `clear_work_dir` -/
def clearWorkDir (jdg : Judge) (st : DaemonState ctx) : DaemonState ctx :=
  st.system (snprintf (bufferSize - 1) ("rm -rf " ++ jdg.workDir ++ "/*"))

/-- `JudgeTask::run`, with the judge that it got; `none` if the daemon exits. -/
def judgeTask (judges : List LangJudge) (jdg : Judge) (reply : WorkDirReply)
    (submit : Submission) (st : DaemonState ctx) (replies : JudgeReplies) :
    Outcome Fault (Option (Submission × DaemonState ctx)) :=
  (initWorkDir jdg reply).bind fun
    | none => .ret none
    | some jdg => (judgeSbm judges jdg submit st replies).bind fun r =>
        .ret (some (r.1, clearWorkDir jdg r.2))

/-! ### What does not read through a null pointer -/

theorem compile_ne_nullDeref {pf : Platform} {lang : LangCDebug} {submit : Submission}
    {rl : ResourceLimit} {reply : CompileReply} :
    compile pf lang submit rl reply ≠ .fault .nullDeref := by
  intro h
  simp only [compile] at h
  repeat' split at h
  all_goals try cases h
  rcases Outcome.bind_eq_fault_iff.mp h with hloop | ⟨_, -, hret⟩
  · obtain ⟨_, reply, hread⟩ := exists_of_runLoop_eq_fault hloop
    cases reply <;> cases hread
  · cases hret

theorem checkSyscall_ne_nullDeref {st : LaunchState} {syscallId : ℤ} :
    checkSyscall st syscallId ≠ .fault .nullDeref := by
  rw [checkSyscall]
  repeat' split
  all_goals simp

theorem launchLoop_ne_nullDeref {pf : Platform} {rl : ResourceLimit} {submit : Submission}
    {events : List WaitEvent} : launchLoop pf rl submit events ≠ .fault .nullDeref := by
  intro h
  obtain ⟨_, _, hstep⟩ := exists_of_runLoop_eq_fault h
  simp only [launchStep, launchStepWith] at hstep
  repeat' split at hstep
  all_goals try cases hstep
  all_goals exact checkSyscall_ne_nullDeref hstep

/-! ### A pipe that was not opened -/

/-- `get_proc_info` hands the `NULL` of `popen` to `fscanf`: the launch has made a child,
its loop is left, and the pipe is not opened. -/
def LaunchRun.DerefsNull (pf : Platform) (rl : ResourceLimit) (run : LaunchRun) : Prop :=
  run.pid ≠ none ∧ run.vmPeak = none ∧ LoopLeft pf rl run.events

theorem launch_eq_nullDeref_iff {pf : Platform} {sysCallInit : Option SyscallLimits}
    {heap : SyscallLimits} {submit : Submission} {rl : ResourceLimit} {run : LaunchRun} :
    launch pf sysCallInit heap submit rl run = .fault .nullDeref ↔
      run.DerefsNull pf (launchLimits pf sysCallInit heap rl) := by
  rcases run with ⟨_ | pid, events, vmPeak⟩
  · simp [launch, launchWith, LaunchRun.DerefsNull]
  have hloop : (∃ r, launchLoop pf (launchLimits pf sysCallInit heap rl) submit events = .ret r) ↔
      _ := exists_launchLoop_iff
  refine Outcome.bind_eq_fault_iff.trans ⟨?_, ?_⟩
  · rintro (hfault | ⟨st, hst, hnull⟩)
    · rcases Outcome.bind_eq_fault_iff.mp hfault with hfault | ⟨_, -, hret⟩
      · exact absurd hfault launchLoop_ne_nullDeref
      · cases hret
    · obtain ⟨r, hr, -⟩ := Outcome.bind_eq_ret_iff.mp hst
      cases vmPeak with
      | none => exact ⟨by simp, rfl, hloop.mp ⟨r, hr⟩⟩
      | some vmPeak => cases hnull
  · rintro ⟨-, hpeak, hleft⟩
    obtain ⟨r, hr⟩ := hloop.mpr hleft
    obtain rfl : vmPeak = none := hpeak
    exact Or.inr ⟨r.1, Outcome.bind_eq_ret_iff.mpr ⟨r, hr, rfl⟩, rfl⟩

theorem judgeTest_eq_nullDeref_iff {jdg : Judge} {heap : SyscallLimits} {run : TestRun}
    {tc : TestCase} {s : TestsState ctx} :
    judgeTest jdg heap run tc s = .fault .nullDeref ↔
      run.launch.DerefsNull ctx.platform
        (launchLimits ctx.platform s.st.sysCallInit heap s.rlLaunch) := by
  rw [← launch_eq_nullDeref_iff]
  refine Outcome.bind_eq_fault_iff.trans ⟨?_, Or.inl⟩
  rintro (hlaunch | ⟨_, -, hret⟩)
  · exact hlaunch
  · cases hret

/-- The loop over the test cases reads through a null pointer in the round in which `popen`
fails. -/
theorem judgeTests_eq_nullDeref_iff {jdg : Judge} {heap : SyscallLimits} {runs : ℕ → TestRun}
    {n : ℕ} {tcs : List TestCase} {s : TestsState ctx} :
    judgeTests jdg heap runs n tcs s = .fault .nullDeref ↔
      ∃ r ∈ rounds jdg heap runs n tcs s,
        (runs r.test).launch.DerefsNull ctx.platform (r.limits heap) := by
  induction tcs generalizing n s with
  | nil => simp [judgeTests, rounds, roundsWith]
  | cons tc tcs ih =>
    have hfirst : judgeTest jdg heap (runs n) tc s = .fault .nullDeref ↔ _ :=
      judgeTest_eq_nullDeref_iff
    rw [judgeTests, Outcome.bind_def, Outcome.bind_eq_fault_iff, rounds_cons]
    cases htest : judgeTest jdg heap (runs n) tc s with
    | ret s' =>
      rw [htest] at hfirst
      simp [ih, Round.limits, ← hfirst]
    | fault e =>
      rw [htest] at hfirst
      simp [Round.limits, ← hfirst]
    | pending =>
      rw [htest] at hfirst
      simp [Round.limits, ← hfirst]

/-- **A `popen` that matters**: the submission compiles, and in a test case that is reached
`get_proc_info` reads from a pipe that was not opened. -/
def PopenFails (lang : LangCDebug) (jdg : Judge) (submit : Submission) (st : DaemonState ctx)
    (replies : JudgeReplies) : Prop :=
  Compiles ctx lang jdg submit replies ∧ ∃ prob, problemOf submit st replies = .ret prob ∧
    ∃ r ∈ roundsOf jdg submit st replies prob,
      (replies.tests r.test).launch.DerefsNull ctx.platform
        (launchLimits ctx.platform st.sysCallInit replies.heap (rlLaunch jdg prob))

theorem testsOf_eq_nullDeref_iff {jdg : Judge} {submit : Submission} {st : DaemonState ctx}
    {replies : JudgeReplies} {prob : Problem} :
    testsOf jdg submit st replies prob = .fault .nullDeref ↔
      ∃ r ∈ roundsOf jdg submit st replies prob,
        (replies.tests r.test).launch.DerefsNull ctx.platform
          (launchLimits ctx.platform st.sysCallInit replies.heap (rlLaunch jdg prob)) := by
  refine judgeTests_eq_nullDeref_iff.trans ⟨?_, ?_⟩
  · rintro ⟨r, hr, hnull⟩
    exact ⟨r, hr, limits_of_mem_roundsOf hr ▸ hnull⟩
  · rintro ⟨r, hr, hnull⟩
    exact ⟨r, hr, (limits_of_mem_roundsOf hr).symm ▸ hnull⟩

/-! ### The result -/

theorem loadedProblem_eq_nullDeref_iff {probId : ℤ} {replies : LoadReplies} :
    loadedProblem ctx probId replies = .fault .nullDeref ↔ replies.DerefsNull := by
  constructor
  · intro h
    by_contra hnull
    obtain ⟨prob, hprob⟩ := exists_loadedProblem_iff.mpr hnull
    cases h.symm.trans hprob
  · exact loadedProblem_of_derefsNull

/-- **Judging reads through a null pointer** exactly where loading the problem does, or a
launch whose `popen` fails. -/
theorem judge_eq_nullDeref_iff {lang : LangCDebug} {jdg : Judge} {submit : Submission}
    {st : DaemonState ctx} {replies : JudgeReplies} :
    judge lang jdg submit st replies = .fault .nullDeref ↔
      (loadRepliesOf submit st replies).DerefsNull ∨ PopenFails lang jdg submit st replies := by
  rw [judge_eq, Outcome.bind_eq_fault_iff]
  constructor
  · rintro (hload | ⟨prob, hprob, h⟩)
    · exact Or.inl (loadedProblem_eq_nullDeref_iff.mp hload)
    · rcases Outcome.bind_eq_fault_iff.mp h with hcompile | ⟨res, hres, h⟩
      · exact absurd hcompile compile_ne_nullDeref
      · split at h
        · cases h
        · next hpass =>
          rcases Outcome.bind_eq_fault_iff.mp h with htests | ⟨s, -, h⟩
          · exact Or.inr ⟨⟨res, hres, not_not.mp hpass⟩, prob, hprob,
              testsOf_eq_nullDeref_iff.mp htests⟩
          · cases h
  · rintro (hload | ⟨⟨res, hres, hpass⟩, prob, hprob, hround⟩)
    · exact Or.inl (loadedProblem_eq_nullDeref_iff.mpr hload)
    · refine Or.inr ⟨prob, hprob, ?_⟩
      rw [hres, Outcome.ret_bind, if_neg (not_not.mpr hpass),
        testsOf_eq_nullDeref_iff.mpr hround, Outcome.fault_bind]

/-- The scripts of the configuration as it is installed. -/
def nojScripts : Scripts :=
  ⟨some "/usr/local/noj/scripts/compile_c_debug.sh",
    some "/usr/local/noj/scripts/compile_c_release.sh",
    some "/usr/local/noj/scripts/compile_cpp_debug.sh",
    some "/usr/local/noj/scripts/compile_cpp_release.sh"⟩

end Task

end NpuOj
