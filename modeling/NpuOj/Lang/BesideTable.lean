import NpuOj.Lang.LaunchVerdict
import NpuOj.Lang.Rounds

/-!
# What lies beside the table

The number of a system call is used as an index without a comparison, and
`NpuOj.checkSyscall` leaves a run there: reading outside the table has no defined
behaviour. What the compiled code does is less dramatic. It takes the word that lies at
the address for a budget, and goes on or leaves the loop, unless no page is mapped there.

Statements about what a launch leaves behind, or about what a program can do, have to hold
of this code too. Here the words beside the table are answers of the system, one for
every event. A word that is charged is decremented; what else it was part of is not
followed, and the next answer may be any word.
-/

namespace NpuOj

open Posix Outcome

/-- What is read beside the table: the word, or `none` where no page is mapped. -/
abbrev BesideWord := Option ℤ

/-- The system call check, with the word that lies beside the table. -/
def checkSyscallBeside (word : BesideWord) (st : LaunchState) (syscallId : ℤ) :
    LoopFlow Fault LaunchState :=
  match tableIndex syscallId, word with
  | some _, _ => checkSyscall st syscallId
  | none, none => .fault (.outOfBounds syscallId)
  | none, some word =>
    if word = 0 then .stop { st with res := st.res.withType .illegalSystemCall } else .next st

/-- The body of the loop, on an event with its number. -/
def launchStepBeside (words : ℕ → BesideWord) (pf : Platform) (rl : ResourceLimit)
    (timeLeft : ℤ) (st : LaunchState) (e : WaitEvent × ℕ) : LoopFlow Fault LaunchState :=
  launchStepWith (checkSyscallBeside (words e.2)) pf rl timeLeft st e.1

/-- The loop, with the events it did not read. -/
def launchLoopBeside (words : ℕ → BesideWord) (pf : Platform) (rl : ResourceLimit)
    (submit : Submission) (events : List WaitEvent) :
    Outcome Fault (LaunchState × List (WaitEvent × ℕ)) :=
  runLoop (launchStepBeside words pf rl (getRlCpuMillisecond rl))
    ⟨Result.ofSubmission submit, rl.syscallLimits⟩ events.zipIdx

/-- `LangC::launch` -/
def launchBeside (words : ℕ → BesideWord) (pf : Platform) (sysCallInit : Option SyscallLimits)
    (heap : SyscallLimits) (submit : Submission) (rl : ResourceLimit) (run : LaunchRun) :
    Outcome Fault (Result × ResourceLimit × Option SyscallLimits) :=
  launchWith (fun rl => (launchLoopBeside words pf rl submit run.events).bind fun r => .ret r.1)
    pf sysCallInit heap submit rl run

section Loop

variable {words : ℕ → BesideWord} {pf : Platform} {rl : ResourceLimit} {submit : Submission}
  {pre post events : List WaitEvent} {e : WaitEvent} {st : LaunchState} {timeLeft : ℤ}

theorem checkSyscallBeside_of_inTable {word : BesideWord} {nr : ℤ} (h : InTable nr) :
    checkSyscallBeside word st nr = checkSyscall st nr := by
  obtain ⟨i, hi⟩ := exists_tableIndex h
  simp only [checkSyscallBeside, hi]

theorem checkSyscallBeside_of_not_inTable {word nr : ℤ} (h : ¬InTable nr) :
    checkSyscallBeside (some word) st nr =
      if word = 0 then .stop { st with res := st.res.withType .illegalSystemCall }
      else .next st := by
  simp only [checkSyscallBeside, tableIndex_eq_none_iff.mpr h]

/-- **Where the body has a defined behaviour**, it is this one. -/
theorem launchStepBeside_of_ne_fault {i : ℕ}
    (h : ∀ err, launchStep pf rl timeLeft st e ≠ .fault err) :
    launchStepBeside words pf rl timeLeft st (e, i) = launchStep pf rl timeLeft st e := by
  by_cases hin : InTable e.origAx
  · simp only [launchStepBeside, launchStep, launchStepWith, checkSyscallBeside_of_inTable hin]
  · simp only [launchStepBeside, launchStep, launchStepWith] at h ⊢
    split_ifs at h ⊢ <;> first | rfl | exact absurd (checkSyscall_of_not_inTable hin) (h _)

theorem through_launchStepBeside (submit : Submission) (hpass : Passes (eventVerdict pf rl) pre) :
    ∃ st, through (launchStep pf rl (getRlCpuMillisecond rl))
        ⟨Result.ofSubmission submit, rl.syscallLimits⟩ pre = some st ∧
      through (launchStepBeside words pf rl (getRlCpuMillisecond rl))
        ⟨Result.ofSubmission submit, rl.syscallLimits⟩ pre.zipIdx = some st ∧
      LoopInv rl pre st := by
  obtain ⟨st, hthrough, hinv⟩ := through_launchStep submit hpass
  have hmap : through (launchStep pf rl (getRlCpuMillisecond rl))
      ⟨Result.ofSubmission submit, rl.syscallLimits⟩ (pre.zipIdx.map Prod.fst) = some st := by
    rwa [List.zipIdx_map_fst]
  exact ⟨st, hthrough, through_of_agree (fun s e h => launchStepBeside_of_ne_fault h) hmap, hinv⟩

theorem zipIdx_append_cons : (pre ++ e :: post).zipIdx
    = pre.zipIdx ++ (e, pre.length) :: post.zipIdx (pre.length + 1) := by
  rw [List.zipIdx_append, List.zipIdx_cons, Nat.zero_add]

/-- **The loop up to the first event with a verdict**, as it has a defined behaviour. -/
theorem launchLoopBeside_of_first {v : NojResult} (words : ℕ → BesideWord) (submit : Submission)
    (post : List WaitEvent) (hin : AtCheck pf rl e → InTable e.origAx)
    (hpass : Passes (eventVerdict pf rl) pre) (hv : eventVerdict pf rl pre e = some v) :
    ∃ st, launchLoop pf rl submit (pre ++ e :: post) = .ret (st, post) ∧
      launchLoopBeside words pf rl submit (pre ++ e :: post)
        = .ret (st, post.zipIdx (pre.length + 1)) := by
  obtain ⟨m, hthrough, hbeside, hinv⟩ := through_launchStepBeside submit hpass
  obtain ⟨st, hstop, -⟩ := launchStep_stop hinv hin hv
  refine ⟨st, ?_, ?_⟩
  · rw [launchLoop, runLoop_append _ hthrough, runLoop_cons_stop hstop]
  · rw [launchLoopBeside, zipIdx_append_cons, runLoop_append _ hbeside, runLoop_cons_stop]
    rw [launchStepBeside_of_ne_fault (by simp [hstop]), hstop]

theorem launchLoopBeside_of_passes (hpass : Passes (eventVerdict pf rl) events) :
    launchLoopBeside words pf rl submit events = .pending := by
  obtain ⟨m, -, hbeside, -⟩ := through_launchStepBeside submit hpass
  have h := runLoop_append [] hbeside
  rw [List.append_nil] at h
  rw [launchLoopBeside, h, runLoop]

/-- **A zero beside the table** ends the loop at the stop that reads it. -/
theorem launchLoopBeside_of_zero (submit : Submission) (post : List WaitEvent)
    (hpass : Passes (eventVerdict pf rl) pre) (hcheck : AtCheck pf rl e)
    (hout : ¬InTable e.origAx) (hzero : words pre.length = some 0) :
    ∃ st, launchLoopBeside words pf rl submit (pre ++ e :: post)
      = .ret (st, post.zipIdx (pre.length + 1)) := by
  obtain ⟨m, -, hbeside, hinv⟩ := through_launchStepBeside submit hpass
  have hstop : launchStepBeside words pf rl (getRlCpuMillisecond rl) m (e, pre.length) = _ :=
    launchStepWith_of_atCheck hinv hcheck
  rw [hzero, checkSyscallBeside_of_not_inTable hout, if_pos rfl] at hstop
  exact ⟨_, by rw [launchLoopBeside, zipIdx_append_cons, runLoop_append _ hbeside,
    runLoop_cons_stop hstop]⟩

/-- A loop that has returned has returned whatever lies beside the table. -/
theorem launchLoopBeside_of_ret {rest : List WaitEvent}
    (h : launchLoop pf rl submit events = .ret (st, rest)) :
    ∃ rest', launchLoopBeside words pf rl submit events = .ret (st, rest') := by
  obtain ⟨pre, e, post, rfl, hpass, hv, hin⟩ := exists_launchLoop_iff.mp ⟨_, h⟩
  obtain ⟨v, hv⟩ := Option.ne_none_iff_exists'.mp hv
  obtain ⟨st', hret, hbeside⟩ := launchLoopBeside_of_first words submit post hin hpass hv
  obtain ⟨rfl, -⟩ : st' = st ∧ _ := by simpa [hret] using h
  exact ⟨_, hbeside⟩

end Loop

/-! ### The rounds -/

section Rounds

variable {ctx : LoadContext} {jdg : Judge} {submit : Submission} {st : DaemonState ctx}
  {replies : JudgeReplies} {prob : Problem} {r : Round ctx} {s s' : TestsState ctx}
  {heap : SyscallLimits} {run : TestRun} {tc : TestCase} {words : ℕ → BesideWord}
  {beside : ℕ → ℕ → BesideWord}

/-- The body of the loop over the test cases. -/
def judgeTestBeside (words : ℕ → BesideWord) (jdg : Judge) (heap : SyscallLimits) (run : TestRun)
    (tc : TestCase) (s : TestsState ctx) : Outcome Fault (TestsState ctx) :=
  judgeTestWith
    (launchBeside words ctx.platform s.st.sysCallInit heap s.submit s.rlLaunch run.launch)
    getResultCount jdg run tc s

/-- The rounds in which a submission is judged, with the words for each of them. -/
def roundsBeside (beside : ℕ → ℕ → BesideWord) (jdg : Judge) (submit : Submission)
    (st : DaemonState ctx) (replies : JudgeReplies) (prob : Problem) : List (Round ctx) :=
  roundsWith (fun n => judgeTestBeside (beside n) jdg replies.heap (replies.tests n)) 0
    prob.probTestcases (testsStart jdg submit st replies prob)

/-- The launch of a round. -/
def Round.launchedBeside (beside : ℕ → ℕ → BesideWord) (heap : SyscallLimits)
    (runs : ℕ → TestRun) (r : Round ctx) :
    Outcome Fault (Result × ResourceLimit × Option SyscallLimits) :=
  launchBeside (beside r.test) ctx.platform r.before.st.sysCallInit heap r.before.submit
    r.before.rlLaunch (runs r.test).launch

theorem launchBeside_of_ret {pf : Platform} {sysCallInit : Option SyscallLimits}
    {rl : ResourceLimit} {run : LaunchRun} {x : Result × ResourceLimit × Option SyscallLimits}
    (h : launch pf sysCallInit heap submit rl run = .ret x) :
    launchBeside words pf sysCallInit heap submit rl run = .ret x := by
  by_cases hpid : run.pid = none
  · exact (launchWith_of_pid_none hpid).trans h
  · obtain ⟨st, hleft, hret⟩ := (launchWith_eq_ret_iff hpid).mp h
    obtain ⟨⟨st', rest⟩, hloop, hst⟩ := bind_eq_ret_iff.mp hleft
    obtain rfl : st' = st := ret.inj hst
    obtain ⟨rest', hbeside⟩ := launchLoopBeside_of_ret hloop
    exact (launchWith_eq_ret_iff hpid).mpr ⟨st', bind_eq_ret_iff.mpr ⟨_, hbeside, rfl⟩, hret⟩

theorem judgeTestBeside_of_ret (h : judgeTest jdg heap run tc s = .ret s') :
    judgeTestBeside words jdg heap run tc s = .ret s' := by
  obtain ⟨x, hx, hret⟩ := bind_eq_ret_iff.mp h
  exact bind_eq_ret_iff.mpr ⟨x, launchBeside_of_ret hx, hret⟩

/-- The rounds that are reached without an access beside the table are reached. -/
theorem mem_roundsBeside (hr : r ∈ roundsOf jdg submit st replies prob) :
    r ∈ roundsBeside beside jdg submit st replies prob :=
  mem_roundsWith_of_imp (fun _ _ _ => judgeTestBeside_of_ret) hr

end Rounds

end NpuOj
