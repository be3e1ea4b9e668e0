import NpuOj.Lang.BesideTable
import NpuOj.Lang.Records

/-!
# The children that are left behind

A child stays in the process table until a `wait` has reported that it exited or was
terminated. `LangC::launch` waits only in its loop: where a stop ends the loop, the child is
killed, and nobody waits for it any more.

So a child is reaped if the last status that the loop has read is not a stop:
`NpuOj.lastStatus_ended_iff`. A stop at a number outside the table may end the loop as well,
if a zero lies there; what holds of every run has to hold whatever lies beside the table.
Over the rounds of `LangC::judge` the children that are left add up, and
`NpuOj.rounds_reaped_iff` says when there is none.
-/

namespace NpuOj

open Posix Outcome

/-! ### One launch -/

section Launch

variable {pf : Platform} {rl : ResourceLimit} {submit : Submission}
  {pre post events : List WaitEvent} {e : WaitEvent} {words : ℕ → BesideWord}

/-- The last status that the loop has read, once it is left. -/
def lastStatus (words : ℕ → BesideWord) (pf : Platform) (rl : ResourceLimit)
    (submit : Submission) (events : List WaitEvent) : Option WaitStatus :=
  match launchLoopBeside words pf rl submit events with
  | .ret (_, unread) => events[events.length - unread.length - 1]?.map WaitEvent.status
  | _ => none

theorem lastStatus_of_ret {st : LaunchState}
    (h : launchLoopBeside words pf rl submit (pre ++ e :: post)
      = .ret (st, post.zipIdx (pre.length + 1))) :
    lastStatus words pf rl submit (pre ++ e :: post) = some e.status := by
  have hlast : (pre ++ e :: post).length - (post.zipIdx (pre.length + 1)).length - 1
      = pre.length := by
    rw [List.length_append, List.length_cons, List.length_zipIdx]
    omega
  simp only [lastStatus, h, hlast, List.getElem?_append_right le_rfl, Nat.sub_self,
    List.getElem?_cons_zero, Option.map_some]

/-- **No stop ends the loop**: every stop that it reaches is within the limits of memory and
time, by `SIGTRAP`, and at a call of the table that has budget left. -/
def StopsPass (pf : Platform) (rl : ResourceLimit) (events : List WaitEvent) : Prop :=
  ∀ pre e post, events = pre ++ e :: post → Passes (eventVerdict pf rl) pre →
    wifstopped e.status.stat →
    AtCheck pf rl e ∧ InTable e.origAx ∧ BudgetLeft rl.syscallLimits pre e

theorem inTable_of_budgetLeft (h : BudgetLeft rl.syscallLimits pre e) : InTable e.origAx := by
  obtain ⟨i, hi, -⟩ := h
  by_contra hout
  rw [tableIndex_eq_none_iff.mpr hout] at hi
  cases hi

/-- A stop that passes has no verdict. -/
theorem stopPasses_iff : AtCheck pf rl e ∧ InTable e.origAx ∧ BudgetLeft rl.syscallLimits pre e ↔
    eventVerdict pf rl pre e = none := by
  rw [eventVerdict_eq_none_iff]
  exact and_congr_right fun _ => and_iff_right_of_imp inTable_of_budgetLeft

/-- The only stop that may end the loop is the first event with a verdict. -/
theorem stopsPass_iff_of_first (hpass : Passes (eventVerdict pf rl) pre)
    (hv : eventVerdict pf rl pre e ≠ none) :
    StopsPass pf rl (pre ++ e :: post) ↔ ¬wifstopped e.status.stat := by
  simp only [StopsPass, stopPasses_iff]
  constructor
  · intro hstops hstop
    exact hv (hstops pre e post rfl hpass hstop)
  · intro hfirst pre' e' post' he hpass' hstop
    by_contra hv'
    obtain ⟨rfl, rfl, -⟩ := first_unique hpass hv hpass' hv' he
    exact hfirst hstop

theorem stopsPass_of_passes (hpass : Passes (eventVerdict pf rl) events) :
    StopsPass pf rl events :=
  fun pre e post he _ _ => stopPasses_iff.mpr (hpass pre e post he)

/-- Where no stop ends the loop, it is the one that has a defined behaviour. -/
theorem StopsPass.launchLoop (words : ℕ → BesideWord) (submit : Submission)
    (h : StopsPass pf rl events) :
    launchLoop pf rl submit events = .pending ∧
        launchLoopBeside words pf rl submit events = .pending ∨
      ∃ st rest rest', launchLoop pf rl submit events = .ret (st, rest) ∧
        launchLoopBeside words pf rl submit events = .ret (st, rest') ∧
        ∃ status ∈ lastStatus words pf rl submit events, status.Ended := by
  rcases passes_or_exists_first (eventVerdict pf rl) events with
    hpass | ⟨pre, e, post, v, rfl, hpass, hv⟩
  · exact Or.inl ⟨launchLoop_of_passes hpass, launchLoopBeside_of_passes hpass⟩
  · have hstop := (stopsPass_iff_of_first hpass (by simp [hv])).mp h
    have hin : AtCheck pf rl e → InTable e.origAx := fun hcheck => absurd hcheck.2.2.1 hstop
    obtain ⟨st, hret, hbeside⟩ := launchLoopBeside_of_first words submit post hin hpass hv
    exact Or.inr ⟨st, _, _, hret, hbeside, e.status, lastStatus_of_ret hbeside,
      WaitStatus.ended_iff.mpr hstop⟩

/-- **Where a stop ends the loop**, and a zero lies beside the table, the last status is a
stop. -/
theorem stopsPass_of_ended
    (h : ∀ status ∈ lastStatus (fun _ => some 0) pf rl submit events, status.Ended) :
    StopsPass pf rl events := by
  rcases passes_or_exists_first (eventVerdict pf rl) events with
    hpass | ⟨pre, e, post, v, rfl, hpass, hv⟩
  · exact stopsPass_of_passes hpass
  · obtain ⟨st, hbeside⟩ : ∃ st, launchLoopBeside (fun _ => some 0) pf rl submit (pre ++ e :: post)
        = .ret (st, post.zipIdx (pre.length + 1)) := by
      by_cases hin : AtCheck pf rl e → InTable e.origAx
      · obtain ⟨st, -, hbeside⟩ := launchLoopBeside_of_first _ submit post hin hpass hv
        exact ⟨st, hbeside⟩
      · obtain ⟨hcheck, hout⟩ := Classical.not_imp.mp hin
        exact launchLoopBeside_of_zero submit post hpass hcheck hout rfl
    exact (stopsPass_iff_of_first hpass (by simp [hv])).mpr
      (WaitStatus.ended_iff.mp (h e.status (lastStatus_of_ret hbeside)))

/-- **When the child is reaped**, whatever lies beside the table. -/
theorem lastStatus_ended_iff (pf : Platform) (rl : ResourceLimit) (submit : Submission)
    (events : List WaitEvent) :
    (∀ words, ∀ status ∈ lastStatus words pf rl submit events, status.Ended) ↔
      StopsPass pf rl events := by
  refine ⟨fun h => stopsPass_of_ended (h _), fun h words status hstatus => ?_⟩
  rcases h.launchLoop words submit with ⟨-, hpending⟩ | ⟨_, _, _, -, -, status', hlast, hended⟩
  · simp [lastStatus, hpending] at hstatus
  · obtain rfl : status' = status := Option.mem_unique hlast hstatus
    exact hended

end Launch

/-! ### The rounds -/

section Rounds

variable {ctx : LoadContext} {beside : ℕ → ℕ → BesideWord}

/-- The last status that the parent has read of the child of a round, if the launch gets
beyond `get_proc_info`. -/
def Round.lastStatus (beside : ℕ → ℕ → BesideWord) (heap : SyscallLimits) (runs : ℕ → TestRun)
    (r : Round ctx) : Option WaitStatus :=
  (runs r.test).launch.vmPeak.bind fun _ =>
    NpuOj.lastStatus (beside r.test) ctx.platform (r.limits heap) r.before.submit
      (runs r.test).launch.events

/-- The launch of a round has made a child and has returned before the child came to its
end. -/
def Round.LeavesChild (beside : ℕ → ℕ → BesideWord) (heap : SyscallLimits) (runs : ℕ → TestRun)
    (r : Round ctx) : Prop :=
  (runs r.test).launch.pid ≠ none ∧ ∃ status ∈ r.lastStatus beside heap runs, ¬status.Ended

instance (heap : SyscallLimits) (runs : ℕ → TestRun) (r : Round ctx) :
    Decidable (r.LeavesChild beside heap runs) := inferInstanceAs (Decidable (_ ∧ _))

/-- **The children that judging leaves unreaped.** -/
def unreapedChildren (beside : ℕ → ℕ → BesideWord) (jdg : Judge) (submit : Submission)
    (st : DaemonState ctx) (replies : JudgeReplies) (prob : Problem) : ℕ :=
  (roundsBeside beside jdg submit st replies prob).countP fun r =>
    r.LeavesChild beside replies.heap replies.tests

section OneRound

variable {heap : SyscallLimits} {runs : ℕ → TestRun} {r : Round ctx} {jdg : Judge}
  {s' : TestsState ctx}

/-- No stop ends the loop of the round's launch, if it makes a child and gets beyond
`get_proc_info`. -/
def Round.StopsPass (heap : SyscallLimits) (runs : ℕ → TestRun) (r : Round ctx) : Prop :=
  (runs r.test).launch.pid ≠ none → (runs r.test).launch.vmPeak ≠ none →
    NpuOj.StopsPass ctx.platform (r.limits heap) (runs r.test).launch.events

theorem Round.not_leavesChild_iff :
    ¬r.LeavesChild beside heap runs ↔ ((runs r.test).launch.pid ≠ none →
      ∀ status ∈ r.lastStatus beside heap runs, status.Ended) := by
  simp only [Round.LeavesChild, not_and, not_exists, not_not]

/-- A launch that has made a child and returned has read a last status. -/
theorem Round.exists_lastStatus (hstops : r.StopsPass heap runs)
    (hpid : (runs r.test).launch.pid ≠ none)
    {x : Result × ResourceLimit × Option SyscallLimits}
    (h : r.launchedBeside beside heap runs = .ret x) :
    r.launched heap runs = .ret x ∧ ∃ status ∈ r.lastStatus beside heap runs, status.Ended := by
  rw [Round.launchedBeside, launchBeside] at h
  obtain ⟨st, hleft, vmPeak, hpeak, hx⟩ := (launchWith_eq_ret_iff hpid).mp h
  change (launchLoopBeside (beside r.test) ctx.platform (r.limits heap) r.before.submit
    (runs r.test).launch.events).bind _ = _ at hleft
  rcases (hstops hpid (by simp [Option.mem_def.mp hpeak])).launchLoop (beside r.test)
      r.before.submit with ⟨-, hpending⟩ | ⟨st', rest, rest', hloop, hbeside, hended⟩
  · rw [hpending] at hleft
    cases hleft
  · rw [hbeside] at hleft
    obtain rfl : st' = st := ret.inj hleft
    constructor
    · rw [Round.launched, launch]
      exact (launchWith_eq_ret_iff hpid).mpr
        ⟨st', bind_eq_ret_iff.mpr ⟨_, hloop, rfl⟩, vmPeak, hpeak, hx⟩
    · rwa [Round.lastStatus, hpeak]

/-- Where no stop ends the loop of its launch, a round does what it does with a defined
behaviour. -/
theorem judgeTest_of_stopsPass (hstops : r.StopsPass heap runs)
    (h : judgeTestBeside (beside r.test) jdg heap (runs r.test) r.tc r.before = .ret s') :
    judgeTest jdg heap (runs r.test) r.tc r.before = .ret s' := by
  obtain ⟨x, hx, hret⟩ := bind_eq_ret_iff.mp h
  refine bind_eq_ret_iff.mpr ⟨x, ?_, hret⟩
  by_cases hpid : (runs r.test).launch.pid = none
  · exact (launchWith_of_pid_none hpid).trans hx
  · exact (Round.exists_lastStatus hstops hpid hx).1

end OneRound

/-- **When no child is left**: whatever lies beside the table, every launch that makes a child
and returns has reaped it, and the number of unreaped children is zero over any number of test
cases, exactly if no stop ends a loop. -/
theorem rounds_reaped_iff (jdg : Judge) (submit : Submission) (st : DaemonState ctx)
    (replies : JudgeReplies) (prob : Problem) :
    (∀ beside : ℕ → ℕ → BesideWord,
      (∀ r ∈ roundsBeside beside jdg submit st replies prob,
        (replies.tests r.test).launch.pid ≠ none →
        ∀ x, r.launchedBeside beside replies.heap replies.tests = .ret x →
          ∃ status ∈ r.lastStatus beside replies.heap replies.tests, status.Ended) ∧
      unreapedChildren beside jdg submit st replies prob = 0) ↔
    ∀ r ∈ roundsOf jdg submit st replies prob, (replies.tests r.test).launch.pid ≠ none →
      (replies.tests r.test).launch.vmPeak ≠ none →
      StopsPass ctx.platform
        (launchLimits ctx.platform st.sysCallInit replies.heap (rlLaunch jdg prob))
        (replies.tests r.test).launch.events := by
  have hround : ∀ r ∈ roundsOf jdg submit st replies prob,
      (r.StopsPass replies.heap replies.tests ↔ ((replies.tests r.test).launch.pid ≠ none →
        (replies.tests r.test).launch.vmPeak ≠ none →
        StopsPass ctx.platform
          (launchLimits ctx.platform st.sysCallInit replies.heap (rlLaunch jdg prob))
          (replies.tests r.test).launch.events)) := by
    intro r hr
    rw [Round.StopsPass, limits_of_mem_roundsOf hr]
  have hcount (beside : ℕ → ℕ → BesideWord) : unreapedChildren beside jdg submit st replies prob = 0
      ↔ ∀ r ∈ roundsBeside beside jdg submit st replies prob,
        (replies.tests r.test).launch.pid ≠ none →
        ∀ status ∈ r.lastStatus beside replies.heap replies.tests, status.Ended := by
    simp only [unreapedChildren, List.countP_eq_zero, decide_eq_true_eq,
      Round.not_leavesChild_iff]
  constructor
  · -- a zero beside the table, in every round
    intro h r hr
    refine (hround r hr).mp fun hpid hpeak => ?_
    obtain ⟨vmPeak, hpeak⟩ := Option.ne_none_iff_exists'.mp hpeak
    have hended : ∀ status ∈ lastStatus (fun _ => some 0) ctx.platform (r.limits replies.heap)
        r.before.submit (replies.tests r.test).launch.events, status.Ended := fun status hstatus =>
      (hcount fun _ _ => some 0).mp (h _).2 r (mem_roundsBeside hr) hpid status
        (by rwa [Round.lastStatus, hpeak])
    exact stopsPass_of_ended hended
  · intro hstops beside
    have hmem : ∀ r ∈ roundsBeside beside jdg submit st replies prob,
        r.StopsPass replies.heap replies.tests := by
      intro r hr
      have hr' : r ∈ roundsOf jdg submit st replies prob := mem_roundsWith_of_imp
        (fun r hr s' => judgeTest_of_stopsPass ((hround r hr).mpr (hstops r hr))) hr
      exact (hround r hr').mpr (hstops r hr')
    refine ⟨fun r hr hpid x hx => (Round.exists_lastStatus (hmem r hr) hpid hx).2,
      (hcount beside).mpr fun r hr hpid status hstatus => ?_⟩
    obtain ⟨vmPeak, hpeak, hstatus⟩ := Option.mem_bind_iff.mp hstatus
    exact (lastStatus_ended_iff _ _ _ _).mpr (hmem r hr hpid (by simp [Option.mem_def.mp hpeak])) _
      status hstatus

/-- The program calls `fork`, for which it has no budget. -/
def forkingTest : JudgeReplies :=
  { oneTest with
    tests := fun _ => ⟨⟨some 4243, [eventOf (.stopped 5) 57], some 0⟩, ⟨fun _ => 0, fun _ => 0⟩⟩ }

/-- **A child that is left**: the loop is left at a stop, the child is killed, and nobody has
waited for its end. -/
theorem judge_forkingTest : ∃ submit' st' prob res,
    problemOf (.released 1000 7) (.start nojContext) forkingTest = .ret prob ∧
    judge cRelease judge0 (.released 1000 7) (.start nojContext) forkingTest
      = .ret (.normal, submit', st') ∧
    submit'.sbmResults = [res] ∧ res.resType = .illegalSystemCall ∧
    (roundsBeside (fun _ _ => none) judge0 (.released 1000 7) (.start nojContext) forkingTest
        prob).map (Round.lastStatus (fun _ _ => none) forkingTest.heap forkingTest.tests)
      = [some (.stopped 5)] ∧
    ¬(WaitStatus.stopped 5).Ended ∧
    unreapedChildren (fun _ _ => none) judge0 (.released 1000 7) (.start nojContext) forkingTest
      prob = 1 :=
  ⟨_, _, _, _, rfl, rfl, rfl, rfl, rfl, by decide, rfl⟩

end Rounds

end NpuOj
