import NpuOj.Lang.JudgeVerdict

/-!
# The rounds of the loop over the test cases

A statement about what happens in every round of `LangC::judge` speaks about the rounds that
are entered: a round whose launch does not return is the last one. `NpuOj.rounds` lists them
with the variables of the loop before them.
-/

namespace NpuOj

open Outcome

/-- A round of the loop. -/
structure Round (ctx : LoadContext) where
  /-- The number of the test case. -/
  test : ℕ
  tc : TestCase
  /-- The variables of the loop before the round. -/
  before : TestsState ctx

section Rounds

variable {ctx : LoadContext} {jdg : Judge} {submit : Submission} {rl : ResourceLimit}
  {block heap : SyscallLimits} {runs : ℕ → TestRun} {tcs : List TestCase}
  {s s' : TestsState ctx} {r : Round ctx} {results : List Result} {run : TestRun} {tc : TestCase}
  {st : DaemonState ctx} {replies : JudgeReplies} {prob : Problem} {n : ℕ}

/-- The rounds of a loop over the test cases, from the given number on. -/
def roundsWith (test : ℕ → TestCase → TestsState ctx → Outcome Fault (TestsState ctx)) :
    ℕ → List TestCase → TestsState ctx → List (Round ctx)
  | _, [], _ => []
  | n, tc :: tcs, s =>
    ⟨n, tc, s⟩ :: match test n tc s with
      | .ret s' => roundsWith test (n + 1) tcs s'
      | _ => []

/-- **The rounds of the loop**. -/
def rounds (jdg : Judge) (heap : SyscallLimits) (runs : ℕ → TestRun) :
    ℕ → List TestCase → TestsState ctx → List (Round ctx) :=
  roundsWith fun n => judgeTest jdg heap (runs n)

/-- The rounds of a loop depend on what a test case does only as far as it returns. -/
theorem mem_roundsWith_of_imp
    {test test' : ℕ → TestCase → TestsState ctx → Outcome Fault (TestsState ctx)}
    (himp : ∀ r ∈ roundsWith test' n tcs s, ∀ s', test r.test r.tc r.before = .ret s' →
      test' r.test r.tc r.before = .ret s')
    (hr : r ∈ roundsWith test n tcs s) : r ∈ roundsWith test' n tcs s := by
  induction tcs generalizing n s with
  | nil => exact hr
  | cons tc tcs ih =>
    rw [roundsWith, List.mem_cons] at hr ⊢
    refine hr.imp_right fun hr => ?_
    split at hr
    · next s' htest =>
      have htest' := himp ⟨n, tc, s⟩ (by rw [roundsWith]; exact List.mem_cons_self) s' htest
      rw [htest']
      refine ih (fun r hr s' => himp r ?_ s') hr
      rw [roundsWith, htest']
      exact List.mem_cons_of_mem _ hr
    · exact absurd hr List.not_mem_nil

theorem rounds_cons : rounds jdg heap runs n (tc :: tcs) s =
    ⟨n, tc, s⟩ :: match judgeTest jdg heap (runs n) tc s with
      | .ret s' => rounds jdg heap runs (n + 1) tcs s'
      | _ => [] := rfl

/-- The rounds in which a submission is judged. -/
def roundsOf (jdg : Judge) (submit : Submission) (st : DaemonState ctx) (replies : JudgeReplies)
    (prob : Problem) : List (Round ctx) :=
  rounds jdg replies.heap replies.tests 0 prob.probTestcases
    (testsStart jdg submit st replies prob)

/-- The limits that the launch of a round watches. -/
def Round.limits (heap : SyscallLimits) (r : Round ctx) : ResourceLimit :=
  launchLimits ctx.platform r.before.st.sysCallInit heap r.before.rlLaunch

/-- The launch of a round. -/
def Round.launched (heap : SyscallLimits) (runs : ℕ → TestRun) (r : Round ctx) :
    Outcome Fault (Result × ResourceLimit × Option SyscallLimits) :=
  launch ctx.platform r.before.st.sysCallInit heap r.before.submit r.before.rlLaunch
    (runs r.test).launch

theorem TestsInv.judgeTest (hinv : TestsInv submit rl block heap results s)
    (h : judgeTest jdg heap run tc s = .ret s') :
    ∃ res, TestsInv submit rl block heap (results ++ [res]) s' := by
  obtain ⟨v, hv⟩ := exists_verdict_of_judgeTest hinv h
  obtain ⟨s₁, res, htest, -, hinv₁⟩ := judgeTest_of_verdict hinv hv
  obtain rfl : s' = s₁ := ret.inj (h.symm.trans htest)
  exact ⟨res, hinv₁⟩

/-- The invariant of the loop holds before every round. -/
theorem testsInv_of_mem_rounds (hinv : TestsInv submit rl block heap results s)
    (hr : r ∈ rounds jdg heap runs n tcs s) :
    ∃ results', TestsInv submit rl block heap results' r.before := by
  induction tcs generalizing n s results with
  | nil => exact absurd hr List.not_mem_nil
  | cons tc tcs ih =>
    rw [rounds_cons, List.mem_cons] at hr
    rcases hr with rfl | hr
    · exact ⟨results, hinv⟩
    · split at hr
      · next s' htest =>
        obtain ⟨res, hinv'⟩ := hinv.judgeTest htest
        exact ih hinv' hr
      · exact absurd hr List.not_mem_nil

/-- A round is one of the test case that its number says. -/
theorem getElem?_of_mem_rounds (hr : r ∈ rounds jdg heap runs n tcs s) :
    n ≤ r.test ∧ tcs[r.test - n]? = some r.tc := by
  induction tcs generalizing n s with
  | nil => exact absurd hr List.not_mem_nil
  | cons tc tcs ih =>
    rw [rounds_cons, List.mem_cons] at hr
    rcases hr with rfl | hr
    · exact ⟨Nat.le_refl n, by rw [Nat.sub_self, List.getElem?_cons_zero]⟩
    · split at hr
      · obtain ⟨hle, htc⟩ := ih hr
        have hsucc : r.test - n = r.test - (n + 1) + 1 := by omega
        exact ⟨by omega, by rw [hsucc, List.getElem?_cons_succ, htc]⟩
      · exact absurd hr List.not_mem_nil

/-- Every launch watches the limits of the problem, with the block of budgets. -/
theorem limits_of_mem_roundsOf (hr : r ∈ roundsOf jdg submit st replies prob) :
    r.limits replies.heap
      = launchLimits ctx.platform st.sysCallInit replies.heap (rlLaunch jdg prob) := by
  have hstart := testsInv_start jdg submit st replies prob
  obtain ⟨results, hinv⟩ := testsInv_of_mem_rounds hstart hr
  exact (launchLimits_of_testsInv hinv).trans (launchLimits_of_testsInv hstart).symm

end Rounds

end NpuOj
