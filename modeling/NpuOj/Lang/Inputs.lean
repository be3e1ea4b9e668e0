import Mathlib.Data.List.TakeDrop
import NpuOj.Lang.JudgeVerdict

/-!
# The input that a test case is run on

Before every launch `copy_testcase_input` has a shell copy the input of the test case to
`stdin.in` in the work directory, which all test cases share. Nothing but the log is told
where that fails: the program is launched all the same, and reads what is there.

`NpuOj.launchCalls` lists the launches of `LangC::judge` together with what `stdin.in` holds
at each of them. That this is the input of the test case is a matter of the copies alone:
`NpuOj.launchCalls_ownInput_iff`.
-/

namespace NpuOj

open Outcome

/-! ### The copies -/

/-- What the copy of an input finds and does. -/
structure CopyRun where
  /-- The local input file, if it can be read. -/
  input : Option (List UInt8)
  /-- How many bytes `cp` gets to write; `none` where it does not open `stdin.in`. -/
  written : Option ℕ
  deriving DecidableEq

namespace CopyRun

/-- What `stdin.in` holds after the copy. The input is cut where `cp` does not get to its
end, and `stdin.in` is as it was where `cp` does not get to open both files. -/
def stdinIn (copy : CopyRun) (old : Option (List UInt8)) : Option (List UInt8) :=
  match copy.input, copy.written with
  | some input, some n => some (input.take n)
  | _, _ => old

/-- **The input is put in place**: all of it is copied, or else `stdin.in` is left alone and
happens to hold the same bytes. -/
def PutsInPlace (copy : CopyRun) (old : Option (List UInt8)) : Prop :=
  ∃ input, copy.input = some input ∧ match copy.written with
    | some n => input.length ≤ n
    | none => old = some input

theorem putsInPlace_iff {copy : CopyRun} {old : Option (List UInt8)} :
    copy.PutsInPlace old ↔ ∃ input, copy.input = some input ∧ copy.stdinIn old = some input := by
  refine exists_congr fun input => and_congr_right fun hinput => ?_
  rcases hwritten : copy.written with _ | n
  · simp only [stdinIn, hinput, hwritten]
  · simp only [stdinIn, hinput, hwritten, Option.some.injEq, List.take_eq_self_iff]

end CopyRun

/-- What `stdin.in` holds after the given number of copies, from the given one on. -/
def stdinAfter (copies : ℕ → CopyRun) : ℕ → ℕ → Option (List UInt8) → Option (List UInt8)
  | _, 0, old => old
  | n, k + 1, old => stdinAfter copies (n + 1) k ((copies n).stdinIn old)

/-! ### The launches -/

/-- A call of `launch` by `LangC::judge`. -/
structure LaunchCall where
  /-- The number of the test case. -/
  test : ℕ
  /-- What `stdin.in` holds. -/
  stdinIn : Option (List UInt8)
  /-- The child has been made, and runs the program. -/
  ran : Bool
  /-- The type of the result of the test case, if there is one. -/
  resType : Option NojResult
  deriving DecidableEq

section Calls

variable {ctx : LoadContext} {jdg : Judge} {heap : SyscallLimits} {runs : ℕ → TestRun}
  {copies : ℕ → CopyRun} {tcs : List TestCase} {s s' : TestsState ctx} {n : ℕ}
  {stdinIn : Option (List UInt8)}

/-- **The launches of the loop** over the test cases, from the given number on. -/
def launchCalls (jdg : Judge) (heap : SyscallLimits) (runs : ℕ → TestRun) (copies : ℕ → CopyRun) :
    ℕ → List TestCase → TestsState ctx → Option (List UInt8) → List LaunchCall
  | _, [], _, _ => []
  | n, tc :: tcs, s, old =>
    let stdinIn := (copies n).stdinIn old
    let ran := (runs n).launch.pid.isSome
    match judgeTest jdg heap (runs n) tc s with
    | .ret s =>
      ⟨n, stdinIn, ran, s.submit.sbmResults.getLast?.map Result.resType⟩ ::
        launchCalls jdg heap runs copies (n + 1) tcs s stdinIn
    | _ => [⟨n, stdinIn, ran, none⟩]

/-- The program is launched on the input of its test case; where that cannot be put in
place, it is not run, and the result is a system error. -/
structure OwnInput (copies : ℕ → CopyRun) (call : LaunchCall) : Prop where
  stdinIn : ∃ input, (copies call.test).input = some input ∧ call.stdinIn = some input
  otherwise : call.stdinIn ≠ (copies call.test).input →
    call.ran = false ∧ call.resType = some .systemError

theorem ownInput_iff {ran : Bool} {resType : Option NojResult} :
    OwnInput copies ⟨n, (copies n).stdinIn stdinIn, ran, resType⟩ ↔
      (copies n).PutsInPlace stdinIn := by
  rw [CopyRun.putsInPlace_iff]
  refine ⟨fun h => h.stdinIn, fun h => ⟨h, fun hne => ?_⟩⟩
  obtain ⟨input, hinput, hstdin⟩ := h
  exact absurd (hstdin.trans hinput.symm) hne

/-- The test case is reached: the loop has come through those before it. -/
def Reached (jdg : Judge) (heap : SyscallLimits) (runs : ℕ → TestRun) (n : ℕ)
    (tcs : List TestCase) (s : TestsState ctx) (k : ℕ) : Prop :=
  k < tcs.length ∧ ∃ s', judgeTests jdg heap runs n (tcs.take k) s = .ret s'

theorem reached_zero {tc : TestCase} : Reached jdg heap runs n (tc :: tcs) s 0 :=
  ⟨Nat.succ_pos _, s, rfl⟩

theorem reached_succ_iff {tc : TestCase} {k : ℕ} :
    Reached jdg heap runs n (tc :: tcs) s (k + 1) ↔
      ∃ s', judgeTest jdg heap (runs n) tc s = .ret s' ∧
        Reached jdg heap runs (n + 1) tcs s' k := by
  simp only [Reached, List.length_cons, Nat.add_lt_add_iff_right, List.take_succ_cons, judgeTests,
    bind_def, bind_eq_ret_iff]
  constructor
  · rintro ⟨hk, s', s₁, htest, hloop⟩
    exact ⟨s₁, htest, hk, s', hloop⟩
  · rintro ⟨s₁, htest, hk, s', hloop⟩
    exact ⟨hk, s', s₁, htest, hloop⟩

/-- **When every program runs on its own input**: exactly if the input of every test case
that is reached is put in place. -/
theorem launchCalls_ownInput_iff (jdg : Judge) (heap : SyscallLimits) (runs : ℕ → TestRun)
    (copies : ℕ → CopyRun) (n : ℕ) (tcs : List TestCase) (s : TestsState ctx)
    (stdinIn : Option (List UInt8)) :
    (∀ call ∈ launchCalls jdg heap runs copies n tcs s stdinIn, OwnInput copies call) ↔
      ∀ k, Reached jdg heap runs n tcs s k →
        (copies (n + k)).PutsInPlace (stdinAfter copies n k stdinIn) := by
  induction tcs generalizing n s stdinIn with
  | nil =>
    refine iff_of_true (fun call hcall => absurd hcall List.not_mem_nil) fun k hk => ?_
    exact absurd hk.1 (Nat.not_lt_zero k)
  | cons tc tcs ih =>
    have hsucc : (∀ k, Reached jdg heap runs n (tc :: tcs) s k →
        (copies (n + k)).PutsInPlace (stdinAfter copies n k stdinIn)) ↔
        (copies n).PutsInPlace stdinIn ∧ ∀ s', judgeTest jdg heap (runs n) tc s = .ret s' →
          ∀ k, Reached jdg heap runs (n + 1) tcs s' k →
            (copies (n + 1 + k)).PutsInPlace
              (stdinAfter copies (n + 1) k ((copies n).stdinIn stdinIn)) := by
      constructor
      · intro h
        refine ⟨h 0 reached_zero, fun s' htest k hk => ?_⟩
        have hplace := h (k + 1) (reached_succ_iff.mpr ⟨s', htest, hk⟩)
        rwa [Nat.add_right_comm]
      · rintro ⟨hplace, hrest⟩ k hk
        rcases k with _ | k
        · exact hplace
        · obtain ⟨s', htest, hk'⟩ := reached_succ_iff.mp hk
          have hplace' := hrest s' htest k hk'
          rwa [Nat.add_right_comm] at hplace'
    rw [hsucc, launchCalls]
    rcases htest : judgeTest jdg heap (runs n) tc s with s' | e | _
    · simp only [List.forall_mem_cons, ownInput_iff, ih, ret.injEq, forall_eq']
    · simp [ownInput_iff]
    · simp [ownInput_iff]

/-- A program that exits after 40 ms and answers correctly. -/
def passingRun : TestRun where
  launch := ⟨some 4243, [⟨.exited 0, ⟨⟨0, 40000⟩, ⟨0, 0⟩, 100⟩, 0⟩], some 0⟩
  check := ⟨fun _ => 0, fun _ => 0⟩

/-- The copies of two inputs, the second of which is not there any more. -/
def secondInputMissing : ℕ → CopyRun
  | 0 => ⟨some [1], some 1⟩
  | _ => ⟨none, none⟩

/-- Two test cases of one problem. -/
def twoTestcases : List TestCase :=
  [⟨5, 1000, "5.in", "5.out", 0, "", ""⟩, ⟨6, 1000, "6.in", "6.out", 0, "", ""⟩]

/-- The loop before its first round, in a daemon that has just started. -/
def firstRound : TestsState nojContext where
  submit := .released 1000 7
  rlLaunch := rlLaunch ⟨"/home/noj/judge0", 1001⟩ {}
  flgAc := true
  st := .start nojContext

/-- **An input that is missing**: the program is run on the input of the test case before,
and answers correctly. -/
theorem launchCalls_secondInputMissing :
    ∃ first second, launchCalls ⟨"/home/noj/judge0", 1001⟩ (fun _ => 0) (fun _ => passingRun)
        secondInputMissing 0 twoTestcases firstRound none = [first, second] ∧
      (secondInputMissing 0).input = some [1] ∧ (secondInputMissing 1).input = none ∧
      second = ⟨1, some [1], true, some .correctAnswer⟩ ∧
      ¬OwnInput secondInputMissing second := by
  refine ⟨_, _, rfl, rfl, rfl, rfl, fun h => ?_⟩
  obtain ⟨input, hinput, -⟩ := h.stdinIn
  cases hinput

end Calls

end NpuOj
