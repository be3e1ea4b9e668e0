import NpuOj.Lang.JudgeVerdict
import NpuOj.Lib.SharedCounter

/-!
# The names of the outputs that are kept

The output of a run that answers wrongly is kept, in a file whose name has the identity of the
submission, its mode and a number. The number comes from `get_result_count`, a counter of the
whole daemon that starts again at a million, and only its last five digits are printed.

The counter is a static variable without a lock, and the other workers count with it:
`NpuOj.judgeAmong` is `LangC::judge` with the numbers that its calls return in a sequence of
accesses of all the workers. Where no two calls overlap, the names of two outputs of one
submission are the same if their calls are a multiple of `100000` calls apart, and
`NpuOj.outputNames_distinct_iff` says that this is the only way. Where calls overlap, four of
them suffice: a store that comes late gives a number a second time
(`NpuOj.outputNames_overwritten`).
-/

namespace NpuOj

open Posix Outcome

variable {ctx : LoadContext}

/-! ### Judging among other workers -/

/-- The output of the run is kept. -/
def NojResult.Kept (v : NojResult) : Prop := v = .wrongAnswer ∨ v = .presentationError

instance : DecidablePred NojResult.Kept := fun _ => inferInstanceAs (Decidable (_ ∨ _))

/-- `get_result_count`, in a call that returns the given number. -/
def resultCountOf (count : ℕ) (st : DaemonState ctx) : ℕ × DaemonState ctx :=
  (count, { st with resultCount := count })

/-- The last result of the submission is one whose output is kept. -/
def TestsState.LastKept (s : TestsState ctx) : Prop :=
  ∃ res ∈ s.submit.sbmResults.getLast?, res.resType.Kept

instance (s : TestsState ctx) : Decidable s.LastKept :=
  inferInstanceAs (Decidable (∃ res ∈ s.submit.sbmResults.getLast?, res.resType.Kept))

/-- The body of the loop, on one test case, with the number for its output. -/
def judgeTestAmong (jdg : Judge) (heap : SyscallLimits) (count : ℕ) (run : TestRun)
    (tc : TestCase) (s : TestsState ctx) : Outcome Fault (TestsState ctx) :=
  judgeTestWith (launch ctx.platform s.st.sysCallInit heap s.submit s.rlLaunch run.launch)
    (resultCountOf count) jdg run tc s

/-- The loop of `LangC::judge`, with the numbers that the calls of `get_result_count` return. -/
def judgeTestsAmong (jdg : Judge) (heap : SyscallLimits) (runs : ℕ → TestRun) :
    ℕ → List ℕ → List TestCase → TestsState ctx → Outcome Fault (TestsState ctx)
  | _, _, [], s => .ret s
  | n, counts, tc :: tcs, s => do
    let s ← judgeTestAmong jdg heap (counts.headD 0) (runs n) tc s
    if s.LastKept then
      match counts with
      -- the call has not returned yet
      | [] => .pending
      | _ :: counts => judgeTestsAmong jdg heap runs (n + 1) counts tcs s
    else judgeTestsAmong jdg heap runs (n + 1) counts tcs s

/-- `LangC::judge` among other workers. -/
def judgeAmong (lang : LangCDebug) (jdg : Judge) (submit : Submission) (st : DaemonState ctx)
    (replies : JudgeReplies) (counts : List ℕ) :
    Outcome Fault (NojState × Submission × DaemonState ctx) := do
  let submit := { submit with sbmResType := .init }
  let st := copySrc jdg submit st
  let (loading, cache) := st.cache.get submit.sbmProbId replies.load
  let prob ← loading
  let st := { st with cache := cache }
  let res ← compile ctx.platform lang submit (rlCompile ctx.platform jdg) replies.compile
  if res.resType ≠ .compilePass then
    let submit := { submit with sbmResults := submit.sbmResults ++ [res] }
    .ret (.normal, { submit with sbmResType := .compileError }, st)
  else
    let submit := { submit with sbmResType := .compilePass }
    let s ← judgeTestsAmong jdg replies.heap replies.tests 0 counts prob.probTestcases
      ⟨submit, rlLaunch jdg prob, true, st⟩
    let verdict := if s.flgAc then .accept else .notAccept
    .ret (.normal, { s.submit with sbmResType := verdict }, s.st)

section Stages

variable {lang : LangCDebug} {jdg : Judge} {submit : Submission} {st : DaemonState ctx}
  {replies : JudgeReplies} {counts : List ℕ}

/-- The stages of judging among other workers. -/
theorem judgeAmong_eq : judgeAmong lang jdg submit st replies counts =
    (problemOf submit st replies).bind fun prob =>
      (compilationOf ctx lang jdg submit replies).bind fun res =>
        if res.resType ≠ .compilePass then
          let submit := { submit with sbmResults := submit.sbmResults ++ [res] }
          .ret (.normal, { submit with sbmResType := .compileError },
            { copySrc jdg submit st with cache := (st.cache.get submit.sbmProbId replies.load).2 })
        else (judgeTestsAmong jdg replies.heap replies.tests 0 counts prob.probTestcases
            (testsStart jdg submit st replies prob)).bind fun s =>
          let verdict := if s.flgAc then .accept else .notAccept
          .ret (.normal, { s.submit with sbmResType := verdict }, s.st) := by
  have hload : (st.cache.get submit.sbmProbId replies.load).1 = problemOf submit st replies :=
    st.cache.getProblem_eq submit.sbmProbId replies.load
  rw [← hload]
  rfl

end Stages

/-! ### Names -/

/-- The name of an output, by what `get_result_count` has returned. -/
def outputName (ctx : LoadContext) (submit : Submission) (count : ℕ) : String :=
  snprintf bufferSize (ctx.getOutputDir ++ "/" ++ toString submit.sbmId ++ "_" ++
    strJudgeMode submit.sbmCurMode ++ "_" ++ fourDigits (count % 100000) ++ ".out")

section Names

variable {submit : Submission} {n m : ℕ}

theorem fourDigits_injective (h : fourDigits n = fourDigits m) : n = m := by
  have hvalue : ∀ n, Nat.ofDigitChars 10 (fourDigits n).toList 0 = n := by
    intro n
    rw [fourDigits, String.toList_ofList, Nat.ofDigitChars_append, Nat.ofDigitChars_replicate_zero,
      Nat.mul_zero, ofDigitChars_toString]
  rw [← hvalue n, h, hvalue]

theorem length_fourDigits (h : n < 100000) : (fourDigits n).length ≤ 5 := by
  have hdigits : (toString n).length ≤ 5 := (Nat.length_repr_le_iff (by decide)).mpr h
  rw [← String.length_toList] at hdigits
  rw [fourDigits, String.length_ofList, List.length_append, List.length_replicate]
  omega

theorem length_toString_long {x : ℤ} (hx : -2 ^ 63 ≤ x ∧ x < 2 ^ 63) :
    (toString x).length ≤ 20 := by
  cases x with
  | ofNat n =>
    have hdigits : (toString n).length ≤ 20 :=
      (Nat.length_repr_le_iff (by decide)).mpr (by simp only [Int.ofNat_eq_natCast] at hx; omega)
    exact hdigits
  | negSucc n =>
    have hdigits : (toString (n + 1)).length ≤ 19 :=
      (Nat.length_repr_le_iff (by decide)).mpr (by omega)
    have htext : toString (Int.negSucc n) = "-" ++ toString (n + 1) := rfl
    have hsign : "-".length = 1 := by decide +kernel
    rw [htext, String.length_append, hsign]
    omega

/-- **The name fits into the buffer**, for a work directory like the one of the daemon. -/
theorem outputName_eq (hdir : ctx.workDir.length ≤ 200)
    (hid : -2 ^ 63 ≤ submit.sbmId ∧ submit.sbmId < 2 ^ 63) (count : ℕ) :
    outputName ctx submit count = ctx.getOutputDir ++ "/" ++ toString submit.sbmId ++ "_" ++
      strJudgeMode submit.sbmCurMode ++ "_" ++ fourDigits (count % 100000) ++ ".out" := by
  have hoperator : "/output".length = 7 ∧ "/".length = 1 ∧ "_".length = 1 ∧ ".out".length = 4 := by
    decide +kernel
  obtain ⟨houtput, hslash, hline, hout⟩ := hoperator
  have hmode : (strJudgeMode submit.sbmCurMode).length ≤ 7 := by
    cases submit.sbmCurMode <;> decide +kernel
  have hnumber := length_fourDigits (Nat.mod_lt count (by decide : 0 < 100000))
  have hlong := length_toString_long hid
  refine snprintf_of_length_le ?_
  simp only [String.length_append, LoadContext.getOutputDir, houtput, hslash, hline, hout]
  have hsize : bufferSize = 256 := rfl
  omega

theorem outputName_eq_iff (hdir : ctx.workDir.length ≤ 200)
    (hid : -2 ^ 63 ≤ submit.sbmId ∧ submit.sbmId < 2 ^ 63) :
    outputName ctx submit n = outputName ctx submit m ↔ n % 100000 = m % 100000 := by
  rw [outputName_eq hdir hid, outputName_eq hdir hid, String.append_left_inj,
    String.append_right_inj]
  constructor
  · exact fourDigits_injective
  · intro h
    rw [h]

end Names

/-! ### The numbers -/

section Counter

variable {W : Type*} [DecidableEq W]

/-- **The calls of `get_result_count` by one worker**, in a sequence of accesses: what each of
them returns, with the number of calls of all the workers that have written until then. -/
def resultCalls (me : W) (c : SharedCounter W ℕ) (turns : List W) : List (ℕ × ℕ) :=
  c.calls nextResultCount me 0 turns

/-- The counter goes on with every call, up to multiples of a million. -/
theorem iterate_nextResultCount (n start : ℕ) :
    nextResultCount^[n] start % 1000000 = (start + n) % 1000000 := by
  induction n with
  | zero => rfl
  | succ n ih =>
    rw [Function.iterate_succ_apply', nextResultCount, Nat.mod_mod]
    omega

end Counter

/-! ### The names of a judging -/

section Judging

variable {jdg : Judge} {submit : Submission} {rl : ResourceLimit} {block heap : SyscallLimits}
  {run : TestRun} {runs : ℕ → TestRun} {tc : TestCase} {tcs : List TestCase}
  {s s' : TestsState ctx} {results : List Result} {res : Result} {counts : List ℕ}
  {vs : List NojResult}

/-- A result with the name of its output, by the number for it. -/
def namedResult (ctx : LoadContext) (submit : Submission) (count : ℕ) (res : Result) : Result :=
  if res.resType.Kept then { res with resOutputFile := outputName ctx submit count } else res

theorem namedResult_resType (count : ℕ) :
    (namedResult ctx submit count res).resType = res.resType := by
  rw [namedResult]
  split <;> rfl

theorem keepOutputWith_fst (count : ℕ) (st : DaemonState ctx) :
    (keepOutputWith (resultCountOf count) jdg submit res st).1
      = namedResult ctx submit count res := by
  rw [keepOutputWith, namedResult]
  by_cases hkept : res.resType.Kept
  · have hkept' : res.resType = .wrongAnswer ∨ res.resType = .presentationError := hkept
    rw [if_pos hkept', if_pos hkept]
    rfl
  · have hkept' : ¬(res.resType = .wrongAnswer ∨ res.resType = .presentationError) := hkept
    rw [if_neg hkept', if_neg hkept]

theorem TestsInv.lastKept_iff (hinv : TestsInv submit rl block heap (results ++ [res]) s) :
    s.LastKept ↔ res.resType.Kept := by
  simp only [TestsState.LastKept, hinv.submit_eq, ← List.append_assoc, List.getLast?_concat,
    Option.mem_def, Option.some.injEq, exists_eq_left']

/-- **Step lemma**: a round gives its result the name with the number, if it is kept. -/
theorem judgeTestAmong_named (count : ℕ) (hinv : TestsInv submit rl block heap results s)
    (hres : testResult ctx jdg submit rl block run tc = .ret res) :
    ∃ s', judgeTestAmong jdg heap count run tc s = .ret s' ∧
      TestsInv submit rl block heap (results ++ [namedResult ctx submit count res]) s' ∧
      (s'.LastKept ↔ res.resType.Kept) := by
  have hcall : ∀ st : DaemonState ctx, (resultCountOf count st).2.sysCallInit = st.sysCallInit :=
    fun _ => rfl
  obtain ⟨s', htest, -, hinv'⟩ := judgeTestWith_of_result hcall hinv hres
  have hname : namedResult ctx s.submit count res = namedResult ctx submit count res := by
    simp only [namedResult, outputName, hinv.submit_eq]
  rw [keepOutputWith_fst, hname] at hinv'
  exact ⟨s', htest, hinv', by rw [hinv'.lastKept_iff, namedResult_resType]⟩

/-- The result of a round that returned, whatever the number for its output. -/
theorem exists_result_of_judgeTestAmong {count : ℕ}
    (hinv : TestsInv submit rl block heap results s)
    (h : judgeTestAmong jdg heap count run tc s = .ret s') :
    ∃ res, testResult ctx jdg submit rl block run tc = .ret res := by
  obtain ⟨x, hx, -⟩ := bind_eq_ret_iff.mp h
  exact ⟨_, bind_eq_ret_iff.mpr ⟨x, (launch_of_testsInv hinv).symm.trans hx, rfl⟩⟩

/-- **Run lemma**: the outputs that are kept are named by the numbers, in their order. -/
theorem judgeTestsAmong_names (n : ℕ) (hinv : TestsInv submit rl block heap results s)
    (hvs : testVerdicts ctx jdg submit rl block runs n tcs = .ret vs)
    (hlength : vs.countP (·.Kept) ≤ counts.length) :
    ∃ s' results', judgeTestsAmong jdg heap runs n counts tcs s = .ret s' ∧
      TestsInv submit rl block heap (results ++ results') s' ∧
      (results'.filter fun res => res.resType.Kept).map Result.resOutputFile =
        (counts.take (vs.countP (·.Kept))).map (outputName ctx submit) := by
  induction tcs generalizing n counts s results vs with
  | nil =>
    obtain rfl : [] = vs := ret.inj hvs
    exact ⟨s, [], rfl, by rwa [List.append_nil], rfl⟩
  | cons tc tcs ih =>
    obtain ⟨v, hv, hrest⟩ := bind_eq_ret_iff.mp hvs
    obtain ⟨ws, hws, hcons⟩ := bind_eq_ret_iff.mp hrest
    rw [testVerdict_eq_bind] at hv
    obtain ⟨res, hres, htype⟩ := bind_eq_ret_iff.mp hv
    obtain rfl : res.resType = v := ret.inj htype
    obtain rfl : res.resType :: ws = vs := ret.inj hcons
    obtain ⟨s₁, htest, hinv₁, hlast⟩ := judgeTestAmong_named (counts.headD 0) hinv hres
    by_cases hkept : res.resType.Kept
    · rw [List.countP_cons_of_pos (by simpa using hkept)] at hlength
      obtain ⟨count, counts, rfl⟩ : ∃ count rest, counts = count :: rest :=
        List.exists_cons_of_length_pos (by omega)
      rw [namedResult, if_pos hkept] at hinv₁
      have hle : ws.countP (·.Kept) ≤ counts.length := Nat.le_of_succ_le_succ hlength
      obtain ⟨s', results', hloop, hinv', hnames⟩ := ih (n + 1) hinv₁ hws hle
      refine ⟨s', _ :: results', ?_, by rwa [List.append_cons], ?_⟩
      · simp only [judgeTestsAmong, bind_def, htest, ret_bind, if_pos (hlast.mpr hkept), hloop]
      · rw [List.filter_cons_of_pos (by simpa using hkept), List.map_cons, hnames,
          List.countP_cons_of_pos (by simpa using hkept), List.take_succ_cons, List.map_cons]
        rfl
    · rw [List.countP_cons_of_neg (by simpa using hkept)] at hlength ⊢
      rw [namedResult, if_neg hkept] at hinv₁
      obtain ⟨s', results', hloop, hinv', hnames⟩ := ih (n + 1) hinv₁ hws hlength
      refine ⟨s', _ :: results', ?_, by rwa [List.append_cons], ?_⟩
      · simp only [judgeTestsAmong, bind_def, htest, ret_bind, if_neg (mt hlast.mp hkept), hloop]
      · rw [List.filter_cons_of_neg (by simpa using hkept), hnames]

/-- A loop that returned has had a number for every output that is kept. -/
theorem exists_verdicts_of_judgeTestsAmong (n : ℕ)
    (hinv : TestsInv submit rl block heap results s)
    (h : judgeTestsAmong jdg heap runs n counts tcs s = .ret s') :
    ∃ vs, testVerdicts ctx jdg submit rl block runs n tcs = .ret vs ∧
      vs.countP (·.Kept) ≤ counts.length := by
  induction tcs generalizing n counts s results with
  | nil => exact ⟨[], rfl, Nat.zero_le _⟩
  | cons tc tcs ih =>
    obtain ⟨s₁, htest, hloop⟩ := bind_eq_ret_iff.mp h
    obtain ⟨res, hres⟩ := exists_result_of_judgeTestAmong hinv htest
    obtain ⟨s₂, htest', hinv₂, hlast⟩ := judgeTestAmong_named (counts.headD 0) hinv hres
    obtain rfl : s₁ = s₂ := ret.inj (htest.symm.trans htest')
    have hv : testVerdict ctx jdg submit rl block (runs n) tc = .ret res.resType := by
      rw [testVerdict_eq_bind, hres, ret_bind]
    have hcons : ∀ vs, testVerdicts ctx jdg submit rl block runs (n + 1) tcs = .ret vs →
        testVerdicts ctx jdg submit rl block runs n (tc :: tcs) = .ret (res.resType :: vs) := by
      intro vs hvs
      rw [testVerdicts, bind_def, hv, ret_bind, bind_def, hvs, ret_bind]
    by_cases hkept : res.resType.Kept
    · rw [if_pos (hlast.mpr hkept)] at hloop
      cases counts with
      | nil => cases hloop
      | cons count counts =>
        obtain ⟨vs, hvs, hle⟩ := ih (n + 1) hinv₂ hloop
        refine ⟨res.resType :: vs, hcons vs hvs, ?_⟩
        rw [List.countP_cons_of_pos (by simpa using hkept), List.length_cons]
        omega
    · rw [if_neg (mt hlast.mp hkept)] at hloop
      obtain ⟨vs, hvs, hle⟩ := ih (n + 1) hinv₂ hloop
      refine ⟨res.resType :: vs, hcons vs hvs, ?_⟩
      rwa [List.countP_cons_of_neg (by simpa using hkept)]

end Judging

/-! ### A worker alone -/

section Alone

variable {W : Type*} [DecidableEq W] {lang : LangCDebug} {jdg : Judge} {submit : Submission}
  {st : DaemonState ctx} {replies : JudgeReplies} {heap : SyscallLimits} {run : TestRun}
  {runs : ℕ → TestRun} {tc : TestCase} {tcs : List TestCase} {s s' : TestsState ctx} {me : W}

theorem keepOutput_resultCount (res : Result) (st : DaemonState ctx) :
    (keepOutput jdg submit res st).2.resultCount =
      if (keepOutput jdg submit res st).1.resType.Kept then nextResultCount st.resultCount
      else st.resultCount := by
  rw [keepOutput, keepOutputWith]
  by_cases hkept : res.resType.Kept
  · have hkept' : res.resType = .wrongAnswer ∨ res.resType = .presentationError := hkept
    simp only [if_pos hkept', if_pos hkept]
    rfl
  · have hkept' : ¬(res.resType = .wrongAnswer ∨ res.resType = .presentationError) := hkept
    simp only [if_neg hkept', if_neg hkept]

/-- A round counts its output, if it is kept. -/
theorem judgeTest_resultCount (h : judgeTest jdg heap run tc s = .ret s') :
    s'.st.resultCount =
      if s'.LastKept then nextResultCount s.st.resultCount else s.st.resultCount := by
  obtain ⟨x, -, hret⟩ := bind_eq_ret_iff.mp h
  obtain ⟨res, st, hcount, hst, hresults⟩ : ∃ res st, st.resultCount = s.st.resultCount ∧
      s'.st = (keepOutput jdg s.submit res st).2 ∧
      s'.submit.sbmResults = s.submit.sbmResults ++ [(keepOutput jdg s.submit res st).1] :=
    ⟨_, _, rfl, congrArg TestsState.st (ret.inj hret).symm,
      congrArg (fun s => s.submit.sbmResults) (ret.inj hret).symm⟩
  simp only [TestsState.LastKept, hresults, List.getLast?_concat, Option.mem_def,
    Option.some.injEq, exists_eq_left', hst, ← hcount]
  exact keepOutput_resultCount res st

theorem judgeTestsAmong_alone (n m : ℕ) (h : tcs.length ≤ m) :
    judgeTestsAmong jdg heap runs n
        ((List.range m).map fun i => nextResultCount^[i + 1] s.st.resultCount) tcs s
      = judgeTests jdg heap runs n tcs s := by
  induction tcs generalizing n m s with
  | nil => rfl
  | cons tc tcs ih =>
    cases m with
    | zero => cases h
    | succ m =>
      have hle : tcs.length ≤ m := Nat.le_of_succ_le_succ h
      have hcounts (count : ℕ) : ((List.range (m + 1)).map fun i => nextResultCount^[i + 1] count)
          = nextResultCount count ::
            (List.range m).map fun i => nextResultCount^[i + 1] (nextResultCount count) := by
        rw [List.range_succ_eq_map, List.map_cons, List.map_map]
        rfl
      have hsame : judgeTestAmong jdg heap (nextResultCount s.st.resultCount) (runs n) tc s
          = judgeTest jdg heap (runs n) tc s := rfl
      rw [hcounts, judgeTestsAmong, judgeTests, List.headD_cons, hsame, bind_def, bind_def]
      cases htest : judgeTest jdg heap (runs n) tc s with
      | fault e => rfl
      | pending => rfl
      | ret s' =>
        have hcount := judgeTest_resultCount htest
        rw [ret_bind, ret_bind]
        by_cases hkept : s'.LastKept
        · rw [if_pos hkept] at hcount ⊢
          rw [← hcount, ← ih (n + 1) m hle]
        · rw [if_neg hkept] at hcount ⊢
          rw [← hcount, ← hcounts, ih (n + 1) (m + 1) (by omega)]

/-- **Without other workers** it is `LangC::judge` itself. -/
theorem judgeAmong_alone {place : W → CounterPlace ℕ} (m : ℕ) (hme : place me = .outside)
    (h : ∀ prob, problemOf submit st replies = .ret prob → prob.probTestcases.length ≤ m) :
    judgeAmong lang jdg submit st replies
        ((resultCalls me ⟨st.resultCount, place⟩
          (SharedCounter.whole (List.replicate m me))).map Prod.snd)
      = judge lang jdg submit st replies := by
  have hcounts : (resultCalls me ⟨st.resultCount, place⟩
      (SharedCounter.whole (List.replicate m me))).map Prod.snd = _ :=
    SharedCounter.calls_whole_alone m hme
  rw [hcounts, judgeAmong_eq, judge_eq]
  cases hprob : problemOf submit st replies with
  | fault e => rfl
  | pending => rfl
  | ret prob =>
    have hloop : judgeTestsAmong jdg replies.heap replies.tests 0
        ((List.range m).map fun i => nextResultCount^[i + 1] st.resultCount) prob.probTestcases
        (testsStart jdg submit st replies prob) = testsOf jdg submit st replies prob :=
      judgeTestsAmong_alone (s := testsStart jdg submit st replies prob) 0 m (h prob hprob)
    simp only [ret_bind, hloop]

end Alone

/-! ### When the names are different -/

section Distinct

variable {W : Type*} [DecidableEq W] {lang : LangCDebug} {jdg : Judge} {submit : Submission}
  {st : DaemonState ctx} {replies : JudgeReplies} {me : W} {c : SharedCounter W ℕ}
  {turns : List W}

/-- **The outputs of one judging do not overwrite each other**: two results that are given names
are given different ones. -/
def OutputNamesDistinct (lang : LangCDebug) (jdg : Judge) (submit : Submission)
    (st : DaemonState ctx) (replies : JudgeReplies) (counts : List ℕ) : Prop :=
  ∀ stat submit' st', judgeAmong lang jdg submit st replies counts = .ret (stat, submit', st') →
    ∃ results, submit'.sbmResults = submit.sbmResults ++ results ∧
      ((results.filter fun res => res.resType.Kept).map Result.resOutputFile).Nodup

/-- **No two outputs are kept a multiple of `100000` calls apart**, if the calls for all of them
return. -/
def CallsApart (calls : List (ℕ × ℕ)) (vs : List NojResult) : Prop :=
  vs.countP (·.Kept) ≤ calls.length →
    (calls.take (vs.countP (·.Kept))).Pairwise fun p q => ¬100000 ∣ q.1 - p.1

/-- The names that calls without an overlap lead to. -/
theorem outputName_eq_iff_of_noOverlap (hdir : ctx.workDir.length ≤ 200)
    (hid : -2 ^ 63 ≤ submit.sbmId ∧ submit.sbmId < 2 ^ 63)
    (hserial : c.NoOverlap nextResultCount turns) {p q : ℕ × ℕ} (hp : p ∈ resultCalls me c turns)
    (hq : q ∈ resultCalls me c turns) (hlt : p.1 < q.1) :
    outputName ctx submit p.2 = outputName ctx submit q.2 ↔ 100000 ∣ q.1 - p.1 := by
  have hnumber : ∀ x ∈ resultCalls me c turns, x.2 % 100000 = (c.value + x.1) % 100000 := by
    intro x hx
    have hmod := iterate_nextResultCount x.1 c.value
    have hcall : x.2 = nextResultCount^[x.1] c.value :=
      SharedCounter.eq_iterate_of_mem_calls rfl hserial hx
    omega
  rw [outputName_eq_iff hdir hid, hnumber p hp, hnumber q hq]
  omega

theorem nodup_outputNames_iff (hdir : ctx.workDir.length ≤ 200)
    (hid : -2 ^ 63 ≤ submit.sbmId ∧ submit.sbmId < 2 ^ 63)
    (hserial : c.NoOverlap nextResultCount turns) (k : ℕ) :
    ((((resultCalls me c turns).map Prod.snd).take k).map (outputName ctx submit)).Nodup ↔
      ((resultCalls me c turns).take k).Pairwise fun p q => ¬100000 ∣ q.1 - p.1 := by
  have hsub : ((resultCalls me c turns).take k).Sublist (resultCalls me c turns) :=
    List.take_sublist _ _
  have hordered : ((resultCalls me c turns).take k).Pairwise fun p q => p.1 < q.1 :=
    SharedCounter.calls_pairwise_lt.sublist hsub
  have hiff : ∀ {p q}, p ∈ (resultCalls me c turns).take k → q ∈ (resultCalls me c turns).take k →
      p.1 < q.1 → (outputName ctx submit p.2 ≠ outputName ctx submit q.2 ↔ ¬100000 ∣ q.1 - p.1) :=
    fun hp hq hlt => not_congr
      (outputName_eq_iff_of_noOverlap hdir hid hserial (hsub.subset hp) (hsub.subset hq) hlt)
  rw [← List.map_take, List.map_map, List.Nodup, List.pairwise_map]
  constructor
  · intro h
    exact (hordered.and h).imp_of_mem fun hp hq hand => (hiff hp hq hand.1).mp hand.2
  · intro h
    exact (hordered.and h).imp_of_mem fun hp hq hand => (hiff hp hq hand.1).mpr hand.2

/-- **The names of a submission that compiles**, by the numbers that the calls return. -/
theorem judgeAmong_names {prob : Problem} {res : Result} {vs : List NojResult} {counts : List ℕ}
    (hprob : problemOf submit st replies = .ret prob)
    (hres : compilationOf ctx lang jdg submit replies = .ret res)
    (hpass : res.resType = .compilePass) (hvs : verdictsOf jdg submit st replies prob = .ret vs)
    (hlength : vs.countP (·.Kept) ≤ counts.length) :
    ∃ submit' st' results,
      judgeAmong lang jdg submit st replies counts = .ret (.normal, submit', st') ∧
      submit'.sbmResults = submit.sbmResults ++ results ∧
      (results.filter fun res => res.resType.Kept).map Result.resOutputFile =
        (counts.take (vs.countP (·.Kept))).map (outputName ctx submit) := by
  obtain ⟨s, results, hloop, hinv, hnames⟩ := judgeTestsAmong_names 0
    (testsInv_start jdg submit st replies prob) hvs hlength
  have hjudge : judgeAmong lang jdg submit st replies counts = _ := judgeAmong_eq
  rw [hprob, ret_bind, hres, ret_bind, if_neg (not_not.mpr hpass), hloop, ret_bind] at hjudge
  exact ⟨_, _, results, hjudge, by simp only [hinv.submit_eq, List.nil_append], hnames⟩

/-- **Inversion of judging among other workers**: it has compiled the submission, and where that
passed, every test case has its verdict and every output that is kept a number. -/
theorem judgeAmong_cases {stat : NojState} {submit' : Submission} {st' : DaemonState ctx}
    {counts : List ℕ}
    (h : judgeAmong lang jdg submit st replies counts = .ret (stat, submit', st')) :
    (∃ res, submit'.sbmResults = submit.sbmResults ++ [res]) ∨
      ∃ prob res vs, problemOf submit st replies = .ret prob ∧
        compilationOf ctx lang jdg submit replies = .ret res ∧ res.resType = .compilePass ∧
        verdictsOf jdg submit st replies prob = .ret vs ∧
        vs.countP (·.Kept) ≤ counts.length := by
  rw [judgeAmong_eq] at h
  obtain ⟨prob, hprob, h⟩ := bind_eq_ret_iff.mp h
  obtain ⟨res, hres, h⟩ := bind_eq_ret_iff.mp h
  by_cases hpass : res.resType = .compilePass
  · rw [if_neg (not_not.mpr hpass)] at h
    obtain ⟨s, htests, -⟩ := bind_eq_ret_iff.mp h
    obtain ⟨vs, hvs, hle⟩ := exists_verdicts_of_judgeTestsAmong 0
      (testsInv_start jdg submit st replies prob) htests
    exact Or.inr ⟨prob, res, vs, hprob, hres, hpass, hvs, hle⟩
  · rw [if_pos hpass] at h
    obtain ⟨-, rfl, -⟩ : _ ∧ _ = submit' ∧ _ := by simpa using h
    exact Or.inl ⟨res, rfl⟩

/-- **When the outputs have different names**: in every sequence of accesses in which no two calls
of `get_result_count` overlap, exactly if no two results of the judging that are kept are a
multiple of `100000` calls apart. -/
theorem outputNames_distinct_iff (lang : LangCDebug) (jdg : Judge) (submit : Submission)
    (st : DaemonState ctx) (replies : JudgeReplies) (me : W) (place : W → CounterPlace ℕ)
    (turns : List W) (hdir : ctx.workDir.length ≤ 200)
    (hid : -2 ^ 63 ≤ submit.sbmId ∧ submit.sbmId < 2 ^ 63)
    (hserial : SharedCounter.NoOverlap nextResultCount ⟨st.resultCount, place⟩ turns) :
    OutputNamesDistinct lang jdg submit st replies
        ((resultCalls me ⟨st.resultCount, place⟩ turns).map Prod.snd) ↔
      ∀ prob res vs, problemOf submit st replies = .ret prob →
        compilationOf ctx lang jdg submit replies = .ret res → res.resType = .compilePass →
          verdictsOf jdg submit st replies prob = .ret vs →
            CallsApart (resultCalls me ⟨st.resultCount, place⟩ turns) vs := by
  constructor
  · intro h prob res vs hprob hres hpass hvs hlength
    have hle : vs.countP (·.Kept) ≤
        ((resultCalls me ⟨st.resultCount, place⟩ turns).map Prod.snd).length := by
      rwa [List.length_map]
    obtain ⟨submit', st', results, hjudge, hresults, hnames⟩ :=
      judgeAmong_names hprob hres hpass hvs hle
    obtain ⟨results', hresults', hnodup⟩ := h _ _ _ hjudge
    obtain rfl : results = results' := List.append_cancel_left (hresults.symm.trans hresults')
    rw [hnames] at hnodup
    exact (nodup_outputNames_iff hdir hid hserial _).mp hnodup
  · intro h stat submit' st' hjudge
    rcases judgeAmong_cases hjudge with
      ⟨res, hresults⟩ | ⟨prob, res, vs, hprob, hres, hpass, hvs, hle⟩
    · exact ⟨[res], hresults, (List.pairwise_singleton _ res.resOutputFile).sublist
        (List.filter_sublist.map _)⟩
    · obtain ⟨submit'', st'', results, hjudge', hresults, hnames⟩ :=
        judgeAmong_names hprob hres hpass hvs hle
      obtain ⟨-, rfl, -⟩ : _ ∧ submit' = submit'' ∧ _ := by simpa using hjudge.symm.trans hjudge'
      refine ⟨results, hresults, ?_⟩
      rw [hnames]
      exact (nodup_outputNames_iff hdir hid hserial _).mpr
        (h prob res vs hprob hres hpass hvs (by rwa [List.length_map] at hle))

/-- A problem with two test cases, both of which the program answers wrongly. -/
def twoWrongAnswers : JudgeReplies where
  load :=
    { limits := .rows [⟨some "1000", some "65536000"⟩]
      tests := .rows [⟨some "5", some "5.in", some "5.out"⟩, ⟨some "6", some "6.in", some "6.out"⟩]
      downloads := fun _ => ⟨fun _ => 0, fun _ => 0⟩
      leftover := fun _ => 0 }
  compile _ _ := ⟨0, some 4242, some (.status 0), []⟩
  tests _ := ⟨⟨some 4243, [⟨.exited 0, ⟨⟨0, 40000⟩, ⟨0, 0⟩, 100⟩, 0⟩], some 0⟩,
    ⟨fun _ => 256, fun _ => 256⟩⟩
  heap _ := 0

theorem verdictsOf_twoWrongAnswers : ∃ prob,
    problemOf (.released 1000 7) (.start nojContext) twoWrongAnswers = .ret prob ∧
    verdictsOf ⟨"/home/noj/judge0", 1001⟩ (.released 1000 7) (.start nojContext) twoWrongAnswers
      prob = .ret [.wrongAnswer, .wrongAnswer] :=
  ⟨_, rfl, rfl⟩

theorem compilationOf_twoWrongAnswers : ∃ res,
    compilationOf nojContext ⟨some "/etc/noj/compile_c_release.sh"⟩ ⟨"/home/noj/judge0", 1001⟩
      (.released 1000 7) twoWrongAnswers = .ret res ∧ res.resType = .compilePass :=
  ⟨_, rfl, rfl⟩

/-- With the call of another worker between them, the two wrong answers get different names. -/
theorem outputNames_twoWrongAnswers : OutputNamesDistinct
    ⟨some "/etc/noj/compile_c_release.sh"⟩ ⟨"/home/noj/judge0", 1001⟩ (.released 1000 7)
    (.start nojContext) twoWrongAnswers
    ((resultCalls 0 ⟨0, fun _ => .outside⟩ (SharedCounter.whole [(0 : Fin 3), 1, 0])).map
      Prod.snd) := by
  refine (outputNames_distinct_iff ⟨some "/etc/noj/compile_c_release.sh"⟩
    ⟨"/home/noj/judge0", 1001⟩ (.released 1000 7) (.start nojContext) twoWrongAnswers 0
    (fun _ => .outside) _ (by decide +kernel) (by decide)
    (SharedCounter.noOverlap_whole _ fun _ => rfl)).mpr ?_
  intro prob res vs hprob _ _ hvs
  obtain ⟨prob', hprob', hvs'⟩ := verdictsOf_twoWrongAnswers
  obtain rfl : prob = prob' := ret.inj (hprob.symm.trans hprob')
  obtain rfl : vs = [.wrongAnswer, .wrongAnswer] := ret.inj (hvs.symm.trans hvs')
  intro _
  change List.Pairwise _ [(1, 1), (3, 3)]
  decide

theorem not_outputNamesDistinct_twoWrongAnswers {n m : ℕ} (h : n % 100000 = m % 100000) :
    ¬OutputNamesDistinct ⟨some "/etc/noj/compile_c_release.sh"⟩ ⟨"/home/noj/judge0", 1001⟩
      (.released 1000 7) (.start nojContext) twoWrongAnswers [n, m] := by
  obtain ⟨prob, hprob, hvs⟩ := verdictsOf_twoWrongAnswers
  obtain ⟨res, hres, hpass⟩ := compilationOf_twoWrongAnswers
  have hle : List.countP (·.Kept) [NojResult.wrongAnswer, .wrongAnswer] ≤ [n, m].length :=
    Nat.le_refl 2
  obtain ⟨submit, st, results, hjudge, hresults, hnames⟩ :=
    judgeAmong_names hprob hres hpass hvs hle
  intro hdistinct
  obtain ⟨results', hresults', hnodup⟩ := hdistinct _ _ _ hjudge
  obtain rfl : results = results' := List.append_cancel_left (hresults.symm.trans hresults')
  have hsame : outputName nojContext (.released 1000 7) n
      = outputName nojContext (.released 1000 7) m := by
    rw [outputName, outputName, h]
  rw [hnames] at hnodup
  change List.Nodup [_, _] at hnodup
  simp [hsame] at hnodup

/-- **An output that is overwritten**, in two ways. Other workers keep `99999` outputs between the
two. Or a third worker reads the counter before a second one and this one count, and writes
what follows on what it has read only then: this worker is given the number `2` again. -/
theorem outputNames_overwritten :
    ¬OutputNamesDistinct ⟨some "/etc/noj/compile_c_release.sh"⟩ ⟨"/home/noj/judge0", 1001⟩
      (.released 1000 7) (.start nojContext) twoWrongAnswers
      ((resultCalls 0 ⟨0, fun _ => .outside⟩
        (SharedCounter.whole ((0 : Fin 3) :: (List.replicate 99999 1 ++ [0])))).map Prod.snd) ∧
    ¬OutputNamesDistinct ⟨some "/etc/noj/compile_c_release.sh"⟩ ⟨"/home/noj/judge0", 1001⟩
      (.released 1000 7) (.start nojContext) twoWrongAnswers
      ((resultCalls 0 ⟨0, fun _ => .outside⟩
        [(2 : Fin 3), 1, 1, 1, 0, 0, 0, 2, 2, 0, 0, 0]).map Prod.snd) := by
  constructor
  · have hcalls (k : ℕ) : (resultCalls 0 ⟨0, fun _ => .outside⟩
        (SharedCounter.whole ((0 : Fin 3) :: (List.replicate k 1 ++ [0])))).map Prod.snd
          = [1, nextResultCount (nextResultCount^[k] 1)] := by
      rw [resultCalls, SharedCounter.calls_whole_cons rfl, if_pos rfl,
        SharedCounter.calls_whole_replicate k (by decide) fun _ => rfl,
        SharedCounter.calls_whole_cons rfl, if_pos rfl]
      rfl
    have hoverwritten (k : ℕ) (h : nextResultCount^[k + 1] 1 % 100000 = 1 % 100000) :
        ¬OutputNamesDistinct ⟨some "/etc/noj/compile_c_release.sh"⟩ ⟨"/home/noj/judge0", 1001⟩
          (.released 1000 7) (.start nojContext) twoWrongAnswers
          ((resultCalls 0 ⟨0, fun _ => .outside⟩
            (SharedCounter.whole ((0 : Fin 3) :: (List.replicate k 1 ++ [0])))).map Prod.snd) := by
      rw [Function.iterate_succ_apply'] at h
      rw [hcalls]
      exact not_outputNamesDistinct_twoWrongAnswers h.symm
    have hmod := iterate_nextResultCount (99999 + 1) 1
    exact hoverwritten 99999 (by omega)
  · exact not_outputNamesDistinct_twoWrongAnswers (n := 2) (m := 2) rfl

end Distinct

end NpuOj
