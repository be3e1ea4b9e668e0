import Mathlib.Order.Lattice
import Mathlib.Algebra.Order.Ring.Int
import Mathlib.Tactic.Tauto
import Mathlib.Tactic.SplitIfs
import NpuOj.Lang.Launch

/-!
# The verdict of a supervised run

The loop of `LangC::launch` carries a running maximum, a table of budgets that it
charges and five ways out, and a second check of memory may overwrite what the loop
decided. `NpuOj.launchParent_verdict` states what comes out without any of them:
the verdict is that of the first event that has one, in the order memory, time, exit
status, signal, system call, unless the last sample exceeds the memory limit.

The invariant that carries the proof is `NpuOj.LoopInv`: while the loop goes on, the
running maximum is within the limit, and every budget is its initial value less the
number of events that were charged to it.

The numbers in the table are the ones from `0` to `511`, and nothing in the loop
compares the number that the program leaves in the register with them;
`NpuOj.launchLoop_index_iff` says what becomes of a run in which another number
arrives.
-/

namespace NpuOj

open Posix

variable {pf : Platform} {rl : ResourceLimit} {st : LaunchState} {e : WaitEvent}
  {pre events : List WaitEvent} {submit : Submission}
  {check check' : LaunchState → ℤ → LoopFlow Fault LaunchState}

/-! ### The guards of the body -/

theorem overTime_iff :
    0 < getRlCpuMillisecond rl ∧ getRlCpuMillisecond rl < cpuTime e ↔ OverTime rl e := by
  rw [getRlCpuMillisecond_eq, OverTime]
  cases h : timeLimit rl with
  | none => simp
  | some l =>
    have hl := one_le_of_timeLimit h
    simp only [Option.getD_some, Option.mem_some_iff, exists_eq_left']
    exact ⟨fun hlt => hlt.2, fun hlt => ⟨by omega, hlt⟩⟩

theorem raiseMaxMemory_getByte (res : Result) (cur : ℕ) :
    (raiseMaxMemory res cur).resMaxMemory.getByte = max res.resMaxMemory.getByte cur := by
  rw [raiseMaxMemory, MemorySize.getByte_setByte]
  split <;> omega

/-- The comparison of the running maximum is the comparison of the new sample, as long
as the maximum was within the limit. -/
theorem exceeds_iff {res : Result} (cur : ℕ)
    (h : rl.memoryLimit.isSet = true → res.resMaxMemory.getByte ≤ rl.memoryLimit.getByte) :
    (rl.memoryLimit.isSet && (raiseMaxMemory res cur).resMaxMemory.gt rl.memoryLimit) = true ↔
      rl.memoryLimit.isSet = true ∧ rl.memoryLimit.getByte < cur := by
  rw [Bool.and_eq_true, MemorySize.gt_iff, raiseMaxMemory_getByte]
  refine and_congr_right fun hset => ?_
  have hle := h hset
  omega

/-- The result after the samples of memory and time. -/
def sampled (pf : Platform) (rl : ResourceLimit) (res : Result) (e : WaitEvent) : Result :=
  let res := if rl.memoryLimit.isSet then raiseMaxMemory res (memFigure pf e) else res
  { res with resElapsedTime := res.resElapsedTime.setMillisecond (cpuTime e) }

theorem sampled_getByte_le
    (h : rl.memoryLimit.isSet = true → st.res.resMaxMemory.getByte ≤ rl.memoryLimit.getByte)
    (hm : ¬OverMemory pf rl e) (hset : rl.memoryLimit.isSet = true) :
    (sampled pf rl st.res e).resMaxMemory.getByte ≤ rl.memoryLimit.getByte := by
  have hfig : memFigure pf e ≤ rl.memoryLimit.getByte := not_lt.mp fun hlt => hm ⟨hset, hlt⟩
  have hmax : (sampled pf rl st.res e).resMaxMemory
      = (raiseMaxMemory st.res (memFigure pf e)).resMaxMemory := by
    simp only [sampled, hset, if_true]
  rw [hmax, raiseMaxMemory_getByte]
  exact max_le (h hset) hfig

/-- **The body with its guards read off the event.** -/
theorem launchStepWith_eq
    (h : rl.memoryLimit.isSet = true → st.res.resMaxMemory.getByte ≤ rl.memoryLimit.getByte) :
    launchStepWith check pf rl (getRlCpuMillisecond rl) st e =
      let leave (res : Result) (v : NojResult) := .stop { st with res := res.withType v }
      let stat := e.status.stat
      let res := sampled pf rl st.res e
      if OverMemory pf rl e then
        leave (raiseMaxMemory st.res (memFigure pf e)) .memoryLimitExceed
      else if OverTime rl e then leave res .timeLimitExceed
      else if wifexited stat then
        leave res (if wexitstatus stat = 0 then .runPass else .runtimeError)
      else if wifsignaled stat then leave res (signalVerdict (wtermsig stat))
      else if ¬TrapStop e then leave res (signalVerdict (wstopsig stat))
      else check { st with res := res } e.origAx := by
  have hreported := e.status.reported
  simp only [launchStepWith, TimeUsage.getMillisecond_setMillisecond, overTime_iff]
  by_cases hm : OverMemory pf rl e
  · have hex := (exceeds_iff (memFigure pf e) h).mpr hm
    simp only [hm.1, if_true] at hex ⊢
    rw [if_pos hex, if_pos hm]
  · have hex : ¬(rl.memoryLimit.isSet && (if rl.memoryLimit.isSet then
        raiseMaxMemory st.res (memFigure pf e) else st.res).resMaxMemory.gt rl.memoryLimit)
          = true := by
      cases hset : rl.memoryLimit.isSet with
      | false => simp
      | true =>
        have hnot := mt (exceeds_iff (memFigure pf e) h).mp hm
        simpa only [hset, if_true] using hnot
    rw [if_neg hex, if_neg hm]
    by_cases ht : OverTime rl e
    · rw [if_pos ht, if_pos ht]
      rfl
    · rw [if_neg ht, if_neg ht]
      by_cases hexit : wifexited e.status.stat
      · rw [if_pos hexit, if_pos hexit]
        rfl
      · rw [if_neg hexit, if_neg hexit]
        by_cases hsig : wifsignaled e.status.stat
        · rw [if_pos (Or.inl hsig), if_pos hsig, if_pos hsig]
          rfl
        · -- neither an exit nor a termination: the status is a stop
          have hstop : wifstopped e.status.stat := by tauto
          by_cases htrap : wstopsig e.status.stat = sigtrap
          · rw [if_neg (by tauto), if_neg hsig, if_neg (not_not.mpr ⟨hstop, htrap⟩)]
            rfl
          · rw [if_pos (Or.inr ⟨hstop, htrap⟩), if_neg hsig, if_neg hsig,
              if_pos fun ht => htrap ht.2]
            rfl

/-! ### Charging the budgets -/

/-- The budgets after the given events have been charged to them. -/
def charged (t : SyscallLimits) (pre : List WaitEvent) : SyscallLimits :=
  fun i => if t i < 0 then t i else t i - pre.countP fun e => e.origAx = (i : ℤ)

/-- **The invariant of the loop** after the given events: the running maximum is within
the limit, and the budgets are charged without having gone below zero. -/
structure LoopInv (rl : ResourceLimit) (pre : List WaitEvent) (st : LaunchState) : Prop where
  /-- The running maximum is within the limit. -/
  maxMemory : rl.memoryLimit.isSet = true →
    st.res.resMaxMemory.getByte ≤ rl.memoryLimit.getByte
  /-- The budgets are charged. -/
  budgets : st.syscallLimits = charged rl.syscallLimits pre
  /-- No budget has been overdrawn. -/
  notOverdrawn : ∀ i, 0 ≤ rl.syscallLimits i → 0 ≤ charged rl.syscallLimits pre i

theorem loopInv_nil (rl : ResourceLimit) (submit : Submission) :
    LoopInv rl [] ⟨Result.ofSubmission submit, rl.syscallLimits⟩ where
  maxMemory _ := Nat.zero_le _
  budgets := by
    funext i
    simp [charged]
  notOverdrawn i hi := by
    rw [charged, if_neg (by omega)]
    simpa using hi

theorem countP_snoc_origAx (pre : List WaitEvent) (e : WaitEvent) (i : Fin 512) :
    (pre ++ [e]).countP (fun e => e.origAx = (i : ℤ))
      = pre.countP (fun e => e.origAx = (i : ℤ)) + if e.origAx = (i : ℤ) then 1 else 0 := by
  simp [List.countP_append, List.countP_cons]

/-- One more event charges the budget of its number, if that has a limit. -/
theorem charged_snoc (t : SyscallLimits) (pre : List WaitEvent) {e : WaitEvent} {i : Fin 512}
    (hi : e.origAx = (i : ℤ)) (j : Fin 512) :
    charged t (pre ++ [e]) j = charged t pre j - if i = j ∧ 0 ≤ t j then 1 else 0 := by
  have hij : e.origAx = (j : ℤ) ↔ i = j := by
    rw [hi]
    exact ⟨fun h => Fin.ext (by omega), fun h => by rw [h]⟩
  simp only [charged, countP_snoc_origAx, hij]
  split_ifs <;> push_cast <;> omega

/-- **A call with budget is let through** and charged to its number. -/
theorem checkSyscall_of_budgetLeft (hinv : LoopInv rl pre st)
    (hleft : BudgetLeft rl.syscallLimits pre e) :
    ∃ st', checkSyscall st e.origAx = .next st' ∧ LoopInv rl (pre ++ [e]) st' := by
  obtain ⟨i, htab, hpos⟩ := hleft
  have hi : e.origAx = (i : ℤ) := tableIndex_eq_some_iff.mp htab
  have hsnoc := charged_snoc rl.syscallLimits pre hi
  rw [checkSyscall, htab]
  simp only [hinv.budgets]
  by_cases hneg : rl.syscallLimits i < 0
  · -- no limit: nothing is charged
    have hkeep : charged rl.syscallLimits (pre ++ [e]) = charged rl.syscallLimits pre := by
      funext j
      rw [hsnoc j, if_neg (by rintro ⟨rfl, h⟩; omega), sub_zero]
    have hcur : charged rl.syscallLimits pre i = rl.syscallLimits i := by
      rw [charged, if_pos hneg]
    rw [if_neg (by omega)]
    exact ⟨st, rfl, hinv.maxMemory, hkeep ▸ hinv.budgets, hkeep ▸ hinv.notOverdrawn⟩
  · have hcur : charged rl.syscallLimits pre i
        = rl.syscallLimits i - pre.countP fun e' => e'.origAx = e.origAx := by
      rw [charged, if_neg hneg, hi]
    have hgt : 0 < charged rl.syscallLimits pre i := by omega
    rw [if_pos hgt.le, if_neg hgt.ne']
    refine ⟨_, rfl, hinv.maxMemory, ?_, fun j hj => ?_⟩
    · funext j
      change Function.update _ i _ j = _
      rw [hsnoc j]
      by_cases hij : i = j
      · subst hij
        rw [Function.update_self, if_pos ⟨rfl, by omega⟩]
      · rw [Function.update_of_ne (Ne.symm hij), if_neg fun h => hij h.1, sub_zero]
    · rw [hsnoc j]
      have hnonneg := hinv.notOverdrawn j hj
      split
      · next h =>
        obtain ⟨rfl, -⟩ := h
        omega
      · omega

/-- **A call without budget ends the loop.** -/
theorem checkSyscall_of_not_budgetLeft (hinv : LoopInv rl pre st) (htab : InTable e.origAx)
    (hleft : ¬BudgetLeft rl.syscallLimits pre e) :
    checkSyscall st e.origAx = .stop { st with res := st.res.withType .illegalSystemCall } := by
  obtain ⟨i, hi⟩ := exists_tableIndex htab
  have hnot : ¬(rl.syscallLimits i < 0 ∨
      (pre.countP fun e' => e'.origAx = e.origAx) < rl.syscallLimits i) :=
    fun h => hleft ⟨i, hi, h⟩
  have hzero : charged rl.syscallLimits pre i = 0 := by
    have hnonneg := hinv.notOverdrawn i (by omega)
    rw [charged, if_neg (by omega), ← tableIndex_eq_some_iff.mp hi] at hnonneg ⊢
    omega
  rw [checkSyscall, hi]
  simp only [hinv.budgets, hzero, le_refl, if_true]

theorem checkSyscall_of_not_inTable (h : ¬InTable e.origAx) :
    checkSyscall st e.origAx = .fault (.outOfBounds e.origAx) := by
  rw [checkSyscall, tableIndex_eq_none_iff.mpr h]

/-! ### The body and the verdict on an event -/

/-- **The events that reach the system call check** are the stops by `SIGTRAP` within
the limits of memory and time. -/
def AtCheck (pf : Platform) (rl : ResourceLimit) (e : WaitEvent) : Prop :=
  ¬OverMemory pf rl e ∧ ¬OverTime rl e ∧ TrapStop e

instance : Decidable (AtCheck pf rl e) := inferInstanceAs (Decidable (_ ∧ _))

theorem not_exited_of_trapStop (h : TrapStop e) : ¬wifexited e.status.stat :=
  fun he => not_wifstopped_of_wifexited he h.1

theorem not_signaled_of_trapStop (h : TrapStop e) : ¬wifsignaled e.status.stat :=
  not_wifsignaled_of_wifstopped h.1

theorem launchStepWith_of_atCheck (hinv : LoopInv rl pre st) (h : AtCheck pf rl e) :
    launchStepWith check pf rl (getRlCpuMillisecond rl) st e =
      check { st with res := sampled pf rl st.res e } e.origAx := by
  obtain ⟨hm, ht, htrap⟩ := h
  rw [launchStepWith_eq hinv.maxMemory]
  simp only [if_neg hm, if_neg ht, if_neg (not_exited_of_trapStop htrap),
    if_neg (not_signaled_of_trapStop htrap), if_neg (not_not.mpr htrap)]

theorem launchStep_of_atCheck (hinv : LoopInv rl pre st) (h : AtCheck pf rl e) :
    launchStep pf rl (getRlCpuMillisecond rl) st e =
      checkSyscall { st with res := sampled pf rl st.res e } e.origAx :=
  launchStepWith_of_atCheck hinv h

theorem eventVerdict_of_atCheck (h : AtCheck pf rl e) :
    eventVerdict pf rl pre e
      = if BudgetLeft rl.syscallLimits pre e then none else some .illegalSystemCall := by
  obtain ⟨hm, ht, htrap⟩ := h
  simp only [eventVerdict, if_neg hm, if_neg ht, if_neg (not_exited_of_trapStop htrap),
    if_neg (not_signaled_of_trapStop htrap), if_neg (not_not.mpr htrap)]

theorem eventVerdict_eq_none_iff :
    eventVerdict pf rl pre e = none ↔ AtCheck pf rl e ∧ BudgetLeft rl.syscallLimits pre e := by
  constructor
  · intro h
    have hcheck : AtCheck pf rl e := by
      simp only [eventVerdict] at h
      split_ifs at h with hm ht hexit hsig htrap
      exact ⟨hm, ht, htrap⟩
    rw [eventVerdict_of_atCheck hcheck] at h
    exact ⟨hcheck, by_contra fun hb => by simp [hb] at h⟩
  · rintro ⟨hcheck, hb⟩
    rw [eventVerdict_of_atCheck hcheck, if_pos hb]

theorem signalVerdict_ne_runPass (signo : ℤ) : signalVerdict signo ≠ .runPass := by
  rw [signalVerdict]
  split_ifs <;> decide

theorem eventVerdict_eq_runPass_iff :
    eventVerdict pf rl pre e = some .runPass ↔ ¬OverMemory pf rl e ∧ ¬OverTime rl e ∧
      wifexited e.status.stat ∧ wexitstatus e.status.stat = 0 := by
  simp only [eventVerdict]
  split_ifs with hm ht hexit hcode hsig htrap hb <;>
    simp [*, signalVerdict_ne_runPass]

/-- The samples keep the invariant of the maximum. -/
theorem LoopInv.sampled (hinv : LoopInv rl pre st) (hm : ¬OverMemory pf rl e) :
    LoopInv rl pre { st with res := sampled pf rl st.res e } where
  maxMemory := sampled_getByte_le hinv.maxMemory hm
  budgets := hinv.budgets
  notOverdrawn := hinv.notOverdrawn

/-- **The step lemma of the loop, for an event without a verdict.** -/
theorem launchStep_next (hinv : LoopInv rl pre st) (hv : eventVerdict pf rl pre e = none) :
    ∃ st', launchStep pf rl (getRlCpuMillisecond rl) st e = .next st' ∧
      LoopInv rl (pre ++ [e]) st' := by
  obtain ⟨hcheck, hleft⟩ := eventVerdict_eq_none_iff.mp hv
  rw [launchStep_of_atCheck hinv hcheck]
  exact checkSyscall_of_budgetLeft (hinv.sampled hcheck.1) hleft

/-- **The step lemma of the loop, for an event with a verdict**: the loop is left with
it, if the number of a call that is checked lies in the table. The maximum is within
the limit, except where the verdict says that it is not. -/
theorem launchStep_stop {v : NojResult} (hinv : LoopInv rl pre st)
    (hin : AtCheck pf rl e → InTable e.origAx) (hv : eventVerdict pf rl pre e = some v) :
    ∃ st', launchStep pf rl (getRlCpuMillisecond rl) st e = .stop st' ∧ st'.res.resType = v ∧
      (rl.memoryLimit.isSet = true →
        st'.res.resMaxMemory.getByte ≤ rl.memoryLimit.getByte ∨ v = .memoryLimitExceed) := by
  by_cases hcheck : AtCheck pf rl e
  · rw [eventVerdict_of_atCheck hcheck] at hv
    split at hv
    · cases hv
    · next hleft =>
      obtain rfl : .illegalSystemCall = v := by simpa using hv
      have hinv' := hinv.sampled hcheck.1
      rw [launchStep_of_atCheck hinv hcheck,
        checkSyscall_of_not_budgetLeft hinv' (hin hcheck) hleft]
      exact ⟨_, rfl, rfl, fun hset => Or.inl (hinv'.maxMemory hset)⟩
  · -- the exits before the check
    have hmax : ¬OverMemory pf rl e → rl.memoryLimit.isSet = true → _ :=
      sampled_getByte_le hinv.maxMemory
    simp only [eventVerdict] at hv
    rw [launchStep, launchStepWith_eq hinv.maxMemory]
    simp only []
    by_cases hm : OverMemory pf rl e
    · rw [if_pos hm] at hv ⊢
      exact ⟨_, rfl, Option.some.inj hv, fun _ => Or.inr (Option.some.inj hv).symm⟩
    · rw [if_neg hm] at hv ⊢
      have hleave : ∀ w, some w = some v → ∃ st' : LaunchState,
          (LoopFlow.stop { st with res := (sampled pf rl st.res e).withType w } : LoopFlow Fault _)
            = .stop st' ∧ st'.res.resType = v ∧ (rl.memoryLimit.isSet = true →
              st'.res.resMaxMemory.getByte ≤ rl.memoryLimit.getByte ∨ v = .memoryLimitExceed) :=
        fun w hw => ⟨_, rfl, Option.some.inj hw, fun hset => Or.inl (hmax hm hset)⟩
      by_cases ht : OverTime rl e
      · rw [if_pos ht] at hv ⊢
        exact hleave _ hv
      · rw [if_neg ht] at hv ⊢
        by_cases hexit : wifexited e.status.stat
        · rw [if_pos hexit] at hv ⊢
          exact hleave _ hv
        · rw [if_neg hexit] at hv ⊢
          by_cases hsig : wifsignaled e.status.stat
          · rw [if_pos hsig] at hv ⊢
            exact hleave _ hv
          · have htrap : ¬TrapStop e := fun htrap => hcheck ⟨hm, ht, htrap⟩
            rw [if_neg hsig, if_pos htrap] at hv ⊢
            exact hleave _ hv

/-! ### The loop -/

/-- Through the events without a verdict, the loop goes on along its invariant. -/
theorem through_launchStep (submit : Submission) (hpass : Passes (eventVerdict pf rl) pre) :
    ∃ st, through (launchStep pf rl (getRlCpuMillisecond rl))
        ⟨Result.ofSubmission submit, rl.syscallLimits⟩ pre = some st ∧ LoopInv rl pre st :=
  through_of_passes (fun _ _ _ hinv hnone => launchStep_next hinv hnone) (loopInv_nil rl submit)
    hpass

/-- **The loop up to the first event with a verdict.** -/
theorem launchLoop_of_first {v : NojResult} (submit : Submission) (post : List WaitEvent)
    (hin : AtCheck pf rl e → InTable e.origAx) (hpass : Passes (eventVerdict pf rl) pre)
    (hv : eventVerdict pf rl pre e = some v) :
    ∃ st, launchLoop pf rl submit (pre ++ e :: post) = .ret (st, post) ∧ st.res.resType = v ∧
      (rl.memoryLimit.isSet = true →
        st.res.resMaxMemory.getByte ≤ rl.memoryLimit.getByte ∨ v = .memoryLimitExceed) := by
  obtain ⟨m, hthrough, hinv⟩ := through_launchStep submit hpass
  obtain ⟨st', hstop, hpost⟩ := launchStep_stop hinv hin hv
  refine ⟨st', ?_, hpost⟩
  rw [launchLoop, runLoop_append _ hthrough, runLoop_cons_stop hstop]

/-- A loop that has met no event with a verdict waits for the next one. -/
theorem launchLoop_of_passes (hpass : Passes (eventVerdict pf rl) events) :
    launchLoop pf rl submit events = .pending := by
  obtain ⟨m, hthrough, -⟩ := through_launchStep submit hpass
  have h := runLoop_append [] hthrough
  rw [List.append_nil] at h
  rw [launchLoop, h, runLoop]

/-- A loop that meets a number outside the table reads there. -/
theorem launchLoop_of_not_inTable (submit : Submission) (post : List WaitEvent)
    (hpass : Passes (eventVerdict pf rl) pre) (hcheck : AtCheck pf rl e)
    (hout : ¬InTable e.origAx) :
    launchLoop pf rl submit (pre ++ e :: post) = .fault (.outOfBounds e.origAx) := by
  obtain ⟨m, hthrough, hinv⟩ := through_launchStep submit hpass
  have hfault := (launchStep_of_atCheck hinv hcheck).trans (checkSyscall_of_not_inTable hout)
  rw [launchLoop, runLoop_append _ hthrough, runLoop_cons_fault hfault]

/-- **The loop is left**: an event has a verdict, and the number of a call that is checked
lies in the table. -/
def LoopLeft (pf : Platform) (rl : ResourceLimit) (events : List WaitEvent) : Prop :=
  ∃ pre e post, events = pre ++ e :: post ∧ Passes (eventVerdict pf rl) pre ∧
    eventVerdict pf rl pre e ≠ none ∧ (AtCheck pf rl e → InTable e.origAx)

theorem exists_launchLoop_iff :
    (∃ r, launchLoop pf rl submit events = .ret r) ↔ LoopLeft pf rl events := by
  constructor
  · rintro ⟨r, hret⟩
    rcases passes_or_exists_first (eventVerdict pf rl) events with
      hpass | ⟨pre, e, post, v, rfl, hpass, hv⟩
    · exact absurd (hret.symm.trans (launchLoop_of_passes hpass)) (by simp)
    · refine ⟨pre, e, post, rfl, hpass, by simp [hv], fun hcheck => by_contra fun hout => ?_⟩
      have hfault := launchLoop_of_not_inTable submit post hpass hcheck hout
      exact absurd (hret.symm.trans hfault) (by simp)
  · rintro ⟨pre, e, post, rfl, hpass, hv, hin⟩
    obtain ⟨v, hv⟩ := Option.ne_none_iff_exists'.mp hv
    obtain ⟨st, hret, -⟩ := launchLoop_of_first submit post hin hpass hv
    exact ⟨_, hret⟩

/-! ### The verdict of the run -/

/-- The last sample of memory exceeds the limit, if one is set. -/
def OverPeak (pf : Platform) (rl : ResourceLimit) (vmPeak : ℤ) : Prop :=
  rl.memoryLimit.isSet = true ∧ rl.memoryLimit.getByte < pf.toSizeT vmPeak

instance (vmPeak : ℤ) : Decidable (OverPeak pf rl vmPeak) := inferInstanceAs (Decidable (_ ∧ _))

/-- The last sample overwrites the verdict exactly if it exceeds the limit. -/
theorem samplePeak_resType {res : Result} {vmPeak : ℤ}
    (h : rl.memoryLimit.isSet = true →
      res.resMaxMemory.getByte ≤ rl.memoryLimit.getByte ∨ res.resType = .memoryLimitExceed) :
    (samplePeak pf rl res vmPeak).resType
      = if OverPeak pf rl vmPeak then .memoryLimitExceed else res.resType := by
  have hkeep : (raiseMaxMemory res (pf.toSizeT vmPeak)).resType = res.resType := rfl
  simp only [samplePeak]
  by_cases hlim : rl.memoryLimit.isSet = true → res.resMaxMemory.getByte ≤ rl.memoryLimit.getByte
  · have hiff : _ ↔ OverPeak pf rl vmPeak := exceeds_iff _ hlim
    by_cases hpeak : OverPeak pf rl vmPeak
    · rw [if_pos (hiff.mpr hpeak), if_pos hpeak]
      rfl
    · rw [if_neg (mt hiff.mp hpeak), if_neg hpeak, hkeep]
  · -- the loop has already found the maximum over the limit
    obtain ⟨hset, hgt⟩ := Classical.not_imp.mp hlim
    have htype : res.resType = .memoryLimitExceed := (h hset).resolve_left hgt
    rw [htype, ite_self]
    split
    · rfl
    · rw [hkeep, htype]

/-- **The verdict of a supervised run.** Where the loop ends with the last of the given
events, the run passes exactly if every event before the last is a stop at a system
call that still has budget, the last is an exit with status zero, no event exceeds a
limit of memory or time, and the last sample of memory is within the limit. In every
other case the verdict is that of the first event that has one, unless the last sample
exceeds the limit. -/
theorem launchParent_verdict (pf : Platform) (rl : ResourceLimit) (submit : Submission)
    (events : List WaitEvent) (vmPeak : ℤ) (st : LaunchState)
    (htable : ∀ e ∈ events, InTable e.origAx)
    (hends : launchLoop pf rl submit events = .ret (st, [])) :
    ∃ res limits, launchParent pf rl submit events vmPeak = .ret (res, limits) ∧
      (res.resType = .runPass ↔ ∃ pre last, events = pre ++ [last] ∧
        (∀ before e after, pre = before ++ e :: after →
          TrapStop e ∧ BudgetLeft rl.syscallLimits before e) ∧
        (wifexited last.status.stat ∧ wexitstatus last.status.stat = 0) ∧
        (∀ e ∈ events, ¬OverMemory pf rl e) ∧ (∀ e ∈ events, ¬OverTime rl e) ∧
        ¬OverPeak pf rl vmPeak) ∧
      ∃ pre last v, events = pre ++ [last] ∧ Passes (eventVerdict pf rl) pre ∧
        eventVerdict pf rl pre last = some v ∧
        res.resType = if OverPeak pf rl vmPeak then .memoryLimitExceed else v := by
  rcases passes_or_exists_first (eventVerdict pf rl) events with
    hpass | ⟨pre, last, post, v, rfl, hpass, hv⟩
  · -- the loop would still be waiting
    rw [launchLoop_of_passes hpass] at hends
    cases hends
  obtain ⟨st', hloop, htype, hmax⟩ := launchLoop_of_first submit post
    (fun _ => htable last (by simp)) hpass hv
  rw [hloop] at hends
  obtain ⟨rfl, rfl⟩ : st' = st ∧ post = [] := by simpa using hends
  have hres : (samplePeak pf rl st'.res vmPeak).resType
      = if OverPeak pf rl vmPeak then .memoryLimitExceed else v := by
    rw [samplePeak_resType (by rwa [htype]), htype]
  refine ⟨_, _, by rw [launchParent, hloop, Outcome.ret_bind], ?_,
    pre, last, v, rfl, hpass, hv, hres⟩
  rw [hres]
  constructor
  · -- the verdict is that of the last event: an exit, before which all went on
    intro hrun
    have hpeak : ¬OverPeak pf rl vmPeak := fun hpeak => by
      rw [if_pos hpeak] at hrun
      cases hrun
    rw [if_neg hpeak] at hrun
    subst hrun
    obtain ⟨hm, ht, hexit⟩ := eventVerdict_eq_runPass_iff.mp hv
    have hbefore : ∀ before e after, pre = before ++ e :: after →
        AtCheck pf rl e ∧ BudgetLeft rl.syscallLimits before e :=
      fun before e after he => eventVerdict_eq_none_iff.mp (hpass before e after he)
    have hmem : ∀ e ∈ pre ++ [last], ¬OverMemory pf rl e ∧ ¬OverTime rl e := by
      intro e he
      rcases List.mem_append.mp he with he | he
      · obtain ⟨before, after, rfl⟩ := List.append_of_mem he
        obtain ⟨⟨hm, ht, -⟩, -⟩ := hbefore before e after rfl
        exact ⟨hm, ht⟩
      · obtain rfl := List.mem_singleton.mp he
        exact ⟨hm, ht⟩
    exact ⟨pre, last, rfl,
      fun before e after he => ⟨(hbefore before e after he).1.2.2, (hbefore before e after he).2⟩,
      hexit, fun e he => (hmem e he).1, fun e he => (hmem e he).2, hpeak⟩
  · -- no limit is exceeded, so that the exit is what the last event is judged by
    rintro ⟨pre', last', heq, -, hexit, hm, ht, hpeak⟩
    obtain ⟨rfl, hlast⟩ := List.append_inj' heq rfl
    obtain rfl : last = last' := by simpa using hlast
    rw [if_neg hpeak]
    have hpassed : eventVerdict pf rl pre last = some .runPass :=
      eventVerdict_eq_runPass_iff.mpr ⟨hm last (by simp), ht last (by simp), hexit⟩
    exact Option.some.inj (hv.symm.trans hpassed)

/-- A program that calls `write` once and exits. -/
abbrev writeOnce : Submission := .released 1000 7

/-- One call of `write`, one second and one kilobyte. -/
def writeLimits : ResourceLimit where
  memoryLimit := ⟨1024, true⟩
  singleTimeLimit := ⟨1000, true⟩
  syscallLimits i := if i = 1 then 1 else 0

/-- The event of a child with that status and number. -/
def eventOf (status : WaitStatus) (origAx : ℤ) : WaitEvent :=
  ⟨status, ⟨⟨0, 0⟩, ⟨0, 0⟩, 200⟩, origAx⟩

theorem launchParent_writeOnce : ∃ res limits,
    launchParent lp64 writeLimits writeOnce
      [eventOf (.stopped 5) 1, eventOf (.exited 0) 231] 900 = .ret (res, limits) ∧
    res.resType = .runPass := by
  obtain ⟨res, limits, hrun, hpass, -⟩ := launchParent_verdict lp64 writeLimits writeOnce
    [eventOf (.stopped 5) 1, eventOf (.exited 0) 231] 900 _ (by decide) rfl
  refine ⟨res, limits, hrun, hpass.mpr ⟨[eventOf (.stopped 5) 1], _, rfl, ?_, by decide,
    by decide, by decide, by decide⟩⟩
  intro before e after he
  obtain ⟨rfl, rfl, -⟩ : before = [] ∧ e = eventOf (.stopped 5) 1 ∧ after = [] := by
    rcases before with - | ⟨b, before⟩ <;> simp_all
  exact ⟨by decide, 1, tableIndex_eq_some_iff.mpr rfl, Or.inr Int.one_pos⟩

/-! ### The index of the table -/

/-- **When the check stays inside the table.** The run reads no entry outside the table,
and every stop on a number outside it that reaches the check ends with
`illegalSystemCall`, exactly if no stop that reaches the check carries such a number. -/
theorem launchLoop_index_iff (pf : Platform) (rl : ResourceLimit) (submit : Submission)
    (events : List WaitEvent) :
    ((∀ i, launchLoop pf rl submit events ≠ .fault (.outOfBounds i)) ∧
      ∀ pre e post, events = pre ++ e :: post → Passes (eventVerdict pf rl) pre →
        AtCheck pf rl e → ¬InTable e.origAx →
        ∃ st, launchLoop pf rl submit events = .ret (st, post) ∧
          st.res.resType = .illegalSystemCall) ↔
    ∀ pre e post, events = pre ++ e :: post → Passes (eventVerdict pf rl) pre →
      AtCheck pf rl e → InTable e.origAx := by
  constructor
  · -- the loop goes on up to the number outside, and reads there
    rintro ⟨hfault, -⟩ pre e post rfl hpass hcheck
    by_contra hout
    exact hfault e.origAx (launchLoop_of_not_inTable submit post hpass hcheck hout)
  · intro h
    refine ⟨fun i hi => ?_, fun pre e post he hpass hcheck hout =>
      absurd (h pre e post he hpass hcheck) hout⟩
    rcases passes_or_exists_first (eventVerdict pf rl) events with
      hpass | ⟨pre, e, post, v, rfl, hpass, hv⟩
    · rw [launchLoop_of_passes hpass] at hi
      cases hi
    · obtain ⟨st, hloop, -⟩ := launchLoop_of_first submit post
        (h pre e post rfl hpass) hpass hv
      rw [hloop] at hi
      cases hi

/-- A program that executes a breakpoint instruction stops by `SIGTRAP` with `-1` in the
register, and the entry before the table is read. -/
theorem launchLoop_breakpoint :
    AtCheck lp64 writeLimits (eventOf (.stopped 5) (-1)) ∧
      launchLoop lp64 writeLimits writeOnce [eventOf (.stopped 5) (-1)]
        = .fault (.outOfBounds (-1)) :=
  ⟨by decide, rfl⟩

end NpuOj
