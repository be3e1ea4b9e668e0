import NpuOj.Lang.SyscallLimits
import NpuOj.Lib.EventLoop

/-!
# Running a program under supervision

`LangC::launch` forks, lets the child run the program under `ptrace`, and sits in a
loop in which every `wait4` reports one event: the child exited, was killed by a
signal, or stopped, together with what it has used so far. The loop samples memory
and time, compares them with the limits, looks at the status, and charges a system
call to the budget of its number; whatever is wrong ends the loop with a verdict,
and a last sample of memory is taken after it.

`NpuOj.launchStep` is the body of the loop, in the order of the source, and
`NpuOj.launchParent` the whole parent. The number of the system call is a machine
word that the supervised program chooses; it is used as an index without a
comparison, so an event may carry any integer and the body faults where it lies
outside the table.

The second half of the file says what the body does *without its accumulators*:
`NpuOj.eventVerdict` judges an event from the limits and the list of the events
before it. That the two agree is the subject of `NpuOj.Lang.LaunchVerdict`.
-/

namespace NpuOj

open Posix

/-! ### Events -/

/-- `struct timeval` -/
structure Timeval where
  tvSec : ℤ
  tvUsec : ℤ
  deriving DecidableEq

/-- `convert_timeval_into_ms` -/
def convertTimevalIntoMs (tv : Timeval) : ℤ := tv.tvSec * 1000 + tv.tvUsec.tdiv 1000

/-- The part of `struct rusage` that the loop reads. -/
structure Rusage where
  ruUtime : Timeval
  ruStime : Timeval
  ruMinflt : ℤ
  deriving DecidableEq

/-- What one `wait4` reports, with the register in which the kernel keeps the number
of the system call. -/
structure WaitEvent where
  status : WaitStatus
  usage : Rusage
  origAx : ℤ
  deriving DecidableEq

/-- The figure that the loop computes from the count of page faults:
`ru_minflt * pagesize >> 10`, stored in a `size_t`. -/
def memFigure (pf : Platform) (e : WaitEvent) : ℕ :=
  pf.toSizeT (pf.toLong (e.usage.ruMinflt * pf.pageSize) / 2 ^ 10)

/-- The time used, user and system together. -/
def cpuTime (e : WaitEvent) : ℤ :=
  convertTimevalIntoMs e.usage.ruUtime + convertTimevalIntoMs e.usage.ruStime

/-! ### The time limit in force -/

/-- `get_rl_cpu_millisecond` -/
def getRlCpuMillisecond (rl : ResourceLimit) : ℤ :=
  let atLeastOne (limTime : ℤ) : ℤ := if limTime < 1 then 1 else limTime
  if rl.singleTimeLimit.isSet && rl.totalTimeLimit.isSet then
    atLeastOne (if rl.singleTimeLimit.getMillisecond < rl.totalTimeLimit.getMillisecond
      then rl.singleTimeLimit.getMillisecond else rl.totalTimeLimit.getMillisecond)
  else if rl.singleTimeLimit.isSet then atLeastOne rl.singleTimeLimit.getMillisecond
  else if rl.totalTimeLimit.isSet then atLeastOne rl.totalTimeLimit.getMillisecond
  else 0

/-! ### The body of the loop -/

/-- The variables of the loop that outlive one round. -/
structure LaunchState where
  res : Result
  syscallLimits : SyscallLimits

/-- The verdict on a child that a signal terminated or stopped. -/
def signalVerdict (signo : ℤ) : NojResult :=
  if signo = sigchld ∨ signo = sigalrm then .timeLimitExceed
  else if signo = sigkill ∨ signo = sigxcpu then .timeLimitExceed
  else if signo = sigxfsz then .outputLimitExceed
  else if signo = sigsegv then .segmentFault
  else if signo = sigbus then .busError
  else if signo = sigabrt then .abort
  else .runtimeError

/-- `res_max_memory` after a sample: the greater of the two. -/
def raiseMaxMemory (res : Result) (curMemorySize : ℕ) : Result :=
  { res with
    resMaxMemory := res.resMaxMemory.setByte
      (if res.resMaxMemory.getByte < curMemorySize then curMemorySize
        else res.resMaxMemory.getByte) }

/-- The entry of the table that an index names, if there is one. -/
def tableIndex (nr : ℤ) : Option (Fin 512) :=
  if h : 0 ≤ nr ∧ nr < 512 then some ⟨nr.toNat, by omega⟩ else none

/-- The system call check: the budget of the number is looked up, a call without
budget ends the loop, and a positive budget is charged. -/
def checkSyscall (st : LaunchState) (syscallId : ℤ) : LoopFlow Fault LaunchState :=
  match tableIndex syscallId with
  -- no comparison guards the index
  | none => .fault (.outOfBounds syscallId)
  | some i =>
    if 0 ≤ st.syscallLimits i then
      if st.syscallLimits i = 0 then
        .stop { st with res := st.res.withType .illegalSystemCall }
      else
        let syscallLimits := Function.update st.syscallLimits i (st.syscallLimits i - 1)
        .next { st with syscallLimits := syscallLimits }
    else .next st

/-- The body of the loop, on one event, with the check of system calls as a parameter. -/
def launchStepWith (check : LaunchState → ℤ → LoopFlow Fault LaunchState) (pf : Platform)
    (rl : ResourceLimit) (timeLeft : ℤ) (st : LaunchState) (e : WaitEvent) :
    LoopFlow Fault LaunchState :=
  let stat := e.status.stat
  -- without a limit of memory nothing is sampled here
  let res := if rl.memoryLimit.isSet then raiseMaxMemory st.res (memFigure pf e) else st.res
  if rl.memoryLimit.isSet && res.resMaxMemory.gt rl.memoryLimit then
    .stop { st with res := res.withType .memoryLimitExceed }
  else
    let res := { res with resElapsedTime := res.resElapsedTime.setMillisecond (cpuTime e) }
    if 0 < timeLeft ∧ timeLeft < res.resElapsedTime.getMillisecond then
      .stop { st with res := res.withType .timeLimitExceed }
    else if wifexited stat then
      let v := if wexitstatus stat = 0 then .runPass else .runtimeError
      .stop { st with res := res.withType v }
    else if wifsignaled stat ∨ (wifstopped stat ∧ wstopsig stat ≠ sigtrap) then
      let signo := if wifsignaled stat then wtermsig stat else wstopsig stat
      .stop { st with res := res.withType (signalVerdict signo) }
    -- what is left is a stop by `SIGTRAP`, taken for one at a system call
    else check { st with res := res } e.origAx

/-- **The body of the loop**, on one event. -/
def launchStep (pf : Platform) (rl : ResourceLimit) (timeLeft : ℤ) (st : LaunchState)
    (e : WaitEvent) : LoopFlow Fault LaunchState :=
  launchStepWith checkSyscall pf rl timeLeft st e

/-- The loop, with the events it did not read. -/
def launchLoop (pf : Platform) (rl : ResourceLimit) (submit : Submission)
    (events : List WaitEvent) : Outcome Fault (LaunchState × List WaitEvent) :=
  runLoop (launchStep pf rl (getRlCpuMillisecond rl))
    ⟨Result.ofSubmission submit, rl.syscallLimits⟩ events

/-- The sample of `VmPeak` after the loop. -/
def samplePeak (pf : Platform) (rl : ResourceLimit) (res : Result) (vmPeak : ℤ) : Result :=
  -- raised whether or not a limit is set
  let res := raiseMaxMemory res (pf.toSizeT vmPeak)
  if rl.memoryLimit.isSet && res.resMaxMemory.gt rl.memoryLimit then
    res.withType .memoryLimitExceed
  else res

/-- The parent of `launch`: the loop and the last sample. The budgets are those left
in the limits, which the caller shares. -/
def launchParent (pf : Platform) (rl : ResourceLimit) (submit : Submission)
    (events : List WaitEvent) (vmPeak : ℤ) : Outcome Fault (Result × SyscallLimits) :=
  (launchLoop pf rl submit events).bind fun r =>
    .ret (samplePeak pf rl r.1.res vmPeak, r.1.syscallLimits)

/-- What the system answers while a program is launched: the process id, or `none`
for a failed `fork`; the events of the child; and the number read for `VmPeak`, or
`none` for a failed `popen`. -/
structure LaunchRun where
  pid : Option ℕ
  events : List WaitEvent
  vmPeak : Option ℤ

/-- `LangC::launch`, with the limits and the static block it leaves behind; what the loop
comes to under the limits is a parameter. -/
def launchWith (loop : ResourceLimit → Outcome Fault LaunchState) (pf : Platform)
    (sysCallInit : Option SyscallLimits) (heap : SyscallLimits) (submit : Submission)
    (rl : ResourceLimit) (run : LaunchRun) :
    Outcome Fault (Result × ResourceLimit × Option SyscallLimits) :=
  let rl := { rl with fileLimit := rl.fileLimit.setMB pf 5 }
  let (rl, sysCallInit) := initSystemCallLimits sysCallInit heap rl
  match run.pid with
  | none =>
    let res := (Result.ofSubmission submit).withType .systemError
    .ret ({ res with resContent := ascii "Launch fork error" }, rl, sysCallInit)
  | some _ => (loop rl).bind fun st =>
    match run.vmPeak with
    -- `get_proc_info` complains, and hands the `NULL` to `fscanf`
    | none => .fault .nullDeref
    | some vmPeak => .ret (samplePeak pf rl st.res vmPeak,
        { rl with syscallLimits := st.syscallLimits }, sysCallInit)

/-- **`LangC::launch`** -/
def launch (pf : Platform) (sysCallInit : Option SyscallLimits) (heap : SyscallLimits)
    (submit : Submission) (rl : ResourceLimit) (run : LaunchRun) :
    Outcome Fault (Result × ResourceLimit × Option SyscallLimits) :=
  launchWith (fun rl => (launchLoop pf rl submit run.events).bind fun r => .ret r.1) pf sysCallInit
    heap submit rl run

/-! ### What the body reads of the limits -/

/-- **The time limit in force**: the smaller of the limits that are set, but at least
one millisecond. -/
def timeLimit (rl : ResourceLimit) : Option ℤ :=
  match rl.singleTimeLimit.isSet, rl.totalTimeLimit.isSet with
  | true, true => some (max 1 (min rl.singleTimeLimit.timeSize rl.totalTimeLimit.timeSize))
  | true, false => some (max 1 rl.singleTimeLimit.timeSize)
  | false, true => some (max 1 rl.totalTimeLimit.timeSize)
  | false, false => none

theorem getRlCpuMillisecond_eq (rl : ResourceLimit) :
    getRlCpuMillisecond rl = (timeLimit rl).getD 0 := by
  cases hs : rl.singleTimeLimit.isSet <;> cases ht : rl.totalTimeLimit.isSet <;>
    simp only [getRlCpuMillisecond, timeLimit, TimeUsage.getMillisecond, hs, ht, Bool.and_self,
      Bool.and_false, Bool.and_true, Bool.false_eq_true, if_true, if_false, Option.getD_some,
      Option.getD_none] <;> omega

theorem one_le_of_timeLimit {rl : ResourceLimit} {l : ℤ} (h : timeLimit rl = some l) : 1 ≤ l := by
  cases hs : rl.singleTimeLimit.isSet <;> cases ht : rl.totalTimeLimit.isSet <;>
    simp only [timeLimit, hs, ht, reduceCtorEq, Option.some.injEq] at h <;> omega

/-- The event shows more memory than the limit, if one is set. -/
def OverMemory (pf : Platform) (rl : ResourceLimit) (e : WaitEvent) : Prop :=
  rl.memoryLimit.isSet = true ∧ rl.memoryLimit.getByte < memFigure pf e

/-- The event shows more time than the limit in force, if there is one. -/
def OverTime (rl : ResourceLimit) (e : WaitEvent) : Prop := ∃ l ∈ timeLimit rl, l < cpuTime e

/-- A stop by `SIGTRAP`, as `ptrace` makes at a system call. -/
def TrapStop (e : WaitEvent) : Prop :=
  wifstopped e.status.stat ∧ wstopsig e.status.stat = sigtrap

/-- The number lies in the table. -/
def InTable (nr : ℤ) : Prop := 0 ≤ nr ∧ nr < 512

theorem tableIndex_eq_some_iff {nr : ℤ} {i : Fin 512} : tableIndex nr = some i ↔ nr = (i : ℤ) := by
  rw [tableIndex]
  split
  · next h =>
    rw [Option.some.injEq, Fin.ext_iff]
    change nr.toNat = (i : ℕ) ↔ _
    omega
  · next h =>
    refine ⟨fun he => absurd he (by simp), fun he => absurd he ?_⟩
    omega

theorem tableIndex_eq_none_iff {nr : ℤ} : tableIndex nr = none ↔ ¬InTable nr := by
  simp [tableIndex, InTable]

theorem exists_tableIndex {nr : ℤ} (h : InTable nr) : ∃ i, tableIndex nr = some i :=
  Option.ne_none_iff_exists'.mp fun hn => tableIndex_eq_none_iff.mp hn h

instance (pf : Platform) (rl : ResourceLimit) (e : WaitEvent) : Decidable (OverMemory pf rl e) :=
  inferInstanceAs (Decidable (_ ∧ _))

instance (rl : ResourceLimit) (e : WaitEvent) : Decidable (OverTime rl e) :=
  inferInstanceAs (Decidable (∃ l ∈ timeLimit rl, l < cpuTime e))

instance (e : WaitEvent) : Decidable (TrapStop e) := inferInstanceAs (Decidable (_ ∧ _))

instance (nr : ℤ) : Decidable (InTable nr) := inferInstanceAs (Decidable (_ ∧ _))

/-- **A call still has budget**: its entry in the table is negative, or greater than
the number of earlier events with the same number. -/
def BudgetLeft (t : SyscallLimits) (pre : List WaitEvent) (e : WaitEvent) : Prop :=
  ∃ i ∈ tableIndex e.origAx,
    t i < 0 ∨ (pre.countP fun e' => e'.origAx = e.origAx) < t i

instance (t : SyscallLimits) (pre : List WaitEvent) (e : WaitEvent) :
    Decidable (BudgetLeft t pre e) :=
  inferInstanceAs (Decidable (∃ i ∈ tableIndex e.origAx, _))

/-- **The verdict on an event**, given the events before it: memory, time, exit
status, signal and system call, in this order. An event without a verdict lets the
program go on. -/
def eventVerdict (pf : Platform) (rl : ResourceLimit) (pre : List WaitEvent) (e : WaitEvent) :
    Option NojResult :=
  let stat := e.status.stat
  if OverMemory pf rl e then some .memoryLimitExceed
  else if OverTime rl e then some .timeLimitExceed
  else if wifexited stat then some (if wexitstatus stat = 0 then .runPass else .runtimeError)
  else if wifsignaled stat then some (signalVerdict (wtermsig stat))
  else if ¬TrapStop e then some (signalVerdict (wstopsig stat))
  else if BudgetLeft rl.syscallLimits pre e then none
  else some .illegalSystemCall

end NpuOj
