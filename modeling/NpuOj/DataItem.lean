import NpuOj.Lib.Posix

/-!
# The data the daemon works on

The enumerations of `common.h` and the records of `dataitem.h`: quantities of time
and memory that may be unset, the limits a program runs under, problems with their
test cases, submissions, and the results appended to them.

A constructor of the source that leaves a field without a value is modelled in one
of two ways. A field that the code reads in that state takes whatever was in the
memory (`TestCase.isSpecialJudge` is filled by the caller that constructs the test
case). A field that nothing reads before it is written is given the value the type
has by default, or `none` where a later reader has to see that it was never set
(`Result.resTcId`).
-/

namespace NpuOj

open Posix

/-! ### Enumerations -/

/-- `Noj_Judge_Mode` -/
inductive NojJudgeMode
  | unSet
  | release
  | debug
  deriving DecidableEq, Repr

/-- The bit of a mode in `sbm_judge_set`. -/
def NojJudgeMode.bits : NojJudgeMode → BitVec 32
  | .unSet => 0x00
  | .release => 0x01
  | .debug => 0x02

/-- `Noj_Language` -/
inductive NojLanguage
  | unkown
  | c
  | cpp
  | java
  | pascal
  deriving DecidableEq, Repr

/-- `Noj_Result`: the verdicts, on a submission as on one of its test cases. -/
inductive NojResult
  | systemError
  | init
  | pending
  | judging
  | noCompile
  | compileError
  | compilePass
  | runtimeError
  | timeLimitExceed
  | memoryLimitExceed
  | outputLimitExceed
  | illegalSystemCall
  | segmentFault
  | busError
  | abort
  | runPass
  | wrongAnswer
  | presentationError
  | correctAnswer
  | accept
  | notAccept
  deriving DecidableEq, Repr

/-- `Noj_State`: what an operation reports to its caller. -/
inductive NojState
  | serverError
  | dbError
  | sqlQueryFail
  | sqlQueryNothing
  | fileNotDownload
  | permissionError
  | normal
  deriving DecidableEq, Repr

/-- What the code may do without a defined behaviour. -/
inductive Fault
  /-- A null pointer is read. -/
  | nullDeref
  /-- An array is read or written at an index outside it. -/
  | outOfBounds (index : ℤ)
  deriving DecidableEq, Repr

/-! ### Quantities -/

/-- A time in milliseconds, which may be unset. -/
structure TimeUsage where
  /-- `m_time_size` -/
  timeSize : ℤ := 0
  /-- `m_is_set` -/
  isSet : Bool := false
  deriving DecidableEq, Repr

namespace TimeUsage

def setMillisecond (_ : TimeUsage) (size : ℤ) : TimeUsage := ⟨size, true⟩

def setSecond (_ : TimeUsage) (size : ℤ) : TimeUsage := ⟨size * 1000, true⟩

def getMillisecond (t : TimeUsage) : ℤ := t.timeSize

/-- The time in seconds, rounded away from zero where the milliseconds do not
divide. -/
def getSecond (t : TimeUsage) : ℤ :=
  t.timeSize.tdiv 1000 + (if t.timeSize.tmod 1000 ≠ 0 then 1 else 0)

@[simp] theorem getMillisecond_setMillisecond (t : TimeUsage) (size : ℤ) :
    (t.setMillisecond size).getMillisecond = size := rfl

end TimeUsage

/-- A number of bytes, which may be unset. -/
structure MemorySize where
  /-- `m_size` -/
  size : ℕ := 0
  /-- `m_is_set` -/
  isSet : Bool := false
  deriving DecidableEq, Repr

namespace MemorySize

def setByte (_ : MemorySize) (size : ℕ) : MemorySize := ⟨size, true⟩

def setMB (pf : Platform) (_ : MemorySize) (size : ℕ) : MemorySize := ⟨pf.wrap (size <<< 20), true⟩

def getByte (m : MemorySize) : ℕ := m.size

/-- `operator>` -/
def gt (m rf : MemorySize) : Bool := m.size > rf.size

@[simp] theorem getByte_setByte (m : MemorySize) (size : ℕ) :
    (m.setByte size).getByte = size := rfl

@[simp] theorem gt_iff {m rf : MemorySize} : m.gt rf = true ↔ rf.getByte < m.getByte := by
  simp [gt, getByte]

end MemorySize

/-! ### Limits, problems and test cases -/

/-- The budget of every system call number: negative for no limit, zero for a
forbidden call. -/
abbrev SyscallLimits := Fin 512 → ℤ

/-- The limits a program runs under. -/
structure ResourceLimit where
  memoryLimit : MemorySize := {}
  singleTimeLimit : TimeUsage := {}
  totalTimeLimit : TimeUsage := {}
  fileLimit : MemorySize := {}
  workDir : Option String := none
  rlUid : ℕ := 0
  syscallLimits : SyscallLimits := fun _ => 0

namespace ResourceLimit

/-- The working directory is replaced unless the new one is `NULL`. -/
def setWorkdir (rl : ResourceLimit) (dir : Option String) : ResourceLimit :=
  match dir with
  | some dir => { rl with workDir := some dir }
  | none => rl

end ResourceLimit

/-- One test case of a problem. -/
structure TestCase where
  tcId : ℤ
  tcProbId : ℤ
  tcInputFile : String := ""
  tcOutputFile : String := ""
  isSpecialJudge : ℤ
  tcRemoteInputFile : String := ""
  tcRemoteOutputFile : String := ""
  deriving DecidableEq, Repr

/-- A problem with its test cases and limits. -/
structure Problem where
  probId : Option ℤ := none
  probTestcases : List TestCase := []
  probRscLim : ResourceLimit := {}

def Problem.addTestcase (prob : Problem) (tc : TestCase) : Problem :=
  { prob with probTestcases := prob.probTestcases ++ [tc] }

/-! ### Submissions and results -/

/-- The result of compiling a submission, or of running it on one test case. -/
structure Result where
  resSbmId : ℤ
  resLang : NojLanguage
  resType : NojResult := .init
  resJudgeMode : NojJudgeMode
  resContent : List UInt8 := []
  resElapsedTime : TimeUsage := {}
  resMaxMemory : MemorySize := {}
  resTcId : Option ℤ := none
  resOutputFile : String := ""
  deriving DecidableEq, Repr

/-- A submission, with the results it has got so far. -/
structure Submission where
  sbmProbId : ℤ
  sbmLang : NojLanguage
  sbmId : ℤ
  sbmJudgeSet : BitVec 32
  sbmCurMode : NojJudgeMode
  sbmResType : NojResult
  sbmSourceFile : String
  sbmResults : List Result
  deriving DecidableEq, Repr

/-- A submission in C as it goes to the thread pool. -/
def Submission.released (probId sbmId : ℤ) : Submission where
  sbmProbId := probId
  sbmLang := .c
  sbmId := sbmId
  sbmJudgeSet := NojJudgeMode.release.bits
  sbmCurMode := .release
  sbmResType := .init
  sbmSourceFile := "/home/noj/src/" ++ toString sbmId
  sbmResults := []

/-- `Result(const Submission &)`. The mode is left unset and the test case is not
recorded. -/
def Result.ofSubmission (submit : Submission) : Result where
  resSbmId := submit.sbmId
  resLang := submit.sbmLang
  resJudgeMode := .unSet

/-- The result with its verdict. -/
def Result.withType (res : Result) (v : NojResult) : Result := { res with resType := v }

end NpuOj
