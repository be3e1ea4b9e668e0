import NpuOj.DataItem
import NpuOj.Lib.EventLoop

/-!
# Compiling a submission

`LangCDebug::compile` runs a script in a child whose standard error is a pipe, waits
for it, and reads what it wrote if it failed. The four language judges share this
function and differ in the script.

A failure of the judge itself (no script, no pipe, no child) and a failure of the
script are two different results, `systemError` and `compileError`:
`NpuOj.compile_resType` says that there is no fourth.
-/

namespace NpuOj

open Posix

/-- One answer of `read` on a buffer of 4095 bytes. -/
inductive ReadReply
  /-- Some bytes. -/
  | data (bytes : List UInt8) (size : 0 < bytes.length ∧ bytes.length ≤ 4095)
  /-- The end of the file. -/
  | eof
  /-- The call failed and returned `-1`. -/
  | error

/-- The answer of `waitpid`. -/
inductive WaitReply
  | status (stat : ℤ)
  | error
  deriving DecidableEq, Repr

/-- The status after the call, which is zero before it. -/
def WaitReply.stat : WaitReply → ℤ
  | .status stat => stat
  | .error => 0

/-- What the system answers while a script runs: the value of `pipe`, the process id or
`none` for a failed `fork`, the end of the child if it comes to one, and the reads of
the pipe. -/
structure CompileRun where
  pipe : ℤ
  pid : Option ℕ
  waited : Option WaitReply
  reads : List ReadReply

/-- The system as a function of the script and the limits it is to run under. -/
abbrev CompileReply := String → ResourceLimit → CompileRun

/-- The fields of `LangCDebug`. -/
structure LangCDebug where
  compileScriptPath : Option String
  deriving DecidableEq, Repr

/-- The body of the reading loop. The bytes are appended as a C string; a `read` that
fails makes the `size_t` the greatest there is, and a zero is stored at that index. -/
def readStep (pf : Platform) (content : List UInt8) (reply : ReadReply) :
    LoopFlow Fault (List UInt8) :=
  match reply with
  | .data bytes _ => .next (content ++ bytes.takeWhile (· ≠ 0))
  | .eof => .stop content
  | .error => .fault (.outOfBounds pf.ulongMax)

/-- `LangCDebug::compile`. -/
def compile (pf : Platform) (lang : LangCDebug) (submit : Submission) (rl : ResourceLimit)
    (reply : CompileReply) : Outcome Fault Result :=
  let res := Result.ofSubmission submit
  match lang.compileScriptPath with
  | none =>
    .ret { res with resType := .systemError
                    resContent := ascii "Compile: Get compile script fail" }
  | some path =>
    let run := reply path rl
    if run.pipe ≠ 0 then
      .ret { res with resType := .systemError, resContent := ascii "Compile: Create pipe error" }
    else match run.pid with
      | none => .ret { res with resType := .systemError, resContent := ascii "Compile fork error" }
      | some _ => match run.waited with
        | none => .pending
        | some waited =>
          if waited.stat = 0 then .ret (res.withType .compilePass)
          else (runLoop (readStep pf) [] run.reads).bind fun r =>
            .ret { res with resType := .compileError, resContent := r.1 }

/-- **The results of a compilation.** -/
theorem compile_resType {pf : Platform} {lang : LangCDebug} {submit : Submission}
    {rl : ResourceLimit} {reply : CompileReply} {res : Result}
    (h : compile pf lang submit rl reply = .ret res) :
    res.resType = .systemError ∨ res.resType = .compilePass ∨ res.resType = .compileError := by
  simp only [compile] at h
  split at h
  · cases h
    exact Or.inl rfl
  split at h
  · cases h
    exact Or.inl rfl
  split at h
  · cases h
    exact Or.inl rfl
  split at h
  · cases h
  split at h
  · cases h
    exact Or.inr (Or.inl rfl)
  · obtain ⟨r, -, hres⟩ := Outcome.bind_eq_ret_iff.mp h
    obtain rfl := Outcome.ret.inj hres
    exact Or.inr (Or.inr rfl)

end NpuOj
