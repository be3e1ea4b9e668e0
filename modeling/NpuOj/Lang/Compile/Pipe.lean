import NpuOj.Lang.Compile.Output
import NpuOj.Lib.Pipes
import NpuOj.Lib.TransSystem

/-!
# Waiting for the compile script

The script writes into a pipe, and `LangCDebug::compile` reads from it only after it has waited
for the script to exit. A script that has more to write than the pipe holds is never done.

`NpuOj.compileProcs` is the system of the two processes, after a successful `fork`. A state in
which each of them waits for the other is never left (`NpuOj.step_of_blocked`), and
`NpuOj.compileProcs_blocked_iff` says when there is none. What the system does is what
`NpuOj.compile` computes: `NpuOj.compile_of_reachable`.
-/

namespace NpuOj

open Posix

/-! ### The two processes -/

/-- Where the parent is in `LangCDebug::compile`. -/
inductive CompileLoc
  /-- Before it has closed its end for writing. -/
  | forked
  /-- In `waitpid`. -/
  | waiting
  /-- In the loop that reads. -/
  | reading
  /-- Past the function. -/
  | returned
  deriving DecidableEq

/-- A step of one of the two processes. -/
inductive CompileStep
  /-- The parent closes its end for writing. -/
  | closeEnd
  /-- The script writes some bytes, as many as there is room for. -/
  | write (k : ℕ)
  /-- The script exits, once it has written everything. -/
  | exit
  /-- `waitpid` returns. -/
  | wait
  /-- A `read` returns some of the bytes in the pipe. -/
  | read (k : ℕ)
  /-- A `read` returns the end of the file. -/
  | eof
  deriving DecidableEq

/-- The script, the pipe and the parent. -/
structure CompileState (cap : ℕ) where
  /-- What the script has still to write. -/
  toWrite : List UInt8
  exited : Bool
  pipe : PipeBuffer UInt8 cap
  parent : CompileLoc
  /-- What the reads have returned. -/
  chunks : List Chunk

section Procs

variable {cap : ℕ} {out : List UInt8} {stat : ℤ} {s s' : CompileState cap} {a : CompileStep}

namespace CompileState

/-- The two processes after `fork`. -/
def start (cap : ℕ) (out : List UInt8) : CompileState cap where
  toWrite := out
  exited := false
  pipe := .empty UInt8 cap
  parent := .forked
  chunks := []

/-- A step, for a script that exits with the given status. -/
def step (stat : ℤ) (s : CompileState cap) : CompileStep → Option (CompileState cap)
  | .closeEnd => if s.parent = .forked then some { s with parent := .waiting } else none
  | .write k =>
    if h : s.exited = false ∧ 0 < k ∧ k ≤ s.toWrite.length ∧ k ≤ s.pipe.room then
      some { s with
        toWrite := s.toWrite.drop k
        pipe := s.pipe.write (s.toWrite.take k) (by rw [List.length_take]; omega) }
    else none
  | .exit => if s.exited = false ∧ s.toWrite = [] then some { s with exited := true } else none
  | .wait =>
    if s.parent = .waiting ∧ s.exited = true then
      some { s with parent := if stat = 0 then .returned else .reading }
    else none
  | .read k =>
    if h : s.parent = .reading ∧ 0 < k ∧ k ≤ 4095 ∧ k ≤ s.pipe.content.length then
      some { s with
        pipe := s.pipe.drop k
        chunks := s.chunks ++ [⟨s.pipe.content.take k, by rw [List.length_take]; omega⟩] }
    else none
  | .eof =>
    if s.parent = .reading ∧ s.pipe.content = [] ∧ s.exited = true then
      some { s with parent := .returned }
    else none

/-- **Each waits for the other**: the script has more to write and the pipe is full, and the
parent is in `waitpid`. -/
def Blocked (s : CompileState cap) : Prop :=
  s.exited = false ∧ s.toWrite ≠ [] ∧ s.pipe.Full ∧ s.parent = .waiting

end CompileState

/-- **What a step can be.** -/
theorem CompileState.step_cases (h : s.step stat a = some s') :
    (s.parent = .forked ∧ s' = { s with parent := .waiting }) ∨
    (∃ k hk, s.exited = false ∧ 0 < k ∧ s' = { s with
      toWrite := s.toWrite.drop k
      pipe := s.pipe.write (s.toWrite.take k) hk }) ∨
    (s.exited = false ∧ s.toWrite = [] ∧ s' = { s with exited := true }) ∨
    (s.parent = .waiting ∧ s.exited = true ∧
      s' = { s with parent := if stat = 0 then .returned else .reading }) ∨
    (∃ k hk, s.parent = .reading ∧ 0 < k ∧ s' = { s with
      pipe := s.pipe.drop k
      chunks := s.chunks ++ [⟨s.pipe.content.take k, hk⟩] }) ∨
    (s.parent = .reading ∧ s.pipe.content = [] ∧ s.exited = true ∧
      s' = { s with parent := .returned }) := by
  cases a with
  | closeEnd =>
    obtain ⟨hloc, hs⟩ := Option.ite_none_right_eq_some.mp h
    exact Or.inl ⟨hloc, (Option.some.inj hs).symm⟩
  | write k =>
    obtain ⟨hk, hs⟩ := Option.dite_none_right_eq_some.mp h
    exact Or.inr (Or.inl ⟨k, _, hk.1, hk.2.1, (Option.some.inj hs).symm⟩)
  | exit =>
    obtain ⟨⟨hrun, hdone⟩, hs⟩ := Option.ite_none_right_eq_some.mp h
    exact Or.inr (Or.inr (Or.inl ⟨hrun, hdone, (Option.some.inj hs).symm⟩))
  | wait =>
    obtain ⟨⟨hloc, hexit⟩, hs⟩ := Option.ite_none_right_eq_some.mp h
    exact Or.inr (Or.inr (Or.inr (Or.inl ⟨hloc, hexit, (Option.some.inj hs).symm⟩)))
  | read k =>
    obtain ⟨hk, hs⟩ := Option.dite_none_right_eq_some.mp h
    exact Or.inr (Or.inr (Or.inr (Or.inr (Or.inl
      ⟨k, _, hk.1, hk.2.1, (Option.some.inj hs).symm⟩))))
  | eof =>
    obtain ⟨⟨hloc, hempty, hexit⟩, hs⟩ := Option.ite_none_right_eq_some.mp h
    exact Or.inr (Or.inr (Or.inr (Or.inr (Or.inr
      ⟨hloc, hempty, hexit, (Option.some.inj hs).symm⟩))))

/-- **The system of the two processes**, for a script that writes the given bytes and exits with
the given status, and a pipe of the given capacity. -/
def compileProcs (cap : ℕ) (out : List UInt8) (stat : ℤ) :
    TransSystem (CompileState cap) CompileStep where
  Init s := s = .start cap out
  step s a := s.step stat a

/-- **The invariant**: no byte is lost on its way, the parent reads only what is left after the
script has exited, and it returns after it has read everything. -/
structure CompileInv (out : List UInt8) (stat : ℤ) (s : CompileState cap) : Prop where
  bytes : bytesOf s.chunks ++ s.pipe.content ++ s.toWrite = out
  unread : s.parent = .forked ∨ s.parent = .waiting → s.chunks = []
  written : s.exited = true → s.toWrite = []
  waited : s.parent = .reading ∨ s.parent = .returned → s.exited = true
  failed : s.parent = .reading → stat ≠ 0
  drained : s.parent = .returned → stat ≠ 0 → s.pipe.content = []

theorem compileInv_start (cap : ℕ) (out : List UInt8) (stat : ℤ) :
    CompileInv out stat (CompileState.start cap out) where
  bytes := rfl
  unread _ := rfl
  written h := by cases h
  waited h := by rcases h with h | h <;> cases h
  failed h := by cases h
  drained h := by cases h

theorem bytesOf_snoc (chunks : List Chunk) (chunk : Chunk) :
    bytesOf (chunks ++ [chunk]) = bytesOf chunks ++ chunk.1 := by
  simp [bytesOf]

theorem CompileInv.step (hinv : CompileInv out stat s) (h : s.step stat a = some s') :
    CompileInv out stat s' := by
  rcases CompileState.step_cases h with ⟨hloc, rfl⟩ | ⟨k, hk, hrun, -, rfl⟩ | ⟨-, hdone, rfl⟩ |
    ⟨hloc, hexit, rfl⟩ | ⟨k, hk, hloc, -, rfl⟩ | ⟨hloc, hempty, hexit, rfl⟩
  · -- the parent closes its end
    exact ⟨hinv.bytes, fun _ => hinv.unread (Or.inl hloc), hinv.written, by simp, by simp, by simp⟩
  · -- the script writes, so the parent has not returned
    have hnot : s.parent ≠ .reading ∧ s.parent ≠ .returned := by
      constructor
      · intro hloc
        exact absurd (hinv.waited (Or.inl hloc)) (by simp [hrun])
      · intro hloc
        exact absurd (hinv.waited (Or.inr hloc)) (by simp [hrun])
    refine ⟨?_, hinv.unread, fun hexit => absurd hexit (by simp [hrun]), hinv.waited, hinv.failed,
      fun hloc => absurd hloc hnot.2⟩
    have hbytes := hinv.bytes
    rw [← List.take_append_drop k s.toWrite] at hbytes
    simpa only [PipeBuffer.content_write, List.append_assoc] using hbytes
  · -- the script exits
    exact ⟨hinv.bytes, hinv.unread, fun _ => hdone, fun _ => rfl, hinv.failed, hinv.drained⟩
  · -- `waitpid` returns
    by_cases hstat : stat = 0
    · exact ⟨hinv.bytes, by simp [hstat], hinv.written, fun _ => hexit, by simp [hstat],
        fun _ hne => absurd hstat hne⟩
    · exact ⟨hinv.bytes, by simp [hstat], hinv.written, fun _ => hexit, fun _ => hstat,
        by simp [hstat]⟩
  · -- a chunk is read
    refine ⟨?_, by simp [hloc], hinv.written, hinv.waited, hinv.failed, by simp [hloc]⟩
    have hbytes := hinv.bytes
    rw [← List.take_append_drop k s.pipe.content] at hbytes
    simpa only [bytesOf_snoc, PipeBuffer.content_drop, List.append_assoc] using hbytes
  · -- the end of the file is read
    exact ⟨hinv.bytes, by simp, hinv.written, fun _ => hexit, by simp, fun _ _ => hempty⟩

theorem compileInv_of_reachable (h : (compileProcs cap out stat).Reachable s) :
    CompileInv out stat s := by
  refine h.invariant ?_ ?_
  · rintro _ rfl
    exact compileInv_start cap out stat
  · intro s a s' _ hinv _ hstep
    exact hinv.step hstep

/-! ### Waiting for each other -/

/-- **A blocked state is never left.** -/
theorem step_of_blocked (h : s.Blocked) : s.step stat a = none := by
  obtain ⟨hrun, hleft, hfull, hloc⟩ := h
  refine Option.eq_none_iff_forall_ne_some.mpr fun s' hs => ?_
  rcases CompileState.step_cases hs with ⟨hloc', -⟩ | ⟨k, hk, -, hpos, -⟩ | ⟨-, hdone, -⟩ |
    ⟨-, hexit, -⟩ | ⟨k, -, hloc', -⟩ | ⟨hloc', -⟩
  · simp [hloc] at hloc'
  · rw [PipeBuffer.full_iff_room.mp hfull, List.length_take] at hk
    have hlength := List.length_pos_of_ne_nil hleft
    omega
  · exact hleft hdone
  · simp [hrun] at hexit
  · simp [hloc] at hloc'
  · simp [hloc] at hloc'

/-- **Any other state is left**, until the function returns. -/
theorem exists_step_of_not_blocked (h : (compileProcs cap out stat).Reachable s)
    (hloc : s.parent ≠ .returned) (hblocked : ¬s.Blocked) : ∃ a s', s.step stat a = some s' := by
  have hinv := compileInv_of_reachable h
  rcases hparent : s.parent with _ | _ | _ | _
  · exact ⟨.closeEnd, _, if_pos hparent⟩
  · by_cases hexit : s.exited = true
    · exact ⟨.wait, _, if_pos ⟨hparent, hexit⟩⟩
    have hrun : s.exited = false := Bool.not_eq_true _ ▸ hexit
    by_cases hleft : s.toWrite = []
    · exact ⟨.exit, _, if_pos ⟨hrun, hleft⟩⟩
    · have hroom : s.pipe.room ≠ 0 := fun hroom =>
        hblocked ⟨hrun, hleft, PipeBuffer.full_iff_room.mpr hroom, hparent⟩
      have hlength := List.length_pos_of_ne_nil hleft
      exact ⟨.write 1, _, dif_pos ⟨hrun, Nat.one_pos, hlength, by omega⟩⟩
  · by_cases hempty : s.pipe.content = []
    · exact ⟨.eof, _, if_pos ⟨hparent, hempty, hinv.waited (Or.inl hparent)⟩⟩
    · have hlength := List.length_pos_of_ne_nil hempty
      exact ⟨.read 1, _, dif_pos ⟨hparent, Nat.one_pos, by decide, hlength⟩⟩
  · exact absurd hparent hloc

/-- The script fills the pipe while the parent waits for it. -/
theorem exists_blocked_of_lt (stat : ℤ) (h : cap < out.length) :
    ∃ s, (compileProcs cap out stat).Reachable s ∧ s.Blocked := by
  let waiting : CompileState cap := { CompileState.start cap out with parent := .waiting }
  have hclose : (CompileState.start cap out).step stat .closeEnd = some waiting := rfl
  have hwaiting : (compileProcs cap out stat).Reachable waiting :=
    (TransSystem.ReachableBy.init (s := CompileState.start cap out) rfl).step (a := .closeEnd)
      trivial hclose
  rcases Nat.eq_zero_or_pos cap with rfl | hpos
  · exact ⟨waiting, hwaiting, rfl, List.ne_nil_of_length_pos h, rfl, rfl⟩
  · have hroom : (out.take cap).length ≤ waiting.pipe.room := by
      rw [List.length_take]
      exact Nat.min_le_left _ _
    let full : CompileState cap :=
      { waiting with toWrite := out.drop cap, pipe := waiting.pipe.write (out.take cap) hroom }
    have hwrite : waiting.step stat (.write cap) = some full :=
      dif_pos ⟨rfl, hpos, h.le, Nat.le_refl _⟩
    have hfull : (compileProcs cap out stat).Reachable full :=
      hwaiting.step (a := .write cap) trivial hwrite
    refine ⟨full, hfull, rfl, fun hdone => ?_, ?_, rfl⟩
    · have hle := List.drop_eq_nil_iff.mp hdone
      omega
    · exact List.length_take_of_le h.le

/-- **When the processes do not block each other**: in no state that any interleaving reaches is
the script blocked on a full pipe while the parent waits for it to exit, exactly if the pipe
holds all that the script writes. -/
theorem compileProcs_blocked_iff (cap : ℕ) (out : List UInt8) (stat : ℤ) :
    (∀ s, (compileProcs cap out stat).Reachable s → ¬s.Blocked) ↔ out.length ≤ cap := by
  constructor
  · intro h
    by_contra hlong
    obtain ⟨s, hs, hblocked⟩ := exists_blocked_of_lt stat (Nat.lt_of_not_le hlong)
    exact h s hs hblocked
  · rintro hle s hs ⟨-, hleft, hfull, hloc⟩
    have hinv := compileInv_of_reachable hs
    have hlength := congrArg List.length hinv.bytes
    rw [hinv.unread (Or.inr hloc), List.length_append, List.length_append, hfull] at hlength
    have hpos := List.length_pos_of_ne_nil hleft
    omega

/-- A script that writes 65537 bytes to a pipe for 65536, as a compiler does that reports enough
errors: neither process ever makes another step. -/
theorem compileProcs_longOutput : ∃ s,
    (compileProcs 65536 (List.replicate 65537 97) 256).Reachable s ∧ s.Blocked ∧
      ∀ a, s.step 256 a = none := by
  have hlong : 65536 < (List.replicate 65537 (97 : UInt8)).length := by
    rw [List.length_replicate]
    omega
  obtain ⟨s, hs, hblocked⟩ := exists_blocked_of_lt 256 hlong
  exact ⟨s, hs, hblocked, fun a => step_of_blocked hblocked⟩

/-! ### What the parent computes -/

/-- What the system has answered to the parent so far. -/
def CompileState.run (pid : ℕ) (stat : ℤ) (s : CompileState cap) : CompileRun where
  pipe := 0
  pid := some pid
  waited := if s.parent = .forked ∨ s.parent = .waiting then none else some (.status stat)
  reads := if s.parent = .returned then delivery s.chunks .eof
    else s.chunks.map Chunk.reply

/-- **The system does what `compile` computes**: until the parent returns, the function waits,
and then it has passed, or holds the text of all that the script has written. -/
theorem compile_of_reachable (pf : Platform) {lang : LangCDebug} {path : String}
    (hscript : lang.compileScriptPath = some path) (submit : Submission) (rl : ResourceLimit)
    (pid : ℕ) (h : (compileProcs cap out stat).Reachable s) :
    (s.parent ≠ .returned →
      compile pf lang submit rl (fun _ _ => s.run pid stat) = .pending) ∧
    (s.parent = .returned → stat = 0 →
      compile pf lang submit rl (fun _ _ => s.run pid stat)
        = .ret ((Result.ofSubmission submit).withType .compilePass)) ∧
    (s.parent = .returned → stat ≠ 0 →
      compile pf lang submit rl (fun _ _ => s.run pid stat)
        = .ret { Result.ofSubmission submit with
            resType := .compileError, resContent := textOf s.chunks } ∧
      bytesOf s.chunks = out) := by
  have hinv := compileInv_of_reachable h
  have hfailed (hloc : s.parent = .reading ∨ s.parent = .returned) (hstat : stat ≠ 0) :
      compile pf lang submit rl (fun _ _ => s.run pid stat) =
        (runLoop (readStep pf) [] (s.run pid stat).reads).bind fun r =>
          .ret { Result.ofSubmission submit with resType := .compileError, resContent := r.1 } := by
    have hwaited : (s.run pid stat).waited = some (.status stat) := by
      rcases hloc with hloc | hloc <;> simp [CompileState.run, hloc]
    exact compile_of_failedScript hscript rfl (by simp [CompileState.run]) hwaited hstat
  refine ⟨fun hloc => ?_, fun hloc hstat => ?_, fun hloc hstat => ?_⟩
  · rcases hparent : s.parent with _ | _ | _ | _
    · simp [compile, hscript, CompileState.run, hparent]
    · simp [compile, hscript, CompileState.run, hparent]
    · -- the loop is through the chunks, and waits for the next one
      have hreads : (s.run pid stat).reads = s.chunks.map Chunk.reply := by
        simp [CompileState.run, hparent]
      have hloop := runLoop_append [] (through_readStep pf [] s.chunks)
      rw [List.append_nil] at hloop
      rw [hfailed (Or.inl hparent) (hinv.failed hparent), hreads, hloop]
      rfl
    · exact absurd hparent hloc
  · simp [compile, hscript, CompileState.run, hloc, hstat, WaitReply.stat]
  · constructor
    · have hreads : (s.run pid stat).reads = delivery s.chunks .eof ++ [] := by
        simp [CompileState.run, hloc]
      rw [hfailed (Or.inr hloc) hstat, hreads, runLoop_delivery]
      rfl
    · have hbytes := hinv.bytes
      have hexit := hinv.waited (Or.inr hloc)
      rwa [hinv.drained hloc hstat, hinv.written hexit, List.append_nil, List.append_nil] at hbytes

end Procs

end NpuOj
