import Mathlib.Data.List.TakeWhile
import NpuOj.Lang.Compile

/-!
# Reading what the compile script has written

Where the script fails, `LangCDebug::compile` reads its standard error through a buffer of 4096
bytes: what a `read` returns is kept in a `size_t`, a zero byte is stored behind the bytes that
have come, and they are appended as a C string. So `-1` is taken for a very great number of
bytes, and what stands behind a zero byte in a chunk is lost.

`NpuOj.readBody` is the body of this loop with its buffer, `NpuOj.readBody_eq_readStep` says that
it is the one of `NpuOj.compile`, and `NpuOj.runLoop_delivery_iff` says when the loop reads what
has been written.
-/

namespace NpuOj

open Posix

/-! ### The body with its buffer -/

/-- What `read` returns. -/
def ReadReply.size : ReadReply → ℤ
  | .data bytes _ => bytes.length
  | .eof => 0
  | .error => -1

/-- What `read` puts into the buffer. -/
def ReadReply.bytes : ReadReply → List UInt8
  | .data bytes _ => bytes
  | .eof => []
  | .error => []

/-- The body of the loop, as it is written: the return value becomes a `size_t`, a zero byte is
stored at this index, and the C string at the beginning of the buffer is appended. -/
def readBody (pf : Platform) (content : List UInt8) (reply : ReadReply) :
    LoopFlow Fault (List UInt8) :=
  let size := pf.toSizeT reply.size
  if 0 < size then
    if size < 4096 then .next (content ++ (reply.bytes ++ [0]).takeWhile (· ≠ 0))
    else .fault (.outOfBounds size)
  else .stop content

variable {pf : Platform}

theorem takeWhile_snoc_zero (bytes : List UInt8) :
    (bytes ++ [0]).takeWhile (· ≠ 0) = bytes.takeWhile (· ≠ 0) := by
  induction bytes with
  | nil => rfl
  | cons b bytes ih =>
    rw [List.cons_append, List.takeWhile_cons, List.takeWhile_cons, ih]

/-- **The two bodies agree**, if a `size_t` has more than twelve bits. -/
theorem readBody_eq_readStep (hword : 12 < pf.wordBits) (content : List UInt8)
    (reply : ReadReply) : readBody pf content reply = readStep pf content reply := by
  have hpow : 2 ^ 13 ≤ 2 ^ pf.wordBits := Nat.pow_le_pow_right (by decide) hword
  have hcast : ((2 ^ pf.wordBits : ℕ) : ℤ) = 2 ^ pf.wordBits := by push_cast; rfl
  rcases reply with ⟨bytes, hsize⟩ | _ | _
  · have hcount : pf.toSizeT (ReadReply.data bytes hsize).size = bytes.length := by
      refine Int.ofNat_inj.mp (Platform.toSizeT_of_nonneg (Int.natCast_nonneg _) ?_)
      change (bytes.length : ℤ) < _
      omega
    rw [readBody, hcount, if_pos hsize.1, if_pos (by omega), readStep, ReadReply.bytes,
      takeWhile_snoc_zero]
  · have hcount : pf.toSizeT ReadReply.eof.size = 0 := by
      rw [Platform.toSizeT, ReadReply.size, Int.zero_emod]
      rfl
    rw [readBody, hcount, if_neg (Nat.lt_irrefl 0), readStep]
  · have hcount : pf.toSizeT ReadReply.error.size = pf.ulongMax := by
      refine Int.ofNat_inj.mp ((Platform.toSizeT_of_neg (by decide) ?_).trans ?_)
      · change -2 ^ pf.wordBits ≤ (-1 : ℤ)
        omega
      · rw [Platform.ulongMax, ReadReply.size]
        omega
    rw [readBody, hcount, Platform.ulongMax, if_pos (by omega), if_neg (by omega), readStep,
      Platform.ulongMax]

/-! ### A delivery -/

/-- What a `read` delivers of what has been written. -/
abbrev Chunk := {bytes : List UInt8 // 0 < bytes.length ∧ bytes.length ≤ 4095}

/-- The answer of a `read` that delivers it. -/
def Chunk.reply (chunk : Chunk) : ReadReply := .data chunk.1 chunk.2

/-- How the reads come to an end. -/
inductive ReadEnd
  | eof
  | error
  deriving DecidableEq

/-- The answer of the last `read`. -/
def ReadEnd.reply : ReadEnd → ReadReply
  | .eof => .eof
  | .error => .error

/-- The answers of `read`: some chunks, and then the end of the file or an error. -/
def delivery (chunks : List Chunk) (last : ReadEnd) : List ReadReply :=
  chunks.map Chunk.reply ++ [last.reply]

/-- The bytes of the chunks. -/
def bytesOf (chunks : List Chunk) : List UInt8 := chunks.flatMap fun chunk => chunk.1

/-- The bytes of the chunks as they are appended: up to the first zero byte of each. -/
def textOf (chunks : List Chunk) : List UInt8 :=
  chunks.flatMap fun chunk => chunk.1.takeWhile (· ≠ 0)

variable {chunks : List Chunk} {content : List UInt8} {post : List ReadReply}

/-- The loop goes on through the chunks. -/
theorem through_readStep (pf : Platform) (content : List UInt8) (chunks : List Chunk) :
    through (readStep pf) content (chunks.map Chunk.reply) = some (content ++ textOf chunks) := by
  induction chunks generalizing content with
  | nil => rw [textOf, List.flatMap_nil, List.append_nil, List.map_nil, through]
  | cons chunk chunks ih =>
    rw [List.map_cons, through_cons_next rfl, ih, textOf, textOf, List.flatMap_cons,
      List.append_assoc]

/-- **What the loop does with a delivery.** -/
theorem runLoop_delivery (pf : Platform) (chunks : List Chunk) (last : ReadEnd)
    (post : List ReadReply) :
    runLoop (readStep pf) [] (delivery chunks last ++ post) =
      match last with
      | .eof => .ret (textOf chunks, post)
      | .error => .fault (.outOfBounds pf.ulongMax) := by
  rw [delivery, List.append_assoc, runLoop_append _ (through_readStep pf [] chunks),
    List.nil_append]
  cases last <;> rfl

theorem length_textOf_le (chunks : List Chunk) :
    (textOf chunks).length ≤ (bytesOf chunks).length := by
  induction chunks with
  | nil => exact Nat.le_refl _
  | cons chunk chunks ih =>
    have hprefix := (List.takeWhile_prefix (l := chunk.1) (· ≠ 0)).length_le
    simp only [textOf, bytesOf, List.flatMap_cons, List.length_append] at ih ⊢
    omega

theorem takeWhile_ne_zero_eq_iff {bytes : List UInt8} :
    bytes.takeWhile (· ≠ 0) = bytes ↔ 0 ∉ bytes := by
  rw [List.takeWhile_eq_self_iff]
  constructor
  · intro h hzero
    exact absurd (h 0 hzero) (by decide)
  · intro hzero b hb
    exact decide_eq_true fun hb' => hzero (hb' ▸ hb)

/-- Nothing is lost exactly if there is no zero byte. -/
theorem textOf_eq_bytesOf_iff :
    textOf chunks = bytesOf chunks ↔ ∀ chunk ∈ chunks, 0 ∉ chunk.1 := by
  induction chunks with
  | nil => simp [textOf, bytesOf]
  | cons chunk chunks ih =>
    rw [List.forall_mem_cons, ← ih, ← takeWhile_ne_zero_eq_iff, textOf, bytesOf,
      List.flatMap_cons, List.flatMap_cons]
    constructor
    · -- neither part has become longer, so neither has become shorter
      intro h
      have hprefix := List.takeWhile_prefix (l := chunk.1) (· ≠ 0)
      have hchunk := hprefix.length_le
      have hrest := length_textOf_le chunks
      have hlength := congrArg List.length h
      rw [List.length_append, List.length_append] at hlength
      exact List.append_inj h (Nat.le_antisymm hchunk (by rw [textOf, bytesOf] at hrest; omega))
    · rintro ⟨hchunk, hrest⟩
      rw [hchunk]
      exact congrArg _ hrest

/-- **When the loop reads what has been written.** It stores nothing outside its buffer, stops
at the first end of file or error and leaves what the chunks contain, exactly if the reads end
with the end of the file and no chunk contains a zero byte. -/
theorem runLoop_delivery_iff (pf : Platform) (chunks : List Chunk) (last : ReadEnd)
    (post : List ReadReply) :
    runLoop (readStep pf) [] (delivery chunks last ++ post) = .ret (bytesOf chunks, post) ↔
      last = .eof ∧ ∀ chunk ∈ chunks, 0 ∉ chunk.1 := by
  rw [runLoop_delivery, ← textOf_eq_bytesOf_iff]
  cases last with
  | eof => simp
  | error => simp

/-- A `read` that fails makes the loop store a zero byte at the index `2 ^ 64 - 1`, and three
bytes of which the second is zero are two or one, as they are delivered. -/
theorem runLoop_delivery_losses :
    runLoop (readStep lp64) [] (delivery [⟨[97], by decide⟩] .error)
        = .fault (.outOfBounds 18446744073709551615) ∧
      runLoop (readStep lp64) [] (delivery [⟨[97, 0, 98], by decide⟩] .eof) = .ret ([97], []) ∧
      runLoop (readStep lp64) [] (delivery [⟨[97, 0], by decide⟩, ⟨[98], by decide⟩] .eof)
        = .ret ([97, 98], []) :=
  ⟨rfl, rfl, rfl⟩

/-! ### The result of the compilation -/

/-- A script that fails: the result holds what the loop has read. -/
theorem compile_of_failedScript {lang : LangCDebug} {submit : Submission} {rl : ResourceLimit}
    {reply : CompileReply} {path : String} {waited : WaitReply}
    (hscript : lang.compileScriptPath = some path) (hpipe : (reply path rl).pipe = 0)
    (hpid : (reply path rl).pid ≠ none) (hwaited : (reply path rl).waited = some waited)
    (hstat : waited.stat ≠ 0) :
    compile pf lang submit rl reply =
      (runLoop (readStep pf) [] (reply path rl).reads).bind fun r =>
        .ret { Result.ofSubmission submit with resType := .compileError, resContent := r.1 } := by
  obtain ⟨pid, hpid⟩ := Option.ne_none_iff_exists'.mp hpid
  simp only [compile, hscript, hpipe, hpid, hwaited, hstat, ne_eq, not_true, if_false]

end NpuOj
