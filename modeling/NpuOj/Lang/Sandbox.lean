import NpuOj.Lang.LaunchVerdict

/-!
# A program in its work directory

The child that `LangC::launch` forks reads `stdin.in` and writes `stdout.out`, which is
emptied when it is opened, and `stderr.out`, which is opened for append. No file may become
longer than the limit that `set_resource_limit` sets: a write is cut at the limit, and one
that starts there fails, and the kernel sends `SIGXFSZ`.

A program is modelled by what it does on its input, one step after the other: what it
writes, and the stop that is reported then. `NpuOj.childStops` are the stops that the parent
is told of with the limit in force, together with the files at each of them, and
`NpuOj.readStops` is what the loop of `NpuOj.launchLoop` makes of them.

The limit on `stdout.out` is a matter of the run itself. That on `stderr.out` depends on the
bytes that are there before. `NpuOj.freeRun` is the run without it, and
`NpuOj.readStops_childStops` says when the limit makes a difference.
-/

namespace NpuOj

open Posix

/-! ### Files -/

/-- The files of a work directory. One that is not there counts as one without bytes. -/
structure WorkDir where
  stdinIn : List UInt8
  stdoutOut : List UInt8
  stderrOut : List UInt8
  deriving DecidableEq, Repr

/-- `freopen` of the three files. -/
def WorkDir.reopened (dir : WorkDir) : WorkDir := { dir with stdoutOut := [] }

/-- The limit on the size of files: `launch` sets it and `set_resource_limit` hands it to
the kernel. -/
def rlimitFsize (pf : Platform) : ℕ := (MemorySize.setMB pf {} 5).getByte

/-- The file after a write at its end. -/
def writeUpTo (limit : ℕ) (file bytes : List UInt8) : List UInt8 :=
  file ++ bytes.take (limit - file.length)

/-- The write starts at the limit, or past it. -/
def StartsOver (limit : ℕ) (file bytes : List UInt8) : Prop := bytes ≠ [] ∧ limit ≤ file.length

instance (limit : ℕ) (file bytes : List UInt8) : Decidable (StartsOver limit file bytes) :=
  inferInstanceAs (Decidable (_ ∧ _))

theorem length_writeUpTo (limit : ℕ) (file bytes : List UInt8) :
    (writeUpTo limit file bytes).length = file.length + min (limit - file.length) bytes.length := by
  rw [writeUpTo, List.length_append, List.length_take]

/-! ### The program -/

/-- Where a program writes to. -/
inductive OutStream
  | stdout
  | stderr
  deriving DecidableEq, Repr

/-- A step of a program: it may write, and then it stops. -/
structure ChildStep where
  write : Option (OutStream × List UInt8)
  stop : WaitEvent

/-- What the step writes to the stream. -/
def ChildStep.bytesTo (step : ChildStep) (stream : OutStream) : List UInt8 :=
  match step.write with
  | some (dest, bytes) => if dest = stream then bytes else []
  | none => []

/-- What a program does on an input, as far as it has come, and the number that is read for
`VmPeak`. The parent does not wait for what comes after the end of the program. The number
does not depend on where the program was stopped: `get_proc_info` reads the line only if
`/proc/<pid>/status` is a directory. Its `popen` succeeds. -/
structure Behaviour where
  steps : List ChildStep
  vmPeak : ℤ

/-- The stop by `SIGXFSZ` that follows on the given stop. -/
def xfszStop (stop : WaitEvent) : WaitEvent := { stop with status := .stopped 25 }

/-- The files after a step. -/
def ChildStep.perform (limit : ℕ) (step : ChildStep) (dir : WorkDir) : WorkDir :=
  { dir with
    stdoutOut := writeUpTo limit dir.stdoutOut (step.bytesTo .stdout)
    stderrOut := writeUpTo limit dir.stderrOut (step.bytesTo .stderr) }

/-- **The stops of the child**, with the files at each of them. -/
def childStops (limit : ℕ) : List ChildStep → WorkDir → List (WaitEvent × WorkDir)
  | [], _ => []
  | step :: steps, dir =>
    let dir' := step.perform limit dir
    (step.stop, dir') ::
      if StartsOver limit dir.stdoutOut (step.bytesTo .stdout) ∨
          StartsOver limit dir.stderrOut (step.bytesTo .stderr) then
        [(xfszStop step.stop, dir')]
      else childStops limit steps dir'

/-! ### The stops that the parent reads -/

/-- What a stop comes to for the parent, if it does not go on: a verdict, or an index
outside the table. -/
def stopOutcome (pf : Platform) (rl : ResourceLimit) (pre : List WaitEvent) (stop : WaitEvent) :
    Option (Outcome Fault NojResult) :=
  if AtCheck pf rl stop ∧ ¬InTable stop.origAx then some (.fault (.outOfBounds stop.origAx))
  else (eventVerdict pf rl pre stop).map .ret

/-- The verdict of the loop of `launchLoop`, with the files when it ends, after the stops
that have been read. -/
def readStops (pf : Platform) (rl : ResourceLimit) :
    List WaitEvent → List (WaitEvent × WorkDir) → Outcome Fault (NojResult × WorkDir)
  | _, [] => .pending
  | pre, (stop, dir) :: stops =>
    match stopOutcome pf rl pre stop with
    | some outcome => outcome.bind fun v => .ret (v, dir)
    | none => readStops pf rl (pre ++ [stop]) stops

section Stops

variable {pf : Platform} {rl : ResourceLimit} {pre : List WaitEvent} {stop : WaitEvent}
  {v : NojResult}

theorem stopOutcome_eq_none_iff :
    stopOutcome pf rl pre stop = none ↔ eventVerdict pf rl pre stop = none := by
  rw [stopOutcome]
  split
  · next hout =>
    refine iff_of_false (by simp) fun hnone => hout.2 ?_
    obtain ⟨-, i, hi, -⟩ := eventVerdict_eq_none_iff.mp hnone
    by_contra hnot
    simp [tableIndex_eq_none_iff.mpr hnot] at hi
  · exact Option.map_eq_none_iff

theorem stopOutcome_of_verdict (hin : AtCheck pf rl stop → InTable stop.origAx)
    (hv : eventVerdict pf rl pre stop = some v) : stopOutcome pf rl pre stop = some (.ret v) := by
  rw [stopOutcome, if_neg fun hout => hout.2 (hin hout.1), hv, Option.map_some]

/-- **What the parent reads**: the stops up to the first one with a verdict, unless one of
them has a number outside the table. -/
theorem readStops_cases (stops : List (WaitEvent × WorkDir))
    (hpass : Passes (eventVerdict pf rl) pre) :
    (∃ before stop dir after v, stops = before ++ (stop, dir) :: after ∧
      Passes (eventVerdict pf rl) (pre ++ before.map Prod.fst) ∧
      eventVerdict pf rl (pre ++ before.map Prod.fst) stop = some v ∧
      (AtCheck pf rl stop → InTable stop.origAx) ∧ readStops pf rl pre stops = .ret (v, dir)) ∨
    (∃ before stop dir after, stops = before ++ (stop, dir) :: after ∧
      Passes (eventVerdict pf rl) (pre ++ before.map Prod.fst) ∧ AtCheck pf rl stop ∧
      ¬InTable stop.origAx ∧ readStops pf rl pre stops = .fault (.outOfBounds stop.origAx)) ∨
    Passes (eventVerdict pf rl) (pre ++ stops.map Prod.fst) ∧
      readStops pf rl pre stops = .pending := by
  induction stops generalizing pre with
  | nil => exact Or.inr (Or.inr ⟨by simpa using hpass, rfl⟩)
  | cons p stops ih =>
    obtain ⟨stop, dir⟩ := p
    have hnil : Passes (eventVerdict pf rl)
        (pre ++ ([] : List (WaitEvent × WorkDir)).map Prod.fst) := by simpa using hpass
    rcases hv : eventVerdict pf rl pre stop with _ | v
    · have hread : readStops pf rl pre ((stop, dir) :: stops)
          = readStops pf rl (pre ++ [stop]) stops := by
        rw [readStops, stopOutcome_eq_none_iff.mpr hv]
      have hmap (before : List (WaitEvent × WorkDir)) : pre ++ [stop] ++ before.map Prod.fst
          = pre ++ ((stop, dir) :: before).map Prod.fst := by simp
      rw [hread]
      rcases ih (passes_snoc.mpr ⟨hpass, hv⟩) with
        ⟨before, stop', dir', after, w, rfl, hbefore, hw, hin, hret⟩ |
        ⟨before, stop', dir', after, rfl, hbefore, hcheck, hout, hfault⟩ | ⟨hall, hpending⟩
      · rw [hmap] at hbefore hw
        exact Or.inl ⟨(stop, dir) :: before, stop', dir', after, w, rfl, hbefore, hw, hin, hret⟩
      · rw [hmap] at hbefore
        exact Or.inr (Or.inl ⟨(stop, dir) :: before, stop', dir', after, rfl, hbefore, hcheck, hout,
          hfault⟩)
      · rw [hmap] at hall
        exact Or.inr (Or.inr ⟨hall, hpending⟩)
    · by_cases hout : AtCheck pf rl stop ∧ ¬InTable stop.origAx
      · refine Or.inr (Or.inl ⟨[], stop, dir, stops, rfl, hnil, hout.1, hout.2, ?_⟩)
        rw [readStops, stopOutcome, if_pos hout]
        rfl
      · have hin : AtCheck pf rl stop → InTable stop.origAx := fun hcheck =>
          not_not.mp fun hnot => hout ⟨hcheck, hnot⟩
        refine Or.inl ⟨[], stop, dir, stops, v, rfl, hnil, by simpa using hv, hin, ?_⟩
        rw [readStops, stopOutcome_of_verdict hin hv]
        rfl

end Stops

/-! ### Without a limit on `stderr.out` -/

/-- What a run comes to if nothing limits `stderr.out`: its outcome, the output, and how
much is written to `stderr.out` by the steps that the program goes on after, and by the
last one. -/
structure FreeRun where
  outcome : Outcome Fault NojResult
  stdout : List UInt8
  chunks : List ℕ
  final : ℕ

/-- How much the run writes to `stderr.out`. -/
def FreeRun.stderrSize (run : FreeRun) : ℕ := run.chunks.sum + run.final

/-- The run, after the given stops and with the given output. -/
def freeRun (pf : Platform) (rl : ResourceLimit) (limit : ℕ) :
    List WaitEvent → List ChildStep → List UInt8 → FreeRun
  | _, [], stdout => ⟨.pending, stdout, [], 0⟩
  | pre, step :: steps, stdout =>
    let stdout' := writeUpTo limit stdout (step.bytesTo .stdout)
    let size := (step.bytesTo .stderr).length
    match stopOutcome pf rl pre step.stop with
    | some outcome => ⟨outcome, stdout', [], size⟩
    | none =>
      if StartsOver limit stdout (step.bytesTo .stdout) then
        ⟨.ret .outputLimitExceed, stdout', [], size⟩
      else
        let run := freeRun pf rl limit (pre ++ [step.stop]) steps stdout'
        { run with chunks := size :: run.chunks }

/-- With so many bytes in `stderr.out`, one of the writes starts at the limit. -/
def StderrOver (limit : ℕ) : ℕ → List ℕ → Prop
  | _, [] => False
  | σ, size :: sizes => (0 < size ∧ limit ≤ σ) ∨ StderrOver limit (σ + size) sizes

/-- More bytes make it only more likely. -/
theorem StderrOver.mono {limit σ σ' : ℕ} {sizes : List ℕ} (h : StderrOver limit σ sizes)
    (hσ : σ ≤ σ') : StderrOver limit σ' sizes := by
  induction sizes generalizing σ σ' with
  | nil => exact h
  | cons size sizes ih =>
    rcases h with ⟨hsize, hlimit⟩ | h
    · exact Or.inl ⟨hsize, hlimit.trans hσ⟩
    · exact Or.inr (ih h (Nat.add_le_add_right hσ size))

instance decidableStderrOver (limit : ℕ) : ∀ (σ : ℕ) (sizes : List ℕ),
    Decidable (StderrOver limit σ sizes)
  | _, [] => inferInstanceAs (Decidable False)
  | σ, size :: sizes =>
    have := decidableStderrOver limit (σ + size) sizes
    inferInstanceAs (Decidable ((0 < size ∧ limit ≤ σ) ∨ StderrOver limit (σ + size) sizes))

/-- What the run comes to with `σ` bytes in `stderr.out`. -/
def FreeRun.outcomeBehind (run : FreeRun) (limit σ : ℕ) : Outcome Fault NojResult :=
  if StderrOver limit σ run.chunks then .ret .outputLimitExceed else run.outcome

/-! ### With the limit -/

section Limit

variable {pf : Platform} {rl : ResourceLimit} {limit σ : ℕ} {pre : List WaitEvent}
  {stop : WaitEvent} {dir : WorkDir}

theorem not_trapStop_xfszStop : ¬TrapStop (xfszStop stop) := fun h => by
  have hsig := h.2
  rw [show (xfszStop stop).status.stat = 256 * 25 + 127 from rfl] at hsig
  exact absurd hsig (by decide)

/-- A stop by `SIGXFSZ` after a stop that the program may go on from. -/
theorem stopOutcome_xfszStop (post : List WaitEvent) (h : stopOutcome pf rl pre stop = none) :
    stopOutcome pf rl post (xfszStop stop) = some (.ret .outputLimitExceed) := by
  obtain ⟨⟨hm, ht, -⟩, -⟩ := eventVerdict_eq_none_iff.mp (stopOutcome_eq_none_iff.mp h)
  have hm' : ¬OverMemory pf rl (xfszStop stop) := hm
  have ht' : ¬OverTime rl (xfszStop stop) := ht
  have hstat : (xfszStop stop).status.stat = 256 * 25 + 127 := rfl
  refine stopOutcome_of_verdict (fun hcheck => absurd hcheck.2.2 not_trapStop_xfszStop) ?_
  simp only [eventVerdict, if_neg hm', if_neg ht', if_pos not_trapStop_xfszStop, hstat]
  decide

/-- A write moves the file as far as it moves a counter, up to the limit. -/
theorem min_length_writeUpTo {file bytes : List UInt8}
    (h : min limit file.length = min limit σ) :
    min limit (writeUpTo limit file bytes).length = min limit (σ + bytes.length) := by
  rw [length_writeUpTo]
  omega

/-- **The run in its work directory**, with `σ` bytes in `stderr.out`. -/
theorem readStops_childStops (pf : Platform) (rl : ResourceLimit) (limit : ℕ)
    (pre : List WaitEvent) (steps : List ChildStep)
    (hσ : min limit dir.stderrOut.length = min limit σ) :
    let run := freeRun pf rl limit pre steps dir.stdoutOut
    ∃ dir', readStops pf rl pre (childStops limit steps dir)
        = (run.outcomeBehind limit σ).bind (fun v => .ret (v, dir')) ∧
      min limit dir'.stderrOut.length = min limit (σ + run.stderrSize) ∧
      (¬StderrOver limit σ run.chunks → dir'.stdoutOut = run.stdout) := by
  induction steps generalizing pre dir σ with
  | nil => exact ⟨dir, rfl, hσ, fun _ => rfl⟩
  | cons step steps ih =>
    have hdir : min limit (step.perform limit dir).stderrOut.length
        = min limit (σ + (step.bytesTo .stderr).length) := min_length_writeUpTo hσ
    rcases hstop : stopOutcome pf rl pre step.stop with _ | outcome
    · have hxfsz := stopOutcome_xfszStop (pre ++ [step.stop]) hstop
      by_cases hout : StartsOver limit dir.stdoutOut (step.bytesTo .stdout)
      · -- the output is over the limit whatever there is in `stderr.out`
        refine ⟨step.perform limit dir, ?_, ?_, fun _ => ?_⟩
        · simp [childStops, readStops, freeRun, FreeRun.outcomeBehind, hstop, hout, hxfsz]
        · simpa [freeRun, hstop, hout, FreeRun.stderrSize] using hdir
        · simp [freeRun, hstop, hout, ChildStep.perform]
      · by_cases herr : StartsOver limit dir.stderrOut (step.bytesTo .stderr)
        · have hlimit : limit ≤ σ := by
            have := herr.2
            omega
          have hsize : 0 < (step.bytesTo .stderr).length := List.length_pos_iff.mpr herr.1
          have hover : StderrOver limit σ (freeRun pf rl limit pre (step :: steps)
              dir.stdoutOut).chunks := by
            simp only [freeRun, hstop, if_neg hout]
            exact Or.inl ⟨hsize, hlimit⟩
          refine ⟨step.perform limit dir, ?_, by omega, fun hnot => absurd hover hnot⟩
          rw [FreeRun.outcomeBehind, if_pos hover]
          simp [childStops, readStops, hstop, herr, hxfsz]
        · obtain ⟨dir', hread, hsize, hstdout⟩ := ih (pre ++ [step.stop]) hdir
          -- the step writes nothing, or there is room
          have hroom : ¬(0 < (step.bytesTo .stderr).length ∧ limit ≤ σ) := fun h =>
            herr ⟨List.length_pos_iff.mp h.1, by omega⟩
          have hrun : freeRun pf rl limit pre (step :: steps) dir.stdoutOut
              = let run := freeRun pf rl limit (pre ++ [step.stop]) steps
                  (step.perform limit dir).stdoutOut
                { run with chunks := (step.bytesTo .stderr).length :: run.chunks } := by
            simp only [freeRun, hstop, if_neg hout, ChildStep.perform]
          have hover : ∀ sizes, StderrOver limit σ ((step.bytesTo .stderr).length :: sizes) ↔
              StderrOver limit (σ + (step.bytesTo .stderr).length) sizes := fun sizes =>
            or_iff_right hroom
          refine ⟨dir', ?_, ?_, ?_⟩
          · rw [hrun, FreeRun.outcomeBehind]
            simp only [hover]
            simpa [childStops, readStops, FreeRun.outcomeBehind, hstop, hout, herr] using hread
          · simpa [hrun, FreeRun.stderrSize, Nat.add_assoc] using hsize
          · rw [hrun]
            simp only [hover]
            exact hstdout
    · refine ⟨step.perform limit dir, ?_, ?_, fun _ => ?_⟩
      · simp [childStops, readStops, freeRun, FreeRun.outcomeBehind, hstop, StderrOver]
      · simpa [freeRun, hstop, FreeRun.stderrSize] using hdir
      · simp [freeRun, hstop, ChildStep.perform]

end Limit

end NpuOj
