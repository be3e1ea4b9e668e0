import NpuOj.Lang.LaunchVerdict
import NpuOj.Lib.TransSystem

/-!
# The supervised program and its supervisor

`NpuOj.launchStep` reads events; here is where they come from. The child of `LangC::launch` has
asked to be traced, so it stops whenever it enters a system call and again when it leaves it, and
the kernel carries the call out only if the parent has let it go on in between. Parent and child
are two parties that take turns, and the events are what they have to say to each other.

The program is any machine (`NpuOj.Program`): what is known of it is the number of its next call,
and what the kernel makes of that call. `NpuOj.alone` is the program by itself, and
`NpuOj.supervised` the program together with the loop of `launch`, which ends where a number
outside the table is looked up. The invariant of the two is `NpuOj.TraceInv`, and it gives the first
half of what the loop is for: nothing is carried out that the budgets do not permit
(`NpuOj.alone_of_supervised`). A call is charged when it is entered and once more when it is left,
and the stop at the first `execve` is charged as well.

A child that is killed at the entry of a call does not carry it out any more: this is how the
kernel treats a process with a pending `SIGKILL`. Stops by `SIGTRAP` that are not the entry or the
exit of a call (a breakpoint, the stop after another `execve`) may come at any time, with any
number in the register.
-/

namespace NpuOj

open Posix

/-! ### The program alone -/

/-- A program, as the kernel sees it. -/
structure Program (σ ω : Type) where
  /-- The number of the call that it makes next. -/
  nextCall : σ → ℤ
  /-- The call is carried out, with what the kernel answers: the state after it, and the exit
  status if the process has come to its end. -/
  perform : σ → ω → σ × Option (Fin 256)

/-- A process that runs a program: its state, the numbers of the calls that were carried out, and
its exit status. -/
structure Process (σ : Type) where
  state : σ
  calls : List ℤ
  exited : Option (Fin 256)

variable {σ ω : Type}

/-- The process after its next call. -/
def Process.after (M : Program σ ω) (p : Process σ) (o : ω) : Process σ where
  state := (M.perform p.state o).1
  calls := p.calls ++ [M.nextCall p.state]
  exited := (M.perform p.state o).2

/-- **The program by itself**, call after call. -/
def alone (M : Program σ ω) : TransSystem (Process σ) ω where
  Init p := p.calls = [] ∧ p.exited = none
  step p o := if p.exited = none then some (p.after M o) else none

/-! ### The two parties -/

/-- Why the child does not run. -/
inductive Halt
  /-- It has become the program. -/
  | exec
  /-- It stopped at the entry of a call. -/
  | callEntry (nr : ℤ)
  /-- It stopped after a call. -/
  | callExit (nr : ℤ)
  /-- It stopped by some other `SIGTRAP`. -/
  | trap (ax : ℤ)
  /-- It stopped by a signal. -/
  | signal (signo : Fin 256)
  /-- It exited. -/
  | exited (code : Fin 256)
  /-- A signal has terminated it. -/
  | signaled (signo : Signo)

/-- The status that `wait4` reports. -/
def Halt.status : Halt → WaitStatus
  | exec | callEntry _ | callExit _ | trap _ => .stopped 5
  | signal signo => .stopped signo
  | exited code => .exited code
  | signaled signo => .signaled signo

/-- The number in the register. -/
def Halt.origAx : Halt → ℤ
  | exec => Sys.execve.nr
  | callEntry nr | callExit nr => nr
  | trap ax => ax
  | signal _ | exited _ | signaled _ => -1

/-- What `wait4` reports, with what the child has used so far. -/
def Halt.event (h : Halt) (usage : Rusage) : WaitEvent := ⟨h.status, usage, h.origAx⟩

/-- The child has come to its end. -/
def Halt.final : Halt → Bool
  | exited _ | signaled _ => true
  | _ => false

/-- The child. -/
inductive Tracee
  /-- It runs its own code. -/
  | running
  /-- It has been let into a call, which is now carried out. -/
  | calling
  /-- It does not run, and the parent has not been told yet. -/
  | halted (h : Halt) (usage : Rusage)
  /-- It has exited or was terminated, and the parent knows. -/
  | ended
  /-- The parent has killed it. -/
  | killed

/-- The child after `PTRACE_SYSCALL`. -/
def Halt.resumed : Halt → Tracee
  | callEntry _ => .calling
  | exec | callExit _ | trap _ | signal _ => .running
  | exited _ | signaled _ => .ended

/-- The parent. -/
inductive Tracer
  /-- It is in its loop. -/
  | waiting (st : LaunchState)
  /-- It has left the loop. -/
  | left (st : LaunchState)
  /-- It has read outside the table. -/
  | faulted (f : Fault)

/-- Parent and child, with the events that the parent has read. -/
structure Traced (σ : Type) where
  run : Process σ
  child : Tracee
  parent : Tracer
  seen : List WaitEvent

/-- What may happen next. -/
inductive TraceStep (ω : Type)
  /-- The program makes its next call, and stops at its entry. -/
  | enter (usage : Rusage)
  /-- The call is carried out; the program stops after it, or has come to its end. -/
  | perform (o : ω) (usage : Rusage)
  /-- The program stops by a `SIGTRAP` outside its calls. -/
  | trap (ax : ℤ) (usage : Rusage)
  /-- The program stops by another signal. -/
  | signal (signo : Fin 256) (usage : Rusage)
  /-- A signal terminates the program. -/
  | terminate (signo : Signo) (usage : Rusage)
  /-- The parent returns from `wait4`, and goes through the body of its loop. -/
  | wait

/-- `wait4` and the body of the loop: the child is resumed, or killed if it is still there. -/
def Traced.waitWith (body : LaunchState → WaitEvent → LoopFlow Fault LaunchState) (s : Traced σ)
    (st : LaunchState) (h : Halt) (usage : Rusage) : Traced σ :=
  let e := h.event usage
  let s := { s with seen := s.seen ++ [e] }
  match body st e with
  | .next st' => { s with child := h.resumed, parent := .waiting st' }
  | .stop st' => { s with child := if h.final then .ended else .killed, parent := .left st' }
  | .fault f => { s with parent := .faulted f }

/-- `wait4` and the body of the loop of `launch`. -/
def Traced.wait (pf : Platform) (rl : ResourceLimit) (s : Traced σ) (st : LaunchState) (h : Halt)
    (usage : Rusage) : Traced σ :=
  s.waitWith (launchStep pf rl (getRlCpuMillisecond rl)) st h usage

/-- One step of parent or child. -/
def Traced.step (M : Program σ ω) (pf : Platform) (rl : ResourceLimit) (s : Traced σ) :
    TraceStep ω → Option (Traced σ)
  | .enter usage => match s.child with
    | .running => some { s with child := .halted (.callEntry (M.nextCall s.run.state)) usage }
    | _ => none
  | .perform o usage => match s.child with
    | .calling =>
      let run := s.run.after M o
      let halt := match run.exited with
        | none => Halt.callExit (M.nextCall s.run.state)
        | some code => .exited code
      some { s with run := run, child := .halted halt usage }
    | _ => none
  | .trap ax usage => match s.child with
    | .running => some { s with child := .halted (.trap ax) usage }
    | _ => none
  | .signal signo usage => match s.child with
    | .running => if signo = 5 then none else some { s with child := .halted (.signal signo) usage }
    | _ => none
  | .terminate signo usage => match s.child with
    | .running | .calling => some { s with child := .halted (.signaled signo) usage }
    | _ => none
  | .wait => match s.parent, s.child with
    | .waiting st, .halted h usage => some (s.wait pf rl st h usage)
    | _, _ => none

/-- **The supervised program**, from the stop at which the child has become the program. -/
def supervised (M : Program σ ω) (pf : Platform) (rl : ResourceLimit) (submit : Submission) :
    TransSystem (Traced σ) (TraceStep ω) where
  Init s := (s.run.calls = [] ∧ s.run.exited = none) ∧ (∃ usage, s.child = .halted .exec usage) ∧
    s.parent = .waiting ⟨Result.ofSubmission submit, rl.syscallLimits⟩ ∧ s.seen = []
  step s a := s.step M pf rl a

/-! ### What the parent makes of an event -/

section Events

variable {pf : Platform} {rl : ResourceLimit} {submit : Submission} {st : LaunchState}
  {seen pre : List WaitEvent} {e : WaitEvent} {usage : Rusage} {h : Halt}

/-- How many of the events carry the number. -/
def stopsAt (seen : List WaitEvent) (nr : ℤ) : ℕ := seen.countP fun e => e.origAx = nr

/-- One stop, if the numbers are the same. -/
def oneAt (n nr : ℤ) : ℕ := if n = nr then 1 else 0

theorem stopsAt_event (seen : List WaitEvent) (h : Halt) (usage : Rusage) (nr : ℤ) :
    stopsAt (seen ++ [h.event usage]) nr = stopsAt seen nr + oneAt h.origAx nr := by
  simp [stopsAt, oneAt, Halt.event, List.countP_append, List.countP_cons]

/-- The budget of the number is enough for so many stops. -/
def Affords (t : SyscallLimits) (nr : ℤ) (n : ℕ) : Prop := ∃ i ∈ tableIndex nr, t i < 0 ∨ n ≤ t i

theorem Affords.mono {t : SyscallLimits} {nr : ℤ} {n m : ℕ} (ha : Affords t nr n) (hle : m ≤ n) :
    Affords t nr m := by
  obtain ⟨i, hi, hlim⟩ := ha
  exact ⟨i, hi, hlim.imp_right fun h => le_trans (by exact_mod_cast hle) h⟩

theorem Affords.inTable {t : SyscallLimits} {nr : ℤ} {n : ℕ} (ha : Affords t nr n) :
    InTable nr := by
  obtain ⟨i, hi, -⟩ := ha
  by_contra hout
  simp [tableIndex_eq_none_iff.mpr hout] at hi

theorem budgetLeft_iff {t : SyscallLimits} :
    BudgetLeft t pre e ↔ Affords t e.origAx (stopsAt pre e.origAx + 1) := by
  simp only [BudgetLeft, Affords, stopsAt]
  push_cast
  rfl

/-- What the parent knows of the events that it has read. -/
def Tracer.Reads (pf : Platform) (rl : ResourceLimit) (submit : Submission)
    (seen : List WaitEvent) : Tracer → Prop
  | waiting st => Passes (eventVerdict pf rl) seen ∧ LoopInv rl seen st ∧
      through (launchStep pf rl (getRlCpuMillisecond rl))
        ⟨Result.ofSubmission submit, rl.syscallLimits⟩ seen = some st
  | left st => launchLoop pf rl submit seen = .ret (st, [])
  | faulted f => launchLoop pf rl submit seen = .fault f

/-- **The next event**: the loop goes on if the event has no verdict, and is left with it
otherwise, unless a number outside the table is looked up. -/
theorem Tracer.Reads.next (hr : (waiting st).Reads pf rl submit seen) (e : WaitEvent) :
    (eventVerdict pf rl seen e = none ∧ ∃ st',
      launchStep pf rl (getRlCpuMillisecond rl) st e = .next st' ∧
        (waiting st').Reads pf rl submit (seen ++ [e])) ∨
    (∃ v st', eventVerdict pf rl seen e = some v ∧
      launchStep pf rl (getRlCpuMillisecond rl) st e = .stop st' ∧ st'.res.resType = v ∧
        (left st').Reads pf rl submit (seen ++ [e])) ∨
    AtCheck pf rl e ∧ ¬InTable e.origAx ∧
      launchStep pf rl (getRlCpuMillisecond rl) st e = .fault (.outOfBounds e.origAx) ∧
        (faulted (.outOfBounds e.origAx)).Reads pf rl submit (seen ++ [e]) := by
  obtain ⟨hpass, hinv, hthrough⟩ := hr
  by_cases hin : AtCheck pf rl e → InTable e.origAx
  · cases hv : eventVerdict pf rl seen e with
    | none =>
      obtain ⟨st', hnext, hinv'⟩ := launchStep_next hinv hv
      exact Or.inl ⟨rfl, st', hnext, passes_snoc.mpr ⟨hpass, hv⟩, hinv',
        through_snoc hthrough hnext⟩
    | some v =>
      obtain ⟨st', hstop, htype, -⟩ := launchStep_stop hinv hin hv
      refine Or.inr (Or.inl ⟨v, st', rfl, hstop, htype, ?_⟩)
      rw [Reads, launchLoop, runLoop_append _ hthrough, runLoop_cons_stop hstop]
  · obtain ⟨hcheck, hout⟩ := Classical.not_imp.mp hin
    have hfault := (launchStep_of_atCheck hinv hcheck).trans (checkSyscall_of_not_inTable hout)
    refine Or.inr (Or.inr ⟨hcheck, hout, hfault, ?_⟩)
    rw [Reads, launchLoop, runLoop_append _ hthrough, runLoop_cons_fault hfault]

/-- No budget is overdrawn while the loop goes on. -/
theorem Tracer.Reads.affords (hr : (waiting st).Reads pf rl submit seen) {nr : ℤ}
    (hin : InTable nr) : Affords rl.syscallLimits nr (stopsAt seen nr) := by
  obtain ⟨i, hi⟩ := exists_tableIndex hin
  obtain rfl := tableIndex_eq_some_iff.mp hi
  refine ⟨i, hi, or_iff_not_imp_left.mpr fun hnonneg => ?_⟩
  have hover := hr.2.1.notOverdrawn i (not_lt.mp hnonneg)
  rw [charged, if_neg hnonneg] at hover
  rw [stopsAt]
  omega

/-- The stops that the loop takes for those at a call. -/
def Halt.Trapped : Halt → Prop
  | exec | callEntry _ | callExit _ | trap _ => True
  | signal signo => signo = 5
  | exited _ | signaled _ => False

theorem Halt.trapStop_event_iff : TrapStop (h.event usage) ↔ h.Trapped := by
  have hstopped : ∀ signo, (wifstopped (WaitStatus.stopped signo).stat ∧
      wstopsig (WaitStatus.stopped signo).stat = sigtrap) ↔ signo = 5 := fun signo => by
    rw [WaitStatus.wstopsig_stopped, sigtrap, Fin.ext_iff]
    refine (and_iff_right (WaitStatus.wifstopped_stopped signo)).trans ?_
    change ((signo : ℕ) : ℤ) = 5 ↔ (signo : ℕ) = 5
    omega
  cases h with
  | exec | callEntry nr | callExit nr | trap ax =>
    exact (hstopped 5).trans (iff_of_true rfl trivial)
  | signal signo => exact hstopped signo
  | exited code =>
    exact iff_of_false (fun h => not_exited_of_trapStop h (WaitStatus.wifexited_exited code)) id
  | signaled signo =>
    exact iff_of_false
      (fun h => not_signaled_of_trapStop h (WaitStatus.wifsignaled_signaled signo)) id

/-- **The loop goes on** after a stop at a call that has budget, within the limits. -/
theorem Halt.eventVerdict_event_eq_none_iff :
    eventVerdict pf rl pre (h.event usage) = none ↔
      (¬OverMemory pf rl (h.event usage) ∧ ¬OverTime rl (h.event usage) ∧ h.Trapped) ∧
        Affords rl.syscallLimits h.origAx (stopsAt pre h.origAx + 1) := by
  rw [eventVerdict_eq_none_iff, AtCheck, trapStop_event_iff, budgetLeft_iff]
  rfl

end Events

/-! ### What has been charged -/

section Supervised

variable {M : Program σ ω} {pf : Platform} {rl : ResourceLimit} {submit : Submission}
  {s s' : Traced σ} {a : TraceStep ω} {p : Process σ} {t : SyscallLimits}

/-- The stops of a process at a call: two for every time it was carried out, and one at the
`execve` with which it began. -/
def Process.stops (p : Process σ) (nr : ℤ) : ℕ :=
  2 * p.calls.count nr + oneAt Sys.execve.nr nr

/-- **The calls so far are paid for, and so is the entry of the next one.** -/
def Permitted (M : Program σ ω) (t : SyscallLimits) (p : Process σ) : Prop :=
  (∀ nr ∈ Sys.execve.nr :: p.calls, Affords t nr (p.stops nr)) ∧
    Affords t (M.nextCall p.state) (p.stops (M.nextCall p.state) + 1)

theorem Process.stops_after (M : Program σ ω) (p : Process σ) (o : ω) (nr : ℤ) :
    (p.after M o).stops nr = p.stops nr + 2 * oneAt (M.nextCall p.state) nr := by
  simp only [stops, after, oneAt, List.count_append, List.count_singleton, beq_iff_eq]
  omega

/-- The stops at a call, with the one that the parent has not been told of. -/
def Traced.reported (s : Traced σ) (nr : ℤ) : ℕ :=
  stopsAt s.seen nr + match s.child with
    | .halted .exec _ => oneAt Sys.execve.nr nr
    | .halted (.callExit n) _ => oneAt n nr
    | _ => 0

/-- The stops that the process has made, the last one being the entry of the call that it is let
into. -/
def Traced.made (M : Program σ ω) (s : Traced σ) (nr : ℤ) : ℕ :=
  s.run.stops nr + match s.child with
    | .calling => oneAt (M.nextCall s.run.state) nr
    | _ => 0

/-- What is known of the process where the child is. -/
def Process.ChildAt (M : Program σ ω) (t : SyscallLimits) (p : Process σ) : Tracee → Prop
  | .running | .killed => p.exited = none
  | .calling => p.exited = none ∧ Permitted M t p
  | .halted (.callEntry nr) _ => p.exited = none ∧ nr = M.nextCall p.state
  | .halted (.callExit nr) _ => p.exited = none ∧ nr ∈ p.calls
  | .halted (.signal signo) _ => p.exited = none ∧ signo ≠ 5
  | .halted (.exited code) _ => p.exited = some code
  | .halted _ _ => p.exited = none
  | .ended => True

/-- The child has not come to its end. -/
def Tracee.Alive : Tracee → Prop
  | running | calling => True
  | halted h _ => h.final = false
  | ended | killed => False

/-- **The invariant of parent and child.** -/
structure TraceInv (M : Program σ ω) (pf : Platform) (rl : ResourceLimit) (submit : Submission)
    (s : Traced σ) : Prop where
  /-- The parent is where the events have brought its loop. -/
  reads : s.parent.Reads pf rl submit s.seen
  /-- The child moves only as long as the parent is in its loop. -/
  moves : s.child = .running ∨ s.child = .calling → ∃ st, s.parent = .waiting st
  /-- The first stop is the one at `execve`. -/
  first : ∀ usage, s.child = .halted .exec usage → s.seen = []
  /-- No stop at a call is kept from the parent. -/
  told : s.child.Alive → ∀ nr, s.made M nr ≤ s.reported nr
  /-- All calls that were carried out are ones of the table. -/
  inTable : ∀ nr ∈ s.run.calls, InTable nr
  /-- The process is where the child is. -/
  childAt : s.run.ChildAt M rl.syscallLimits s.child

/-- What can have happened in a step. -/
inductive TraceMove (M : Program σ ω) (pf : Platform) (rl : ResourceLimit) (s : Traced σ) :
    TraceStep ω → Traced σ → Prop
  | enter {usage : Rusage} (hc : s.child = .running) : TraceMove M pf rl s (.enter usage)
      { s with child := .halted (.callEntry (M.nextCall s.run.state)) usage }
  | perform {o : ω} {usage : Rusage} (hc : s.child = .calling)
      (hrun : (s.run.after M o).exited = none) : TraceMove M pf rl s (.perform o usage)
        { s with run := s.run.after M o
                 child := .halted (.callExit (M.nextCall s.run.state)) usage }
  | exit {o : ω} {usage : Rusage} {code : Fin 256} (hc : s.child = .calling)
      (hrun : (s.run.after M o).exited = some code) : TraceMove M pf rl s (.perform o usage)
        { s with run := s.run.after M o, child := .halted (.exited code) usage }
  | trap {ax : ℤ} {usage : Rusage} (hc : s.child = .running) : TraceMove M pf rl s (.trap ax usage)
      { s with child := .halted (.trap ax) usage }
  | signal {signo : Fin 256} {usage : Rusage} (hc : s.child = .running) (hne : signo ≠ 5) :
      TraceMove M pf rl s (.signal signo usage) { s with child := .halted (.signal signo) usage }
  | terminate {signo : Signo} {usage : Rusage} (hc : s.child = .running ∨ s.child = .calling) :
      TraceMove M pf rl s (.terminate signo usage)
        { s with child := .halted (.signaled signo) usage }
  | wait {st : LaunchState} {h : Halt} {usage : Rusage} (hp : s.parent = .waiting st)
      (hc : s.child = .halted h usage) : TraceMove M pf rl s .wait (s.wait pf rl st h usage)

theorem traceMove_of_step (h : s.step M pf rl a = some s') : TraceMove M pf rl s a s' := by
  cases a with
  | enter usage =>
    simp only [Traced.step] at h
    split at h
    · next hc =>
      obtain rfl := Option.some.inj h
      exact .enter hc
    · cases h
  | perform o usage =>
    simp only [Traced.step] at h
    split at h
    · next hc =>
      obtain rfl := Option.some.inj h
      cases hrun : (s.run.after M o).exited with
      | none => exact .perform hc hrun
      | some code => exact .exit hc hrun
    · cases h
  | trap ax usage =>
    simp only [Traced.step] at h
    split at h
    · next hc =>
      obtain rfl := Option.some.inj h
      exact .trap hc
    · cases h
  | signal signo usage =>
    simp only [Traced.step] at h
    split at h
    · next hc =>
      split at h
      · cases h
      · next hne =>
        obtain rfl := Option.some.inj h
        exact .signal hc hne
    · cases h
  | terminate signo usage =>
    simp only [Traced.step] at h
    split at h
    · next hc =>
      obtain rfl := Option.some.inj h
      exact .terminate (Or.inl hc)
    · next hc =>
      obtain rfl := Option.some.inj h
      exact .terminate (Or.inr hc)
    · cases h
  | wait =>
    simp only [Traced.step] at h
    split at h
    · next hp hc =>
      obtain rfl := Option.some.inj h
      exact .wait hp hc
    · cases h

/-- **The three ways of a return from `wait4`**: the child is resumed, or killed or reaped, or the
parent reads outside the table. -/
theorem Traced.wait_cases {st : LaunchState} (h : Halt) (usage : Rusage)
    (hr : (Tracer.waiting st).Reads pf rl submit s.seen) :
    let e := h.event usage
    (eventVerdict pf rl s.seen e = none ∧ ∃ st', s.wait pf rl st h usage
        = { s with seen := s.seen ++ [e], child := h.resumed, parent := .waiting st' } ∧
      (Tracer.waiting st').Reads pf rl submit (s.seen ++ [e])) ∨
    (∃ v st', eventVerdict pf rl s.seen e = some v ∧ s.wait pf rl st h usage
        = { s with seen := s.seen ++ [e], child := if h.final then .ended else .killed
                   parent := .left st' } ∧ st'.res.resType = v ∧
      (Tracer.left st').Reads pf rl submit (s.seen ++ [e])) ∨
    AtCheck pf rl e ∧ ¬InTable h.origAx ∧ s.wait pf rl st h usage
        = { s with seen := s.seen ++ [e], parent := .faulted (.outOfBounds h.origAx) } ∧
      (Tracer.faulted (.outOfBounds h.origAx)).Reads pf rl submit (s.seen ++ [e]) := by
  rcases hr.next (h.event usage) with
    ⟨hv, st', hbody, hr'⟩ | ⟨v, st', hv, hbody, htype, hr'⟩ | ⟨hcheck, hout, hbody, hr'⟩
  · exact Or.inl ⟨hv, st', by simp only [wait, waitWith, hbody], hr'⟩
  · exact Or.inr (Or.inl ⟨v, st', hv, by simp only [wait, waitWith, hbody], htype, hr'⟩)
  · exact Or.inr (Or.inr ⟨hcheck, hout, by simp only [wait, waitWith, hbody]; rfl, hr'⟩)

theorem traceInv_of_init (h : (supervised M pf rl submit).Init s) :
    TraceInv M pf rl submit s where
  reads := by
    rw [h.2.2.1, h.2.2.2]
    exact ⟨passes_nil, loopInv_nil rl submit, rfl⟩
  moves hc := by
    obtain ⟨usage, hchild⟩ := h.2.1
    simp [hchild] at hc
  first _ _ := h.2.2.2
  told _ nr := by
    obtain ⟨usage, hchild⟩ := h.2.1
    simp [Traced.made, Traced.reported, Process.stops, hchild, h.1.1]
  inTable nr hnr := by simp [h.1.1] at hnr
  childAt := by
    obtain ⟨usage, hchild⟩ := h.2.1
    rw [hchild]
    exact h.1.2

/-- What the parent has been told bounds what the process has paid for. -/
theorem TraceInv.affords {st : LaunchState} (hinv : TraceInv M pf rl submit s)
    (hp : s.parent = .waiting st) {nr : ℤ} (hin : InTable nr)
    (hle : s.run.stops nr ≤ stopsAt s.seen nr) :
    Affords rl.syscallLimits nr (s.run.stops nr) := by
  have hreads := hinv.reads
  rw [hp] at hreads
  exact (hreads.affords hin).mono hle

/-- **A return from `wait4` keeps the invariant.** The child is let into its call only if that is
permitted. -/
theorem TraceInv.wait {st : LaunchState} {h : Halt} {usage : Rusage}
    (hinv : TraceInv M pf rl submit s) (hp : s.parent = .waiting st)
    (hc : s.child = .halted h usage) : TraceInv M pf rl submit (s.wait pf rl st h usage) := by
  have hreads := hinv.reads
  have hat := hinv.childAt
  have htold := hinv.told
  rw [hp] at hreads
  rw [hc] at hat htold
  rcases s.wait_cases h usage hreads with
    ⟨hv, st', heq, hreads'⟩ | ⟨v, st', -, heq, -, hreads'⟩ | ⟨-, hout, heq, hreads'⟩
  · obtain ⟨⟨-, -, htrapped⟩, hpaid⟩ := Halt.eventVerdict_event_eq_none_iff.mp hv
    have hsnoc := stopsAt_event s.seen h usage
    rw [heq]
    cases h with
    | callEntry n =>
      obtain ⟨hlive, rfl⟩ := hat
      have hle : ∀ nr, s.run.stops nr ≤ stopsAt s.seen nr := by
        simpa [Traced.made, Traced.reported, hc] using htold rfl
      refine ⟨hreads', fun _ => ⟨st', rfl⟩, by simp [Halt.resumed], fun _ nr => ?_, hinv.inTable,
        hlive, fun nr hnr => ?_, ?_⟩
      · have := hle nr
        simp only [Traced.made, Traced.reported, Halt.resumed, hsnoc, Halt.origAx]
        omega
      · refine hinv.affords hp ?_ (hle nr)
        rcases List.mem_cons.mp hnr with rfl | hnr
        · decide
        · exact hinv.inTable nr hnr
      · exact hpaid.mono (Nat.add_le_add_right (hle _) 1)
    | exec | callExit n | trap ax =>
      refine ⟨hreads', fun _ => ⟨st', rfl⟩, by simp [Halt.resumed], fun _ nr => ?_, hinv.inTable,
        by first | exact hat | exact hat.1⟩
      have := htold rfl nr
      simp only [Traced.made, Traced.reported, Halt.resumed, hsnoc, Halt.origAx, hc] at this ⊢
      omega
    | signal signo => exact absurd htrapped hat.2
    | exited code | signaled signo => exact htrapped.elim
  · rw [heq]
    refine ⟨hreads', ?_, ?_, ?_, hinv.inTable, ?_⟩ <;>
      cases h <;> simp_all [Halt.final, Tracee.Alive, Process.ChildAt]
  · -- the child is where it was
    rw [heq]
    refine ⟨hreads', fun hmoves => by simp [hc] at hmoves, fun u hexec => ?_, fun halive nr => ?_,
      hinv.inTable, by simpa only [hc] using hat⟩
    · obtain ⟨rfl, -⟩ : h = .exec ∧ usage = u := by simpa using hc.symm.trans hexec
      exact absurd (show InTable Sys.execve.nr by decide) hout
    · have := htold (by simpa only [hc] using halive) nr
      have hsnoc := stopsAt_event s.seen h usage nr
      simp only [Traced.made, Traced.reported] at this ⊢
      omega

/-- **Every step keeps the invariant.** -/
theorem TraceInv.step (hinv : TraceInv M pf rl submit s) (h : s.step M pf rl a = some s') :
    TraceInv M pf rl submit s' := by
  have hat := hinv.childAt
  have htold := hinv.told
  cases traceMove_of_step h with
  | wait hp hc => exact hinv.wait hp hc
  | enter hc =>
    rw [hc] at hat htold
    refine ⟨hinv.reads, by simp, by simp, fun _ nr => ?_, hinv.inTable, hat, rfl⟩
    simpa [Traced.made, Traced.reported, hc] using htold trivial nr
  | perform hc hrun =>
    rw [hc] at hat htold
    refine ⟨hinv.reads, by simp, by simp, fun _ nr => ?_, fun nr hnr => ?_, hrun,
      List.mem_append_right _ (List.mem_singleton_self _)⟩
    · have := htold trivial nr
      simp only [Traced.made, Traced.reported, hc, Process.stops_after] at this ⊢
      omega
    · rcases List.mem_append.mp hnr with hnr | hnr
      · exact hinv.inTable nr hnr
      · obtain rfl := List.mem_singleton.mp hnr
        exact hat.2.2.inTable
  | exit hc hrun =>
    rw [hc] at hat
    refine ⟨hinv.reads, by simp, by simp, fun halive => absurd halive nofun, fun nr hnr => ?_, hrun⟩
    rcases List.mem_append.mp hnr with hnr | hnr
    · exact hinv.inTable nr hnr
    · obtain rfl := List.mem_singleton.mp hnr
      exact hat.2.2.inTable
  | trap hc =>
    rw [hc] at hat htold
    refine ⟨hinv.reads, by simp, by simp, fun _ nr => ?_, hinv.inTable, hat⟩
    simpa [Traced.made, Traced.reported, hc] using htold trivial nr
  | signal hc hne =>
    rw [hc] at hat htold
    refine ⟨hinv.reads, by simp, by simp, fun _ nr => ?_, hinv.inTable, hat, hne⟩
    simpa [Traced.made, Traced.reported, hc] using htold trivial nr
  | terminate hc =>
    have hlive : s.run.exited = none := by
      rcases hc with hc | hc <;> rw [hc] at hat
      · exact hat
      · exact hat.1
    exact ⟨hinv.reads, by simp, by simp, fun halive => absurd halive nofun, hinv.inTable, hlive⟩

theorem traceInv_of_reachable (h : (supervised M pf rl submit).Reachable s) :
    TraceInv M pf rl submit s :=
  h.invariant (fun _ => traceInv_of_init) fun _ _ _ _ hinv _ hs => hinv.step hs

/-! ### The supervised program and the program alone -/

/-- **Whatever is carried out is permitted**: seen from the process, every step is a permitted call
or no step at all. -/
theorem alone_of_supervised (h : (supervised M pf rl submit).Reachable s) :
    (alone M).ReachableBy (fun p _ => Permitted M rl.syscallLimits p) s.run := by
  have hinit : ∀ s, (supervised M pf rl submit).Init s → (alone M).Init s.run := fun s hs => hs.1
  refine TransSystem.ReachableBy.map Traced.run hinit (fun s a s' hs _ hstep => ?_) h
  have hat := (traceInv_of_reachable hs).childAt
  have hperform : ∀ o, s.child = .calling → ∃ b, Permitted M rl.syscallLimits s.run ∧
      (alone M).step s.run b = some (s.run.after M o) := fun o hc => by
    rw [hc] at hat
    exact ⟨o, hat.2, if_pos hat.1⟩
  cases traceMove_of_step hstep with
  | perform hc | exit hc => exact Or.inr (hperform _ hc)
  | enter | trap | signal | terminate => exact Or.inl rfl
  | wait =>
    refine Or.inl ?_
    simp only [Traced.wait, Traced.waitWith]
    split <;> rfl

end Supervised

end NpuOj
