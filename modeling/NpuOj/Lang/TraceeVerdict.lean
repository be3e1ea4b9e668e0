import NpuOj.Lang.BesideTable
import NpuOj.Lang.Tracee

/-!
# What supervision does to a program

The loop of `LangC::launch` lets a program do what is permitted, and this is all that it does to
it, up to the first stop at a number outside the table: there a word beside the table decides, and
may let any call through (`NpuOj.Traced.waitBeside_of_not_inTable`). Up to such a stop the
supervised program gets to the states to which the program gets by itself through permitted calls,
to all of them and to no others, for any table of budgets (`NpuOj.supervised_run_iff`).

Under the policy what is permitted is what is listed (`NpuOj.permitted_of_listed`,
`NpuOj.Permitted.listed`), and the verdict is the program's own: as long as no signal comes and
the child stays within the limits, a program that makes listed calls only is judged by its exit
status, and any other one is stopped at its first call that is not listed
(`NpuOj.supervised_verdict`).
-/

namespace NpuOj

open Posix

section Supervised

variable {σ ω : Type} {M : Program σ ω} {pf : Platform} {rl : ResourceLimit} {submit : Submission}
  {s : Traced σ} {p : Process σ}

/-! ### Every permitted run is let through -/

/-- No signal comes, and the child is within the limits whenever the parent looks. -/
def Undisturbed (pf : Platform) (rl : ResourceLimit) (s : Traced σ) : TraceStep ω → Prop
  | .enter _ | .perform _ _ => True
  | .trap _ _ | .signal _ _ | .terminate _ _ => False
  | .wait => ∀ h usage, s.child = .halted h usage →
      ¬OverMemory pf rl (h.event usage) ∧ ¬OverTime rl (h.event usage)

/-- A child that has used nothing yet. -/
def Rusage.none : Rusage := ⟨⟨0, 0⟩, ⟨0, 0⟩, 0⟩

theorem within_none (pf : Platform) (rl : ResourceLimit) (h : Halt) :
    ¬OverMemory pf rl (h.event .none) ∧ ¬OverTime rl (h.event .none) := by
  have hfigure : memFigure pf (h.event .none) = 0 := by
    simp [memFigure, Halt.event, Rusage.none, Platform.toLong, Platform.toSizeT]
  refine ⟨fun hover => ?_, fun hover => ?_⟩
  · have hlt := hover.2
    rw [hfigure] at hlt
    exact Nat.not_lt_zero _ hlt
  · obtain ⟨l, hl, hlt⟩ := hover
    have hpos := one_le_of_timeLimit hl
    have htime : cpuTime (h.event .none) = 0 := rfl
    omega

/-- A child that has used nothing is within the limits. -/
theorem undisturbed_wait {h : Halt} (hc : s.child = .halted h .none) :
    Undisturbed pf rl s (.wait : TraceStep ω) := by
  intro h' u hc'
  obtain ⟨rfl, rfl⟩ := Tracee.halted.inj (hc.symm.trans hc')
  exact within_none pf rl _

/-- The child waits to be resumed at the end of a call, and the parent has been told of all stops
but this one. -/
structure Traced.AtExit (s : Traced σ) (h : Halt) : Prop where
  child : s.child = .halted h .none
  trapped : h.Trapped
  resumed : h.resumed = .running
  mem : h.origAx ∈ Sys.execve.nr :: s.run.calls
  told : ∀ nr, stopsAt s.seen nr + oneAt h.origAx nr = s.run.stops nr

/-- A return from `wait4` to a child that has used nothing. -/
theorem exists_wait {st : LaunchState} {h : Halt}
    (hs : (supervised M pf rl submit).ReachableBy (Undisturbed pf rl) s)
    (hp : s.parent = .waiting st) (hc : s.child = .halted h .none) :
    (supervised M pf rl submit).ReachableBy (Undisturbed pf rl) (s.wait pf rl st h .none) :=
  hs.step (a := .wait) (undisturbed_wait hc) (by simp only [supervised, Traced.step, hp, hc])

/-- A stop at a call with budget is let through. -/
theorem exists_resumed {h : Halt}
    (hs : (supervised M pf rl submit).ReachableBy (Undisturbed pf rl) s)
    (hp : ∃ st, s.parent = .waiting st) (hc : s.child = .halted h .none) (htrap : h.Trapped)
    (hpaid : Affords rl.syscallLimits h.origAx (stopsAt s.seen h.origAx + 1)) :
    ∃ s', (supervised M pf rl submit).ReachableBy (Undisturbed pf rl) s' ∧ s'.run = s.run ∧
      s'.child = h.resumed ∧ (∃ st, s'.parent = .waiting st) ∧
      s'.seen = s.seen ++ [h.event .none] := by
  obtain ⟨st, hp⟩ := hp
  have hreads := (traceInv_of_reachable hs.reachable).reads
  rw [hp] at hreads
  obtain ⟨hm, ht⟩ := within_none pf rl h
  have hnone : eventVerdict pf rl s.seen (h.event .none) = none :=
    Halt.eventVerdict_event_eq_none_iff.mpr ⟨⟨hm, ht, htrap⟩, hpaid⟩
  refine ⟨_, exists_wait hs hp hc, ?_⟩
  rcases s.wait_cases h .none hreads with
    ⟨-, st', heq, -⟩ | ⟨v, st', hv, -⟩ | ⟨hcheck, hout, -⟩
  · rw [heq]
    exact ⟨rfl, rfl, ⟨st', rfl⟩, rfl⟩
  · simp [hnone] at hv
  · exact absurd hpaid.inTable hout

/-- The process of an undisturbed run is at the end of a call, or at its own end, and the parent
has still to be told. -/
structure Traced.Between (s : Traced σ) : Prop where
  waits : ∃ st, s.parent = .waiting st
  live : s.run.exited = none → ∃ h, s.AtExit h
  ended : ∀ code, s.run.exited = some code → s.child = .halted (.exited code) .none

/-- **One more call**: from the end of a call to the end of the next one. -/
theorem exists_call (hs : (supervised M pf rl submit).ReachableBy (Undisturbed pf rl) s)
    (hbetween : s.Between) (hlive : s.run.exited = none)
    (hperm : Permitted M rl.syscallLimits s.run) (o : ω) :
    ∃ s', (supervised M pf rl submit).ReachableBy (Undisturbed pf rl) s' ∧
      s'.run = s.run.after M o ∧ s'.Between := by
  obtain ⟨h, hat⟩ := hbetween.live hlive
  -- the end of the call before
  obtain ⟨s₁, hs₁, hrun₁, hc₁, hp₁, hseen₁⟩ := exists_resumed hs hbetween.waits hat.child
    hat.trapped ((hperm.1 _ hat.mem).mono (by
      have := hat.told h.origAx
      simp only [oneAt, if_true] at this
      omega))
  have htold₁ : ∀ nr, stopsAt s₁.seen nr = s.run.stops nr := fun nr => by
    rw [hseen₁, stopsAt_event, hat.told nr]
  -- the entry of the call
  let s₂ : Traced σ := { s₁ with child := .halted (.callEntry (M.nextCall s₁.run.state)) .none }
  have hs₂ : (supervised M pf rl submit).ReachableBy (Undisturbed pf rl) s₂ :=
    hs₁.step (a := .enter .none) trivial (by
      simp only [supervised, Traced.step, hc₁, hat.resumed]
      rfl)
  obtain ⟨s₃, hs₃, hrun₃, hc₃, hp₃, hseen₃⟩ := exists_resumed hs₂ hp₁ rfl trivial (by
    simpa only [s₂, Halt.origAx, htold₁, hrun₁] using hperm.2)
  -- the call itself
  have hrun : s₃.run = s.run := hrun₃.trans hrun₁
  obtain ⟨s', hstep⟩ : ∃ s', s₃.step M pf rl (.perform o .none) = some s' := by
    simp only [Traced.step, hc₃, Halt.resumed]
    exact ⟨_, rfl⟩
  refine ⟨s', hs₃.step (a := .perform o .none) trivial hstep, ?_⟩
  cases traceMove_of_step hstep with
  | exit hc hexit =>
    refine ⟨congrArg (Process.after M · o) hrun, hp₃, fun hnone => ?_, fun code hcode => ?_⟩
    · simp [hexit] at hnone
    · obtain rfl := Option.some.inj (hexit.symm.trans hcode)
      rfl
  | perform hc hgoes =>
    refine ⟨congrArg (Process.after M · o) hrun, hp₃, fun _ =>
      ⟨.callExit (M.nextCall s₃.run.state), rfl, trivial, rfl, ?_, fun nr => ?_⟩,
      fun code hcode => ?_⟩
    · simp [Process.after, Halt.origAx]
    · have hseen : s₃.seen
          = s₁.seen ++ [(Halt.callEntry (M.nextCall s₃.run.state)).event .none] := by
        rw [hseen₃, hrun₃]
      simp only [hseen, stopsAt_event, htold₁, Process.stops_after, Halt.origAx, hrun]
      omega
    · simp [hgoes] at hcode

/-- **Every permitted run of the program alone is one of the supervised program.** -/
theorem exists_between (pf : Platform) (rl : ResourceLimit) (submit : Submission)
    (hp : (alone M).ReachableBy (fun p _ => Permitted M rl.syscallLimits p) p) :
    ∃ s, (supervised M pf rl submit).ReachableBy (Undisturbed pf rl) s ∧ s.run = p ∧
      s.Between := by
  induction hp with
  | @init p hinit =>
    let s : Traced σ := ⟨p, .halted .exec .none,
      .waiting ⟨Result.ofSubmission submit, rl.syscallLimits⟩, []⟩
    refine ⟨s, .init ⟨hinit, ⟨_, rfl⟩, rfl, rfl⟩, rfl, ⟨_, rfl⟩, fun _ => ⟨.exec, rfl, trivial, rfl,
      List.mem_cons_self, fun nr => ?_⟩, fun code hcode => ?_⟩
    · simp [s, stopsAt, Process.stops, hinit.1, Halt.origAx]
    · simp [s, hinit.2] at hcode
  | @step p p' o hp hperm hstep ih =>
    simp only [alone, Option.ite_none_right_eq_some, Option.some.injEq] at hstep
    obtain ⟨hlive, rfl⟩ := hstep
    obtain ⟨s, hs, rfl, hbetween⟩ := ih
    exact exists_call hs hbetween hlive hperm o

/-! ### Up to a stop outside the table -/

/-- A step, where a return from `wait4` comes with the word that lies beside the table. -/
def Traced.stepBeside (M : Program σ ω) (pf : Platform) (rl : ResourceLimit) (s : Traced σ) :
    TraceStep ω × BesideWord → Option (Traced σ)
  | (.wait, word) => match s.parent, s.child with
    | .waiting st, .halted h usage =>
      let body := launchStepWith (checkSyscallBeside word) pf rl (getRlCpuMillisecond rl)
      some (s.waitWith body st h usage)
    | _, _ => none
  | (a, _) => s.step M pf rl a

/-- **The supervised program, whatever lies beside the table.** -/
def supervisedBeside (M : Program σ ω) (pf : Platform) (rl : ResourceLimit)
    (submit : Submission) : TransSystem (Traced σ) (TraceStep ω × BesideWord) where
  Init := (supervised M pf rl submit).Init
  step s a := s.stepBeside M pf rl a

/-- No stop at a number outside the table comes to the check. -/
def ChecksInTable (pf : Platform) (rl : ResourceLimit) (s : Traced σ) :
    TraceStep ω × BesideWord → Prop
  | (.wait, _) => ∀ h usage, s.child = .halted h usage → AtCheck pf rl (h.event usage) →
      InTable h.origAx
  | _ => True

/-- **At a stop outside the table** the child is let through, unless a zero lies there. -/
theorem Traced.waitBeside_of_not_inTable {st : LaunchState} {h : Halt} {usage : Rusage} {word : ℤ}
    (hinv : LoopInv rl s.seen st) (hcheck : AtCheck pf rl (h.event usage))
    (hout : ¬InTable h.origAx) :
    (s.waitWith (launchStepWith (checkSyscallBeside (some word)) pf rl (getRlCpuMillisecond rl)) st
      h usage).child = if word = 0 then .killed else h.resumed := by
  have hbody : launchStepWith (checkSyscallBeside (some word)) pf rl (getRlCpuMillisecond rl) st
      (h.event usage) = _ :=
    (launchStepWith_of_atCheck hinv hcheck).trans (checkSyscallBeside_of_not_inTable hout)
  have hlive : h.final = false := by
    cases h with
    | exited | signaled => exact (Halt.trapStop_event_iff.mp hcheck.2.2).elim
    | _ => rfl
  by_cases hword : word = 0
  · rw [if_pos hword] at hbody ⊢
    simp [waitWith, hbody, hlive]
  · rw [if_neg hword] at hbody ⊢
    simp only [waitWith, hbody]

/-- The check of a return from `wait4` does not leave the table. -/
theorem Tracer.Reads.checksInTable_iff {st : LaunchState} {e : WaitEvent}
    (hreads : (waiting st).Reads pf rl submit s.seen) :
    (AtCheck pf rl e → InTable e.origAx) ↔
      ∀ f, launchStep pf rl (getRlCpuMillisecond rl) st e ≠ .fault f := by
  constructor
  · intro hin f hf
    rcases hreads.next e with ⟨-, st', hnext, -⟩ | ⟨v, st', -, hstop, -⟩ | ⟨hcheck, hout, -⟩
    · cases hf.symm.trans hnext
    · cases hf.symm.trans hstop
    · exact hout (hin hcheck)
  · intro hnot hcheck
    by_contra hout
    have hfault := launchStep_of_atCheck hreads.2.1 hcheck
    exact hnot _ (hfault.trans (checkSyscall_of_not_inTable hout))

/-- **A step that checks in the table** is one whatever lies beside it. -/
theorem TraceInv.stepBeside_eq (hinv : TraceInv M pf rl submit s) {a : TraceStep ω × BesideWord}
    (hok : ChecksInTable pf rl s a) : s.stepBeside M pf rl a = s.step M pf rl a.1 := by
  obtain ⟨a, word⟩ := a
  cases a with
  | wait =>
    cases hp : s.parent with
    | waiting st =>
      cases hc : s.child with
      | halted h usage =>
        have hreads := hinv.reads
        rw [hp] at hreads
        have hbody : launchStepBeside (fun _ => word) pf rl (getRlCpuMillisecond rl) st
            (h.event usage, 0) = launchStep pf rl (getRlCpuMillisecond rl) st (h.event usage) :=
          launchStepBeside_of_ne_fault (hreads.checksInTable_iff.mp (hok h usage hc))
        rw [launchStepBeside] at hbody
        simp only [Traced.stepBeside, Traced.step, hp, hc, Traced.wait, Traced.waitWith, hbody]
      | _ => simp only [Traced.stepBeside, Traced.step, hp, hc]
    | _ => simp only [Traced.stepBeside, Traced.step, hp]
  | _ => rfl

/-- Nor does the parent read outside the table then, and only then. -/
theorem TraceInv.not_faulted_iff (hinv : TraceInv M pf rl submit s) {a : TraceStep ω}
    {s' : Traced σ} (hstep : s.step M pf rl a = some s') (hnot : ∀ f, s.parent ≠ .faulted f)
    (word : BesideWord) :
    (∀ f, s'.parent ≠ .faulted f) ↔ ChecksInTable pf rl s (a, word) := by
  cases traceMove_of_step hstep with
  | @wait st h usage hp hc =>
    have hreads := hinv.reads
    rw [hp] at hreads
    have hiff : ChecksInTable pf rl s ((.wait, word) : TraceStep ω × BesideWord) ↔
        (AtCheck pf rl (h.event usage) → InTable h.origAx) := by
      simp only [ChecksInTable, hc, Tracee.halted.injEq]
      constructor
      · exact fun hall => hall h usage ⟨rfl, rfl⟩
      · rintro hin _ _ ⟨rfl, rfl⟩
        exact hin
    refine Iff.trans ?_ (hiff.trans hreads.checksInTable_iff).symm
    simp only [Traced.wait, Traced.waitWith]
    cases launchStep pf rl (getRlCpuMillisecond rl) st (h.event usage) <;> simp
  | enter | perform | exit | trap | signal | terminate => exact iff_of_true hnot trivial

/-- A parent that has read outside the table does nothing more. -/
theorem TraceInv.no_step (hinv : TraceInv M pf rl submit s) {f : Fault}
    (hf : s.parent = .faulted f) (a : TraceStep ω) : s.step M pf rl a = none := by
  by_contra hsome
  obtain ⟨s', hstep⟩ := Option.ne_none_iff_exists'.mp hsome
  have hmoves : ¬(s.child = .running ∨ s.child = .calling) := by
    intro hc
    obtain ⟨st, hst⟩ := hinv.moves hc
    rw [hf] at hst
    cases hst
  cases traceMove_of_step hstep with
  | enter hc | trap hc | signal hc => exact hmoves (Or.inl hc)
  | perform hc | exit hc => exact hmoves (Or.inr hc)
  | terminate hc => exact hmoves hc
  | wait hp =>
    rw [hf] at hp
    cases hp

/-- **Up to a stop outside the table** it does not matter what lies beside it. -/
theorem supervisedBeside_iff :
    (supervisedBeside M pf rl submit).ReachableBy (ChecksInTable pf rl) s ↔
      (supervised M pf rl submit).Reachable s ∧ ∀ f, s.parent ≠ .faulted f := by
  constructor
  · intro h
    induction h with
    | init hinit =>
      refine ⟨.init hinit, fun f hf => ?_⟩
      rw [hinit.2.2.1] at hf
      cases hf
    | @step s s' a h hok hstep ih =>
      obtain ⟨hs, hnot⟩ := ih
      have hinv := traceInv_of_reachable hs
      have hstep' : s.step M pf rl a.1 = some s' := (hinv.stepBeside_eq hok).symm.trans hstep
      exact ⟨hs.step trivial hstep', (hinv.not_faulted_iff hstep' hnot a.2).mpr hok⟩
  · rintro ⟨h, hnot⟩
    induction h with
    | init hinit => exact .init hinit
    | @step s s' a h _ hstep ih =>
      have hinv := traceInv_of_reachable h
      have hnot' : ∀ f, s.parent ≠ .faulted f := fun f hf => by
        have hnone : some s' = none := hstep.symm.trans (hinv.no_step hf a)
        cases hnone
      have hok := (hinv.not_faulted_iff hstep hnot' none).mp hnot
      exact (ih hnot').step hok ((hinv.stepBeside_eq hok).trans hstep)

/-- **The supervised program does what the program does by itself, as long as that is permitted.**
Up to the first stop at a number outside the table it gets to exactly the states to which the
program gets alone through calls that are permitted. -/
theorem supervised_run_iff (M : Program σ ω) (pf : Platform) (rl : ResourceLimit)
    (submit : Submission) (p : Process σ) :
    (∃ s, (supervisedBeside M pf rl submit).ReachableBy (ChecksInTable pf rl) s ∧ s.run = p) ↔
      (alone M).ReachableBy (fun p _ => Permitted M rl.syscallLimits p) p := by
  constructor
  · rintro ⟨s, hs, rfl⟩
    exact alone_of_supervised (supervisedBeside_iff.mp hs).1
  · intro hp
    obtain ⟨s, hs, hrun, hbetween⟩ := exists_between pf rl submit hp
    refine ⟨s, supervisedBeside_iff.mpr ⟨hs.reachable, fun f hf => ?_⟩, hrun⟩
    obtain ⟨st, hst⟩ := hbetween.waits
    rw [hf] at hst
    cases hst

/-! ### Under the policy -/

/-- The call is listed, and may be made as often as one likes. -/
def Listed (nr : ℤ) : Prop := ∃ c : Sys, c ≠ .execve ∧ c.nr = nr

theorem mem_listedPairs_rfC : ∀ x ∈ listedPairs rfC, ∃ c ∈ [Sys.exitGroup, .futex, .setThreadArea,
    .fstat64, .mmap2, .mremap, .writev, .mprotect, .uname, .munmap, .gettimeofday, .brk, .access,
    .lseek, .time, .execve, .close, .write, .read],
      x = (c.nr, if c = .execve then 1 else -1) := by decide +kernel

theorem listedPairs_lookup_nr (c : Sys) :
    (listedPairs rfC).lookup c.nr = some (if c = .execve then 1 else -1) := by
  cases c <;> decide +kernel

/-- **What the policy affords**: a listed call always, and `execve` once. -/
theorem affords_policy_iff {nr : ℤ} {n : ℕ} :
    Affords policy nr (n + 1) ↔ Listed nr ∨ nr = Sys.execve.nr ∧ n = 0 := by
  constructor
  · rintro ⟨i, hi, hlim⟩
    obtain rfl := tableIndex_eq_some_iff.mp hi
    cases hlookup : (listedPairs rfC).lookup (i : ℤ) with
    | none =>
      rw [policy, listedLimit, hlookup] at hlim
      simp at hlim
      omega
    | some lim =>
      obtain ⟨l₁, l₂, heq, -⟩ := List.lookup_eq_some_iff.mp hlookup
      obtain ⟨c, -, hc⟩ := mem_listedPairs_rfC ((i : ℤ), lim) (by simp [heq])
      obtain ⟨hnr, hval⟩ := Prod.mk.inj hc
      by_cases hexec : c = .execve
      · rw [policy, listedLimit, hlookup, hval, if_pos hexec] at hlim
        simp at hlim
        exact Or.inr ⟨hexec ▸ hnr, by omega⟩
      · exact Or.inl ⟨c, hexec, hnr.symm⟩
  · have hindex : ∀ c : Sys, ∃ i : Fin 512, c.nr = (i : ℤ) ∧
        policy i = if c = .execve then 1 else -1 := fun c => by
      have hin : InTable c.nr := by cases c <;> decide
      obtain ⟨i, hi⟩ := exists_tableIndex hin
      have hnr := tableIndex_eq_some_iff.mp hi
      refine ⟨i, hnr, ?_⟩
      rw [policy, listedLimit, ← hnr, listedPairs_lookup_nr, Option.getD_some]
    rintro (⟨c, hne, rfl⟩ | ⟨rfl, rfl⟩)
    · obtain ⟨i, hnr, hval⟩ := hindex c
      rw [if_neg hne] at hval
      exact ⟨i, tableIndex_eq_some_iff.mpr hnr, Or.inl (by omega)⟩
    · obtain ⟨i, hnr, hval⟩ := hindex .execve
      rw [if_pos rfl] at hval
      exact ⟨i, tableIndex_eq_some_iff.mpr hnr, Or.inr (by omega)⟩

/-- Under the policy what is permitted is listed: the budget of `execve` has been used up by the
stop at which the program began. -/
theorem Permitted.listed (h : Permitted M policy p) : Listed (M.nextCall p.state) := by
  refine (affords_policy_iff.mp h.2).resolve_right ?_
  rintro ⟨hexec, hstops⟩
  simp [hexec, Process.stops, oneAt] at hstops

theorem not_listed_execve : ¬Listed Sys.execve.nr := by
  rintro ⟨c, hne, hnr⟩
  cases c <;> first
    | exact hne rfl
    | exact absurd hnr (by decide)

/-- Under the policy a listed call is permitted after listed calls. -/
theorem permitted_of_listed (hcalls : ∀ nr ∈ p.calls, Listed nr)
    (hnext : Listed (M.nextCall p.state)) : Permitted M policy p := by
  have hlisted : ∀ {nr} n, Listed nr → Affords policy nr n := fun n h =>
    (affords_policy_iff.mpr (Or.inl h)).mono (Nat.le_succ n)
  refine ⟨fun nr hnr => ?_, hlisted _ hnext⟩
  rcases List.mem_cons.mp hnr with rfl | hnr
  · have hone : p.stops Sys.execve.nr = 0 + 1 := by
      rw [Process.stops, List.count_eq_zero.mpr fun hmem => not_listed_execve (hcalls _ hmem),
        oneAt, if_pos rfl]
    rw [hone]
    exact affords_policy_iff.mpr (Or.inr ⟨rfl, rfl⟩)
  · exact hlisted _ (hcalls nr hnr)

/-- Under the policy all calls that the process has made are listed. -/
theorem listed_of_alone (h : (alone M).ReachableBy (fun p _ => Permitted M policy p) p) :
    ∀ nr ∈ p.calls, Listed nr := by
  induction h with
  | init hinit => simp [hinit.1]
  | @step p p' o _ hperm hstep ih =>
    simp only [alone, Option.ite_none_right_eq_some, Option.some.injEq] at hstep
    obtain ⟨-, rfl⟩ := hstep
    intro nr hnr
    rcases List.mem_append.mp hnr with hnr | hnr
    · exact ih nr hnr
    · obtain rfl := List.mem_singleton.mp hnr
      exact hperm.listed

/-- The verdict that the process deserves: its exit status, or that it is about to make a call that
is not listed. -/
inductive Deserves (M : Program σ ω) (p : Process σ) : NojResult → Prop
  | exited {code : Fin 256} (h : p.exited = some code) :
      Deserves M p (if code = 0 then .runPass else .runtimeError)
  | illegal (h : p.exited = none) (hcall : ¬Listed (M.nextCall p.state)) :
      Deserves M p .illegalSystemCall

/-- What an undisturbed run has come to. -/
structure UndisturbedInv (M : Program σ ω) (s : Traced σ) : Prop where
  /-- The child does not stop outside its calls. -/
  halted : ∀ h usage, s.child = .halted h usage → match h with
    | .exec | .callEntry _ | .callExit _ | .exited _ => True
    | _ => False
  /-- The verdict is the one that the process deserves. -/
  verdict : ∀ st, s.parent = .left st → Deserves M s.run st.res.resType
  /-- What the parent has looked up is the next call of the process. -/
  fault : ∀ f, s.parent = .faulted f → s.run.exited = none ∧ ¬InTable (M.nextCall s.run.state) ∧
    f = .outOfBounds (M.nextCall s.run.state)

/-- A stop at a call that has a verdict, within the limits, has no budget. -/
theorem Halt.of_eventVerdict {pre : List WaitEvent} {h : Halt} {usage : Rusage} {v : NojResult}
    (htrap : h.Trapped) (hm : ¬OverMemory pf rl (h.event usage))
    (ht : ¬OverTime rl (h.event usage)) (hv : eventVerdict pf rl pre (h.event usage) = some v) :
    v = .illegalSystemCall ∧ ¬Affords rl.syscallLimits h.origAx (stopsAt pre h.origAx + 1) := by
  rw [eventVerdict_of_atCheck ⟨hm, ht, trapStop_event_iff.mpr htrap⟩] at hv
  split at hv
  · cases hv
  · next hno => exact ⟨(Option.some.inj hv).symm, fun hpaid => hno (budgetLeft_iff.mpr hpaid)⟩

theorem Halt.eventVerdict_exited (pre : List WaitEvent) {code : Fin 256} {usage : Rusage}
    (hm : ¬OverMemory pf rl ((exited code).event usage))
    (ht : ¬OverTime rl ((exited code).event usage)) :
    eventVerdict pf rl pre ((exited code).event usage)
      = some (if code = 0 then .runPass else .runtimeError) := by
  have hstatus : ((exited code).event usage).status = .exited code := rfl
  have hcode : wexitstatus (WaitStatus.exited code).stat = 0 ↔ code = 0 := by
    rw [WaitStatus.wexitstatus_exited, Fin.ext_iff]
    exact Int.natCast_eq_zero
  simp only [eventVerdict, if_neg hm, if_neg ht, hstatus,
    if_pos (WaitStatus.wifexited_exited code), hcode]

/-- A process that has exited gets its verdict. -/
theorem exists_left {code : Fin 256}
    (hs : (supervised M pf rl submit).ReachableBy (Undisturbed pf rl) s) (hbetween : s.Between)
    (hexit : s.run.exited = some code) :
    ∃ s' st, (supervised M pf rl submit).ReachableBy (Undisturbed pf rl) s' ∧ s'.run = s.run ∧
      s'.parent = .left st ∧ st.res.resType = if code = 0 then .runPass else .runtimeError := by
  obtain ⟨st, hp⟩ := hbetween.waits
  have hc := hbetween.ended code hexit
  have hreads := (traceInv_of_reachable hs.reachable).reads
  rw [hp] at hreads
  obtain ⟨hm, ht⟩ := within_none pf rl (.exited code)
  have hv := Halt.eventVerdict_exited s.seen hm ht
  have hs' := exists_wait hs hp hc
  rcases s.wait_cases (.exited code) .none hreads with
    ⟨hnone, -⟩ | ⟨v, st', hv', heq, htype, -⟩ | ⟨hcheck, -⟩
  · simp [hv] at hnone
  · rw [hv] at hv'
    exact ⟨_, st', hs', by rw [heq], by rw [heq], htype.trans (Option.some.inj hv').symm⟩
  · exact absurd (Halt.trapStop_event_iff.mp hcheck.2.2) id

theorem UndisturbedInv.wait {st : LaunchState} {h : Halt} {usage : Rusage}
    (hpol : rl.syscallLimits = policy) (hs : (supervised M pf rl submit).Reachable s)
    (hinv : UndisturbedInv M s) (hp : s.parent = .waiting st) (hc : s.child = .halted h usage)
    (hm : ¬OverMemory pf rl (h.event usage)) (ht : ¬OverTime rl (h.event usage)) :
    UndisturbedInv M (s.wait pf rl st h usage) := by
  have htrace := traceInv_of_reachable hs
  have hreads := htrace.reads
  have hat := htrace.childAt
  have hlisted := alone_of_supervised hs
  have hkind := hinv.halted h usage hc
  rw [hp] at hreads
  rw [hc] at hat
  rw [hpol] at hlisted
  rcases s.wait_cases h usage hreads with
    ⟨-, st', heq, -⟩ | ⟨v, st', hv, heq, htype, -⟩ | ⟨hcheck, hout, heq, -⟩
  · rw [heq]
    refine ⟨fun h' u hc' => ?_, by simp, by simp⟩
    cases h <;> cases hc'
  · rw [heq]
    refine ⟨fun h' u hc' => ?_, fun st hst => ?_, by simp⟩
    · cases h <;> cases hc'
    · obtain rfl := Tracer.left.inj hst
      rw [htype]
      cases h with
      | exited code =>
        rw [Halt.eventVerdict_exited _ hm ht] at hv
        obtain rfl := Option.some.inj hv
        exact .exited hat
      | exec =>
        -- the first stop is paid for
        have hno := (Halt.of_eventVerdict (h := .exec) trivial hm ht hv).2
        rw [htrace.first usage hc, hpol] at hno
        exact absurd (affords_policy_iff.mpr (Or.inr ⟨rfl, rfl⟩)) hno
      | callEntry nr =>
        obtain ⟨rfl, hno⟩ := Halt.of_eventVerdict (h := .callEntry _) trivial hm ht hv
        obtain ⟨hlive, rfl⟩ := hat
        rw [hpol] at hno
        exact .illegal hlive fun hlisted' => hno (affords_policy_iff.mpr (Or.inl hlisted'))
      | callExit nr =>
        have hno := (Halt.of_eventVerdict (h := .callExit _) trivial hm ht hv).2
        rw [hpol] at hno
        exact absurd (affords_policy_iff.mpr (Or.inl (listed_of_alone hlisted nr hat.2))) hno
      | trap | signal | signaled => exact hkind.elim
  · rw [heq]
    refine ⟨hinv.halted, by simp, fun f hf => ?_⟩
    obtain rfl := Tracer.faulted.inj hf
    cases h with
    | callEntry nr =>
      obtain ⟨hlive, rfl⟩ := hat
      exact ⟨hlive, hout, rfl⟩
    | exec => exact absurd (show InTable Sys.execve.nr by decide) hout
    | callExit nr => exact absurd (htrace.inTable nr hat.2) hout
    | exited code =>
      exact absurd (Halt.trapStop_event_iff.mp hcheck.2.2) id
    | trap | signal | signaled => exact hkind.elim

/-- **The parent's verdict is the one that the program deserves**, as long as no signal comes and
the child stays within the limits, if the policy is in force. The process has by then made the
calls that it makes by itself, up to its first one that is not listed: if it never makes such a
call, the verdict is its own exit status; and if it does, it is not let into it. Only where the
number of that call lies outside the table does the parent read there. -/
theorem supervised_verdict (hpol : rl.syscallLimits = policy)
    (h : (supervised M pf rl submit).ReachableBy (Undisturbed pf rl) s) :
    (alone M).ReachableBy (fun p _ => Listed (M.nextCall p.state)) s.run ∧
      match s.parent with
      | .waiting _ => launchLoop pf rl submit s.seen = .pending
      | .left st => launchLoop pf rl submit s.seen = .ret (st, []) ∧
          Deserves M s.run st.res.resType
      | .faulted f => launchLoop pf rl submit s.seen = .fault f ∧ s.run.exited = none ∧
          ¬InTable (M.nextCall s.run.state) ∧ f = .outOfBounds (M.nextCall s.run.state) := by
  have hinv : UndisturbedInv M s := by
    refine h.invariant (fun s hinit => ?_) fun s a s' hs hinv hok hstep => ?_
    · obtain ⟨-, ⟨usage, hc⟩, hp, -⟩ := hinit
      refine ⟨fun h u hc' => ?_, by simp [hp], by simp [hp]⟩
      obtain ⟨rfl, -⟩ : Halt.exec = h ∧ usage = u := by simpa using hc.symm.trans hc'
      trivial
    · have hmoves := (traceInv_of_reachable hs.reachable).moves
      cases traceMove_of_step hstep with
      | wait hp hc =>
        obtain ⟨hm, ht⟩ := hok _ _ hc
        exact hinv.wait hpol hs.reachable hp hc hm ht
      | enter hc =>
        obtain ⟨st, hp⟩ := hmoves (Or.inl hc)
        refine ⟨fun h u hc' => ?_, by simp [hp], by simp [hp]⟩
        obtain ⟨rfl, -⟩ := Tracee.halted.inj hc'
        trivial
      | perform hc | exit hc =>
        obtain ⟨st, hp⟩ := hmoves (Or.inr hc)
        refine ⟨fun h u hc' => ?_, by simp [hp], by simp [hp]⟩
        obtain ⟨rfl, -⟩ := Tracee.halted.inj hc'
        trivial
      | trap | signal | terminate => exact hok.elim
  have hreads := (traceInv_of_reachable h.reachable).reads
  have halone := alone_of_supervised h.reachable
  rw [hpol] at halone
  refine ⟨TransSystem.ReachableBy.map id (fun _ hinit => hinit)
    (fun p o p' _ hperm hstep => Or.inr ⟨o, hperm.listed, hstep⟩) halone, ?_⟩
  split <;> rename_i hp <;> rw [hp] at hreads
  · exact launchLoop_of_passes hreads.1
  · exact ⟨hreads, hinv.verdict _ hp⟩
  · exact ⟨hreads, hinv.fault _ hp⟩

/-- A program that writes, and exits. -/
def writer : Program Bool Unit where
  nextCall written := if written then Sys.exitGroup.nr else Sys.write.nr
  perform written _ := if written then (true, some 0) else (true, none)

/-- The policy, and a second. -/
def policyLimits : ResourceLimit where
  singleTimeLimit := ⟨1000, true⟩
  syscallLimits := policy

/-- It is let through to its end. -/
theorem supervised_verdict_writer : ∃ (s : Traced Bool) (st : LaunchState), s.parent = .left st ∧
    s.run = ⟨true, [Sys.write.nr, Sys.exitGroup.nr], some 0⟩ ∧
    Deserves writer s.run st.res.resType := by
  have hwrite : Listed Sys.write.nr := ⟨.write, by decide, rfl⟩
  have halone : (alone writer).ReachableBy (fun p _ => Permitted writer policy p)
      ⟨true, [Sys.write.nr, Sys.exitGroup.nr], some 0⟩ := by
    have hstart : (alone writer).ReachableBy (fun p _ => Permitted writer policy p)
        ⟨false, [], none⟩ := .init ⟨rfl, rfl⟩
    refine (hstart.step (a := ()) ?_ rfl).step (a := ()) ?_ rfl
    · exact permitted_of_listed (by simp) hwrite
    · exact permitted_of_listed (by simpa [Process.after, writer] using hwrite)
        ⟨.exitGroup, by decide, rfl⟩
  obtain ⟨s, hs, hrun, hbetween⟩ := exists_between lp64 policyLimits writeOnce halone
  obtain ⟨s', st, hs', hrun', hp', -⟩ := exists_left hs hbetween (show s.run.exited = some 0 by
    rw [hrun])
  have hverdict := (supervised_verdict rfl hs').2
  rw [hp'] at hverdict
  exact ⟨s', st, hp', hrun'.trans hrun, hverdict.2⟩

end Supervised

end NpuOj
