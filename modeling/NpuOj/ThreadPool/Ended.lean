import NpuOj.ThreadPool.Progress

/-!
# The end of the pool

`pool_destroy` is to leave no thread behind. `NpuOj.poolDestroy_leaves` is about the workers
inside `get_task`; here is what becomes of the rest, and of `pool_destroy` itself. In the runs in
which the broadcast is not lost, and under a fair scheduler, every worker exits and `pool_destroy`
returns (`NpuOj.poolDestroy_returns`): a worker that is running its task finishes it, and comes
back for the `NULL` that sends it away. Every task that had been taken out has then been run or
discarded, and has been freed, once each.

The measure is the number of steps a worker has left until it exits
(`NpuOj.WorkerLoc.stepsToExit`). It is the same argument as for the places inside `get_task`, over
all places; what is new is the order of the threads, since the joins come after the exits.
-/

namespace NpuOj

/-- The steps that a worker has left until it exits, after shutdown. -/
def WorkerLoc.stepsToExit {τ : Type} : WorkerLoc τ → ℕ
  | .running _ _ => 7
  | .ran _ _ | .aboutToWait => 6
  | .loop | .waiting => 5
  | .locking | .waking => 4
  | .testing => 3
  | .loopExit | .got _ _ => 2
  | .gotNull | .dropping _ _ => 1
  | .exited | .crashed => 0

/-- The steps that the destroyer of `n` workers has left. -/
def DestroyerLoc.stepsLeft (n : ℕ) : DestroyerLoc → ℕ
  | .idle => n + 3
  | .flagSet => n + 2
  | .joining i => n - i + 1
  | .done => 0

section Ended

variable {P τ : Type} [DecidableEq P] {n : ℕ} {s s' : PoolState P τ n} {a : PoolStep P τ n}
  {w : Fin n}

/-! ### The steps after shutdown -/

/-- **After shutdown a worker comes closer to its exit** with every step of its own. -/
theorem PoolState.toExit_of_owed (h : s.step a = some s') (ha : a.OwedTo (.worker w))
    (hs : s.mShutdown = true) : (s'.worker w).stepsToExit < (s.worker w).stepsToExit := by
  cases a with
  | enter v | lock v | wait v | relock v | check v | discard v | run v | free v =>
    obtain rfl : w = v := by simpa [PoolStep.OwedTo] using ha
    simp only [step] at h
    repeat' split at h
    all_goals first
      | (obtain rfl := Option.some.inj h
         simp [*, WorkerLoc.stepsToExit])
      | cases h
  | test v | leave v =>
    obtain rfl : w = v := by simpa [PoolStep.OwedTo] using ha
    simp only [step, hs, Bool.not_true, Bool.and_false, Bool.false_eq_true, if_false, if_true] at h
    split at h
    · next hl =>
      obtain rfl := Option.some.inj h
      simp [hl, WorkerLoc.stepsToExit]
    · cases h
  | _ => simp [PoolStep.OwedTo] at ha

/-- Any step leaves it where it is or brings it closer. -/
theorem PoolState.toExit_of_step (h : s.step a = some s') (hs : s.mShutdown = true) (w : Fin n) :
    ¬a.OwedTo (.worker w) ∧ s'.worker w = s.worker w ∨
      (s'.worker w).stepsToExit < (s.worker w).stepsToExit := by
  by_cases howed : a.OwedTo (.worker w)
  · exact Or.inr (toExit_of_owed h howed hs)
  · rcases worker_of_not_owed h howed with hstay | ⟨hwaiting, hwaking⟩
    · exact Or.inl ⟨howed, hstay⟩
    · exact Or.inr (by simp [hwaiting, hwaking, WorkerLoc.stepsToExit])

/-- A worker that is neither asleep nor gone can go on, if the mutex is free. -/
theorem PoolState.enabled_of_free (hw : s.worker w ≠ .exited ∧ s.worker w ≠ .crashed)
    (hne : s.worker w ≠ .waiting) (hm : s.mutex = none) :
    (threadPool P τ n).Enabled (PoolStep.OwedTo (.worker w)) s := by
  cases hl : s.worker w with
  | gotNull => exact ⟨.check w, rfl, _, by simp only [threadPool, step, hl]; rfl⟩
  | dropping k task =>
    refine ⟨.discard w, rfl, ?_⟩
    simp only [threadPool, step, hl]
    split <;> exact ⟨_, rfl⟩
  | exited => exact absurd hl hw.1
  | crashed => exact absurd hl hw.2
  | _ => exact enabled_of_not_waiting (by rw [hl]; rfl) hne fun _ => hm

/-- The destroyer is where it was, or has come closer to its end. -/
theorem PoolState.destroyer_closer (h : s.step a = some s') (hd : s.destroyer ≠ .idle) :
    ¬a.OwedTo .destroyer ∧ s'.destroyer = s.destroyer ∨
      s'.destroyer.stepsLeft n < s.destroyer.stepsLeft n := by
  cases destroyerMove_of_step h with
  | other ha hsame hs => exact Or.inl ⟨ha, hsame⟩
  | destroyAgain hidle | destroy hidle => exact absurd hidle hd
  | broadcast hset => exact Or.inr (by simp [hset, DestroyerLoc.stepsLeft])
  | @join i d hi hpast =>
    refine Or.inr ?_
    simp only [step, hi] at h
    rw [hi]
    split at h
    · split at h
      · obtain rfl : .joining (i + 1) = d := congrArg PoolState.destroyer (Option.some.inj h)
        simp only [DestroyerLoc.stepsLeft]
        omega
      · cases h
    · obtain rfl : .done = d := congrArg PoolState.destroyer (Option.some.inj h)
      simp [DestroyerLoc.stepsLeft]

/-- The destroyer can go on once all workers have exited. -/
theorem PoolState.enabled_destroyer (hexited : ∀ w, s.worker w = .exited)
    (hd : s.destroyer ≠ .idle ∧ s.destroyer ≠ .done) :
    (threadPool P τ n).Enabled (PoolStep.OwedTo .destroyer) s := by
  cases hl : s.destroyer with
  | idle => exact absurd hl hd.1
  | done => exact absurd hl hd.2
  | flagSet => exact ⟨.broadcast, rfl, _, by simp only [threadPool, step, hl]; rfl⟩
  | joining i =>
    refine ⟨.join, rfl, ?_⟩
    simp only [threadPool, step, hl]
    split
    · simp only [hexited]
      exact ⟨_, rfl⟩
    · exact ⟨_, rfl⟩

/-! ### Under a fair scheduler -/

section Fair

variable {e : (threadPool P τ n).Execution BroadcastAfterTests}
  (hreach : ∀ k, (threadPool P τ n).ReachableBy BroadcastAfterTests (e.state k))
  (hfair : ∀ t, e.StronglyFair (PoolStep.OwedTo t))
  (hshut : ∀ k, (e.state k).mShutdown = true)

include hreach hfair hshut

/-- A worker that sleeps is woken. -/
theorem sleeper_wakes (w : Fin n) :
    e.LeadsTo (fun s => s.worker w = .waiting) fun s => s.worker w = .waking := by
  have hflagSet : ∀ k, (e.state k).worker w = .waiting → (e.state k).destroyer = .flagSet :=
    fun k hw => (shutdown_of_reachableBy (hreach k)).flagSet_of_waiting (hshut k) hw
  refine .of_fair (hfair .destroyer) (fun k a hw ha => ?_) fun k => ⟨k, le_rfl, fun hw => ?_⟩
  · have hstep := (e.moves k a ha).2
    have hnot : ¬a.OwedTo (.worker w) := fun howed => by
      cases a with
      | enter v | lock v | test v | wait v | relock v | leave v | check v | discard v | run v
      | free v =>
        obtain rfl : w = v := by simpa [PoolStep.OwedTo] using howed
        simp [threadPool, PoolState.step, hw] at hstep
      | _ => simp [PoolStep.OwedTo] at howed
    rcases PoolState.worker_of_not_owed hstep hnot with hstay | ⟨-, hwaking⟩
    · refine Or.inl ⟨fun howed => ?_, hstay.trans hw⟩
      exact PoolState.not_waiting_of_owed hstep (hflagSet k hw) howed w (hstay.trans hw)
    · exact Or.inr hwaking
  · have hd := hflagSet k hw
    exact ⟨.broadcast, rfl, _, by simp only [threadPool, PoolState.step, hd]; rfl⟩

/-- **Every worker exits.** -/
theorem worker_exits (w : Fin n) : e.LeadsTo (fun s => s.worker w ≠ .exited)
    fun s => s.worker w = .exited := by
  have hclose : ∀ k a, e.action k = some a →
      ¬a.OwedTo (.worker w) ∧ (e.state (k + 1)).worker w = (e.state k).worker w ∨
        ((e.state (k + 1)).worker w).stepsToExit < ((e.state k).worker w).stepsToExit :=
    fun k a ha => PoolState.toExit_of_step (e.moves k a ha).2 (hshut k) w
  refine .of_rank (fun s => (s.worker w).stepsToExit) fun r k hk => ?_
  by_cases hw : (e.state k).worker w = .waiting
  · obtain ⟨l, hkl, hl⟩ := sleeper_wakes hreach hfair hshut w k hw
    refine ⟨l, hkl, Or.inr ⟨by rw [hl]; simp, ?_⟩⟩
    rw [hl, ← hk.2, hw]
    exact Nat.lt_succ_self 4
  refine TransSystem.Execution.LeadsTo.of_fair
    (P := fun s => s.worker w = (e.state k).worker w)
    (Q := fun s => s.worker w = .exited ∨ s.worker w ≠ .exited ∧ (s.worker w).stepsToExit < r)
    (hfair (.worker w)) (fun m a hm ha => ?_) (fun m => ?_) k rfl
  · rcases hclose m a ha with ⟨hnot, hstay⟩ | hlt
    · exact Or.inl ⟨hnot, hstay.trans hm⟩
    · rw [hm, hk.2] at hlt
      exact Or.inr ((em _).imp_right fun hne => ⟨hne, hlt⟩)
  · obtain ⟨l, hml, hfree⟩ := mutex_free_often hreach hfair hshut m
    refine ⟨l, hml, fun hl => PoolState.enabled_of_free ⟨by rw [hl]; exact hk.1, ?_⟩
      (by rwa [hl]) hfree⟩
    exact not_crashed_of_reachable (hreach l).reachable w

/-- From some moment on, no worker is left. -/
theorem all_exited : ∃ k, ∀ l, k ≤ l → ∀ w, (e.state l).worker w = .exited := by
  have hone : ∀ w, ∃ k, (e.state k).worker w = .exited := fun w => by
    by_cases hw : (e.state 0).worker w = .exited
    · exact ⟨0, hw⟩
    · obtain ⟨k, -, hk⟩ := worker_exits hreach hfair hshut w 0 hw
      exact ⟨k, hk⟩
  choose k hk using hone
  refine ⟨Finset.univ.sup k, fun l hl w => ?_⟩
  -- a worker that has exited does not move
  refine TransSystem.Execution.always_of_stable (e := e) (P := fun s => s.worker w = .exited)
    (fun m a hm ha => ?_) (hk w) ((Finset.le_sup (Finset.mem_univ w)).trans hl)
  rcases PoolState.toExit_of_step (e.moves m a ha).2 (hshut m) w with ⟨-, hstay⟩ | hlt
  · exact hstay.trans hm
  · rw [hm] at hlt
    cases hlt

end Fair

/-- **`pool_destroy` returns.** In the runs in which no worker is about to wait when the broadcast
is sent, and under a fair scheduler, there is a moment from which on `pool_destroy` has returned
and all workers have exited; every task that was taken out of the queue has then been run or
discarded, once, and has been freed, once. That the `run` of a task returns is a part of the
fairness to its worker. -/
theorem poolDestroy_returns {e : (threadPool P τ n).Execution BroadcastAfterTests}
    (hinit : (threadPool P τ n).ReachableBy BroadcastAfterTests (e.state 0))
    (hfair : ∀ t, e.StronglyFair (PoolStep.OwedTo t)) (hs : (e.state 0).mShutdown = true) :
    ∃ k, ∀ l, k ≤ l → (e.state l).destroyer = .done ∧ (∀ w, (e.state l).worker w = .exited) ∧
      ∀ t < (e.state l).history.popped.length,
        (e.state l).history.runs t + (e.state l).history.drops t = 1 ∧
          (e.state l).history.frees t = 1 := by
  have hreach : ∀ k, (threadPool P τ n).ReachableBy BroadcastAfterTests (e.state k) :=
    e.reachableBy hinit
  have hshut : ∀ k, (e.state k).mShutdown = true := fun k =>
    TransSystem.Execution.always_of_stable (e := e) (P := fun s => s.mShutdown = true)
      (fun k a hk ha => PoolState.mShutdown_of_step (e.moves k a ha).2 hk) hs (Nat.zero_le k)
  have hbusy : ∀ k, (e.state k).destroyer ≠ .idle := fun k =>
    (shutdown_of_reachableBy (hreach k)).flag.mp (hshut k)
  obtain ⟨k, hk⟩ := all_exited hreach hfair hshut
  -- from then on the destroyer goes through its joins
  have hdone : e.LeadsTo (fun s => (∀ w, s.worker w = .exited) ∧ s.destroyer ≠ .done)
      fun s => s.destroyer = .done := by
    refine .of_rank (fun s => s.destroyer.stepsLeft n) fun r =>
      .of_fair (hfair .destroyer) ?_ fun m => ⟨m, le_rfl, fun hP =>
        PoolState.enabled_destroyer hP.1.1 ⟨hbusy m, hP.1.2⟩⟩
    rintro m a ⟨⟨hexited, hne⟩, hr⟩ ha
    have hstep := (e.moves m a ha).2
    have hexited' : ∀ w, (e.state (m + 1)).worker w = .exited := fun w => by
      rcases PoolState.toExit_of_step hstep (hshut m) w with ⟨-, hstay⟩ | hlt
      · exact hstay.trans (hexited w)
      · rw [hexited w] at hlt
        cases hlt
    rcases PoolState.destroyer_closer hstep (hbusy m) with ⟨hnot, hsame⟩ | hlt
    · exact Or.inl ⟨hnot, ⟨hexited', hsame ▸ hne⟩, by rw [hsame, hr]⟩
    · exact Or.inr ((em _).imp_right fun hne' => ⟨⟨hexited', hne'⟩, hr ▸ hlt⟩)
  obtain ⟨j, hkj, hj⟩ : ∃ j, k ≤ j ∧ (e.state j).destroyer = .done := by
    by_cases hnow : (e.state k).destroyer = .done
    · exact ⟨k, le_rfl, hnow⟩
    · exact hdone k ⟨hk k le_rfl, hnow⟩
  refine ⟨j, fun l hjl => ?_⟩
  have hexited := hk l (hkj.trans hjl)
  refine ⟨?_, hexited, fun t ht => ?_⟩
  · refine TransSystem.Execution.always_of_stable (e := e) (P := fun s => s.destroyer = .done)
      (fun m a hm ha => ?_) hj hjl
    rcases PoolState.destroyer_closer (e.moves m a ha).2 (hbusy m) with ⟨-, hsame⟩ | hlt
    · exact hsame.trans hm
    · rw [hm] at hlt
      cases hlt
  · have htasks := taskInv_of_reachable (hreach l).reachable
    have hcount : ∀ f : WorkerLoc τ → Option ℕ, f .exited = none →
        countTask f t (e.state l).worker = 0 := fun f hf =>
      countIn_eq_zero_iff.mpr fun w => by simp [hexited w, hf]
    have hunrun := htasks.unrun t
    have hunfreed := htasks.unfreed t
    rw [if_pos ht, hcount _ rfl] at hunrun
    rw [hcount _ rfl] at hunfreed
    exact ⟨by omega, by omega⟩

/-- The pool is destroyed while its worker has a task in its hands that it has not begun to
run. -/
theorem poolDestroy_returns_busy : ∃ e : (threadPool (Fin 1) ℕ 1).Execution BroadcastAfterTests,
    (e.state 0).worker 0 = .got 0 7 ∧ (e.state 0).destroyer = .joining 0 ∧
      ∃ k, ∀ l, k ≤ l → (e.state l).destroyer = .done := by
  let s := ((threadPool (Fin 1) ℕ 1).run (PoolState.initPool (Fin 1) ℕ 1)
    [.call 0 7, .lockAdd 0, .push 0, .signal 0 none, .enter 0, .lock 0, .test 0, .leave 0,
      .destroy, .broadcast]).get rfl
  have hset : (threadPool (Fin 1) ℕ 1).ReachableBy BroadcastAfterTests _ :=
    TransSystem.ReachableBy.run (.init rfl) (by simp [BroadcastAfterTests])
      (show (threadPool (Fin 1) ℕ 1).run (PoolState.initPool (Fin 1) ℕ 1)
        [.call 0 7, .lockAdd 0, .push 0, .signal 0 none, .enter 0, .lock 0, .test 0, .leave 0,
          .destroy] = some _ from rfl)
  have hinit : (threadPool (Fin 1) ℕ 1).ReachableBy BroadcastAfterTests s :=
    hset.step (a := .broadcast) (by
      intro w hw
      obtain rfl : w = 0 := Subsingleton.elim _ _
      cases hw) rfl
  obtain ⟨e, he, -, hend⟩ := TransSystem.Execution.exists_of_run
    (show ∀ s, ∀ a ∈ _, BroadcastAfterTests s a by simp [BroadcastAfterTests])
    (show (threadPool (Fin 1) ℕ 1).run s [.check 0, .discard 0, .join, .join] = some _ from rfl)
  have hfair : ∀ t, e.StronglyFair (PoolStep.OwedTo t) := fun t =>
    hend _ (PoolState.not_enabled_of_quiet t (Fin.forall_fin_one.mpr rfl)
      (Fin.forall_fin_one.mpr (Or.inr rfl)) (Or.inl rfl))
  obtain ⟨k, hk⟩ := poolDestroy_returns (he ▸ hinit) hfair (by rw [he]; rfl)
  exact ⟨e, by rw [he]; rfl, by rw [he]; rfl, k, fun l hl => (hk l hl).1⟩

end Ended

end NpuOj
