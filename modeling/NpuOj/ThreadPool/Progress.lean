import NpuOj.ThreadPool.Shutdown
import NpuOj.ThreadPool.Tasks
import NpuOj.ThreadPool.Wakeup

/-!
# Every task is run

That no task is lost (`NpuOj.threadPool_tasks`) and that no wake-up is
(`NpuOj.threadPool_wakeup`) says what cannot happen. What must happen is the subject of this
file: as long as the pool is not shut down, every task that is added is run, whatever a fair
scheduler does and however many producers and workers compete for the mutex.

A worker that is not asleep comes to the queue and takes a task out; the measure is
`NpuOj.WorkerLoc.stepsToTask`, which no step of another thread increases, since nobody falls
asleep while the queue is not empty. If all workers sleep then a signal is still to come, by
`NpuOj.WakeInv`. So the tasks are taken out one after the other, and the one that has taken a
task out runs it: `NpuOj.threadPool_runs`.
-/

namespace NpuOj

/-- The worker is about to leave for good, or has left. -/
def WorkerLoc.isLeaving {τ : Type} : WorkerLoc τ → Bool
  | .gotNull | .dropping _ _ | .exited | .crashed => true
  | _ => false

/-- The steps that a worker has left until it takes a task out, if it finds one. -/
def WorkerLoc.stepsToTask {τ : Type} : WorkerLoc τ → ℕ
  | .got _ _ => 7
  | .running _ _ => 6
  | .ran _ _ => 5
  | .loop => 4
  | .locking | .waking => 3
  | .testing => 2
  | .loopExit => 1
  | _ => 0

/-- The steps that a call of `add_task` has left. -/
def ProducerLoc.stepsToReturn {τ : Type} : ProducerLoc τ → ℕ
  | .locking _ => 3
  | .locked _ => 2
  | .signalling => 1
  | .idle => 0

/-- `m` tasks have been taken out, and there is another one. -/
def PoolState.HasTaskAfter {P τ : Type} {n : ℕ} (s : PoolState P τ n) (m : ℕ) : Prop :=
  s.history.popped.length = m ∧ s.mQueTasks ≠ []

section Progress

variable {P τ : Type} [DecidableEq P] {n : ℕ} {s s' : PoolState P τ n} {a : PoolStep P τ n}
  {w : Fin n}

/-! ### What a step does to a worker and to the queue -/

/-- A step that is not owed to a worker leaves it where it is, or wakes it. -/
theorem PoolState.worker_of_not_owed (h : s.step a = some s') (ha : ¬a.OwedTo (.worker w)) :
    s'.worker w = s.worker w ∨ s.worker w = .waiting ∧ s'.worker w = .waking := by
  have hother : ∀ {v : Fin n} {l : WorkerLoc τ}, w ≠ v → (s.setWorker v l).worker w = s.worker w :=
    fun hv => s.setWorker_worker_of_ne _ hv
  cases a with
  | enter v | lock v | test v | wait v | relock v | leave v | check v | discard v | run v
  | free v =>
    have hv : w ≠ v := by simpa [PoolStep.OwedTo] using ha
    simp only [step] at h
    repeat' split at h
    all_goals first | cases h; exact Or.inl (hother hv) | cases h
  | spurious v =>
    simp only [step] at h
    split at h
    · next hv =>
      cases h
      rcases eq_or_ne w v with rfl | hne
      · exact Or.inr ⟨hv, setWorker_worker_self ..⟩
      · exact Or.inl (hother hne)
    · cases h
  | signal p woken =>
    rcases woken with _ | v <;> simp only [step] at h
    · repeat' split at h
      all_goals first | cases h; exact Or.inl rfl | cases h
    · split at h
      · next hv =>
        cases h
        rcases eq_or_ne w v with rfl | hne
        · exact Or.inr ⟨hv, setWorker_worker_self ..⟩
        · exact Or.inl (setWorker_worker_of_ne _ _ hne)
      · cases h
  | broadcast =>
    simp only [step] at h
    split at h
    · cases h
      simp only
      split
      · next hw => exact Or.inr ⟨WorkerLoc.isWaiting_eq_true_iff.mp hw, rfl⟩
      · exact Or.inl rfl
    · cases h
  | _ =>
    simp only [step] at h
    repeat' split at h
    all_goals first | cases h; exact Or.inl rfl | cases h

/-- A task that is in the queue stays there, or one is taken out. -/
theorem PoolState.HasTaskAfter.move {m : ℕ} (hs : s.HasTaskAfter m) (h : PoolMove s s') :
    s'.HasTaskAfter m ∨ m < s'.history.popped.length := by
  obtain ⟨hm, hne⟩ := hs
  cases h with
  | push hp => exact Or.inl ⟨hm, by simp⟩
  | leaveTask hw hs hq => exact Or.inr (by simp [hm])
  | _ => exact Or.inl ⟨hm, hne⟩

/-- **A call of `add_task`**: its own steps bring it closer to its end, and no other step moves
it. -/
theorem PoolState.producer_of_step {p : P} (h : s.step a = some s') (hp : s.producer p ≠ .idle) :
    ¬a.OwedTo (.producer p) ∧ s'.producer p = s.producer p ∨
      a.OwedTo (.producer p) ∧
        (s'.producer p).stepsToReturn < (s.producer p).stepsToReturn := by
  have hother : ∀ {q : P} {l : ProducerLoc τ}, p ≠ q →
      (s.setProducer q l).producer p = s.producer p := fun hq => s.setProducer_producer_of_ne _ hq
  cases a with
  | call q task =>
    simp only [step] at h
    split at h
    · next hidle =>
      obtain rfl := Option.some.inj h
      exact Or.inl ⟨by simp [PoolStep.OwedTo], hother fun hq => hp (hq ▸ hidle)⟩
    · cases h
  | lockAdd q =>
    simp only [step] at h
    split at h
    · next hl hm =>
      obtain rfl := Option.some.inj h
      rcases eq_or_ne p q with rfl | hq
      · exact Or.inr ⟨rfl, by simp [hl, ProducerLoc.stepsToReturn]⟩
      · exact Or.inl ⟨by simpa [PoolStep.OwedTo] using hq, hother hq⟩
    · cases h
  | push q =>
    simp only [step] at h
    split at h
    · next hl =>
      obtain rfl := Option.some.inj h
      rcases eq_or_ne p q with rfl | hq
      · exact Or.inr ⟨rfl, by simp [hl, ProducerLoc.stepsToReturn]⟩
      · exact Or.inl ⟨by simpa [PoolStep.OwedTo] using hq, hother hq⟩
    · cases h
  | signal q woken =>
    have hsignal : s.producer q = .signalling ∧ s'.producer = (s.setProducer q .idle).producer := by
      rcases woken with _ | v <;> simp only [step] at h <;> repeat' split at h
      all_goals first | cases h; exact ⟨‹_›, rfl⟩ | cases h
    obtain ⟨hl, hs'⟩ := hsignal
    rw [hs']
    rcases eq_or_ne p q with rfl | hq
    · exact Or.inr ⟨rfl, by simp [hl, ProducerLoc.stepsToReturn]⟩
    · exact Or.inl ⟨by simpa [PoolStep.OwedTo] using hq, hother hq⟩
  | _ =>
    simp only [step] at h
    repeat' split at h
    all_goals first | cases h; exact Or.inl ⟨by simp [PoolStep.OwedTo], rfl⟩ | cases h

/-- What was added and what was taken out stays so. -/
theorem PoolState.history_of_move (h : PoolMove s s') :
    s.history.added <+: s'.history.added ∧ s.history.popped <+: s'.history.popped ∧
      ∀ k, s.history.runs k ≤ s'.history.runs k := by
  cases h with
  | push hp => exact ⟨List.prefix_append .., List.prefix_rfl, fun _ => le_rfl⟩
  | leaveTask hw hs hq => exact ⟨List.prefix_rfl, List.prefix_append .., fun _ => le_rfl⟩
  | run hw =>
    refine ⟨List.prefix_rfl, List.prefix_rfl, fun k => ?_⟩
    rw [History.ran_runs]
    exact Nat.le_add_right ..
  | _ => exact ⟨List.prefix_rfl, List.prefix_rfl, fun _ => le_rfl⟩

/-! ### A pool that is open -/

/-- An open pool is shut down by `pool_destroy` alone. -/
theorem PoolState.open_of_step (h : s.step a = some s') (hopen : s.mShutdown = false)
    (ha : a ≠ .destroy) : s'.mShutdown = false := by
  cases destroyerMove_of_step h with
  | other _ _ hs => rwa [hs]
  | destroyAgain | destroy => exact absurd rfl ha
  | broadcast | join => exact hopen

/-- **Nobody leaves an open pool.** -/
theorem not_leaving_of_reachable (h : (threadPool P τ n).Reachable s)
    (hopen : s.mShutdown = false) (w : Fin n) : (s.worker w).isLeaving = false := by
  refine h.invariant (I := fun s => s.mShutdown = false → ∀ w, (s.worker w).isLeaving = false)
    ?_ ?_ hopen w
  · rintro _ rfl - w
    rfl
  · intro s a s' hreach hinv _ hstep
    have hopen : s'.mShutdown = false → s.mShutdown = false := fun hs' =>
      Bool.eq_false_iff.mpr fun hs => by simp [PoolState.mShutdown_of_step hstep hs] at hs'
    -- a worker that moves within the pool, and one that has left it
    have hstays : ∀ {v : Fin n} {l : WorkerLoc τ}, l.isLeaving = false →
        s'.mShutdown = false → ∀ w, ((s.setWorker v l).worker w).isLeaving = false :=
      fun hl hs' => s.forall_setWorker (Q := fun l => l.isLeaving = false) _ (hinv (hopen hs')) hl
    have hleft : ∀ {v : Fin n}, (s.worker v).isLeaving = true → s'.mShutdown = false → False :=
      fun hv hs' => by simp [hinv (hopen hs')] at hv
    cases PoolState.move_of_step hstep with
    | destroy hd hs => exact fun hs' => by cases hs'
    | leaveNull hw hs | checkDrop hw hs => exact fun hs' => by simp [hopen hs'] at hs
    | checkNull hw | discard hw hs | discardNot hw hs =>
      exact fun hs' => (hleft (by rw [hw]; rfl) hs').elim
    | leaveEmpty hw hs hq =>
      exact fun hs' => ((queue_of_reachable hreach).nonempty _ hw).elim (absurd hq)
        fun hs => by simp [hopen hs'] at hs
    | broadcast hd =>
      intro hs' w
      simp only
      split
      · rfl
      · exact hinv hs' w
    | call | lockAdd | push | signalNone | destroyer => exact hinv
    | _ => exact hstays rfl

/-- **What a worker does in an open pool**: it takes a task out, it falls asleep, or it comes
closer to a task, and it does not go to sleep over a queue that is not empty. -/
theorem PoolState.own_of_step (h : s.step a = some s') (ha : a.OwedTo (.worker w))
    (hqueue : s.QueueInv) (hopen : s.mShutdown = false) (hw : (s.worker w).isLeaving = false) :
    s.history.popped.length < s'.history.popped.length ∧ s'.mutex = none ∨
      s.worker w = .aboutToWait ∧ s'.mutex = none ∨
      (s'.worker w).stepsToTask < (s.worker w).stepsToTask ∧
        ((s'.worker w).asleep = true → s.mQueTasks = []) := by
  cases a with
  | enter v | lock v | relock v | run v | free v =>
    obtain rfl : w = v := by simpa [PoolStep.OwedTo] using ha
    simp only [step] at h
    split at h
    · next hl =>
      obtain rfl := Option.some.inj h
      exact Or.inr (Or.inr (by simp [*, WorkerLoc.stepsToTask, WorkerLoc.asleep]))
    · cases h
  | check v =>
    obtain rfl : w = v := by simpa [PoolStep.OwedTo] using ha
    simp only [step] at h
    split at h
    · next hl => simp [hl, WorkerLoc.isLeaving] at hw
    · next hl =>
      obtain rfl := Option.some.inj h
      exact Or.inr (Or.inr (by simp [hl, hopen, WorkerLoc.stepsToTask, WorkerLoc.asleep]))
    · cases h
  | test v =>
    obtain rfl : w = v := by simpa [PoolStep.OwedTo] using ha
    simp only [step] at h
    split at h
    · next hl =>
      obtain rfl := Option.some.inj h
      refine Or.inr (Or.inr ?_)
      rw [setWorker_worker_self, hl, hopen]
      cases s.mQueTasks <;> simp [WorkerLoc.stepsToTask, WorkerLoc.asleep]
    · cases h
  | wait v =>
    obtain rfl : w = v := by simpa [PoolStep.OwedTo] using ha
    simp only [step] at h
    split at h
    · next hl =>
      obtain rfl := Option.some.inj h
      exact Or.inr (Or.inl ⟨hl, rfl⟩)
    · cases h
  | leave v =>
    obtain rfl : w = v := by simpa [PoolStep.OwedTo] using ha
    simp only [step, hopen] at h
    split at h
    · next hl =>
      have hne : s.mQueTasks ≠ [] := (hqueue.nonempty w hl).resolve_right (by simp [hopen])
      split at h
      · next hs => cases hs
      · split at h
        · obtain rfl := Option.some.inj h
          exact Or.inl ⟨by simp, rfl⟩
        · next hq => exact absurd hq hne
    · cases h
  | discard v =>
    obtain rfl : w = v := by simpa [PoolStep.OwedTo] using ha
    simp only [step] at h
    split at h
    · next hl => simp [hl, WorkerLoc.isLeaving] at hw
    · cases h
  | _ => simp [PoolStep.OwedTo] at ha

/-- A worker that is not asleep can go on, if it does not have to wait for the mutex. -/
theorem PoolState.enabled_of_not_waiting (hw : (s.worker w).isLeaving = false)
    (hne : s.worker w ≠ .waiting)
    (hm : s.worker w = .locking ∨ s.worker w = .waking → s.mutex = none) :
    (threadPool P τ n).Enabled (PoolStep.OwedTo (.worker w)) s := by
  cases hl : s.worker w with
  | loop => exact ⟨.enter w, rfl, _, by simp only [threadPool, step, hl]; rfl⟩
  | locking => exact ⟨.lock w, rfl, _, by simp only [threadPool, step, hl, hm (Or.inl hl)]; rfl⟩
  | waking => exact ⟨.relock w, rfl, _, by simp only [threadPool, step, hl, hm (Or.inr hl)]; rfl⟩
  | testing => exact ⟨.test w, rfl, _, by simp only [threadPool, step, hl]; rfl⟩
  | aboutToWait => exact ⟨.wait w, rfl, _, by simp only [threadPool, step, hl]; rfl⟩
  | waiting => exact absurd hl hne
  | loopExit =>
    refine ⟨.leave w, rfl, ?_⟩
    simp only [threadPool, step, hl]
    split
    · exact ⟨_, rfl⟩
    · split <;> exact ⟨_, rfl⟩
  | got k task => exact ⟨.check w, rfl, _, by simp only [threadPool, step, hl]; rfl⟩
  | running k task => exact ⟨.run w, rfl, _, by simp only [threadPool, step, hl]; rfl⟩
  | ran k task => exact ⟨.free w, rfl, _, by simp only [threadPool, step, hl]; rfl⟩
  | gotNull | dropping | exited | crashed =>
    rw [hl] at hw
    cases hw

/-- A worker with a task that it has not run goes on to run it, in an open pool. -/
theorem PoolState.unrun_of_step {k : ℕ} (h : s.step a = some s') (ha : a.OwedTo (.worker w))
    (hopen : s.mShutdown = false) (hw : (s.worker w).isLeaving = false)
    (hk : (s.worker w).unrun = some k) :
    s'.history.runs k = s.history.runs k + 1 ∨
      (s'.worker w).unrun = some k ∧
        (s'.worker w).stepsToTask < (s.worker w).stepsToTask := by
  cases a with
  | check v =>
    obtain rfl : w = v := by simpa [PoolStep.OwedTo] using ha
    simp only [step] at h
    split at h
    · next hl => simp [hl, WorkerLoc.isLeaving] at hw
    · next hl =>
      obtain rfl := Option.some.inj h
      rw [hl] at hk
      exact Or.inr ⟨by rw [setWorker_worker_self, hopen]; exact hk,
        by simp [hl, hopen, WorkerLoc.stepsToTask]⟩
    · cases h
  | run v =>
    obtain rfl : w = v := by simpa [PoolStep.OwedTo] using ha
    simp only [step] at h
    split at h
    · next hl =>
      obtain rfl := Option.some.inj h
      rw [hl] at hk
      obtain rfl := Option.some.inj hk
      exact Or.inl (by simp [History.ran_runs])
    · cases h
  | enter v | lock v | test v | wait v | relock v | leave v | discard v | free v =>
    obtain rfl : w = v := by simpa [PoolStep.OwedTo] using ha
    cases hl : s.worker w <;> simp_all [step, WorkerLoc.unrun, WorkerLoc.isLeaving]
  | _ => simp [PoolStep.OwedTo] at ha

/-- A call of `add_task` can go on, if the mutex is free. -/
theorem PoolState.enabled_of_not_idle {p : P} (hp : s.producer p ≠ .idle)
    (hm : s.mutex = none) : (threadPool P τ n).Enabled (PoolStep.OwedTo (.producer p)) s := by
  cases hl : s.producer p with
  | idle => exact absurd hl hp
  | locking task => exact ⟨.lockAdd p, rfl, _, by simp only [threadPool, step, hl, hm]; rfl⟩
  | locked task => exact ⟨.push p, rfl, _, by simp only [threadPool, step, hl]; rfl⟩
  | signalling =>
    by_cases hw : ∃ w, s.worker w = .waiting
    · obtain ⟨w, hw⟩ := hw
      exact ⟨.signal p (some w), rfl, _, by simp only [threadPool, step, hl, hw]; rfl⟩
    · have hnone : ∀ w, (s.worker w).isWaiting = false := fun w =>
        Bool.eq_false_iff.mpr fun h => hw ⟨w, WorkerLoc.isWaiting_eq_true_iff.mp h⟩
      exact ⟨.signal p none, rfl, _, by simp only [threadPool, step, hl]; exact if_pos hnone⟩

/-- The signal wakes a worker, if all of them sleep. -/
theorem PoolState.signal_wakes {p : P} (h : s.step a = some s') (ha : a.OwedTo (.producer p))
    (hp : s.producer p = .signalling) (hasleep : ∀ w, s.worker w = .waiting) (hn : 0 < n) :
    ∃ w, s'.worker w ≠ .waiting := by
  cases a with
  | signal q woken =>
    rcases woken with _ | w
    · have hnone : ¬∀ w, (s.worker w).isWaiting = false := fun hnone => by
        simpa [hasleep, WorkerLoc.isWaiting] using hnone ⟨0, hn⟩
      simp only [step] at h
      split at h
      · rw [if_neg hnone] at h
        cases h
      · cases h
    · simp only [step] at h
      split at h
      · obtain rfl := Option.some.inj h
        exact ⟨w, by simp⟩
      · cases h
  | lockAdd q | push q =>
    obtain rfl : p = q := by simpa [PoolStep.OwedTo] using ha
    simp [step, hp] at h
  | _ => simp [PoolStep.OwedTo] at ha

omit [DecidableEq P] in
/-- If all workers sleep over a queue that is not empty, a signal is still to come. -/
theorem PoolState.exists_signalling [Fintype P] (hinv : WakeInv s) (hopen : s.mShutdown = false)
    (hn : 0 < n) (hne : s.mQueTasks ≠ []) (hasleep : ∀ w, s.worker w = .waiting) :
    ∃ p, s.producer p = .signalling := by
  have hlength := hinv hopen ⟨⟨0, hn⟩, hasleep _⟩
  have hawake : s.awake = 0 := countIn_eq_zero_iff.mpr fun w => by
    simp [hasleep w, WorkerLoc.isAwake]
  have hpos : 0 < s.signals := by
    have := List.length_pos_iff.mpr hne
    omega
  obtain ⟨p, hp⟩ := countIn_pos_iff.mp hpos
  cases hl : s.producer p with
  | signalling => exact ⟨p, hl⟩
  | _ =>
    rw [hl] at hp
    cases hp

theorem wake_of_reachable [Fintype P] (h : (threadPool P τ n).Reachable s) : WakeInv s :=
  h.invariant (by rintro _ rfl - ⟨w, hw⟩; cases hw)
    fun _ _ _ hreach hinv _ hstep =>
      hinv.move (queue_of_reachable hreach) (PoolState.move_of_step hstep)

/-! ### What a fair scheduler does for an open pool -/

section Fair

variable {ok : PoolState P τ n → PoolStep P τ n → Prop} {e : (threadPool P τ n).Execution ok}
  (hreach : ∀ k, (threadPool P τ n).Reachable (e.state k))
  (hfair : ∀ t, e.StronglyFair (PoolStep.OwedTo t))
  (hopen : ∀ k, (e.state k).mShutdown = false)

include hreach hfair hopen

/-- A worker with the mutex releases it. -/
theorem worker_gives_back (w : Fin n) :
    e.LeadsTo (fun s => s.mutex = some (.inr w)) fun s => s.mutex = none := by
  have hholds : ∀ k, (e.state k).mutex = some (.inr w) →
      ((e.state k).worker w).holdsMutex = true :=
    fun k => holder_of_reachable (hreach k) (.inr w)
  refine .of_rank (fun s => (s.worker w).stepsToTask) fun r =>
    .of_fair (hfair (.worker w)) ?_ fun k => ⟨k, le_rfl, ?_⟩
  · rintro k a ⟨hmutex, hr⟩ ha
    have hstep := (e.moves k a ha).2
    rcases PoolState.mutex_of_move (PoolState.move_of_step hstep) with hsame | hfree | hnone
    · by_cases howed : a.OwedTo (.worker w)
      · rcases PoolState.own_of_step hstep howed (queue_of_reachable (hreach k)) (hopen k)
          (not_leaving_of_reachable (hreach k) (hopen k) w) with ⟨-, hfree⟩ | ⟨-, hfree⟩ | ⟨hlt, -⟩
        · exact Or.inr (Or.inl hfree)
        · exact Or.inr (Or.inl hfree)
        · exact Or.inr (Or.inr ⟨hsame.trans hmutex, hr ▸ hlt⟩)
      · rcases PoolState.worker_of_not_owed hstep howed with hstay | ⟨hwaiting, -⟩
        · exact Or.inl ⟨howed, hsame.trans hmutex, by rw [hstay, hr]⟩
        · have hno := hholds k hmutex
          rw [hwaiting] at hno
          cases hno
    · exact Or.inr (Or.inl hfree)
    · rw [hmutex] at hnone
      cases hnone
  · rintro ⟨hmutex, -⟩
    have hhas := hholds k hmutex
    refine PoolState.enabled_of_not_waiting (not_leaving_of_reachable (hreach k) (hopen k) w)
      (fun hl => ?_) fun hl => ?_
    · rw [hl] at hhas
      cases hhas
    · rcases hl with hl | hl <;> rw [hl] at hhas <;> cases hhas

/-- **The mutex of an open pool is free again and again.** -/
theorem mutex_free_again (k : ℕ) : ∃ l, k ≤ l ∧ (e.state l).mutex = none := by
  cases hmutex : (e.state k).mutex with
  | none => exact ⟨k, le_rfl, hmutex⟩
  | some o =>
    rcases o with p | w
    · exact producer_gives_back hreach (hfair (.producer p)) k hmutex
    · exact worker_gives_back hreach hfair hopen w k hmutex

/-- **A worker that is not asleep while there is a task** takes one, unless another one does. -/
theorem awake_takes_task (w : Fin n) (m : ℕ) :
    e.LeadsTo (fun s => s.HasTaskAfter m ∧ s.worker w ≠ .waiting)
      fun s => m < s.history.popped.length := by
  refine .of_rank (fun s => (s.worker w).stepsToTask) fun r =>
    .of_fair (hfair (.worker w)) ?_ fun k => ?_
  · rintro k a ⟨⟨htask, hwaiting⟩, hr⟩ ha
    have hstep := (e.moves k a ha).2
    have hqueue := queue_of_reachable (hreach k)
    rcases htask.move (PoolState.move_of_step hstep) with htask' | hlt
    · by_cases howed : a.OwedTo (.worker w)
      · rcases PoolState.own_of_step hstep howed hqueue (hopen k)
          (not_leaving_of_reachable (hreach k) (hopen k) w) with
          ⟨hlt, -⟩ | ⟨habout, -⟩ | ⟨hlt, hasleep⟩
        · exact Or.inr (Or.inl (htask.1 ▸ hlt))
        -- it was about to wait, so that the queue was empty
        · exact absurd (hqueue.empty w habout) htask.2
        · refine Or.inr (Or.inr ⟨⟨htask', fun hw => htask.2 (hasleep ?_)⟩, hr ▸ hlt⟩)
          rw [hw]
          rfl
      · rcases PoolState.worker_of_not_owed hstep howed with hstay | ⟨hno, -⟩
        · exact Or.inl ⟨howed, ⟨htask', hstay ▸ hwaiting⟩, by rw [hstay, hr]⟩
        · exact absurd hno hwaiting
    · exact Or.inr (Or.inl hlt)
  · obtain ⟨l, hkl, hfree⟩ := mutex_free_again hreach hfair hopen k
    exact ⟨l, hkl, fun ⟨⟨_, hwaiting⟩, _⟩ => PoolState.enabled_of_not_waiting
      (not_leaving_of_reachable (hreach l) (hopen l) w) hwaiting fun _ => hfree⟩

/-- **A call of `add_task` returns.** -/
theorem addTask_returns (p : P) :
    e.LeadsTo (fun s => s.producer p ≠ .idle) fun s => s.producer p = .idle := by
  refine .of_rank (fun s => (s.producer p).stepsToReturn) fun r =>
    .of_fair (hfair (.producer p)) ?_ fun k => ?_
  · rintro k a ⟨hp, hr⟩ ha
    rcases PoolState.producer_of_step (e.moves k a ha).2 hp with ⟨hnot, hstay⟩ | ⟨-, hlt⟩
    · exact Or.inl ⟨hnot, hstay ▸ hp, by rw [hstay, hr]⟩
    · by_cases hidle : (e.state (k + 1)).producer p = .idle
      · exact Or.inr (Or.inl hidle)
      · exact Or.inr (Or.inr ⟨hidle, hr ▸ hlt⟩)
  · obtain ⟨l, hkl, hfree⟩ := mutex_free_again hreach hfair hopen k
    exact ⟨l, hkl, fun ⟨hp, _⟩ => PoolState.enabled_of_not_idle hp hfree⟩

/-- **A task in the queue wakes somebody**, if all workers sleep: its signal is still to
come. -/
theorem task_wakes_worker [Fintype P] (hn : 0 < n) (m : ℕ) :
    e.LeadsTo (fun s => s.HasTaskAfter m) fun s => m < s.history.popped.length ∨
      s.HasTaskAfter m ∧ ∃ w, s.worker w ≠ .waiting := by
  intro k hk
  by_cases hawake : ∃ w, (e.state k).worker w ≠ .waiting
  · exact ⟨k, le_rfl, Or.inr ⟨hk, hawake⟩⟩
  obtain ⟨p, hp⟩ := PoolState.exists_signalling (wake_of_reachable (hreach k)) (hopen k) hn hk.2
    (by simpa using hawake)
  -- the call of `add_task` that is about to send it
  refine TransSystem.Execution.LeadsTo.of_fair
    (P := fun s => s.producer p = .signalling ∧ s.HasTaskAfter m ∧ ∀ w, s.worker w = .waiting)
    (Q := fun s => m < s.history.popped.length ∨
      s.HasTaskAfter m ∧ ∃ w, s.worker w ≠ .waiting)
    (hfair (.producer p)) ?_ (fun k => ⟨k, le_rfl, fun hs => ?_⟩) k
    ⟨hp, hk, by simpa using hawake⟩
  · rintro k a ⟨hp, htask, hasleep⟩ ha
    have hstep := (e.moves k a ha).2
    rcases htask.move (PoolState.move_of_step hstep) with htask' | hlt
    · by_cases hall : ∀ w, (e.state (k + 1)).worker w = .waiting
      · rcases PoolState.producer_of_step (p := p) hstep (by simp [hp]) with ⟨hnot, hstay⟩ | ⟨ho, -⟩
        · exact Or.inl ⟨hnot, hstay.trans hp, htask', hall⟩
        · obtain ⟨w, hw⟩ := PoolState.signal_wakes hstep ho hp hasleep hn
          exact absurd (hall w) hw
      · exact Or.inr (Or.inr ⟨htask', by simpa using hall⟩)
    · exact Or.inr (Or.inl hlt)
  · exact ⟨.signal p (some ⟨0, hn⟩), rfl, _,
      by simp only [threadPool, PoolState.step, hs.1, hs.2.2]; rfl⟩

/-- **Every task in the queue is taken out.** -/
theorem added_leads_popped [Fintype P] (hn : 0 < n) (k : ℕ) :
    e.LeadsTo (fun s => k < s.history.added.length) fun s => k < s.history.popped.length := by
  have hmono : ∀ {i j : ℕ}, i ≤ j → k < (e.state i).history.added.length →
      k < (e.state j).history.added.length := fun hij hk =>
    TransSystem.Execution.always_of_stable (e := e) (P := fun s => k < s.history.added.length)
      (fun l a hl ha => hl.trans_le (PoolState.history_of_move
        (PoolState.move_of_step (e.moves l a ha).2)).1.length_le) hk hij
  refine .of_rank (fun s => k + 1 - s.history.popped.length) fun r i => ?_
  rintro ⟨hadded, hr⟩
  by_cases hpopped : k < (e.state i).history.popped.length
  · exact ⟨i, le_rfl, Or.inl hpopped⟩
  have hne : (e.state i).mQueTasks ≠ [] := by
    intro hnil
    have hfifo := (taskInv_of_reachable (hreach i)).fifo
    rw [hnil, List.append_nil] at hfifo
    exact hpopped (hfifo ▸ hadded)
  -- the next task to come out is this one or one before it
  obtain ⟨j, hij, hj⟩ : ∃ j, i ≤ j ∧
      (e.state i).history.popped.length < (e.state j).history.popped.length := by
    obtain ⟨j, hij, hlt | ⟨htask, w, hw⟩⟩ :=
      task_wakes_worker hreach hfair hopen hn (e.state i).history.popped.length i ⟨rfl, hne⟩
    · exact ⟨j, hij, hlt⟩
    · obtain ⟨l, hjl, hl⟩ := awake_takes_task hreach hfair hopen w _ j ⟨htask, hw⟩
      exact ⟨l, hij.trans hjl, hl⟩
  refine ⟨j, hij, ?_⟩
  by_cases hpopped' : k < (e.state j).history.popped.length
  · exact Or.inl hpopped'
  · exact Or.inr ⟨hmono hij hadded, by omega⟩

/-- **A task that was taken out is run.** -/
theorem popped_leads_run (k : ℕ) :
    e.LeadsTo (fun s => k < s.history.popped.length) fun s => s.history.runs k = 1 := by
  have hle : ∀ i, (e.state i).history.runs k ≤ 1 := fun i => by
    have hunrun := (taskInv_of_reachable (hreach i)).unrun k
    split at hunrun <;> omega
  intro i hk
  have htasks := taskInv_of_reachable (hreach i)
  have hsum : countTask WorkerLoc.unrun k (e.state i).worker + (e.state i).history.runs k
      + (e.state i).history.drops k = 1 := (htasks.unrun k).trans (if_pos hk)
  have hdrops : (e.state i).history.drops k = 0 := by
    by_contra hne
    have hshut := htasks.dropped k (Nat.pos_of_ne_zero hne)
    rw [hopen i] at hshut
    cases hshut
  by_cases hruns : (e.state i).history.runs k = 1
  · exact ⟨i, le_rfl, hruns⟩
  -- otherwise a worker has it in its hands
  obtain ⟨w, hw⟩ := countIn_pos_iff.mp
    (show 0 < countTask WorkerLoc.unrun k (e.state i).worker by omega)
  refine TransSystem.Execution.LeadsTo.of_rank (P := fun s => (s.worker w).unrun = some k)
    (Q := fun s => s.history.runs k = 1) (fun s => (s.worker w).stepsToTask)
    (fun r => .of_fair (hfair (.worker w)) ?_ fun j => ⟨j, le_rfl, ?_⟩) i hw
  · rintro j a ⟨hw, hr⟩ ha
    have hstep := (e.moves j a ha).2
    by_cases howed : a.OwedTo (.worker w)
    · rcases PoolState.unrun_of_step hstep howed (hopen j)
        (not_leaving_of_reachable (hreach j) (hopen j) w) hw with hran | ⟨hw', hlt⟩
      · exact Or.inr (Or.inl (by have := hle (j + 1); omega))
      · exact Or.inr (Or.inr ⟨hw', hr ▸ hlt⟩)
    · rcases PoolState.worker_of_not_owed hstep howed with hstay | ⟨hwaiting, -⟩
      · exact Or.inl ⟨howed, hstay ▸ hw, by rw [hstay, hr]⟩
      · rw [hwaiting] at hw
        cases hw
  · rintro ⟨hw, -⟩
    refine PoolState.enabled_of_not_waiting (not_leaving_of_reachable (hreach j) (hopen j) w)
      (fun hl => ?_) fun hl => ?_
    · rw [hl] at hw
      cases hw
    · rcases hl with hl | hl <;> rw [hl] at hw <;> cases hw

end Fair

/-- **Every task is run.** In a pool that has workers and is not shut down, under a scheduler
that is fair to the threads, every call of `add_task` returns, and every task that was added
is run, once and for all. That the `run` of a task returns is a part of the fairness to its
worker. -/
theorem threadPool_runs [Fintype P] (hn : 0 < n) {ok : PoolState P τ n → PoolStep P τ n → Prop}
    {e : (threadPool P τ n).Execution ok} (hreach : (threadPool P τ n).Reachable (e.state 0))
    (hopen : ∀ k, (e.state k).mShutdown = false)
    (hfair : ∀ t, e.StronglyFair (PoolStep.OwedTo t)) :
    (∀ p i, ∃ j, i ≤ j ∧ (e.state j).producer p = .idle) ∧
      ∀ k i, k < (e.state i).history.added.length →
        ∃ j, i ≤ j ∧ ∀ l, j ≤ l → (e.state l).history.runs k = 1 := by
  have hall : ∀ k, (threadPool P τ n).Reachable (e.state k) := e.reachable hreach
  refine ⟨fun p i => ?_, fun k i hk => ?_⟩
  · by_cases hidle : (e.state i).producer p = .idle
    · exact ⟨i, le_rfl, hidle⟩
    · exact addTask_returns hall hfair hopen p i hidle
  · obtain ⟨j, hij, hrun⟩ := ((added_leads_popped hall hfair hopen hn k).trans
      (popped_leads_run hall hfair hopen k)) i hk
    refine ⟨j, hij, fun l hjl => ?_⟩
    -- from then on it has been run, and no task is run twice
    have hmono : (e.state l).history.runs k ≥ 1 :=
      TransSystem.Execution.always_of_stable (e := e) (P := fun s => s.history.runs k ≥ 1)
        (fun m a hm ha => hm.trans ((PoolState.history_of_move
          (PoolState.move_of_step (e.moves m a ha).2)).2.2 k)) hrun.ge hjl
    have hunrun := (taskInv_of_reachable (hall l)).unrun k
    split at hunrun <;> omega

/-- In an open pool where every worker sleeps and no call of `add_task` is under way, a fair
scheduler owes nobody a step. -/
theorem PoolState.not_enabled_of_asleep (t : PoolThread P n) (hp : ∀ p, s.producer p = .idle)
    (hw : ∀ w, s.worker w = .waiting) (hd : s.destroyer = .idle) :
    ¬(threadPool P τ n).Enabled (PoolStep.OwedTo t) s := by
  rintro ⟨a, howed, s', hs'⟩
  cases a with
  | call p task | spurious w | destroy => exact howed
  | lockAdd p | push p => simp [threadPool, step, hp] at hs'
  | signal p woken => rcases woken with _ | w <;> simp [threadPool, step, hp] at hs'
  | broadcast | join => simp [threadPool, step, hd] at hs'
  | enter w | lock w | test w | wait w | relock w | leave w | check w | discard w | run w
  | free w => simp [threadPool, step, hw] at hs'

/-- One worker and one task: the worker falls asleep before the task is added, is woken, runs
it and falls asleep again. -/
theorem threadPool_runs_once :
    ∃ e : (threadPool (Fin 1) ℕ 1).Execution fun _ a => a ≠ .destroy,
      (e.state 0).worker 0 = .waiting ∧ (e.state 0).history.added = [7] ∧
        ∃ j, ∀ l, j ≤ l → (e.state l).history.runs 0 = 1 := by
  let s := ((threadPool (Fin 1) ℕ 1).run (PoolState.initPool (Fin 1) ℕ 1)
    [.enter 0, .lock 0, .test 0, .wait 0, .call 0 7, .lockAdd 0, .push 0]).get rfl
  have hreach : (threadPool (Fin 1) ℕ 1).Reachable s := TransSystem.reachable_of_run rfl
    (show (threadPool (Fin 1) ℕ 1).run (PoolState.initPool (Fin 1) ℕ 1)
      [.enter 0, .lock 0, .test 0, .wait 0, .call 0 7, .lockAdd 0, .push 0] = some _ from rfl)
  obtain ⟨e, he, -, hfair⟩ := TransSystem.Execution.exists_of_run
    (show ∀ (_ : PoolState (Fin 1) ℕ 1), ∀ a ∈ _, a ≠ PoolStep.destroy by simp)
    (show (threadPool (Fin 1) ℕ 1).run s
      [.signal 0 (some 0), .relock 0, .test 0, .leave 0, .check 0, .run 0, .free 0, .enter 0,
        .lock 0, .test 0, .wait 0] = some _ from rfl)
  have hopen : ∀ k, (e.state k).mShutdown = false := fun k =>
    TransSystem.Execution.always_of_stable (e := e) (P := fun s => s.mShutdown = false)
      (fun l a hl ha => PoolState.open_of_step (e.moves l a ha).2 hl (e.moves l a ha).1)
      (by rw [he]; rfl) (Nat.zero_le k)
  -- at the end of the run no thread has a step left
  have howed : ∀ t, e.StronglyFair (PoolStep.OwedTo t) := fun t =>
    hfair _ (PoolState.not_enabled_of_asleep t
      (fun p => by obtain rfl : p = 0 := Subsingleton.elim _ _; rfl)
      (fun w => by obtain rfl : w = 0 := Subsingleton.elim _ _; rfl) rfl)
  obtain ⟨j, -, hj⟩ := (threadPool_runs Nat.one_pos (he ▸ hreach) hopen howed).2 0 0
    (by rw [he]; exact Nat.one_pos)
  exact ⟨e, by rw [he]; rfl, by rw [he]; rfl, j, hj⟩

end Progress

end NpuOj
