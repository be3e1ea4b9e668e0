import NpuOj.Lib.Fairness
import NpuOj.ThreadPool.Mutex

/-!
# Shutting the pool down

`pool_destroy` sets `m_shutdown`, broadcasts and joins the workers, all without the
mutex. A worker tests the flag and falls asleep in two steps, with the mutex, which the
broadcast does not need: if it comes between the two, the worker has seen no flag and
gets no signal, and `pthread_join` waits for it for ever
(`NpuOj.poolDestroy_lostBroadcast`).

That is the only way in which it goes wrong. In the runs in which no worker is about to
wait when the broadcast is sent, no worker is asleep after it, and under a fair scheduler
each worker that is inside `get_task` leaves it: `NpuOj.poolDestroy_leaves`. The measure
is the number of steps that a worker has left there (`NpuOj.WorkerLoc.stepsLeft`), which
no step of another thread increases after shutdown, and which its own steps decrease; the
mutex that it may wait for is free again and again, since each holder releases it.
Spurious wake-ups may happen and are not relied on.
-/

namespace NpuOj

/-! ### The threads and their steps -/

/-- A thread of the system. -/
inductive PoolThread (P : Type) (n : ℕ)
  | producer (p : P)
  | worker (w : Fin n)
  | destroyer

/-- The steps that a fair scheduler owes to a thread. A call of `add_task` or of
`pool_destroy` is not owed, and neither is a spurious wake-up. -/
def PoolStep.OwedTo {P τ : Type} {n : ℕ} (t : PoolThread P n) : PoolStep P τ n → Prop
  | .lockAdd p | .push p | .signal p _ => t = .producer p
  | .enter w | .lock w | .test w | .wait w | .relock w | .leave w | .check w | .discard w
  | .run w | .free w => t = .worker w
  | .broadcast | .join => t = .destroyer
  | .call _ _ | .spurious _ | .destroy => False

/-- The broadcast is not sent while a worker is about to wait. -/
def BroadcastAfterTests {P τ : Type} {n : ℕ} (s : PoolState P τ n) : PoolStep P τ n → Prop
  | .broadcast => ∀ w, s.worker w ≠ .aboutToWait
  | _ => True

/-- The broadcast has been sent. -/
def DestroyerLoc.pastBroadcast : DestroyerLoc → Bool
  | .joining _ | .done => true
  | _ => false

/-- The worker is inside `get_task`. -/
def WorkerLoc.inGetTask {τ : Type} : WorkerLoc τ → Bool
  | .locking | .testing | .aboutToWait | .waiting | .waking | .loopExit => true
  | _ => false

/-- The worker is asleep, or is about to be. -/
def WorkerLoc.asleep {τ : Type} : WorkerLoc τ → Bool
  | .aboutToWait | .waiting => true
  | _ => false

/-- The steps that a worker has left inside `get_task` after shutdown, if it is woken. -/
def WorkerLoc.stepsLeft {τ : Type} : WorkerLoc τ → ℕ
  | .aboutToWait => 5
  | .waiting => 4
  | .waking | .locking => 3
  | .testing => 2
  | .loopExit => 1
  | _ => 0

section Shutdown

variable {P τ : Type} [DecidableEq P] {n : ℕ} {s s' : PoolState P τ n} {a : PoolStep P τ n}
  {w : Fin n}

/-! ### What the destroyer does -/

/-- **Inversion of a step, as far as the destroyer is concerned.** -/
inductive DestroyerMove (s : PoolState P τ n) : PoolStep P τ n → PoolState P τ n → Prop
  | other {a : PoolStep P τ n} {s' : PoolState P τ n} (ha : ¬a.OwedTo .destroyer)
      (hd : s'.destroyer = s.destroyer) (hs : s'.mShutdown = s.mShutdown) : DestroyerMove s a s'
  | destroyAgain (hd : s.destroyer = .idle) (hs : s.mShutdown = true) :
      DestroyerMove s .destroy { s with destroyer := .done }
  | destroy (hd : s.destroyer = .idle) (hs : s.mShutdown = false) :
      DestroyerMove s .destroy { s with mShutdown := true, destroyer := .flagSet }
  | broadcast (hd : s.destroyer = .flagSet) :
      DestroyerMove s .broadcast { s with
        worker := fun w => if (s.worker w).isWaiting then .waking else s.worker w
        destroyer := .joining 0 }
  | join {i : ℕ} {d : DestroyerLoc} (hi : s.destroyer = .joining i)
      (hd : d.pastBroadcast = true) : DestroyerMove s .join { s with destroyer := d }

theorem PoolState.destroyerMove_of_step (h : s.step a = some s') : DestroyerMove s a s' := by
  cases a with
  | destroy =>
    simp only [step] at h
    split at h
    · next hd =>
      split at h
      · next hs => exact Option.some.inj h ▸ .destroyAgain hd hs
      · next hs => exact Option.some.inj h ▸ .destroy hd (by simpa using hs)
    · cases h
  | broadcast =>
    simp only [step] at h
    split at h
    · next hd => exact Option.some.inj h ▸ .broadcast hd
    · cases h
  | join =>
    simp only [step] at h
    split at h
    · next hi =>
      split at h
      · split at h
        · exact Option.some.inj h ▸ .join hi rfl
        · cases h
      · exact Option.some.inj h ▸ .join hi rfl
    · cases h
  -- the other threads touch neither the flag nor the destroyer
  | signal p woken =>
    rcases woken with _ | w <;> simp only [step] at h <;> repeat' split at h
    all_goals first | cases h; exact .other (by simp [PoolStep.OwedTo]) rfl rfl | cases h
  | _ =>
    simp only [step] at h
    repeat' split at h
    all_goals first | cases h; exact .other (by simp [PoolStep.OwedTo]) rfl rfl | cases h

/-! ### What becomes of a worker after shutdown -/

omit [DecidableEq P] in
/-- How a step may change the place of a worker after shutdown. -/
def WorkerLoc.After (l l' : WorkerLoc τ) : Prop :=
  l' = l ∨ l'.stepsLeft < l.stepsLeft ∨ l.inGetTask = false ∧ l'.asleep = false

theorem WorkerLoc.After.asleep {l l' : WorkerLoc τ} (h : l.After l') (hl' : l'.asleep = true) :
    l.asleep = true := by
  rcases h with rfl | hlt | ⟨-, hawake⟩
  · exact hl'
  · cases l' <;> simp only [WorkerLoc.asleep, Bool.false_eq_true] at hl' <;>
      cases l <;> simp_all [WorkerLoc.stepsLeft, WorkerLoc.asleep]
  · rw [hawake] at hl'
    cases hl'

omit [DecidableEq P] in
theorem PoolState.after_setWorker {v : Fin n} {l : WorkerLoc τ} (hl : (s.worker v).After l)
    (w : Fin n) : (s.worker w).After ((s.setWorker v l).worker w) := by
  by_cases hw : w = v
  · subst hw
    rwa [setWorker_worker_self]
  · exact Or.inl (setWorker_worker_of_ne s l hw)

/-- **After shutdown a worker comes closer to leaving `get_task`**, or stays where it
is. -/
theorem PoolState.after_of_move (h : PoolMove s s') (hs : s.mShutdown = true) (w : Fin n) :
    (s.worker w).After (s'.worker w) := by
  -- a worker that moves: inside `get_task` the rank goes down, outside there is no rank
  have hinside : ∀ {v : Fin n} {l l' : WorkerLoc τ}, s.worker v = l →
      l'.stepsLeft < l.stepsLeft → (s.worker w).After ((s.setWorker v l').worker w) :=
    fun hv hlt => after_setWorker (Or.inr (Or.inl (by rwa [hv]))) w
  have houtside : ∀ {v : Fin n} {l l' : WorkerLoc τ}, s.worker v = l → l.inGetTask = false →
      l'.asleep = false → (s.worker w).After ((s.setWorker v l').worker w) :=
    fun hv hl hl' => after_setWorker (Or.inr (Or.inr ⟨by rwa [hv], hl'⟩)) w
  cases h with
  | call hp | lockAdd hp hm | push hp | signalNone hp hw | destroy hd hs | destroyer d =>
    exact Or.inl rfl
  | enter hw | checkNull hw | checkDrop hw hs | checkRun hw hs | discard hw hs
  | discardNot hw hs | run hw | free hw => exact houtside hw rfl rfl
  | signal hp hw | lock hw hm | wait hw | spurious hw | relock hw hm | leaveNull hw hs
  | testLeave hw h =>
    exact hinside hw (by simp [WorkerLoc.stepsLeft])
  | leaveTask hw hs' hq | leaveEmpty hw hs' hq | testWait hw hq hs' =>
    rw [hs] at hs'
    cases hs'
  | broadcast hd =>
    simp only [WorkerLoc.After]
    split
    · next hwaiting =>
      rw [WorkerLoc.isWaiting_eq_true_iff.mp hwaiting]
      exact Or.inr (Or.inl (by simp [WorkerLoc.stepsLeft]))
    · exact Or.inl rfl

/-- A step that is owed to a worker moves it. -/
theorem PoolState.worker_ne_of_owed (h : s.step a = some s') (ha : a.OwedTo (.worker w)) :
    s'.worker w ≠ s.worker w := by
  cases a with
  | enter v | lock v | test v | wait v | relock v | leave v | check v | discard v | run v
  | free v =>
    obtain rfl : w = v := by simpa [PoolStep.OwedTo] using ha
    simp only [step] at h
    repeat' split at h
    all_goals first | cases h; simp [*] | cases h
  | _ => simp [PoolStep.OwedTo] at ha

/-- **A worker inside `get_task` after shutdown**: its own steps bring it closer to
leaving, and those of the others do so or leave it where it is. -/
theorem PoolState.stepsLeft_of_step (h : s.step a = some s') (hs : s.mShutdown = true)
    (hw : (s.worker w).inGetTask = true) :
    (¬a.OwedTo (.worker w) ∧ s'.worker w = s.worker w) ∨
      (s'.worker w).stepsLeft < (s.worker w).stepsLeft := by
  rcases after_of_move (move_of_step h) hs w with hsame | hlt | ⟨hout, -⟩
  · exact Or.inl ⟨fun ha => worker_ne_of_owed h ha hsame, hsame⟩
  · exact Or.inr hlt
  · rw [hw] at hout
    cases hout

/-! ### Nobody sleeps after the broadcast -/

/-- **The invariant of the shutdown.** -/
structure ShutdownInv (s : PoolState P τ n) : Prop where
  flag : s.mShutdown = true ↔ s.destroyer ≠ .idle
  awake : s.destroyer.pastBroadcast = true → ∀ w, (s.worker w).asleep = false

theorem ShutdownInv.move (hinv : ShutdownInv s) (hok : BroadcastAfterTests s a)
    (h : s.step a = some s') : ShutdownInv s' := by
  cases PoolState.destroyerMove_of_step h with
  | other ha hd hs =>
    refine ⟨by rw [hs, hd, hinv.flag], fun hpast w => ?_⟩
    rw [hd] at hpast
    have hshut : s.mShutdown = true := hinv.flag.mpr fun hidle => by
      rw [hidle] at hpast
      cases hpast
    have hafter := PoolState.after_of_move (PoolState.move_of_step h) hshut w
    refine Bool.eq_false_iff.mpr fun hasleep => ?_
    exact absurd (hafter.asleep hasleep) (by simp [hinv.awake hpast w])
  | destroyAgain hd hs => exact absurd hd (hinv.flag.mp hs)
  | destroy hd hs => exact ⟨by simp, fun hpast => by cases hpast⟩
  | broadcast hd =>
    refine ⟨by simp [hinv.flag, hd], fun _ w => ?_⟩
    have hw : s.worker w ≠ .aboutToWait := hok w
    simp only
    split
    · rfl
    · next hwaiting =>
      cases hl : s.worker w <;> first | rfl | simp_all [WorkerLoc.isWaiting]
  | @join i d hi hd =>
    have hpast : s.destroyer.pastBroadcast = true := by rw [hi]; rfl
    refine ⟨?_, fun _ => hinv.awake hpast⟩
    change s.mShutdown = true ↔ d ≠ .idle
    rw [hinv.flag, hi]
    exact iff_of_true (by simp) fun hidle => by rw [hidle] at hd; cases hd

theorem shutdown_of_reachableBy
    (h : (threadPool P τ n).ReachableBy BroadcastAfterTests s) : ShutdownInv s :=
  h.invariant (by rintro _ rfl; exact ⟨by simp [PoolState.initPool], fun hpast => by cases hpast⟩)
    fun _ _ _ _ hinv hok hstep => hinv.move hok hstep

omit [DecidableEq P] in
/-- After the broadcast no worker sleeps. -/
theorem ShutdownInv.not_waiting (hinv : ShutdownInv s) (hpast : s.destroyer.pastBroadcast = true)
    (w : Fin n) : s.worker w ≠ .waiting := by
  intro hwaiting
  have hawake := hinv.awake hpast w
  rw [hwaiting] at hawake
  cases hawake

omit [DecidableEq P] in
/-- While a worker sleeps after the flag has been set, the broadcast is still to come. -/
theorem ShutdownInv.flagSet_of_waiting (hinv : ShutdownInv s) (hshut : s.mShutdown = true)
    {w : Fin n} (hwaiting : s.worker w = .waiting) : s.destroyer = .flagSet := by
  cases hd : s.destroyer with
  | flagSet => rfl
  | idle => exact absurd hd (hinv.flag.mp hshut)
  | joining i | done => exact absurd hwaiting (hinv.not_waiting (by rw [hd]; rfl) w)

/-- The step that the destroyer takes then wakes the worker. -/
theorem PoolState.not_waiting_of_owed (h : s.step a = some s') (hd : s.destroyer = .flagSet)
    (howed : a.OwedTo .destroyer) (w : Fin n) : s'.worker w ≠ .waiting := by
  intro hwaiting
  cases destroyerMove_of_step h with
  | other hnot _ _ => exact hnot howed
  | broadcast _ =>
    have hwas := WorkerLoc.eq_of_broadcast hwaiting (by simp)
    simp [hwas, WorkerLoc.isWaiting] at hwaiting
  | destroy hidle _ | destroyAgain hidle _ =>
    rw [hd] at hidle
    cases hidle
  | join hi _ =>
    rw [hd] at hi
    cases hi

/-! ### What a fair scheduler does -/

/-- What a step does to the mutex. -/
theorem PoolState.mutex_of_move (h : PoolMove s s') :
    s'.mutex = s.mutex ∨ s'.mutex = none ∨ s.mutex = none := by
  cases h with
  | lockAdd hp hm | lock hw hm | relock hw hm => exact Or.inr (Or.inr hm)
  | push hp | wait hw | leaveNull hw hs | leaveTask hw hs hq => exact Or.inr (Or.inl rfl)
  | _ => exact Or.inl rfl

/-- A step that is owed to the producer with the mutex releases it. -/
theorem PoolState.mutex_of_owed {p : P} (h : s.step a = some s') (ha : a.OwedTo (.producer p))
    (hp : (s.producer p).holdsMutex = true) : s'.mutex = none := by
  have hlocked : ∃ task, s.producer p = .locked task := by
    cases hl : s.producer p <;> simp_all [ProducerLoc.holdsMutex]
  obtain ⟨task, hl⟩ := hlocked
  cases a with
  | lockAdd q =>
    obtain rfl : p = q := by simpa [PoolStep.OwedTo] using ha
    simp [step, hl] at h
  | push q =>
    obtain rfl : p = q := by simpa [PoolStep.OwedTo] using ha
    simp only [step, hl] at h
    cases h
    rfl
  | signal q woken =>
    obtain rfl : p = q := by simpa [PoolStep.OwedTo] using ha
    rcases woken with _ | w <;> simp [step, hl] at h
  | _ => simp [PoolStep.OwedTo] at ha

theorem PoolState.enabled_producer {p : P} (hp : (s.producer p).holdsMutex = true) :
    (threadPool P τ n).Enabled (PoolStep.OwedTo (.producer p)) s := by
  cases hl : s.producer p with
  | locked task => exact ⟨.push p, rfl, _, by simp only [threadPool, step, hl]; rfl⟩
  | idle | locking task | signalling =>
    rw [hl] at hp
    cases hp

/-- A worker that is awake inside `get_task` can go on, if it holds the mutex or the mutex
is free. -/
theorem PoolState.enabled_worker (hs : s.mShutdown = true) (hw : (s.worker w).inGetTask = true)
    (hne : s.worker w ≠ .waiting) (hm : (s.worker w).holdsMutex = true ∨ s.mutex = none) :
    (threadPool P τ n).Enabled (PoolStep.OwedTo (.worker w)) s := by
  cases hl : s.worker w with
  | locking =>
    rw [hl] at hm
    have hfree : s.mutex = none := hm.resolve_left (by simp [WorkerLoc.holdsMutex])
    exact ⟨.lock w, rfl, _, by simp only [threadPool, step, hl, hfree]; rfl⟩
  | waking =>
    rw [hl] at hm
    have hfree : s.mutex = none := hm.resolve_left (by simp [WorkerLoc.holdsMutex])
    exact ⟨.relock w, rfl, _, by simp only [threadPool, step, hl, hfree]; rfl⟩
  | testing => exact ⟨.test w, rfl, _, by simp only [threadPool, step, hl]; rfl⟩
  | aboutToWait => exact ⟨.wait w, rfl, _, by simp only [threadPool, step, hl]; rfl⟩
  | loopExit => exact ⟨.leave w, rfl, _, by simp only [threadPool, step, hl, hs, if_true]; rfl⟩
  | waiting => exact absurd hl hne
  | _ =>
    rw [hl] at hw
    cases hw

/-- The flag is never cleared. -/
theorem PoolState.mShutdown_of_step (h : s.step a = some s') (hs : s.mShutdown = true) :
    s'.mShutdown = true := by
  cases destroyerMove_of_step h with
  | other ha hd hsame => rwa [hsame]
  | _ => first | rfl | exact hs

theorem WorkerLoc.inGetTask_of_holdsMutex {l : WorkerLoc τ} (h : l.holdsMutex = true) :
    l.inGetTask = true := by
  cases l <;> first | rfl | cases h

theorem WorkerLoc.stepsLeft_eq_four_iff {l : WorkerLoc τ} : l.stepsLeft = 4 ↔ l = .waiting := by
  cases l <;> simp [stepsLeft]

/-- A producer with the mutex releases it. -/
theorem producer_gives_back {ok : PoolState P τ n → PoolStep P τ n → Prop}
    {e : (threadPool P τ n).Execution ok} (hreach : ∀ k, (threadPool P τ n).Reachable (e.state k))
    {p : P} (hfair : e.StronglyFair (PoolStep.OwedTo (.producer p))) :
    e.LeadsTo (fun s => s.mutex = some (.inl p)) fun s => s.mutex = none := by
  have hholds : ∀ k, (e.state k).mutex = some (.inl p) →
      ((e.state k).producer p).holdsMutex = true :=
    fun k => holder_of_reachable (hreach k) (.inl p)
  refine .of_fair hfair (fun k a hmutex ha => ?_)
    fun k => ⟨k, le_rfl, fun hmutex => PoolState.enabled_producer (hholds k hmutex)⟩
  have hstep := (e.moves k a ha).2
  by_cases howed : a.OwedTo (.producer p)
  · exact Or.inr (PoolState.mutex_of_owed hstep howed (hholds k hmutex))
  · rcases PoolState.mutex_of_move (PoolState.move_of_step hstep) with hsame | hfree | hnone
    · exact Or.inl ⟨howed, hsame.trans hmutex⟩
    · exact Or.inr hfree
    · rw [hmutex] at hnone
      cases hnone

section Fair

variable {e : (threadPool P τ n).Execution BroadcastAfterTests}
  (hreach : ∀ k, (threadPool P τ n).ReachableBy BroadcastAfterTests (e.state k))
  (hfair : ∀ t, e.StronglyFair (PoolStep.OwedTo t))
  (hshut : ∀ k, (e.state k).mShutdown = true)

include hreach hfair

theorem producer_releases (p : P) :
    e.LeadsTo (fun s => s.mutex = some (.inl p)) fun s => s.mutex = none := by
  exact producer_gives_back (fun k => (hreach k).reachable) (hfair (.producer p))

include hshut

/-- So does a worker, after shutdown. -/
theorem worker_releases (w : Fin n) :
    e.LeadsTo (fun s => s.mutex = some (.inr w)) fun s => s.mutex = none := by
  have hholds : ∀ k, (e.state k).mutex = some (.inr w) →
      ((e.state k).worker w).holdsMutex = true :=
    fun k => holder_of_reachable (hreach k).reachable (.inr w)
  refine .of_rank (fun s => (s.worker w).stepsLeft) fun r =>
    .of_fair (hfair (.worker w)) ?_ fun k => ⟨k, le_rfl, ?_⟩
  · rintro k a ⟨hmutex, hr⟩ ha
    have hstep := (e.moves k a ha).2
    rcases PoolState.mutex_of_move (PoolState.move_of_step hstep) with hsame | hfree | hnone
    · rcases PoolState.stepsLeft_of_step hstep (hshut k)
        (WorkerLoc.inGetTask_of_holdsMutex (hholds k hmutex)) with ⟨hnot, hstay⟩ | hlt
      · exact Or.inl ⟨hnot, hsame.trans hmutex, by rw [hstay, hr]⟩
      · exact Or.inr (Or.inr ⟨hsame.trans hmutex, hr ▸ hlt⟩)
    · exact Or.inr (Or.inl hfree)
    · rw [hmutex] at hnone
      cases hnone
  · rintro ⟨hmutex, -⟩
    refine PoolState.enabled_worker (hshut k)
      (WorkerLoc.inGetTask_of_holdsMutex (hholds k hmutex)) (fun hwaiting => ?_)
      (Or.inl (hholds k hmutex))
    have hno := hholds k hmutex
    rw [hwaiting] at hno
    cases hno

/-- **The mutex is free again and again.** -/
theorem mutex_free_often (k : ℕ) : ∃ l, k ≤ l ∧ (e.state l).mutex = none := by
  cases hmutex : (e.state k).mutex with
  | none => exact ⟨k, le_rfl, hmutex⟩
  | some o =>
    rcases o with p | w
    · exact producer_releases hreach hfair p k hmutex
    · exact worker_releases hreach hfair hshut w k hmutex

/-- **A worker inside `get_task` leaves it.** While it sleeps the broadcast is still to
come; otherwise it is its own next step that it waits for. -/
theorem worker_leaves (w : Fin n) :
    e.LeadsTo (fun s => (s.worker w).inGetTask = true) fun s => (s.worker w).inGetTask = false := by
  -- a step that is not the one waited for
  have hkeep : ∀ k a r, ((e.state k).worker w).inGetTask = true →
      ((e.state k).worker w).stepsLeft = r → e.action k = some a →
      (¬a.OwedTo (.worker w) ∧ ((e.state (k + 1)).worker w).inGetTask = true ∧
        ((e.state (k + 1)).worker w).stepsLeft = r) ∨
      ((e.state (k + 1)).worker w).inGetTask = false ∨
        ((e.state (k + 1)).worker w).inGetTask = true ∧
          ((e.state (k + 1)).worker w).stepsLeft < r := by
    rintro k a r hin rfl ha
    rcases PoolState.stepsLeft_of_step (e.moves k a ha).2 (hshut k) hin with ⟨hnot, hstay⟩ | hlt
    · exact Or.inl ⟨hnot, by rw [hstay, hin], by rw [hstay]⟩
    · rcases Bool.eq_false_or_eq_true ((e.state (k + 1)).worker w).inGetTask with hin' | hout
      · exact Or.inr (Or.inr ⟨hin', hlt⟩)
      · exact Or.inr (Or.inl hout)
  refine .of_rank (fun s => (s.worker w).stepsLeft) fun r => ?_
  by_cases hr : r = 4
  · subst hr
    have hflagSet : ∀ k, ((e.state k).worker w).stepsLeft = 4 →
        (e.state k).destroyer = .flagSet := fun k hfour =>
      (shutdown_of_reachableBy (hreach k)).flagSet_of_waiting (hshut k)
        (WorkerLoc.stepsLeft_eq_four_iff.mp hfour)
    refine .of_fair (hfair .destroyer) ?_ fun k => ⟨k, le_rfl, ?_⟩
    · rintro k a ⟨hin, hfour⟩ ha
      rcases hkeep k a 4 hin hfour ha with ⟨-, hstay⟩ | hleft
      · refine Or.inl ⟨fun howed => ?_, hstay⟩
        -- the broadcast wakes it
        exact PoolState.not_waiting_of_owed (e.moves k a ha).2 (hflagSet k hfour) howed w
          (WorkerLoc.stepsLeft_eq_four_iff.mp hstay.2)
      · exact Or.inr hleft
    · rintro ⟨-, hfour⟩
      have hd := hflagSet k hfour
      exact ⟨.broadcast, rfl, _, by simp only [threadPool, PoolState.step, hd]; rfl⟩
  · refine .of_fair (hfair (.worker w)) (fun k a hP ha => hkeep k a r hP.1 hP.2 ha)
      fun k => ?_
    obtain ⟨l, hkl, hfree⟩ := mutex_free_often hreach hfair hshut k
    refine ⟨l, hkl, ?_⟩
    rintro ⟨hin, hrank⟩
    refine PoolState.enabled_worker (hshut l) hin (fun hwaiting => ?_) (Or.inr hfree)
    exact hr (hrank.symm.trans (WorkerLoc.stepsLeft_eq_four_iff.mpr hwaiting))

end Fair

/-- **No wake-up is lost at shutdown**, in the runs in which no worker is about to wait
when the broadcast is sent: after the broadcast no worker is blocked in
`pthread_cond_wait`, and each worker that is inside `get_task` when the flag is set leaves
it, whatever a fair scheduler does. -/
theorem poolDestroy_leaves (h : (threadPool P τ n).ReachableBy BroadcastAfterTests s) :
    (s.destroyer.pastBroadcast = true → ∀ w, s.worker w ≠ .waiting) ∧
      (s.mShutdown = true → ∀ w, (s.worker w).inGetTask = true →
        ∀ e : (threadPool P τ n).Execution BroadcastAfterTests, e.state 0 = s →
          (∀ t, e.StronglyFair (PoolStep.OwedTo t)) →
          ∃ k, ((e.state k).worker w).inGetTask = false) := by
  refine ⟨(shutdown_of_reachableBy h).not_waiting, ?_⟩
  rintro hs w hin e rfl hfair
  have hshut : ∀ k, (e.state k).mShutdown = true := fun k =>
    TransSystem.Execution.always_of_stable (e := e) (P := fun s => s.mShutdown = true)
      (fun k a hk ha => PoolState.mShutdown_of_step (e.moves k a ha).2 hk) hs (Nat.zero_le k)
  obtain ⟨k, -, hk⟩ := worker_leaves (fun k => e.reachableBy h k) hfair hshut w 0 hin
  exact ⟨k, hk⟩

/-! ### Two orders of the same steps -/

/-- Where every worker sleeps or is gone, no call of `add_task` is under way and the
destroyer is done or waits for a sleeper, no thread goes on by itself. -/
theorem PoolState.quiet_of_step (h : s.step a = some s') (hp : ∀ p, s.producer p = .idle)
    (hw : ∀ w, s.worker w = .waiting ∨ s.worker w = .exited)
    (hd : s.destroyer = .done ∨ ∃ w : Fin n, s.destroyer = .joining w ∧ s.worker w = .waiting) :
    (∃ p task, a = .call p task) ∨ ∃ w, a = .spurious w := by
  cases a with
  | call p task => exact Or.inl ⟨p, task, rfl⟩
  | spurious w => exact Or.inr ⟨w, rfl⟩
  | lockAdd p | push p => simp [step, hp] at h
  | signal p woken => rcases woken with _ | w <;> simp [step, hp] at h
  | enter w | lock w | test w | wait w | relock w | leave w | check w | discard w | run w
  | free w => rcases hw w with hl | hl <;> simp [step, hl] at h
  | destroy | broadcast => rcases hd with hl | ⟨w, hl, -⟩ <;> simp [step, hl] at h
  | join =>
    rcases hd with hl | ⟨w, hl, hwaiting⟩
    · simp [step, hl] at h
    · simp [step, hl, hwaiting] at h

/-- There a fair scheduler owes nobody a step. -/
theorem PoolState.not_enabled_of_quiet (t : PoolThread P n) (hp : ∀ p, s.producer p = .idle)
    (hw : ∀ w, s.worker w = .waiting ∨ s.worker w = .exited)
    (hd : s.destroyer = .done ∨ ∃ w : Fin n, s.destroyer = .joining w ∧ s.worker w = .waiting) :
    ¬(threadPool P τ n).Enabled (PoolStep.OwedTo t) s := by
  rintro ⟨a, howed, s', hs'⟩
  rcases quiet_of_step hs' hp hw hd with ⟨p, task, rfl⟩ | ⟨w, rfl⟩ <;> exact howed

/-- The worker falls asleep before the flag is set: the broadcast wakes it, and it leaves
`get_task` in an execution that ends with `pool_destroy`. -/
theorem poolDestroy_leaves_sleeper : ∃ (s : PoolState (Fin 1) ℕ 1)
    (e : (threadPool (Fin 1) ℕ 1).Execution BroadcastAfterTests),
    e.state 0 = s ∧ s.destroyer = .joining 0 ∧ s.worker 0 = .waking ∧
      ∃ k, ((e.state k).worker 0).inGetTask = false := by
  let s := ((threadPool (Fin 1) ℕ 1).run (PoolState.initPool (Fin 1) ℕ 1)
    [.enter 0, .lock 0, .test 0, .wait 0, .destroy, .broadcast]).get rfl
  have hasleep : (threadPool (Fin 1) ℕ 1).ReachableBy BroadcastAfterTests _ :=
    TransSystem.ReachableBy.run (.init rfl) (by simp [BroadcastAfterTests])
      (show (threadPool (Fin 1) ℕ 1).run (PoolState.initPool (Fin 1) ℕ 1)
        [.enter 0, .lock 0, .test 0, .wait 0, .destroy] = some _ from rfl)
  have hwoken : (threadPool (Fin 1) ℕ 1).ReachableBy BroadcastAfterTests s :=
    hasleep.step (a := .broadcast) (by
      intro w hw
      obtain rfl : w = 0 := Subsingleton.elim _ _
      cases hw) rfl
  obtain ⟨e, he, -, hfair⟩ := TransSystem.Execution.exists_of_run
    (show ∀ s, ∀ a ∈ _, BroadcastAfterTests s a by simp [BroadcastAfterTests])
    (show (threadPool (Fin 1) ℕ 1).run s
      [.relock 0, .test 0, .leave 0, .check 0, .join, .join] = some _ from rfl)
  refine ⟨s, e, he, rfl, rfl, (poolDestroy_leaves hwoken).2 rfl 0 rfl e he fun t => hfair _ ?_⟩
  -- at the end of the run no thread has a step left
  refine PoolState.not_enabled_of_quiet t (fun _ => rfl) (fun w => Or.inr ?_) (Or.inl rfl)
  obtain rfl : w = 0 := Subsingleton.elim _ _
  rfl

/-- **The broadcast comes between the test and the wait**: the worker sleeps, the
destroyer waits for it in `pthread_join`, and no thread can go on but by a spurious wake-up
or a new call of `add_task`. -/
theorem poolDestroy_lostBroadcast : ∃ s : PoolState (Fin 1) ℕ 1,
    (threadPool (Fin 1) ℕ 1).Reachable s ∧ s.destroyer = .joining 0 ∧ s.worker 0 = .waiting ∧
      ∀ a s', s.step a = some s' → (∃ p task, a = .call p task) ∨ ∃ w, a = .spurious w :=
  ⟨_, TransSystem.reachable_of_run rfl
    (show (threadPool (Fin 1) ℕ 1).run (PoolState.initPool (Fin 1) ℕ 1)
      [.enter 0, .lock 0, .test 0, .destroy, .broadcast, .wait 0] = some _ from rfl),
    rfl, rfl, fun _ _ h => PoolState.quiet_of_step h (fun _ => rfl)
      (fun w => Or.inl (by obtain rfl : w = 0 := Subsingleton.elim _ _; rfl))
      (Or.inr ⟨0, rfl, rfl⟩)⟩

end Shutdown

end NpuOj
