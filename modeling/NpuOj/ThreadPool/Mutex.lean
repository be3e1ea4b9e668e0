import NpuOj.ThreadPool

/-!
# What the mutex of the pool protects

A thread in one of the places between a lock and an unlock is the holder of the mutex,
so that no two threads are in such a place (`NpuOj.owner_of_reachable`). From this follow
the two facts about the queue that the code relies on: it is empty while a worker goes to
sleep before shutdown, and it is not empty where a worker takes a task out, so that
`front` is never called on an empty queue (`NpuOj.not_crashed_of_reachable`). It follows
in turn that the holder of the mutex is always in one of those places
(`NpuOj.holder_of_reachable`).
-/

namespace NpuOj

section Mutex

variable {P τ : Type} [DecidableEq P] {n : ℕ} {s s' : PoolState P τ n}

omit [DecidableEq P] in
/-- The thread is in a place between a lock and an unlock. -/
def PoolState.Owns (s : PoolState P τ n) : P ⊕ Fin n → Prop
  | .inl p => (s.producer p).holdsMutex = true
  | .inr w => (s.worker w).holdsMutex = true

/-- **The owner of the mutex**: a thread in such a place holds it. -/
def PoolState.OwnerInv (s : PoolState P τ n) : Prop := ∀ o, s.Owns o → s.mutex = some o

omit [DecidableEq P] in
/-- **How a step may change the owner**, if it gives the mutex to no thread but one: it
leaves the mutex alone, it takes a free one, or it releases it. -/
theorem PoolState.OwnerInv.of_actor (hinv : s.OwnerInv) (a : P ⊕ Fin n)
    (hothers : ∀ o, o ≠ a → s'.Owns o → s.Owns o)
    (ha : (s'.mutex = s.mutex ∧ (s'.Owns a → s.Owns a)) ∨
      (s.mutex = none ∧ s'.mutex = some a) ∨ (s.Owns a ∧ ¬s'.Owns a)) :
    s'.OwnerInv := by
  intro o ho
  by_cases hoa : o = a
  · subst hoa
    rcases ha with ⟨hmutex, hkeep⟩ | ⟨-, hmutex⟩ | ⟨-, hgone⟩
    · rw [hmutex]
      exact hinv o (hkeep ho)
    · exact hmutex
    · exact absurd ho hgone
  · have hold := hinv o (hothers o hoa ho)
    rcases ha with ⟨hmutex, -⟩ | ⟨hfree, -⟩ | ⟨howned, -⟩
    · rw [hmutex, hold]
    · rw [hfree] at hold
      cases hold
    · exact absurd (Option.some.inj (hold.symm.trans (hinv a howned))) hoa

/-- Who is in such a place after a step of one producer. -/
theorem PoolState.owns_iff_of_producer {p : P} {l : ProducerLoc τ}
    (hs' : s'.producer = (s.setProducer p l).producer) (hw : s'.worker = s.worker)
    (o : P ⊕ Fin n) :
    s'.Owns o ↔ (o = .inl p ∧ l.holdsMutex = true) ∨ (o ≠ .inl p ∧ s.Owns o) := by
  rcases o with q | w
  · by_cases hq : q = p
    · subst hq
      simp [Owns, hs']
    · simp [Owns, hs', hq, setProducer_producer_of_ne s l hq]
  · simp [Owns, hw]

omit [DecidableEq P] in
/-- Who is in such a place after a step of one worker. -/
theorem PoolState.owns_iff_of_worker {w : Fin n} {l : WorkerLoc τ}
    (hs' : s'.worker = (s.setWorker w l).worker) (hp : s'.producer = s.producer)
    (o : P ⊕ Fin n) :
    s'.Owns o ↔ (o = .inr w ∧ l.holdsMutex = true) ∨ (o ≠ .inr w ∧ s.Owns o) := by
  rcases o with q | v
  · simp [Owns, hp]
  · by_cases hv : v = w
    · subst hv
      simp [Owns, hs']
    · simp [Owns, hs', hv, setWorker_worker_of_ne s l hv]

/-- A step of one producer. -/
theorem PoolState.OwnerInv.producer (hinv : s.OwnerInv) {p : P} {l : ProducerLoc τ}
    (hs' : s'.producer = (s.setProducer p l).producer) (hw : s'.worker = s.worker)
    (h : (s'.mutex = s.mutex ∧ (l.holdsMutex = true → (s.producer p).holdsMutex = true)) ∨
      (s.mutex = none ∧ s'.mutex = some (.inl p)) ∨
      ((s.producer p).holdsMutex = true ∧ l.holdsMutex = false)) : s'.OwnerInv := by
  have howns := owns_iff_of_producer hs' hw
  refine hinv.of_actor (.inl p) (fun o ho h => ((howns o).mp h).elim (fun hop => absurd hop.1 ho)
    And.right) ?_
  have hself : s'.Owns (.inl p) ↔ l.holdsMutex = true := by simp [howns]
  rw [hself]
  rcases h with ⟨hmutex, hl⟩ | h | ⟨hp, hl⟩
  · exact Or.inl ⟨hmutex, hl⟩
  · exact Or.inr (Or.inl h)
  · exact Or.inr (Or.inr ⟨hp, by simp [hl]⟩)

omit [DecidableEq P] in
/-- A step of one worker. -/
theorem PoolState.OwnerInv.worker (hinv : s.OwnerInv) {w : Fin n} {l : WorkerLoc τ}
    (hs' : s'.worker = (s.setWorker w l).worker) (hp : s'.producer = s.producer)
    (h : (s'.mutex = s.mutex ∧ (l.holdsMutex = true → (s.worker w).holdsMutex = true)) ∨
      (s.mutex = none ∧ s'.mutex = some (.inr w)) ∨
      ((s.worker w).holdsMutex = true ∧ l.holdsMutex = false)) : s'.OwnerInv := by
  have howns := owns_iff_of_worker hs' hp
  refine hinv.of_actor (.inr w) (fun o ho h => ((howns o).mp h).elim (fun how => absurd how.1 ho)
    And.right) ?_
  have hself : s'.Owns (.inr w) ↔ l.holdsMutex = true := by simp [howns]
  rw [hself]
  rcases h with ⟨hmutex, hl⟩ | h | ⟨hw, hl⟩
  · exact Or.inl ⟨hmutex, hl⟩
  · exact Or.inr (Or.inl h)
  · exact Or.inr (Or.inr ⟨hw, by simp [hl]⟩)

/-- **Every step keeps the owner of the mutex.** -/
theorem PoolState.OwnerInv.move (hinv : s.OwnerInv) (h : PoolMove s s') : s'.OwnerInv := by
  cases h with
  | call hp | signalNone hp hw =>
    exact hinv.producer rfl rfl (Or.inl ⟨rfl, by simp [ProducerLoc.holdsMutex]⟩)
  | lockAdd hp hm => exact hinv.producer rfl rfl (Or.inr (Or.inl ⟨hm, rfl⟩))
  | push hp => exact hinv.producer rfl rfl (Or.inr (Or.inr ⟨by rw [hp]; rfl, rfl⟩))
  | @signal p w hp hw =>
    have hmid : (s.setProducer p .idle).OwnerInv :=
      hinv.producer rfl rfl (Or.inl ⟨rfl, by simp [ProducerLoc.holdsMutex]⟩)
    exact hmid.worker rfl rfl (Or.inl ⟨rfl, by simp [WorkerLoc.holdsMutex]⟩)
  -- a worker takes the mutex, releases it, or moves on with it
  | lock hw hm | relock hw hm => exact hinv.worker rfl rfl (Or.inr (Or.inl ⟨hm, rfl⟩))
  | wait hw | leaveNull hw hs | leaveTask hw hs hq | leaveEmpty hw hs hq =>
    exact hinv.worker rfl rfl (Or.inr (Or.inr ⟨by rw [hw]; rfl, rfl⟩))
  | testWait hw hq hs | testLeave hw h =>
    exact hinv.worker rfl rfl (Or.inl ⟨rfl, fun _ => by rw [hw]; rfl⟩)
  -- the steps outside the mutex
  | enter hw | spurious hw | checkNull hw | checkDrop hw hs | checkRun hw hs | discard hw hs
  | discardNot hw hs | run hw | free hw =>
    exact hinv.worker rfl rfl (Or.inl ⟨rfl, by simp [WorkerLoc.holdsMutex]⟩)
  | destroy hd hs => exact hinv
  | destroyer d => exact hinv
  | broadcast hd =>
    rintro (p | w) ho
    · exact hinv (.inl p) ho
    · refine hinv (.inr w) ?_
      simp only [Owns] at ho ⊢
      split at ho
      · cases ho
      · exact ho

theorem owner_of_reachable (h : (threadPool P τ n).Reachable s) : s.OwnerInv :=
  h.invariant (by
    rintro _ rfl o ho
    rcases o with p | w <;> simp [PoolState.Owns, PoolState.initPool, ProducerLoc.holdsMutex,
      WorkerLoc.holdsMutex] at ho)
    fun _ _ _ _ hinv _ hstep => hinv.move (PoolState.move_of_step hstep)

omit [DecidableEq P] in
/-- Two workers in places that hold the mutex are the same worker. -/
theorem PoolState.OwnerInv.worker_eq (hinv : s.OwnerInv) {v w : Fin n}
    (hv : (s.worker v).holdsMutex = true) (hw : (s.worker w).holdsMutex = true) : v = w := by
  have h := (hinv (.inr v) hv).symm.trans (hinv (.inr w) hw)
  simpa using h

omit [DecidableEq P] in
/-- No worker holds the mutex while a producer does. -/
theorem PoolState.OwnerInv.worker_of_producer (hinv : s.OwnerInv) {p : P}
    (hp : (s.producer p).holdsMutex = true) (w : Fin n) : (s.worker w).holdsMutex = false := by
  by_contra hw
  have h := (hinv (.inl p) hp).symm.trans (hinv (.inr w) (Bool.eq_true_of_not_eq_false hw))
  simp at h

/-! ### The queue -/

/-- **What the queue looks like** where a worker goes to sleep and where one takes a task
out. -/
structure PoolState.QueueInv (s : PoolState P τ n) : Prop where
  empty : ∀ w, s.worker w = .aboutToWait → s.mQueTasks = []
  nonempty : ∀ w, s.worker w = .loopExit → s.mQueTasks ≠ [] ∨ s.mShutdown = true
  notCrashed : ∀ w, s.worker w ≠ .crashed

omit [DecidableEq P] in
/-- A step of one worker that leaves the queue alone. -/
theorem PoolState.QueueInv.worker (hinv : s.QueueInv) {w : Fin n} {l : WorkerLoc τ}
    (hs' : s'.worker = (s.setWorker w l).worker) (hq : s'.mQueTasks = s.mQueTasks)
    (hd : s'.mShutdown = s.mShutdown) (hempty : l = .aboutToWait → s.mQueTasks = [])
    (hnonempty : l = .loopExit → s.mQueTasks ≠ [] ∨ s.mShutdown = true) (hl : l ≠ .crashed) :
    s'.QueueInv := by
  refine ⟨?_, ?_, ?_⟩
  · rw [hs', hq]
    exact s.forall_setWorker (Q := fun l => l = .aboutToWait → _) w hinv.empty hempty
  · rw [hs', hq, hd]
    exact s.forall_setWorker (Q := fun l => l = .loopExit → _) w hinv.nonempty hnonempty
  · rw [hs']
    exact s.forall_setWorker (Q := (· ≠ .crashed)) w hinv.notCrashed hl

theorem PoolState.QueueInv.move (hinv : s.QueueInv) (howner : s.OwnerInv) (h : PoolMove s s') :
    s'.QueueInv := by
  cases h with
  | call hp | lockAdd hp hm | signalNone hp hw | destroyer d =>
    exact ⟨hinv.empty, hinv.nonempty, hinv.notCrashed⟩
  | destroy hd hs => exact ⟨hinv.empty, fun w hw => Or.inr rfl, hinv.notCrashed⟩
  | @push p task hp =>
    -- the producer holds the mutex, so that no worker is in one of the two places
    have hfree := howner.worker_of_producer (p := p) (by rw [hp]; rfl)
    refine ⟨fun w hw => ?_, fun w _ => Or.inl (by simp), hinv.notCrashed⟩
    have hholds := hfree w
    rw [show s.worker w = .aboutToWait from hw] at hholds
    cases hholds
  | @leaveTask w task rest hw hs hq =>
    -- the worker that takes the task holds the mutex, so that no other one does
    have hothers : ∀ v, v ≠ w → (s.worker v).holdsMutex = false := fun v hv =>
      Bool.eq_false_iff.mpr fun hholds => hv (howner.worker_eq hholds (by rw [hw]; rfl))
    have hfree : ∀ v, ((s.setWorker w (.got s.history.popped.length task)).worker v).holdsMutex =
        false :=
      (Function.forall_update_iff s.worker fun _ l => l.holdsMutex = false).mpr ⟨rfl, hothers⟩
    refine ⟨fun v hv => ?_, fun v hv => ?_,
      s.forall_setWorker (Q := (· ≠ .crashed)) w hinv.notCrashed (by simp)⟩
    · cases (congrArg WorkerLoc.holdsMutex hv).symm.trans (hfree v)
    · cases (congrArg WorkerLoc.holdsMutex hv).symm.trans (hfree v)
  | broadcast hd =>
    exact ⟨fun w hw => hinv.empty w (WorkerLoc.eq_of_broadcast hw (by simp)),
      fun w hw => hinv.nonempty w (WorkerLoc.eq_of_broadcast hw (by simp)),
      fun w hw => hinv.notCrashed w (WorkerLoc.eq_of_broadcast hw (by simp))⟩
  | leaveEmpty hw hs hq =>
    rcases hinv.nonempty _ hw with h | h
    · exact absurd hq h
    · rw [hs] at h
      cases h
  | testWait hw hq hs => exact hinv.worker rfl rfl rfl (fun _ => hq) (by simp) (by simp)
  | testLeave hw h => exact hinv.worker rfl rfl rfl (by simp) (fun _ => h) (by simp)
  | _ => exact hinv.worker rfl rfl rfl (by simp) (by simp) (by simp)

theorem queue_of_reachable (h : (threadPool P τ n).Reachable s) : s.QueueInv :=
  h.invariant (by
    rintro _ rfl
    exact ⟨by simp [PoolState.initPool], by simp [PoolState.initPool],
      by simp [PoolState.initPool]⟩)
    fun _ _ _ hreach hinv _ hstep =>
      hinv.move (owner_of_reachable hreach) (PoolState.move_of_step hstep)

/-- **No worker calls `front` on an empty queue.** -/
theorem not_crashed_of_reachable (h : (threadPool P τ n).Reachable s) (w : Fin n) :
    s.worker w ≠ .crashed :=
  (queue_of_reachable h).notCrashed w

/-! ### The holder -/

/-- **Where the holder of the mutex is**: in one of the places between a lock and an
unlock. -/
def PoolState.HolderInv (s : PoolState P τ n) : Prop := ∀ o, s.mutex = some o → s.Owns o

theorem PoolState.HolderInv.producer (hinv : s.HolderInv) {p : P} {l : ProducerLoc τ}
    (hs' : s'.producer = (s.setProducer p l).producer) (hw : s'.worker = s.worker)
    (h : (s'.mutex = s.mutex ∧ (s.producer p).holdsMutex = false) ∨
      (s'.mutex = some (.inl p) ∧ l.holdsMutex = true) ∨ s'.mutex = none) : s'.HolderInv := by
  intro o ho
  rw [owns_iff_of_producer hs' hw]
  rcases h with ⟨hmutex, hp⟩ | ⟨hmutex, hl⟩ | hmutex
  · have hold := hinv o (hmutex ▸ ho)
    refine Or.inr ⟨?_, hold⟩
    rintro rfl
    exact absurd hold (by simp [Owns, hp])
  · exact Or.inl ⟨Option.some.inj (ho.symm.trans hmutex), hl⟩
  · rw [hmutex] at ho
    cases ho

omit [DecidableEq P] in
theorem PoolState.HolderInv.worker (hinv : s.HolderInv) {w : Fin n} {l : WorkerLoc τ}
    (hs' : s'.worker = (s.setWorker w l).worker) (hp : s'.producer = s.producer)
    (h : (s'.mutex = s.mutex ∧ ((s.worker w).holdsMutex = true → l.holdsMutex = true)) ∨
      (s'.mutex = some (.inr w) ∧ l.holdsMutex = true) ∨ s'.mutex = none) : s'.HolderInv := by
  intro o ho
  rw [owns_iff_of_worker hs' hp]
  rcases h with ⟨hmutex, hl⟩ | ⟨hmutex, hl⟩ | hmutex
  · have hold := hinv o (hmutex ▸ ho)
    by_cases how : o = .inr w
    · subst how
      exact Or.inl ⟨rfl, hl hold⟩
    · exact Or.inr ⟨how, hold⟩
  · exact Or.inl ⟨Option.some.inj (ho.symm.trans hmutex), hl⟩
  · rw [hmutex] at ho
    cases ho

theorem PoolState.HolderInv.move (hinv : s.HolderInv) (hqueue : s.QueueInv) (h : PoolMove s s') :
    s'.HolderInv := by
  cases h with
  | call hp | signalNone hp hw =>
    exact hinv.producer rfl rfl (Or.inl ⟨rfl, by rw [hp]; rfl⟩)
  | lockAdd hp hm => exact hinv.producer rfl rfl (Or.inr (Or.inl ⟨rfl, rfl⟩))
  | push hp => exact hinv.producer rfl rfl (Or.inr (Or.inr rfl))
  | @signal p w hp hw =>
    have hmid : (s.setProducer p .idle).HolderInv :=
      hinv.producer rfl rfl (Or.inl ⟨rfl, by rw [hp]; rfl⟩)
    refine hmid.worker rfl rfl (Or.inl ⟨rfl, fun hholds => ?_⟩)
    change (s.worker w).holdsMutex = true at hholds
    rw [hw] at hholds
    cases hholds
  | lock hw hm | relock hw hm => exact hinv.worker rfl rfl (Or.inr (Or.inl ⟨rfl, rfl⟩))
  | wait hw | leaveNull hw hs | leaveTask hw hs hq =>
    exact hinv.worker rfl rfl (Or.inr (Or.inr rfl))
  | testWait hw hq hs | testLeave hw h => exact hinv.worker rfl rfl (Or.inl ⟨rfl, fun _ => rfl⟩)
  | leaveEmpty hw hs hq =>
    rcases hqueue.nonempty _ hw with h | h
    · exact absurd hq h
    · rw [hs] at h
      cases h
  | enter hw | spurious hw | checkNull hw | checkDrop hw hs | checkRun hw hs | discard hw hs
  | discardNot hw hs | run hw | free hw =>
    refine hinv.worker rfl rfl (Or.inl ⟨rfl, fun hholds => ?_⟩)
    rw [hw] at hholds
    cases hholds
  | destroy hd hs | destroyer d => exact hinv
  | broadcast hd =>
    rintro (p | w) ho
    · exact hinv (.inl p) ho
    · have hold : (s.worker w).holdsMutex = true := hinv (.inr w) ho
      simp only [Owns]
      split
      · next hwaiting =>
        rw [WorkerLoc.isWaiting_eq_true_iff.mp hwaiting] at hold
        cases hold
      · exact hold

theorem holder_of_reachable (h : (threadPool P τ n).Reachable s) : s.HolderInv :=
  h.invariant (by rintro _ rfl o ho; cases ho)
    fun _ _ _ hreach hinv _ hstep =>
      hinv.move (queue_of_reachable hreach) (PoolState.move_of_step hstep)

end Mutex

end NpuOj
