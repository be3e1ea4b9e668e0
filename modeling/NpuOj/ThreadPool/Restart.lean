import Mathlib.Order.Interval.Finset.Nat
import NpuOj.Lib.EventLoop
import NpuOj.ThreadPool

/-!
# Starting and stopping the pool

`init_workthreads` pushes new threads onto `m_vec_workthreads` until it is as long as asked,
and `pool_destroy` joins the thread of each entry and sets the entry to `NULL`, but leaves the
vector as long as it is. A second start counts the `NULL` entries as threads, and a second stop
dereferences them.

Between two calls the vector is some `NULL` entries, for the threads that were joined, followed
by the threads that run (`NpuOj.ThreadPoolManager.ofCounts`), so that a call is a step on two
numbers and a flag. `NpuOj.keepsThreads_iff` says for which sequences of calls every start has
the threads it is asked for and no stop goes wrong: for those without a restart.
-/

namespace NpuOj

/-! ### The calls -/

/-- What goes wrong in `pool_destroy`. -/
inductive PoolFault
  /-- An entry that is `NULL` is dereferenced. -/
  | nullDeref
  /-- A thread that has been joined is joined again. -/
  | joinedTwice (thread : ℕ)
  deriving DecidableEq

/-- `ThreadPoolManager` between two calls. A thread is known by its place in the order in which
the threads were started. -/
structure ThreadPoolManager where
  mShutdown : Bool := true
  mVecWorkthreads : List (Option ℕ) := []
  /-- The number of threads that were started. -/
  started : ℕ := 0
  /-- The threads that were joined. -/
  joined : List ℕ := []
  deriving DecidableEq

namespace ThreadPoolManager

/-- A round of the loop of `init_workthreads`, in which `WorkThread::start` succeeds. -/
def startThread (p : ThreadPoolManager) : ThreadPoolManager :=
  { p with
    mVecWorkthreads := p.mVecWorkthreads ++ [some p.started]
    started := p.started + 1 }

/-- The loop of `init_workthreads`. -/
def startThreads (numThreads : ℕ) (p : ThreadPoolManager) : ThreadPoolManager :=
  if p.mVecWorkthreads.length < numThreads then startThreads numThreads p.startThread else p
termination_by numThreads - p.mVecWorkthreads.length
decreasing_by
  simp only [startThread, List.length_append, List.length_singleton]
  omega

/-- `init_workthreads` -/
def initWorkthreads (p : ThreadPoolManager) (numThreads : ℕ) : ThreadPoolManager :=
  startThreads numThreads { p with mShutdown := false }

/-- The loop of `pool_destroy`, from an entry of the vector on. -/
def joinThreads (joined : List ℕ) : List (Option ℕ) → Outcome PoolFault (List ℕ)
  | [] => .ret joined
  | none :: _ => .fault .nullDeref
  | some thread :: threads =>
    if thread ∈ joined then .fault (.joinedTwice thread)
    else joinThreads (joined ++ [thread]) threads

/-- `pool_destroy` -/
def poolDestroy (p : ThreadPoolManager) : Outcome PoolFault ThreadPoolManager :=
  if p.mShutdown then .ret p
  else do
    let joined ← joinThreads p.joined p.mVecWorkthreads
    .ret { p with
      mShutdown := true
      mVecWorkthreads := p.mVecWorkthreads.map fun _ => none
      joined := joined }

end ThreadPoolManager

/-- A call of one of the two operations. -/
inductive PoolCall
  | initWorkthreads (numThreads : ℕ)
  | poolDestroy
  deriving DecidableEq

/-- One call. -/
def ThreadPoolManager.call (p : ThreadPoolManager) : PoolCall → Outcome PoolFault ThreadPoolManager
  | .initWorkthreads numThreads => .ret (p.initWorkthreads numThreads)
  | .poolDestroy => p.poolDestroy

/-! ### What is asked of the calls -/

/-- The threads of the vector that were started and not joined. -/
def ThreadPoolManager.alive (p : ThreadPoolManager) : Finset ℕ :=
  (Finset.range p.started).filter fun thread =>
    some thread ∈ p.mVecWorkthreads ∧ thread ∉ p.joined

/-- The pool is not shut down and has that many threads. -/
def ThreadPoolManager.Runs (p : ThreadPoolManager) (numThreads : ℕ) : Prop :=
  p.mShutdown = false ∧ numThreads ≤ p.alive.card

/-- **Every start leads to a pool that runs with the threads it is asked for**, and no stop goes
wrong. -/
def KeepsThreads (p : ThreadPoolManager) : List PoolCall → Prop
  | [] => True
  | c :: cs => ∃ p', p.call c = .ret p' ∧
      (∀ numThreads, c = .initWorkthreads numThreads → p'.Runs numThreads) ∧ KeepsThreads p' cs

/-- **The pool is not started again**: a start with a thread and a stop are followed neither by
a start with a thread nor by a start and a stop. -/
def NoRestart (cs : List PoolCall) : Prop :=
  ∀ n m, ¬[.initWorkthreads (n + 1), .poolDestroy, .initWorkthreads (m + 1)].Sublist cs ∧
    ¬[.initWorkthreads (n + 1), .poolDestroy, .initWorkthreads m, .poolDestroy].Sublist cs

/-! ### The numbers of a pool -/

namespace ThreadPoolManager

/-- The pool with `dead` entries that are `NULL`, and `live` threads after them. -/
def ofCounts (shutdown : Bool) (dead live : ℕ) : ThreadPoolManager where
  mShutdown := shutdown
  mVecWorkthreads := List.replicate dead none ++ (List.range' dead live).map some
  started := dead + live
  joined := List.range dead

theorem length_ofCounts (shutdown : Bool) (dead live : ℕ) :
    (ofCounts shutdown dead live).mVecWorkthreads.length = dead + live := by
  simp [ofCounts]

theorem startThread_ofCounts (shutdown : Bool) (dead live : ℕ) :
    (ofCounts shutdown dead live).startThread = ofCounts shutdown dead (live + 1) := by
  simp [ofCounts, startThread, List.range'_1_concat, Nat.add_assoc]

/-- The loop pushes the threads that are missing, where the `NULL` entries count. -/
theorem startThreads_ofCounts (numThreads : ℕ) (shutdown : Bool) (dead live : ℕ) :
    startThreads numThreads (ofCounts shutdown dead live) =
      ofCounts shutdown dead (max live (numThreads - dead)) := by
  induction hmissing : numThreads - (dead + live) generalizing live with
  | zero =>
    have hlen := length_ofCounts shutdown dead live
    rw [startThreads, if_neg (by omega), max_eq_left (by omega)]
  | succ missing ih =>
    have hlen := length_ofCounts shutdown dead live
    rw [startThreads, if_pos (by omega), startThread_ofCounts, ih (live + 1) (by omega),
      max_eq_right (by omega), max_eq_right (by omega)]

/-- **What a start does.** -/
theorem initWorkthreads_ofCounts (shutdown : Bool) (dead live numThreads : ℕ) :
    (ofCounts shutdown dead live).initWorkthreads numThreads =
      ofCounts false dead (max live (numThreads - dead)) :=
  startThreads_ofCounts numThreads false dead live

/-- The first start. -/
theorem initWorkthreads_empty (numThreads : ℕ) :
    ({} : ThreadPoolManager).initWorkthreads numThreads = ofCounts false 0 numThreads := by
  have h := initWorkthreads_ofCounts true 0 0 numThreads
  rwa [Nat.sub_zero, max_eq_right (Nat.zero_le _)] at h

/-- Threads that are new to the list of joined ones are all joined. -/
theorem joinThreads_range' (dead live : ℕ) :
    joinThreads (List.range dead) ((List.range' dead live).map some) =
      .ret (List.range (dead + live)) := by
  induction live generalizing dead with
  | zero => rfl
  | succ live ih =>
    rw [List.range'_succ, List.map_cons, joinThreads, if_neg (by simp), ← List.range_succ,
      ih (dead + 1), Nat.add_right_comm, Nat.add_assoc]

/-- **What a stop does** to a pool that has not been stopped before: it joins each thread. -/
theorem poolDestroy_ofCounts (live : ℕ) :
    (ofCounts false 0 live).poolDestroy = .ret (ofCounts true live 0) := by
  have hjoin := joinThreads_range' 0 live
  rw [Nat.zero_add] at hjoin
  simp only [ofCounts, poolDestroy, List.replicate_zero, List.nil_append, Bool.false_eq_true,
    if_false, List.range_zero] at hjoin ⊢
  rw [Outcome.bind_def, hjoin, Outcome.ret_bind]
  simp [List.map_const', Function.comp_def]

/-- **A second stop** finds a `NULL` entry first. -/
theorem poolDestroy_restarted (dead live : ℕ) :
    (ofCounts false (dead + 1) live).poolDestroy = .fault .nullDeref := rfl

/-- A stop of a pool that is shut down does nothing. -/
theorem poolDestroy_shutdown (dead live : ℕ) :
    (ofCounts true dead live).poolDestroy = .ret (ofCounts true dead live) := rfl

theorem alive_ofCounts (shutdown : Bool) (dead live : ℕ) :
    (ofCounts shutdown dead live).alive = Finset.Ico dead (dead + live) := by
  ext thread
  rw [alive, Finset.mem_filter, Finset.mem_range, Finset.mem_Ico]
  constructor
  · rintro ⟨hstarted, -, hnot⟩
    exact ⟨Nat.le_of_not_lt fun hdead => hnot (List.mem_range.mpr hdead), hstarted⟩
  · rintro ⟨hdead, hstarted⟩
    refine ⟨hstarted, List.mem_append_right _ (List.mem_map_of_mem ?_), fun hjoined => ?_⟩
    · exact List.mem_range'_1.mpr ⟨hdead, hstarted⟩
    · exact absurd (List.mem_range.mp hjoined) (Nat.not_lt.mpr hdead)

theorem runs_ofCounts (shutdown : Bool) (dead live numThreads : ℕ) :
    (ofCounts shutdown dead live).Runs numThreads ↔ shutdown = false ∧ numThreads ≤ live := by
  rw [Runs, alive_ofCounts, Nat.card_Ico, Nat.add_sub_cancel_left]
  rfl

end ThreadPoolManager

/-! ### Runs of calls -/

section Phases

open ThreadPoolManager

variable {shutdown : Bool} {dead live n : ℕ} {cs : List PoolCall}

theorem keepsThreads_initWorkthreads :
    KeepsThreads (ofCounts shutdown dead live) (.initWorkthreads n :: cs) ↔
      n ≤ max live (n - dead) ∧
        KeepsThreads (ofCounts false dead (max live (n - dead))) cs := by
  rw [KeepsThreads, call, initWorkthreads_ofCounts]
  constructor
  · rintro ⟨p, hp, hruns, hrest⟩
    obtain rfl := Outcome.ret.inj hp
    exact ⟨((runs_ofCounts ..).mp (hruns n rfl)).2, hrest⟩
  · rintro ⟨hle, hrest⟩
    refine ⟨_, rfl, ?_, hrest⟩
    intro m hm
    obtain rfl := PoolCall.initWorkthreads.inj hm
    exact (runs_ofCounts ..).mpr ⟨rfl, hle⟩

theorem keepsThreads_poolDestroy {p p' : ThreadPoolManager} (h : p.poolDestroy = .ret p') :
    KeepsThreads p (.poolDestroy :: cs) ↔ KeepsThreads p' cs := by
  rw [KeepsThreads, call, h]
  constructor
  · rintro ⟨q, hq, -, hrest⟩
    rwa [Outcome.ret.inj hq]
  · intro hrest
    exact ⟨p', rfl, nofun, hrest⟩

theorem not_keepsThreads_poolDestroy (cs : List PoolCall) {p : ThreadPoolManager} {e : PoolFault}
    (h : p.poolDestroy = .fault e) : ¬KeepsThreads p (.poolDestroy :: cs) := by
  rintro ⟨q, hq, -⟩
  rw [call, h] at hq
  cases hq

/-- **A pool started again without a thread**: neither a stop nor a start with a thread is
right. -/
theorem keepsThreads_restarted :
    KeepsThreads (ofCounts false (dead + 1) 0) cs ↔
      ¬[.poolDestroy].Sublist cs ∧ ∀ m, ¬[.initWorkthreads (m + 1)].Sublist cs := by
  induction cs with
  | nil => simp [KeepsThreads]
  | cons c cs ih =>
    cases c with
    | poolDestroy =>
      have hfault := not_keepsThreads_poolDestroy cs (poolDestroy_restarted dead 0)
      simp [hfault]
    | initWorkthreads n =>
      rw [keepsThreads_initWorkthreads]
      cases n with
      | zero =>
        have hmax : max 0 (0 - (dead + 1)) = 0 := by omega
        rw [hmax, ih]
        simp
      | succ n =>
        have hfew : ¬n + 1 ≤ max 0 (n + 1 - (dead + 1)) := by omega
        refine iff_of_false (fun h => hfew h.1) fun h => h.2 n ?_
        exact (List.nil_sublist cs).cons_cons _

/-- **A pool that was stopped.** -/
theorem keepsThreads_stopped :
    KeepsThreads (ofCounts true (dead + 1) 0) cs ↔
      ∀ m, ¬[.initWorkthreads (m + 1)].Sublist cs ∧
        ¬[.initWorkthreads m, .poolDestroy].Sublist cs := by
  induction cs with
  | nil => simp [KeepsThreads]
  | cons c cs ih =>
    cases c with
    | poolDestroy =>
      rw [keepsThreads_poolDestroy (poolDestroy_shutdown (dead + 1) 0), ih]
      simp [List.cons_sublist_cons']
    | initWorkthreads n =>
      rw [keepsThreads_initWorkthreads]
      cases n with
      | zero =>
        have hmax : max 0 (0 - (dead + 1)) = 0 := by omega
        rw [hmax, keepsThreads_restarted]
        constructor
        · rintro ⟨-, hstop, hstart⟩ m
          refine ⟨by simpa using hstart m, fun hsub => hstop ?_⟩
          rcases List.cons_sublist_cons'.mp hsub with hsub | ⟨-, hsub⟩
          · exact List.sublist_of_cons_sublist hsub
          · exact hsub
        · intro h
          refine ⟨le_rfl, fun hstop => (h 0).2 (hstop.cons_cons _), fun m hstart => ?_⟩
          exact (h m).1 (hstart.cons _)
      | succ n =>
        have hfew : ¬n + 1 ≤ max 0 (n + 1 - (dead + 1)) := by omega
        refine iff_of_false (fun h => hfew h.1) fun h => (h n).1 ?_
        exact (List.nil_sublist cs).cons_cons _

/-- **A pool that runs.** -/
theorem keepsThreads_running (hlive : 0 < live) :
    KeepsThreads (ofCounts false 0 live) cs ↔
      ∀ m, ¬[.poolDestroy, .initWorkthreads (m + 1)].Sublist cs ∧
        ¬[.poolDestroy, .initWorkthreads m, .poolDestroy].Sublist cs := by
  induction cs generalizing live with
  | nil => simp [KeepsThreads]
  | cons c cs ih =>
    cases c with
    | poolDestroy =>
      obtain ⟨dead, rfl⟩ := Nat.exists_eq_add_of_lt hlive
      rw [Nat.zero_add, keepsThreads_poolDestroy (poolDestroy_ofCounts _), keepsThreads_stopped]
      simp only [List.cons_sublist_cons]
    | initWorkthreads n =>
      rw [keepsThreads_initWorkthreads, ih (lt_max_of_lt_left hlive)]
      simp [List.cons_sublist_cons']

/-- **A pool without threads.** -/
theorem keepsThreads_empty (shutdown : Bool) :
    KeepsThreads (ofCounts shutdown 0 0) cs ↔ NoRestart cs := by
  induction cs generalizing shutdown with
  | nil => simp [KeepsThreads, NoRestart]
  | cons c cs ih =>
    cases c with
    | poolDestroy =>
      have hstop : (ofCounts shutdown 0 0).poolDestroy = .ret (ofCounts true 0 0) := by
        cases shutdown <;> rfl
      rw [keepsThreads_poolDestroy hstop, ih]
      simp [NoRestart, List.cons_sublist_cons']
    | initWorkthreads n =>
      rw [keepsThreads_initWorkthreads]
      cases n with
      | zero =>
        rw [Nat.zero_sub, max_self, ih]
        simp [NoRestart, List.cons_sublist_cons']
      | succ n =>
        rw [Nat.sub_zero, max_eq_right (Nat.zero_le _), keepsThreads_running (Nat.succ_pos n)]
        constructor
        · rintro ⟨-, h⟩ k m
          refine ⟨fun hsub => (h m).1 ?_, fun hsub => (h m).2 ?_⟩
          all_goals
            rcases List.cons_sublist_cons'.mp hsub with hsub | ⟨-, hsub⟩
            · exact List.sublist_of_cons_sublist hsub
            · exact hsub
        · intro h
          exact ⟨le_rfl, fun m => ⟨fun hsub => (h n m).1 (hsub.cons_cons _),
            fun hsub => (h n m).2 (hsub.cons_cons _)⟩⟩

end Phases

/-- **Which sequences of calls keep the threads**: from the pool as it is constructed, exactly
those that do not start it again. -/
theorem keepsThreads_iff (cs : List PoolCall) : KeepsThreads {} cs ↔ NoRestart cs :=
  keepsThreads_empty true

/-- The judges are started again with as many threads as before. -/
theorem not_keepsThreads_restart : ¬KeepsThreads {}
    [.initWorkthreads 4, .poolDestroy, .initWorkthreads 4] := by
  intro h
  have hno : NoRestart [.initWorkthreads 4, .poolDestroy, .initWorkthreads 4] :=
    (keepsThreads_empty true).mp h
  exact (hno 3 3).1 (List.Sublist.refl _)

/-! ### Starts and stops of the daemon -/

section Daemon

open ThreadPoolManager

/-- **Started once** and stopped any number of times, as the daemon does it, the pool keeps its
threads. -/
theorem keepsThreads_daemon (n k : ℕ) :
    KeepsThreads {} (.initWorkthreads n :: List.replicate k .poolDestroy) := by
  have hstops : ∀ m (cs : List PoolCall),
      ¬(PoolCall.poolDestroy :: .initWorkthreads m :: cs).Sublist
        (List.replicate k .poolDestroy) := by
    intro m cs hsub
    have hmem : PoolCall.initWorkthreads m ∈ List.replicate k PoolCall.poolDestroy :=
      hsub.subset (List.mem_cons_of_mem _ List.mem_cons_self)
    cases List.eq_of_mem_replicate hmem
  refine (keepsThreads_empty true).mpr fun l m => ⟨fun hsub => ?_, fun hsub => ?_⟩
  · exact hstops (m + 1) _ hsub.of_cons_cons
  · exact hstops m _ hsub.of_cons_cons

/-- **A restart** brings up only the threads that are asked for beyond the first number. -/
theorem alive_of_restart (n m : ℕ) : ∃ p,
    (({} : ThreadPoolManager).initWorkthreads n).poolDestroy = .ret p ∧
      (p.initWorkthreads m).alive.card = m - n := by
  refine ⟨_, (congrArg poolDestroy (initWorkthreads_empty n)).trans (poolDestroy_ofCounts n), ?_⟩
  rw [initWorkthreads_ofCounts, alive_ofCounts, Nat.card_Ico, Nat.add_sub_cancel_left,
    max_eq_right (Nat.zero_le _)]

/-- **The first start** builds the pool whose steps `NpuOj.threadPool` describes: it is not shut
down, and has one thread for each worker. -/
theorem initPool_of_initWorkthreads (P τ : Type) (n : ℕ) :
    (({} : ThreadPoolManager).initWorkthreads n).mShutdown =
      (PoolState.initPool P τ n).mShutdown ∧
    (({} : ThreadPoolManager).initWorkthreads n).alive =
      (Finset.univ : Finset (Fin n)).map Fin.valEmbedding := by
  rw [initWorkthreads_empty, alive_ofCounts]
  refine ⟨rfl, ?_⟩
  ext thread
  rw [Finset.mem_Ico, Finset.mem_map, Nat.zero_add]
  constructor
  · rintro ⟨-, hlt⟩
    exact ⟨⟨thread, hlt⟩, Finset.mem_univ _, rfl⟩
  · rintro ⟨i, -, rfl⟩
    exact ⟨Nat.zero_le _, i.isLt⟩

end Daemon

end NpuOj
