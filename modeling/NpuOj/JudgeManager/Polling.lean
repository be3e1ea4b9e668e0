import Mathlib.Data.Fintype.Option
import NpuOj.DBConnMgr.Safety

/-!
# A connection kept while polling

`fetch_submission_from_db` takes a connection and asks for a submission every 300 ms until
one is there; the connection is kept meanwhile. `get_problem` takes a connection as well,
where a problem has to be loaded, and keeps `jm_lock_judge` meanwhile. Nothing else uses the
pool, and only one worker at a time is in `get_problem`.

So two connections are enough: the main loop has one, and the worker with the lock finds
the other. With one connection the worker waits for the main loop, which waits for a
submission, and every `get_judge` and `release_judge` waits for the worker's lock. That the
number of connections decides is `NpuOj.polling_stall_iff`.

The connections are those of `NpuOj.dbConns`, with the main loop as one more thread. A
query that fails in the main loop ends the daemon and is left out.
-/

namespace NpuOj

/-! ### The places -/

/-- Where the main loop is. -/
inductive FetchLoc
  /-- Outside `fetch_submission_from_db`. -/
  | outside
  /-- In it, before a submission is found. -/
  | fetching
  /-- With a submission, before the trylock of `get_src_dir`. -/
  | found
  /-- In `get_src_dir`, with the lock or without. -/
  | srcDir (owns : Bool)
  /-- Before or in `release_connection`. -/
  | releasing
  deriving DecidableEq, Repr

/-- The functions that a worker takes `jm_lock_judge` in. -/
inductive LockedCall
  | getJudge
  | getProblem
  | releaseJudge
  deriving DecidableEq, Repr

/-- Where a worker is. -/
inductive CallLoc
  | outside
  /-- Before the lock. -/
  | locking (call : LockedCall)
  /-- With the lock. -/
  | locked (call : LockedCall)
  /-- With the lock, in `fetch_problem_from_db`. -/
  | loading
  /-- With the lock, past it. -/
  | stored
  deriving DecidableEq, Repr

/-- The worker has `jm_lock_judge`. -/
def CallLoc.owns : CallLoc → Bool
  | .locked _ | .loading | .stored => true
  | _ => false

/-- A step of the main loop, of a worker, or of one of them in the pool. -/
inductive PollStep (ι : Type*)
  /-- `fetch_submission_from_db` is called. -/
  | fetch
  /-- `fetch_submission()` is called, with a submission or an empty result. -/
  | poll (found : Bool)
  | trySrcDir
  | leaveSrcDir
  /-- `fetch_submission_from_db` returns. -/
  | fetched
  | call (i : ι) (c : LockedCall)
  | lock (i : ι)
  /-- The problem is not in the map. -/
  | miss (i : ι)
  /-- `fetch_problem_from_db` returns. -/
  | loaded (i : ι)
  | unlock (i : ι)
  /-- A step in the pool of connections; the main loop is the thread `none`. -/
  | conn (t : Option ι) (a : ConnStep)
  deriving DecidableEq

/-- The pool, the lock, the main loop and the workers. -/
structure PollState (ι : Type*) where
  conns : ConnState (Option ι)
  /-- The thread that has `jm_lock_judge`. -/
  jmLockJudge : Option (Option ι)
  main : FetchLoc
  worker : ι → CallLoc

section Polling

variable {ι : Type*} [Fintype ι] [DecidableEq ι] {n : ℕ}

namespace PollState

/-- The daemon after its start. -/
def initPolling (n : ℕ) (ι : Type*) : PollState ι where
  conns := .initConns n (Option ι)
  jmLockJudge := none
  main := .outside
  worker _ := .outside

omit [Fintype ι] in
/-- The state after one worker has moved. -/
def setWorker (s : PollState ι) (i : ι) (l : CallLoc) : PollState ι :=
  { s with worker := Function.update s.worker i l }

/-- The state after a step in the pool. -/
def inPool (n : ℕ) (s : PollState ι) (t : Option ι) (a : ConnStep) : Option (PollState ι) :=
  (s.conns.step n (t, a)).map fun conns => { s with conns := conns }

/-- The thread is where it may take the step in the pool. -/
def MayMove (s : PollState ι) : Option ι → ConnStep → Prop
  | none, .semWait => s.main = .fetching
  | none, .take _ => s.main = .fetching
  | none, .release => s.main = .releasing
  | none, .post => s.main = .releasing
  | some i, .semWait => s.worker i = .loading
  | some i, .take _ => s.worker i = .loading
  | some i, .release => s.worker i = .loading
  | some i, .post => s.worker i = .loading
  | _, .request => False

instance (s : PollState ι) (t : Option ι) (a : ConnStep) : Decidable (s.MayMove t a) := by
  rcases t with _ | i <;> cases a <;> simp only [MayMove] <;> infer_instance

/-- One step. -/
def step (n : ℕ) (s : PollState ι) : PollStep ι → Option (PollState ι)
  | .fetch =>
    if s.main = .outside then { s with main := .fetching }.inPool n none .request else none
  | .poll found => match s.main, s.conns.loc none with
    | .fetching, .holding _ => some (if found then { s with main := .found } else s)
    | _, _ => none
  -- a trylock fails where somebody has the lock, and `get_src_dir` goes on without
  | .trySrcDir => match s.main, s.jmLockJudge with
    | .found, none => some { s with main := .srcDir true, jmLockJudge := some none }
    | .found, some _ => some { s with main := .srcDir false }
    | _, _ => none
  | .leaveSrcDir => match s.main with
    | .srcDir true => some { s with main := .releasing, jmLockJudge := none }
    | .srcDir false => some { s with main := .releasing }
    | _ => none
  | .fetched => match s.main, s.conns.loc none with
    | .releasing, .idle => some { s with main := .outside }
    | _, _ => none
  | .call i c => match s.worker i with
    | .outside => some (s.setWorker i (.locking c))
    | _ => none
  | .lock i => match s.worker i, s.jmLockJudge with
    | .locking c, none => some { s.setWorker i (.locked c) with jmLockJudge := some (some i) }
    | _, _ => none
  | .miss i => match s.worker i with
    | .locked .getProblem => (s.setWorker i .loading).inPool n (some i) .request
    | _ => none
  | .loaded i => match s.worker i, s.conns.loc (some i) with
    | .loading, .idle => some (s.setWorker i .stored)
    | _, _ => none
  | .unlock i => match s.worker i with
    | .locked _ | .stored => some { s.setWorker i .outside with jmLockJudge := none }
    | _ => none
  | .conn t a => if s.MayMove t a then s.inPool n t a else none

end PollState

/-- **The daemon with its connections**, `n` of which are available. -/
def polling (n : ℕ) (ι : Type*) [Fintype ι] [DecidableEq ι] :
    TransSystem (PollState ι) (PollStep ι) where
  Init s := s = PollState.initPolling n ι
  step := PollState.step n

/-- **The stall**: the main loop polls with a connection, and a worker has the lock and
waits for one, of which there is none. -/
def PollState.Stalled (s : PollState ι) : Prop :=
  s.main = .fetching ∧ (∃ con, s.conns.loc none = .holding con) ∧
    ∃ i, s.worker i = .loading ∧ s.jmLockJudge = some (some i) ∧
      s.conns.loc (some i) = .requesting ∧ s.conns.mSem = 0

/-! ### What a step can do -/

/-- The steps of the daemon, one constructor for each branch of the code. -/
inductive PollMove (n : ℕ) (s : PollState ι) : PollStep ι → PollState ι → Prop
  | fetch {conns : ConnState (Option ι)} (hmain : s.main = .outside)
      (hconns : s.conns.step n (none, .request) = some conns) :
      PollMove n s .fetch { s with main := .fetching, conns := conns }
  | pollEmpty : PollMove n s (.poll false) s
  | pollFound (hmain : s.main = .fetching) : PollMove n s (.poll true) { s with main := .found }
  | trySrcDir (hmain : s.main = .found) (hfree : s.jmLockJudge = none) :
      PollMove n s .trySrcDir { s with main := .srcDir true, jmLockJudge := some none }
  | trySrcDirBusy (hmain : s.main = .found) :
      PollMove n s .trySrcDir { s with main := .srcDir false }
  | leaveSrcDir (hmain : s.main = .srcDir true) :
      PollMove n s .leaveSrcDir { s with main := .releasing, jmLockJudge := none }
  | leaveSrcDirBusy (hmain : s.main = .srcDir false) :
      PollMove n s .leaveSrcDir { s with main := .releasing }
  | fetched (hmain : s.main = .releasing) : PollMove n s .fetched { s with main := .outside }
  | call {i : ι} {c : LockedCall} (hi : s.worker i = .outside) :
      PollMove n s (.call i c) (s.setWorker i (.locking c))
  | lock {i : ι} {c : LockedCall} (hi : s.worker i = .locking c) (hfree : s.jmLockJudge = none) :
      PollMove n s (.lock i) { s.setWorker i (.locked c) with jmLockJudge := some (some i) }
  | miss {i : ι} {conns : ConnState (Option ι)} (hi : s.worker i = .locked .getProblem)
      (hconns : s.conns.step n (some i, .request) = some conns) :
      PollMove n s (.miss i) { s.setWorker i .loading with conns := conns }
  | loaded {i : ι} (hi : s.worker i = .loading) (hidle : s.conns.loc (some i) = .idle) :
      PollMove n s (.loaded i) (s.setWorker i .stored)
  | unlock {i : ι} (howns : (s.worker i).owns = true) (hi : s.worker i ≠ .loading) :
      PollMove n s (.unlock i) { s.setWorker i .outside with jmLockJudge := none }
  | conn {t : Option ι} {a : ConnStep} {conns : ConnState (Option ι)} (hmay : s.MayMove t a)
      (hconns : s.conns.step n (t, a) = some conns) :
      PollMove n s (.conn t a) { s with conns := conns }

variable {s s' : PollState ι} {a : PollStep ι} {i : ι}

/-- **Inversion of a step.** -/
theorem PollState.move_of_step (h : s.step n a = some s') : PollMove n s a s' := by
  cases a with
  | fetch =>
    simp only [step] at h
    split at h
    · next hmain =>
      obtain ⟨conns, hconns, rfl⟩ := Option.map_eq_some_iff.mp h
      exact .fetch hmain hconns
    · cases h
  | poll found =>
    simp only [step] at h
    split at h
    · next hmain _ =>
      obtain rfl := Option.some.inj h
      rcases found with _ | _
      · exact .pollEmpty
      · exact .pollFound hmain
    · cases h
  | trySrcDir =>
    simp only [step] at h
    split at h
    · next hmain hfree => exact Option.some.inj h ▸ .trySrcDir hmain hfree
    · next hmain _ => exact Option.some.inj h ▸ .trySrcDirBusy hmain
    · cases h
  | leaveSrcDir =>
    simp only [step] at h
    split at h
    · next hmain => exact Option.some.inj h ▸ .leaveSrcDir hmain
    · next hmain => exact Option.some.inj h ▸ .leaveSrcDirBusy hmain
    · cases h
  | fetched =>
    simp only [step] at h
    split at h
    · next hmain _ => exact Option.some.inj h ▸ .fetched hmain
    · cases h
  | call i c =>
    simp only [step] at h
    split at h
    · next hi => exact Option.some.inj h ▸ .call hi
    · cases h
  | lock i =>
    simp only [step] at h
    split at h
    · next hi hfree => exact Option.some.inj h ▸ .lock hi hfree
    · cases h
  | miss i =>
    simp only [step] at h
    split at h
    · next hi =>
      obtain ⟨conns, hconns, rfl⟩ := Option.map_eq_some_iff.mp h
      exact .miss hi hconns
    · cases h
  | loaded i =>
    simp only [step] at h
    split at h
    · next hi hidle => exact Option.some.inj h ▸ .loaded hi hidle
    · cases h
  | unlock i =>
    simp only [step] at h
    split at h
    · next hi => exact Option.some.inj h ▸ .unlock (by rw [hi]; rfl) (by simp [hi])
    · next hi => exact Option.some.inj h ▸ .unlock (by rw [hi]; rfl) (by simp [hi])
    · cases h
  | conn t a =>
    simp only [step] at h
    split at h
    · next hmay =>
      obtain ⟨conns, hconns, rfl⟩ := Option.map_eq_some_iff.mp h
      exact .conn hmay hconns
    · cases h

/-! ### Who uses the pool -/

/-- **The invariant**: a worker in the pool is loading a problem, and so it has the
lock. -/
structure PollInv (s : PollState ι) : Prop where
  users : ∀ i, s.conns.loc (some i) ≠ .idle → s.worker i = .loading
  owner : ∀ i, (s.worker i).owns = true → s.jmLockJudge = some (some i)
  mainOwner : s.main = .srcDir true → s.jmLockJudge = some none

omit [Fintype ι] [DecidableEq ι] in
theorem pollInv_init (n : ℕ) : PollInv (PollState.initPolling n ι) where
  users i h := absurd rfl h
  owner i h := by cases h
  mainOwner h := by cases h

omit [Fintype ι] in
/-- A worker moves, and may take the lock or give it back. -/
theorem PollInv.setWorker (hinv : PollInv s) {l : CallLoc} {lock : Option (Option ι)}
    (husers : s.conns.loc (some i) ≠ .idle → l = .loading)
    (howner : l.owns = true → lock = some (some i))
    (hlock : lock = s.jmLockJudge ∨ s.jmLockJudge = none ∨ s.jmLockJudge = some (some i)) :
    PollInv { s.setWorker i l with jmLockJudge := lock } := by
  refine ⟨fun k hk => ?_, fun k hk => ?_, fun hmain => ?_⟩
  · change Function.update s.worker i l k = .loading
    rcases eq_or_ne k i with rfl | hki
    · rw [Function.update_self]
      exact husers hk
    · rw [Function.update_of_ne hki]
      exact hinv.users k hk
  · change (Function.update s.worker i l k).owns = true at hk
    change lock = some (some k)
    rcases eq_or_ne k i with rfl | hki
    · rw [Function.update_self] at hk
      exact howner hk
    · rw [Function.update_of_ne hki] at hk
      have hold := hinv.owner k hk
      rcases hlock with hsame | hfree | hmine
      · rw [hsame, hold]
      · rw [hfree] at hold
        cases hold
      · rw [hmine] at hold
        exact absurd (Option.some.inj (Option.some.inj hold)).symm hki
  · change lock = some none
    have hold := hinv.mainOwner hmain
    rcases hlock with hsame | hfree | hmine
    · rw [hsame, hold]
    · rw [hfree] at hold
      cases hold
    · rw [hmine] at hold
      cases hold

/-- A thread takes a step in the pool; if it is a worker, it is loading a problem. -/
theorem PollInv.inPool (hinv : PollInv s) {t : Option ι} {a : ConnStep}
    {conns : ConnState (Option ι)} (ht : ∀ i, t = some i → s.worker i = .loading)
    (hconns : s.conns.step n (t, a) = some conns) : PollInv { s with conns := conns } := by
  refine ⟨fun k hk => ?_, hinv.owner, hinv.mainOwner⟩
  by_cases hkt : some k = t
  · exact ht k hkt.symm
  · have hsame : conns.loc (some k) = s.conns.loc (some k) := ConnState.loc_of_step hconns hkt
    exact hinv.users k fun hidle => hk (hsame.trans hidle)

omit [Fintype ι] [DecidableEq ι] in
theorem PollState.MayMove.loading {a : ConnStep} (h : s.MayMove (some i) a) :
    s.worker i = .loading := by
  rcases a with _ | _ | _ | _ | _ <;> first | exact h | exact h.elim

omit [Fintype ι] [DecidableEq ι] in
/-- The main loop moves, without the lock. -/
theorem PollInv.setMain (hinv : PollInv s) {l : FetchLoc} (hl : l ≠ .srcDir true) :
    PollInv { s with main := l } :=
  ⟨hinv.users, hinv.owner, fun h => absurd h hl⟩

/-- **Every step keeps the invariant.** -/
theorem PollInv.move (hinv : PollInv s) (h : PollMove n s a s') : PollInv s' := by
  have husers : ∀ {i : ι} {l l' : CallLoc}, s.worker i = l → l ≠ .loading →
      s.conns.loc (some i) ≠ .idle → l' = .loading :=
    fun hi hl hconn => absurd (hi.symm.trans (hinv.users _ hconn)) hl
  cases h with
  | fetch hmain hconns => exact (hinv.setMain (l := .fetching) (by simp)).inPool (by simp) hconns
  | pollEmpty => exact hinv
  | pollFound | trySrcDirBusy | leaveSrcDirBusy | fetched => exact hinv.setMain (by simp)
  | trySrcDir hmain hfree =>
    refine ⟨hinv.users, fun i hi => ?_, fun _ => rfl⟩
    cases hfree.symm.trans (hinv.owner i hi)
  | leaveSrcDir hmain =>
    refine ⟨hinv.users, fun i hi => ?_, fun hsrc => by cases hsrc⟩
    cases (hinv.mainOwner hmain).symm.trans (hinv.owner i hi)
  | call hi => exact hinv.setWorker (husers hi (by simp)) (by simp [CallLoc.owns]) (Or.inl rfl)
  | lock hi hfree =>
    exact hinv.setWorker (husers hi (by simp)) (fun _ => rfl) (Or.inr (Or.inl hfree))
  | @miss i conns hi hconns =>
    have howns := hinv.owner i (by rw [hi]; rfl)
    have hload : PollInv (s.setWorker i .loading) :=
      hinv.setWorker (fun _ => rfl) (fun _ => howns) (Or.inl rfl)
    refine hload.inPool (fun k hk => ?_) hconns
    rw [← Option.some.inj hk]
    exact Function.update_self ..
  | loaded hi hidle =>
    have howns := hinv.owner _ (by rw [hi]; rfl)
    exact hinv.setWorker (fun hconn => absurd hidle hconn) (fun _ => howns) (Or.inl rfl)
  | unlock howns hi =>
    exact hinv.setWorker (husers rfl hi) (by simp [CallLoc.owns])
      (Or.inr (Or.inr (hinv.owner _ howns)))
  | conn hmay hconns =>
    refine hinv.inPool ?_ hconns
    rintro i rfl
    exact hmay.loading

theorem pollInv_of_reachable (h : (polling n ι).Reachable s) : PollInv s :=
  h.invariant (by rintro _ rfl; exact pollInv_init n) fun _ _ _ _ hinv _ hstep =>
    hinv.move (PollState.move_of_step hstep)

/-- What the daemon does to the pool is a run of the pool. -/
theorem conns_of_reachable (h : (polling n ι).Reachable s) :
    (dbConns n (Option ι)).Reachable s.conns := by
  refine h.map PollState.conns (by rintro _ rfl; rfl) fun s a s' hstep => ?_
  have hpool : ∀ {b : Option ι × ConnStep} {conns : ConnState (Option ι)},
      s.conns.step n b = some conns → ∃ b, (dbConns n (Option ι)).step s.conns b = some conns :=
    fun {b _} h => ⟨b, h⟩
  cases PollState.move_of_step hstep with
  | fetch _ hconns | miss _ hconns | conn _ hconns => exact Or.inr (hpool hconns)
  | _ => exact Or.inl rfl

/-! ### What ends a stall -/

/-- A stalled daemon stays so unless a submission arrives. -/
theorem PollState.Stalled.move (hstalled : s.Stalled) (hinv : PollInv s) (ha : a ≠ .poll true)
    (h : PollMove n s a s') : s'.Stalled := by
  have hkeep := hstalled
  obtain ⟨hmain, ⟨con, hcon⟩, i, hi, hlock, hreq, hsem⟩ := hstalled
  have honly : ∀ {k}, (s.worker k).owns = true → k = i := fun hk =>
    Option.some.inj (Option.some.inj ((hinv.owner _ hk).symm.trans hlock))
  cases h with
  | pollEmpty => exact hkeep
  | pollFound => exact absurd rfl ha
  | fetch hmain' | trySrcDir hmain' | trySrcDirBusy hmain' | leaveSrcDir hmain'
  | leaveSrcDirBusy hmain' | fetched hmain' => cases hmain'.symm.trans hmain
  | @call k c hk =>
    have hki : i ≠ k := by
      rintro rfl
      cases hk.symm.trans hi
    exact ⟨hmain, ⟨con, hcon⟩, i, (Function.update_of_ne hki ..).trans hi, hlock, hreq, hsem⟩
  | lock _ hfree => cases hfree.symm.trans hlock
  | miss hk =>
    obtain rfl := honly (by rw [hk]; rfl)
    cases hk.symm.trans hi
  | loaded hk hidle =>
    obtain rfl := honly (by rw [hk]; rfl)
    cases hidle.symm.trans hreq
  | unlock howns hk =>
    obtain rfl := honly howns
    exact absurd hi hk
  | @conn t c conns hmay hconns =>
    -- the main loop has its connection, the worker waits for the semaphore
    exfalso
    rcases t with _ | k
    · rcases c with _ | _ | _ | _ | _ <;> simp_all [PollState.MayMove, ConnState.step]
    · obtain rfl := honly (by rw [hmay.loading]; rfl)
      rcases c with _ | _ | _ | _ | _ <;> simp_all [PollState.MayMove, ConnState.step]

/-- **A stall lasts** as long as no submission arrives. -/
theorem stalled_of_run {as : List (PollStep ι)} (hs : (polling n ι).Reachable s)
    (hstalled : s.Stalled) (has : ∀ a ∈ as, a ≠ .poll true)
    (hrun : (polling n ι).run s as = some s') : s'.Stalled := by
  induction as generalizing s with
  | nil =>
    obtain rfl : s = s' := by simpa using hrun
    exact hstalled
  | cons a as ih =>
    obtain ⟨s₁, hstep, hrun⟩ := Option.bind_eq_some_iff.mp hrun
    exact ih (hs.step trivial hstep)
      (hstalled.move (pollInv_of_reachable hs) (has a List.mem_cons_self)
        (PollState.move_of_step hstep))
      (fun b hb => has b (List.mem_cons_of_mem a hb)) hrun

/-! ### When the daemon stalls -/

/-- With any other number of connections than one, the worker finds one. -/
theorem not_stalled (hn : n ≤ maxConnections) (hne : n ≠ 1) (h : (polling n ι).Reachable s) :
    ¬s.Stalled := by
  rintro ⟨-, ⟨con, hcon⟩, i, hi, hlock, hreq, hsem⟩
  have hinv := pollInv_of_reachable h
  have hpool := connInv_of_reachable hn (conns_of_reachable h)
  -- the other workers do not have the lock, and so they are not in the pool
  have hidle : ∀ k, k ≠ i → s.conns.loc (some k) = .idle := by
    intro k hk
    by_contra hconn
    have howner := hinv.owner k (by rw [hinv.users k hconn]; rfl)
    exact hk (Option.some.inj (Option.some.inj (howner.symm.trans hlock)))
  have hloc : ∀ t, t ≠ none → s.conns.loc t = .requesting ∨ s.conns.loc t = .idle := by
    rintro (_ | k) ht
    · exact absurd rfl ht
    · rcases eq_or_ne k i with rfl | hk
      · exact Or.inl hreq
      · exact Or.inr (hidle k hk)
  have hholders : s.conns.holders = 1 := by
    refine countIn_eq_one_iff.mpr ⟨none, ?_, fun t ht => ?_⟩
    · simp only [hcon, ConnLoc.isHolding]
    · by_contra hne
      rcases hloc t hne with hl | hl <;> simp only [hl, ConnLoc.isHolding] at ht <;> cases ht
  have hnobody : ∀ c : ConnLoc, c ≠ .requesting → c ≠ .idle → c ≠ .holding con →
      countAt c s.conns.loc = 0 := by
    refine fun c hc hc' hc'' => countAt_eq_zero_iff.mpr fun t ht => ?_
    by_cases hnone : t = none
    · rw [hnone, hcon] at ht
      exact hc'' ht.symm
    · rcases hloc t hnone with hl | hl <;> rw [hl] at ht
      · exact hc ht.symm
      · exact hc' ht.symm
  have hpermits := hpool.permits
  rw [hpool.holders, hholders, hsem, hnobody .passedSem (by simp) (by simp) (by simp),
    hnobody .freed (by simp) (by simp) (by simp)] at hpermits
  exact hne hpermits.symm

/-- **With one connection the daemon stalls**: the main loop polls with it, and the worker
that is given no problem by the map waits for it with the lock. -/
theorem exists_stalled (i : ι) : ∃ s, (polling 1 ι).Reachable s ∧ s.Stalled := by
  have hpolls := TransSystem.reachable_of_run rfl
    (show (polling 1 ι).run (PollState.initPolling 1 ι)
      [.fetch, .conn none .semWait, .conn none (.take true), .call i .getProblem] = some _ from rfl)
  have hlocks := hpolls.step (a := .lock i) trivial (by
    simp only [polling, PollState.step, PollState.setWorker, Function.update_self]
    rfl)
  have hmisses := hlocks.step (a := .miss i) trivial (by
    simp only [polling, PollState.step, PollState.setWorker, Function.update_self]
    rfl)
  refine ⟨_, hmisses, rfl, ⟨some 0, ?_⟩, i, ?_, rfl, ?_, rfl⟩
  · rfl
  · exact Function.update_self ..
  · exact Function.update_self ..

/-- **Whether the daemon can stall** is decided by the number of connections: one, and only
one, lets the main loop and the worker with the lock wait for each other. -/
theorem polling_stall_iff (i : ι) (dbMaxConnections : ℕ) :
    (∀ s, (polling (maxAvailableConnections dbMaxConnections) ι).Reachable s → ¬s.Stalled)
      ↔ maxAvailableConnections dbMaxConnections ≠ 1 := by
  refine ⟨fun h hone => ?_, fun hne s hs =>
    not_stalled (maxAvailableConnections_le dbMaxConnections) hne hs⟩
  obtain ⟨s, hs, hstalled⟩ := exists_stalled i
  exact h s (hone ▸ hs) hstalled

/-- **One connection**: the main loop polls with it, the worker waits for it with the lock,
and nothing but another submission changes that. -/
theorem polling_oneConnection : ∃ s : PollState (Fin 1),
    (polling (maxAvailableConnections 1) (Fin 1)).Reachable s ∧ s.Stalled ∧
      ∀ as s', (∀ a ∈ as, a ≠ PollStep.poll true) →
        (polling (maxAvailableConnections 1) (Fin 1)).run s as = some s' → s'.Stalled := by
  obtain ⟨s, hs, hstalled⟩ := exists_stalled (0 : Fin 1)
  exact ⟨s, hs, hstalled, fun as s' has hrun => stalled_of_run hs hstalled has hrun⟩

end Polling

end NpuOj
