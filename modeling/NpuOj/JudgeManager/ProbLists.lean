import NpuOj.JudgeManager.Judges
import NpuOj.JudgeManager.Problem
import NpuOj.Lib.LockInvariant

/-!
# The cache of problems and its lock

`get_problem` looks its problem up, loads it and reads it under `jm_lock_judge`. The
functions that it calls meanwhile take the same lock with `pthread_mutex_trylock`, go on
whether they got it or not, and give it back if they did: `fetch_problem_from_db` around the
write of the entry, `fetch_testcase_from_ftp` around its downloads, and in it
`get_testcase_dir`, twice. The write of the entry is thus made under the lock because of its
caller, and not because of its own trylock.

The threads may call `get_judge` and `release_judge` as well, whose sections have the same
lock, and `get_src_dir` and `get_output_dir`, which try for it. The semaphores decide when a
thread calls what; here it may make any call at any time. What the loader computes from the
answers to its queries is its own until it is written, and is computed at once.

That every problem is loaded at most once and that all callers are given the same is
`NpuOj.probLists_once`.
-/

namespace NpuOj

open LockInstr LockProgram

/-! ### The code -/

/-- What a thread does between two operations on the lock. -/
inductive ProbAct (N : ℕ)
  /-- `jm_prob_lists.find`, and the call of the loader if the problem is not there. -/
  | find (probId : ℤ)
  /-- The queries of `fetch_problem_from_db`. -/
  | fetch (probId : ℤ)
  /-- `jm_prob_lists[prob_id] = prob` -/
  | store (probId : ℤ) (prob : Problem)
  /-- `Problem prob = jm_prob_lists[prob_id]` -/
  | read (probId : ℤ)
  /-- The body of `get_testcase_dir`, `get_src_dir` or `get_output_dir`. -/
  | dir
  /-- `fetch_file` -/
  | download
  /-- The scan of `get_judge`. -/
  | takeJudge
  /-- The scan of `release_judge`. -/
  | freeJudge (jdg : Fin N)

/-- The action reads or writes `jm_prob_lists`. -/
def ProbAct.UsesProbLists {N : ℕ} : ProbAct N → Prop
  | .find _ | .store _ _ | .read _ => True
  | _ => False

/-- The calls that take `jm_lock_judge`, or try to. -/
inductive ManagerCall (N : ℕ)
  | getProblem (probId : ℤ)
  | getJudge
  | releaseJudge (jdg : Fin N)
  | getSrcDir
  | getOutputDir

/-- What has happened: the calls of `fetch_problem_from_db` for each problem, with what they
were answered, and what `get_problem` has returned. -/
structure ProbHistory where
  fetches : ℤ → List LoadReplies
  returned : List (ℤ × Problem)

/-- What the lock is there for. -/
structure ProbData (N : ℕ) where
  jmProbLists : ProbLists
  jmJudgesFlag : Fin N → JudgeState
  history : ProbHistory

section Code

variable {N : ℕ}

/-- The data when the daemon starts. -/
def ProbData.initJudges (N : ℕ) : ProbData N where
  jmProbLists _ := none
  jmJudgesFlag _ := .available
  history := ⟨fun _ => [], []⟩

/-- `get_testcase_dir`, `get_src_dir` and `get_output_dir`. -/
def getDirCode : List (LockInstr (ProbAct N)) := bracket [.act .dir]

/-- `fetch_testcase_from_ftp` -/
def fetchTestcaseCode : List (LockInstr (ProbAct N)) :=
  bracket (getDirCode ++ [.act .download] ++ getDirCode ++ [.act .download])

/-- `fetch_problem_from_db` once its queries are answered: the test cases one by one, and
then the entry. There is none where the loader crashes. -/
def fetchProblemCode (ctx : LoadContext) (probId : ℤ) (replies : LoadReplies) :
    Option (List (LockInstr (ProbAct N))) :=
  match fetchLimits ctx probId replies.limits with
  | .ret prob => match replies.tests with
    | .rows rows => match fetchTestcases ctx probId replies 0 rows prob with
      | .ret prob => some
          (rows.flatMap (fun _ => fetchTestcaseCode) ++ bracket [.act (.store probId prob)])
      | _ => none
    | _ => some []
  | _ => none

/-- What an action does. -/
def ProbAct.exec (ctx : LoadContext) (d : ProbData N) (a : ProbAct N) (replies : LoadReplies) :
    Option (ProbData N × List (LockInstr (ProbAct N))) :=
  match a with
  | .find probId => some (d, if (d.jmProbLists probId).isNone then [.act (.fetch probId)] else [])
  | .fetch probId => (fetchProblemCode ctx probId replies).map fun code =>
      ({ d with history := { d.history with
          fetches := Function.update d.history.fetches probId
            (replies :: d.history.fetches probId) } }, code)
  | .store probId prob =>
      some ({ d with jmProbLists := Function.update d.jmProbLists probId (some prob) }, [])
  | .read probId =>
      let (prob, lists) := d.jmProbLists.at probId
      some ({ d with
        jmProbLists := lists
        history := { d.history with returned := (probId, prob) :: d.history.returned } }, [])
  | .dir => some (d, [])
  | .download => some (d, [])
  | .takeJudge => some ({ d with jmJudgesFlag := takeFlag d.jmJudgesFlag }, [])
  | .freeJudge jdg => some ({ d with jmJudgesFlag := freeFlag d.jmJudgesFlag jdg }, [])

/-- The code of a call. -/
def ManagerCall.code : ManagerCall N → List (LockInstr (ProbAct N))
  | .getProblem probId => .lock :: [.act (.find probId), .act (.read probId)] ++ [.unlock]
  | .getJudge => .lock :: [.act .takeJudge] ++ [.unlock]
  | .releaseJudge jdg => .lock :: [.act (.freeJudge jdg)] ++ [.unlock]
  | .getSrcDir => getDirCode
  | .getOutputDir => getDirCode

/-- **The code of the judge manager** around its lock. -/
def judgeManager (ctx : LoadContext) (N : ℕ) :
    LockProgram (ProbData N) (ProbAct N) LoadReplies (ManagerCall N) where
  call := ManagerCall.code
  exec := ProbAct.exec ctx
  needs := ProbAct.UsesProbLists

/-! ### What holds of the cache -/

variable {ctx : LoadContext} {d : ProbData N} {probId : ℤ}

/-- **At any time**: nothing has been loaded twice, what was returned is still there, and
an entry is what a first `get_problem` returns on the answers that it was loaded from. -/
structure ProbOk (ctx : LoadContext) (d : ProbData N) : Prop where
  fetches_le : ∀ k, (d.history.fetches k).length ≤ 1
  returned : ∀ k prob, (k, prob) ∈ d.history.returned → d.jmProbLists k = some prob
  loaded : ∀ k prob, d.jmProbLists k = some prob →
    ∃ replies, d.history.fetches k = [replies] ∧ loadedProblem ctx k replies = .ret prob

/-- A problem without an entry has not been loaded. -/
def ProbSettled (d : ProbData N) (k : ℤ) : Prop :=
  d.jmProbLists k = none → d.history.fetches k = []

/-- The problem has been loaded and is the given one; its entry need not be there yet. -/
structure ProbLoaded (ctx : LoadContext) (probId : ℤ) (prob : Problem) (d : ProbData N) :
    Prop where
  ok : ProbOk ctx d
  others : ∀ k, k ≠ probId → ProbSettled d k
  loaded : ∃ replies, d.history.fetches probId = [replies] ∧
    loadedProblem ctx probId replies = .ret prob

/-- The problem may be read: what `operator[]` returns is what has been loaded. -/
def ProbReady (ctx : LoadContext) (probId : ℤ) (d : ProbData N) : Prop :=
  ProbLoaded ctx probId (d.jmProbLists.at probId).1 d

/-- The specification of the lock. -/
def probSpec (ctx : LoadContext) (N : ℕ) : LockSpec (ProbData N) where
  free d := ProbOk ctx d ∧ ∀ k, ProbSettled d k
  always := ProbOk ctx
  always_of_free := And.left

/-- The code that the loader leaves, and what the first `get_problem` returns then. -/
theorem fetchProblemCode_cases {replies : LoadReplies} {e : List (LockInstr (ProbAct N))}
    (h : fetchProblemCode ctx probId replies = some e) :
    (e = [] ∧ loadedProblem ctx probId replies = .ret {}) ∨
      ∃ (rows : List TestRow) (prob : Problem),
        e = rows.flatMap (fun _ => fetchTestcaseCode) ++ bracket [.act (.store probId prob)] ∧
        loadedProblem ctx probId replies = .ret prob := by
  rw [fetchProblemCode] at h
  split at h
  · next prob hlimits =>
    split at h
    · next rows htests =>
      split at h
      · next prob' hrows =>
        refine Or.inr ⟨rows, prob', (Option.some.inj h).symm, ?_⟩
        simp [loadedProblem, getProblem, fetchProblemFromDb, hlimits, htests, hrows, ProbLists.at]
      · cases h
    · next htests =>
      refine Or.inl ⟨(Option.some.inj h).symm, ?_⟩
      rcases hreply : replies.tests with _ | _ | rows
      · simp [loadedProblem, getProblem, fetchProblemFromDb, hlimits, hreply, ProbLists.at]
      · simp [loadedProblem, getProblem, fetchProblemFromDb, hlimits, hreply, ProbLists.at]
      · exact absurd hreply (htests rows)
  · cases h

/-! ### The code keeps to the specification -/

theorem leaves_getDirCode :
    (judgeManager ctx N).Leaves (probSpec ctx N) (getDirCode : List (LockInstr (ProbAct N))) := by
  refine (Leaves.act (fun h => h) fun d r d' e h => ?_).bracket
  obtain ⟨rfl, rfl⟩ := Prod.mk.inj (Option.some.inj h)
  exact ⟨rfl, rfl⟩

theorem leaves_fetchTestcaseCode :
    (judgeManager ctx N).Leaves (probSpec ctx N)
      (fetchTestcaseCode : List (LockInstr (ProbAct N))) := by
  have hdownload : (judgeManager ctx N).Leaves (probSpec ctx N) [.act .download] := by
    refine Leaves.act (fun h => h) fun d r d' e h => ?_
    obtain ⟨rfl, rfl⟩ := Prod.mk.inj (Option.some.inj h)
    exact ⟨rfl, rfl⟩
  exact (((leaves_getDirCode.append hdownload).append leaves_getDirCode).append hdownload).bracket

/-- The loop over the test cases does not touch the data. -/
theorem triple_fetchTestcases (rows : List TestRow) (Q : ProbData N → Prop) :
    (judgeManager ctx N).Triple (probSpec ctx N) Q
      (rows.flatMap fun _ => fetchTestcaseCode) Q := by
  induction rows with
  | nil => exact Triple.nil fun _ hd => hd
  | cons row rows ih => exact (leaves_fetchTestcaseCode.triple Q).append ih

/-- An entry is made for a problem that has been loaded and had none. -/
theorem ProbLoaded.insert {prob : Problem} (h : ProbLoaded ctx probId prob d)
    (hmiss : d.jmProbLists probId = none) :
    ProbLoaded ctx probId prob
      { d with jmProbLists := Function.update d.jmProbLists probId (some prob) } := by
  refine ⟨⟨h.ok.fetches_le, fun k p hk => ?_, fun k p hk => ?_⟩, fun k hne => ?_, h.loaded⟩
  · have hold := h.ok.returned k p hk
    have hne : k ≠ probId := by
      rintro rfl
      cases hmiss.symm.trans hold
    exact (Function.update_of_ne hne ..).trans hold
  · rcases eq_or_ne k probId with rfl | hne
    · obtain rfl : prob = p := by simpa using hk
      exact h.loaded
    · exact h.ok.loaded k p ((Function.update_of_ne hne ..).symm.trans hk)
  · simpa only [ProbSettled, Function.update_of_ne hne] using h.others k hne

/-- The loader writes the entry. -/
theorem triple_store {prob : Problem} :
    (judgeManager ctx N).Triple (probSpec ctx N)
      (fun d => ProbLoaded ctx probId prob d ∧ d.jmProbLists probId = none)
      [.act (.store probId prob)] (ProbReady ctx probId) := by
  refine Triple.act fun d r d' e hd _ hexec => ?_
  obtain ⟨rfl, rfl⟩ := Prod.mk.inj (Option.some.inj hexec)
  have hloaded := hd.1.insert hd.2
  refine ⟨hloaded.ok, Triple.nil ?_⟩
  rintro _ rfl
  simpa only [ProbReady, ProbLists.at, Function.update_self] using hloaded

/-- The loader is called for a problem without an entry. -/
theorem triple_fetch :
    (judgeManager ctx N).Triple (probSpec ctx N)
      (fun d => (probSpec ctx N).free d ∧ d.jmProbLists probId = none)
      [.act (.fetch probId)] (ProbReady ctx probId) := by
  refine Triple.act fun d replies d' e hd _ hexec => ?_
  obtain ⟨⟨hok, hsettled⟩, hmiss⟩ := hd
  obtain ⟨code, hcode, hout⟩ := Option.map_eq_some_iff.mp hexec
  obtain ⟨rfl, rfl⟩ := Prod.mk.inj hout
  have hnone : d.history.fetches probId = [] := hsettled probId hmiss
  have hloaded : ∀ prob, loadedProblem ctx probId replies = .ret prob →
      ProbLoaded ctx probId prob { d with history := { d.history with
        fetches := Function.update d.history.fetches probId
          (replies :: d.history.fetches probId) } } := by
    intro prob hprob
    refine ⟨⟨fun k => ?_, hok.returned, fun k p hk => ?_⟩, fun k hne => ?_, replies, ?_, hprob⟩
    · rcases eq_or_ne k probId with rfl | hne
      · simp [hnone]
      · simpa only [Function.update_of_ne hne] using hok.fetches_le k
    · have hne : k ≠ probId := by
        rintro rfl
        cases hmiss.symm.trans hk
      simpa only [Function.update_of_ne hne] using hok.loaded k p hk
    · simpa only [ProbSettled, Function.update_of_ne hne] using hsettled k
    · simp [hnone]
  rcases fetchProblemCode_cases hcode with ⟨rfl, hprob⟩ | ⟨rows, prob, rfl, hprob⟩
  · -- nothing is written, and `operator[]` makes the entry
    refine ⟨(hloaded _ hprob).ok, Triple.nil ?_⟩
    rintro _ rfl
    simpa only [ProbReady, ProbLists.at, hmiss] using hloaded _ hprob
  · refine ⟨(hloaded _ hprob).ok, (triple_fetchTestcases rows _).append (Triple.bracket ?_)⟩
    intro d' gained rest hd' hrest
    obtain rfl : d' = _ := hd'
    exact triple_store _ gained rest ⟨hloaded _ hprob, hmiss⟩ hrest

/-- The look-up finds the problem, or has it loaded. -/
theorem triple_find :
    (judgeManager ctx N).Triple (probSpec ctx N) (probSpec ctx N).free
      [.act (.find probId)] (ProbReady ctx probId) := by
  refine Triple.act fun d replies d' e hd _ hexec => ?_
  obtain ⟨rfl, rfl⟩ := Prod.mk.inj (Option.some.inj hexec)
  refine ⟨hd.1, ?_⟩
  rcases hfind : d.jmProbLists probId with _ | prob
  · intro d' gained rest hd' hrest
    obtain rfl : d' = d := hd'
    exact triple_fetch _ gained rest ⟨hd, hfind⟩ hrest
  · have hat : (d.jmProbLists.at probId).1 = prob := by rw [ProbLists.at, hfind]
    have hready : ProbReady ctx probId d := by
      rw [ProbReady, hat]
      exact ⟨hd.1, fun k _ => hd.2 k, hd.1.loaded probId prob hfind⟩
    exact Triple.nil fun _ heq => heq ▸ hready

/-- `operator[]` leaves an entry that is the problem it returns. -/
theorem ProbReady.at (h : ProbReady ctx probId d) :
    ProbLoaded ctx probId (d.jmProbLists.at probId).1
        { d with jmProbLists := (d.jmProbLists.at probId).2 } ∧
      (d.jmProbLists.at probId).2 probId = some (d.jmProbLists.at probId).1 := by
  rcases hfind : d.jmProbLists probId with _ | prob
  · have hat : d.jmProbLists.at probId = ({}, Function.update d.jmProbLists probId (some {})) := by
      rw [ProbLists.at, hfind]
    rw [ProbReady, hat] at h
    rw [hat]
    exact ⟨h.insert hfind, Function.update_self ..⟩
  · have hat : d.jmProbLists.at probId = (prob, d.jmProbLists) := by rw [ProbLists.at, hfind]
    rw [ProbReady, hat] at h
    rw [hat]
    exact ⟨h, hfind⟩

/-- The problem is read and returned. -/
theorem triple_read :
    (judgeManager ctx N).Triple (probSpec ctx N) (ProbReady ctx probId)
      [.act (.read probId)] (probSpec ctx N).free := by
  refine Triple.act fun d replies d' e hd _ hexec => ?_
  obtain ⟨rfl, rfl⟩ := Prod.mk.inj (Option.some.inj hexec)
  obtain ⟨hloaded, hentry⟩ := hd.at
  have hok : ProbOk ctx { d with
      jmProbLists := (d.jmProbLists.at probId).2
      history := { d.history with
        returned := (probId, (d.jmProbLists.at probId).1) :: d.history.returned } } := by
    refine ⟨hloaded.ok.fetches_le, fun k p hk => ?_, hloaded.ok.loaded⟩
    rcases List.mem_cons.mp hk with hnew | hold
    · obtain ⟨rfl, rfl⟩ := Prod.mk.inj hnew
      exact hentry
    · exact hloaded.ok.returned k p hold
  refine ⟨hok, Triple.nil ?_⟩
  rintro _ rfl
  refine ⟨hok, fun k hnone => ?_⟩
  rcases eq_or_ne k probId with rfl | hne
  · cases hentry.symm.trans hnone
  · exact hloaded.others k hne hnone

/-- The sections of `get_judge` and `release_judge` have nothing to do with the cache. -/
theorem triple_flags {a : ProbAct N} (h : ∀ d r d' e, a.exec ctx d r = some (d', e) →
    (∃ flags, d' = { d with jmJudgesFlag := flags }) ∧ e = []) :
    (judgeManager ctx N).Triple (probSpec ctx N) (probSpec ctx N).free [.act a]
      (probSpec ctx N).free := by
  refine Triple.act fun d r d' e hd _ hexec => ?_
  obtain ⟨⟨flags, rfl⟩, rfl⟩ := h d r d' e hexec
  have hfree : (probSpec ctx N).free { d with jmJudgesFlag := flags } :=
    ⟨⟨hd.1.fetches_le, hd.1.returned, hd.1.loaded⟩, hd.2⟩
  refine ⟨hfree.1, Triple.nil ?_⟩
  rintro _ rfl
  exact hfree

/-- **Every call** keeps to the specification. -/
theorem safe_call (ctx : LoadContext) (call : ManagerCall N) :
    (judgeManager ctx N).Safe (probSpec ctx N) none [] ((judgeManager ctx N).call call) := by
  rcases call with probId | _ | jdg | _ | _
  · exact Safe.section (triple_find.append triple_read)
  · refine Safe.section (triple_flags fun d r d' e h => ?_)
    obtain ⟨rfl, rfl⟩ := Prod.mk.inj (Option.some.inj h)
    exact ⟨⟨_, rfl⟩, rfl⟩
  · refine Safe.section (triple_flags fun d r d' e h => ?_)
    obtain ⟨rfl, rfl⟩ := Prod.mk.inj (Option.some.inj h)
    exact ⟨⟨_, rfl⟩, rfl⟩
  · exact Safe.of_idle leaves_getDirCode.idle
  · exact Safe.of_idle leaves_getDirCode.idle

/-! ### All threads together -/

variable {ι : Type*} [DecidableEq ι]

/-- **The threads of the daemon** around `jm_lock_judge`. -/
def managerThreads (ctx : LoadContext) (N : ℕ) (ι : Type*) [DecidableEq ι] :
    TransSystem (LockState (ProbData N) (ProbAct N) ι) (ι × LockStep (ManagerCall N) LoadReplies) :=
  (judgeManager ctx N).system (ProbData.initJudges N) ι

variable {s : LockState (ProbData N) (ProbAct N) ι}

theorem lockInv_managerThreads (h : (managerThreads ctx N ι).Reachable s) :
    (judgeManager ctx N).LockInv (probSpec ctx N) s := by
  refine lockInv_of_reachable (safe_call ctx) ⟨⟨fun k => ?_, fun k p hk => ?_, fun k p hk => ?_⟩,
    fun k _ => rfl⟩ h
  · exact Nat.zero_le 1
  · cases hk
  · cases hk

/-- **The cache is safe**: `jm_prob_lists` is read and written by the thread that has the
lock and by no other, no problem is loaded twice, and whoever has been returned a problem
was returned what the first `get_problem` returns on the answers that it was loaded from. -/
theorem probLists_once (h : (managerThreads ctx N ι).Reachable s) :
    (∀ i a c, (s.thread i).code = .act a :: c → a.UsesProbLists → s.owner = some i) ∧
      (∀ i a s', (managerThreads ctx N ι).step s (i, a) = some s' →
        s'.data.jmProbLists ≠ s.data.jmProbLists → s.owner = some i) ∧
      (∀ probId, (s.data.history.fetches probId).length ≤ 1) ∧
      (∀ probId prob, (probId, prob) ∈ s.data.history.returned → ∃ replies,
        s.data.history.fetches probId = [replies] ∧
          loadedProblem ctx probId replies = .ret prob) ∧
      ∀ probId prob prob', (probId, prob) ∈ s.data.history.returned →
        (probId, prob') ∈ s.data.history.returned → prob = prob' := by
  have hinv := lockInv_managerThreads h
  refine ⟨fun i a c hi ha => hinv.owner_of_needs hi ha, fun i a s' hstep hlists => ?_,
    hinv.always.fetches_le, fun probId prob hprob => ?_, fun probId prob prob' hprob hprob' => ?_⟩
  · exact hinv.owner_of_data hstep fun hdata => hlists (by rw [hdata])
  · exact hinv.always.loaded probId prob (hinv.always.returned probId prob hprob)
  · have hentry := hinv.always.returned probId prob hprob
    exact Option.some.inj (hentry.symm.trans (hinv.always.returned probId prob' hprob'))

/-- Replies from which a problem with one test case is loaded. -/
def oneTestReplies : LoadReplies where
  limits := .rows [⟨some "1000", some "65536"⟩]
  tests := .rows [⟨some "5", some "tc/5.in", some "tc/5.out"⟩]
  downloads _ := ⟨fun _ => 0, fun _ => 0⟩
  leftover _ := 0

/-- Two threads ask for the same problem; the second waits while the first loads it. -/
theorem probLists_once_twoThreads : ∃ s : LockState (ProbData 1) (ProbAct 1) (Fin 2),
    s.data.history.returned.map Prod.fst = [1000, 1000] ∧
      (s.data.history.fetches 1000).length ≤ 1 ∧
      ∀ prob prob', (1000, prob) ∈ s.data.history.returned →
        (1000, prob') ∈ s.data.history.returned → prob = prob' :=
  let run := (managerThreads nojContext 1 (Fin 2)).run
    ⟨ProbData.initJudges 1, none, fun _ => ⟨[], []⟩⟩
    ([(0, .call (.getProblem 1000)), (1, .call (.getProblem 1000))]
      ++ List.replicate 18 (0, .next oneTestReplies) ++ List.replicate 4 (1, .next oneTestReplies))
  have hrun : run.isSome = true := rfl
  have h : (managerThreads nojContext 1 (Fin 2)).Reachable (run.get hrun) :=
    TransSystem.reachable_of_run rfl (Option.some_get hrun).symm
  ⟨run.get hrun, rfl, (probLists_once h).2.2.1 1000, (probLists_once h).2.2.2.2 1000⟩

end Code

end NpuOj
