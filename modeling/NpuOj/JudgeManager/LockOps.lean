import NpuOj.JudgeManager.Judges
import NpuOj.JudgeManager.Problem
import NpuOj.Lib.LockCode

/-!
# The operations that use `jm_lock_judge`

Eight operations share one lock. Three take it with `pthread_mutex_lock`: `get_problem`,
`get_judge` and `release_judge`. The others try for it, go on in any case, and give it back at
their end if they got it; but `get_output_dir`, `get_testcase_dir` and `get_src_dir` return before
that if there is no `work_dir` yet. `get_problem` calls `fetch_problem_from_db` with the lock,
which calls `fetch_testcase_from_ftp`, which calls `get_testcase_dir`.

What an operation returns is computed along with it, and between any two of its steps the other
threads may do what they like, except that they do not take away a string that is there.
`NpuOj.leavesLock_iff` says when an operation, and with it all that it calls, leaves the lock as
its thread finds it.
-/

namespace NpuOj

open Posix LockCode

/-! ### The data -/

/-- The strings that are made when they are first asked for. -/
inductive DirKind
  | output
  | testcase
  | src
  deriving DecidableEq, Repr

/-- What a string has behind `work_dir`. -/
def DirKind.suffix : DirKind → String
  | output => "/output"
  | testcase => "/data"
  | src => "/src"

/-- The members of `JudgeManager` that the operations read and write. -/
structure ManagerData (N : ℕ) where
  workDir : Option String
  /-- `output_dir`, `testcase_dir` and `src_dir` -/
  dirs : DirKind → Option String
  jmProbLists : ProbLists
  jmJudgesFlag : Fin N → JudgeState

/-- What the world answers to one step: to a query, to a download, and what the memory of a test
case holds before it is constructed. -/
structure ManagerReply where
  limits : QueryReply LimitRow
  tests : QueryReply TestRow
  leftover : ℤ
  download : SystemReply

/-- The code of an operation. -/
abbrev ManagerCode (N : ℕ) := LockCode (ManagerData N) ManagerReply

/-! ### The operations -/

section Operations

variable {N : ℕ}

/-- What the three functions for the strings do after the test for `work_dir`. -/
def returnDir (kind : DirKind) (isLocked : Bool) : ManagerCode N (Option String) :=
  if isLocked then .unlock (ask fun d _ => .ret (d.dirs kind))
  else ask fun d _ => .ret (d.dirs kind)

/-- The body of `get_output_dir`, `get_testcase_dir` and `get_src_dir`. -/
def getDirBody (kind : DirKind) (isLocked : Bool) : ManagerCode N (Option String) :=
  ask fun d _ =>
    if (d.dirs kind).isNone then
      ask fun d _ => match d.workDir with
        -- returns, whether or not the lock was taken
        | none => .ret none
        | some workDir =>
          .act (fun d _ =>
              { d with dirs := Function.update d.dirs kind (some (workDir ++ kind.suffix)) })
            fun _ _ => returnDir kind isLocked
    else returnDir kind isLocked

def getDir (kind : DirKind) : ManagerCode N (Option String) := op (.tryLock (getDirBody kind))

/-- `get_output_dir` -/
def getOutputDir : ManagerCode N (Option String) := getDir .output

/-- `get_testcase_dir` -/
def getTestcaseDir : ManagerCode N (Option String) := getDir .testcase

/-- `get_src_dir` -/
def getSrcDir : ManagerCode N (Option String) := getDir .src

/-- The local path of a file of a test case, where `printf` has a text for `NULL`. -/
def testcasePath (dir : Option String) (tcId : ℤ) (suffix : String) : String :=
  snprintf bufferSize (dir.getD "(null)" ++ "/" ++ toString tcId ++ suffix)

variable (ctx : LoadContext)

/-- `fetch_testcase_from_ftp` -/
def fetchTestcaseOp (tc : TestCase) : ManagerCode N (NojState × TestCase) :=
  op <| .tryLock fun isLocked =>
    getTestcaseDir.bind fun dir => ask fun _ reply =>
    let inputPath := testcasePath dir tc.tcId ".in"
    let _stat := ctx.network.fetchFile tc.tcRemoteInputFile inputPath reply.download
    getTestcaseDir.bind fun dir => ask fun _ reply =>
    let outputPath := testcasePath dir tc.tcId ".out"
    let stat := ctx.network.fetchFile tc.tcRemoteOutputFile outputPath reply.download
    let tc := { tc with tcInputFile := inputPath, tcOutputFile := outputPath }
    if isLocked then .unlock (.ret (stat, tc)) else .ret (stat, tc)

/-- A test case as its row has it, before its files are fetched. -/
def rowTestcase (probId leftover : ℤ) (row : TestRow) : Outcome Fault TestCase := do
  let id ← readColumn row.tcId
  let input ← readColumn row.tcInput
  let output ← readColumn row.tcOutput
  .ret { tcId := ctx.readLong id, tcProbId := probId, isSpecialJudge := leftover
         tcRemoteInputFile := input, tcRemoteOutputFile := output }

/-- The write of the entry in `fetch_problem_from_db`. -/
def storeProblem (probId : ℤ) (prob : Problem) : ManagerCode N NojState :=
  .tryLock fun isLocked =>
    .act (fun d _ => { d with jmProbLists := Function.update d.jmProbLists probId (some prob) })
      fun _ _ => if isLocked then .unlock (.ret .normal) else .ret .normal

/-- The loop of `fetch_problem_from_db` over the rows of the second query. -/
def fetchRows (probId : ℤ) : List TestRow → Problem → ManagerCode N NojState
  | [], prob => storeProblem probId prob
  | row :: rows, prob => ask fun _ reply => match rowTestcase ctx probId reply.leftover row with
    | .ret tc => (fetchTestcaseOp ctx tc).bind fun x => fetchRows probId rows (prob.addTestcase x.2)
    -- the daemon crashes
    | _ => .halt

/-- `fetch_problem_from_db` -/
def fetchProblemOp (probId : ℤ) : ManagerCode N NojState :=
  op <| ask fun _ reply => match fetchLimits ctx probId reply.limits with
    | .ret prob => ask fun _ reply => match reply.tests with
      | .error => .ret .normal
      | .noResult => .ret .normal
      | .rows rows => fetchRows ctx probId rows prob
    | _ => .halt

/-- `get_problem` -/
def getProblemOp (probId : ℤ) : ManagerCode N Problem :=
  let read : ManagerCode N Problem :=
    .act (fun d _ => { d with jmProbLists := (d.jmProbLists.at probId).2 })
      fun d _ => .unlock (.ret (d.jmProbLists.at probId).1)
  op <| .lock <| ask fun d _ =>
    if (d.jmProbLists probId).isNone then (fetchProblemOp ctx probId).bind fun _ => read else read

/-- `get_judge`, past its semaphore. -/
def getJudgeOp : ManagerCode N (Option (Fin N)) :=
  op <| .lock <| .act (fun d _ => { d with jmJudgesFlag := takeFlag d.jmJudgesFlag })
    fun d _ => .unlock (.ret (firstAvailable d.jmJudgesFlag))

/-- `release_judge`, up to its semaphores. -/
def releaseJudgeOp (jdg : Fin N) : ManagerCode N Unit :=
  op <| .lock <| .act (fun d _ => { d with jmJudgesFlag := freeFlag d.jmJudgesFlag jdg })
    fun _ _ => .unlock (.ret ())

end Operations

/-- An operation that uses the lock. -/
inductive ManagerOp (N : ℕ)
  | getDir (kind : DirKind)
  | fetchTestcase (tc : TestCase)
  | fetchProblem (probId : ℤ)
  | getProblem (probId : ℤ)
  | getJudge
  | releaseJudge (jdg : Fin N)

/-- The code of an operation. -/
def ManagerOp.code {N : ℕ} (ctx : LoadContext) : ManagerOp N → ManagerCode N Unit
  | .getDir .output => getOutputDir.void
  | .getDir .testcase => getTestcaseDir.void
  | .getDir .src => getSrcDir.void
  | .fetchTestcase tc => (fetchTestcaseOp ctx tc).void
  | .fetchProblem probId => (fetchProblemOp ctx probId).void
  | .getProblem probId => (getProblemOp ctx probId).void
  | .getJudge => getJudgeOp.void
  | .releaseJudge jdg => releaseJudgeOp jdg

/-- **What the other threads do not do**: a string that is there stays there. -/
structure KeepsDirs {N : ℕ} (d d' : ManagerData N) : Prop where
  workDir : d.workDir.isSome → d'.workDir.isSome
  dirs : ∀ kind, (d.dirs kind).isSome → (d'.dirs kind).isSome

section Fidelity

variable {ctx : LoadContext} {probId leftover : ℤ} {row : TestRow}

/-- What is fetched for a row is what the loader of the cache computes. -/
theorem fetchTestcase_eq (reply : DownloadReply) :
    fetchTestcase ctx probId leftover reply row = (rowTestcase ctx probId leftover row).bind
      fun tc => .ret (fetchTestcaseFromFtp ctx reply tc).2 := by
  simp only [fetchTestcase, rowTestcase, Outcome.bind_def]
  rcases readColumn row.tcId with id | e | _
  · rcases readColumn row.tcInput with input | e | _
    · rcases readColumn row.tcOutput with output | e | _ <;> rfl
    · rfl
    · rfl
  · rfl
  · rfl

theorem testcasePath_some (tcId : ℤ) :
    testcasePath (some ctx.getTestcaseDir) tcId ".in" = ctx.inputPath tcId ∧
      testcasePath (some ctx.getTestcaseDir) tcId ".out" = ctx.outputPath tcId :=
  ⟨rfl, rfl⟩

end Fidelity

section Leads

variable {N : ℕ} {ctx : LoadContext} {I : ManagerData N → Prop} {held : Bool} {kind : DirKind}

/-- **The test for `work_dir` does not fail**, where the strings are asked for. -/
def DirReady (I : ManagerData N → Prop) (kind : DirKind) : Prop :=
  (∀ d, I d → d.workDir.isSome) ∨ ∀ d, I d → (d.dirs kind).isSome

theorem keepsDirs_setDir {d : ManagerData N} (dir : String) :
    KeepsDirs d { d with dirs := Function.update d.dirs kind (some dir) } where
  workDir := id
  dirs kind' h := by
    dsimp only
    by_cases hkind : kind' = kind
    · rw [hkind, Function.update_self]
      rfl
    · rwa [Function.update_of_ne hkind]

theorem leads_returnDir_true : Leads I true false (returnDir kind true : ManagerCode N _) :=
  .unlock (.ask fun _ _ _ => .ret _)

theorem leads_returnDir_false : Leads I held held (returnDir kind false : ManagerCode N _) :=
  .ask fun _ _ _ => .ret _

variable (hI : ∀ d d', I d → KeepsDirs d d' → I d')
include hI

/-- Without the lock there is nothing to give back. -/
theorem leads_getDirBody_false : Leads I held held (getDirBody kind false : ManagerCode N _) := by
  refine .ask fun d _ _ => ?_
  split
  · refine .ask fun d _ _ => ?_
    split
    · exact .ret _
    · exact .act (fun d _ hd => hI _ _ hd (keepsDirs_setDir _)) fun _ _ _ => leads_returnDir_false
  · exact leads_returnDir_false

/-- With the lock it is given back, if there is a `work_dir` or the string itself. -/
theorem leads_getDirBody_true (hready : DirReady I kind) :
    Leads I true false (getDirBody kind true : ManagerCode N _) := by
  refine .ask fun d _ hd => ?_
  split
  · next hnone =>
    refine .ask fun d' _ hd' => ?_
    split
    · next hworkDir =>
      rcases hready with hwork | hdirs
      · have hsome := hwork d' hd'
        rw [hworkDir] at hsome
        cases hsome
      · have hsome := hdirs d hd
        rw [Option.isNone_iff_eq_none.mp hnone] at hsome
        cases hsome
    · exact .act (fun d _ hd => hI _ _ hd (keepsDirs_setDir _)) fun _ _ _ => leads_returnDir_true
  · exact leads_returnDir_true

theorem leads_getDir (hready : held = true ∨ DirReady I kind) :
    Leads I held held (getDir kind : ManagerCode N _) := by
  refine .op (.tryLock ?_ (leads_getDirBody_false hI))
  rintro rfl
  exact leads_getDirBody_true hI (hready.resolve_left Bool.false_ne_true)

theorem leads_fetchTestcaseOp (tc : TestCase) (hready : held = true ∨ DirReady I .testcase) :
    Leads I held held (fetchTestcaseOp ctx tc : ManagerCode N _) := by
  refine .op (.tryLock ?_ ?_)
  · rintro rfl
    refine .bind (leads_getDir hI (Or.inl rfl)) fun dir => .ask fun _ _ _ => ?_
    exact .bind (leads_getDir hI (Or.inl rfl)) fun dir => .ask fun _ _ _ => .unlock (.ret _)
  · refine .bind (leads_getDir hI hready) fun dir => .ask fun _ _ _ => ?_
    exact .bind (leads_getDir hI hready) fun dir => .ask fun _ _ _ => .ret _

theorem leads_storeProblem (probId : ℤ) (prob : Problem) :
    Leads I held held (storeProblem probId prob : ManagerCode N _) := by
  have hstore : ∀ d : ManagerData N, I d →
      I { d with jmProbLists := Function.update d.jmProbLists probId (some prob) } :=
    fun d hd => hI d _ hd ⟨id, fun _ => id⟩
  refine .tryLock ?_ (.act (fun d _ => hstore d) fun _ _ _ => .ret _)
  rintro rfl
  exact .act (fun d _ => hstore d) fun _ _ _ => .unlock (.ret _)

theorem leads_fetchRows (probId : ℤ) (hready : held = true ∨ DirReady I .testcase)
    (rows : List TestRow) (prob : Problem) :
    Leads I held held (fetchRows ctx probId rows prob : ManagerCode N _) := by
  induction rows generalizing prob with
  | nil => exact leads_storeProblem hI probId prob
  | cons row rows ih =>
    refine .ask fun _ reply _ => ?_
    split
    · exact .bind (leads_fetchTestcaseOp hI _ hready) fun x => ih _
    · exact .halt

theorem leads_fetchProblemOp (probId : ℤ) (hready : held = true ∨ DirReady I .testcase) :
    Leads I held held (fetchProblemOp ctx probId : ManagerCode N _) := by
  refine .op (.ask fun _ reply _ => ?_)
  split
  · refine .ask fun _ reply _ => ?_
    split
    · exact .ret _
    · exact .ret _
    · exact leads_fetchRows hI probId hready _ _
  · exact .halt

/-- `get_problem` has the lock whenever it calls. -/
theorem leads_getProblemOp (probId : ℤ) :
    Leads I false false (getProblemOp ctx probId : ManagerCode N _) := by
  have hread : ∀ d : ManagerData N, I d →
      I { d with jmProbLists := (d.jmProbLists.at probId).2 } :=
    fun d hd => hI d _ hd ⟨id, fun _ => id⟩
  refine .op (.lock (.ask fun d _ _ => ?_))
  split
  · refine .bind (leads_fetchProblemOp hI probId (Or.inl rfl)) fun _ => ?_
    exact .act (fun d _ => hread d) fun _ _ _ => .unlock (.ret _)
  · exact .act (fun d _ => hread d) fun _ _ _ => .unlock (.ret _)

theorem leads_getJudgeOp : Leads I false false (getJudgeOp : ManagerCode N _) :=
  .op (.lock (.act (fun d _ hd => hI d _ hd ⟨id, fun _ => id⟩) fun _ _ _ => .unlock (.ret _)))

theorem leads_releaseJudgeOp (jdg : Fin N) :
    Leads I false false (releaseJudgeOp jdg : ManagerCode N _) :=
  .op (.lock (.act (fun d _ hd => hI d _ hd ⟨id, fun _ => id⟩) fun _ _ _ => .unlock (.ret _)))

end Leads

/-! ### What goes wrong without a `work_dir` -/

section CanFail

variable {N : ℕ} {ctx : LoadContext} {o : Holder} {d : ManagerData N} {es : List Bool}
  {kind : DirKind}

/-- The row of a test case with nothing in its columns. -/
def blankRow : TestRow := ⟨some "", some "", some ""⟩

/-- A reply to any step, with one test case for a problem. -/
def oneRowReply : ManagerReply := ⟨.error, .rows [blankRow], 0, fun _ => 0⟩

/-- **The early return**: a thread that gets the lock keeps it. -/
theorem canFail_getDir (ho : o ≠ .me) (hwork : d.workDir = none) (hdirs : d.dirs kind = none) :
    CanFail KeepsDirs ⟨o, d, es, getDir kind⟩ := by
  have hfree : CanFail KeepsDirs ⟨.nobody, d, es, (getDir kind : ManagerCode N _)⟩ := by
    refine .head .enter (.head .gain (.head (.act oneRowReply) ?_))
    simp only [hdirs, Option.isNone_none, if_true]
    refine .head (.act oneRowReply) ?_
    simp only [hwork]
    exact Bad.canFail (by simp [Bad, LockCode.bind])
  cases o with
  | nobody => exact hfree
  | me => exact absurd rfl ho
  | other => exact .head .envUnlock hfree

/-- A thread that does not get the lock at first may get it inside. -/
theorem canFail_fetchTestcaseOp (tc : TestCase) (ho : o ≠ .me) (hwork : d.workDir = none)
    (hdirs : d.dirs .testcase = none) : CanFail KeepsDirs ⟨o, d, es, fetchTestcaseOp ctx tc⟩ := by
  have hbusy : CanFail KeepsDirs ⟨.other, d, es, (fetchTestcaseOp ctx tc : ManagerCode N _)⟩ := by
    refine .head .enter (.head (.miss (by decide)) ?_)
    exact ((canFail_getDir (by decide) hwork hdirs).bind _).bind _
  cases o with
  | nobody => exact .head .envLock hbusy
  | me => exact absurd rfl ho
  | other => exact hbusy

theorem canFail_fetchProblemOp (probId : ℤ) (ho : o ≠ .me) (hwork : d.workDir = none)
    (hdirs : d.dirs .testcase = none) :
    CanFail KeepsDirs ⟨o, d, es, fetchProblemOp ctx probId⟩ := by
  refine .head .enter (.head (.act oneRowReply) (.head (.act oneRowReply)
    (.head (.act oneRowReply) ?_)))
  exact ((canFail_fetchTestcaseOp _ ho hwork hdirs).bind _).bind _

end CanFail

/-! ### When the lock is left -/

section Exact

variable {N : ℕ}

/-- **An operation is called as it has to be**: with the lock, or when there is a `work_dir` or
the string that is asked for; the operations that wait for the lock, without it. -/
def ManagerOp.LockReady (held : Bool) (d : ManagerData N) : ManagerOp N → Prop
  | .getDir kind => held = true ∨ d.workDir.isSome ∨ (d.dirs kind).isSome
  | .fetchTestcase _ => held = true ∨ d.workDir.isSome ∨ (d.dirs .testcase).isSome
  | .fetchProblem _ => held = true ∨ d.workDir.isSome ∨ (d.dirs .testcase).isSome
  | .getProblem _ => held = false
  | .getJudge => held = false
  | .releaseJudge _ => held = false

/-- What holds of the strings goes on to hold. -/
theorem leavesLock_of_leads {kind : DirKind} {held : Bool} {d : ManagerData N} {ρ : Type}
    {c : ManagerCode N ρ} (h : held = true ∨ d.workDir.isSome ∨ (d.dirs kind).isSome)
    (hleads : ∀ I : ManagerData N → Prop, (∀ d d', I d → KeepsDirs d d' → I d') →
      held = true ∨ DirReady I kind → Leads I held held c) : LeavesLock KeepsDirs held d c := by
  rcases h with hheld | hwork | hdirs
  · exact (hleads (fun _ => True) (fun _ _ _ _ => trivial) (Or.inl hheld)).leavesLock
      (fun _ _ _ _ => trivial) trivial
  · have hI : ∀ d d' : ManagerData N, d.workDir.isSome → KeepsDirs d d' → d'.workDir.isSome :=
      fun _ _ hd hkeeps => hkeeps.workDir hd
    exact (hleads _ hI (Or.inr (Or.inl fun _ => id))).leavesLock hI hwork
  · have hI : ∀ d d' : ManagerData N, (d.dirs kind).isSome → KeepsDirs d d' →
        (d'.dirs kind).isSome := fun _ _ hd hkeeps => hkeeps.dirs kind hd
    exact (hleads _ hI (Or.inr (Or.inr fun _ => id))).leavesLock hI hdirs

theorem dirs_of_leavesLock {kind : DirKind} {held : Bool} {d : ManagerData N} {ρ : Type}
    {c : ManagerCode N ρ} (h : LeavesLock KeepsDirs held d c)
    (hfail : d.workDir = none → d.dirs kind = none → CanFail KeepsDirs ⟨.nobody, d, [], c⟩) :
    held = true ∨ d.workDir.isSome ∨ (d.dirs kind).isSome := by
  by_contra hnot
  obtain ⟨hheld, hdirs⟩ := not_or.mp hnot
  obtain ⟨hwork, hdir⟩ := not_or.mp hdirs
  rw [Bool.not_eq_true] at hheld
  subst hheld
  exact (hfail (by simpa using hwork) (by simpa using hdir)).not_safe (h .nobody rfl)

/-- An operation that waits for the lock would wait for itself. -/
theorem held_of_leavesLock {held : Bool} {d : ManagerData N} {ρ : Type}
    {c : ManagerCode N ρ} (h : LeavesLock KeepsDirs held d c)
    (hfail : CanFail KeepsDirs ⟨.me, d, [], c⟩) : held = false := by
  by_contra hheld
  rw [Bool.not_eq_false] at hheld
  subst hheld
  exact hfail.not_safe (h .me rfl)

/-- **When an operation leaves the lock as it finds it**, and all that it calls as well: exactly
if it is called as it has to be. -/
theorem leavesLock_iff (ctx : LoadContext) (op : ManagerOp N) (held : Bool) (d : ManagerData N) :
    LeavesLock KeepsDirs held d (op.code ctx) ↔ op.LockReady held d := by
  have htrue : ∀ d d' : ManagerData N, True → KeepsDirs d d' → True := fun _ _ _ _ => trivial
  cases op with
  | getDir kind =>
    have hcode : (ManagerOp.getDir kind).code ctx = (getDir kind : ManagerCode N _).void := by
      cases kind <;> rfl
    rw [hcode]
    constructor
    · intro h
      exact dirs_of_leavesLock h fun hwork hdirs => (canFail_getDir (by decide) hwork hdirs).bind _
    · intro h
      exact leavesLock_of_leads h fun I hI hready => (leads_getDir hI hready).bind fun _ => .ret _
  | fetchTestcase tc =>
    constructor
    · intro h
      exact dirs_of_leavesLock h fun hwork hdirs =>
        (canFail_fetchTestcaseOp tc (by decide) hwork hdirs).bind _
    · intro h
      exact leavesLock_of_leads h fun I hI hready =>
        (leads_fetchTestcaseOp hI tc hready).bind fun _ => .ret _
  | fetchProblem probId =>
    constructor
    · intro h
      exact dirs_of_leavesLock h fun hwork hdirs =>
        (canFail_fetchProblemOp probId (by decide) hwork hdirs).bind _
    · intro h
      exact leavesLock_of_leads h fun I hI hready =>
        (leads_fetchProblemOp hI probId hready).bind fun _ => .ret _
  | getProblem probId =>
    constructor
    · intro h
      exact held_of_leavesLock h (.head .enter (Bad.canFail rfl))
    · rintro rfl
      exact ((leads_getProblemOp htrue probId).bind fun _ => .ret _).leavesLock htrue trivial
  | getJudge =>
    constructor
    · intro h
      exact held_of_leavesLock h (.head .enter (Bad.canFail rfl))
    · rintro rfl
      exact ((leads_getJudgeOp htrue).bind fun _ => .ret _).leavesLock htrue trivial
  | releaseJudge jdg =>
    constructor
    · intro h
      exact held_of_leavesLock h (.head .enter (Bad.canFail rfl))
    · rintro rfl
      exact (leads_releaseJudgeOp htrue jdg).leavesLock htrue trivial

/-- The members as the constructor leaves them, and judges that are available. -/
def ManagerData.constructed (N : ℕ) : ManagerData N where
  workDir := none
  dirs _ := none
  jmProbLists _ := none
  jmJudgesFlag _ := .available

/-- Before there is a `work_dir`, a thread that asks for the output directory has the lock
afterwards. -/
theorem not_leavesLock_getOutputDir : ¬LeavesLock KeepsDirs false (ManagerData.constructed 1)
    ((ManagerOp.getDir .output).code nojContext) :=
  fun h => ((canFail_getDir (by decide) rfl rfl).bind _).not_safe (h .nobody rfl)

end Exact

end NpuOj
