import NpuOj.Network
import NpuOj.Lib.EventLoop

/-!
# Loading a problem into the cache

`JudgeManager::get_problem` looks a problem up in `jm_prob_lists`, has
`fetch_problem_from_db` load it if it is not there, and reads the entry with the
inserting `operator[]`. The loader makes two queries and downloads two files for
every test case. It reports `Noj_Normal` whatever happened.

`NpuOj.getProblem_lists_iff` says when the cache is safe: an entry appears exactly for
the problems that are fully loaded, unless the loader reads a column that is `NULL`
and the daemon is gone.
-/

namespace NpuOj

open Posix

/-! ### Replies -/

/-- What a query comes to: an error, no result set, or a list of rows. -/
inductive QueryReply (ρ : Type)
  | error
  | noResult
  | rows (rows : List ρ)

/-- A row of `SELECT pbm_time_limit, pbm_mem_limit FROM Problem`. -/
structure LimitRow where
  pbmTimeLimit : Option String
  pbmMemLimit : Option String
  deriving DecidableEq, Repr

/-- A row of `SELECT tc_id, tc_input, tc_output FROM TestCase`. -/
structure TestRow where
  tcId : Option String
  tcInput : Option String
  tcOutput : Option String
  deriving DecidableEq, Repr

/-- What `system` answers to the two downloads of a test case. -/
structure DownloadReply where
  input : SystemReply
  output : SystemReply

/-- All that the world answers while one problem is loaded. The test cases are numbered
from `0`; `leftover` is what the memory of a test case holds before it is constructed. -/
structure LoadReplies where
  limits : QueryReply LimitRow
  tests : QueryReply TestRow
  downloads : ℕ → DownloadReply
  leftover : ℕ → ℤ

/-- What the loader reads of its surroundings. -/
structure LoadContext where
  platform : Platform
  network : NetworkManager
  /-- `JudgeManager::work_dir` -/
  workDir : String

namespace LoadContext

variable (ctx : LoadContext)

/-- `get_testcase_dir` -/
def getTestcaseDir : String := ctx.workDir ++ "/data"

/-- `get_output_dir` -/
def getOutputDir : String := ctx.workDir ++ "/output"

/-- The local path of the input of a test case. -/
def inputPath (tcId : ℤ) : String :=
  snprintf bufferSize (ctx.getTestcaseDir ++ "/" ++ toString tcId ++ ".in")

/-- The local path of the output of a test case. -/
def outputPath (tcId : ℤ) : String :=
  snprintf bufferSize (ctx.getTestcaseDir ++ "/" ++ toString tcId ++ ".out")

/-- `strtoul(text, NULL, 10)`, stored in a `long`. -/
def readLong (text : String) : ℤ := ctx.platform.toLong (strtoul ctx.platform text)

end LoadContext

/-! ### The loader -/

section Loader

variable (ctx : LoadContext)

/-- The text of a column; one that is `NULL` is read all the same. -/
def readColumn (col : Option String) : Outcome Fault String :=
  match col with
  | some text => .ret text
  | none => .fault .nullDeref

/-- `fetch_testcase_from_ftp`: the state of the first download is overwritten by that
of the second. -/
def fetchTestcaseFromFtp (reply : DownloadReply) (tc : TestCase) : NojState × TestCase :=
  let _stat := ctx.network.fetchFile tc.tcRemoteInputFile (ctx.inputPath tc.tcId) reply.input
  let tc := { tc with tcInputFile := ctx.inputPath tc.tcId }
  let stat := ctx.network.fetchFile tc.tcRemoteOutputFile (ctx.outputPath tc.tcId) reply.output
  (stat, { tc with tcOutputFile := ctx.outputPath tc.tcId })

/-- The first query: a problem with its limits, or a problem without anything. -/
def fetchLimits (probId : ℤ) (reply : QueryReply LimitRow) : Outcome Fault Problem :=
  match reply with
  | .error => .ret {}
  | .noResult => .ret {}
  -- `mysql_fetch_row` returns `NULL`, and its columns are read all the same
  | .rows [] => .fault .nullDeref
  | .rows (row :: _) => do
    let time ← readColumn row.pbmTimeLimit
    let mem ← readColumn row.pbmMemLimit
    let rl : ResourceLimit :=
      { singleTimeLimit := TimeUsage.setMillisecond {} (ctx.readLong time)
        memoryLimit := MemorySize.setByte {} (strtoul ctx.platform mem) }
    .ret { probId := some probId, probRscLim := rl }

/-- One row of the second query, made into a test case. -/
def fetchTestcase (probId : ℤ) (leftover : ℤ) (reply : DownloadReply) (row : TestRow) :
    Outcome Fault TestCase := do
  let id ← readColumn row.tcId
  let input ← readColumn row.tcInput
  let output ← readColumn row.tcOutput
  let tc : TestCase :=
    { tcId := ctx.readLong id, tcProbId := probId, isSpecialJudge := leftover
      tcRemoteInputFile := input, tcRemoteOutputFile := output }
  .ret (fetchTestcaseFromFtp ctx reply tc).2

/-- The loop over the rows of the second query, from the given number on. -/
def fetchTestcases (probId : ℤ) (replies : LoadReplies) :
    ℕ → List TestRow → Problem → Outcome Fault Problem
  | _, [], prob => .ret prob
  | n, row :: rows, prob => do
    let tc ← fetchTestcase ctx probId (replies.leftover n) (replies.downloads n) row
    fetchTestcases probId replies (n + 1) rows (prob.addTestcase tc)

end Loader

/-- `jm_prob_lists` -/
abbrev ProbLists := ℤ → Option Problem

/-- `operator[]` of the map: an entry that is missing is inserted. -/
def ProbLists.at (lists : ProbLists) (probId : ℤ) : Problem × ProbLists :=
  match lists probId with
  | some prob => (prob, lists)
  | none => ({}, Function.update lists probId (some {}))

/-- `fetch_problem_from_db`, with the map it leaves behind. -/
def fetchProblemFromDb (ctx : LoadContext) (probId : ℤ) (replies : LoadReplies)
    (lists : ProbLists) : Outcome Fault NojState × ProbLists :=
  match fetchLimits ctx probId replies.limits with
  | .ret prob => match replies.tests with
    -- only the log is told
    | .error => (.ret .normal, lists)
    | .noResult => (.ret .normal, lists)
    | .rows rows => match fetchTestcases ctx probId replies 0 rows prob with
      | .ret prob => (.ret .normal, Function.update lists probId (some prob))
      | .fault e => (.fault e, lists)
      | .pending => (.pending, lists)
  | .fault e => (.fault e, lists)
  | .pending => (.pending, lists)

/-- `get_problem`, with the map it leaves behind. -/
def getProblem (ctx : LoadContext) (probId : ℤ) (replies : LoadReplies) (lists : ProbLists) :
    Outcome Fault Problem × ProbLists :=
  let (stat, lists) := if (lists probId).isNone then fetchProblemFromDb ctx probId replies lists
    else (.ret .normal, lists)
  match stat with
  -- what the loader has not stored is inserted now
  | .ret _ => let (prob, lists) := lists.at probId; (.ret prob, lists)
  | .fault e => (.fault e, lists)
  | .pending => (.pending, lists)

/-! ### Which replies crash the loader -/

/-- No column of the row is `NULL`. -/
def LimitRow.Complete (row : LimitRow) : Prop :=
  row.pbmTimeLimit.isSome ∧ row.pbmMemLimit.isSome

/-- No column of the row is `NULL`. -/
def TestRow.Complete (row : TestRow) : Prop :=
  row.tcId.isSome ∧ row.tcInput.isSome ∧ row.tcOutput.isSome

instance : DecidablePred LimitRow.Complete := fun _ => inferInstanceAs (Decidable (_ ∧ _))

instance : DecidablePred TestRow.Complete := fun _ => inferInstanceAs (Decidable (_ ∧ _ ∧ _))

/-- **The replies make the loader read through a null pointer**: the first row of the
limits is missing or has a column that is `NULL`, or some row of the test cases has
one. -/
def LoadReplies.DerefsNull (replies : LoadReplies) : Prop :=
  (∃ rows, replies.limits = .rows rows ∧ ¬∃ row ∈ rows.head?, row.Complete) ∨
    ∃ rows, replies.tests = .rows rows ∧ ∃ row ∈ rows, ¬row.Complete

section Crash

variable {ctx : LoadContext} {probId leftover : ℤ} {replies : LoadReplies} {lists : ProbLists}

theorem readColumn_of_isSome {col : Option String} (h : col.isSome) :
    ∃ text, readColumn col = .ret text := by
  obtain ⟨text, rfl⟩ := Option.isSome_iff_exists.mp h
  exact ⟨text, rfl⟩

theorem readColumn_of_not_isSome {col : Option String} (h : ¬col.isSome) :
    readColumn col = .fault .nullDeref := by
  rw [Option.not_isSome_iff_eq_none.mp h, readColumn]

theorem fetchLimits_of_complete {row : LimitRow} {rows : List LimitRow} (h : row.Complete) :
    ∃ prob, fetchLimits ctx probId (.rows (row :: rows)) = .ret prob := by
  obtain ⟨time, htime⟩ := readColumn_of_isSome h.1
  obtain ⟨mem, hmem⟩ := readColumn_of_isSome h.2
  simp [fetchLimits, htime, hmem]

theorem fetchLimits_of_not_complete {rows : List LimitRow}
    (h : ¬∃ row ∈ rows.head?, LimitRow.Complete row) :
    fetchLimits ctx probId (.rows rows) = .fault .nullDeref := by
  cases rows with
  | nil => rfl
  | cons row rows =>
    by_cases htime : row.pbmTimeLimit.isSome
    · obtain ⟨time, htime'⟩ := readColumn_of_isSome htime
      have hmem : ¬row.pbmMemLimit.isSome := fun hmem => h ⟨row, rfl, htime, hmem⟩
      simp [fetchLimits, htime', readColumn_of_not_isSome hmem]
    · simp [fetchLimits, readColumn_of_not_isSome htime]

theorem fetchTestcase_of_complete {row : TestRow} (reply : DownloadReply) (h : row.Complete) :
    ∃ tc, fetchTestcase ctx probId leftover reply row = .ret tc := by
  obtain ⟨id, hid⟩ := readColumn_of_isSome h.1
  obtain ⟨input, hinput⟩ := readColumn_of_isSome h.2.1
  obtain ⟨output, houtput⟩ := readColumn_of_isSome h.2.2
  simp [fetchTestcase, hid, hinput, houtput]

theorem fetchTestcase_of_not_complete {row : TestRow} (reply : DownloadReply)
    (h : ¬row.Complete) :
    fetchTestcase ctx probId leftover reply row = .fault .nullDeref := by
  by_cases hid : row.tcId.isSome
  · obtain ⟨id, hid'⟩ := readColumn_of_isSome hid
    by_cases hinput : row.tcInput.isSome
    · obtain ⟨input, hinput'⟩ := readColumn_of_isSome hinput
      have houtput : ¬row.tcOutput.isSome := fun houtput => h ⟨hid, hinput, houtput⟩
      simp [fetchTestcase, hid', hinput', readColumn_of_not_isSome houtput]
    · simp [fetchTestcase, hid', readColumn_of_not_isSome hinput]
  · simp [fetchTestcase, readColumn_of_not_isSome hid]

theorem fetchTestcases_of_complete {rows : List TestRow} (h : ∀ row ∈ rows, row.Complete)
    (n : ℕ) (prob : Problem) :
    ∃ prob', fetchTestcases ctx probId replies n rows prob = .ret prob' := by
  induction rows generalizing n prob with
  | nil => exact ⟨prob, rfl⟩
  | cons row rows ih =>
    obtain ⟨tc, htc⟩ : ∃ tc, fetchTestcase ctx probId (replies.leftover n) (replies.downloads n)
        row = .ret tc := fetchTestcase_of_complete _ (h row List.mem_cons_self)
    obtain ⟨prob', hprob'⟩ := ih (fun r hr => h r (List.mem_cons_of_mem row hr)) (n + 1)
      (prob.addTestcase tc)
    exact ⟨prob', by simp only [fetchTestcases, htc, Outcome.bind_def, Outcome.ret_bind, hprob']⟩

theorem fetchTestcases_of_not_complete {rows : List TestRow} (h : ∃ row ∈ rows, ¬row.Complete)
    (n : ℕ) (prob : Problem) :
    fetchTestcases ctx probId replies n rows prob = .fault .nullDeref := by
  induction rows generalizing n prob with
  | nil => obtain ⟨row, hrow, -⟩ := h; cases hrow
  | cons row rows ih =>
    by_cases hrow : row.Complete
    · obtain ⟨tc, htc⟩ : ∃ tc, fetchTestcase ctx probId (replies.leftover n)
          (replies.downloads n) row = .ret tc := fetchTestcase_of_complete _ hrow
      have hrest : ∃ row ∈ rows, ¬row.Complete := by
        obtain ⟨r, hr, hbad⟩ := h
        rcases List.mem_cons.mp hr with rfl | hr
        · exact absurd hrow hbad
        · exact ⟨r, hr, hbad⟩
      simp only [fetchTestcases, htc, Outcome.bind_def, Outcome.ret_bind, ih hrest]
    · rw [fetchTestcases, fetchTestcase_of_not_complete _ hrow]
      rfl

/-- The first query returns unless its row cannot be read. -/
theorem fetchLimits_eq_ret_or (ctx : LoadContext) (probId : ℤ) (reply : QueryReply LimitRow) :
    (∃ prob, fetchLimits ctx probId reply = .ret prob) ∨
      fetchLimits ctx probId reply = .fault .nullDeref ∧
        ∃ rows, reply = .rows rows ∧ ¬∃ row ∈ rows.head?, LimitRow.Complete row := by
  rcases reply with _ | _ | rows
  · exact Or.inl ⟨_, rfl⟩
  · exact Or.inl ⟨_, rfl⟩
  · by_cases h : ∃ row ∈ rows.head?, LimitRow.Complete row
    · obtain ⟨row, hrow, hcomplete⟩ := h
      obtain ⟨rest, rfl⟩ : ∃ rest, rows = row :: rest := List.head?_eq_some_iff.mp hrow
      exact Or.inl (fetchLimits_of_complete hcomplete)
    · exact Or.inr ⟨fetchLimits_of_not_complete h, rows, rfl, h⟩

/-- Replies that crash the loader leave the map as it is. -/
theorem fetchProblemFromDb_of_derefsNull (h : replies.DerefsNull) :
    fetchProblemFromDb ctx probId replies lists = (.fault .nullDeref, lists) := by
  rcases fetchLimits_eq_ret_or ctx probId replies.limits with
    ⟨prob, hret⟩ | ⟨hfault, -⟩
  · rcases h with ⟨rows, hlimits, hbad⟩ | ⟨rows, htests, hbad⟩
    · rw [hlimits, fetchLimits_of_not_complete hbad] at hret
      cases hret
    · simp only [fetchProblemFromDb, hret, htests, fetchTestcases_of_not_complete hbad]
  · simp only [fetchProblemFromDb, hfault]

/-- Replies that do not crash the loader let it report `normal`, and write at most the
entry of the problem; what they write does not depend on the map. -/
theorem fetchProblemFromDb_of_not_derefsNull (ctx : LoadContext) (probId : ℤ)
    (h : ¬replies.DerefsNull) :
    ∃ entry, ∀ lists : ProbLists, lists probId = none →
      fetchProblemFromDb ctx probId replies lists
        = (.ret .normal, Function.update lists probId entry) := by
  rcases fetchLimits_eq_ret_or ctx probId replies.limits with ⟨prob, hret⟩ | ⟨-, hbad⟩
  · have hskip : ∀ lists : ProbLists, lists probId = none →
        ((.ret .normal : Outcome Fault NojState), lists)
          = (.ret .normal, Function.update lists probId none) :=
      fun lists hmiss => by rw [← hmiss, Function.update_eq_self]
    cases htests : replies.tests with
    | error => exact ⟨none, by simpa only [fetchProblemFromDb, hret, htests] using hskip⟩
    | noResult => exact ⟨none, by simpa only [fetchProblemFromDb, hret, htests] using hskip⟩
    | rows rows =>
      have hcomplete : ∀ row ∈ rows, row.Complete := fun row hrow => by
        by_contra hbad
        exact h (Or.inr ⟨rows, htests, row, hrow, hbad⟩)
      obtain ⟨prob', hprob'⟩ : ∃ prob', fetchTestcases ctx probId replies 0 rows prob
          = .ret prob' := fetchTestcases_of_complete hcomplete 0 prob
      exact ⟨some prob', fun lists _ => by simp only [fetchProblemFromDb, hret, htests, hprob']⟩
  · exact absurd (Or.inl hbad) h

end Crash

/-! ### The cache -/

/-- **A problem that is fully loaded**: its limits have been delivered, the query for
its test cases succeeded, and both files of every test case have been downloaded. -/
structure FullyLoaded (ctx : LoadContext) (replies : LoadReplies) : Prop where
  limits : ∃ row rows, replies.limits = .rows (row :: rows) ∧ row.Complete
  tests : ∃ rows, replies.tests = .rows rows ∧ ∀ n row, rows[n]? = some row →
    ∃ id ∈ row.tcId, ∃ input ∈ row.tcInput, ∃ output ∈ row.tcOutput,
      ctx.network.Downloads input (ctx.inputPath (ctx.readLong id)) (replies.downloads n).input ∧
      ctx.network.Downloads output (ctx.outputPath (ctx.readLong id)) (replies.downloads n).output

section Cache

variable {ctx : LoadContext} {probId : ℤ} {replies : LoadReplies} {lists : ProbLists}

/-- The problem that a first `get_problem` returns on these replies. -/
def loadedProblem (ctx : LoadContext) (probId : ℤ) (replies : LoadReplies) :
    Outcome Fault Problem :=
  (getProblem ctx probId replies fun _ => none).1

theorem getProblem_hit {prob : Problem} (h : lists probId = some prob) :
    getProblem ctx probId replies lists = (.ret prob, lists) := by
  simp [getProblem, ProbLists.at, h]

theorem getProblem_of_derefsNull (hmiss : lists probId = none) (h : replies.DerefsNull) :
    getProblem ctx probId replies lists = (.fault .nullDeref, lists) := by
  simp [getProblem, hmiss, fetchProblemFromDb_of_derefsNull h]

theorem loadedProblem_of_derefsNull (h : replies.DerefsNull) :
    loadedProblem ctx probId replies = .fault .nullDeref := by
  rw [loadedProblem, getProblem_of_derefsNull rfl h]

/-- **A miss on replies that do not crash** inserts the problem that it returns, and
this problem does not depend on the map. -/
theorem getProblem_miss (ctx : LoadContext) (probId : ℤ) (h : ¬replies.DerefsNull) :
    ∃ prob, loadedProblem ctx probId replies = .ret prob ∧
      ∀ lists : ProbLists, lists probId = none → getProblem ctx probId replies lists
        = (.ret prob, Function.update lists probId (some prob)) := by
  obtain ⟨entry, hfetch⟩ := fetchProblemFromDb_of_not_derefsNull ctx probId h
  have hget : ∀ lists : ProbLists, lists probId = none → getProblem ctx probId replies lists
      = (.ret (entry.getD {}), Function.update lists probId (some (entry.getD {}))) := by
    intro lists hmiss
    cases entry <;> simp [getProblem, hmiss, hfetch lists hmiss, ProbLists.at]
  exact ⟨entry.getD {}, by rw [loadedProblem, hget _ rfl], hget⟩

theorem exists_loadedProblem_iff :
    (∃ prob, loadedProblem ctx probId replies = .ret prob) ↔ ¬replies.DerefsNull := by
  constructor
  · rintro ⟨prob, hprob⟩ hnull
    rw [loadedProblem_of_derefsNull hnull] at hprob
    cases hprob
  · intro hnull
    obtain ⟨prob, hprob, -⟩ := getProblem_miss ctx probId hnull
    exact ⟨prob, hprob⟩

theorem fetchLimits_probTestcases {reply : QueryReply LimitRow} {prob : Problem}
    (h : fetchLimits ctx probId reply = .ret prob) : prob.probTestcases = [] := by
  rcases reply with _ | _ | _ | ⟨row, rows⟩
  · cases h
    rfl
  · cases h
    rfl
  · cases h
  · obtain ⟨time, -, h⟩ := Outcome.bind_eq_ret_iff.mp h
    obtain ⟨mem, -, h⟩ := Outcome.bind_eq_ret_iff.mp h
    cases h
    rfl

theorem fetchTestcases_length {n : ℕ} {rows : List TestRow} {prob prob' : Problem}
    (h : fetchTestcases ctx probId replies n rows prob = .ret prob') :
    prob'.probTestcases.length = prob.probTestcases.length + rows.length := by
  induction rows generalizing n prob with
  | nil =>
    cases h
    rfl
  | cons row rows ih =>
    obtain ⟨tc, -, h⟩ := Outcome.bind_eq_ret_iff.mp h
    rw [ih h, Problem.addTestcase, List.length_append]
    simp only [List.length_cons, List.length_nil]
    omega

/-- One test case for every row. -/
theorem loadedProblem_length {rows : List TestRow} {prob : Problem}
    (htests : replies.tests = .rows rows) (h : loadedProblem ctx probId replies = .ret prob) :
    prob.probTestcases.length = rows.length := by
  have hnull : ¬replies.DerefsNull := exists_loadedProblem_iff.mp ⟨prob, h⟩
  rcases fetchLimits_eq_ret_or ctx probId replies.limits with ⟨prob₀, hlimits⟩ | ⟨-, hbad⟩
  · have hcomplete : ∀ row ∈ rows, row.Complete := fun row hrow => by
      by_contra hbad
      exact hnull (Or.inr ⟨rows, htests, row, hrow, hbad⟩)
    obtain ⟨prob', hprob'⟩ : ∃ prob', fetchTestcases ctx probId replies 0 rows prob₀
        = .ret prob' := fetchTestcases_of_complete hcomplete 0 prob₀
    have hprob : prob' = prob := by
      simpa [loadedProblem, getProblem, fetchProblemFromDb, hlimits, htests, hprob',
        ProbLists.at] using h
    rw [← hprob, fetchTestcases_length hprob', fetchLimits_probTestcases hlimits]
    simp
  · exact absurd (Or.inl hbad) hnull

/-- **When the cache is safe.** A call adds an entry only for a problem that is fully
loaded, and leaves the map as it was for any other, exactly if the problem was there
before, or the loader crashed, or the problem is fully loaded. -/
theorem getProblem_lists_iff (ctx : LoadContext) (probId : ℤ) (replies : LoadReplies)
    (lists : ProbLists) :
    ((lists probId = none → (getProblem ctx probId replies lists).2 probId ≠ none →
        FullyLoaded ctx replies) ∧
      (¬FullyLoaded ctx replies → (getProblem ctx probId replies lists).2 = lists)) ↔
    lists probId ≠ none ∨ replies.DerefsNull ∨ FullyLoaded ctx replies := by
  by_cases hhit : lists probId = none
  · by_cases hnull : replies.DerefsNull
    · rw [getProblem_of_derefsNull hhit hnull]
      exact ⟨fun _ => Or.inr (Or.inl hnull), fun _ => ⟨fun _ h => absurd hhit h, fun _ => rfl⟩⟩
    · -- an entry is added, so that only a fully loaded problem will do
      obtain ⟨prob, -, hget⟩ := getProblem_miss ctx probId hnull
      have hadded : Function.update lists probId (some prob) probId ≠ none := by simp
      rw [hget lists hhit]
      constructor
      · exact fun h => Or.inr (Or.inr (h.1 hhit hadded))
      · rintro (h | h | h)
        · exact absurd hhit h
        · exact absurd h hnull
        · exact ⟨fun _ _ => h, fun hnot => absurd h hnot⟩
  · obtain ⟨prob, hprob⟩ := Option.ne_none_iff_exists'.mp hhit
    rw [getProblem_hit hprob]
    exact ⟨fun _ => Or.inl hhit, fun _ => ⟨fun h => absurd h hhit, fun _ => rfl⟩⟩

/-- Replies in which both queries fail. -/
def failedReplies : LoadReplies where
  limits := .error
  tests := .error
  downloads _ := ⟨fun _ => 0, fun _ => 0⟩
  leftover _ := 0

/-- A daemon that works in `/home/noj` and fetches by SFTP. -/
def nojContext : LoadContext where
  platform := lp64
  network := { mMode := .sftp, mHost := "oj", mPort := 22, mUsername := "noj" }
  workDir := "/home/noj"

/-- A problem whose queries both fail is in the map afterwards, without limits and
without test cases. -/
theorem getProblem_failedReplies :
    ¬FullyLoaded nojContext failedReplies ∧
      (getProblem nojContext 1000 failedReplies fun _ => none).2 1000 = some {} := by
  refine ⟨fun h => ?_, rfl⟩
  obtain ⟨row, rows, hlimits, -⟩ := h.limits
  cases hlimits

/-! ### Where the entries come from -/

/-- **The cache together with the replies that filled it.** The replies are not stored
by the daemon; they are what a statement about an entry has to speak of. -/
structure ProbCache (ctx : LoadContext) where
  lists : ProbLists
  source : ℤ → Option LoadReplies
  /-- An entry is the problem that a first call returned on its replies. -/
  loaded : ∀ probId replies, source probId = some replies →
    ∃ prob, loadedProblem ctx probId replies = .ret prob ∧ lists probId = some prob
  /-- There are no other entries. -/
  missing : ∀ probId, source probId = none → lists probId = none

namespace ProbCache

/-- The map of a daemon that has just started. -/
def empty (ctx : LoadContext) : ProbCache ctx where
  lists _ := none
  source _ := none
  loaded _ _ h := by cases h
  missing _ _ := rfl

/-- The replies that a problem is judged by: those that loaded it, or else those that
the next call would get. -/
def repliesFor (cache : ProbCache ctx) (probId : ℤ) (replies : LoadReplies) : LoadReplies :=
  (cache.source probId).getD replies

theorem getProblem_eq (cache : ProbCache ctx) (probId : ℤ) (replies : LoadReplies) :
    (getProblem ctx probId replies cache.lists).1
      = loadedProblem ctx probId (cache.repliesFor probId replies) := by
  cases hsource : cache.source probId with
  | some r =>
    obtain ⟨prob, hprob, hlists⟩ := cache.loaded probId r hsource
    rw [getProblem_hit hlists, repliesFor, hsource, Option.getD_some, hprob]
  | none =>
    have hmiss := cache.missing probId hsource
    rw [repliesFor, hsource, Option.getD_none]
    by_cases hnull : replies.DerefsNull
    · rw [getProblem_of_derefsNull hmiss hnull, loadedProblem_of_derefsNull hnull]
    · obtain ⟨prob, hprob, hget⟩ := getProblem_miss ctx probId hnull
      rw [hget _ hmiss, hprob]

/-- The call filled the entry of the problem. -/
def Filled (ctx : LoadContext) (lists : ProbLists) (probId : ℤ) (replies : LoadReplies) : Prop :=
  (lists probId).isNone ∧ ((getProblem ctx probId replies lists).2 probId).isSome

instance : Decidable (Filled ctx lists probId replies) :=
  inferInstanceAs (Decidable (_ ∧ _))

theorem filled_cases (ctx : LoadContext) (lists : ProbLists) (probId : ℤ)
    (replies : LoadReplies) :
    ¬Filled ctx lists probId replies ∧ (getProblem ctx probId replies lists).2 = lists ∨
      Filled ctx lists probId replies ∧ ∃ prob,
        loadedProblem ctx probId replies = .ret prob ∧
        (getProblem ctx probId replies lists).2 = Function.update lists probId (some prob) := by
  by_cases hmiss : lists probId = none
  · by_cases hnull : replies.DerefsNull
    · have hget : getProblem ctx probId replies lists = _ := getProblem_of_derefsNull hmiss hnull
      exact Or.inl ⟨fun h => by simp [Filled, hget, hmiss] at h, by rw [hget]⟩
    · obtain ⟨prob, hprob, hget⟩ := getProblem_miss ctx probId hnull
      refine Or.inr ⟨?_, prob, hprob, by rw [hget lists hmiss]⟩
      simp [Filled, hget lists hmiss, hmiss]
  · obtain ⟨prob, hprob⟩ := Option.ne_none_iff_exists'.mp hmiss
    exact Or.inl ⟨fun h => by simp [Filled, hprob] at h, by rw [getProblem_hit hprob]⟩

/-- **`get_problem` on the cache**: the map is the one that the code leaves, and the
replies are recorded where they filled an entry. -/
def get (cache : ProbCache ctx) (probId : ℤ) (replies : LoadReplies) :
    Outcome Fault Problem × ProbCache ctx :=
  let out := getProblem ctx probId replies cache.lists
  (out.1, {
    lists := out.2
    source := if Filled ctx cache.lists probId replies
      then Function.update cache.source probId (some replies) else cache.source
    loaded := fun id r h => by
      rcases filled_cases ctx cache.lists probId replies with ⟨hf, hout⟩ | ⟨hf, prob, hprob, hout⟩
      · rw [if_neg hf] at h
        obtain ⟨prob, hprob, hlists⟩ := cache.loaded id r h
        exact ⟨prob, hprob, by rw [hout, hlists]⟩
      · rw [if_pos hf] at h
        by_cases hid : id = probId
        · subst hid
          obtain rfl : replies = r := by simpa using h
          exact ⟨prob, hprob, by rw [hout, Function.update_self]⟩
        · rw [Function.update_of_ne hid] at h
          obtain ⟨prob', hprob', hlists⟩ := cache.loaded id r h
          exact ⟨prob', hprob', by rw [hout, Function.update_of_ne hid, hlists]⟩
    missing := fun id h => by
      rcases filled_cases ctx cache.lists probId replies with ⟨hf, hout⟩ | ⟨hf, prob, -, hout⟩
      · rw [if_neg hf] at h
        rw [hout]
        exact cache.missing id h
      · rw [if_pos hf] at h
        have hid : id ≠ probId := fun hid => by
          rw [hid, Function.update_self] at h
          cases h
        rw [Function.update_of_ne hid] at h
        rw [hout, Function.update_of_ne hid]
        exact cache.missing id h })

end ProbCache

end Cache

end NpuOj
