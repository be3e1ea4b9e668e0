import NpuOj.Config.Numbers
import NpuOj.JudgeManager.LoopRoutine
import NpuOj.JudgeManager.Task

/-!
# From result sets to tasks

`fetch_submission_from_db` calls the procedure `fetch_submission()` until its first result set
has a row, and reads each row of this set into the same `Submission`; the result sets after the
first one are freed. Then `loop_routine` adds a task for each mode of the submission, of which
there is one. A column that is read and is `NULL` ends the daemon.

So a call that finds something leads to one task, for the last row of its first result set
(`NpuOj.addTasks_eq`). What a row says is stated apart from the code: its identities are the
numbers that the decimal numerals in the columns write, and its language is the one that the
column names. `NpuOj.tasksFollowRows_iff` says for which results each row gets its task: those
with one row at most, in the first result set, whose numbers fit a `long` and whose language is
C, CPP or Java.
-/

namespace NpuOj

open Posix

/-! ### Fetching -/

/-- A row of `call fetch_submission()`, with the texts of its columns; `none` is `NULL`. -/
structure FetchedRow where
  sbmId : Option String
  problemPbmId : Option String
  sbmPath : Option String
  sbmLang : Option String
  deriving DecidableEq, Repr

/-- The result sets of a call, of which there is one at least. -/
structure ResultSets where
  first : List FetchedRow
  others : List (List FetchedRow)
  deriving DecidableEq, Repr

/-- What the server answers to `call fetch_submission()`. -/
inductive FetchReply
  | error
  | results (sets : ResultSets)
  deriving DecidableEq, Repr

/-- How the daemon ends in `fetch_submission_from_db`. -/
inductive DaemonExit
  /-- `exit(EXIT_FAILURE)` -/
  | failure
  /-- `NULL` has been read as a text. -/
  | crash
  deriving DecidableEq, Repr

/-- The submission that is being fetched, and the commands that were given to `system`. -/
structure FetchState where
  submit : Submission
  commands : List String
  deriving DecidableEq, Repr

/-- `Submission submit(-1)`, whose identity is what the stack holds. -/
def Submission.unfetched (leftover : ℤ) : Submission where
  sbmProbId := -1
  sbmLang := .unkown
  sbmId := leftover
  sbmJudgeSet := NojJudgeMode.unSet.bits
  sbmCurMode := .unSet
  sbmResType := .init
  sbmSourceFile := ""
  sbmResults := []

section Fetching

variable (ctx : LoadContext)

/-- `atol` -/
def LoadContext.atol (text : String) : ℤ := (strtol ctx.platform text.toList).1

/-- `get_src_dir` -/
def LoadContext.getSrcDir : String := ctx.workDir ++ "/src"

/-- The local path of a submission. -/
def LoadContext.sourcePath (sbmId : String) : String :=
  snprintf bufferSize (ctx.getSrcDir ++ "/" ++ sbmId)

/-- The commands that `fetch_file` gives to `system`. -/
def NetworkManager.commands (net : NetworkManager) (serverPath localDir : String) : List String :=
  match net.mMode with
  | .noMode => []
  | _ => [net.cmd serverPath localDir]

/-- A round of the loop over the rows; `none` if `atol` or `strcasecmp` is given `NULL`. What
`fetch_file` returns is not looked at. -/
def fetchRow (s : FetchState) (row : FetchedRow) : Option FetchState :=
  match row.sbmId, row.problemPbmId, row.sbmLang with
  | some sbmId, some problemPbmId, some sbmLang => some
    { submit := { s.submit with
        sbmId := ctx.atol sbmId
        sbmProbId := ctx.atol problemPbmId
        sbmLang := pickLang sbmLang
        sbmSourceFile := ctx.sourcePath sbmId
        sbmJudgeSet := NojJudgeMode.release.bits }
      -- a path that is `NULL` is printed
      commands := s.commands ++
        ctx.network.commands (row.sbmPath.getD "(null)") (ctx.sourcePath sbmId) }
  | _, _, _ => none

/-- A round of the polling loop. The result sets after the first are freed. -/
def pollRound (s : FetchState) : FetchReply → LoopFlow DaemonExit FetchState
  | .error => .fault .failure
  | .results sets =>
    if sets.first.length ≠ 0 then
      match sets.first.foldlM (fetchRow ctx) s with
      | some s => .stop s
      | none => .fault .crash
    else .next s

/-- `fetch_submission_from_db` -/
def fetchSubmissionFromDb (submit : Submission) (replies : List FetchReply) :
    Outcome DaemonExit (FetchState × List FetchReply) :=
  runLoop (pollRound ctx) ⟨submit, []⟩ replies

theorem length_lt_of_fetchSubmissionFromDb {ctx : LoadContext} {submit : Submission}
    {replies rest : List FetchReply} {s : FetchState}
    (h : fetchSubmissionFromDb ctx submit replies = .ret (s, rest)) :
    rest.length < replies.length := by
  obtain ⟨seen, rfl, hseen⟩ := exists_read_of_runLoop (I := fun _ _ => True)
    (P := fun seen _ => seen ≠ []) (fun _ _ _ _ _ _ => trivial)
    (fun _ _ _ _ _ _ => List.concat_ne_nil _ _) trivial h
  have hpos := List.length_pos_of_ne_nil hseen
  rw [List.length_append]
  omega

/-! ### Adding the tasks -/

/-- The tasks that `loop_routine` adds for a submission. -/
def tasksOf (submit : Submission) : List Submission :=
  [NojJudgeMode.debug, .release].filterMap fun mode =>
    if submit.hasMode mode then some { submit with sbmCurMode := mode } else none

/-- The tasks that `loop_routine` adds while the server answers, from the given round on. -/
def addTasks (leftover : ℕ → ℤ) (n : ℕ) (replies : List FetchReply) : List Submission :=
  match _ : fetchSubmissionFromDb ctx (.unfetched (leftover n)) replies with
  | .ret (s, rest) => tasksOf s.submit ++ addTasks leftover (n + 1) rest
  | .fault _ => []
  | .pending => []
termination_by replies.length
decreasing_by exact length_lt_of_fetchSubmissionFromDb ‹_›

end Fetching

/-! ### What the server delivers -/

/-- No column that is read as a text is `NULL`. -/
def FetchedRow.Complete (row : FetchedRow) : Prop :=
  row.sbmId ≠ none ∧ row.problemPbmId ≠ none ∧ row.sbmLang ≠ none

instance : DecidablePred FetchedRow.Complete := fun _ => inferInstanceAs (Decidable (_ ∧ _))

/-- Nor is one in the first result set. -/
def ResultSets.Complete (sets : ResultSets) : Prop := ∀ row ∈ sets.first, row.Complete

instance : DecidablePred ResultSets.Complete :=
  fun sets => inferInstanceAs (Decidable (∀ row ∈ sets.first, row.Complete))

/-- The results that the daemon is given, until an error or a `NULL` ends it. -/
def answered : List FetchReply → List ResultSets
  | .results sets :: replies => sets :: if sets.Complete then answered replies else []
  | _ => []

/-- The rows of all the result sets. -/
def ResultSets.rows (sets : ResultSets) : List FetchedRow := sets.first ++ sets.others.flatten

/-- The rows that the daemon is given. -/
def delivered (replies : List FetchReply) : List FetchedRow :=
  (answered replies).flatMap ResultSets.rows

/-- The name of a language in a row. -/
def NojLanguage.name? : NojLanguage → Option String
  | .unkown => none
  | .c => some "C"
  | .cpp => some "CPP"
  | .java => some "Java"
  | .pascal => some "Pascal"

/-- The text names the language, in any case of letters. -/
def Names (text : String) (lang : NojLanguage) : Prop :=
  ∃ name ∈ lang.name?, text.toList.map Char.toLower = name.toList.map Char.toLower

/-- **The task carries what the row says**: the numbers that its identities write, and the language
that it names. -/
structure TaskOf (row : FetchedRow) (task : Submission) : Prop where
  sbmId : ∃ text ∈ row.sbmId, Decimal text.toList task.sbmId
  sbmProbId : ∃ text ∈ row.problemPbmId, Decimal text.toList task.sbmProbId
  sbmLang : ∃ text ∈ row.sbmLang, Names text task.sbmLang

/-- **Each row becomes one task**, in the order of the rows. -/
def TasksFollowRows (ctx : LoadContext) (leftover : ℕ → ℤ) (replies : List FetchReply) : Prop :=
  List.Forall₂ TaskOf (delivered replies) (addTasks ctx leftover 0 replies)

/-- There is one row at most, in the first result set. -/
def ResultSets.OneRow (sets : ResultSets) : Prop :=
  sets.first.length ≤ 1 ∧ sets.others.flatten = []

/-- The column holds a decimal numeral, of a number that fits a `long`. -/
def LongColumn (pf : Platform) (column : Option String) : Prop :=
  ∃ text ∈ column, ∃ x, Decimal text.toList x ∧ pf.longMin ≤ x ∧ x ≤ pf.longMax

/-- **The row can be carried**: its identities fit, and its language is C, CPP or Java. -/
structure FetchedRow.Fits (pf : Platform) (row : FetchedRow) : Prop where
  sbmId : LongColumn pf row.sbmId
  problemPbmId : LongColumn pf row.problemPbmId
  sbmLang : ∃ text ∈ row.sbmLang, ∃ lang, lang ≠ .pascal ∧ Names text lang

/-! ### The task of a call -/

section Tasks

variable {ctx : LoadContext} {leftover : ℕ → ℤ} {n : ℕ} {s s' : FetchState} {row : FetchedRow}
  {rows : List FetchedRow} {sets : ResultSets} {replies rest : List FetchReply}
  {submit task : Submission} {text : String}

/-- The task for a row. -/
def taskOfRow (ctx : LoadContext) (leftover : ℤ) (row : FetchedRow) : Option Submission :=
  (fetchRow ctx ⟨.unfetched leftover, []⟩ row).map fun s =>
    { s.submit with sbmCurMode := .release }

theorem exists_fetchRow_iff (ctx : LoadContext) (s : FetchState) :
    (∃ s', fetchRow ctx s row = some s') ↔ row.Complete := by
  rcases row with ⟨_ | sbmId, _ | probId, path, _ | lang⟩ <;>
    simp [fetchRow, FetchedRow.Complete]

/-- A round overwrites what the rounds before have read. -/
theorem fetchRow_submit_congr {t t' : FetchState} {row' : FetchedRow}
    (ht : fetchRow ctx s row' = some t) (h : fetchRow ctx t row = some t')
    (hs : fetchRow ctx s row = some s') : t'.submit = s'.submit := by
  rcases row with ⟨_ | sbmId, _ | probId, path, _ | lang⟩
  all_goals try cases hs
  rcases row' with ⟨_ | sbmId', _ | probId', path', _ | lang'⟩
  all_goals try cases ht
  cases h
  rfl

/-- **Each row overwrites the one before.** -/
theorem foldlM_fetchRow_submit {t : FetchState}
    (h : (rows ++ [row]).foldlM (fetchRow ctx) s = some t) (hs : fetchRow ctx s row = some s') :
    t.submit = s'.submit := by
  suffices hlast : ∀ u t, rows.foldlM (fetchRow ctx) s = some u → fetchRow ctx u row = some t →
      t.submit = s'.submit by
    rw [List.foldlM_append] at h
    obtain ⟨u, hu, ht⟩ := Option.bind_eq_some_iff.mp h
    exact hlast u t hu (by simpa using ht)
  clear h t
  induction rows using List.reverseRecOn with
  | nil =>
    intro u t hu ht
    obtain rfl : s = u := Option.some.inj hu
    obtain rfl : t = s' := Option.some.inj (ht.symm.trans hs)
    rfl
  | append_singleton rows r ih =>
    intro t t' ht ht'
    rw [List.foldlM_append] at ht
    obtain ⟨u, hu, hr⟩ := Option.bind_eq_some_iff.mp ht
    obtain ⟨u', hu'⟩ := (exists_fetchRow_iff ctx u).mpr
      ((exists_fetchRow_iff ctx s).mp ⟨s', hs⟩)
    exact (fetchRow_submit_congr (by simpa using hr) ht' hu').trans (ih u u' hu hu')

/-- The rows are read unless a column is `NULL`. -/
theorem exists_foldlM_fetchRow_iff (ctx : LoadContext) (s : FetchState) :
    (∃ t, rows.foldlM (fetchRow ctx) s = some t) ↔ ∀ row ∈ rows, row.Complete := by
  induction rows generalizing s with
  | nil => simp
  | cons row rows ih =>
    rw [List.forall_mem_cons, ← exists_fetchRow_iff ctx s, List.foldlM_cons]
    constructor
    · rintro ⟨t, ht⟩
      obtain ⟨u, hu, hrest⟩ := Option.bind_eq_some_iff.mp ht
      exact ⟨⟨u, hu⟩, (ih u).mp ⟨t, hrest⟩⟩
    · rintro ⟨⟨u, hu⟩, hrest⟩
      obtain ⟨t, ht⟩ := (ih u).mpr hrest
      exact ⟨t, Option.bind_eq_some_iff.mpr ⟨u, hu, ht⟩⟩

/-- The commands that download the submission of a row. -/
def downloadOf (ctx : LoadContext) (row : FetchedRow) : List String :=
  ctx.network.commands (row.sbmPath.getD "(null)") (ctx.sourcePath (row.sbmId.getD ""))

/-- Though each is downloaded. -/
theorem foldlM_fetchRow_commands (h : rows.foldlM (fetchRow ctx) s = some s') :
    s'.commands = s.commands ++ rows.flatMap (downloadOf ctx) := by
  induction rows generalizing s with
  | nil =>
    obtain rfl : s = s' := Option.some.inj h
    simp
  | cons row rows ih =>
    rw [List.foldlM_cons] at h
    obtain ⟨u, hu, hrest⟩ := Option.bind_eq_some_iff.mp h
    have hcommands : u.commands = s.commands ++ downloadOf ctx row := by
      rcases row with ⟨_ | sbmId, _ | probId, path, _ | lang⟩
      all_goals try cases hu
      rfl
    rw [ih hrest, hcommands, List.flatMap_cons, List.append_assoc]

/-- A submission that is fetched is to be judged in release mode only. -/
theorem hasMode_fetchRow (h : fetchRow ctx s row = some s') (mode : NojJudgeMode) :
    s'.submit.hasMode mode = decide (mode = .release) := by
  have hset : s'.submit.sbmJudgeSet = NojJudgeMode.release.bits := by
    rcases row with ⟨_ | sbmId, _ | probId, path, _ | lang⟩
    all_goals try cases h
    rfl
  rw [Submission.hasMode, hset]
  cases mode <;> decide

theorem tasksOf_fetchRow (h : fetchRow ctx s row = some s') :
    tasksOf s'.submit = [{ s'.submit with sbmCurMode := .release }] := by
  simp [tasksOf, hasMode_fetchRow h]

/-- The tasks for the results of a call: one for the last row of the first result set. -/
def replyTasks (ctx : LoadContext) (sets : ResultSets) : List Submission :=
  if sets.Complete then (sets.first.getLast?.bind (taskOfRow ctx 0)).toList else []

theorem addTasks_error : addTasks ctx leftover n (.error :: replies) = [] := by
  rw [addTasks]
  rfl

theorem addTasks_empty (h : sets.first = []) :
    addTasks ctx leftover n (.results sets :: replies) = addTasks ctx leftover n replies := by
  have hround : ∀ s, pollRound ctx s (.results sets) = .next s := by
    intro s
    rw [pollRound, h]
    rfl
  have hfetch : ∀ submit, fetchSubmissionFromDb ctx submit (.results sets :: replies) =
      fetchSubmissionFromDb ctx submit replies := fun submit => runLoop_cons_next (hround _)
  rw [addTasks, addTasks, hfetch]

theorem ne_nil_of_not_complete (h : ¬sets.Complete) : sets.first ≠ [] := by
  intro hnil
  exact h fun row hrow => absurd (hnil ▸ hrow) List.not_mem_nil

theorem addTasks_crash (h : ¬sets.Complete) :
    addTasks ctx leftover n (.results sets :: replies) = [] := by
  have hnone : sets.first.foldlM (fetchRow ctx) ⟨.unfetched (leftover n), []⟩ = none := by
    by_contra hsome
    exact h ((exists_foldlM_fetchRow_iff ctx _).mp (Option.ne_none_iff_exists'.mp hsome))
  have hfetch : fetchSubmissionFromDb ctx (.unfetched (leftover n)) (.results sets :: replies) =
      .fault .crash := by
    refine runLoop_cons_fault ?_
    rw [pollRound, if_pos (by simpa using ne_nil_of_not_complete h), hnone]
  rw [addTasks, hfetch]

theorem addTasks_found (h : sets.first ≠ []) (hcomplete : sets.Complete) :
    addTasks ctx leftover n (.results sets :: replies) =
      replyTasks ctx sets ++ addTasks ctx leftover (n + 1) replies := by
  obtain ⟨rows, row, hrows⟩ := (List.eq_nil_or_concat' sets.first).resolve_left h
  have hrow : row.Complete := hcomplete row (by simp [hrows])
  obtain ⟨s, hs⟩ := (exists_foldlM_fetchRow_iff ctx ⟨.unfetched (leftover n), []⟩).mpr hcomplete
  have hfetch : fetchSubmissionFromDb ctx (.unfetched (leftover n)) (.results sets :: replies) =
      .ret (s, replies) := by
    refine runLoop_cons_stop ?_
    rw [pollRound, if_pos (by simpa using h), hs]
  obtain ⟨t, ht⟩ := (exists_fetchRow_iff ctx ⟨.unfetched (leftover n), []⟩).mpr hrow
  rw [hrows] at hs
  have hsubmit : s.submit = t.submit := foldlM_fetchRow_submit hs ht
  have htask : taskOfRow ctx 0 row = some { t.submit with sbmCurMode := .release } := by
    rcases row with ⟨_ | sbmId, _ | probId, path, _ | lang⟩
    all_goals try cases ht
    rfl
  rw [addTasks, hfetch]
  dsimp only
  rw [hsubmit, tasksOf_fetchRow ht, replyTasks, if_pos hcomplete, hrows, List.getLast?_concat,
    Option.bind_some, htask]
  rfl

/-- **Run lemma**: the tasks are those of the calls, one after another. -/
theorem addTasks_eq : addTasks ctx leftover n replies =
    (answered replies).flatMap (replyTasks ctx) := by
  induction replies generalizing n with
  | nil =>
    rw [addTasks]
    rfl
  | cons reply replies ih =>
    cases reply with
    | error =>
      rw [addTasks_error]
      rfl
    | results sets =>
      rw [answered, List.flatMap_cons]
      by_cases hcomplete : sets.Complete
      · rw [if_pos hcomplete]
        by_cases hfirst : sets.first = []
        · rw [addTasks_empty hfirst, ih, replyTasks, if_pos hcomplete, hfirst]
          rfl
        · rw [addTasks_found hfirst hcomplete, ih]
      · rw [addTasks_crash hcomplete, if_neg hcomplete, replyTasks, if_neg hcomplete]
        rfl

/-! ### What a task carries -/

/-- A number is read as it is exactly if it fits. -/
theorem strtol_eq_value_iff {pf : Platform} {cs : List Char} :
    (strtol pf cs).1 = (scanNumeral cs).value ↔
      pf.longMin ≤ (scanNumeral cs).value ∧ (scanNumeral cs).value ≤ pf.longMax := by
  have hvalue : (scanNumeral cs).value = if (scanNumeral cs).neg then
    -((scanNumeral cs).magnitude : ℤ) else (scanNumeral cs).magnitude := rfl
  have hpos : (0 : ℤ) < 2 ^ (pf.wordBits - 1) := Int.pow_pos (by decide)
  have hword : (2 : ℤ) ^ pf.wordBits = 2 * 2 ^ (pf.wordBits - 1) ∨
      (2 : ℤ) ^ pf.wordBits = 1 ∧ (2 : ℤ) ^ (pf.wordBits - 1) = 1 := by
    cases pf.wordBits with
    | zero => exact Or.inr ⟨rfl, rfl⟩
    | succ k => exact Or.inl (Int.pow_succ' 2 k)
  by_cases hfits : pf.FitsLong (scanNumeral cs).value
  · rw [strtol_of_fitsLong hfits]
    obtain ⟨hlow, hhigh⟩ := hfits
    rw [Platform.longMin, Platform.longMax]
    omega
  · have hconv : strtol pf cs = (if (scanNumeral cs).neg then pf.longMin else pf.longMax, true) :=
      if_neg hfits
    rw [hconv]
    simp only [Platform.FitsLong, Platform.longMin, Platform.longMax] at hfits ⊢
    cases hneg : (scanNumeral cs).neg with
    | true =>
      rw [hneg, if_pos rfl] at hvalue
      rw [if_pos rfl]
      omega
    | false =>
      rw [hneg, if_neg (by decide)] at hvalue
      rw [if_neg (by decide)]
      omega

/-- `atol` reads a numeral exactly if its number fits. -/
theorem decimal_atol_iff : Decimal text.toList (ctx.atol text) ↔
    ∃ x, Decimal text.toList x ∧ ctx.platform.longMin ≤ x ∧ x ≤ ctx.platform.longMax := by
  constructor
  · intro h
    have hvalue := h.scanNumeral.1
    exact ⟨_, h, by simpa only [hvalue] using strtol_eq_value_iff.mp hvalue.symm⟩
  · rintro ⟨x, hx, hfits⟩
    obtain rfl := hx.scanNumeral.1
    rw [LoadContext.atol, strtol_eq_value_iff.mpr hfits]
    exact hx

/-- A text that names a language has no zero byte. -/
theorem strcasecmpEq_of_names {name other : String}
    (h : text.toList.map Char.toLower = name.toList.map Char.toLower)
    (hzero : ∀ c ∈ name.toList.map Char.toLower, c.toNat ≠ 0) :
    strcasecmpEq text other =
      (name.toList.map Char.toLower ==
        (other.toList.takeWhile fun c => c.toNat ≠ 0).map Char.toLower) := by
  have hall : ∀ c ∈ text.toList, decide (c.toNat ≠ 0) = true := by
    intro c hc
    have hlower := hzero c.toLower (h ▸ List.mem_map_of_mem hc)
    rw [decide_eq_true_eq]
    intro hc0
    obtain rfl : c = Char.ofNat 0 := Char.ext (UInt32.toNat_inj.mp hc0)
    exact hlower (by decide)
  simp only [strcasecmpEq, List.takeWhile_eq_self_iff.mpr hall, h]

/-- `pick_lang` finds the language that is named, if it is not Pascal. -/
theorem names_pickLang_iff :
    Names text (pickLang text) ↔ ∃ lang, lang ≠ .pascal ∧ Names text lang := by
  constructor
  · intro h
    refine ⟨_, ?_, h⟩
    rw [pickLang]
    split_ifs <;> decide
  · rintro ⟨lang, hlang, name, hname, hsame⟩
    have hzero : ∀ c ∈ name.toList.map Char.toLower, c.toNat ≠ 0 := by
      cases lang <;> cases hname <;> simp
    have hpick : pickLang text = lang := by
      simp only [pickLang, strcasecmpEq_of_names hsame hzero]
      cases lang <;> cases hname <;> first | rfl | exact absurd rfl hlang
    exact hpick ▸ ⟨name, hname, hsame⟩

theorem taskOf_taskOfRow_iff (h : taskOfRow ctx 0 row = some task) :
    TaskOf row task ↔ row.Fits ctx.platform := by
  rcases row with ⟨_ | sbmId, _ | probId, path, _ | lang⟩
  all_goals try cases h
  have hcolumn : ∀ {text : String} {P : String → Prop}, (∃ t ∈ some text, P t) ↔ P text := by simp
  constructor
  · rintro ⟨hid, hprob, hlang⟩
    exact ⟨hcolumn.mpr (decimal_atol_iff.mp (hcolumn.mp hid)),
      hcolumn.mpr (decimal_atol_iff.mp (hcolumn.mp hprob)),
      hcolumn.mpr (names_pickLang_iff.mp (hcolumn.mp hlang))⟩
  · rintro ⟨hid, hprob, hlang⟩
    exact ⟨hcolumn.mpr (decimal_atol_iff.mpr (hcolumn.mp hid)),
      hcolumn.mpr (decimal_atol_iff.mpr (hcolumn.mp hprob)),
      hcolumn.mpr (names_pickLang_iff.mpr (hcolumn.mp hlang))⟩

/-! ### When each row becomes a task -/

theorem exists_taskOfRow_iff (ctx : LoadContext) :
    (∃ task, taskOfRow ctx 0 row = some task) ↔ row.Complete := by
  rw [← exists_fetchRow_iff ctx ⟨.unfetched 0, []⟩]
  simp [taskOfRow]

theorem length_replyTasks_le : (replyTasks ctx sets).length ≤ sets.rows.length := by
  rw [replyTasks, ResultSets.rows, List.length_append]
  split
  · rcases List.eq_nil_or_concat' sets.first with hfirst | ⟨rows, row, hfirst⟩
    · simp [hfirst]
    · rw [hfirst, List.getLast?_concat, Option.bind_some, List.length_append]
      cases taskOfRow ctx 0 row with
      | none => simp
      | some task =>
        simp
        omega
  · exact Nat.zero_le _

/-- As many tasks as rows: there is no row, or one that is read. -/
theorem length_replyTasks_eq_iff :
    (replyTasks ctx sets).length = sets.rows.length ↔ sets.OneRow ∧ sets.Complete := by
  by_cases hcomplete : sets.Complete
  · rw [replyTasks, if_pos hcomplete, ResultSets.rows, ResultSets.OneRow, List.length_append,
      ← List.length_eq_zero_iff]
    rcases List.eq_nil_or_concat' sets.first with hfirst | ⟨rows, row, hfirst⟩
    · simp [hfirst, hcomplete, eq_comm]
    · obtain ⟨task, htask⟩ := (exists_taskOfRow_iff ctx).mpr
        (hcomplete row (by simp [hfirst]))
      simp only [hfirst, List.getLast?_concat, Option.bind_some, htask, Option.toList_some,
        List.length_append, List.length_singleton, hcomplete, and_true]
      omega
  · have hne := List.length_pos_of_ne_nil (ne_nil_of_not_complete hcomplete)
    rw [replyTasks, if_neg hcomplete, ResultSets.rows, List.length_append, List.length_nil]
    exact iff_of_false (by omega) fun h => hcomplete h.2

/-- With one row at most it is the row of the task. -/
theorem forall₂_replyTasks_iff (hone : sets.OneRow) (hcomplete : sets.Complete) :
    List.Forall₂ TaskOf sets.rows (replyTasks ctx sets) ↔
      ∀ row ∈ sets.first, row.Fits ctx.platform := by
  obtain ⟨hfirst, hothers⟩ := hone
  rw [ResultSets.rows, hothers, List.append_nil, replyTasks, if_pos hcomplete]
  cases hcases : sets.first with
  | nil => simp
  | cons row rows =>
    rw [hcases, List.length_cons] at hfirst
    obtain rfl : rows = [] := List.length_eq_zero_iff.mp (by omega)
    obtain ⟨task, htask⟩ := (exists_taskOfRow_iff ctx).mpr
      (hcomplete row (by simp [hcases]))
    simp [htask, taskOf_taskOfRow_iff htask]

theorem length_flatMap_replyTasks_le (ctx : LoadContext) (calls : List ResultSets) :
    (calls.flatMap (replyTasks ctx)).length ≤ (calls.flatMap ResultSets.rows).length := by
  induction calls with
  | nil => exact le_rfl
  | cons sets calls ih =>
    simp only [List.flatMap_cons, List.length_append]
    exact Nat.add_le_add length_replyTasks_le ih

/-- A row that can be carried is read. -/
theorem FetchedRow.Fits.complete {pf : Platform} (h : row.Fits pf) : row.Complete := by
  obtain ⟨⟨_, hid, -⟩, ⟨_, hprob, -⟩, ⟨_, hlang, -⟩⟩ := h
  simp [FetchedRow.Complete, Option.mem_def.mp hid, Option.mem_def.mp hprob,
    Option.mem_def.mp hlang]

/-- **The calls one by one**: rows and tasks correspond in all if they do for each call. -/
theorem forall₂_calls_iff (calls : List ResultSets) :
    List.Forall₂ TaskOf (calls.flatMap ResultSets.rows) (calls.flatMap (replyTasks ctx)) ↔
      ∀ sets ∈ calls, sets.OneRow ∧ ∀ row ∈ sets.first, row.Fits ctx.platform := by
  induction calls with
  | nil => simp
  | cons sets calls ih =>
    rw [List.flatMap_cons, List.flatMap_cons, List.forall_mem_cons, ← ih]
    constructor
    · intro h
      -- no call has more tasks than rows, so that each has as many
      have hlength := h.length_eq
      rw [List.length_append, List.length_append] at hlength
      have hone : (replyTasks ctx sets).length ≤ sets.rows.length := length_replyTasks_le
      have hrest := length_flatMap_replyTasks_le ctx calls
      have hfirst : (replyTasks ctx sets).length = sets.rows.length := by omega
      obtain ⟨honeRow, hcomplete⟩ := length_replyTasks_eq_iff.mp hfirst
      have htake := List.forall₂_take_append _ _ _ h
      have hdrop := List.forall₂_drop_append _ _ _ h
      rw [hfirst, List.take_left' rfl] at htake
      rw [hfirst, List.drop_left' rfl] at hdrop
      exact ⟨⟨honeRow, (forall₂_replyTasks_iff honeRow hcomplete).mp htake⟩, hdrop⟩
    · rintro ⟨⟨hone, hfits⟩, hrest⟩
      have hcomplete : sets.Complete := fun row hrow => (hfits row hrow).complete
      exact List.rel_append ((forall₂_replyTasks_iff hone hcomplete).mpr hfits) hrest

end Tasks

/-- **When each row becomes one task**, which carries what the row says: exactly if every call, up
to the first that ends the daemon, returns one row at most, in its first result set, with
identities that fit a `long` and with the language C, CPP or Java. -/
theorem tasksFollowRows_iff (ctx : LoadContext) (leftover : ℕ → ℤ) (replies : List FetchReply) :
    TasksFollowRows ctx leftover replies ↔
      ∀ sets ∈ answered replies, sets.OneRow ∧ ∀ row ∈ sets.first, row.Fits ctx.platform := by
  rw [TasksFollowRows, addTasks_eq, delivered]
  exact forall₂_calls_iff _

/-- A call with two rows: the first of the two submissions is never judged. A row in Pascal: its
task has no language. And a row whose language is `NULL`, with which the daemon ends. -/
theorem not_tasksFollowRows_twoRows :
    ¬TasksFollowRows nojContext (fun _ => 0)
      [.results ⟨[⟨some "7", some "1000", some "7.c", some "C"⟩,
        ⟨some "8", some "1000", some "8.c", some "CPP"⟩], []⟩] ∧
    ¬TasksFollowRows nojContext (fun _ => 0)
      [.results ⟨[⟨some "7", some "1000", some "7.p", some "Pascal"⟩], []⟩] ∧
    ¬TasksFollowRows nojContext (fun _ => 0)
      [.results ⟨[⟨some "7", some "1000", some "7.c", none⟩], []⟩] := by
  refine ⟨fun h => ?_, fun h => ?_, fun h => ?_⟩
  · have hlength := h.length_eq
    rw [addTasks_eq] at hlength
    exact absurd hlength (by decide)
  · rw [TasksFollowRows, addTasks_eq] at h
    cases h with
    | cons htask _ =>
      obtain ⟨text, -, name, hname, -⟩ := htask.sbmLang
      cases hname
  · have hlength := h.length_eq
    rw [addTasks_eq] at hlength
    exact absurd hlength (by decide)

/-! ### The tasks in the daemon -/

section Daemon

variable {ctx : LoadContext} {N : ℕ} {ι : Type*} {submit : Submission} {s : FetchState}
  {replies rest : List FetchReply}

/-- The two steps of the main loop that add tasks add these. -/
theorem queTasks_addMode (s : LoopState N ι) (submit : Submission) (next next' : MainLoc) :
    ((s.addMode submit .debug next).addMode submit .release next').queTasks =
      s.queTasks ++ tasksOf submit := by
  cases hdebug : submit.hasMode .debug <;> cases hrelease : submit.hasMode .release <;>
    simp [LoopState.addMode, tasksOf, hdebug, hrelease]

/-- The polling loop ends with a row. -/
theorem exists_row_of_pollRound {s' : FetchState} {reply : FetchReply}
    (h : pollRound ctx s reply = .stop s') :
    ∃ row s₀ t, fetchRow ctx s₀ row = some t ∧ s'.submit = t.submit := by
  cases reply with
  | error => cases h
  | results sets =>
    rw [pollRound] at h
    split at h
    · next hne =>
      split at h
      · next t ht =>
        obtain rfl := LoopFlow.stop.inj h
        obtain ⟨rows, row, hrows⟩ := (List.eq_nil_or_concat' sets.first).resolve_left
          fun hnil => hne (by rw [hnil]; rfl)
        have hrow : row.Complete := (exists_foldlM_fetchRow_iff ctx s).mp ⟨t, ht⟩ row
          (by simp [hrows])
        obtain ⟨u, hu⟩ := (exists_fetchRow_iff ctx s).mpr hrow
        exact ⟨row, s, u, hu, foldlM_fetchRow_submit (hrows ▸ ht) hu⟩
      · cases h
    · cases h

/-- What is fetched comes from a row. -/
theorem exists_row_of_fetched (h : fetchSubmissionFromDb ctx submit replies = .ret (s, rest)) :
    ∃ row s₀ t, fetchRow ctx s₀ row = some t ∧ s.submit = t.submit := by
  obtain ⟨seen, -, hrow⟩ := exists_read_of_runLoop (I := fun _ _ => True)
    (P := fun _ s => ∃ row s₀ t, fetchRow ctx s₀ row = some t ∧ s.submit = t.submit)
    (fun _ _ _ _ _ _ => trivial) (fun _ _ _ _ _ hstop => exists_row_of_pollRound hstop) trivial h
  exact hrow

/-- **What is fetched is to be judged in one mode**, which is what the balance of permits asks of
the main loop. -/
theorem fetchesOneMode (state : LoopState N ι)
    (h : fetchSubmissionFromDb ctx submit replies = .ret (s, rest)) :
    FetchesOneMode state (.fetched s.submit) := by
  obtain ⟨row, s₀, t, ht, hs⟩ := exists_row_of_fetched h
  refine Or.inr ?_
  rw [hs, hasMode_fetchRow ht, hasMode_fetchRow ht]
  exact ⟨rfl, rfl⟩

/-- The task for a row whose identity is written the usual way is the one that the workers are
given in `NpuOj.judgeTask_nullDeref_iff`. -/
theorem taskOfRow_eq_submissionOfRow (leftover : ℤ) {sbmId problemPbmId sbmLang : String}
    (path : Option String) (h : toString (ctx.atol sbmId) = sbmId) :
    taskOfRow ctx leftover ⟨some sbmId, some problemPbmId, path, some sbmLang⟩ =
      some (submissionOfRow ctx ⟨ctx.atol sbmId, ctx.atol problemPbmId, sbmLang⟩) := by
  have hpath : ctx.sourcePath sbmId =
      snprintf bufferSize (ctx.workDir ++ "/src/" ++ toString (ctx.atol sbmId)) := by
    have hslash : "/src/" = "/src" ++ "/" := by decide +kernel
    rw [LoadContext.sourcePath, LoadContext.getSrcDir, h, hslash, ← String.append_assoc]
  simp only [taskOfRow, fetchRow, submissionOfRow, hpath, Submission.unfetched, Option.map_some]

end Daemon

end NpuOj
