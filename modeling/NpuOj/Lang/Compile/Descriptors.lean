import NpuOj.Lang.Compile
import NpuOj.Lib.Pipes

/-!
# The descriptors that compiling leaves open

`LangCDebug::compile` makes a pipe, of which the parent closes its end for writing, and only
where there is a child. Nothing closes the end for reading. So every call that makes a pipe
leaves a descriptor behind, or two where `fork` fails, and after enough calls there is none to
be had for a pipe: `NpuOj.compile_of_pipe_none` is what the contestants are told then.

`NpuOj.compilesIn` is a number of calls one after the other in one process, and
`NpuOj.compilesIn_fds_iff` says when they leave its descriptors as they were.
-/

namespace NpuOj

open Posix Outcome

/-- A call of `compile`, with what the world answers to it while there are descriptors. -/
structure CompileCall where
  lang : LangCDebug
  submit : Submission
  rl : ResourceLimit
  reply : CompileReply

variable {pf : Platform} {call : CompileCall} {calls : List CompileCall} {t t' : FdTable}
  {r w : ℕ} {results : List Result}

namespace CompileCall

/-- What the world answers in a process with the given descriptors: `pipe` fails where there
are not two to be had. -/
def answer (call : CompileCall) (t : FdTable) : CompileReply := fun path rl =>
  let run := call.reply path rl
  if t.pipe.isSome then run else { run with pipe := -1 }

/-- The descriptors after the call. -/
def fdsAfter (call : CompileCall) (t : FdTable) : FdTable :=
  match call.lang.compileScriptPath with
  | none => t
  | some path =>
    let run := call.reply path call.rl
    if run.pipe ≠ 0 then t
    else match t.pipe with
      | none => t
      | some (_, w, t') => match run.pid with
        -- neither end is closed
        | none => t'
        -- the end for reading is not closed
        | some _ => t'.close w

/-- The call comes to make a pipe, and nothing but a lack of descriptors makes that fail. -/
def MakesPipe (call : CompileCall) : Prop :=
  ∃ path ∈ call.lang.compileScriptPath, (call.reply path call.rl).pipe = 0

end CompileCall

/-- `LangCDebug::compile` in a process with the given descriptors. -/
def compileIn (pf : Platform) (call : CompileCall) (t : FdTable) :
    Outcome Fault (Result × FdTable) :=
  (compile pf call.lang call.submit call.rl (call.answer t)).bind fun res =>
    .ret (res, call.fdsAfter t)

/-- A number of calls, one after the other. -/
def compilesIn (pf : Platform) : List CompileCall → FdTable → Outcome Fault (List Result × FdTable)
  | [], t => .ret ([], t)
  | call :: calls, t =>
    (compileIn pf call t).bind fun x =>
      (compilesIn pf calls x.2).bind fun y => .ret (x.1 :: y.1, y.2)

/-- Without two descriptors to be had, every call ends with a system error. -/
theorem compile_of_pipe_none {path : String} (hscript : call.lang.compileScriptPath = some path)
    (hpipe : t.pipe = none) :
    compile pf call.lang call.submit call.rl (call.answer t) =
      .ret { Result.ofSubmission call.submit with
        resType := .systemError, resContent := ascii "Compile: Create pipe error" } := by
  simp [compile, hscript, CompileCall.answer, hpipe]

/-! ### One call -/

/-- A call that makes no pipe changes nothing. -/
theorem fdsAfter_of_not_makesPipe (h : t.pipe = none ∨ ¬call.MakesPipe) : call.fdsAfter t = t := by
  rcases hscript : call.lang.compileScriptPath with _ | path
  · simp only [CompileCall.fdsAfter, hscript]
  by_cases hzero : (call.reply path call.rl).pipe = 0
  · have hpipe : t.pipe = none := h.resolve_right (not_not.mpr ⟨path, hscript, hzero⟩)
    simp only [CompileCall.fdsAfter, hscript, hzero, hpipe, ne_eq, not_true, if_false]
  · simp only [CompileCall.fdsAfter, hscript, ne_eq, hzero, not_false_eq_true, if_true]

/-- **A call that makes a pipe leaves a descriptor behind**, or two. -/
theorem card_fdsAfter_of_makesPipe (hpipe : t.pipe = some (r, w, t')) (h : call.MakesPipe) :
    (call.fdsAfter t).openFds.card = t.openFds.card + 1 ∨
      (call.fdsAfter t).openFds.card = t.openFds.card + 2 := by
  obtain ⟨path, hscript, hzero⟩ := h
  obtain ⟨hr, hw, -, hfds⟩ := FdTable.pipe_eq_some hpipe
  have hscript' : call.lang.compileScriptPath = some path := hscript
  simp only [CompileCall.fdsAfter, hscript', hzero, ne_eq, not_true, if_false, hpipe]
  split
  · right
    rw [hfds, Finset.card_insert_of_notMem hw, Finset.card_insert_of_notMem hr]
  · left
    change (t'.openFds.erase w).card = _
    rw [hfds, Finset.erase_insert hw, Finset.card_insert_of_notMem hr]

theorem card_le_card_fdsAfter (call : CompileCall) (t : FdTable) :
    t.openFds.card ≤ (call.fdsAfter t).openFds.card := by
  by_cases h : t.pipe = none ∨ ¬call.MakesPipe
  · rw [fdsAfter_of_not_makesPipe h]
  · rw [not_or, not_not] at h
    obtain ⟨⟨r, w, t'⟩, hpipe⟩ := Option.ne_none_iff_exists'.mp h.1
    rcases card_fdsAfter_of_makesPipe hpipe h.2 with hcard | hcard <;> omega

/-! ### A number of calls -/

/-- Without a call nothing changes. -/
theorem compilesIn_nil_eq_ret (h : compilesIn pf [] t = .ret (results, t')) : t = t' :=
  congrArg Prod.snd (ret.inj h)

/-- What a number of calls that return come to. -/
theorem compilesIn_cons_eq_ret
    (h : compilesIn pf (call :: calls) t = .ret (results, t')) :
    ∃ results', compilesIn pf calls (call.fdsAfter t) = .ret (results', t') := by
  obtain ⟨⟨res, t₁⟩, hcall, h⟩ := bind_eq_ret_iff.mp h
  obtain ⟨res', -, hfds⟩ := bind_eq_ret_iff.mp hcall
  obtain ⟨⟨results', t₂⟩, hcalls, h⟩ := bind_eq_ret_iff.mp h
  obtain ⟨-, rfl⟩ : res' = res ∧ call.fdsAfter t = t₁ := by simpa using hfds
  obtain ⟨-, rfl⟩ : res :: results' = results ∧ t₂ = t' := by simpa using h
  exact ⟨results', hcalls⟩

/-- No call gives a descriptor back that it has not taken. -/
theorem card_le_of_compilesIn (h : compilesIn pf calls t = .ret (results, t')) :
    t.openFds.card ≤ t'.openFds.card := by
  induction calls generalizing t results with
  | nil =>
    obtain rfl := compilesIn_nil_eq_ret h
    exact Nat.le_refl _
  | cons call calls ih =>
    obtain ⟨results', hcalls⟩ := compilesIn_cons_eq_ret h
    exact (card_le_card_fdsAfter call t).trans (ih hcalls)

/-- **When compiling leaves the descriptors as they were**: any number of calls that return
leave them so, and make no pipe fail that could have been made before, exactly if none of the
calls makes a pipe. -/
theorem compilesIn_fds_iff (pf : Platform) (calls : List CompileCall) (t t' : FdTable)
    (results : List Result) (h : compilesIn pf calls t = .ret (results, t')) :
    (t' = t ∧ (t'.pipe = none → t.pipe = none)) ↔
      t.pipe = none ∨ ∀ call ∈ calls, ¬call.MakesPipe := by
  induction calls generalizing t results with
  | nil =>
    obtain rfl := compilesIn_nil_eq_ret h
    simp
  | cons call calls ih =>
    obtain ⟨results', hcalls⟩ := compilesIn_cons_eq_ret h
    by_cases hmakes : t.pipe = none ∨ ¬call.MakesPipe
    · -- the call changes nothing, so that the others decide
      rw [fdsAfter_of_not_makesPipe hmakes] at hcalls
      rw [ih t results' hcalls, List.forall_mem_cons]
      tauto
    · -- the call leaves a descriptor, and none is given back
      obtain ⟨hpipe, hcall⟩ := not_or.mp hmakes
      rw [not_not] at hcall
      obtain ⟨⟨r, w, t₁⟩, hpipe'⟩ := Option.ne_none_iff_exists'.mp hpipe
      have hle := card_le_of_compilesIn hcalls
      refine iff_of_false ?_ ?_
      · rintro ⟨rfl, -⟩
        rcases card_fdsAfter_of_makesPipe hpipe' hcall with hcard | hcard <;> omega
      · rintro (hnone | hall)
        · exact hpipe hnone
        · exact hall call List.mem_cons_self hcall

/-- A submission that compiles. -/
def passingCall : CompileCall where
  lang := ⟨some "/usr/local/noj/scripts/compile_c_release.sh"⟩
  submit := .released 1000 7
  rl := {}
  reply _ _ := ⟨0, some 4242, some (.status 0), []⟩

/-- A process with three descriptors open that may have six. -/
def threeOfSix : FdTable := ⟨6, {0, 1, 2}, by decide⟩

/-- A submission for which there is no script. -/
def noScriptCall : CompileCall := { passingCall with lang := ⟨none⟩ }

/-- Without a script there is no pipe. -/
theorem compilesIn_fds_iff_noScript : ∃ results t',
    compilesIn lp64 [noScriptCall] threeOfSix = .ret (results, t') ∧
      t' = threeOfSix ∧ (t'.pipe = none → threeOfSix.pipe = none) := by
  have hnone : ∀ call ∈ [noScriptCall], ¬call.MakesPipe := by
    simp [noScriptCall, CompileCall.MakesPipe]
  exact ⟨_, _, rfl, (compilesIn_fds_iff lp64 [noScriptCall] threeOfSix _ _ rfl).mpr (Or.inr hnone)⟩

/-- **Three submissions that compile**, the third of which is told that its pipe could not be
made. -/
theorem compilesIn_threeSubmissions : ∃ results t',
    compilesIn lp64 [passingCall, passingCall, passingCall] threeOfSix = .ret (results, t') ∧
    results.map Result.resType = [.compilePass, .compilePass, .systemError] ∧
    threeOfSix.openFds = {0, 1, 2} ∧ t'.openFds = {0, 1, 2, 3, 4} := by
  refine ⟨_, _, rfl, rfl, rfl, ?_⟩
  decide

end NpuOj
