import NpuOj.Lang.Compile.Output
import NpuOj.Lib.Fairness
import NpuOj.Lib.Inheritance

/-!
# Compiling while other threads fork

The threads of the judge run their tasks in one process. Between the `pipe` of a call of
`LangCDebug::compile` and the moment its parent closes the end for writing, every other thread
that forks, be it to compile, to run a program or to run a command, hands the end for writing to
its child, which keeps it: nothing is marked to be closed on `exec`. The loop that reads what the
script has written ends only when nobody has the end for writing any more.

So a submission that does not compile waits for the children of other submissions, and what these
write to the descriptor stands in its message. `NpuOj.compile_returns_iff` says when the call comes
back, under a fair scheduler: a submission that compiles waits for its own script alone, one that
does not for all children that were forked in the meantime. `NpuOj.compile_message_iff` says when
the message is the one of its own script.

A child is here a process with those it starts itself; it ends with the status that it is given at
its fork, or never, if there is none. So `waitpid` returns when the last of them has ended, which
may be later than the end of the script alone. What a script does that has more to write than the
pipe holds is in `NpuOj.compileProcs`: it never ends.
-/

namespace NpuOj

/-! ### The threads and the children -/

/-- Where a thread is in `LangCDebug::compile`: with the number of the pipe, the number of forks at
the time of `pipe` (`first`) and of the `close` (`last`), and the child. -/
inductive CompileAt
  | outside
  /-- After `pipe`. -/
  | piped (p first : ℕ)
  /-- After `fork`, before the end for writing is closed. -/
  | forked (p first c : ℕ)
  /-- In `waitpid`. -/
  | waiting (p first last c : ℕ)
  /-- In the loop that reads, with what the reads have returned. -/
  | reading (p first last c : ℕ) (chunks : List Chunk)

/-- A step of a thread or of a child. -/
inductive CompilersStep (n : ℕ)
  | pipe (w : Fin n)
  | fork (w : Fin n) (status : Option ℤ)
  | forkFails (w : Fin n)
  | close (w : Fin n)
  /-- A thread forks elsewhere: in `launch`, or to run a command. -/
  | spawn (w : Fin n) (status : Option ℤ)
  /-- A child writes to a pipe. -/
  | write (j p : ℕ) (bytes : List UInt8)
  | ends (j : ℕ)
  /-- `waitpid` returns. -/
  | reap (w : Fin n)
  /-- A `read` returns some of the bytes in the pipe. -/
  | read (w : Fin n) (k : ℕ)
  /-- A `read` returns the end of the file. -/
  | eof (w : Fin n)

/-- The threads, the children and the pipes. -/
structure CompilersState (n : ℕ) where
  loc : Fin n → CompileAt
  /-- The ends for writing that the process and its children hold. -/
  fam : Family ℕ
  pipes : ℕ
  /-- The status with which a child ends, if it does. -/
  status : ℕ → Option ℤ
  content : ℕ → List UInt8
  /-- All that has been written to a pipe, and by which child. -/
  written : ℕ → List (ℕ × UInt8)

/-- Whose turn it is to make a step. -/
inductive CompilersParty (n : ℕ)
  | thread (w : Fin n)
  | child (j : ℕ)

/-- **The steps that are owed**: those of a call that has begun, and the end of a child. Nobody has
to begin a call, to fork elsewhere or to write. -/
def CompilersStep.OwedTo {n : ℕ} : CompilersParty n → CompilersStep n → Prop
  | .thread w, .fork v _ | .thread w, .forkFails v | .thread w, .close v | .thread w, .reap v
  | .thread w, .read v _ | .thread w, .eof v => v = w
  | .child j, .ends i => i = j
  | _, _ => False

/-- The pipe of a call. -/
def CompileAt.pipe? : CompileAt → Option ℕ
  | .outside => none
  | .piped p _ | .forked p _ _ | .waiting p _ _ _ | .reading p _ _ _ _ => some p

/-- The child of a call. -/
def CompileAt.child? : CompileAt → Option ℕ
  | .outside | .piped _ _ => none
  | .forked _ _ c | .waiting _ _ _ c | .reading _ _ _ c _ => some c

/-- What the reads of a call have returned. -/
def CompileAt.chunks : CompileAt → List Chunk
  | .reading _ _ _ _ chunks => chunks
  | _ => []

section Compilers

variable {n : ℕ}

namespace CompilersState

/-- Nobody compiles, and there are no children. -/
def start (n : ℕ) : CompilersState n where
  loc _ := .outside
  fam := .start ℕ
  pipes := 0
  status _ := none
  content _ := []
  written _ := []

def setLoc (s : CompilersState n) (w : Fin n) (l : CompileAt) : CompilersState n :=
  { s with loc := Function.update s.loc w l }

def newPipe (s : CompilersState n) : CompilersState n :=
  { s with fam := s.fam.acquire s.pipes, pipes := s.pipes + 1 }

def closeEnd (s : CompilersState n) (p : ℕ) : CompilersState n :=
  { s with fam := s.fam.release p }

def forkChild (s : CompilersState n) (status : Option ℤ) : CompilersState n :=
  { s with fam := s.fam.fork, status := Function.update s.status s.fam.forks status }

def bury (s : CompilersState n) (j : ℕ) : CompilersState n := { s with fam := s.fam.bury j }

def writeTo (s : CompilersState n) (j p : ℕ) (bytes : List UInt8) : CompilersState n :=
  { s with content := Function.update s.content p (s.content p ++ bytes)
           written := Function.update s.written p (s.written p ++ bytes.map (j, ·)) }

def drop (s : CompilersState n) (p k : ℕ) : CompilersState n :=
  { s with content := Function.update s.content p ((s.content p).drop k) }

/-- A step, for pipes of the given capacity. A `fork` that fails leaves both ends open. -/
def step (cap : ℕ) (s : CompilersState n) : CompilersStep n → Option (CompilersState n)
  | .pipe w => match s.loc w with
    | .outside => some (s.newPipe.setLoc w (.piped s.pipes s.fam.forks))
    | _ => none
  | .fork w status => match s.loc w with
    | .piped p first => some ((s.forkChild status).setLoc w (.forked p first s.fam.forks))
    | _ => none
  | .forkFails w => match s.loc w with
    | .piped _ _ => some (s.setLoc w .outside)
    | _ => none
  | .close w => match s.loc w with
    | .forked p first c => some ((s.closeEnd p).setLoc w (.waiting p first s.fam.forks c))
    | _ => none
  | .spawn w status => match s.loc w with
    | .outside => some (s.forkChild status)
    | _ => none
  | .write j p bytes =>
    if s.fam.alive j = true ∧ p ∈ s.fam.inherited j ∧ (s.content p).length + bytes.length ≤ cap then
      some (s.writeTo j p bytes)
    else none
  | .ends j => if s.fam.alive j = true ∧ s.status j ≠ none then some (s.bury j) else none
  | .reap w => match s.loc w with
    | .waiting p first last c =>
      if s.fam.alive c then none
      else (s.status c).map fun stat =>
        s.setLoc w (if stat = 0 then .outside else .reading p first last c [])
    | _ => none
  | .read w k => match s.loc w with
    | .reading p first last c chunks =>
      if h : 0 < k ∧ k ≤ 4095 ∧ k ≤ (s.content p).length then
        some ((s.drop p k).setLoc w (.reading p first last c
          (chunks ++ [⟨(s.content p).take k, by rw [List.length_take]; omega⟩])))
      else none
    | _ => none
  | .eof w => match s.loc w with
    | .reading p _ _ _ _ =>
      if s.content p = [] ∧ s.fam.Released p then some (s.setLoc w .outside) else none
    | _ => none

end CompilersState

/-- **The threads of the judge that compile**, and all the children that the process forks. -/
def compilers (cap n : ℕ) : TransSystem (CompilersState n) (CompilersStep n) where
  Init s := s = .start n
  step s a := s.step cap a

/-- **What a step can be.** -/
inductive CompilersMove (cap : ℕ) (s : CompilersState n) :
    CompilersStep n → CompilersState n → Prop
  | pipe {w : Fin n} (hw : s.loc w = .outside) : CompilersMove cap s (.pipe w)
      (s.newPipe.setLoc w (.piped s.pipes s.fam.forks))
  | fork {w : Fin n} {p first : ℕ} {status : Option ℤ} (hw : s.loc w = .piped p first) :
      CompilersMove cap s (.fork w status)
        ((s.forkChild status).setLoc w (.forked p first s.fam.forks))
  | forkFails {w : Fin n} {p first : ℕ} (hw : s.loc w = .piped p first) :
      CompilersMove cap s (.forkFails w) (s.setLoc w .outside)
  | close {w : Fin n} {p first c : ℕ} (hw : s.loc w = .forked p first c) :
      CompilersMove cap s (.close w)
        ((s.closeEnd p).setLoc w (.waiting p first s.fam.forks c))
  | spawn {w : Fin n} {status : Option ℤ} (hw : s.loc w = .outside) :
      CompilersMove cap s (.spawn w status) (s.forkChild status)
  | write {j p : ℕ} {bytes : List UInt8} (hj : s.fam.alive j = true)
      (hp : p ∈ s.fam.inherited j) : CompilersMove cap s (.write j p bytes) (s.writeTo j p bytes)
  | ends {j : ℕ} (hj : s.fam.alive j = true) (hstat : s.status j ≠ none) :
      CompilersMove cap s (.ends j) (s.bury j)
  | passes {w : Fin n} {p first last c : ℕ} (hw : s.loc w = .waiting p first last c)
      (hc : s.fam.alive c = false) (hstat : s.status c = some 0) :
      CompilersMove cap s (.reap w) (s.setLoc w .outside)
  | fails {w : Fin n} {p first last c : ℕ} {stat : ℤ} (hw : s.loc w = .waiting p first last c)
      (hc : s.fam.alive c = false) (hstat : s.status c = some stat) (hne : stat ≠ 0) :
      CompilersMove cap s (.reap w) (s.setLoc w (.reading p first last c []))
  | read {w : Fin n} {p first last c k : ℕ} {chunks : List Chunk} {chunk : Chunk}
      (hw : s.loc w = .reading p first last c chunks) (hk : 0 < k)
      (hchunk : chunk.1 = (s.content p).take k) (hle : k ≤ (s.content p).length) :
      CompilersMove cap s (.read w k)
        ((s.drop p k).setLoc w (.reading p first last c (chunks ++ [chunk])))
  | eof {w : Fin n} {p first last c : ℕ} {chunks : List Chunk}
      (hw : s.loc w = .reading p first last c chunks) (hempty : s.content p = [])
      (hgone : s.fam.Released p) : CompilersMove cap s (.eof w) (s.setLoc w .outside)

variable {cap : ℕ} {s s' : CompilersState n} {a : CompilersStep n} {w v : Fin n}
  {l : CompileAt} {p q first last c j k : ℕ} {chunks : List Chunk} {status : Option ℤ}
  {bytes : List UInt8}

theorem compilersMove_of_step (h : s.step cap a = some s') : CompilersMove cap s a s' := by
  cases a with
  | pipe w | fork w | forkFails w | close w | spawn w =>
    simp only [CompilersState.step] at h
    split at h
    · next hw =>
      obtain rfl := Option.some.inj h
      first
        | exact .pipe hw
        | exact .fork hw
        | exact .forkFails hw
        | exact .close hw
        | exact .spawn hw
    · cases h
  | write j p bytes =>
    obtain ⟨hguard, hs⟩ := Option.ite_none_right_eq_some.mp h
    obtain rfl := Option.some.inj hs
    exact .write hguard.1 hguard.2.1
  | ends j =>
    obtain ⟨hguard, hs⟩ := Option.ite_none_right_eq_some.mp h
    obtain rfl := Option.some.inj hs
    exact .ends hguard.1 hguard.2
  | reap w =>
    simp only [CompilersState.step] at h
    split at h
    · next hw =>
      obtain ⟨hc, hs⟩ := Option.ite_none_left_eq_some.mp h
      obtain ⟨stat, hstat, rfl⟩ := Option.map_eq_some_iff.mp hs
      by_cases hzero : stat = 0
      · rw [if_pos hzero]
        exact .passes hw (Bool.not_eq_true _ ▸ hc) (hzero ▸ hstat)
      · rw [if_neg hzero]
        exact .fails hw (Bool.not_eq_true _ ▸ hc) hstat hzero
    · cases h
  | read w k =>
    simp only [CompilersState.step] at h
    split at h
    · next hw =>
      obtain ⟨hk, hs⟩ := Option.dite_none_right_eq_some.mp h
      obtain rfl := Option.some.inj hs
      exact .read hw hk.1 rfl hk.2.2
    · cases h
  | eof w =>
    simp only [CompilersState.step] at h
    split at h
    · next hw =>
      obtain ⟨hguard, hs⟩ := Option.ite_none_right_eq_some.mp h
      obtain rfl := Option.some.inj hs
      exact .eof hw hguard.1 hguard.2
    · cases h

/-! ### Who holds which end -/

/-- The end for writing has been handed on since `pipe`, until it was closed; the child of the call
is one of those that have it. -/
def CompileAt.Window (f : Family ℕ) : CompileAt → Prop
  | .outside => True
  | .piped p first => f.HeldSince p first ∧ first ≤ f.forks
  | .forked p first c => f.HeldSince p first ∧ first ≤ c ∧ c < f.forks
  | .waiting p first last c | .reading p first last c _ =>
    f.HeldBetween p first last ∧ first ≤ c ∧ c < last

/-- A call reads only after its script has failed. -/
def CompileAt.Failed (s : CompilersState n) : CompileAt → Prop
  | .reading _ _ _ c _ => s.fam.alive c = false ∧ ∃ stat, s.status c = some stat ∧ stat ≠ 0
  | _ => True

/-- What holds of a call at any place. -/
structure CompileAt.Ok (s : CompilersState n) (l : CompileAt) : Prop where
  window : l.Window s.fam
  failed : l.Failed s
  known : ∀ p ∈ l.pipe?, p < s.pipes
  /-- What has been written has been read or is still there. -/
  bytes : ∀ p ∈ l.pipe?, bytesOf l.chunks ++ s.content p = (s.written p).map Prod.snd

/-- **The invariant.** -/
structure CompilersInv (s : CompilersState n) : Prop where
  wf : s.fam.Wf
  /-- A child that has ended had a status to end with. -/
  ended : ∀ j < s.fam.forks, s.fam.alive j = false → s.status j ≠ none
  fresh : ∀ p, s.pipes ≤ p →
    p ∉ s.fam.own ∧ (∀ j, p ∉ s.fam.inherited j) ∧ s.content p = [] ∧ s.written p = []
  /-- Only those write to a pipe that have its end for writing. -/
  authors : ∀ p, ∀ x ∈ s.written p, p ∈ s.fam.inherited x.1
  ok : ∀ w, (s.loc w).Ok s
  /-- No two calls have the same pipe. -/
  apart : ∀ w v, ∀ p ∈ (s.loc w).pipe?, p ∈ (s.loc v).pipe? → w = v

theorem CompileAt.ok_outside (s : CompilersState n) : CompileAt.outside.Ok s :=
  ⟨trivial, trivial, nofun, nofun⟩

theorem compilersInv_start : CompilersInv (CompilersState.start n) where
  wf := Family.wf_start
  ended _ h := absurd h (Nat.not_lt_zero _)
  fresh _ _ := ⟨Finset.notMem_empty _, fun _ => Finset.notMem_empty _, rfl, rfl⟩
  authors _ _ := nofun
  ok _ := CompileAt.ok_outside _
  apart _ _ _ := nofun

theorem CompileAt.Window.child_lt {f : Family ℕ} (h : l.Window f) (hc : c ∈ l.child?) :
    c < f.forks := by
  cases l with
  | outside | piped => cases hc
  | forked =>
    obtain rfl := Option.some.inj hc
    exact h.2.2
  | waiting | reading =>
    obtain rfl := Option.some.inj hc
    exact h.2.2.trans_le h.1.le

/-! ### What the steps of others leave alone -/

section Others

variable (h : l.Ok s)

include h

theorem CompileAt.Ok.newPipe : l.Ok s.newPipe where
  window := by
    have hwindow := h.window
    have hknown := h.known
    cases l with
    | outside => trivial
    | piped | forked => exact ⟨hwindow.1.acquire, hwindow.2⟩
    | waiting | reading => exact ⟨hwindow.1.acquire (hknown _ rfl).ne, hwindow.2⟩
  failed := h.failed
  known p hp := Nat.lt_succ_of_lt (h.known p hp)
  bytes := h.bytes

theorem CompileAt.Ok.closeEnd (hp : p ∉ l.pipe?) : l.Ok (s.closeEnd p) where
  window := by
    have hwindow := h.window
    cases l with
    | outside => trivial
    | piped | forked => exact ⟨hwindow.1.release fun hpq => hp (congrArg some hpq), hwindow.2⟩
    | waiting | reading => exact ⟨hwindow.1.release, hwindow.2⟩
  failed := h.failed
  known := h.known
  bytes := h.bytes

theorem CompileAt.Ok.forkChild : l.Ok (s.forkChild status) where
  window := by
    have hwindow := h.window
    cases l with
    | outside => trivial
    | piped => exact ⟨hwindow.1.fork hwindow.2, Nat.le_succ_of_le hwindow.2⟩
    | forked =>
      exact ⟨hwindow.1.fork (hwindow.2.1.trans hwindow.2.2.le), hwindow.2.1,
        Nat.lt_succ_of_lt hwindow.2.2⟩
    | waiting | reading => exact ⟨hwindow.1.fork, hwindow.2⟩
  failed := by
    have hfailed := h.failed
    cases l with
    | reading p first last c =>
      have hlt : c < s.fam.forks := h.window.child_lt rfl
      refine ⟨(Family.alive_fork_of_lt hlt).trans hfailed.1, ?_⟩
      obtain ⟨stat, hstat, hne⟩ := hfailed.2
      exact ⟨stat, (Function.update_of_ne hlt.ne _ _).trans hstat, hne⟩
    | _ => trivial
  known := h.known
  bytes := h.bytes

theorem CompileAt.Ok.bury : l.Ok (s.bury j) where
  window := by
    have hwindow := h.window
    cases l with
    | outside => trivial
    | _ => exact ⟨hwindow.1.bury, hwindow.2⟩
  failed := by
    have hfailed := h.failed
    cases l with
    | reading => exact ⟨Family.alive_bury_eq_false hfailed.1, hfailed.2⟩
    | _ => trivial
  known := h.known
  bytes := h.bytes

theorem CompileAt.Ok.writeTo : l.Ok (s.writeTo j p bytes) where
  window := h.window
  failed := by
    have hfailed := h.failed
    cases l <;> exact hfailed
  known := h.known
  bytes q hq := by
    have hbytes := h.bytes q hq
    rcases eq_or_ne q p with rfl | hne
    · simp [CompilersState.writeTo, ← hbytes, Function.comp_def]
    · simpa [CompilersState.writeTo, hne] using hbytes

theorem CompileAt.Ok.drop (hp : p ∉ l.pipe?) : l.Ok (s.drop p k) where
  window := h.window
  failed := by
    have hfailed := h.failed
    cases l <;> exact hfailed
  known := h.known
  bytes q hq := by
    have hne : q ≠ p := by
      rintro rfl
      exact hp hq
    simpa [CompilersState.drop, hne] using h.bytes q hq

theorem CompileAt.Ok.setLoc {l' : CompileAt} : l.Ok (s.setLoc w l') where
  window := h.window
  failed := by
    have hfailed := h.failed
    cases l <;> exact hfailed
  known := h.known
  bytes := h.bytes

end Others

/-! ### The invariant is kept -/

section Kept

variable (hinv : CompilersInv s)

include hinv

/-- **A thread moves**, and the others do not mind. -/
theorem CompilersInv.setLoc (hl : l.Ok s)
    (hapart : ∀ p ∈ l.pipe?, ∀ v, v ≠ w → p ∉ (s.loc v).pipe?) :
    CompilersInv (s.setLoc w l) where
  wf := hinv.wf
  ended := hinv.ended
  fresh := hinv.fresh
  authors := hinv.authors
  ok := by
    refine (Function.forall_update_iff s.loc fun _ l' => l'.Ok (s.setLoc w l)).mpr ?_
    exact ⟨hl.setLoc, fun v _ => (hinv.ok v).setLoc⟩
  apart u v p hu hv := by
    rcases eq_or_ne u w with rfl | hu' <;> rcases eq_or_ne v u with rfl | hv'
    · rfl
    · simp only [CompilersState.setLoc, Function.update_self, Function.update_of_ne hv'] at hu hv
      exact absurd hv (hapart p hu v hv')
    · rfl
    · simp only [CompilersState.setLoc, Function.update_of_ne hu'] at hu
      rcases eq_or_ne v w with rfl | hvw
      · simp only [CompilersState.setLoc, Function.update_self] at hv
        exact absurd hu (hapart p hv u hu')
      · simp only [CompilersState.setLoc, Function.update_of_ne hvw] at hv
        exact hinv.apart u v p hu hv

/-- A thread comes out of its call. -/
theorem CompilersInv.outside (w : Fin n) : CompilersInv (s.setLoc w .outside) :=
  hinv.setLoc (CompileAt.ok_outside s) nofun

theorem CompilersInv.newPipe : CompilersInv s.newPipe where
  wf := hinv.wf.acquire
  ended := hinv.ended
  fresh p hp := by
    obtain ⟨hown, hrest⟩ := hinv.fresh p (Nat.le_of_succ_le hp)
    refine ⟨fun hmem => ?_, hrest⟩
    exact (Finset.mem_insert.mp hmem).elim (Nat.lt_of_succ_le hp).ne' hown
  authors := hinv.authors
  ok v := (hinv.ok v).newPipe
  apart := hinv.apart

theorem CompilersInv.closeEnd (hp : ∀ v, p ∉ (s.loc v).pipe?) : CompilersInv (s.closeEnd p) where
  wf := hinv.wf.release
  ended := hinv.ended
  fresh q hq := by
    obtain ⟨hown, hrest⟩ := hinv.fresh q hq
    exact ⟨fun hmem => hown (Finset.mem_of_mem_erase hmem), hrest⟩
  authors := hinv.authors
  ok v := (hinv.ok v).closeEnd (hp v)
  apart := hinv.apart

theorem CompilersInv.forkChild : CompilersInv (s.forkChild status) where
  wf := hinv.wf.fork
  ended j hj hdead := by
    have hlt : j < s.fam.forks := by
      refine lt_of_le_of_ne (Nat.le_of_lt_succ hj) ?_
      rintro rfl
      simp [CompilersState.forkChild, Family.fork] at hdead
    rw [show (s.forkChild status).status j = s.status j from Function.update_of_ne hlt.ne _ _]
    exact hinv.ended j hlt ((Family.alive_fork_of_lt hlt).symm.trans hdead)
  fresh p hp := by
    obtain ⟨hown, hinherited, hrest⟩ := hinv.fresh p hp
    refine ⟨hown, fun j => ?_, hrest⟩
    exact (Function.forall_update_iff s.fam.inherited fun _ held => p ∉ held).mpr
      ⟨hown, fun j _ => hinherited j⟩ j
  authors p x hx := by
    have hmem := hinv.authors p x hx
    have hlt : x.1 < s.fam.forks := by
      by_contra hge
      simp [hinv.wf.unforked x.1 (Nat.le_of_not_lt hge)] at hmem
    rw [show (s.forkChild status).fam.inherited x.1 = s.fam.inherited x.1 from
      Family.inherited_fork_of_lt hlt]
    exact hmem
  ok v := (hinv.ok v).forkChild
  apart := hinv.apart

theorem CompilersInv.bury (hstat : s.status j ≠ none) : CompilersInv (s.bury j) where
  wf := hinv.wf.bury
  ended i hi hdead := by
    rcases eq_or_ne i j with rfl | hne
    · exact hstat
    · exact hinv.ended i hi ((Function.update_of_ne hne _ _).symm.trans hdead)
  fresh := hinv.fresh
  authors := hinv.authors
  ok v := (hinv.ok v).bury
  apart := hinv.apart

theorem CompilersInv.writeTo (hp : p ∈ s.fam.inherited j) :
    CompilersInv (s.writeTo j p bytes) where
  wf := hinv.wf
  ended := hinv.ended
  fresh q hq := by
    have hne : q ≠ p := by
      rintro rfl
      exact (hinv.fresh q hq).2.1 j hp
    simpa [CompilersState.writeTo, hne] using hinv.fresh q hq
  authors q x hx := by
    rcases eq_or_ne q p with rfl | hne
    · simp only [CompilersState.writeTo, Function.update_self, List.mem_append,
        List.mem_map] at hx
      rcases hx with hx | ⟨b, -, rfl⟩
      · exact hinv.authors q x hx
      · exact hp
    · simp only [CompilersState.writeTo, Function.update_of_ne hne] at hx
      exact hinv.authors q x hx
  ok v := (hinv.ok v).writeTo
  apart := hinv.apart

theorem CompilersInv.drop (hp : ∀ v, p ∉ (s.loc v).pipe?) : CompilersInv (s.drop p k) where
  wf := hinv.wf
  ended := hinv.ended
  fresh q hq := by
    obtain ⟨hown, hinherited, hempty, hrest⟩ := hinv.fresh q hq
    refine ⟨hown, hinherited, ?_, hrest⟩
    rcases eq_or_ne q p with rfl | hne
    · simp [CompilersState.drop, hempty]
    · simpa [CompilersState.drop, hne] using hempty
  authors := hinv.authors
  ok v := (hinv.ok v).drop (hp v)
  apart := hinv.apart

end Kept

/-- Only one call has a pipe. -/
theorem CompilersInv.not_other (hinv : CompilersInv s) (hp : p ∈ (s.loc w).pipe?) :
    ∀ v, v ≠ w → p ∉ (s.loc v).pipe? :=
  fun v hne hv => hne (hinv.apart v w p hv hp)

/-- Nobody has the pipe of a call that is taken out of it. -/
theorem CompilersInv.not_any (hinv : CompilersInv s) (hp : p ∈ (s.loc w).pipe?) :
    ∀ v, p ∉ ((s.setLoc w .outside).loc v).pipe? :=
  (Function.forall_update_iff s.loc fun _ l => p ∉ l.pipe?).mpr ⟨nofun, hinv.not_other hp⟩

/-- What is done to the state while a thread moves may be done while it is outside. -/
theorem setLoc_setLoc (s : CompilersState n) (w : Fin n) (l l' : CompileAt) :
    (s.setLoc w l).setLoc w l' = s.setLoc w l' := by
  simp [CompilersState.setLoc]

theorem CompilersInv.step (hinv : CompilersInv s) (h : s.step cap a = some s') :
    CompilersInv s' := by
  cases compilersMove_of_step h with
  | pipe hw =>
    obtain ⟨-, hinherited, hempty, hunwritten⟩ := hinv.fresh s.pipes le_rfl
    refine hinv.newPipe.setLoc ⟨⟨.of_acquire hinherited, le_rfl⟩, trivial, ?_, ?_⟩ ?_
    · rintro p hp
      obtain rfl := Option.some.inj hp
      exact Nat.lt_succ_self _
    · rintro p hp
      obtain rfl := Option.some.inj hp
      simp [CompilersState.newPipe, CompileAt.chunks, bytesOf, hempty, hunwritten]
    · rintro p hp v - hv
      obtain rfl := Option.some.inj hp
      exact lt_irrefl _ ((hinv.ok v).known _ hv)
  | @fork w p first status hw =>
    have hold : (CompileAt.piped p first).Ok (s.forkChild status) := (hw ▸ hinv.ok w).forkChild
    have hle : first ≤ s.fam.forks := (hw ▸ hinv.ok w : (CompileAt.piped p first).Ok s).window.2
    refine hinv.forkChild.setLoc
      ⟨⟨hold.window.1, hle, Nat.lt_succ_self _⟩, trivial, hold.known, hold.bytes⟩ ?_
    exact fun q hq => hinv.not_other (by rw [hw]; exact hq)
  | forkFails hw => exact hinv.outside _
  | @close w p first c hw =>
    have hp : p ∈ (s.loc w).pipe? := by rw [hw]; rfl
    have hold : (CompileAt.forked p first c).Ok s := hw ▸ hinv.ok w
    have hkept := (hinv.outside w).closeEnd (hinv.not_any hp)
    have hmove := hkept.setLoc (w := w) (l := .waiting p first s.fam.forks c)
      ⟨⟨hold.window.1.heldBetween, hold.window.2⟩, trivial, hold.known, hold.bytes⟩
      fun q hq v _ => by
        obtain rfl := Option.some.inj hq
        exact hinv.not_any hp v
    rwa [show ((s.setLoc w .outside).closeEnd p).setLoc w (.waiting p first s.fam.forks c)
      = (s.closeEnd p).setLoc w (.waiting p first s.fam.forks c) from
        setLoc_setLoc (s.closeEnd p) w .outside _] at hmove
  | spawn hw => exact hinv.forkChild
  | write hj hp => exact hinv.writeTo hp
  | ends hj hstat => exact hinv.bury hstat
  | passes hw => exact hinv.outside _
  | @fails w p first last c stat hw hc hstat hne =>
    have hold : (CompileAt.waiting p first last c).Ok s := hw ▸ hinv.ok w
    refine hinv.setLoc ⟨hold.window, ⟨hc, stat, hstat, hne⟩, hold.known, hold.bytes⟩ ?_
    exact fun q hq => hinv.not_other (by rw [hw]; exact hq)
  | @read w p first last c k chunks chunk hw hk hchunk hle =>
    have hp : p ∈ (s.loc w).pipe? := by rw [hw]; rfl
    have hold : (CompileAt.reading p first last c chunks).Ok s := hw ▸ hinv.ok w
    have hkept := (hinv.outside w).drop (k := k) (hinv.not_any hp)
    have hmove := hkept.setLoc (w := w) (l := .reading p first last c (chunks ++ [chunk]))
      ⟨hold.window, hold.failed, hold.known, fun q hq => by
        obtain rfl := Option.some.inj hq
        have hbytes : bytesOf chunks ++ s.content p = _ := hold.bytes p rfl
        rw [← List.take_append_drop k (s.content p)] at hbytes
        simpa [CompilersState.drop, CompilersState.setLoc, CompileAt.chunks, bytesOf, hchunk]
          using hbytes⟩
      fun q hq v _ => by
        obtain rfl := Option.some.inj hq
        exact hinv.not_any hp v
    rwa [show ((s.setLoc w .outside).drop p k).setLoc w
        (.reading p first last c (chunks ++ [chunk]))
      = (s.drop p k).setLoc w (.reading p first last c (chunks ++ [chunk])) from
        setLoc_setLoc (s.drop p k) w .outside _] at hmove
  | eof hw => exact hinv.outside _

theorem compilersInv_of_reachable (h : (compilers cap n).Reachable s) : CompilersInv s := by
  refine h.invariant ?_ fun _ _ _ _ hinv _ hs => hinv.step hs
  rintro _ rfl
  exact compilersInv_start

/-! ### What the call computes -/

/-- **The message of a submission that does not compile.** A call that reads the end of the file
returns what the reads have delivered, each of them up to its first zero byte. The bytes that they
have delivered are those that were written to the pipe, in this order, all of them by children that
were forked between its `pipe` and its `close`; and they are what its own script has written exactly
if no other child has written to its pipe. -/
theorem compile_message_iff (pf : Posix.Platform) {lang : LangCDebug} {path : String}
    (hscript : lang.compileScriptPath = some path) (submit : Submission) (rl : ResourceLimit)
    (h : (compilers cap n).Reachable s) (hw : s.loc w = .reading p first last c chunks)
    (hs : s.step cap (.eof w) = some s') :
    (∃ stat, s.status c = some stat ∧
      compile pf lang submit rl
          (fun _ _ => ⟨0, some c, some (.status stat), delivery chunks .eof⟩)
        = .ret { Result.ofSubmission submit with
            resType := .compileError, resContent := textOf chunks }) ∧
    bytesOf chunks = (s.written p).map Prod.snd ∧
    (∀ x ∈ s.written p, first ≤ x.1 ∧ x.1 < last) ∧
    (bytesOf chunks = ((s.written p).filter fun x => x.1 = c).map Prod.snd ↔
      ∀ x ∈ s.written p, x.1 = c) := by
  have hinv := compilersInv_of_reachable h
  have hok : (CompileAt.reading p first last c chunks).Ok s := hw ▸ hinv.ok w
  have hempty : s.content p = [] := by
    cases compilersMove_of_step hs with
    | eof hw' hempty =>
      obtain ⟨rfl, -⟩ := CompileAt.reading.inj (hw.symm.trans hw')
      exact hempty
  have hbytes : bytesOf chunks = (s.written p).map Prod.snd := by
    simpa [CompileAt.chunks, hempty] using hok.bytes p rfl
  refine ⟨?_, hbytes, fun x hx => ?_, ?_⟩
  · obtain ⟨stat, hstat, hne⟩ := hok.failed.2
    have hwaited : (WaitReply.status stat).stat ≠ 0 := hne
    refine ⟨stat, hstat, ?_⟩
    rw [compile_of_failedScript hscript rfl (by simp) rfl hwaited,
      ← List.append_nil (delivery chunks .eof), runLoop_delivery]
    rfl
  · exact (hok.window.1.inherited x.1).mp (hinv.authors p x hx)
  · rw [hbytes]
    constructor
    · intro hsame
      have hlength := congrArg List.length hsame
      rw [List.length_map, List.length_map] at hlength
      have hall := List.length_filter_eq_length_iff.mp hlength.symm
      exact fun x hx => of_decide_eq_true (hall x hx)
    · intro hall
      rw [List.filter_eq_self.mpr fun x hx => decide_eq_true (hall x hx)]

/-- The script of a submission writes `e`, and a program that another thread runs writes `x` into
the same message. -/
theorem compile_message_iff_injected : ∃ (s s' : CompilersState 2) (chunks : List Chunk),
    (compilers 65536 2).Reachable s ∧ s.loc 0 = .reading 0 0 2 0 chunks ∧
      s.step 65536 (.eof 0) = some s' ∧ textOf chunks = [101, 120] ∧
      bytesOf chunks ≠ ((s.written 0).filter fun x => x.1 = 0).map Prod.snd := by
  let s := ((compilers 65536 2).run (.start 2)
    [.pipe 0, .fork 0 (some 256), .spawn 1 (some 0), .close 0, .write 0 0 [101],
      .write 1 0 [120], .ends 0, .ends 1, .reap 0, .read 0 2]).get rfl
  have hreach : (compilers 65536 2).Reachable s :=
    TransSystem.reachable_of_run rfl (Option.some_get _).symm
  have hsome : (s.step 65536 (.eof 0)).isSome := rfl
  have heof := (Option.some_get hsome).symm
  have hscript : (LangCDebug.mk (some "compile_c.sh")).compileScriptPath = some _ := rfl
  refine ⟨s, _, _, hreach, rfl, heof, rfl, fun hown => ?_⟩
  have hall := (compile_message_iff Posix.lp64 hscript (.released 1000 7) {} hreach rfl
    heof).2.2.2.mp hown
  exact absurd (hall (1, 120) (by decide)) (by decide)

end Compilers

end NpuOj
