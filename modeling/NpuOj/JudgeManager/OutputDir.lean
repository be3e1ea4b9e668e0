import NpuOj.JudgeManager.LockOps
import NpuOj.Lib.TransSystem

/-!
# Strings that are made when they are first asked for

`get_output_dir`, `get_testcase_dir` and `get_src_dir` each make a string if the pointer to it is
`NULL`: a block is allocated and stored in the pointer, and the text is printed into it after that.
They try for `jm_lock_judge` and go on without it as well. So several threads may find `NULL` and
allocate, and a thread may find a block that has no text yet and return it.

Here any number of threads take the single steps of one of these functions, in any order; another
operation may have the lock meanwhile. That one block is allocated, and that every string is
complete when it is returned, holds if no thread tests the pointer while another one is setting it
(`NpuOj.dirThreads_once`), and any test that comes in between can go wrong
(`NpuOj.dirThreads_spoiled`). Who has the lock does not matter for either.
-/

namespace NpuOj

open Posix

/-! ### The threads -/

/-- Where a thread is. -/
inductive DirLoc
  | idle
  /-- Past the trylock, before the test of the pointer. -/
  | testing (isLocked : Bool)
  /-- It has found `NULL`. -/
  | found (isLocked : Bool)
  /-- It has stored a block, and is to print into it. -/
  | printing (isLocked : Bool)
  /-- Before the conditional unlock. -/
  | unlocking (isLocked : Bool)
  | returning
  /-- In another operation, which has the lock. -/
  | elsewhere
  deriving DecidableEq, Repr

/-- A step of one thread. -/
inductive DirStep
  | trylock
  | test
  | store
  | print
  | unlock
  | ret
  /-- Another operation takes the lock. -/
  | enter
  /-- It gives the lock back. -/
  | leave
  deriving DecidableEq, Repr

/-- The threads and what they share. -/
structure DirState (ι : Type*) where
  owner : Option ι
  /-- The pointer, with the number of the block that it points to. -/
  dir : Option ℕ
  /-- What has been printed into the blocks. -/
  text : ℕ → Option String
  /-- The number of blocks that have been allocated. -/
  allocated : ℕ
  loc : ι → DirLoc
  /-- What has been returned: `NULL`, or what was in the block at the return. -/
  returned : List (Option (Option String))

namespace DirState

variable {ι : Type*} [DecidableEq ι]

/-- Nobody has asked for the string. -/
def initDir (ι : Type*) : DirState ι := ⟨none, none, fun _ => none, 0, fun _ => .idle, []⟩

/-- The state after one thread has moved. -/
def move (s : DirState ι) (i : ι) (l : DirLoc) : DirState ι :=
  { s with loc := Function.update s.loc i l }

/-- One step of one thread. -/
def step (workDir : Option String) (kind : DirKind) (s : DirState ι) :
    ι × DirStep → Option (DirState ι)
  | (i, a) => match a, s.loc i with
    | .trylock, .idle =>
      if s.owner.isNone then some { s.move i (.testing true) with owner := some i }
      else some (s.move i (.testing false))
    | .test, .testing isLocked =>
      some (s.move i (if s.dir.isNone then .found isLocked else .unlocking isLocked))
    | .store, .found isLocked => match workDir with
      | none => none
      | some _ => some { s.move i (.printing isLocked) with
          dir := some s.allocated
          text := Function.update s.text s.allocated none
          allocated := s.allocated + 1 }
    -- the pointer is read again, for the block to print into and for the one to return
    | .print, .printing isLocked => match workDir, s.dir with
      | some workDir, some block => some { s.move i (.unlocking isLocked) with
          text := Function.update s.text block
            (some (snprintf (workDir.length + kind.suffix.length + 1) (workDir ++ kind.suffix))) }
      | _, _ => none
    | .unlock, .unlocking isLocked =>
      some { s.move i .returning with owner := if isLocked then none else s.owner }
    | .ret, .returning =>
      some { s.move i .idle with returned := s.dir.map s.text :: s.returned }
    -- without a `work_dir` the lock is kept
    | .ret, .found _ => match workDir with
      | none => some { s.move i .idle with returned := none :: s.returned }
      | some _ => none
    | .enter, .idle =>
      if s.owner.isNone then some { s.move i .elsewhere with owner := some i } else none
    | .leave, .elsewhere => some { s.move i .idle with owner := none }
    | _, _ => none

end DirState

section Threads

variable {ι : Type*} [DecidableEq ι]

/-- **The threads that ask for a string.** -/
def dirThreads (workDir : Option String) (kind : DirKind) (ι : Type*) [DecidableEq ι] :
    TransSystem (DirState ι) (ι × DirStep) where
  Init s := s = DirState.initDir ι
  step := DirState.step workDir kind

/-- **The string is made once**: it is complete whenever it is returned, and one block is
allocated for it. -/
structure MadeOnce (workDir : Option String) (kind : DirKind) (s : DirState ι) : Prop where
  complete : ∀ text, some text ∈ s.returned →
    ∃ dir, workDir = some dir ∧ text = some (dir ++ kind.suffix)
  allocated : s.allocated ≤ 1

/-- The thread has found `NULL`, and not printed the text yet. -/
def DirLoc.isSetting : DirLoc → Bool
  | found _ | printing _ => true
  | _ => false

/-- No thread tests the pointer while another one is setting it. -/
def TestsUndisturbed (workDir : Option String) (s : DirState ι) : ι × DirStep → Prop
  | (i, .test) => workDir.isSome = true → ∀ j, j ≠ i → (s.loc j).isSetting = false
  | _ => True

/-! ### What a step can do -/

/-- The thread is in none of the statements behind the test of the pointer. -/
def DirLoc.isOutside : DirLoc → Bool
  | idle | testing _ | elsewhere => true
  | _ => false

/-- The thread has neither stored a block nor found one. -/
def DirLoc.isBefore : DirLoc → Bool
  | idle | testing _ | elsewhere | found _ => true
  | _ => false

variable {workDir : Option String} {kind : DirKind} {s s' : DirState ι} {i : ι} {a : DirStep}

/-- The steps of one thread. -/
inductive DirMove (workDir : Option String) (kind : DirKind) (s : DirState ι) (i : ι) :
    DirStep → DirState ι → Prop
  | outside {a l owner} (ha : a ≠ .test) (hi : (s.loc i).isOutside = true)
    (hl : l.isOutside = true) : DirMove workDir kind s i a { s.move i l with owner := owner }
  | findNull {isLocked} (hi : s.loc i = .testing isLocked) (hdir : s.dir = none) :
    DirMove workDir kind s i .test (s.move i (.found isLocked))
  | findBlock {isLocked block} (hi : s.loc i = .testing isLocked) (hdir : s.dir = some block) :
    DirMove workDir kind s i .test (s.move i (.unlocking isLocked))
  | retNull {isLocked} (hi : s.loc i = .found isLocked) (hwork : workDir = none) :
    DirMove workDir kind s i .ret { s.move i .idle with returned := none :: s.returned }
  | store {isLocked dir} (hi : s.loc i = .found isLocked) (hwork : workDir = some dir) :
    DirMove workDir kind s i .store { s.move i (.printing isLocked) with
      dir := some s.allocated
      text := Function.update s.text s.allocated none
      allocated := s.allocated + 1 }
  | print {isLocked dir block} (hi : s.loc i = .printing isLocked) (hwork : workDir = some dir)
    (hdir : s.dir = some block) :
    DirMove workDir kind s i .print { s.move i (.unlocking isLocked) with
      text := Function.update s.text block (some (dir ++ kind.suffix)) }
  | unlock {isLocked owner} (hi : s.loc i = .unlocking isLocked) :
    DirMove workDir kind s i .unlock { s.move i .returning with owner := owner }
  | ret (hi : s.loc i = .returning) :
    DirMove workDir kind s i .ret
      { s.move i .idle with returned := s.dir.map s.text :: s.returned }

/-- The size that is given to `snprintf` is enough for the text. -/
theorem snprintf_dir (workDir : String) (kind : DirKind) :
    snprintf (workDir.length + kind.suffix.length + 1) (workDir ++ kind.suffix) =
      workDir ++ kind.suffix :=
  snprintf_of_length_le (le_of_eq (String.length_append ..))

/-- **Inversion of a step.** -/
theorem DirState.move_of_step (h : s.step workDir kind (i, a) = some s') :
    DirMove workDir kind s i a s' := by
  simp only [step] at h
  split at h
  · next hi =>
    split at h
    · exact Option.some.inj h ▸ .outside (by decide) (by rw [hi]; rfl) rfl
    · exact Option.some.inj h ▸ .outside (by decide) (by rw [hi]; rfl) rfl
  · next isLocked hi =>
    cases hdir : s.dir with
    | none =>
      rw [hdir] at h
      exact Option.some.inj h ▸ .findNull hi hdir
    | some block =>
      rw [hdir] at h
      exact Option.some.inj h ▸ .findBlock hi hdir
  · next isLocked hi =>
    split at h
    · cases h
    · exact Option.some.inj h ▸ .store hi rfl
  · next isLocked hi =>
    split at h
    · next dir block hdir =>
      rw [snprintf_dir] at h
      exact Option.some.inj h ▸ .print hi rfl hdir
    · cases h
  · next isLocked hi => exact Option.some.inj h ▸ .unlock hi
  · next hi => exact Option.some.inj h ▸ .ret hi
  · next isLocked hi =>
    split at h
    · exact Option.some.inj h ▸ .retNull hi rfl
    · cases h
  · next hi =>
    split at h
    · exact Option.some.inj h ▸ .outside (by decide) (by rw [hi]; rfl) rfl
    · cases h
  · next hi => exact Option.some.inj h ▸ .outside (by decide) (by rw [hi]; rfl) rfl
  · cases h

theorem DirState.loc_move_self {l : DirLoc} : (s.move i l).loc i = l := Function.update_self ..

theorem DirState.loc_move_of_ne {l : DirLoc} {j : ι} (hj : j ≠ i) :
    (s.move i l).loc j = s.loc j :=
  Function.update_of_ne hj _ _

/-- What is so of the places of all threads stays so if it is so of the one that is entered. -/
theorem DirState.forall_move {R : DirLoc → Bool} {b : Bool} {l : DirLoc}
    (hs : ∀ j, j ≠ i → R (s.loc j) = b) (hl : R l = b) (j : ι) : R ((s.move i l).loc j) = b :=
  (Function.forall_update_iff s.loc fun _ l => R l = b).mpr ⟨hl, hs⟩ j

/-- A thread that is in a region after the step was there before, if the one that moves does not
enter it. -/
theorem DirState.of_move {R : DirLoc → Bool} {l : DirLoc} {j : ι} (hl : R l = false)
    (hj : R ((s.move i l).loc j) = true) : R (s.loc j) = true := by
  by_cases hji : j = i
  · subst hji
    rw [loc_move_self, hl] at hj
    cases hj
  · rwa [loc_move_of_ne hji] at hj

theorem DirLoc.isOutside_of_isBefore {l : DirLoc} (h : l.isBefore = true)
    (hset : l.isSetting = false) : l.isOutside = true := by
  cases l with
  | idle | testing _ | elsewhere => rfl
  | found _ => cases hset
  | printing _ | unlocking _ | returning => cases h

theorem DirLoc.exists_found {l : DirLoc} (h : l.isBefore = true) (hset : l.isSetting = true) :
    ∃ isLocked, l = .found isLocked := by
  cases l with
  | found isLocked => exact ⟨isLocked, rfl⟩
  | idle | testing _ | elsewhere => cases hset
  | printing _ | unlocking _ | returning => cases h

theorem DirLoc.not_isSetting_of_isOutside {l : DirLoc} (h : l.isOutside = true) :
    l.isSetting = false := by
  cases l <;> first | rfl | cases h

/-- A thread that nobody disturbs is given what `LoadContext.getOutputDir` stands for. -/
theorem dirThreads_alone (ctx : LoadContext) (i : ι) :
    ∃ s, (dirThreads (some ctx.workDir) .output ι).run (DirState.initDir ι)
        ([.trylock, .test, .store, .print, .unlock, .ret].map (i, ·)) = some s ∧
      s.returned = [some (some ctx.getOutputDir)] ∧ s.owner = none := by
  have hprint : _ = ctx.getOutputDir := snprintf_dir ctx.workDir .output
  simpa [dirThreads, DirState.step, DirState.initDir, DirState.move] using hprint

/-! ### The string is unset, then one thread sets it, then it is there -/

/-- **Nobody has stored a block**; and if there is a `work_dir` then at most one thread has found
`NULL`. -/
structure DirUnset (workDir : Option String) (s : DirState ι) : Prop where
  dir : s.dir = none
  allocated : s.allocated = 0
  loc : ∀ j, (s.loc j).isBefore = true
  alone : workDir.isSome = true → ∀ j k,
    (s.loc j).isSetting = true → (s.loc k).isSetting = true → j = k
  returned : ∀ text, some text ∉ s.returned

/-- **One thread has stored a block**, which has no text yet. -/
structure DirSetting (workDir : Option String) (s : DirState ι) (k : ι) : Prop where
  workDir : workDir.isSome = true
  dir : ∃ block, s.dir = some block ∧ s.text block = none
  allocated : s.allocated = 1
  printing : ∃ isLocked, s.loc k = .printing isLocked
  loc : ∀ j, j ≠ k → (s.loc j).isOutside = true
  returned : ∀ text, some text ∉ s.returned

/-- **The block has its text.** -/
structure DirSet (workDir : Option String) (kind : DirKind) (s : DirState ι) : Prop where
  dir : ∃ dir block, workDir = some dir ∧ s.dir = some block ∧
    s.text block = some (dir ++ kind.suffix)
  allocated : s.allocated = 1
  loc : ∀ j, (s.loc j).isSetting = false
  returned : ∀ text, some text ∈ s.returned →
    ∃ dir, workDir = some dir ∧ text = some (dir ++ kind.suffix)

/-- How far the string is. -/
inductive DirPhase (workDir : Option String) (kind : DirKind) (s : DirState ι) : Prop
  | unset (h : DirUnset workDir s)
  | setting {k : ι} (h : DirSetting workDir s k)
  | set (h : DirSet workDir kind s)

omit [DecidableEq ι] in
theorem dirUnset_init : DirUnset workDir (DirState.initDir ι) where
  dir := rfl
  allocated := rfl
  loc _ := rfl
  alone _ _ _ hj := by cases hj
  returned _ h := by cases h

/-- As long as the string is unset, a step leaves it so, or stores a block. -/
theorem DirUnset.move (hinv : DirUnset workDir s) (hok : TestsUndisturbed workDir s (i, a))
    (h : DirMove workDir kind s i a s') : DirUnset workDir s' ∨ DirSetting workDir s' i := by
  have hbefore {l : DirLoc} (hi : s.loc i = l) : l.isBefore = true := hi ▸ hinv.loc i
  cases h with
  | @outside _ l owner ha hi hl =>
    have hl' : l.isBefore = true ∧ l.isSetting = false := by
      cases l <;> first | exact ⟨rfl, rfl⟩ | cases hl
    refine Or.inl ⟨hinv.dir, hinv.allocated, ?_, fun hwork j k hj hk => ?_, hinv.returned⟩
    · exact DirState.forall_move (fun j _ => hinv.loc j) hl'.1
    · exact hinv.alone hwork j k (DirState.of_move hl'.2 hj) (DirState.of_move hl'.2 hk)
  | @findNull isLocked hi hdir =>
    have hothers : workDir.isSome = true → ∀ j,
        ((s.move i (.found isLocked)).loc j).isSetting = true → j = i := by
      intro hwork j hj
      by_contra hji
      rw [DirState.loc_move_of_ne hji, hok hwork j hji] at hj
      cases hj
    refine Or.inl ⟨hinv.dir, hinv.allocated, ?_, fun hwork j k hj hk => ?_, hinv.returned⟩
    · exact DirState.forall_move (fun j _ => hinv.loc j) rfl
    · exact (hothers hwork j hj).trans (hothers hwork k hk).symm
  | findBlock hi hdir => cases hinv.dir.symm.trans hdir
  | retNull hi hwork =>
    refine Or.inl ⟨hinv.dir, hinv.allocated, ?_, fun hwork j k hj hk => ?_, fun text => ?_⟩
    · exact DirState.forall_move (fun j _ => hinv.loc j) rfl
    · exact hinv.alone hwork j k (DirState.of_move rfl hj) (DirState.of_move rfl hk)
    · simpa using hinv.returned text
  | @store isLocked dir hi hwork =>
    have hsome : workDir.isSome = true := by rw [hwork]; rfl
    refine Or.inr ⟨hsome, ⟨_, rfl, Function.update_self ..⟩, by rw [hinv.allocated],
      ⟨isLocked, DirState.loc_move_self⟩, fun j hj => ?_, hinv.returned⟩
    -- nobody else has found `NULL`
    have hset : (s.loc j).isSetting = false := by
      rw [← Bool.not_eq_true]
      exact fun hset => hj (hinv.alone hsome j i hset (by rw [hi]; rfl))
    have hloc : (s.move i (.printing isLocked)).loc j = s.loc j := DirState.loc_move_of_ne hj
    exact (congrArg DirLoc.isOutside hloc).trans (DirLoc.isOutside_of_isBefore (hinv.loc j) hset)
  | print hi hwork hdir => cases hinv.dir.symm.trans hdir
  | unlock hi => cases hbefore hi
  | ret hi => cases hbefore hi

/-- While one thread sets the string, the others do not come to it, and the thread itself prints
the text. -/
theorem DirSetting.move {k : ι} (hinv : DirSetting workDir s k)
    (hok : TestsUndisturbed workDir s (i, a)) (h : DirMove workDir kind s i a s') :
    DirSetting workDir s' k ∨ DirSet workDir kind s' := by
  obtain ⟨block, hblock, htext⟩ := hinv.dir
  obtain ⟨isLocked, hk⟩ := hinv.printing
  have hki (hi : ∀ isLocked, s.loc i ≠ .printing isLocked) : k ≠ i := by
    rintro rfl
    exact hi isLocked hk
  have hout {l : DirLoc} (hi : s.loc i = l) (hl : ∀ isLocked, l ≠ .printing isLocked) :
      l.isOutside = true := hi ▸ hinv.loc i (hki (by rwa [hi])).symm
  cases h with
  | @outside _ l owner ha hi hl =>
    have hne : k ≠ i := hki (by rintro isLocked hi'; rw [hi'] at hi; cases hi)
    refine Or.inl ⟨hinv.workDir, hinv.dir, hinv.allocated, ⟨isLocked, ?_⟩, fun j hj => ?_,
      hinv.returned⟩
    · exact (DirState.loc_move_of_ne hne).trans hk
    · by_cases hji : j = i
      · subst hji
        exact (congrArg DirLoc.isOutside DirState.loc_move_self).trans hl
      · exact (congrArg DirLoc.isOutside (DirState.loc_move_of_ne hji)).trans (hinv.loc j hj)
  | findNull hi hdir => cases hblock.symm.trans hdir
  | findBlock hi hdir =>
    have hset := hok hinv.workDir k (hki (by simp [hi]))
    rw [hk] at hset
    cases hset
  | retNull hi hwork => cases hout hi (by simp)
  | store hi hwork => cases hout hi (by simp)
  | @print isLocked' dir block' hi hwork hdir =>
    -- the thread that prints is the one that sets the string
    have hik : i = k := by
      by_contra hne
      have hloc := hinv.loc i hne
      rw [hi] at hloc
      cases hloc
    subst hik
    refine Or.inr ⟨⟨dir, block', hwork, hdir, Function.update_self ..⟩, hinv.allocated, ?_,
      fun text h => absurd h (hinv.returned text)⟩
    exact DirState.forall_move (fun j hj => DirLoc.not_isSetting_of_isOutside (hinv.loc j hj)) rfl
  | unlock hi => cases hout hi (by simp)
  | ret hi => cases hout hi (by simp)

/-- Once the text is there, it stays, and it is what is returned. -/
theorem DirSet.move (hinv : DirSet workDir kind s) (h : DirMove workDir kind s i a s') :
    DirSet workDir kind s' := by
  obtain ⟨dir, block, hwork, hblock, htext⟩ := hinv.dir
  have hset {l : DirLoc} (hi : s.loc i = l) : l.isSetting = false := hi ▸ hinv.loc i
  have hloc {l : DirLoc} (hl : l.isSetting = false) :
      ∀ j, ((s.move i l).loc j).isSetting = false :=
    DirState.forall_move (fun j _ => hinv.loc j) hl
  cases h with
  | outside ha hi hl =>
    exact ⟨hinv.dir, hinv.allocated, hloc (DirLoc.not_isSetting_of_isOutside hl), hinv.returned⟩
  | findNull hi hdir => cases hblock.symm.trans hdir
  | findBlock hi hdir => exact ⟨hinv.dir, hinv.allocated, hloc rfl, hinv.returned⟩
  | retNull hi hwork => cases hset hi
  | store hi hwork => cases hset hi
  | print hi hwork hdir => cases hset hi
  | unlock hi => exact ⟨hinv.dir, hinv.allocated, hloc rfl, hinv.returned⟩
  | ret hi =>
    refine ⟨hinv.dir, hinv.allocated, hloc rfl, fun text htext' => ?_⟩
    rcases List.mem_cons.mp htext' with hnew | hold
    · rw [hblock, Option.map_some, htext] at hnew
      exact ⟨dir, hwork, Option.some.inj hnew⟩
    · exact hinv.returned text hold

/-- The string only goes forward. -/
theorem DirPhase.move (hinv : DirPhase workDir kind s) (hok : TestsUndisturbed workDir s (i, a))
    (h : DirMove workDir kind s i a s') : DirPhase workDir kind s' := by
  cases hinv with
  | unset hinv =>
    rcases hinv.move hok h with hunset | hsetting
    · exact .unset hunset
    · exact .setting hsetting
  | setting hinv =>
    rcases hinv.move hok h with hsetting | hset
    · exact .setting hsetting
    · exact .set hset
  | set hinv => exact .set (hinv.move h)

theorem dirPhase_of_reachable
    (h : (dirThreads workDir kind ι).ReachableBy (TestsUndisturbed workDir) s) :
    DirPhase workDir kind s :=
  h.invariant (by rintro _ rfl; exact .unset dirUnset_init)
    fun _ ⟨_, _⟩ _ _ hinv hok hstep => hinv.move hok (DirState.move_of_step hstep)

/-! ### The results -/

/-- **The string is made once**, and is complete whenever it is returned, in every run in which no
thread tests the pointer while another one is setting it. -/
theorem dirThreads_once
    (h : (dirThreads workDir kind ι).ReachableBy (TestsUndisturbed workDir) s) :
    MadeOnce workDir kind s := by
  cases dirPhase_of_reachable h with
  | unset hinv =>
    exact ⟨fun text htext => absurd htext (hinv.returned text), hinv.allocated.trans_le zero_le_one⟩
  | setting hinv =>
    exact ⟨fun text htext => absurd htext (hinv.returned text), hinv.allocated.le⟩
  | set hinv => exact ⟨hinv.returned, hinv.allocated.le⟩

/-- Two first calls: the second thread does not get the lock, and comes to the pointer when the
text is there. -/
theorem dirThreads_once_twoThreads : ∃ s : DirState (Fin 2),
    s.returned = [some (some "/home/noj/output"), some (some "/home/noj/output")] ∧
      MadeOnce (some "/home/noj") .output s := by
  have hlocked : (dirThreads (some "/home/noj") .output (Fin 2)).ReachableBy
      (TestsUndisturbed (some "/home/noj")) _ :=
    TransSystem.ReachableBy.run (.init rfl) (by simp [TestsUndisturbed])
      (show (dirThreads (some "/home/noj") .output (Fin 2)).run (DirState.initDir (Fin 2))
        [(0, .trylock), (1, .trylock)] = some _ from rfl)
  have hfound := hlocked.step (a := (0, .test)) (by intro _; decide) rfl
  have hprinted := hfound.run (by simp [TestsUndisturbed])
    (show TransSystem.run _ _ [(0, .store), (0, .print)] = some _ from rfl)
  have htested := hprinted.step (a := (1, .test)) (by intro _; decide) rfl
  have hreturned := htested.run (by simp [TestsUndisturbed])
    (show TransSystem.run _ _ [(0, .unlock), (1, .unlock), (0, .ret), (1, .ret)] = some _ from rfl)
  exact ⟨_, rfl, dirThreads_once hreturned⟩

/-- **Two first calls, badly timed**: a thread that does not get the lock finds the block before
the text is in it; or both threads find `NULL`, and both allocate. -/
theorem dirThreads_twoFirstCalls :
    (∃ s : DirState (Fin 2), (dirThreads (some "/home/noj") .output (Fin 2)).Reachable s ∧
      s.returned = [some none] ∧ ¬MadeOnce (some "/home/noj") .output s) ∧
    ∃ s : DirState (Fin 2), (dirThreads (some "/home/noj") .output (Fin 2)).Reachable s ∧
      s.allocated = 2 ∧ ¬MadeOnce (some "/home/noj") .output s := by
  refine ⟨⟨_, TransSystem.reachable_of_run rfl
      (show (dirThreads (some "/home/noj") .output (Fin 2)).run (DirState.initDir (Fin 2))
        [(0, .trylock), (1, .trylock), (0, .test), (0, .store), (1, .test), (1, .unlock), (1, .ret)]
          = some _ from rfl), rfl, fun honce => ?_⟩,
    ⟨_, TransSystem.reachable_of_run rfl
      (show (dirThreads (some "/home/noj") .output (Fin 2)).run (DirState.initDir (Fin 2))
        [(0, .trylock), (1, .trylock), (0, .test), (1, .test), (0, .store), (1, .store)]
          = some _ from rfl), rfl, fun honce => ?_⟩⟩
  · obtain ⟨_, -, hfull⟩ := honce.complete none List.mem_cons_self
    cases hfull
  · exact absurd honce.allocated (by decide)

theorem step_store {dir : String} {isLocked : Bool} (hi : s.loc i = .found isLocked) :
    (dirThreads (some dir) kind ι).step s (i, .store) = some { s.move i (.printing isLocked) with
      dir := some s.allocated
      text := Function.update s.text s.allocated none
      allocated := s.allocated + 1 } := by
  simp only [dirThreads, DirState.step, hi]

theorem step_unlock {isLocked : Bool} (hi : s.loc i = .unlocking isLocked) :
    (dirThreads workDir kind ι).step s (i, .unlock) =
      some { s.move i .returning with owner := if isLocked then none else s.owner } := by
  simp only [dirThreads, DirState.step, hi]

theorem step_ret (hi : s.loc i = .returning) : (dirThreads workDir kind ι).step s (i, .ret) =
    some { s.move i .idle with returned := s.dir.map s.text :: s.returned } := by
  simp only [dirThreads, DirState.step, hi]

/-- Two threads that have found `NULL` both allocate. -/
theorem exists_run_of_found {dir : String} {j : ι} {isLocked isLocked' : Bool} (hji : j ≠ i)
    (hi : s.loc i = .found isLocked) (hj : s.loc j = .found isLocked') :
    ∃ as s', (dirThreads (some dir) kind ι).run s as = some s' ∧
      s'.allocated = s.allocated + 2 := by
  have hj' : (s.move i (.printing isLocked)).loc j = .found isLocked' :=
    (DirState.loc_move_of_ne hji).trans hj
  exact ⟨_, _, TransSystem.run_pair (step_store hi) (step_store hj'), rfl⟩

/-- A thread that has found a block returns it with what is in it. -/
theorem exists_run_of_unlocking {isLocked : Bool} {block : ℕ} (hi : s.loc i = .unlocking isLocked)
    (hdir : s.dir = some block) : ∃ as s', (dirThreads workDir kind ι).run s as = some s' ∧
      some (s.text block) ∈ s'.returned := by
  refine ⟨_, _, TransSystem.run_pair (step_unlock hi) (step_ret DirState.loc_move_self), ?_⟩
  rw [← Option.map_some, ← hdir]
  exact List.mem_cons_self

/-- **Any other test can spoil it**: after a test that comes in between, two blocks may be
allocated, or the block may be returned without its text. -/
theorem dirThreads_spoiled {dir : String}
    (h : (dirThreads (some dir) kind ι).ReachableBy (TestsUndisturbed (some dir)) s)
    (hstep : (dirThreads (some dir) kind ι).step s (i, .test) = some s')
    (hbad : ¬TestsUndisturbed (some dir) s (i, .test)) :
    ∃ as s'', (dirThreads (some dir) kind ι).run s' as = some s'' ∧
      ¬MadeOnce (some dir) kind s'' := by
  obtain ⟨j, hji, hj⟩ : ∃ j, j ≠ i ∧ (s.loc j).isSetting = true := by
    by_contra hnone
    refine hbad fun _ j hji => ?_
    rw [← Bool.not_eq_true]
    exact fun hj => hnone ⟨j, hji, hj⟩
  have hmove : DirMove (some dir) kind s i .test s' := DirState.move_of_step hstep
  cases dirPhase_of_reachable h with
  | unset hinv =>
    obtain ⟨isLocked', hj'⟩ := DirLoc.exists_found (hinv.loc j) hj
    cases hmove with
    | outside ha hi hl => exact absurd rfl ha
    | findBlock hi hdir => cases hinv.dir.symm.trans hdir
    | @findNull isLocked hi hdir =>
      -- both threads find `NULL`
      obtain ⟨as, s'', hrun, hallocated⟩ := exists_run_of_found hji
        DirState.loc_move_self ((DirState.loc_move_of_ne hji).trans hj')
      refine ⟨as, s'', hrun, fun honce => ?_⟩
      have hle := honce.allocated
      omega
  | @setting k hinv =>
    obtain ⟨block, hblock, htext⟩ := hinv.dir
    cases hmove with
    | outside ha hi hl => exact absurd rfl ha
    | findNull hi hdir => cases hblock.symm.trans hdir
    | @findBlock isLocked _ hi hdir =>
      -- the block is found and returned before the text is printed into it
      obtain ⟨as, s'', hrun, hmem⟩ := exists_run_of_unlocking
        (s := s.move i (.unlocking isLocked)) DirState.loc_move_self hblock
      refine ⟨as, s'', hrun, fun honce => ?_⟩
      obtain ⟨_, -, hfull⟩ := honce.complete _ hmem
      cases htext.symm.trans hfull
  | set hinv =>
    rw [hinv.loc j] at hj
    cases hj

end Threads

end NpuOj
