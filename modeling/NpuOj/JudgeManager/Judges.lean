import Mathlib.Data.Fintype.Basic
import NpuOj.Lib.Counting
import NpuOj.Lib.TransSystem
import NpuOj.DataItem

/-!
# Sharing the judges

`JudgeManager` keeps one flag for every judge and a semaphore that counts the judges to
be had. `get_judge` waits on the semaphore and then looks for an available flag under
the lock; `release_judge` frees the flag under the lock and then posts. The count and
the flags disagree while a thread is between the two steps, on either side.

A worker that runs `JudgeTask::run` is in one of the places of `NpuOj.TaskLoc`, and
`NpuOj.judges` is the system of any number of workers. That it is safe is
`NpuOj.judges_safe`; the invariant is `NpuOj.JudgesInv`, in which the two windows are
counted.
-/

namespace NpuOj

/-- `JudgeState` -/
inductive JudgeState
  | available
  | used
  deriving DecidableEq, Repr

/-- Where a worker is in `JudgeTask::run`. -/
inductive TaskLoc (N : ℕ)
  /-- Outside. -/
  | idle
  /-- Before `sem_wait` in `get_judge`. -/
  | requesting
  /-- Past `sem_wait`, before the section that takes a judge. -/
  | passedSem
  /-- With what `get_judge` returned, which may be `NULL`. -/
  | using (jdg : Option (Fin N))
  /-- Past the section that frees the flag, before `sem_post` of the judges. -/
  | freed
  /-- Past that, before `sem_post` of the submissions. -/
  | posted
  deriving DecidableEq, Repr

/-- A step of `JudgeTask::run`. -/
inductive TaskStep
  | request
  | semWait
  | take
  | release
  | postJudge
  | postFetch
  deriving DecidableEq, Repr

/-- The flags, the semaphore and the workers. -/
structure JudgesState (N : ℕ) (ι : Type*) where
  jmJudgesFlag : Fin N → JudgeState
  jmSemJudge : ℕ
  loc : ι → TaskLoc N

section Judges

variable {N : ℕ} {ι : Type*} [DecidableEq ι]

/-- The scan of `get_judge`: the first judge whose flag is available. -/
def firstAvailable (flags : Fin N → JudgeState) : Option (Fin N) :=
  (List.finRange N).find? fun i => flags i = .available

/-- The section of `get_judge`: the flags after the scan. -/
def takeFlag (flags : Fin N → JudgeState) : Fin N → JudgeState :=
  match firstAvailable flags with
  | some i => Function.update flags i .used
  | none => flags

/-- The section of `release_judge`: the first used flag that belongs to the judge is
freed. -/
def freeFlag (flags : Fin N → JudgeState) (jdg : Fin N) : Fin N → JudgeState :=
  match (List.finRange N).find? fun i => flags i = .used ∧ i = jdg with
  | some i => Function.update flags i .available
  | none => flags

namespace JudgesState

/-- The state after one worker has moved. -/
def move (s : JudgesState N ι) (i : ι) (k : TaskLoc N) : JudgesState N ι :=
  { s with loc := Function.update s.loc i k }

/-- `init_judges`: every flag is available and the semaphore holds their number. -/
def initJudges (N : ℕ) (ι : Type*) : JudgesState N ι where
  jmJudgesFlag _ := .available
  jmSemJudge := N
  loc _ := .idle

/-- One step of one worker. -/
def step (s : JudgesState N ι) : ι × TaskStep → Option (JudgesState N ι)
  | (i, a) => match a, s.loc i with
    | .request, .idle => some (s.move i .requesting)
    | .semWait, .requesting =>
      if 0 < s.jmSemJudge then
        some { s.move i .passedSem with jmSemJudge := s.jmSemJudge - 1 }
      else none
    | .take, .passedSem =>
      some { s.move i (.using (firstAvailable s.jmJudgesFlag)) with
        jmJudgesFlag := takeFlag s.jmJudgesFlag }
    | .release, .using (some jdg) =>
      some { s.move i .freed with jmJudgesFlag := freeFlag s.jmJudgesFlag jdg }
    | .postJudge, .freed => some { s.move i .posted with jmSemJudge := s.jmSemJudge + 1 }
    | .postFetch, .posted => some (s.move i .idle)
    -- a worker with `NULL` dereferences it and does not come to `release_judge`
    | _, _ => none

end JudgesState

/-- **The workers and the judges**, from the state that `init_judges` builds. -/
def judges (N : ℕ) (ι : Type*) [DecidableEq ι] : TransSystem (JudgesState N ι) (ι × TaskStep) where
  Init s := s = JudgesState.initJudges N ι
  step := JudgesState.step

variable {s s' : JudgesState N ι} {i : ι} {a : TaskStep}

/-- **What a step can do.** -/
theorem JudgesState.step_cases (h : s.step (i, a) = some s') :
    (a = .request ∧ s.loc i = .idle ∧ s' = s.move i .requesting) ∨
    (a = .semWait ∧ s.loc i = .requesting ∧ 0 < s.jmSemJudge ∧
      s' = { s.move i .passedSem with jmSemJudge := s.jmSemJudge - 1 }) ∨
    (a = .take ∧ s.loc i = .passedSem ∧
      s' = { s.move i (.using (firstAvailable s.jmJudgesFlag)) with
        jmJudgesFlag := takeFlag s.jmJudgesFlag }) ∨
    (a = .release ∧ ∃ jdg, s.loc i = .using (some jdg) ∧
      s' = { s.move i .freed with jmJudgesFlag := freeFlag s.jmJudgesFlag jdg }) ∨
    (a = .postJudge ∧ s.loc i = .freed ∧
      s' = { s.move i .posted with jmSemJudge := s.jmSemJudge + 1 }) ∨
    (a = .postFetch ∧ s.loc i = .posted ∧ s' = s.move i .idle) := by
  simp only [step] at h
  split at h
  · next hloc => exact Or.inl ⟨rfl, hloc, (Option.some.inj h).symm⟩
  · next hloc =>
    split at h
    · next hsem => exact Or.inr (Or.inl ⟨rfl, hloc, hsem, (Option.some.inj h).symm⟩)
    · cases h
  · next hloc => exact Or.inr (Or.inr (Or.inl ⟨rfl, hloc, (Option.some.inj h).symm⟩))
  · next jdg hloc =>
    exact Or.inr (Or.inr (Or.inr (Or.inl ⟨rfl, jdg, hloc, (Option.some.inj h).symm⟩)))
  · next hloc =>
    exact Or.inr (Or.inr (Or.inr (Or.inr (Or.inl ⟨rfl, hloc, (Option.some.inj h).symm⟩))))
  · next hloc =>
    exact Or.inr (Or.inr (Or.inr (Or.inr (Or.inr ⟨rfl, hloc, (Option.some.inj h).symm⟩))))
  · cases h

/-! ### The scans -/

theorem firstAvailable_eq_some {flags : Fin N → JudgeState} {j : Fin N}
    (h : firstAvailable flags = some j) : flags j = .available := by
  simpa using List.find?_some h

/-- The scan finds a judge if there is one. -/
theorem exists_firstAvailable {flags : Fin N → JudgeState}
    (h : 0 < countAt .available flags) : ∃ j, firstAvailable flags = some j := by
  obtain ⟨j, hj⟩ := countAt_pos_iff.mp h
  refine Option.isSome_iff_exists.mp (List.find?_isSome.mpr ⟨j, List.mem_finRange j, ?_⟩)
  simpa using hj

theorem freeFlag_of_used {flags : Fin N → JudgeState} {j : Fin N} (h : flags j = .used) :
    freeFlag flags j = Function.update flags j .available := by
  have hfind : ((List.finRange N).find? fun i => flags i = .used ∧ i = j) = some j := by
    obtain ⟨i, hi⟩ : ∃ i, ((List.finRange N).find? fun i => flags i = .used ∧ i = j) = some i :=
      Option.isSome_iff_exists.mp
        (List.find?_isSome.mpr ⟨j, List.mem_finRange j, by simpa using h⟩)
    obtain ⟨-, rfl⟩ : flags i = .used ∧ i = j := by simpa using List.find?_some hi
    exact hi
  rw [freeFlag, hfind]

/-! ### The invariant -/

variable [Fintype ι]

/-- **The invariant**: a used flag stands for one worker, no worker holds `NULL`, and the
available flags are accounted for by the semaphore and the two windows. -/
structure JudgesInv (s : JudgesState N ι) : Prop where
  held : ∀ j, countAt (.using (some j)) s.loc = if s.jmJudgesFlag j = .used then 1 else 0
  notNull : ∀ i, s.loc i ≠ .using none
  available : countAt .available s.jmJudgesFlag
    = s.jmSemJudge + countAt .passedSem s.loc + countAt .freed s.loc

omit [DecidableEq ι] in
theorem judgesInv_init : JudgesInv (JudgesState.initJudges N ι) where
  held j := by simp [JudgesState.initJudges, countAt_const]
  notNull i := by simp [JudgesState.initJudges]
  available := by simp [JudgesState.initJudges, countAt_const]

/-- A worker that moves between places in which it holds no judge. -/
theorem JudgesInv.held_move (hinv : JudgesInv s) {k : TaskLoc N}
    (hi : ∀ j, s.loc i ≠ .using (some j)) (hk : ∀ j, k ≠ .using (some j)) (j : Fin N) :
    countAt (.using (some j)) (Function.update s.loc i k)
      = if s.jmJudgesFlag j = .used then 1 else 0 := by
  rw [countAt_stay (hi j) (hk j), hinv.held j]

theorem JudgesInv.notNull_move (hinv : JudgesInv s) {k : TaskLoc N} (hk : k ≠ .using none)
    (w : ι) : Function.update s.loc i k w ≠ .using none := by
  by_cases hw : w = i
  · rw [hw, Function.update_self]
    exact hk
  · rw [Function.update_of_ne hw]
    exact hinv.notNull w

omit [DecidableEq ι] in
/-- The judge that a worker holds is marked as used. -/
theorem JudgesInv.used_of_using (hinv : JudgesInv s) {j : Fin N}
    (hi : s.loc i = .using (some j)) : s.jmJudgesFlag j = .used := by
  by_contra hflag
  have hzero := hinv.held j
  rw [if_neg hflag, countAt_eq_zero_iff] at hzero
  exact hzero i hi

theorem JudgesInv.semWait (hinv : JudgesInv s) (hloc : s.loc i = .requesting)
    (hsem : 0 < s.jmSemJudge) :
    JudgesInv { s.move i .passedSem with jmSemJudge := s.jmSemJudge - 1 } where
  held := hinv.held_move (by simp [hloc]) (by simp)
  notNull := hinv.notNull_move (by simp)
  available := by
    change countAt _ s.jmJudgesFlag = s.jmSemJudge - 1
      + countAt _ (Function.update s.loc i .passedSem)
      + countAt _ (Function.update s.loc i .passedSem)
    rw [countAt_enter (by simp [hloc]),
      countAt_stay (by simp [hloc]) (by simp), hinv.available]
    omega

/-- A worker past the semaphore finds a judge. -/
theorem JudgesInv.take (hinv : JudgesInv s) (hloc : s.loc i = .passedSem) :
    JudgesInv { s.move i (.using (firstAvailable s.jmJudgesFlag)) with
      jmJudgesFlag := takeFlag s.jmJudgesFlag } := by
  -- the worker itself is in the first window, and so a flag is available
  have hpassed : 0 < countAt .passedSem s.loc := countAt_pos_iff.mpr ⟨i, hloc⟩
  obtain ⟨j, hfind⟩ : ∃ j, firstAvailable s.jmJudgesFlag = some j :=
    exists_firstAvailable (by rw [hinv.available]; omega)
  have hj : s.jmJudgesFlag j = .available := firstAvailable_eq_some hfind
  have hflags : takeFlag s.jmJudgesFlag = Function.update s.jmJudgesFlag j .used := by
    rw [takeFlag, hfind]
  rw [hfind, hflags]
  refine ⟨fun k => ?_, hinv.notNull_move (by simp), ?_⟩
  · change countAt _ (Function.update s.loc i _)
      = if Function.update s.jmJudgesFlag j .used k = .used then 1 else 0
    by_cases hk : k = j
    · subst hk
      rw [countAt_enter (by simp [hloc]), hinv.held k, hj,
        Function.update_self, if_neg (by simp), if_pos rfl]
    · rw [countAt_stay (by simp [hloc]) (by simp [Ne.symm hk]),
        hinv.held k, Function.update_of_ne hk]
  · change countAt _ (Function.update s.jmJudgesFlag j .used) = s.jmSemJudge
      + countAt _ (Function.update s.loc i _) + countAt _ (Function.update s.loc i _)
    have hflag := countAt_leave hj
      (show JudgeState.used ≠ .available by simp)
    have hleave := countAt_leave hloc
      (show TaskLoc.using (some j) ≠ .passedSem by simp)
    have hstay : countAt .freed (Function.update s.loc i (.using (some j)))
        = countAt .freed s.loc := countAt_stay (by simp [hloc]) (by simp)
    have havailable := hinv.available
    omega

theorem JudgesInv.release (hinv : JudgesInv s) {jdg : Fin N}
    (hloc : s.loc i = .using (some jdg)) :
    JudgesInv { s.move i .freed with jmJudgesFlag := freeFlag s.jmJudgesFlag jdg } := by
  have hused := hinv.used_of_using hloc
  rw [freeFlag_of_used hused]
  refine ⟨fun k => ?_, hinv.notNull_move (by simp), ?_⟩
  · change countAt _ (Function.update s.loc i .freed)
      = if Function.update s.jmJudgesFlag jdg .available k = .used then 1 else 0
    by_cases hk : k = jdg
    · subst hk
      have hleave := countAt_leave hloc
        (show TaskLoc.freed ≠ .using (some k) by simp)
      rw [hinv.held k, if_pos hused] at hleave
      rw [Function.update_self, if_neg (by simp)]
      omega
    · rw [countAt_stay (by simp [hloc, Ne.symm hk]) (by simp),
        hinv.held k, Function.update_of_ne hk]
  · change countAt _ (Function.update s.jmJudgesFlag jdg .available) = s.jmSemJudge
      + countAt _ (Function.update s.loc i .freed) + countAt _ (Function.update s.loc i .freed)
    rw [countAt_enter (by simp [hused]),
      countAt_enter (by simp [hloc]),
      countAt_stay (by simp [hloc]) (by simp), hinv.available]
    omega

theorem JudgesInv.postJudge (hinv : JudgesInv s) (hloc : s.loc i = .freed) :
    JudgesInv { s.move i .posted with jmSemJudge := s.jmSemJudge + 1 } where
  held := hinv.held_move (by simp [hloc]) (by simp)
  notNull := hinv.notNull_move (by simp)
  available := by
    change countAt _ s.jmJudgesFlag = s.jmSemJudge + 1
      + countAt _ (Function.update s.loc i .posted)
      + countAt _ (Function.update s.loc i .posted)
    have hleave := countAt_leave hloc
      (show (TaskLoc.posted : TaskLoc N) ≠ .freed by simp)
    rw [countAt_stay (by simp [hloc]) (by simp), hinv.available]
    omega

/-- A worker that moves between places outside of the two windows and holds no judge. -/
theorem JudgesInv.move (hinv : JudgesInv s) {k : TaskLoc N}
    (hi : s.loc i = .idle ∨ s.loc i = .posted) (hk : k = .requesting ∨ k = .idle) :
    JudgesInv (s.move i k) where
  held := hinv.held_move (by rcases hi with hi | hi <;> simp [hi])
    (by rcases hk with rfl | rfl <;> simp)
  notNull := hinv.notNull_move (by rcases hk with rfl | rfl <;> simp)
  available := by
    change countAt _ s.jmJudgesFlag = s.jmSemJudge
      + countAt _ (Function.update s.loc i k) + countAt _ (Function.update s.loc i k)
    have hout : ∀ c, c = .passedSem ∨ c = .freed → s.loc i ≠ c ∧ k ≠ c := by
      rintro c (rfl | rfl) <;> rcases hi with hi | hi <;> rcases hk with rfl | rfl <;> simp [hi]
    obtain ⟨hpassed, hpassed'⟩ := hout _ (Or.inl rfl)
    obtain ⟨hfreed, hfreed'⟩ := hout _ (Or.inr rfl)
    rw [countAt_stay hpassed hpassed', countAt_stay hfreed hfreed', hinv.available]

/-- **Every step keeps the invariant.** -/
theorem JudgesInv.step (hinv : JudgesInv s) (h : s.step (i, a) = some s') : JudgesInv s' := by
  rcases JudgesState.step_cases h with ⟨-, hloc, rfl⟩ | ⟨-, hloc, hsem, rfl⟩ | ⟨-, hloc, rfl⟩ |
    ⟨-, jdg, hloc, rfl⟩ | ⟨-, hloc, rfl⟩ | ⟨-, hloc, rfl⟩
  · exact hinv.move (Or.inl hloc) (Or.inl rfl)
  · exact hinv.semWait hloc hsem
  · exact hinv.take hloc
  · exact hinv.release hloc
  · exact hinv.postJudge hloc
  · exact hinv.move (Or.inr hloc) (Or.inr rfl)

theorem judgesInv_of_reachable (h : (judges N ι).Reachable s) : JudgesInv s :=
  h.invariant (by rintro _ rfl; exact judgesInv_init)
    fun _ ⟨_, _⟩ _ _ hinv _ hstep => hinv.step hstep

omit [DecidableEq ι] in
/-- A judge is held by one worker. -/
theorem JudgesInv.eq_of_using (hinv : JudgesInv s) {k : ι} {j : Fin N}
    (hi : s.loc i = .using (some j)) (hk : s.loc k = .using (some j)) : i = k := by
  have hone : countAt (.using (some j)) s.loc ≤ 1 := by
    rw [hinv.held j]
    split <;> omega
  exact eq_of_countAt_le_one hone hi hk

/-- **The judges are shared safely**: in every state that the workers can reach, no two
of them hold the same judge, none holds `NULL`, and the available flags are the value of
the semaphore, the workers past it without a judge, and the workers that have freed a
flag and not yet posted. -/
theorem judges_safe (h : (judges N ι).Reachable s) :
    (∀ i k j, s.loc i = .using (some j) → s.loc k = .using (some j) → i = k) ∧
      (∀ i, s.loc i ≠ .using none) ∧
      countAt .available s.jmJudgesFlag
        = s.jmSemJudge + countAt .passedSem s.loc + countAt .freed s.loc := by
  have hinv := judgesInv_of_reachable h
  exact ⟨fun i k j hi hk => hinv.eq_of_using hi hk, hinv.notNull, hinv.available⟩

/-- Two workers and one judge: the first has taken it, and the second waits. -/
theorem judges_safe_twoWorkers : ∃ s : JudgesState 1 (Fin 2),
    s.loc 0 = .using (some 0) ∧ s.loc 1 = .requesting ∧
      countAt .available s.jmJudgesFlag
        = s.jmSemJudge + countAt .passedSem s.loc + countAt .freed s.loc :=
  have hrun : (judges 1 (Fin 2)).Reachable _ := TransSystem.reachable_of_run rfl
    (show (judges 1 (Fin 2)).run (JudgesState.initJudges 1 (Fin 2))
      [(0, .request), (1, .request), (0, .semWait), (0, .take)] = some _ from rfl)
  ⟨_, rfl, rfl, (judges_safe hrun).2.2⟩

end Judges

end NpuOj
