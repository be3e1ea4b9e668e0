import Mathlib.Data.Fintype.Card
import Mathlib.Algebra.BigOperators.Group.Finset.Basic
import Mathlib.Data.Fintype.BigOperators

/-!
# Counting threads by where they are

The state of a family of threads is a function `f : ι → κ` that gives each thread
its control location, and the counting arguments about them compare the number of
threads in one region of the program with counters held elsewhere. `countIn p f`
is that number, and a step of one thread is `Function.update f i k`; the lemmas of
this file say what the step does to the count: in general (`countIn_update`), where
the thread enters the region or leaves it, and where it stays on one side of its
border. `countAt c f` is the case of a single location.
-/

section Counting

variable {ι κ : Type*} [Fintype ι]

/-- The number of threads whose location satisfies `p`. -/
def countIn (p : κ → Prop) [DecidablePred p] (f : ι → κ) : ℕ :=
  (Finset.univ.filter fun i => p (f i)).card

variable {p : κ → Prop} [DecidablePred p] {f : ι → κ}

theorem countIn_eq_sum : countIn p f = ∑ i, if p (f i) then 1 else 0 := by
  rw [countIn, Finset.card_filter]

theorem countIn_pos_iff : 0 < countIn p f ↔ ∃ i, p (f i) := by
  simp [countIn, Finset.card_pos, Finset.Nonempty]

theorem countIn_eq_zero_iff : countIn p f = 0 ↔ ∀ i, ¬p (f i) := by
  simp [countIn, Finset.filter_eq_empty_iff]

/-- A thread outside of the region is not counted. -/
theorem countIn_lt_card {i : ι} (hi : ¬p (f i)) : countIn p f < Fintype.card ι :=
  Finset.card_lt_univ_of_notMem (x := i) (by simpa using hi)

theorem countIn_congr {κ' : Type*} {q : κ' → Prop} [DecidablePred q] {g : ι → κ'}
    (h : ∀ i, p (f i) ↔ q (g i)) : countIn p f = countIn q g := by
  simp only [countIn, h]

/-- A region in which exactly one thread stands. -/
theorem countIn_eq_one_iff : countIn p f = 1 ↔ ∃! i, p (f i) := by
  rw [countIn, Finset.card_eq_one]
  constructor
  · rintro ⟨i, hi⟩
    have hmem : ∀ j, p (f j) ↔ j = i := fun j => by
      have := congrArg (j ∈ ·) hi
      simpa using this
    exact ⟨i, (hmem i).mpr rfl, fun j hj => (hmem j).mp hj⟩
  · rintro ⟨i, hi, huniq⟩
    refine ⟨i, Finset.ext fun j => ?_⟩
    simp only [Finset.mem_filter, Finset.mem_univ, true_and, Finset.mem_singleton]
    exact ⟨fun hj => huniq j hj, fun hj => hj ▸ hi⟩

/-- Two threads in a region that holds at most one are the same thread. -/
theorem eq_of_countIn_le_one (h : countIn p f ≤ 1) {i j : ι} (hi : p (f i)) (hj : p (f j)) :
    i = j :=
  Finset.card_le_one.mp h i (by simpa using hi) j (by simpa using hj)

/-- Threads that all stand at one location. -/
theorem countIn_const (k : κ) : countIn p (fun _ : ι => k) = if p k then Fintype.card ι else 0 := by
  split
  · next h => simp [countIn, h]
  · next h => simp [countIn, h]

/-! ### One thread moves -/

variable [DecidableEq ι]

/-- **A step of one thread moves the count by what it leaves and what it
enters.** -/
theorem countIn_update (f : ι → κ) (i : ι) (k : κ) :
    countIn p (Function.update f i k) + (if p (f i) then 1 else 0)
      = countIn p f + (if p k then 1 else 0) := by
  -- split off the thread that moves; the others contribute what they did
  have hrest : ∀ g : ι → κ, countIn p g
      = (if p (g i) then 1 else 0) + ∑ j ∈ Finset.univ.erase i, if p (g j) then 1 else 0 :=
    fun g => by
      rw [countIn_eq_sum]
      exact (Finset.add_sum_erase _ (fun j => if p (g j) then 1 else 0) (Finset.mem_univ i)).symm
  have hsame : (∑ j ∈ Finset.univ.erase i, if p (Function.update f i k j) then 1 else 0)
      = ∑ j ∈ Finset.univ.erase i, if p (f j) then 1 else 0 :=
    Finset.sum_congr rfl fun j hj => by rw [Function.update_of_ne (Finset.ne_of_mem_erase hj)]
  rw [hrest f, hrest (Function.update f i k), hsame, Function.update_self]
  omega

theorem countIn_update_enter {i : ι} {k : κ} (hi : ¬p (f i)) (hk : p k) :
    countIn p (Function.update f i k) = countIn p f + 1 := by
  have h := countIn_update (p := p) f i k
  rw [if_neg hi, if_pos hk] at h
  exact h

theorem countIn_update_leave {i : ι} {k : κ} (hi : p (f i)) (hk : ¬p k) :
    countIn p (Function.update f i k) + 1 = countIn p f := by
  have h := countIn_update (p := p) f i k
  rw [if_pos hi, if_neg hk] at h
  exact h

theorem countIn_update_stay {i : ι} {k : κ} (h : p (f i) ↔ p k) :
    countIn p (Function.update f i k) = countIn p f := by
  have hu := countIn_update (p := p) f i k
  rw [if_congr h rfl rfl] at hu
  exact Nat.add_right_cancel hu

/-! ### A single location -/

section CountAt

variable [DecidableEq κ]

/-- The number of threads at a location. -/
def countAt (c : κ) (f : ι → κ) : ℕ := countIn (· = c) f

variable {c : κ}

omit [DecidableEq ι] in
theorem countAt_pos_iff : 0 < countAt c f ↔ ∃ i, f i = c := countIn_pos_iff

omit [DecidableEq ι] in
theorem countAt_eq_zero_iff : countAt c f = 0 ↔ ∀ i, f i ≠ c := countIn_eq_zero_iff

omit [DecidableEq ι] in
theorem eq_of_countAt_le_one (h : countAt c f ≤ 1) {i j : ι} (hi : f i = c) (hj : f j = c) :
    i = j :=
  eq_of_countIn_le_one (p := (· = c)) h hi hj

omit [DecidableEq ι] in
theorem countAt_const (k : κ) : countAt c (fun _ : ι => k) = if k = c then Fintype.card ι else 0 :=
  countIn_const k

theorem countAt_enter {i : ι} (hi : f i ≠ c) :
    countAt c (Function.update f i c) = countAt c f + 1 :=
  countIn_update_enter (p := (· = c)) hi rfl

theorem countAt_leave {i : ι} {k : κ} (hi : f i = c) (hk : k ≠ c) :
    countAt c (Function.update f i k) + 1 = countAt c f :=
  countIn_update_leave (p := (· = c)) hi hk

theorem countAt_stay {i : ι} {k : κ} (hi : f i ≠ c) (hk : k ≠ c) :
    countAt c (Function.update f i k) = countAt c f :=
  countIn_update_stay (p := (· = c)) (iff_of_false hi hk)

end CountAt

end Counting
