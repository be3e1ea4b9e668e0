import Mathlib.Algebra.BigOperators.Fin
import Mathlib.Algebra.Order.BigOperators.Group.Finset
import Mathlib.Data.Fintype.EquivFin

/-!
# Passes with a counter

A pass goes through a list and says something of each item. What it says depends on the
item and on a counter, and every item adds to the counter: the items are judged one by one,
but what an item is judged to be may depend on those before it.

Where a greater counter can change the answer on an item only once, the answers do not
depend on the order of the items exactly if no item is answered differently at the front
and behind all the others (`orderFree_iff`).
-/

section Pass

variable {α β : Type*} {T : α → ℕ → β} {A : α → ℕ}

/-- The answers on the items of a list: `T` answers, and `A` is what an item adds. -/
def passOver (T : α → ℕ → β) (A : α → ℕ) : ℕ → List α → List β
  | _, [] => []
  | σ, a :: as => T a σ :: passOver T A (σ + A a) as

theorem passOver_getElem? (σ : ℕ) (as : List α) (i : ℕ) :
    (passOver T A σ as)[i]? = as[i]?.map fun a => T a (σ + ((as.take i).map A).sum) := by
  induction as generalizing σ i with
  | nil => simp [passOver]
  | cons a as ih =>
    rcases i with _ | i
    · simp [passOver]
    · simp [passOver, ih, Nat.add_assoc]

/-- The counter before the item at the given place. -/
def countBefore {n : ℕ} (A : α → ℕ) (f : Fin n → α) (σ : ℕ) (i : Fin n) : ℕ :=
  σ + ∑ j : Fin n with j < i, A (f j)

theorem passOver_ofFn {n : ℕ} (f : Fin n → α) (σ : ℕ) :
    passOver T A σ (List.ofFn f) = List.ofFn fun i => T (f i) (countBefore A f σ i) := by
  refine List.ext_getElem? fun i => ?_
  rw [passOver_getElem?, List.getElem?_ofFn, List.getElem?_ofFn]
  split
  · next hi =>
    have hsum : (((List.ofFn f).take i).map A).sum = ∑ j : Fin n with j < ⟨i, hi⟩, A (f j) := by
      rw [List.map_take, List.map_ofFn, List.sum_take_ofFn]
      rfl
    rw [Option.map_some, hsum, countBefore]
  · rfl

/-- What all the others add. -/
def othersAdd {n : ℕ} (A : α → ℕ) (f : Fin n → α) (i : Fin n) : ℕ :=
  ∑ j ∈ Finset.univ.erase i, A (f j)

/-- The answer is settled by the least and the greatest value of the counter. -/
def Settles (T : α → ℕ → β) : Prop :=
  ∀ a x y z, x ≤ y → y ≤ z → T a x = T a z → T a y = T a x

section Orders

variable {n : ℕ} (f : Fin n → α) (σ : ℕ) (e : Equiv.Perm (Fin n)) (i : Fin n)

/-- In another order the others add the same. -/
theorem othersAdd_comp : othersAdd A (f ∘ e) i = othersAdd A f (e i) := by
  refine Finset.sum_equiv e (fun j => ?_) fun j _ => rfl
  simp [e.injective.ne_iff]

theorem countBefore_le : countBefore A f σ i ≤ σ + othersAdd A f i := by
  refine Nat.add_le_add_left (Finset.sum_le_sum_of_subset fun j hj => ?_) σ
  have hlt : j < i := (Finset.mem_filter.mp hj).2
  exact Finset.mem_erase.mpr ⟨hlt.ne, Finset.mem_univ j⟩

/-- The first item finds the counter as it was. -/
theorem countBefore_of_isLeast (h : ∀ j, i ≤ j) : countBefore A f σ i = σ := by
  have hempty : (Finset.univ.filter fun j : Fin n => j < i) = ∅ :=
    Finset.filter_eq_empty_iff.mpr fun j _ => not_lt.mpr (h j)
  rw [countBefore, hempty, Finset.sum_empty, Nat.add_zero]

/-- The last item comes after all the others. -/
theorem countBefore_of_isGreatest (h : ∀ j, j ≤ i) : countBefore A f σ i = σ + othersAdd A f i := by
  have hothers : (Finset.univ.filter fun j : Fin n => j < i) = Finset.univ.erase i := by
    ext j
    simp only [Finset.mem_filter, Finset.mem_univ, true_and, Finset.mem_erase, and_true]
    exact ⟨fun hlt => hlt.ne, fun hne => lt_of_le_of_ne (h j) hne⟩
  rw [countBefore, hothers, othersAdd]

end Orders

/-- What is answered alike in front of all the others and behind them is answered so at every
place. -/
theorem Settles.countBefore (hT : Settles T) {n : ℕ} {f : Fin n → α} {σ : ℕ} {i : Fin n}
    (h : T (f i) σ = T (f i) (σ + othersAdd A f i)) :
    T (f i) (countBefore A f σ i) = T (f i) σ :=
  hT _ _ _ _ (Nat.le_add_right _ _) (countBefore_le f σ i) h

/-- **When the answers do not depend on the order**: each item is answered in front of all
the others as it is behind them. -/
theorem orderFree_iff (hT : Settles T) {n : ℕ} (f : Fin n → α) (σ : ℕ) :
    (∀ (e : Equiv.Perm (Fin n)) (i : Fin n),
        T (f (e i)) (countBefore A (f ∘ e) σ i) = T (f (e i)) (countBefore A f σ (e i))) ↔
      ∀ i, T (f i) σ = T (f i) (σ + othersAdd A f i) := by
  constructor
  · -- the item is exchanged with the first one, and with the last one
    intro h i
    have hn : 0 < n := i.pos
    have hfirst := h (Equiv.swap ⟨0, hn⟩ i) ⟨0, hn⟩
    have hlast := h (Equiv.swap ⟨n - 1, by omega⟩ i) ⟨n - 1, by omega⟩
    rw [countBefore_of_isLeast _ _ _ fun j => Nat.zero_le j, Equiv.swap_apply_left] at hfirst
    rw [countBefore_of_isGreatest _ _ _ fun j => Fin.le_def.mpr (Nat.le_sub_one_of_lt j.isLt),
      othersAdd_comp, Equiv.swap_apply_left] at hlast
    rw [hfirst, hlast]
  · intro h e i
    have hother : T ((f ∘ e) i) σ = T ((f ∘ e) i) (σ + othersAdd A (f ∘ e) i) := by
      rw [othersAdd_comp]
      exact h (e i)
    exact (hT.countBefore hother).trans (hT.countBefore (h (e i))).symm

end Pass
