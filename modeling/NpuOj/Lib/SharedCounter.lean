import Mathlib.Logic.Function.Basic
import Mathlib.Logic.Function.Iterate
import Mathlib.Tactic.Common

/-!
# A shared counter without a lock

A call of `count = next(count); return count;` has three accesses to the variable: the first
reads it, the second writes the next value, and the third reads what is returned. With
several callers the accesses of others come between. Two callers that have read the same value
write the same value; and a store that comes late sets the counter back.

Whether this can happen is seen from the order of the accesses alone: it cannot if the calls do
not overlap (`SharedCounter.NoOverlap`). The counter is then what one expects of it,
`SharedCounter.eq_iterate_of_mem_calls`: a call returns the first value, with `next` applied as
often as the counter has been written.
-/

/-- Where a caller is. -/
inductive CounterPlace (α : Type*)
  /-- It is not in a call. -/
  | outside
  /-- It has read the counter, and is about to write the value that follows. -/
  | writing (a : α)
  /-- It has written, and is about to read what it returns. -/
  | returning

/-- The variable, and its callers. -/
structure SharedCounter (W α : Type*) where
  value : α
  place : W → CounterPlace α

namespace SharedCounter

variable {W α : Type*} [DecidableEq W] (next : α → α)

/-- The next access of a caller. -/
def turn (c : SharedCounter W α) (w : W) : SharedCounter W α :=
  match c.place w with
  | .outside => ⟨c.value, Function.update c.place w (.writing (next c.value))⟩
  | .writing a => ⟨a, Function.update c.place w .returning⟩
  | .returning => ⟨c.value, Function.update c.place w .outside⟩

/-- **The calls of one caller that return** in a sequence of accesses, each with what it returns
and with the number of writes until then. -/
def calls (me : W) : ℕ → SharedCounter W α → List W → List (ℕ × α)
  | _, _, [] => []
  | n, c, w :: turns => match c.place w with
    | .outside => calls me n (c.turn next w) turns
    | .writing _ => calls me (n + 1) (c.turn next w) turns
    | .returning =>
      if w = me then (n, c.value) :: calls me n (c.turn next w) turns
      else calls me n (c.turn next w) turns

/-- What a caller is about to write follows on the counter. -/
def Fresh (c : SharedCounter W α) : Prop := ∀ w a, c.place w = .writing a → a = next c.value

/-- Whoever accesses the counter is alone in a call. -/
def Undisturbed : SharedCounter W α → List W → Prop
  | _, [] => True
  | c, w :: turns => (∀ v, v ≠ w → c.place v = .outside) ∧ Undisturbed (c.turn next w) turns

/-- **The calls do not overlap**, neither with each other nor with one that was under way at the
beginning. -/
def NoOverlap (c : SharedCounter W α) (turns : List W) : Prop :=
  c.Fresh next ∧ c.Undisturbed next turns

variable {next} {c : SharedCounter W α} {me v w : W} {a : α} {n : ℕ} {turns : List W}

theorem turn_of_outside (h : c.place w = .outside) :
    c.turn next w = ⟨c.value, Function.update c.place w (.writing (next c.value))⟩ := by
  rw [turn, h]

theorem turn_of_writing (h : c.place w = .writing a) :
    c.turn next w = ⟨a, Function.update c.place w .returning⟩ := by
  rw [turn, h]

theorem turn_of_returning (h : c.place w = .returning) :
    c.turn next w = ⟨c.value, Function.update c.place w .outside⟩ := by
  rw [turn, h]

theorem place_turn_of_ne (h : v ≠ w) : (c.turn next w).place v = c.place v := by
  rw [turn]
  split <;> exact Function.update_of_ne h _ _

/-- **Step lemma**: after an access that disturbs nobody, what is about to be written is fresh. -/
theorem fresh_turn (halone : ∀ v, v ≠ w → c.place v = .outside) :
    (c.turn next w).Fresh next := by
  intro v a hv
  by_cases hvw : v = w
  · subst hvw
    cases hplace : c.place v with
    | outside =>
      rw [turn_of_outside hplace] at hv ⊢
      simp only [Function.update_self, CounterPlace.writing.injEq] at hv
      exact hv.symm
    | writing b => simp [turn_of_writing hplace] at hv
    | returning => simp [turn_of_returning hplace] at hv
  · rw [place_turn_of_ne hvw, halone v hvw] at hv
    cases hv

/-- **What a call returns** if no calls overlap. -/
theorem eq_iterate_of_mem_calls {start : α} (hvalue : c.value = next^[n] start)
    (h : c.NoOverlap next turns) {p : ℕ × α} (hp : p ∈ c.calls next me n turns) :
    p.2 = next^[p.1] start := by
  obtain ⟨hfresh, hturns⟩ := h
  induction turns generalizing c n with
  | nil => cases hp
  | cons w turns ih =>
    obtain ⟨halone, hturns⟩ := hturns
    have hrest : (c.turn next w).Fresh next := fresh_turn halone
    rw [calls] at hp
    cases hplace : c.place w with
    | outside =>
      simp only [hplace] at hp
      exact ih (by rw [turn_of_outside hplace, hvalue]) hp hrest hturns
    | writing a =>
      simp only [hplace] at hp
      refine ih ?_ hp hrest hturns
      rw [turn_of_writing hplace, hfresh w a hplace, hvalue, Function.iterate_succ_apply']
    | returning =>
      simp only [hplace] at hp
      have hvalue' : (c.turn next w).value = next^[n] start := by
        rw [turn_of_returning hplace, hvalue]
      split at hp
      · rcases List.mem_cons.mp hp with rfl | hp
        · exact hvalue
        · exact ih hvalue' hp hrest hturns
      · exact ih hvalue' hp hrest hturns

/-- A call returns after what has been written, and after its own write. -/
theorem le_of_mem_calls {p : ℕ × α} (hp : p ∈ c.calls next me n turns) :
    n ≤ p.1 ∧ (c.place me ≠ .returning → n < p.1) := by
  induction turns generalizing c n with
  | nil => cases hp
  | cons w turns ih =>
    -- the place of the caller after an access that does not put it behind its write
    have hkeep : ∀ c' : SharedCounter W α, c'.place = Function.update c.place w .outside ∨
        (∃ b, c'.place = Function.update c.place w (.writing b)) →
        c.place me ≠ .returning → c'.place me ≠ .returning := by
      rintro c' h hme
      by_cases hw : me = w
      · subst hw
        rcases h with h | ⟨b, h⟩ <;> simp [h]
      · rcases h with h | ⟨b, h⟩ <;> rwa [h, Function.update_of_ne hw]
    rw [calls] at hp
    cases hplace : c.place w with
    | outside =>
      simp only [hplace] at hp
      obtain ⟨hle, hlt⟩ := ih hp
      rw [turn_of_outside hplace] at hlt
      exact ⟨hle, fun hme => hlt (hkeep _ (Or.inr ⟨_, rfl⟩) hme)⟩
    | writing a =>
      simp only [hplace] at hp
      obtain ⟨hle, -⟩ := ih hp
      exact ⟨by omega, fun _ => by omega⟩
    | returning =>
      simp only [hplace] at hp
      split at hp
      · next hw =>
        rcases List.mem_cons.mp hp with rfl | hp
        · exact ⟨Nat.le_refl _, fun hme => absurd (hw ▸ hplace) hme⟩
        · obtain ⟨hle, -⟩ := ih hp
          exact ⟨hle, fun hme => absurd (hw ▸ hplace) hme⟩
      · obtain ⟨hle, hlt⟩ := ih hp
        rw [turn_of_returning hplace] at hlt
        exact ⟨hle, fun hme => hlt (hkeep _ (Or.inl rfl) hme)⟩

/-- The calls of one caller return one after the other, with a write between. -/
theorem calls_pairwise_lt : (c.calls next me n turns).Pairwise fun p q => p.1 < q.1 := by
  induction turns generalizing c n with
  | nil => exact .nil
  | cons w turns ih =>
    rw [calls]
    cases hplace : c.place w with
    | outside => exact ih
    | writing a => exact ih
    | returning =>
      simp only
      split
      · next hw =>
        subst hw
        refine .cons (fun p hp => (le_of_mem_calls hp).2 ?_) ih
        simp [turn_of_returning hplace]
      · exact ih

/-! ### Calls one after the other -/

/-- The accesses of whole calls, in the given order. -/
def whole (callers : List W) : List W := callers.flatMap fun w => [w, w, w]

omit [DecidableEq W] in
@[simp] theorem whole_cons {callers : List W} :
    whole (w :: callers) = w :: w :: w :: whole callers := rfl

/-- A whole call brings the counter to the next value, and its caller back. -/
theorem turn_turn_turn (h : c.place w = .outside) :
    ((c.turn next w).turn next w).turn next w = ⟨next c.value, c.place⟩ := by
  have hback : Function.update c.place w .outside = c.place := by
    rw [← h, Function.update_eq_self]
  simp [turn, h, hback]

theorem calls_whole_cons {callers : List W} (h : c.place w = .outside) :
    c.calls next me n (whole (w :: callers)) =
      if w = me then
        (n + 1, next c.value) ::
          SharedCounter.calls next me (n + 1) ⟨next c.value, c.place⟩ (whole callers)
      else SharedCounter.calls next me (n + 1) ⟨next c.value, c.place⟩ (whole callers) := by
  simp only [whole_cons, calls, h, turn_turn_turn h]
  simp [turn, h]

theorem undisturbed_whole (callers : List W) (h : ∀ v, c.place v = .outside) :
    c.Undisturbed next (whole callers) := by
  induction callers generalizing c with
  | nil => trivial
  | cons w callers ih =>
    have hone : ∀ v, v ≠ w → (c.turn next w).place v = .outside :=
      fun v hv => (place_turn_of_ne hv).trans (h v)
    refine ⟨fun v _ => h v, hone, fun v hv => (place_turn_of_ne hv).trans (hone v hv), ?_⟩
    rw [turn_turn_turn (h w)]
    exact ih h

/-- **Whole calls do not overlap**, where nobody is in a call at the beginning. -/
theorem noOverlap_whole (callers : List W) (h : ∀ v, c.place v = .outside) :
    c.NoOverlap next (whole callers) :=
  ⟨fun w a hw => absurd ((h w).symm.trans hw) (by simp), undisturbed_whole callers h⟩

/-- A caller that is alone gets one value after the other. -/
theorem calls_whole_alone (m : ℕ) (h : c.place me = .outside) :
    (c.calls next me n (whole (List.replicate m me))).map Prod.snd =
      (List.range m).map fun i => next^[i + 1] c.value := by
  induction m generalizing c n with
  | zero => rfl
  | succ m ih =>
    have hrest : (SharedCounter.calls next me (n + 1) ⟨next c.value, c.place⟩
        (whole (List.replicate m me))).map Prod.snd = _ := ih h
    rw [List.replicate_succ, calls_whole_cons h, if_pos rfl, List.map_cons, hrest,
      List.range_succ_eq_map, List.map_cons, List.map_map]
    rfl

/-- The calls of others only go on with the counter. -/
theorem calls_whole_replicate {callers : List W} (m : ℕ) (hw : w ≠ me)
    (h : ∀ v, c.place v = .outside) :
    c.calls next me n (whole (List.replicate m w ++ callers)) =
      SharedCounter.calls next me (n + m) ⟨next^[m] c.value, c.place⟩ (whole callers) := by
  induction m generalizing c n with
  | zero => rfl
  | succ m ih =>
    have hrest : SharedCounter.calls next me (n + 1) ⟨next c.value, c.place⟩
        (whole (List.replicate m w ++ callers)) = _ := ih h
    rw [List.replicate_succ, List.cons_append, calls_whole_cons (h w), if_neg hw, hrest,
      Function.iterate_succ_apply, Nat.add_assoc, Nat.add_comm 1 m]

end SharedCounter
