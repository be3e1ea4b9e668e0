import Mathlib.Algebra.Order.Group.Nat
import Mathlib.Data.Nat.Init
import NpuOj.Lib.TransSystem

/-!
# Infinite executions, fairness, and what must happen

Whether a thread ever gets somewhere is a question about infinite executions, and it has
an answer only under assumptions about the scheduler. A `TransSystem.Execution` is a
sequence of states in which each moment takes an enabled action or rests; a run that
comes to an end is one that rests for ever. It is *strongly fair* to a set of actions
(`TransSystem.Execution.StronglyFair`) if it takes one of them again and again, provided
that again and again one of them is enabled.

`TransSystem.Execution.LeadsTo` is the property to prove: whenever the first condition
holds, the second holds then or later. There are two rules. By
`TransSystem.Execution.LeadsTo.of_fair`, a condition that lasts until a fair action is
taken, and during which such an action is again and again enabled, does not last for
ever; by `TransSystem.Execution.LeadsTo.of_rank` it is enough to come closer.
-/

namespace TransSystem

variable {σ α : Type*} {M : TransSystem σ α} {ok : σ → α → Prop}

/-- **An infinite execution** whose actions all satisfy the side condition. -/
structure Execution (M : TransSystem σ α) (ok : σ → α → Prop) where
  /-- The state at each moment. -/
  state : ℕ → σ
  /-- The action taken at each moment, if any. -/
  action : ℕ → Option α
  moves : ∀ k a, action k = some a → ok (state k) a ∧ M.step (state k) a = some (state (k + 1))
  rests : ∀ k, action k = none → state (k + 1) = state k

/-- One of the actions is enabled. -/
def Enabled (M : TransSystem σ α) (A : α → Prop) (s : σ) : Prop :=
  ∃ a, A a ∧ ∃ s', M.step s a = some s'

namespace Execution

variable (e : Execution M ok)

/-- **Strong fairness** to a set of actions. -/
def StronglyFair (A : α → Prop) : Prop :=
  (∀ k, ∃ l, k ≤ l ∧ M.Enabled A (e.state l)) → ∀ k, ∃ l, k ≤ l ∧ ∃ a, A a ∧ e.action l = some a

/-- Whenever `P` holds, `Q` holds then or later. -/
def LeadsTo (P Q : σ → Prop) : Prop := ∀ k, P (e.state k) → ∃ l, k ≤ l ∧ Q (e.state l)

variable {e}

/-- The states of an execution that starts from a reachable one are reachable. -/
theorem reachableBy (h : M.ReachableBy ok (e.state 0)) (k : ℕ) : M.ReachableBy ok (e.state k) := by
  induction k with
  | zero => exact h
  | succ k ih =>
    cases ha : e.action k with
    | none => rwa [e.rests k ha]
    | some a => exact ih.step (e.moves k a ha).1 (e.moves k a ha).2

/-- So are they if the side condition is forgotten. -/
theorem reachable (h : M.Reachable (e.state 0)) (k : ℕ) : M.Reachable (e.state k) := by
  induction k with
  | zero => exact h
  | succ k ih =>
    cases ha : e.action k with
    | none => rwa [e.rests k ha]
    | some a => exact ih.step trivial (e.moves k a ha).2

/-- What every step keeps holds from some moment on. -/
theorem always_of_stable {P : σ → Prop}
    (hstep : ∀ k a, P (e.state k) → e.action k = some a → P (e.state (k + 1))) {k l : ℕ}
    (hk : P (e.state k)) (hkl : k ≤ l) : P (e.state l) := by
  induction l, hkl using Nat.le_induction with
  | base => exact hk
  | succ l _ ih =>
    cases ha : e.action l with
    | none => rwa [e.rests l ha]
    | some a => exact hstep l a ih ha

/-! ### The rules -/

/-- **The rule of strong fairness.** As long as `P` lasts no fair action has been taken,
one that is taken gives `Q`, and again and again there is a moment at which `P` would
have one of them enabled. -/
theorem LeadsTo.of_fair {P Q : σ → Prop} {A : α → Prop} (hfair : e.StronglyFair A)
    (hkeep : ∀ k a, P (e.state k) → e.action k = some a →
      (¬A a ∧ P (e.state (k + 1))) ∨ Q (e.state (k + 1)))
    (henabled : ∀ k, ∃ l, k ≤ l ∧ (P (e.state l) → M.Enabled A (e.state l))) :
    e.LeadsTo P Q := by
  intro k hk
  by_contra hnever
  have hnot : ∀ l, k ≤ l → ¬Q (e.state l) := fun l hkl hl => hnever ⟨l, hkl, hl⟩
  -- so `P` lasts, and none of the fair actions is ever taken
  have hlasts : ∀ l, k ≤ l → P (e.state l) := by
    intro l hkl
    induction l, hkl using Nat.le_induction with
    | base => exact hk
    | succ l hkl ih =>
      cases ha : e.action l with
      | none => rwa [e.rests l ha]
      | some a =>
        rcases hkeep l a ih ha with ⟨-, hP⟩ | hQ
        · exact hP
        · exact absurd hQ (hnot (l + 1) (hkl.trans l.le_succ))
  have hoften : ∀ m, ∃ l, m ≤ l ∧ M.Enabled A (e.state l) := by
    intro m
    obtain ⟨l, hml, hl⟩ := henabled (max k m)
    exact ⟨l, (le_max_right k m).trans hml, hl (hlasts l ((le_max_left k m).trans hml))⟩
  obtain ⟨l, hkl, a, hA, ha⟩ := hfair hoften k
  rcases hkeep l a (hlasts l hkl) ha with ⟨hnA, -⟩ | hQ
  · exact hnA hA
  · exact hnot (l + 1) (hkl.trans l.le_succ) hQ

/-- **The rule of a rank**: what leads to the goal or to a smaller rank leads to the
goal. -/
theorem LeadsTo.of_rank {P Q : σ → Prop} (r : σ → ℕ)
    (h : ∀ n, e.LeadsTo (fun s => P s ∧ r s = n) fun s => Q s ∨ P s ∧ r s < n) : e.LeadsTo P Q := by
  intro k hk
  induction hn : r (e.state k) using Nat.strong_induction_on generalizing k with
  | _ n ih =>
    obtain ⟨l, hkl, hQ | ⟨hP, hlt⟩⟩ := h n k ⟨hk, hn⟩
    · exact ⟨l, hkl, hQ⟩
    · obtain ⟨m, hlm, hm⟩ := ih _ hlt l hP rfl
      exact ⟨m, hkl.trans hlm, hm⟩

/-- **Fairness to a part of the actions.** A thread that is owed the actions `A` takes one of its
actions `B` again and again, if again and again it is at a point, `E`, from where on it gets to
one: `P` lasts until then, and the other actions of the thread use up a rank that nobody
restores. -/
theorem StronglyFair.narrow {A B : α → Prop} {E : σ → Prop} (hfair : e.StronglyFair A)
    (P : σ → Prop) (r : σ → ℕ)
    (hstart : ∀ k, E (e.state k) → P (e.state k) ∧ M.Enabled A (e.state k))
    (hkeep : ∀ k a, P (e.state k) → e.action k = some a → ¬B a →
      P (e.state (k + 1)) ∧ r (e.state (k + 1)) ≤ r (e.state k) ∧
        (A a → r (e.state (k + 1)) < r (e.state k)))
    (hoften : ∀ k, ∃ l, k ≤ l ∧ E (e.state l)) (k : ℕ) :
    ∃ l, k ≤ l ∧ ∃ a, B a ∧ e.action l = some a := by
  by_contra hnone
  obtain ⟨l, hkl, hl⟩ := hoften k
  have hnot : ∀ m a, l ≤ m → e.action m = some a → ¬B a := fun m a hlm ha hB =>
    hnone ⟨m, hkl.trans hlm, a, hB, ha⟩
  -- from `l` on `P` lasts, and the rank never goes up
  have hmove : ∀ m, l ≤ m → P (e.state m) →
      P (e.state (m + 1)) ∧ r (e.state (m + 1)) ≤ r (e.state m) := by
    intro m hlm hP
    cases ha : e.action m with
    | none =>
      rw [e.rests m ha]
      exact ⟨hP, le_rfl⟩
    | some a =>
      obtain ⟨hP', hr, -⟩ := hkeep m a hP ha (hnot m a hlm ha)
      exact ⟨hP', hr⟩
  have hlasts : ∀ m, l ≤ m → P (e.state m) := by
    intro m hlm
    induction m, hlm using Nat.le_induction with
    | base => exact (hstart l hl).1
    | succ m hlm ih => exact (hmove m hlm ih).1
  have hdown : ∀ m m', l ≤ m → m ≤ m' → r (e.state m') ≤ r (e.state m) := by
    intro m m' hlm hmm'
    induction m', hmm' using Nat.le_induction with
    | base => exact le_rfl
    | succ m' hmm' ih => exact (hmove m' (hlm.trans hmm') (hlasts m' (hlm.trans hmm'))).2.trans ih
  -- and the actions of the thread that are not in `B` cannot go on for ever
  have hacts := hfair fun m => by
    obtain ⟨m', hm, hE⟩ := hoften m
    exact ⟨m', hm, (hstart m' hE).2⟩
  have hfalse : ∀ n m, l ≤ m → r (e.state m) = n → False := by
    intro n
    induction n using Nat.strong_induction_on with
    | _ n ih =>
      rintro m hlm rfl
      obtain ⟨m', hmm', a, hA, ha⟩ := hacts m
      have hlm' := hlm.trans hmm'
      have hlt := (hkeep m' a (hlasts m' hlm') ha (hnot m' a hlm' ha)).2.2 hA
      exact ih _ (hlt.trans_le (hdown m m' hlm hmm')) (m' + 1) (hlm'.trans m'.le_succ) rfl
  exact hfalse _ l le_rfl rfl

/-- **Fairness to more actions**: those that are not owed, but followed by one of the kind whenever
they are enabled. -/
theorem StronglyFair.widen {A C : α → Prop} (hfair : e.StronglyFair A) (hsub : ∀ a, A a → C a)
    (hreturns : ∀ k a, C a → ¬A a → (∃ s', M.step (e.state k) a = some s') →
      ∃ l, k ≤ l ∧ ∃ b, C b ∧ e.action l = some b) : e.StronglyFair C := by
  intro hoften k
  by_contra hnone
  have howed : ∀ m, ∃ l, m ≤ l ∧ M.Enabled A (e.state l) := by
    intro m
    obtain ⟨l, hl, a, ha, henabled⟩ := hoften (max k m)
    refine ⟨l, (le_max_right k m).trans hl, a, ?_, henabled⟩
    by_contra hnot
    obtain ⟨n, hln, hn⟩ := hreturns l a ha hnot henabled
    exact hnone ⟨n, ((le_max_left k m).trans hl).trans hln, hn⟩
  obtain ⟨l, hkl, a, ha, hact⟩ := hfair howed k
  exact hnone ⟨l, hkl, a, hsub a ha, hact⟩

/-- One thing leads to another, which leads to a third. -/
theorem LeadsTo.trans {P Q R : σ → Prop} (h : e.LeadsTo P Q) (h' : e.LeadsTo Q R) :
    e.LeadsTo P R := by
  intro k hk
  obtain ⟨l, hkl, hl⟩ := h k hk
  obtain ⟨m, hlm, hm⟩ := h' l hl
  exact ⟨m, hkl.trans hlm, hm⟩

/-! ### Building executions -/

/-- The execution that rests for ever. -/
def idle (M : TransSystem σ α) (ok : σ → α → Prop) (s : σ) : Execution M ok where
  state _ := s
  action _ := none
  moves _ _ h := by cases h
  rests _ _ := rfl

theorem stronglyFair_idle {A : α → Prop} {s : σ} (h : ¬M.Enabled A s) :
    (idle M ok s).StronglyFair A := by
  intro hoften
  obtain ⟨_, -, henabled⟩ := hoften 0
  exact absurd henabled h

/-- An execution with one action before it. -/
def cons (e : Execution M ok) (s : σ) (a : α) (hok : ok s a)
    (hstep : M.step s a = some (e.state 0)) : Execution M ok where
  state
    | 0 => s
    | k + 1 => e.state k
  action
    | 0 => some a
    | k + 1 => e.action k
  moves := by
    rintro (_ | k) b hb
    · obtain rfl := Option.some.inj hb
      exact ⟨hok, hstep⟩
    · exact e.moves k b hb
  rests := by
    rintro (_ | k) hk
    · cases hk
    · exact e.rests k hk

theorem StronglyFair.cons {A : α → Prop} {s : σ} {a : α} {hok : ok s a}
    {hstep : M.step s a = some (e.state 0)} (h : e.StronglyFair A) :
    (e.cons s a hok hstep).StronglyFair A := by
  intro hoften k
  have htail : ∀ k, ∃ l, k ≤ l ∧ M.Enabled A (e.state l) := by
    intro k
    obtain ⟨_ | l, hkl, hl⟩ := hoften (k + 1)
    · cases hkl
    · exact ⟨l, Nat.le_of_succ_le_succ hkl, hl⟩
  obtain ⟨l, hkl, ha⟩ := h htail k
  exact ⟨l + 1, hkl.trans l.le_succ, ha⟩

/-- **A finite run is an execution**, which rests at its end and is fair to all actions that are
not enabled there. -/
theorem exists_of_run {as : List α} {s s' : σ} (hok : ∀ s, ∀ a ∈ as, ok s a)
    (hr : M.run s as = some s') :
    ∃ e : Execution M ok, e.state 0 = s ∧ (∀ k, as.length ≤ k → e.state k = s') ∧
      ∀ A, ¬M.Enabled A s' → e.StronglyFair A := by
  induction as generalizing s with
  | nil =>
    obtain rfl : s = s' := by simpa using hr
    exact ⟨idle M ok s, rfl, fun _ _ => rfl, fun A => stronglyFair_idle⟩
  | cons a as ih =>
    obtain ⟨s₁, hs, hr⟩ := Option.bind_eq_some_iff.mp hr
    obtain ⟨e, rfl, hend, hfair⟩ := ih (fun t b hb => hok t b (List.mem_cons_of_mem a hb)) hr
    refine ⟨e.cons s a (hok s a List.mem_cons_self) hs, rfl, ?_, fun A hA => (hfair A hA).cons⟩
    rintro (_ | k) hk
    · cases hk
    · exact hend k (Nat.le_of_succ_le_succ hk)

/-! ### An execution seen through another system -/

variable {τ β : Type*} {N : TransSystem τ β}

/-- **The projection of an execution**: every action is seen as one of the other system, or is
not seen at all. -/
def map (e : Execution M ok) (f : σ → τ) (g : σ → α → Option β)
    (hseen : ∀ s a s' b, g s a = some b → M.step s a = some s' → N.step (f s) b = some (f s'))
    (hunseen : ∀ s a s', g s a = none → M.step s a = some s' → f s' = f s) :
    Execution N fun _ _ => True where
  state k := f (e.state k)
  action k := (e.action k).bind (g (e.state k))
  moves k b hb := by
    obtain ⟨a, ha, hg⟩ := Option.bind_eq_some_iff.mp hb
    exact ⟨trivial, hseen _ a _ b hg (e.moves k a ha).2⟩
  rests k hk := by
    cases ha : e.action k with
    | none => rw [e.rests k ha]
    | some a =>
      rw [ha, Option.bind_some] at hk
      exact hunseen _ a _ hk (e.moves k a ha).2

end Execution

end TransSystem
