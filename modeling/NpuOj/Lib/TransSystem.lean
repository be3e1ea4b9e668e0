import Mathlib.Logic.Relation

/-!
# Transition systems with a guarded step

A concurrent program is described here by one function: `step s a` is the state
after action `a`, or `none` where the program cannot take that action in `s`. The
interleavings are then the lists of actions that are enabled one after the other,
and nothing has to be said about schedulers.

Two notions of reachability are needed, and they are one definition.
`TransSystem.ReachableBy ok` collects the states of the runs *all of whose steps*
satisfy a side condition `ok` on the state before the step and the action taken;
`TransSystem.Reachable` is the case of no condition. An invariant is proved once,
by `TransSystem.ReachableBy.invariant`, and a concrete run is exhibited by
evaluating `TransSystem.run`.
-/

/-- A transition system: the states a run may start in, and a guarded step. -/
structure TransSystem (σ α : Type*) where
  /-- The states a run may start in. -/
  Init : σ → Prop
  /-- The state after an action, or `none` where the action is not enabled. -/
  step : σ → α → Option σ

namespace TransSystem

variable {σ τ α β : Type*} (M : TransSystem σ α)

/-- **Reachability under a side condition**: the states of the runs every step of
which satisfies `ok`. -/
inductive ReachableBy (ok : σ → α → Prop) : σ → Prop
  /-- A run may start in any initial state. -/
  | init {s : σ} (h : M.Init s) : ReachableBy ok s
  /-- A run may be prolonged by an enabled action that satisfies the condition. -/
  | step {s s' : σ} {a : α} (h : ReachableBy ok s) (hok : ok s a)
      (hs : M.step s a = some s') : ReachableBy ok s'

/-- Reachability by any run. -/
abbrev Reachable : σ → Prop := M.ReachableBy fun _ _ => True

variable {M} {ok : σ → α → Prop} {s s' : σ}

/-- **The invariant rule.** What holds initially and is preserved by every step
that satisfies the side condition holds of every state reached. A step may use
that the state it starts from is itself reachable, so that an invariant proved
earlier need not be carried along. -/
theorem ReachableBy.invariant {I : σ → Prop} (hinit : ∀ s, M.Init s → I s)
    (hstep : ∀ s a s', M.ReachableBy ok s → I s → ok s a → M.step s a = some s' → I s')
    (h : M.ReachableBy ok s) : I s := by
  induction h with
  | init h => exact hinit _ h
  | step h ha hs ih => exact hstep _ _ _ h ih ha hs

/-- Dropping the side condition. -/
theorem ReachableBy.reachable (h : M.ReachableBy ok s) : M.Reachable s := by
  induction h with
  | init h => exact .init h
  | step _ _ hs ih => exact ih.step trivial hs

/-! ### Concrete runs -/

variable (M) in
/-- Replay a list of actions; `none` where one of them is not enabled. -/
def run : σ → List α → Option σ
  | s, [] => some s
  | s, a :: as => (M.step s a).bind fun s' => run s' as

@[simp] theorem run_nil (s : σ) : M.run s [] = some s := rfl

@[simp] theorem run_cons (s : σ) (a : α) (as : List α) :
    M.run s (a :: as) = (M.step s a).bind fun s' => M.run s' as := rfl

/-- Two steps one after the other. -/
theorem run_pair {s₁ s₂ : σ} {a b : α} (h : M.step s a = some s₁) (h' : M.step s₁ b = some s₂) :
    M.run s [a, b] = some s₂ := by
  rw [run_cons, h, Option.bind_some, run_cons, h', Option.bind_some, run_nil]

/-- A run of actions that satisfy the side condition whatever the state stays
among the reachable states. -/
theorem ReachableBy.run {as : List α} (h : M.ReachableBy ok s)
    (hok : ∀ s, ∀ a ∈ as, ok s a) (hr : M.run s as = some s') : M.ReachableBy ok s' := by
  induction as generalizing s with
  | nil =>
    obtain rfl : s = s' := by simpa using hr
    exact h
  | cons a as ih =>
    obtain ⟨s₁, hs, hr⟩ := Option.bind_eq_some_iff.mp hr
    exact ih (h.step (hok _ a List.mem_cons_self) hs)
      (fun t b hb => hok t b (List.mem_cons_of_mem a hb)) hr

/-- The end of a run that starts in an initial state is reachable. -/
theorem reachable_of_run {as : List α} (h : M.Init s) (hr : M.run s as = some s') :
    M.Reachable s' :=
  ReachableBy.run (.init h) (fun _ _ _ => trivial) hr

/-! ### Projecting one system on another -/

/-- **Simulation.** If the initial states of `M` project on initial states of `N`,
and every step of `M` projects either on a step of `N` or on no change at all,
then the reachable states of `M` project on reachable states of `N`: whatever is
proved of `N` holds of the part of `M` that `f` shows. -/
theorem Reachable.map {N : TransSystem τ β} (f : σ → τ) (hinit : ∀ s, M.Init s → N.Init (f s))
    (hstep : ∀ s a s', M.step s a = some s' → f s' = f s ∨ ∃ b, N.step (f s) b = some (f s'))
    (h : M.Reachable s) : N.Reachable (f s) := by
  induction h with
  | init h => exact .init (hinit _ h)
  | step _ _ hs ih =>
    rcases hstep _ _ _ hs with he | ⟨b, hb⟩
    · rw [he]
      exact ih
    · exact ih.step trivial hb

/-- **Simulation of the runs under a side condition**: the steps of `N` satisfy theirs where those
of `M` do. -/
theorem ReachableBy.map {N : TransSystem τ β} {okN : τ → β → Prop} (f : σ → τ)
    (hinit : ∀ s, M.Init s → N.Init (f s))
    (hstep : ∀ s a s', M.Reachable s → ok s a → M.step s a = some s' →
      f s' = f s ∨ ∃ b, okN (f s) b ∧ N.step (f s) b = some (f s'))
    (h : M.ReachableBy ok s) : N.ReachableBy okN (f s) := by
  induction h with
  | init h => exact .init (hinit _ h)
  | step h hok hs ih =>
    rcases hstep _ _ _ h.reachable hok hs with he | ⟨b, hb, hs'⟩
    · rw [he]
      exact ih
    · exact ih.step hb hs'

end TransSystem
