import Mathlib.Data.Finset.Insert
import Mathlib.Data.Finset.Basic
import Mathlib.Logic.Function.Basic

/-!
# What the children of a process inherit

A child that is forked holds whatever the process holds at that moment, and keeps it until it
ends, whatever becomes of it in the process. So the children that hold a resource are those that
were forked while the process held it, and they form an interval in the order of the forks.

A resource that the process holds has been held since a fork (`Family.HeldSince`), one that it has
given back was held between two (`Family.HeldBetween`); the operations of a process keep these two
facts about the resources they do not touch. A resource is gone (`Family.Released`) once the
process and all children that are alive are without it, which for a resource that the process has
given back is a matter of the children between the two forks: `Family.HeldBetween.released_iff`.
-/

/-- **A process and the children it has forked**, which are numbered in the order of the forks. -/
structure Family (ρ : Type*) where
  /-- What the process itself holds. -/
  own : Finset ρ
  /-- The number of forks. -/
  forks : ℕ
  /-- What a child has inherited. -/
  inherited : ℕ → Finset ρ
  alive : ℕ → Bool

namespace Family

variable {ρ : Type*} {f : Family ρ} {r r' : ρ} {first last c j : ℕ}

/-- A process that holds nothing and has no children. -/
def start (ρ : Type*) : Family ρ where
  own := ∅
  forks := 0
  inherited _ := ∅
  alive _ := false

/-- A child is forked. -/
def fork (f : Family ρ) : Family ρ where
  own := f.own
  forks := f.forks + 1
  inherited := Function.update f.inherited f.forks f.own
  alive := Function.update f.alive f.forks true

/-- A child ends. -/
def bury (f : Family ρ) (j : ℕ) : Family ρ := { f with alive := Function.update f.alive j false }

/-- No live child holds it, nor does the process. -/
def Released (f : Family ρ) (r : ρ) : Prop :=
  r ∉ f.own ∧ ∀ j < f.forks, f.alive j = true → r ∉ f.inherited j

section

variable [DecidableEq ρ]

/-- The process comes to hold something. -/
def acquire (f : Family ρ) (r : ρ) : Family ρ := { f with own := insert r f.own }

/-- The process gives something back. -/
def release (f : Family ρ) (r : ρ) : Family ρ := { f with own := f.own.erase r }

instance : Decidable (f.Released r) := inferInstanceAs (Decidable (_ ∧ _))

end

@[simp] theorem forks_fork : f.fork.forks = f.forks + 1 := rfl

theorem alive_fork_of_lt (h : j < f.forks) : f.fork.alive j = f.alive j :=
  Function.update_of_ne h.ne _ _

theorem inherited_fork_of_lt (h : j < f.forks) : f.fork.inherited j = f.inherited j :=
  Function.update_of_ne h.ne _ _

/-- A child that is dead stays dead when another one ends. -/
theorem alive_bury_eq_false (h : f.alive c = false) : (f.bury j).alive c = false := by
  rcases eq_or_ne c j with rfl | hne
  · exact Function.update_self ..
  · exact (Function.update_of_ne hne _ _).trans h

/-! ### No child before its fork -/

/-- Children that have not been forked hold nothing and are not alive. -/
structure Wf (f : Family ρ) : Prop where
  unforked : ∀ j, f.forks ≤ j → f.inherited j = ∅
  lt_of_alive : ∀ j, f.alive j = true → j < f.forks

theorem wf_start : (start ρ).Wf := ⟨fun _ _ => rfl, nofun⟩

theorem Wf.acquire [DecidableEq ρ] (h : f.Wf) : (f.acquire r).Wf := ⟨h.unforked, h.lt_of_alive⟩

theorem Wf.release [DecidableEq ρ] (h : f.Wf) : (f.release r).Wf := ⟨h.unforked, h.lt_of_alive⟩

theorem Wf.fork (h : f.Wf) : f.fork.Wf where
  unforked j hj := (Function.update_of_ne (by simp at hj; omega) _ _).trans
    (h.unforked j (by simp at hj; omega))
  lt_of_alive j hj := by
    by_cases hjf : j = f.forks
    · exact hjf ▸ Nat.lt_succ_self _
    · have hlt := h.lt_of_alive j ((Function.update_of_ne hjf _ _).symm.trans hj)
      exact Nat.lt_succ_of_lt hlt

theorem Wf.bury (h : f.Wf) : (f.bury j).Wf where
  unforked := h.unforked
  lt_of_alive c hc := h.lt_of_alive c (by
    by_contra hdead
    rw [alive_bury_eq_false (Bool.not_eq_true _ ▸ hdead)] at hc
    cases hc)

/-! ### Since a fork -/

/-- **The process has held it since the given fork**, and so have the children since then. -/
structure HeldSince (f : Family ρ) (r : ρ) (first : ℕ) : Prop where
  own : r ∈ f.own
  inherited : ∀ j, r ∈ f.inherited j ↔ first ≤ j ∧ j < f.forks

/-- **The process held it between two forks**, and the children of that time have it. -/
structure HeldBetween (f : Family ρ) (r : ρ) (first last : ℕ) : Prop where
  own : r ∉ f.own
  le : last ≤ f.forks
  inherited : ∀ j, r ∈ f.inherited j ↔ first ≤ j ∧ j < last

section

variable [DecidableEq ρ]

/-- What nobody has held is held from now on. -/
theorem HeldSince.of_acquire (h : ∀ j, r ∉ f.inherited j) : (f.acquire r).HeldSince r f.forks where
  own := Finset.mem_insert_self r f.own
  inherited j := iff_of_false (h j) fun hj => absurd hj.2 hj.1.not_gt

theorem HeldSince.acquire (h : f.HeldSince r first) : (f.acquire r').HeldSince r first where
  own := Finset.mem_insert_of_mem h.own
  inherited := h.inherited

theorem HeldSince.release (h : f.HeldSince r first) (hne : r ≠ r') :
    (f.release r').HeldSince r first where
  own := Finset.mem_erase_of_ne_of_mem hne h.own
  inherited := h.inherited

/-- **The interval is closed** when the process gives it back. -/
theorem HeldSince.heldBetween (h : f.HeldSince r first) :
    (f.release r).HeldBetween r first f.forks where
  own := Finset.notMem_erase r f.own
  le := le_rfl
  inherited := h.inherited

theorem HeldBetween.acquire (h : f.HeldBetween r first last) (hne : r ≠ r') :
    (f.acquire r').HeldBetween r first last where
  own hmem := (Finset.mem_insert.mp hmem).elim hne h.own
  le := h.le
  inherited := h.inherited

theorem HeldBetween.release (h : f.HeldBetween r first last) :
    (f.release r').HeldBetween r first last where
  own hmem := h.own (Finset.mem_of_mem_erase hmem)
  le := h.le
  inherited := h.inherited

end

theorem HeldSince.bury (h : f.HeldSince r first) : (f.bury j).HeldSince r first :=
  ⟨h.own, h.inherited⟩

theorem HeldBetween.bury (h : f.HeldBetween r first last) : (f.bury j).HeldBetween r first last :=
  ⟨h.own, h.le, h.inherited⟩

/-- **The interval goes on** with a fork. -/
theorem HeldSince.fork (h : f.HeldSince r first) (hle : first ≤ f.forks) :
    f.fork.HeldSince r first where
  own := h.own
  inherited j := by
    rcases eq_or_ne j f.forks with rfl | hne
    · simp [Family.fork, h.own, hle]
    · rw [show f.fork.inherited j = f.inherited j from Function.update_of_ne hne _ _, h.inherited,
        forks_fork]
      omega

/-- A child that is forked later has nothing of it. -/
theorem HeldBetween.fork (h : f.HeldBetween r first last) : f.fork.HeldBetween r first last where
  own := h.own
  le := h.le.trans f.forks.le_succ
  inherited j := by
    have hle := h.le
    rcases eq_or_ne j f.forks with rfl | hne
    · refine iff_of_false ?_ (by omega)
      rw [show f.fork.inherited f.forks = f.own from Function.update_self ..]
      exact h.own
    · rw [show f.fork.inherited j = f.inherited j from Function.update_of_ne hne _ _, h.inherited]

/-- **When it is gone**: the process has given it back, and all children of that time have
ended. -/
theorem HeldBetween.released_iff (h : f.HeldBetween r first last) :
    f.Released r ↔ ∀ j, first ≤ j → j < last → f.alive j = false := by
  constructor
  · intro hgone j hfirst hlast
    refine Bool.eq_false_iff.mpr fun halive => ?_
    exact hgone.2 j (hlast.trans_le h.le) halive ((h.inherited j).mpr ⟨hfirst, hlast⟩)
  · intro hdead
    refine ⟨h.own, fun j _ halive hmem => ?_⟩
    obtain ⟨hfirst, hlast⟩ := (h.inherited j).mp hmem
    simp [hdead j hfirst hlast] at halive

end Family
