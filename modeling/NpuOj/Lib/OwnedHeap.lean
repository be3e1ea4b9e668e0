import Mathlib.Data.Nat.Notation
import Mathlib.Logic.Function.Basic

/-!
# A heap whose cells have owners

A program that frees by hand is right if every cell that is allocated belongs to exactly one of its
pointers, and every pointer that is not null has a cell. `Heap.OwnedBy` says so of a heap and the
pointers of a family of owners. Under this condition a pointer can be freed, once, which takes its
cell away and nobody else's (`Heap.OwnedBy.free`), and a null pointer can be set to a new cell
(`Heap.OwnedBy.malloc`). What the owners have is `Heap.contents`, and each of the two operations
changes it at one place.

Nothing is assumed about the addresses that `malloc` returns, but that they are not in use.
-/

/-- What the allocated cells hold. -/
abbrev Heap (α : Type*) := ℕ → Option α

/-- What may go wrong with a pointer. -/
inductive HeapFault
  /-- A cell is freed or read that is not allocated. -/
  | notAllocated (a : ℕ)
  deriving DecidableEq, Repr

namespace Heap

variable {ι α : Type*} {h : Heap α} {own : ι → Option ℕ} {v u : ι} {a b : ℕ} {x : α}

def read (h : Heap α) (a : ℕ) : Except HeapFault α :=
  match h a with
  | some x => .ok x
  | none => .error (.notAllocated a)

def free (h : Heap α) (a : ℕ) : Except HeapFault (Heap α) :=
  match h a with
  | some _ => .ok (Function.update h a none)
  | none => .error (.notAllocated a)

/-- The heap after an allocation, if the address was not in use. -/
def malloc (h : Heap α) (a : ℕ) (x : α) : Option (Heap α) :=
  match h a with
  | some _ => none
  | none => some (Function.update h a (some x))

theorem read_of_eq_some (ha : h a = some x) : h.read a = .ok x := by
  rw [read, ha]

theorem free_of_eq_some (ha : h a = some x) : h.free a = .ok (Function.update h a none) := by
  rw [free, ha]

theorem malloc_eq_some {h' : Heap α} (hm : h.malloc a x = some h') :
    h a = none ∧ h' = Function.update h a (some x) := by
  rw [malloc] at hm
  split at hm
  · cases hm
  · next ha => exact ⟨ha, (Option.some.inj hm).symm⟩

/-- **Every cell has exactly one owner**, and every pointer has a cell. -/
structure OwnedBy (h : Heap α) (own : ι → Option ℕ) : Prop where
  live : ∀ v a, own v = some a → h a ≠ none
  apart : ∀ v u a, own v = some a → own u = some a → v = u
  /-- Nothing is lost. -/
  owned : ∀ a, h a ≠ none → ∃ v, own v = some a

/-- What an owner has. -/
def contents (h : Heap α) (own : ι → Option ℕ) (v : ι) : Option α := (own v).bind h

theorem ownedBy_empty : OwnedBy (fun _ => none : Heap α) (fun _ : ι => none) :=
  ⟨nofun, nofun, fun _ ha => absurd rfl ha⟩

theorem OwnedBy.exists_eq_some (ho : h.OwnedBy own) (hv : own v = some a) : ∃ x, h a = some x :=
  Option.ne_none_iff_exists'.mp (ho.live v a hv)

/-- Another owner has another cell. -/
theorem OwnedBy.ne_of_ne (ho : h.OwnedBy own) (hv : own v = some a) (hu : own u = some b)
    (hne : u ≠ v) : b ≠ a := by
  rintro rfl
  exact hne (ho.apart u v b hu hv)

variable [DecidableEq ι]

/-- **A pointer is freed** and set to null. -/
theorem OwnedBy.free (ho : h.OwnedBy own) (hv : own v = some a) :
    OwnedBy (Function.update h a none) (Function.update own v none) where
  live u b hu := by
    rcases eq_or_ne u v with rfl | hne
    · simp at hu
    · rw [Function.update_of_ne hne] at hu
      rw [Function.update_of_ne (ho.ne_of_ne hv hu hne)]
      exact ho.live u b hu
  apart u u' b hu hu' := by
    rcases eq_or_ne u v with rfl | hne
    · simp at hu
    rcases eq_or_ne u' v with rfl | hne'
    · simp at hu'
    rw [Function.update_of_ne hne] at hu
    rw [Function.update_of_ne hne'] at hu'
    exact ho.apart u u' b hu hu'
  owned b hb := by
    have hba : b ≠ a := by
      rintro rfl
      simp at hb
    rw [Function.update_of_ne hba] at hb
    obtain ⟨u, hu⟩ := ho.owned b hb
    refine ⟨u, ?_⟩
    rw [Function.update_of_ne ?_]
    · exact hu
    · rintro rfl
      exact hba (Option.some.inj (hu.symm.trans hv))

/-- **A null pointer is set to a new cell.** -/
theorem OwnedBy.malloc (ho : h.OwnedBy own) (hv : own v = none) (ha : h a = none) :
    OwnedBy (Function.update h a (some x)) (Function.update own v (some a)) where
  live u b hu := by
    rcases eq_or_ne b a with rfl | hba
    · simp
    rcases eq_or_ne u v with rfl | hne
    · rw [Function.update_self] at hu
      exact absurd (Option.some.inj hu).symm hba
    · rw [Function.update_of_ne hba]
      rw [Function.update_of_ne hne] at hu
      exact ho.live u b hu
  apart u u' b hu hu' := by
    have hnot : ∀ w, w ≠ v → Function.update own v (some a) w = some b → b ≠ a := by
      rintro w hw hwb rfl
      rw [Function.update_of_ne hw] at hwb
      exact ho.live w b hwb ha
    rcases eq_or_ne u v with rfl | hne <;> rcases eq_or_ne u' u with rfl | hne'
    · rfl
    · rw [Function.update_self] at hu
      exact absurd (Option.some.inj hu).symm (hnot u' hne' hu')
    · rfl
    · rcases eq_or_ne u' v with rfl | hv'
      · rw [Function.update_self] at hu'
        exact absurd (Option.some.inj hu').symm (hnot u hne hu)
      · rw [Function.update_of_ne hne] at hu
        rw [Function.update_of_ne hv'] at hu'
        exact ho.apart u u' b hu hu'
  owned b hb := by
    rcases eq_or_ne b a with rfl | hba
    · exact ⟨v, Function.update_self ..⟩
    · rw [Function.update_of_ne hba] at hb
      obtain ⟨u, hu⟩ := ho.owned b hb
      refine ⟨u, ?_⟩
      rw [Function.update_of_ne ?_]
      · exact hu
      · rintro rfl
        rw [hv] at hu
        cases hu

/-- What is freed is nobody else's. -/
theorem OwnedBy.contents_free (ho : h.OwnedBy own) (hv : own v = some a) (hne : u ≠ v) :
    contents (Function.update h a none) (Function.update own v none) u = h.contents own u := by
  rw [contents, contents, Function.update_of_ne hne]
  cases hu : own u with
  | none => rfl
  | some b => exact Function.update_of_ne (ho.ne_of_ne hv hu hne) _ _

theorem contents_free_self : contents (Function.update h a none) (Function.update own v none) v
    = none := by
  simp [contents]

/-- What is allocated was nobody's. -/
theorem OwnedBy.contents_malloc (ho : h.OwnedBy own) (ha : h a = none) (hne : u ≠ v) :
    contents (Function.update h a (some x)) (Function.update own v (some a)) u
      = h.contents own u := by
  rw [contents, contents, Function.update_of_ne hne]
  cases hu : own u with
  | none => rfl
  | some b =>
    refine Function.update_of_ne ?_ _ _
    rintro rfl
    exact ho.live u b hu ha

theorem contents_malloc_self : contents (Function.update h a (some x))
    (Function.update own v (some a)) v = some x := by
  simp [contents]

end Heap
