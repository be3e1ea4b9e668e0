import Mathlib.Data.Finset.Card
import Mathlib.Data.List.Basic
import Mathlib.Tactic.Common

/-!
# Pipes and descriptors

What a process that talks to its child through a pipe has to reckon with. The **buffer** of a
pipe holds a bounded number of items: who writes into a full one has to wait
(`PipeBuffer`). The two **ends** of a pipe are descriptors, and the descriptors of a process
are numbers below a limit, of which a new one is the least that is not in use
(`FdTable`): a process that does not close its ends runs out of them.

Either structure carries its bound as a field.
-/

/-! ### The buffer -/

/-- The items in a pipe that holds at most `cap` of them, the oldest first. -/
structure PipeBuffer (α : Type*) (cap : ℕ) where
  content : List α
  le_cap : content.length ≤ cap

namespace PipeBuffer

variable {α : Type*} {cap : ℕ}

/-- The pipe before anything is written. -/
def empty (α : Type*) (cap : ℕ) : PipeBuffer α cap := ⟨[], Nat.zero_le cap⟩

/-- How much can be written without waiting. -/
def room (p : PipeBuffer α cap) : ℕ := cap - p.content.length

/-- Who writes into the pipe has to wait. -/
def Full (p : PipeBuffer α cap) : Prop := p.content.length = cap

/-- Write some items behind the others. -/
def write (p : PipeBuffer α cap) (xs : List α) (h : xs.length ≤ p.room) : PipeBuffer α cap where
  content := p.content ++ xs
  le_cap := by
    have hle := p.le_cap
    rw [room] at h
    rw [List.length_append]
    omega

/-- Take the given number of items out. -/
def drop (p : PipeBuffer α cap) (k : ℕ) : PipeBuffer α cap where
  content := p.content.drop k
  le_cap := by
    have hle := p.le_cap
    rw [List.length_drop]
    omega

@[simp] theorem content_empty : (empty α cap).content = [] := rfl

@[simp] theorem content_write (p : PipeBuffer α cap) (xs : List α) (h : xs.length ≤ p.room) :
    (p.write xs h).content = p.content ++ xs := rfl

@[simp] theorem content_drop (p : PipeBuffer α cap) (k : ℕ) :
    (p.drop k).content = p.content.drop k := rfl

theorem full_iff_room {p : PipeBuffer α cap} : p.Full ↔ p.room = 0 := by
  have hle := p.le_cap
  rw [Full, room]
  omega

end PipeBuffer

/-! ### The descriptors -/

/-- The descriptors that a process has open, below the limit on their number. -/
structure FdTable where
  limit : ℕ
  openFds : Finset ℕ
  lt_limit : ∀ fd ∈ openFds, fd < limit

namespace FdTable

variable {t t' : FdTable} {fd r w : ℕ}

@[ext] theorem ext (hlimit : t.limit = t'.limit) (hfds : t.openFds = t'.openFds) : t = t' := by
  cases t
  cases t'
  obtain rfl := hlimit
  obtain rfl := hfds
  rfl

/-- The least number that is not in use. -/
def lowest (t : FdTable) : Option ℕ := (List.range t.limit).find? fun fd => fd ∉ t.openFds

theorem of_lowest (h : t.lowest = some fd) : fd < t.limit ∧ fd ∉ t.openFds := by
  have hmem := List.mem_of_find?_eq_some h
  have hfree := List.find?_some h
  exact ⟨List.mem_range.mp hmem, of_decide_eq_true hfree⟩

/-- A new descriptor. -/
def alloc (t : FdTable) : Option (ℕ × FdTable) :=
  match h : t.lowest with
  | some fd => some (fd, ⟨t.limit, insert fd t.openFds, fun i hi => by
      rcases Finset.mem_insert.mp hi with rfl | hi
      · exact (of_lowest h).1
      · exact t.lt_limit i hi⟩)
  | none => none

/-- A descriptor is given back. -/
def close (t : FdTable) (fd : ℕ) : FdTable :=
  ⟨t.limit, t.openFds.erase fd, fun i hi => t.lt_limit i (Finset.mem_of_mem_erase hi)⟩

/-- `pipe`: the ends for reading and for writing, if there are two descriptors to be had. -/
def pipe (t : FdTable) : Option (ℕ × ℕ × FdTable) :=
  t.alloc.bind fun x => x.2.alloc.bind fun y => some (x.1, y.1, y.2)

theorem alloc_eq_some (h : t.alloc = some (fd, t')) :
    fd ∉ t.openFds ∧ t'.limit = t.limit ∧ t'.openFds = insert fd t.openFds := by
  rw [alloc] at h
  split at h
  · next i hlowest =>
    obtain ⟨rfl, rfl⟩ : i = fd ∧ _ = t' := by simpa using h
    exact ⟨(of_lowest hlowest).2, rfl, rfl⟩
  · cases h

/-- **What a pipe takes**: two descriptors that were not in use. -/
theorem pipe_eq_some (h : t.pipe = some (r, w, t')) :
    r ∉ t.openFds ∧ w ∉ insert r t.openFds ∧ t'.limit = t.limit ∧
      t'.openFds = insert w (insert r t.openFds) := by
  obtain ⟨⟨r', t₁⟩, hread, h⟩ := Option.bind_eq_some_iff.mp h
  obtain ⟨⟨w', t₂⟩, hwrite, h⟩ := Option.bind_eq_some_iff.mp h
  obtain ⟨rfl, rfl, rfl⟩ : r' = r ∧ w' = w ∧ t₂ = t' := by simpa using h
  obtain ⟨hr, hlimit₁, hfds₁⟩ := alloc_eq_some hread
  obtain ⟨hw, hlimit₂, hfds₂⟩ := alloc_eq_some hwrite
  rw [hfds₁] at hw hfds₂
  exact ⟨hr, hw, hlimit₂.trans hlimit₁, hfds₂⟩

end FdTable
