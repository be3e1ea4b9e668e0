import NpuOj.DataItem
import NpuOj.Lib.OwnedHeap
import NpuOj.Lib.TransSystem

/-!
# Who owns the string of a `ResourceLimit`

A `ResourceLimit` has a member `work_dir`, which is a `char *` that it has got from `strdup` and
has to free. It is copied with every problem and set for every submission, so that the copy
constructor, `operator=`, `set_workdir` and the destructor together decide whether the strings are
freed, once each.

The objects live in a system of their own here, with pointers and a heap: a state of
`NpuOj.rlObjects` is what is in memory after some of these operations, on any number of objects and
in any order. The string of an object is its own in every state that is reached
(`NpuOj.rlObjects_safe_iff`), and there is one way to go wrong, to give an object its own `work_dir`
as the new one: it is freed before it is copied. `NpuOj.ResourceLimit` has the string as a value;
`NpuOj.rlObjects_value_iff` says when the operations do what they do to values. They do not if an
object is assigned to itself: it has lost its `work_dir` then.
-/

namespace NpuOj

open Heap

/-! ### Objects in memory -/

/-- A `ResourceLimit` in memory. -/
structure RlObject where
  /-- All members but `work_dir`. -/
  limits : ResourceLimit
  workDir : Option ℕ

/-- What `set_workdir` is called with. -/
inductive DirArg (ι : Type)
  | null
  | text (dir : String)
  /-- The `work_dir` of an object. -/
  | workDirOf (u : ι)

/-- An operation on some objects; `a` is the address that `strdup` returns, if it is called. -/
inductive RlStep (ι : Type)
  /-- The default constructor, which leaves `rl_uid` and `syscall_limits` as the memory is. -/
  | construct (v : ι) (memory : ResourceLimit)
  /-- The copy constructor. -/
  | copy (v u : ι) (a : ℕ)
  /-- `operator=` -/
  | assign (v u : ι) (a : ℕ)
  | setWorkdir (v : ι) (dir : DirArg ι) (a : ℕ)
  /-- The other members are written to. -/
  | setLimits (v : ι) (limits : ResourceLimit)
  /-- The destructor. -/
  | destroy (v : ι)

/-- A `char *`: null, a string outside the heap, or a cell. -/
inductive CharPtr
  | null
  | text (dir : String)
  | cell (a : ℕ)

/-- The string that is pointed to. -/
def CharPtr.read (heap : Heap String) : CharPtr → Except HeapFault (Option String)
  | .null => .ok none
  | .text dir => .ok (some dir)
  | .cell a => (Heap.read heap a).map some

/-- A `work_dir` as a `char *`. -/
def CharPtr.ofWorkDir : Option ℕ → CharPtr
  | none => .null
  | some a => .cell a

/-- The objects that there are, and the heap. -/
structure RlState (ι : Type) where
  obj : ι → Option RlObject
  heap : Heap String

namespace RlState

variable {ι : Type} [DecidableEq ι]

omit [DecidableEq ι] in
/-- The `work_dir` of each object. -/
def ptr (s : RlState ι) (v : ι) : Option ℕ := (s.obj v).bind RlObject.workDir

def put (s : RlState ι) (v : ι) (o : RlObject) : RlState ι :=
  { s with obj := Function.update s.obj v (some o) }

/-- `if (this->work_dir) { free(this->work_dir); this->work_dir = NULL; }` -/
def freeWorkDir (s : RlState ι) (v : ι) : Except HeapFault (RlState ι) :=
  match s.obj v with
  | some ⟨limits, some b⟩ => (Heap.free s.heap b).map fun heap =>
      { obj := Function.update s.obj v (some ⟨limits, none⟩), heap }
  | _ => .ok s

/-- `if (dir) this->work_dir = strdup(dir);` The address must be one that is not in use. -/
def dupWorkDir (s : RlState ι) (v : ι) (dir : CharPtr) (a : ℕ) :
    Option (Except HeapFault (RlState ι)) :=
  match dir.read s.heap with
  | .error f => some (.error f)
  | .ok none => some (.ok s)
  | .ok (some x) => match s.obj v with
    | none => none
    | some o => (Heap.malloc s.heap a x).map fun heap =>
        .ok { obj := Function.update s.obj v (some { o with workDir := some a }), heap }

/-- The two after each other. -/
def replaceWorkDir (s : RlState ι) (v : ι) (dir : RlState ι → CharPtr) (a : ℕ) :
    Option (Except HeapFault (RlState ι)) :=
  match s.freeWorkDir v with
  | .error f => some (.error f)
  | .ok s => s.dupWorkDir v (dir s) a

omit [DecidableEq ι] in
/-- The argument of `set_workdir`. -/
def charPtr (s : RlState ι) : DirArg ι → CharPtr
  | .null => .null
  | .text dir => .text dir
  | .workDirOf u => .ofWorkDir (s.ptr u)

/-- An operation. A constructor is called where there is no object yet, every other operation on
one. -/
def step (s : RlState ι) : RlStep ι → Option (Except HeapFault (RlState ι))
  | .construct v memory => match s.obj v with
    | some _ => none
    | none => some (.ok (s.put v
        ⟨{ rlUid := memory.rlUid, syscallLimits := memory.syscallLimits }, none⟩))
  | .copy v u a => match s.obj v, s.obj u with
    | none, some o => (s.put v ⟨o.limits, none⟩).dupWorkDir v (.ofWorkDir o.workDir) a
    | _, _ => none
  | .assign v u a => match s.obj v, s.obj u with
    | some o, some o' =>
      -- `rl.work_dir` is read after the own one has been freed
      (s.put v ⟨o'.limits, o.workDir⟩).replaceWorkDir v (fun s => .ofWorkDir (s.ptr u)) a
    | _, _ => none
  | .setWorkdir v dir a => match s.obj v with
    | none => none
    | some _ => match s.charPtr dir with
      | .null => some (.ok s)
      -- `dir` is the pointer that was passed
      | p => s.replaceWorkDir v (fun _ => p) a
  | .setLimits v limits => match s.obj v with
    | none => none
    | some o => some (.ok (s.put v ⟨limits, o.workDir⟩))
  | .destroy v => match s.obj v with
    | none => none
    | some _ => some ((s.freeWorkDir v).map fun s => { s with obj := Function.update s.obj v none })

end RlState

/-- **The objects of type `ResourceLimit`** and the operations on them; after a fault there is
nothing more. -/
def rlObjects (ι : Type) [DecidableEq ι] :
    TransSystem (Except HeapFault (RlState ι)) (RlStep ι) where
  Init s := s = .ok ⟨fun _ => none, fun _ => none⟩
  step
    | .ok s, op => s.step op
    | .error _, _ => none

/-! ### Values -/

/-- The string that `set_workdir` is called with. -/
def DirArg.dir {ι : Type} (val : ι → Option ResourceLimit) : DirArg ι → Option String
  | .null => none
  | .text dir => some dir
  | .workDirOf u => (val u).bind ResourceLimit.workDir

/-- The value with another `work_dir`. -/
abbrev ResourceLimit.withDir (dir : Option String) (rl : ResourceLimit) : ResourceLimit :=
  { rl with workDir := dir }

section Values

variable {ι : Type} [DecidableEq ι] {s s' : RlState ι} {v u : ι} {o : RlObject} {op : RlStep ι}
  {a b : ℕ} {dir : CharPtr} {x : String}

/-- **What an operation is to do**: an object is a value, and a copy of it is the same value. -/
def RlStep.onValues (val : ι → Option ResourceLimit) : RlStep ι → ι → Option ResourceLimit
  | .construct v memory => Function.update val v
      (some { rlUid := memory.rlUid, syscallLimits := memory.syscallLimits })
  | .copy v u _ | .assign v u _ => Function.update val v (val u)
  | .setWorkdir v dir _ => Function.update val v ((val v).map fun rl => rl.setWorkdir (dir.dir val))
  | .setLimits v limits =>
      Function.update val v ((val v).map fun rl => { limits with workDir := rl.workDir })
  | .destroy v => Function.update val v none

namespace RlState

omit [DecidableEq ι] in
/-- The objects as values. -/
def value (s : RlState ι) (v : ι) : Option ResourceLimit :=
  (s.obj v).map fun o => { o.limits with workDir := Heap.contents s.heap s.ptr v }

omit [DecidableEq ι] in
/-- Every string belongs to one object. -/
def Owned (s : RlState ι) : Prop := OwnedBy s.heap s.ptr

/-! ### The operations one by one -/

theorem ptr_put (s : RlState ι) (v : ι) (o : RlObject) :
    (s.put v o).ptr = Function.update s.ptr v o.workDir := by
  funext u
  rcases eq_or_ne u v with rfl | hne
  · simp [ptr, put]
  · simp [ptr, put, hne]

omit [DecidableEq ι] in
theorem ptr_of_obj (ho : s.obj v = some o) : s.ptr v = o.workDir := by
  rw [ptr, ho, Option.bind_some]

/-- Writing to the other members leaves the strings alone. -/
theorem ptr_put_of_eq (ho : s.ptr v = o.workDir) : (s.put v o).ptr = s.ptr := by
  rw [ptr_put, ← ho, Function.update_eq_self]

theorem Owned.put (hs : s.Owned) (ho : s.ptr v = o.workDir) : (s.put v o).Owned := by
  rw [Owned, ptr_put_of_eq ho]
  exact hs

theorem value_put (ho : s.ptr v = o.workDir) : (s.put v o).value = Function.update s.value v
    (some { o.limits with workDir := Heap.contents s.heap s.ptr v }) := by
  funext u
  rw [value, ptr_put_of_eq ho]
  rcases eq_or_ne u v with rfl | hne
  · simp [RlState.put]
  · simp [RlState.put, value, hne]

omit [DecidableEq ι] in
/-- An object without a string. -/
theorem map_value_of_ptr_eq_none (hv : s.ptr v = none) :
    ((s.value v).map (ResourceLimit.withDir none)) = s.value v := by
  simp [value, Function.comp_def, Heap.contents, hv]

theorem value_of_ptr_eq_none (hv : s.ptr v = none) :
    Function.update s.value v ((s.value v).map (ResourceLimit.withDir none)) = s.value := by
  rw [map_value_of_ptr_eq_none hv, Function.update_eq_self]

/-- **Freeing**: the object has no string then, and nothing else changes. -/
theorem freeWorkDir_spec (hs : s.Owned) (v : ι) : ∃ s', s.freeWorkDir v = .ok s' ∧ s'.Owned ∧
    s'.ptr = Function.update s.ptr v none ∧
    (∀ u, u ≠ v → Heap.contents s'.heap s'.ptr u = Heap.contents s.heap s.ptr u) ∧
    s'.value = Function.update s.value v ((s.value v).map (ResourceLimit.withDir none)) := by
  cases hv : s.ptr v with
  | none =>
    refine ⟨s, ?_, hs, by rw [← hv, Function.update_eq_self], fun _ _ => rfl,
      (value_of_ptr_eq_none hv).symm⟩
    rw [freeWorkDir]
    split
    · next ho => simp [ptr, ho] at hv
    · rfl
  | some b =>
    obtain ⟨⟨limits, workDir⟩, ho, hb⟩ := Option.bind_eq_some_iff.mp hv
    obtain rfl : workDir = some b := hb
    obtain ⟨x, hx⟩ := hs.exists_eq_some hv
    refine ⟨⟨Function.update s.obj v (some ⟨limits, none⟩), Function.update s.heap b none⟩, ?_⟩
    have hptr : (RlState.mk (Function.update s.obj v (some ⟨limits, none⟩))
        (Function.update s.heap b none)).ptr = Function.update s.ptr v none :=
      ptr_put s v ⟨limits, none⟩
    refine ⟨?_, ?_, hptr, ?_, ?_⟩
    · simp only [freeWorkDir, ho, Heap.free_of_eq_some hx]
      rfl
    · rw [Owned, hptr]
      exact hs.free hv
    · intro u hne
      rw [hptr]
      exact hs.contents_free hv hne
    · funext u
      rw [value, hptr]
      rcases eq_or_ne u v with rfl | hne
      · simp [value, ho, Heap.contents_free_self]
      · simp only [Function.update_of_ne hne, value]
        rw [hs.contents_free hv hne]

/-- **`strdup`** into an object without a string, if the pointer is good. -/
theorem dupWorkDir_spec (hs : s.Owned) (hv : s.ptr v = none) {d : Option String}
    (hread : dir.read s.heap = .ok d) {r : Except HeapFault (RlState ι)}
    (h : s.dupWorkDir v dir a = some r) :
    ∃ s', r = .ok s' ∧ s'.Owned ∧
      s'.value = Function.update s.value v ((s.value v).map (ResourceLimit.withDir d)) := by
  cases d with
  | none =>
    simp only [dupWorkDir, hread] at h
    exact ⟨s, (Option.some.inj h).symm, hs, (value_of_ptr_eq_none hv).symm⟩
  | some x =>
    simp only [dupWorkDir, hread] at h
    split at h
    · cases h
    · next o ho =>
      obtain ⟨heap, hm, rfl⟩ := Option.map_eq_some_iff.mp h
      obtain ⟨ha, rfl⟩ := Heap.malloc_eq_some hm
      have hptr : (RlState.mk (Function.update s.obj v (some { o with workDir := some a }))
          (Function.update s.heap a (some x))).ptr = Function.update s.ptr v (some a) :=
        ptr_put s v { o with workDir := some a }
      refine ⟨_, rfl, ?_, ?_⟩
      · rw [Owned, hptr]
        exact hs.malloc hv ha
      · funext u
        rw [value, hptr]
        rcases eq_or_ne u v with rfl | hne
        · simp [value, ho, Heap.contents_malloc_self]
        · simp only [Function.update_of_ne hne, value]
          rw [hs.contents_malloc ha hne]

omit [DecidableEq ι] in
/-- What a `work_dir` points to. -/
theorem read_ofWorkDir (hs : s.Owned) (u : ι) :
    (CharPtr.ofWorkDir (s.ptr u)).read s.heap = .ok (Heap.contents s.heap s.ptr u) := by
  cases hu : s.ptr u with
  | none => simp [CharPtr.ofWorkDir, CharPtr.read, Heap.contents, hu]
  | some b =>
    obtain ⟨x, hx⟩ := hs.exists_eq_some hu
    simp [CharPtr.ofWorkDir, CharPtr.read, Heap.read_of_eq_some hx, Heap.contents, hu, hx]
    rfl

/-- An object without a string may go. -/
theorem erase_spec (hs : s.Owned) (hv : s.ptr v = none) :
    (RlState.mk (Function.update s.obj v none) s.heap).Owned ∧
      (RlState.mk (Function.update s.obj v none) s.heap).value =
        Function.update s.value v none := by
  have hptr : (RlState.mk (Function.update s.obj v none) s.heap).ptr = s.ptr := by
    funext u
    rcases eq_or_ne u v with rfl | hne
    · rw [hv]
      simp [ptr]
    · simp [ptr, hne]
  refine ⟨?_, ?_⟩
  · rw [Owned, hptr]
    exact hs
  · funext u
    rw [value, hptr]
    rcases eq_or_ne u v with rfl | hne
    · simp
    · simp [hne, value]

/-- **Freeing and then `strdup`**, where the pointer is good after the freeing. -/
theorem replaceWorkDir_spec (hs : s.Owned) {dirOf : RlState ι → CharPtr} {d : Option String}
    (hread : ∀ s₁, s₁.Owned → s₁.ptr = Function.update s.ptr v none →
      (∀ u, u ≠ v → Heap.contents s₁.heap s₁.ptr u = Heap.contents s.heap s.ptr u) →
      (dirOf s₁).read s₁.heap = .ok d)
    {r : Except HeapFault (RlState ι)} (h : s.replaceWorkDir v dirOf a = some r) :
    ∃ s', r = .ok s' ∧ s'.Owned ∧
      s'.value = Function.update s.value v ((s.value v).map (ResourceLimit.withDir d)) := by
  obtain ⟨s₁, hfree, hs₁, hptr, hothers, hvalue⟩ := freeWorkDir_spec hs v
  have hread₁ := hread s₁ hs₁ hptr hothers
  simp only [replaceWorkDir, hfree] at h
  obtain ⟨s', rfl, hs', hvalue'⟩ := dupWorkDir_spec hs₁ (by simp [hptr]) hread₁ h
  refine ⟨s', rfl, hs', ?_⟩
  rw [hvalue', hvalue, Function.update_idem, Function.update_self, Option.map_map]
  rfl

end RlState

/-- `set_workdir` is called with the own `work_dir`, which is not null. -/
def RlStep.FreesItsArgument (s : RlState ι) : RlStep ι → Prop
  | .setWorkdir v (.workDirOf u) _ => u = v ∧ s.ptr v ≠ none
  | _ => False

/-- An object that has a `work_dir` is assigned to itself. -/
def RlStep.LosesWorkDir (s : RlState ι) : RlStep ι → Prop
  | .assign v u _ => u = v ∧ s.ptr v ≠ none
  | _ => False

omit [DecidableEq ι] in
theorem RlState.Owned.contents_eq_none (hs : s.Owned) :
    Heap.contents s.heap s.ptr v = none ↔ s.ptr v = none := by
  constructor
  · intro h
    by_contra hv
    obtain ⟨b, hb⟩ := Option.ne_none_iff_exists'.mp hv
    exact hs.live v b hb (by simpa [Heap.contents, hb] using h)
  · intro h
    rw [Heap.contents, h, Option.bind_none]

omit [DecidableEq ι] in
theorem RlState.value_eq_some (ho : s.obj v = some o) :
    s.value v = some { o.limits with workDir := Heap.contents s.heap s.ptr v } := by
  rw [RlState.value, ho, Option.map_some]

namespace RlState

variable {r : Except HeapFault (RlState ι)}

/-- **The copy constructor** makes an object of the same value. -/
theorem step_copy (hs : s.Owned) (h : s.step (.copy v u a) = some r) :
    ∃ s', r = .ok s' ∧ s'.Owned ∧ s'.value = Function.update s.value v (s.value u) := by
  simp only [step] at h
  split at h
  · next o hv hu =>
    have hnull : s.ptr v = none := by rw [ptr, hv, Option.bind_none]
    have hptr : (s.put v ⟨o.limits, none⟩).ptr = s.ptr := ptr_put_of_eq hnull
    have hread := read_ofWorkDir (hs.put (o := ⟨o.limits, none⟩) hnull) u
    rw [hptr, ptr_of_obj hu] at hread
    obtain ⟨s', rfl, hs', hvalue⟩ :=
      dupWorkDir_spec (hs.put (o := ⟨o.limits, none⟩) hnull) (hptr ▸ hnull) hread h
    refine ⟨s', rfl, hs', ?_⟩
    rw [hvalue, value_put hnull, Function.update_idem, Function.update_self, value_eq_some hu]
    rfl
  · cases h

/-- **`operator=`** makes the object the same value, but for one that is assigned to itself, which
has no `work_dir` then. -/
theorem step_assign (hs : s.Owned) (h : s.step (.assign v u a) = some r) :
    ∃ s', r = .ok s' ∧ s'.Owned ∧ s'.value = Function.update s.value v
      ((s.value u).map fun rl => { rl with workDir := if u = v then none else rl.workDir }) := by
  simp only [step] at h
  split at h
  · next o o' hv hu =>
    have hsame : s.ptr v = o.workDir := ptr_of_obj hv
    have hptr : (s.put v ⟨o'.limits, o.workDir⟩).ptr = s.ptr := ptr_put_of_eq hsame
    obtain ⟨s', rfl, hs', hvalue⟩ := replaceWorkDir_spec (hs.put (o := ⟨o'.limits, _⟩) hsame)
      (d := if u = v then none else Heap.contents s.heap s.ptr u) (fun s₁ hs₁ hptr₁ hothers => by
        rw [read_ofWorkDir hs₁ u]
        split
        · next huv => simp [Heap.contents, hptr₁, huv]
        · next hne =>
          rw [hothers u hne, hptr]
          rfl) h
    refine ⟨s', rfl, hs', ?_⟩
    rw [hvalue, value_put (o := ⟨o'.limits, o.workDir⟩) hsame, Function.update_idem,
      Function.update_self, value_eq_some hu]
    rfl
  · cases h

omit [DecidableEq ι] in
theorem dir_workDirOf (s : RlState ι) (u : ι) :
    (DirArg.workDirOf u).dir s.value = Heap.contents s.heap s.ptr u := by
  cases hu : s.obj u with
  | none => simp [DirArg.dir, value, Heap.contents, ptr, hu]
  | some o => rw [DirArg.dir, value_eq_some hu, Option.bind_some]

/-- **`set_workdir`** replaces the string, if it is not called with the own one. -/
theorem step_setWorkdir (hs : s.Owned) {arg : DirArg ι}
    (hnot : ¬(RlStep.setWorkdir v arg a).FreesItsArgument s)
    (h : s.step (.setWorkdir v arg a) = some r) :
    ∃ s', r = .ok s' ∧ s'.Owned ∧ s'.value = Function.update s.value v
      ((s.value v).map fun rl => rl.setWorkdir (arg.dir s.value)) := by
  have hnull : arg.dir s.value = none → Function.update s.value v
      ((s.value v).map fun rl => rl.setWorkdir (arg.dir s.value)) = s.value := fun hdir => by
    rw [hdir, show (fun rl => ResourceLimit.setWorkdir rl none) = id from rfl, Option.map_id,
      id_eq, Function.update_eq_self]
  simp only [step] at h
  split at h
  · cases h
  cases arg with
  | null => exact ⟨s, (Option.some.inj h).symm, hs, (hnull rfl).symm⟩
  | text d => exact replaceWorkDir_spec hs (d := some d) (fun _ _ _ _ => rfl) h
  | workDirOf u =>
    have hdir := dir_workDirOf s u
    cases hu : s.ptr u with
    | none =>
      simp only [charPtr, hu, CharPtr.ofWorkDir] at h
      refine ⟨s, (Option.some.inj h).symm, hs, (hnull ?_).symm⟩
      rw [hdir, Heap.contents, hu, Option.bind_none]
    | some b =>
      simp only [charPtr, hu, CharPtr.ofWorkDir] at h
      -- another object, whose string is still there when the own one has been freed
      have hne : u ≠ v := by
        rintro rfl
        exact hnot ⟨rfl, by simp [hu]⟩
      obtain ⟨x, hx⟩ := hs.exists_eq_some hu
      have hcontents : Heap.contents s.heap s.ptr u = some x := by
        rw [Heap.contents, hu, Option.bind_some, hx]
      rw [hdir, hcontents]
      refine replaceWorkDir_spec hs (d := some x) (fun s₁ hs₁ hptr₁ hothers => ?_) h
      have hread := read_ofWorkDir hs₁ u
      rwa [hothers u hne, hcontents, hptr₁, Function.update_of_ne hne, hu] at hread

/-- **`set_workdir` with the own string** copies a string that has been freed. -/
theorem step_setWorkdir_own (hs : s.Owned) (hv : s.ptr v ≠ none) (a : ℕ) :
    ∃ f, s.step (.setWorkdir v (.workDirOf v) a) = some (.error f) := by
  obtain ⟨b, hb⟩ := Option.ne_none_iff_exists'.mp hv
  obtain ⟨o, ho, -⟩ := Option.bind_eq_some_iff.mp hb
  obtain ⟨s₁, hfree, hs₁, hptr₁, -, -⟩ := freeWorkDir_spec hs v
  -- the cell would have an owner, which had it before
  have hgone : s₁.heap b = none := by
    by_contra hlive
    obtain ⟨w, hw⟩ := hs₁.owned b hlive
    rw [hptr₁] at hw
    rcases eq_or_ne w v with rfl | hne
    · simp at hw
    · rw [Function.update_of_ne hne] at hw
      exact hne (hs.apart w v b hw hb)
  refine ⟨.notAllocated b, ?_⟩
  simp only [step, ho, charPtr, hb, CharPtr.ofWorkDir, replaceWorkDir, hfree, dupWorkDir,
    CharPtr.read, Heap.read, hgone]
  rfl

/-- **What an operation does**, if it is not the one that copies what it has freed. -/
theorem step_spec (hs : s.Owned) (hnot : ¬op.FreesItsArgument s) (h : s.step op = some r) :
    ∃ s', r = .ok s' ∧ s'.Owned ∧
      ((¬op.LosesWorkDir s ∧ s'.value = op.onValues s.value) ∨
        (op.LosesWorkDir s ∧ s'.value ≠ op.onValues s.value)) := by
  cases op with
  | construct v memory =>
    simp only [step] at h
    split at h
    · cases h
    · next hv =>
      have hnull : s.ptr v = none := by rw [ptr, hv, Option.bind_none]
      refine ⟨_, (Option.some.inj h).symm, hs.put hnull, Or.inl ⟨not_false, ?_⟩⟩
      rw [value_put hnull, Heap.contents, hnull]
      rfl
  | copy v u a =>
    obtain ⟨s', rfl, hs', hvalue⟩ := step_copy hs h
    exact ⟨s', rfl, hs', Or.inl ⟨not_false, hvalue⟩⟩
  | assign v u a =>
    obtain ⟨s', rfl, hs', hvalue⟩ := step_assign hs h
    refine ⟨s', rfl, hs', ?_⟩
    rw [hvalue]
    by_cases hloses : (RlStep.assign v u a).LosesWorkDir s
    · obtain ⟨rfl, hne⟩ := hloses
      refine Or.inr ⟨⟨rfl, hne⟩, fun hsame => hne (hs.contents_eq_none.mp ?_)⟩
      obtain ⟨b, hb⟩ := Option.ne_none_iff_exists'.mp hne
      obtain ⟨o, ho, -⟩ := Option.bind_eq_some_iff.mp hb
      have hown := congrFun hsame u
      simp only [RlStep.onValues, Function.update_self, value_eq_some ho, Option.map_some,
        if_true] at hown
      exact (congrArg ResourceLimit.workDir (Option.some.inj hown)).symm
    · refine Or.inl ⟨hloses, ?_⟩
      rw [RlStep.onValues]
      congr 1
      rcases eq_or_ne u v with rfl | hne
      · have hnull : s.ptr u = none := by
          by_contra hu
          exact hloses ⟨rfl, hu⟩
        simpa using map_value_of_ptr_eq_none hnull
      · simp [hne]
  | setWorkdir v dir a =>
    obtain ⟨s', rfl, hs', hvalue⟩ := step_setWorkdir hs hnot h
    exact ⟨s', rfl, hs', Or.inl ⟨not_false, hvalue⟩⟩
  | setLimits v limits =>
    simp only [step] at h
    split at h
    · cases h
    · next o ho =>
      have hsame : s.ptr v = o.workDir := ptr_of_obj ho
      refine ⟨_, (Option.some.inj h).symm, hs.put hsame, Or.inl ⟨not_false, ?_⟩⟩
      rw [value_put (o := ⟨limits, o.workDir⟩) hsame, RlStep.onValues, value_eq_some ho]
      rfl
  | destroy v =>
    simp only [step] at h
    split at h
    · cases h
    · obtain ⟨s₁, hfree, hs₁, hptr₁, -, hvalue₁⟩ := freeWorkDir_spec hs v
      rw [hfree] at h
      obtain ⟨howned, hvalue⟩ := erase_spec hs₁ (v := v) (by rw [hptr₁, Function.update_self])
      refine ⟨_, (Option.some.inj h).symm, howned, Or.inl ⟨not_false, ?_⟩⟩
      rw [RlStep.onValues, hvalue, hvalue₁, Function.update_idem]

end RlState

/-! ### Any operations in any order -/

theorem RlState.faults_iff (hs : s.Owned) :
    (∃ f, s.step op = some (.error f)) ↔ op.FreesItsArgument s := by
  refine ⟨?_, fun hfrees => ?_⟩
  · rintro ⟨f, hf⟩
    by_contra hnot
    obtain ⟨s', hs', -⟩ := step_spec hs hnot hf
    cases hs'
  · cases op with
    | setWorkdir v dir a =>
      cases dir with
      | workDirOf u =>
        obtain ⟨rfl, hne⟩ := hfrees
        exact step_setWorkdir_own hs hne a
      | _ => exact hfrees.elim
    | _ => exact hfrees.elim

/-- An operation that does not go wrong is none that does. -/
theorem RlState.not_frees (hs : s.Owned) (hstep : s.step op = some (.ok s')) :
    ¬op.FreesItsArgument s := fun hfrees => by
  obtain ⟨f, hf⟩ := (faults_iff hs).mpr hfrees
  exact absurd (hf.symm.trans hstep) (by simp)

theorem owned_of_reachable (h : (rlObjects ι).Reachable (.ok s)) : s.Owned := by
  suffices hall : ∀ r, (rlObjects ι).Reachable r → ∀ s, r = .ok s → s.Owned from hall _ h s rfl
  intro r hr
  refine hr.invariant (I := fun r => ∀ s, r = .ok s → s.Owned) ?_ ?_
  · rintro _ rfl s hs
    obtain rfl := Except.ok.inj hs
    exact ownedBy_empty
  · rintro (f | s) op r - hinv - hstep s' rfl
    · cases hstep
    · obtain ⟨s₁, hs₁, howned, -⟩ :=
        RlState.step_spec (hinv s rfl) (RlState.not_frees (hinv s rfl) hstep) hstep
      obtain rfl := Except.ok.inj hs₁
      exact howned

/-- **No string is lost, shared or freed twice**: in every state that some operations lead to, each
string on the heap is the `work_dir` of one object, and each `work_dir` that is not null is there;
and an operation goes wrong exactly if it is `set_workdir` with the own `work_dir`. -/
theorem rlObjects_safe_iff (h : (rlObjects ι).Reachable (.ok s)) :
    OwnedBy s.heap s.ptr ∧
      ∀ op, (∃ f, s.step op = some (.error f)) ↔ op.FreesItsArgument s := by
  have hs := owned_of_reachable h
  exact ⟨hs, fun op => RlState.faults_iff hs⟩

/-- The limits of a problem and the copy of them that `LangC::judge` makes, with its two calls of
`set_workdir`; the own `work_dir` in place of the path would have been wrong. -/
theorem rlObjects_safe_iff_judge : ∃ s : RlState (Fin 2), (rlObjects (Fin 2)).Reachable (.ok s) ∧
    OwnedBy s.heap s.ptr ∧ s.ptr 0 = none ∧ s.ptr 1 = some 0 ∧
      (∃ f, s.step (.setWorkdir 1 (.workDirOf 1) 1) = some (.error f)) ∧
      ¬∃ f, s.step (.setWorkdir 1 (.text "/home/noj/judge1") 1) = some (.error f) := by
  have hrun : (rlObjects (Fin 2)).run (.ok ⟨fun _ => none, fun _ => none⟩)
      [.construct 0 {}, .copy 1 0 0, .setWorkdir 1 (.text "/home/noj/judge1") 1,
        .setWorkdir 1 (.text "/home/noj/judge1") 0] = some (.ok _) := rfl
  have hreach := TransSystem.reachable_of_run (M := rlObjects (Fin 2)) rfl hrun
  obtain ⟨howned, hiff⟩ := rlObjects_safe_iff hreach
  refine ⟨_, hreach, howned, rfl, rfl, (hiff _).mpr ⟨rfl, nofun⟩, fun hfault => ?_⟩
  exact (hiff _).mp hfault

/-- **An object is a value**, but for one thing: in every state that some operations lead to, an
operation that does not go wrong does to the objects what it does to values exactly if it does not
assign an object to itself that has a `work_dir`. -/
theorem rlObjects_value_iff (h : (rlObjects ι).Reachable (.ok s))
    (hstep : s.step op = some (.ok s')) :
    s'.value = op.onValues s.value ↔ ¬op.LosesWorkDir s := by
  have hs := owned_of_reachable h
  obtain ⟨s₁, hs₁, -, ⟨hnot, hvalue⟩ | ⟨hloses, hvalue⟩⟩ :=
    RlState.step_spec hs (RlState.not_frees hs hstep) hstep
  · obtain rfl := Except.ok.inj hs₁
    exact iff_of_true hvalue hnot
  · obtain rfl := Except.ok.inj hs₁
    exact iff_of_false hvalue (not_not.mpr hloses)

/-- An object that is assigned to itself. -/
theorem rlObjects_value_iff_itself : ∃ s s' : RlState (Fin 1),
    (rlObjects (Fin 1)).Reachable (.ok s) ∧ s.step (.assign 0 0 1) = some (.ok s') ∧
      s'.value ≠ (RlStep.assign 0 0 1).onValues s.value := by
  have hrun : (rlObjects (Fin 1)).run (.ok ⟨fun _ => none, fun _ => none⟩)
      [.construct 0 {}, .setWorkdir 0 (.text "/home/noj/judge1") 0] = some (.ok _) := rfl
  have hreach := TransSystem.reachable_of_run (M := rlObjects (Fin 1)) rfl hrun
  refine ⟨_, _, hreach, rfl, fun hsame => ?_⟩
  exact (rlObjects_value_iff hreach rfl).mp hsame ⟨rfl, nofun⟩

end Values

end NpuOj
