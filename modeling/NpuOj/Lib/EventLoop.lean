import Mathlib.Data.List.Basic
import Mathlib.Data.List.Induction
import Mathlib.Tactic.Common

/-!
# Loops that read events until one of them ends the loop

A supervising program sits in `while (1) { e = wait(); ... }`, where every event
either lets the loop go round once more, ends it, or makes the program do
something that has no defined behaviour. The body of such a loop is a function to
`LoopFlow`, and `runLoop` feeds it a list of events.

What the whole loop computes is an `Outcome`: a value, a fault, or `pending` when
the events delivered so far have not ended the loop. The last is not an error: the
program is still waiting for the next event. Computations with outcomes are
sequenced by `Outcome.bind`, for which `do` notation is available.

The accumulators of a loop say what has been seen so far, and a reader wants the
verdict stated without them. To this end an event is given a *verdict* from the list
of the events before it: `passes_or_exists_first` finds the first event that has one,
and `through_of_passes` brings the loop to it, along an invariant.
-/

/-- What a computation comes to: a value, a fault, or nothing yet. -/
inductive Outcome (ε α : Type*)
  /-- The computation returned a value. -/
  | ret (a : α) : Outcome ε α
  /-- The computation did something without a defined behaviour. -/
  | fault (e : ε) : Outcome ε α
  /-- The computation waits for an event that has not been delivered. -/
  | pending : Outcome ε α
  deriving DecidableEq

namespace Outcome

variable {ε α β : Type*}

/-- Go on with the value of a computation, if it has one. -/
def bind (x : Outcome ε α) (f : α → Outcome ε β) : Outcome ε β :=
  match x with
  | ret a => f a
  | fault e => fault e
  | pending => pending

instance : Monad (Outcome ε) where
  pure := ret
  bind := bind

@[simp] theorem ret_bind (a : α) (f : α → Outcome ε β) : (ret a).bind f = f a := rfl

@[simp] theorem fault_bind (e : ε) (f : α → Outcome ε β) : (fault e).bind f = fault e := rfl

@[simp] theorem pending_bind (f : α → Outcome ε β) :
    (pending : Outcome ε α).bind f = pending := rfl

@[simp] theorem bind_def {ε : Type} {α β : Type} (x : Outcome ε α) (f : α → Outcome ε β) :
    x >>= f = x.bind f := rfl

/-- **Inversion of sequencing**: a sequence that returned is two computations that
returned. -/
theorem bind_eq_ret_iff {x : Outcome ε α} {f : α → Outcome ε β} {b : β} :
    x.bind f = ret b ↔ ∃ a, x = ret a ∧ f a = ret b := by
  cases x <;> simp

/-- A sequence that faulted faulted in one of the two. -/
theorem bind_eq_fault_iff {x : Outcome ε α} {f : α → Outcome ε β} {e : ε} :
    x.bind f = fault e ↔ x = fault e ∨ ∃ a, x = ret a ∧ f a = fault e := by
  cases x <;> simp

end Outcome

/-- What the body of a loop does with an event. -/
inductive LoopFlow (ε σ : Type*)
  /-- Go round once more. -/
  | next (s : σ) : LoopFlow ε σ
  /-- Leave the loop. -/
  | stop (s : σ) : LoopFlow ε σ
  /-- Do something without a defined behaviour. -/
  | fault (e : ε) : LoopFlow ε σ

section Loop

variable {ε σ α β : Type*}

/-- Run a loop body over a list of events; the value is the state in which the
loop was left, with the events it did not read. -/
def runLoop (body : σ → α → LoopFlow ε σ) : σ → List α → Outcome ε (σ × List α)
  | _, [] => .pending
  | s, a :: as => match body s a with
      | .next s' => runLoop body s' as
      | .stop s' => .ret (s', as)
      | .fault e => .fault e

/-- The state after a list of events each of which lets the loop go on. -/
def through (body : σ → α → LoopFlow ε σ) : σ → List α → Option σ
  | s, [] => some s
  | s, a :: as => match body s a with
      | .next s' => through body s' as
      | _ => none

variable {body : σ → α → LoopFlow ε σ} {s s' t : σ} {a : α} {as rest : List α} {e : ε}

theorem runLoop_cons_next (h : body s a = .next s') :
    runLoop body s (a :: as) = runLoop body s' as := by
  rw [runLoop, h]

theorem runLoop_cons_stop (h : body s a = .stop s') :
    runLoop body s (a :: as) = .ret (s', as) := by
  rw [runLoop, h]

theorem runLoop_cons_fault (h : body s a = .fault e) :
    runLoop body s (a :: as) = .fault e := by
  rw [runLoop, h]

theorem through_cons_next (h : body s a = .next s') :
    through body s (a :: as) = through body s' as := by
  rw [through, h]

/-- A loop that goes on through some events is the loop over the events after them. -/
theorem runLoop_append (rest : List α) (h : through body s as = some s') :
    runLoop body s (as ++ rest) = runLoop body s' rest := by
  induction as generalizing s with
  | nil =>
    obtain rfl : s = s' := by simpa [through] using h
    rfl
  | cons b as ih =>
    cases hb : body s b with
    | next t =>
      rw [through_cons_next hb] at h
      rw [List.cons_append, runLoop_cons_next hb, ih h]
    | stop t => simp [through, hb] at h
    | fault f => simp [through, hb] at h

theorem through_snoc (h : through body s as = some s') (ha : body s' a = .next t) :
    through body s (as ++ [a]) = some t := by
  induction as generalizing s with
  | nil =>
    obtain rfl : s = s' := by simpa [through] using h
    rw [List.nil_append, through_cons_next ha, through]
  | cons b as ih =>
    cases hb : body s b with
    | next u =>
      rw [through_cons_next hb] at h
      rw [List.cons_append, through_cons_next hb, ih h]
    | stop u => simp [through, hb] at h
    | fault f => simp [through, hb] at h

/-- What the body keeps holds of the state in which the loop was left. -/
theorem runLoop_invariant {I : σ → Prop}
    (hnext : ∀ s a s', I s → body s a = .next s' → I s')
    (hstop : ∀ s a s', I s → body s a = .stop s' → I s') (hs : I s)
    (h : runLoop body s as = .ret (s', rest)) : I s' := by
  induction as generalizing s with
  | nil => cases h
  | cons a as ih =>
    cases hb : body s a with
    | next t =>
      rw [runLoop_cons_next hb] at h
      exact ih (hnext s a t hs hb) h
    | stop t =>
      rw [runLoop_cons_stop hb] at h
      obtain ⟨rfl, -⟩ : t = s' ∧ as = rest := by simpa using h
      exact hstop s a t hs hb
    | fault f =>
      rw [runLoop_cons_fault hb] at h
      cases h

/-- **What holds of the events read.** If `I` speaks about the events read so far and the
body keeps it as it goes on, and `P` follows where the body ends the loop, then `P` holds of
all the events that the loop has read. -/
theorem exists_read_of_runLoop {I P : List α → σ → Prop}
    (hnext : ∀ pre s a s', I pre s → body s a = .next s' → I (pre ++ [a]) s')
    (hstop : ∀ pre s a s', I pre s → body s a = .stop s' → P (pre ++ [a]) s')
    (hs : I [] s) (h : runLoop body s as = .ret (s', rest)) :
    ∃ seen, as = seen ++ rest ∧ P seen s' := by
  suffices hread : ∀ pre s, I pre s → runLoop body s as = .ret (s', rest) →
      ∃ seen, as = seen ++ rest ∧ P (pre ++ seen) s' from hread [] s hs h
  clear hs h
  induction as with
  | nil =>
    intro pre s _ h
    cases h
  | cons a as ih =>
    intro pre s hs h
    cases hb : body s a with
    | next t =>
      rw [runLoop_cons_next hb] at h
      obtain ⟨seen, rfl, hpost⟩ := ih (pre ++ [a]) t (hnext pre s a t hs hb) h
      exact ⟨a :: seen, rfl, by rwa [List.append_assoc] at hpost⟩
    | stop t =>
      rw [runLoop_cons_stop hb] at h
      obtain ⟨rfl, rfl⟩ : t = s' ∧ as = rest := by simpa using h
      exact ⟨[a], rfl, hstop pre s a t hs hb⟩
    | fault f =>
      rw [runLoop_cons_fault hb] at h
      cases h

/-- A loop that faulted did so in its body. -/
theorem exists_of_runLoop_eq_fault (h : runLoop body s as = .fault e) :
    ∃ s a, body s a = .fault e := by
  induction as generalizing s with
  | nil => cases h
  | cons a as ih =>
    cases hb : body s a with
    | next t =>
      rw [runLoop_cons_next hb] at h
      exact ih h
    | stop t =>
      rw [runLoop_cons_stop hb] at h
      cases h
    | fault f =>
      rw [runLoop_cons_fault hb] at h
      obtain rfl : f = e := Outcome.fault.inj h
      exact ⟨s, a, hb⟩

/-! ### Two bodies that agree

A second body reads more of an event than the first one does. -/

section Agree

variable {γ : Type*} {body' : σ → γ → LoopFlow ε σ} {f : γ → α} {bs : List γ}

theorem through_of_agree
    (hagree : ∀ s b, (∀ e, body s (f b) ≠ .fault e) → body' s b = body s (f b))
    (h : through body s (bs.map f) = some s') : through body' s bs = some s' := by
  induction bs generalizing s with
  | nil => exact h
  | cons b bs ih =>
    rw [List.map_cons] at h
    cases hb : body s (f b) with
    | next t =>
      rw [through_cons_next hb] at h
      rw [through_cons_next ((hagree s b (by simp [hb])).trans hb), ih h]
    | stop t => simp [through, hb] at h
    | fault e => simp [through, hb] at h

end Agree

/-! ### The verdict of a loop -/

/-- No event of the list has a verdict, each being judged after the events before
it. -/
def Passes (verdict : List α → α → Option β) (as : List α) : Prop :=
  ∀ pre a post, as = pre ++ a :: post → verdict pre a = none

variable {verdict : List α → α → Option β}

theorem passes_nil : Passes verdict [] := by
  intro pre a post h
  cases pre <;> cases h

theorem passes_snoc : Passes verdict (as ++ [a]) ↔ Passes verdict as ∧ verdict as a = none := by
  constructor
  · intro h
    exact ⟨fun pre b post he => h pre b (post ++ [a]) (by simp [he]), h as a [] rfl⟩
  · -- the event is the last one, or one of those before it
    rintro ⟨has, ha⟩ pre b post he
    rcases List.eq_nil_or_concat' post with rfl | ⟨post, c, rfl⟩
    · obtain ⟨rfl, hb⟩ := List.append_inj' he rfl
      obtain rfl : a = b := by simpa using hb
      exact ha
    · rw [← List.cons_append, ← List.append_assoc] at he
      exact has pre b post (List.append_inj' he rfl).1

/-- A list of events either passes or has a first event with a verdict. -/
theorem passes_or_exists_first (verdict : List α → α → Option β) (as : List α) :
    Passes verdict as ∨ ∃ pre a post v,
      as = pre ++ a :: post ∧ Passes verdict pre ∧ verdict pre a = some v := by
  induction as using List.reverseRecOn with
  | nil => exact Or.inl passes_nil
  | append_singleton as b ih =>
    rcases ih with hpass | ⟨pre, a, post, v, rfl, hpass, hv⟩
    · cases hv : verdict as b with
      | none => exact Or.inl (passes_snoc.mpr ⟨hpass, hv⟩)
      | some v => exact Or.inr ⟨as, b, [], v, rfl, hpass, hv⟩
    · exact Or.inr ⟨pre, a, post ++ [b], v, by simp, hpass, hv⟩

/-- There is one first event with a verdict. -/
theorem first_unique {pre pre' post post' : List α} {a a' : α}
    (hpre : Passes verdict pre) (ha : verdict pre a ≠ none)
    (hpre' : Passes verdict pre') (ha' : verdict pre' a' ≠ none)
    (h : pre ++ a :: post = pre' ++ a' :: post') : pre = pre' ∧ a = a' ∧ post = post' := by
  -- if one were before the other, it would be among the events that pass
  rcases List.append_eq_append_iff.mp h with ⟨c, rfl, hc⟩ | ⟨c, rfl, hc⟩
  · cases c with
    | nil =>
      obtain ⟨rfl, rfl⟩ : a = a' ∧ post = post' := by simpa using hc
      exact ⟨(List.append_nil pre).symm, rfl, rfl⟩
    | cons b c =>
      obtain ⟨rfl, -⟩ : a = b ∧ _ := by simpa using hc
      exact absurd (hpre' pre a c rfl) ha
  · cases c with
    | nil =>
      obtain ⟨rfl, rfl⟩ : a' = a ∧ post' = post := by simpa using hc
      exact ⟨List.append_nil pre', rfl, rfl⟩
    | cons b c =>
      obtain ⟨rfl, -⟩ : a' = b ∧ _ := by simpa using hc
      exact absurd (hpre pre' a' c rfl) ha'

/-- **The invariant rule of the loop.** If along an invariant `Inv`, which speaks about
the events read so far, the body goes on where the next event has no verdict, then the
loop goes on through every list that passes, and keeps the invariant. -/
theorem through_of_passes {Inv : List α → σ → Prop}
    (hnext : ∀ pre s a, Inv pre s → verdict pre a = none →
      ∃ s', body s a = .next s' ∧ Inv (pre ++ [a]) s')
    (hs : Inv [] s) (hpass : Passes verdict as) :
    ∃ s', through body s as = some s' ∧ Inv as s' := by
  induction as using List.reverseRecOn with
  | nil => exact ⟨s, rfl, hs⟩
  | append_singleton as a ih =>
    obtain ⟨has, ha⟩ := passes_snoc.mp hpass
    obtain ⟨t, ht, hinv⟩ := ih has
    obtain ⟨s', hbody, hinv'⟩ := hnext as t a hinv ha
    exact ⟨s', through_snoc ht hbody, hinv'⟩

end Loop
