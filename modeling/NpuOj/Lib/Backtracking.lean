import Mathlib.Data.List.Basic
import Mathlib.Tactic.Common

/-!
# Searching a text for a pattern by backtracking

A pattern is a sequence of pieces: a test of the place, a single letter, or a run of letters,
as long as possible. A matcher that backtracks tries the ways in which a piece can take
letters one after the other, and goes on with the next piece from each of them, until one way
leads to the end of the pattern. So what a piece does to a state of the matcher, a `Thread`, is
a *list* of threads, in the order in which they are tried, and a pattern is the composition of
its pieces (`Backtracking.run`). The match at a place is the first thread of the list, and the
match of a text is the one at the first place where there is any (`Backtracking.search`).

For the question where a pattern matches, the order does not matter: a thread is in the list if
the text can be divided so that every piece gets its part (`Backtracking.mem_run_cons` and one
lemma for each kind of piece).
-/

namespace Backtracking

variable {α : Type*}

/-- A piece of a pattern. -/
inductive Piece (α : Type*)
  /-- A test of the letters before the place, the last first, and of those after it. -/
  | place (p : List α → List α → Bool)
  | one (p : α → Bool)
  | star (p : α → Bool)
  | plus (p : α → Bool)
  /-- What follows is remembered. -/
  | openGroup
  | closeGroup

/-- A state of the matcher: the text before its place, the last letter first, the text after
it, and the group that it remembers. -/
structure Thread (α : Type*) where
  before : List α
  after : List α
  opened : Option ℕ
  closed : Option ℕ

namespace Thread

/-- The matcher at a place. -/
def start (before after : List α) : Thread α := ⟨before, after, none, none⟩

/-- The number of letters before the place. -/
def pos (t : Thread α) : ℕ := t.before.length

/-- The matcher after it has taken some letters. -/
def take (t : Thread α) (taken rest : List α) : Thread α :=
  { t with before := taken.reverse ++ t.before, after := rest }

variable {t : Thread α} {taken rest : List α}

@[simp] theorem before_take : (t.take taken rest).before = taken.reverse ++ t.before := rfl

theorem take_take {taken' rest' : List α} :
    (t.take taken rest).take taken' rest' = t.take (taken ++ taken') rest' := by
  simp [take]

end Thread

/-! ### Pieces -/

/-- The runs of letters at the beginning of a text, with what comes after them, the longest
first. -/
def runs (p : α → Bool) : List α → List (List α × List α)
  | [] => [([], [])]
  | c :: cs =>
    if p c then (runs p cs).map (fun x => (c :: x.1, x.2)) ++ [([], c :: cs)] else [([], c :: cs)]

theorem mem_runs {p : α → Bool} {text taken rest : List α} :
    (taken, rest) ∈ runs p text ↔ text = taken ++ rest ∧ ∀ c ∈ taken, p c = true := by
  induction text generalizing taken with
  | nil =>
    rw [runs, List.mem_singleton, Prod.mk.injEq]
    constructor
    · rintro ⟨rfl, rfl⟩
      exact ⟨rfl, by simp⟩
    · rintro ⟨htext, -⟩
      exact List.append_eq_nil_iff.mp htext.symm
  | cons c cs ih =>
    cases taken with
    | nil =>
      have hhere : (([], rest) : List α × List α) ∈ runs p (c :: cs) ↔ rest = c :: cs := by
        rw [runs]
        split <;> simp
      rw [hhere, List.nil_append, eq_comm]
      exact (and_iff_left (by simp)).symm
    | cons d taken =>
      rw [runs]
      split
      · next hc =>
        simp only [List.mem_append, List.mem_map, Prod.mk.injEq, List.cons.injEq,
          List.mem_singleton, reduceCtorEq, false_and, or_false, List.cons_append,
          List.forall_mem_cons]
        constructor
        · rintro ⟨⟨taken', rest'⟩, hmem, ⟨rfl, rfl⟩, rfl⟩
          obtain ⟨rfl, hall⟩ := ih.mp hmem
          exact ⟨⟨rfl, rfl⟩, hc, hall⟩
        · rintro ⟨⟨rfl, rfl⟩, -, hall⟩
          exact ⟨(taken, rest), ih.mpr ⟨rfl, hall⟩, ⟨rfl, rfl⟩, rfl⟩
      · next hc =>
        simp only [List.mem_singleton, Prod.mk.injEq, reduceCtorEq, false_and, List.cons_append,
          List.cons.injEq, List.forall_mem_cons, false_iff, not_and]
        rintro ⟨rfl, -⟩ hd
        exact absurd hd hc

/-- **What a piece can do**, in the order in which it is tried. -/
def Piece.step (t : Thread α) : Piece α → List (Thread α)
  | .place p => if p t.before t.after then [t] else []
  | .one p => match t.after with
    | c :: rest => if p c then [t.take [c] rest] else []
    | [] => []
  | .star p => (runs p t.after).map fun x => t.take x.1 x.2
  | .plus p => ((runs p t.after).filter fun x => !x.1.isEmpty).map fun x => t.take x.1 x.2
  | .openGroup => [{ t with opened := some t.pos }]
  | .closeGroup => [{ t with closed := some t.pos }]

/-- **The matches of a pattern** from a state of the matcher, in the order in which they are
found. -/
def run : List (Piece α) → Thread α → List (Thread α)
  | [], t => [t]
  | piece :: pieces, t => (piece.step t).flatMap (run pieces)

section Run

variable {t t' : Thread α} {piece : Piece α} {pieces : List (Piece α)} {p : α → Bool}

theorem mem_run_nil : t' ∈ run [] t ↔ t' = t := List.mem_singleton

theorem mem_run_cons : t' ∈ run (piece :: pieces) t ↔ ∃ u ∈ piece.step t, t' ∈ run pieces u :=
  List.mem_flatMap

theorem mem_run_place {p : List α → List α → Bool} :
    t' ∈ run (.place p :: pieces) t ↔ p t.before t.after = true ∧ t' ∈ run pieces t := by
  rw [mem_run_cons, Piece.step]
  split
  · next hp => simp [hp]
  · next hp => simp [hp]

theorem mem_run_one : t' ∈ run (.one p :: pieces) t ↔
    ∃ c rest, t.after = c :: rest ∧ p c = true ∧ t' ∈ run pieces (t.take [c] rest) := by
  rw [mem_run_cons, Piece.step]
  cases h : t.after with
  | nil => simp
  | cons c rest =>
    by_cases hc : p c = true
    · simp [hc]
    · simp [hc]

theorem mem_run_star : t' ∈ run (.star p :: pieces) t ↔
    ∃ taken rest, t.after = taken ++ rest ∧ (∀ c ∈ taken, p c = true) ∧
      t' ∈ run pieces (t.take taken rest) := by
  rw [mem_run_cons, Piece.step]
  constructor
  · rintro ⟨u, hu, hrun⟩
    obtain ⟨⟨taken, rest⟩, hmem, rfl⟩ := List.mem_map.mp hu
    obtain ⟨htext, hall⟩ := mem_runs.mp hmem
    exact ⟨taken, rest, htext, hall, hrun⟩
  · rintro ⟨taken, rest, htext, hall, hrun⟩
    exact ⟨_, List.mem_map_of_mem (mem_runs.mpr ⟨htext, hall⟩), hrun⟩

theorem mem_run_plus : t' ∈ run (.plus p :: pieces) t ↔
    ∃ taken rest, t.after = taken ++ rest ∧ taken ≠ [] ∧ (∀ c ∈ taken, p c = true) ∧
      t' ∈ run pieces (t.take taken rest) := by
  rw [mem_run_cons, Piece.step]
  constructor
  · rintro ⟨u, hu, hrun⟩
    obtain ⟨⟨taken, rest⟩, hmem, rfl⟩ := List.mem_map.mp hu
    obtain ⟨hmem, hne⟩ := List.mem_filter.mp hmem
    obtain ⟨htext, hall⟩ := mem_runs.mp hmem
    exact ⟨taken, rest, htext, by simpa using hne, hall, hrun⟩
  · rintro ⟨taken, rest, htext, hne, hall, hrun⟩
    have hmem : (taken, rest) ∈ (runs p t.after).filter fun x => !x.1.isEmpty :=
      List.mem_filter.mpr ⟨mem_runs.mpr ⟨htext, hall⟩, by simpa using hne⟩
    exact ⟨_, List.mem_map_of_mem hmem, hrun⟩

theorem mem_run_openGroup : t' ∈ run (.openGroup :: pieces) t ↔
    t' ∈ run pieces { t with opened := some t.pos } := by
  rw [mem_run_cons, Piece.step]
  simp

theorem mem_run_closeGroup : t' ∈ run (.closeGroup :: pieces) t ↔
    t' ∈ run pieces { t with closed := some t.pos } := by
  rw [mem_run_cons, Piece.step]
  simp

/-- A word, letter by letter. -/
theorem mem_run_word {β : Type*} {q : β → α → Bool} {word : List β} :
    t' ∈ run (word.map (fun b => .one (q b)) ++ pieces) t ↔
      ∃ taken rest, t.after = taken ++ rest ∧ List.Forall₂ (fun b c => q b c = true) word taken ∧
        t' ∈ run pieces (t.take taken rest) := by
  induction word generalizing t with
  | nil =>
    constructor
    · intro hrun
      exact ⟨[], t.after, rfl, .nil, hrun⟩
    · rintro ⟨taken, rest, htext, hword, hrun⟩
      cases hword
      obtain rfl : t.after = rest := htext
      exact hrun
  | cons b word ih =>
    rw [List.map_cons, List.cons_append, mem_run_one]
    constructor
    · rintro ⟨c, rest, htext, hc, hrun⟩
      obtain ⟨taken, rest', htext', hword, hrun⟩ := ih.mp hrun
      obtain rfl : rest = taken ++ rest' := htext'
      refine ⟨c :: taken, rest', htext, .cons hc hword, ?_⟩
      rwa [Thread.take_take] at hrun
    · rintro ⟨taken, rest, htext, hword, hrun⟩
      cases hword with
      | cons hc hword =>
        refine ⟨_, _, htext, hc, ih.mpr ⟨_, rest, rfl, hword, ?_⟩⟩
        rwa [Thread.take_take]

end Run

/-! ### The first place -/

/-- **The match of a text**: the first one at the first place where there is any. -/
def search (pieces : List (Piece α)) : List α → List α → Option (Thread α)
  | before, [] => (run pieces (.start before [])).head?
  | before, c :: after =>
    match (run pieces (.start before (c :: after))).head? with
    | some t => some t
    | none => search pieces (c :: before) after

section Search

variable {pieces : List (Piece α)} {before after : List α} {t : Thread α}

/-- There is no match at any place. -/
theorem search_eq_none_iff : search pieces before after = none ↔
    ∀ skipped rest, after = skipped ++ rest →
      run pieces (.start (skipped.reverse ++ before) rest) = [] := by
  induction after generalizing before with
  | nil =>
    rw [search, List.head?_eq_none_iff]
    constructor
    · intro hrun skipped rest htext
      obtain ⟨rfl, rfl⟩ := List.append_eq_nil_iff.mp htext.symm
      exact hrun
    · intro h
      exact h [] [] rfl
  | cons c after ih =>
    rw [search]
    constructor
    · intro h skipped rest htext
      split at h
      · cases h
      · next hnone =>
        cases skipped with
        | nil =>
          obtain rfl : c :: after = rest := htext
          exact List.head?_eq_none_iff.mp hnone
        | cons d skipped =>
          obtain ⟨rfl, rfl⟩ : c = d ∧ after = skipped ++ rest := by simpa using htext
          simpa using ih.mp h skipped rest rfl
    · intro h
      have hhere := h [] (c :: after) rfl
      rw [List.reverse_nil, List.nil_append] at hhere
      rw [hhere]
      refine ih.mpr fun skipped rest htext => ?_
      simpa using h (c :: skipped) rest (by rw [htext, List.cons_append])

/-- **What is found** is a match, and there is none before it. -/
theorem search_eq_some (h : search pieces before after = some t) :
    ∃ skipped rest, after = skipped ++ rest ∧
      t ∈ run pieces (.start (skipped.reverse ++ before) rest) ∧
      ∀ skipped' rest', after = skipped' ++ rest' →
        run pieces (.start (skipped'.reverse ++ before) rest') ≠ [] →
        skipped.length ≤ skipped'.length := by
  induction after generalizing before with
  | nil =>
    exact ⟨[], [], rfl, List.mem_of_mem_head? h, fun _ _ _ _ => Nat.zero_le _⟩
  | cons c after ih =>
    rw [search] at h
    split at h
    · next u hu =>
      obtain rfl := Option.some.inj h
      exact ⟨[], c :: after, rfl, List.mem_of_mem_head? hu, fun _ _ _ _ => Nat.zero_le _⟩
    · next hnone =>
      obtain ⟨skipped, rest, rfl, hmem, hfirst⟩ := ih h
      refine ⟨c :: skipped, rest, rfl, by simpa using hmem, ?_⟩
      intro skipped' rest' htext hmatch
      cases skipped' with
      | nil =>
        obtain rfl : c :: (skipped ++ rest) = rest' := htext
        exact absurd (List.head?_eq_none_iff.mp hnone) hmatch
      | cons d skipped' =>
        obtain ⟨rfl, hrest⟩ : c = d ∧ skipped ++ rest = skipped' ++ rest' := by simpa using htext
        exact Nat.succ_le_succ (hfirst skipped' rest' hrest (by simpa using hmatch))

end Search

end Backtracking
