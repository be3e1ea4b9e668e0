import Mathlib.Logic.Function.Basic
import Mathlib.Tactic.Common
import NpuOj.Lib.TransSystem

/-!
# Threads that share one lock

Any number of threads run code that takes a lock, tries to take it, and gives it back; in
between the code acts on data that the threads share. An action may be a call or a branch,
so that what it leaves is data and more code. Of a lock that was tried for, the code
remembers whether it got it, and gives it back only if it did.

The lock guards an assertion, the *invariant of the lock*: whatever a thread does with the
data while it has the lock, the assertion holds whenever nobody has it. A thread is
`LockProgram.Safe` if its code keeps to that; `LockInv` says so of all threads, and it is
kept by every step. Code is verified by triples (`LockProgram.Triple`) where its caller
has the lock, and by `LockProgram.Idle` where it may be run without.
-/

/-- An instruction. -/
inductive LockInstr (A : Type*)
  | lock
  | unlock
  /-- Take the lock if nobody has it, and remember whether it was taken. -/
  | tryLock
  /-- Give the lock back if the matching `tryLock` took it. -/
  | unlockIf
  /-- Act on the data. -/
  | act (a : A)

/-- Code that is run under a `tryLock` of its own. -/
def LockInstr.bracket {A : Type*} (c : List (LockInstr A)) : List (LockInstr A) :=
  .tryLock :: c ++ [.unlockIf]

/-- The code of the calls that threads make, and what an action does: with data and an
answer of the world it leaves data and code to be run next, or else it is not enabled. -/
structure LockProgram (D A R C : Type*) where
  call : C → List (LockInstr A)
  exec : D → A → R → Option (D × List (LockInstr A))
  /-- The action is not to be taken without the lock. -/
  needs : A → Prop

/-- What holds of the data: whenever nobody has the lock, and always. -/
structure LockSpec (D : Type*) where
  free : D → Prop
  always : D → Prop
  always_of_free : ∀ {d}, free d → always d

/-- A thread: the code it has before it, and whether it got the locks it tried for, the
innermost first. -/
structure LockThread (A : Type*) where
  code : List (LockInstr A)
  gained : List Bool

/-- The data, who has the lock, and the threads. -/
structure LockState (D A ι : Type*) where
  data : D
  owner : Option ι
  thread : ι → LockThread A

/-- A step of a thread. -/
inductive LockStep (C R : Type*)
  /-- The thread makes a call. -/
  | call (c : C)
  /-- The thread runs an instruction; the answer matters if it is an action. -/
  | next (r : R)

variable {D A R C ι : Type*} [DecidableEq ι]

namespace LockState

/-- The state after a thread has moved on. -/
def go (s : LockState D A ι) (i : ι) (t : LockThread A) : LockState D A ι :=
  { s with thread := Function.update s.thread i t }

/-- What a thread sees of the data. -/
def view (s : LockState D A ι) (i : ι) : Option D :=
  if s.owner = some i then some s.data else none

variable {s : LockState D A ι} {i k : ι} {d : D}

theorem view_of_owner (h : s.owner = some i) : s.view i = some s.data := if_pos h

theorem view_of_ne (h : s.owner ≠ some i) : s.view i = none := if_neg h

/-- A thread that sees the data has the lock. -/
theorem owner_of_view (h : s.view i = some d) : s.owner = some i ∧ d = s.data := by
  rw [view] at h
  split at h
  · next howner => exact ⟨howner, (Option.some.inj h).symm⟩
  · cases h

/-- Nobody else sees the data of a thread that sees them. -/
theorem view_eq_none (h : s.owner = some i) (hk : k ≠ i) : s.view k = none :=
  view_of_ne fun howner => hk (Option.some.inj (howner.symm.trans h))

end LockState

namespace LockProgram

open LockInstr

variable (P : LockProgram D A R C)

/-- One step of one thread. -/
def step (s : LockState D A ι) : ι × LockStep C R → Option (LockState D A ι)
  | (i, .call c) => match s.thread i with
    | ⟨[], gained⟩ => some (s.go i ⟨P.call c, gained⟩)
    | _ => none
  | (i, .next r) => match s.thread i, s.owner with
    | ⟨.lock :: c, gained⟩, none => some { s.go i ⟨c, gained⟩ with owner := some i }
    | ⟨.unlock :: c, gained⟩, _ => some { s.go i ⟨c, gained⟩ with owner := none }
    | ⟨.tryLock :: c, gained⟩, none => some { s.go i ⟨c, true :: gained⟩ with owner := some i }
    | ⟨.tryLock :: c, gained⟩, some _ => some (s.go i ⟨c, false :: gained⟩)
    | ⟨.unlockIf :: c, true :: gained⟩, _ => some { s.go i ⟨c, gained⟩ with owner := none }
    | ⟨.unlockIf :: c, false :: gained⟩, _ => some (s.go i ⟨c, gained⟩)
    | ⟨.act a :: c, gained⟩, _ =>
      (P.exec s.data a r).map fun out => { s.go i ⟨out.2 ++ c, gained⟩ with data := out.1 }
    | _, _ => none

/-- **The threads with their lock**, from data that they find. -/
def system (d : D) (ι : Type*) [DecidableEq ι] :
    TransSystem (LockState D A ι) (ι × LockStep C R) where
  Init s := s = ⟨d, none, fun _ => ⟨[], []⟩⟩
  step := P.step

/-! ### Safety of a thread -/

variable (S : LockSpec D)

/-- **A thread keeps to the specification**, from data that it sees if it has the lock,
and from any data if it has not. -/
inductive Safe : Option D → List Bool → List (LockInstr A) → Prop
  | nil : Safe none [] []
  | lock {gained c} (h : ∀ d, S.free d → Safe (some d) gained c) : Safe none gained (.lock :: c)
  | unlock {d gained c} (hd : S.free d) (h : Safe none gained c) :
      Safe (some d) gained (.unlock :: c)
  /-- The caller has the lock, and so it is not had a second time. -/
  | tryLockOwned {d gained c} (h : Safe (some d) (false :: gained) c) :
      Safe (some d) gained (.tryLock :: c)
  | tryLock {gained c} (hgot : ∀ d, S.free d → Safe (some d) (true :: gained) c)
      (hnot : Safe none (false :: gained) c) : Safe none gained (.tryLock :: c)
  | unlockGained {d gained c} (hd : S.free d) (h : Safe none gained c) :
      Safe (some d) (true :: gained) (.unlockIf :: c)
  | unlockIf {view gained c} (h : Safe view gained c) : Safe view (false :: gained) (.unlockIf :: c)
  | act {d gained a c} (halways : S.always d → ∀ r d' e, P.exec d a r = some (d', e) → S.always d')
      (h : S.always d → ∀ r d' e, P.exec d a r = some (d', e) → Safe (some d') gained (e ++ c)) :
      Safe (some d) gained (.act a :: c)
  /-- Without the lock the data must be left as they are. -/
  | actFree {gained a c} (hneeds : ¬P.needs a)
      (hdata : ∀ d r d' e, P.exec d a r = some (d', e) → d' = d)
      (h : ∀ d r d' e, P.exec d a r = some (d', e) → Safe none gained (e ++ c)) :
      Safe none gained (.act a :: c)

/-- **The invariant**: the specification holds of the data, and all threads keep to it. -/
structure LockInv (s : LockState D A ι) : Prop where
  free : s.owner = none → S.free s.data
  always : S.always s.data
  threads : ∀ i, P.Safe S (s.view i) (s.thread i).gained (s.thread i).code

variable {P S} {s s' : LockState D A ι} {i : ι} {gained : List Bool} {c : List (LockInstr A)}

/-- The data when one thread has moved and the others see what they saw. -/
theorem LockInv.go (hinv : P.LockInv S s) {t : LockThread A} {o : Option ι} {d : D}
    (hview : ∀ k, k ≠ i → LockState.view ⟨d, o, s.thread⟩ k = s.view k)
    (hfree : o = none → S.free d) (halways : S.always d)
    (hsafe : P.Safe S (LockState.view ⟨d, o, s.thread⟩ i) t.gained t.code) :
    P.LockInv S { s.go i t with data := d, owner := o } := by
  refine ⟨hfree, halways, fun k => ?_⟩
  change P.Safe S (LockState.view ⟨d, o, s.thread⟩ k) (Function.update s.thread i t k).gained
    (Function.update s.thread i t k).code
  rcases eq_or_ne k i with rfl | hki
  · rw [Function.update_self]
    exact hsafe
  · rw [Function.update_of_ne hki, hview k hki]
    exact hinv.threads k

/-- The lock is taken. -/
theorem LockInv.gain (hinv : P.LockInv S s) (howner : s.owner = none) {t : LockThread A}
    (h : ∀ d, S.free d → P.Safe S (some d) t.gained t.code) :
    P.LockInv S { s.go i t with owner := some i } := by
  refine hinv.go (d := s.data) (fun k hk => ?_) (fun hnone => by cases hnone) hinv.always ?_
  · rw [LockState.view_eq_none rfl hk, LockState.view_of_ne (by rw [howner]; simp)]
  · rw [LockState.view_of_owner rfl]
    exact h s.data (hinv.free howner)

/-- The lock is given back. -/
theorem LockInv.release (hinv : P.LockInv S s) (howner : s.owner = some i) (hfree : S.free s.data)
    {t : LockThread A} (h : P.Safe S none t.gained t.code) :
    P.LockInv S { s.go i t with owner := none } := by
  refine hinv.go (d := s.data) (fun k hk => ?_) (fun _ => hfree) hinv.always ?_
  · rw [LockState.view_of_ne (by simp), LockState.view_eq_none howner hk]
  · rw [LockState.view_of_ne (by simp)]
    exact h

/-- The thread moves on, with the lock or without. -/
theorem LockInv.moveOn (hinv : P.LockInv S s) {t : LockThread A}
    (h : P.Safe S (s.view i) t.gained t.code) : P.LockInv S (s.go i t) :=
  hinv.go (fun _ _ => rfl) hinv.free hinv.always h

/-- **Every step keeps the invariant.** -/
theorem LockInv.step (hcalls : ∀ c, P.Safe S none [] (P.call c)) (hinv : P.LockInv S s)
    {a : LockStep C R} (h : P.step s (i, a) = some s') : P.LockInv S s' := by
  have hsafe := hinv.threads i
  generalize hview : s.view i = view at hsafe
  rcases a with call | r
  · simp only [LockProgram.step] at h
    split at h
    · next gained hi =>
      obtain rfl := Option.some.inj h
      rw [hi] at hsafe
      cases hsafe with
      | nil => exact hinv.moveOn (hview ▸ hcalls call)
    · cases h
  · simp only [LockProgram.step] at h
    split at h
    · next c gained hi howner =>
      obtain rfl := Option.some.inj h
      rw [hi] at hsafe
      cases hsafe with
      | lock hgot => exact hinv.gain howner hgot
    · next c gained hi =>
      obtain rfl := Option.some.inj h
      rw [hi] at hsafe
      cases hsafe with
      | unlock hd hrest =>
        obtain ⟨howner, rfl⟩ := LockState.owner_of_view hview
        exact hinv.release howner hd hrest
    · next c gained hi howner =>
      obtain rfl := Option.some.inj h
      rw [hi] at hsafe
      cases hsafe with
      | tryLockOwned hrest => cases howner.symm.trans (LockState.owner_of_view hview).1
      | tryLock hgot hnot => exact hinv.gain howner hgot
    · next c gained k hi howner =>
      obtain rfl := Option.some.inj h
      rw [hi] at hsafe
      cases hsafe with
      | tryLockOwned hrest => exact hinv.moveOn (hview ▸ hrest)
      | tryLock hgot hnot => exact hinv.moveOn (hview ▸ hnot)
    · next c gained hi =>
      obtain rfl := Option.some.inj h
      rw [hi] at hsafe
      cases hsafe with
      | unlockGained hd hrest =>
        obtain ⟨howner, rfl⟩ := LockState.owner_of_view hview
        exact hinv.release howner hd hrest
    · next c gained hi =>
      obtain rfl := Option.some.inj h
      rw [hi] at hsafe
      cases hsafe with
      | unlockIf hrest => exact hinv.moveOn (hview ▸ hrest)
    · next a c gained hi =>
      obtain ⟨⟨d, e⟩, hexec, rfl⟩ := Option.map_eq_some_iff.mp h
      rw [hi] at hsafe
      cases hsafe with
      | act halways hrest =>
        obtain ⟨howner, rfl⟩ := LockState.owner_of_view hview
        have hsees : LockState.view ⟨d, s.owner, s.thread⟩ i = some d :=
          LockState.view_of_owner howner
        refine hinv.go (d := d) (o := s.owner) (fun k hk => ?_) (fun hnone => ?_)
          (halways hinv.always r d e hexec) (hsees ▸ hrest hinv.always r d e hexec)
        · exact (LockState.view_eq_none (s := ⟨d, s.owner, s.thread⟩) howner hk).trans
            (LockState.view_eq_none howner hk).symm
        · cases howner.symm.trans hnone
      | actFree _ hdata hrest =>
        obtain rfl := hdata s.data r d e hexec
        exact hinv.moveOn (hview ▸ hrest s.data r s.data e hexec)
    · cases h

/-- The invariant holds of all that is reachable. -/
theorem lockInv_of_reachable (hcalls : ∀ c, P.Safe S none [] (P.call c)) {d : D} (hd : S.free d)
    (h : (P.system d ι).Reachable s) : P.LockInv S s := by
  refine h.invariant ?_ fun _ _ _ _ hinv _ hstep => hinv.step hcalls hstep
  rintro _ rfl
  exact ⟨fun _ => hd, S.always_of_free hd, fun _ => .nil⟩

/-- **An action that needs the lock** is taken by the thread that has it. -/
theorem LockInv.owner_of_needs (hinv : P.LockInv S s) {a : A} (hi : (s.thread i).code = .act a :: c)
    (ha : P.needs a) : s.owner = some i := by
  have hsafe := hinv.threads i
  generalize hview : s.view i = view at hsafe
  generalize (s.thread i).gained = gained at hsafe
  rw [hi] at hsafe
  cases hsafe with
  | act halways hrest => exact (LockState.owner_of_view hview).1
  | actFree hneeds hdata hrest => exact absurd ha hneeds

/-- **The data are changed** by the thread that has the lock, and by no other. -/
theorem LockInv.owner_of_data (hinv : P.LockInv S s) {a : LockStep C R}
    (h : P.step s (i, a) = some s') (hdata : s'.data ≠ s.data) : s.owner = some i := by
  have hsafe := hinv.threads i
  generalize hview : s.view i = view at hsafe
  rcases a with call | r
  · simp only [LockProgram.step] at h
    split at h
    · obtain rfl := Option.some.inj h
      exact absurd rfl hdata
    · cases h
  · simp only [LockProgram.step] at h
    split at h
    case h_7 a c gained hi =>
      obtain ⟨⟨d, e⟩, hexec, rfl⟩ := Option.map_eq_some_iff.mp h
      rw [hi] at hsafe
      cases hsafe with
      | act halways hrest => exact (LockState.owner_of_view hview).1
      | actFree _ hfree hrest => exact absurd (hfree s.data r d e hexec) hdata
    -- the other instructions leave the data alone
    all_goals
      first
      | obtain rfl := Option.some.inj h
        exact absurd rfl hdata
      | cases h

/-! ### Verifying code -/

variable (P S)

/-- **A triple**: code that is run with the lock, and leaves it where it is. -/
def Triple (Q : D → Prop) (c : List (LockInstr A)) (Q' : D → Prop) : Prop :=
  ∀ d gained rest, Q d → (∀ d', Q' d' → P.Safe S (some d') gained rest) →
    P.Safe S (some d) gained (c ++ rest)

/-- Code that may be run without the lock. -/
def Idle (c : List (LockInstr A)) : Prop :=
  ∀ gained rest, P.Safe S none gained rest → P.Safe S none gained (c ++ rest)

/-- Code that leaves the data alone, and may be run with the lock and without. -/
structure Leaves (c : List (LockInstr A)) : Prop where
  triple : ∀ Q, P.Triple S Q c Q
  idle : P.Idle S c

variable {P S} {Q Q' Q'' : D → Prop} {c' : List (LockInstr A)} {a : A}

theorem Triple.nil (h : ∀ d, Q d → Q' d) : P.Triple S Q [] Q' :=
  fun d _ _ hd hrest => hrest d (h d hd)

theorem Triple.append (h : P.Triple S Q c Q') (h' : P.Triple S Q' c' Q'') :
    P.Triple S Q (c ++ c') Q'' := fun d gained rest hd hrest => by
  rw [List.append_assoc]
  exact h d gained (c' ++ rest) hd fun d' hd' => h' d' gained rest hd' hrest

/-- An action, and the code that it leaves. -/
theorem Triple.act (h : ∀ d r d' e, Q d → S.always d → P.exec d a r = some (d', e) →
    S.always d' ∧ P.Triple S (· = d') e Q') : P.Triple S Q [.act a] Q' :=
  fun d gained rest hd hrest => .act
    (fun halways r d' e hexec => (h d r d' e hd halways hexec).1)
    (fun halways r d' e hexec => (h d r d' e hd halways hexec).2 d' gained rest rfl hrest)

/-- Where the caller has the lock, the `tryLock` fails and nothing is given back. -/
theorem Triple.bracket (h : P.Triple S Q c Q') : P.Triple S Q (bracket c) Q' :=
  fun d gained rest hd hrest => by
    have hc := h d (false :: gained) (.unlockIf :: rest) hd fun d' hd' => .unlockIf (hrest d' hd')
    simpa only [LockInstr.bracket, List.cons_append, List.append_assoc, List.nil_append]
      using Safe.tryLockOwned hc

/-- Where the caller has not, the code is run with the lock or without. -/
theorem Idle.bracket (h : P.Triple S S.free c S.free) (h' : P.Idle S c) : P.Idle S (bracket c) :=
  fun gained rest hrest => by
    have hgot : ∀ d, S.free d → P.Safe S (some d) (true :: gained) (c ++ .unlockIf :: rest) :=
      fun d hd => h d _ _ hd fun d' hd' => .unlockGained hd' hrest
    have hnot := h' (false :: gained) (.unlockIf :: rest) (.unlockIf hrest)
    simpa only [LockInstr.bracket, List.cons_append, List.append_assoc, List.nil_append]
      using Safe.tryLock hgot hnot

theorem Leaves.append (h : P.Leaves S c) (h' : P.Leaves S c') : P.Leaves S (c ++ c') where
  triple Q := (h.triple Q).append (h'.triple Q)
  idle gained rest hrest := by
    rw [List.append_assoc]
    exact h.idle gained _ (h'.idle gained rest hrest)

theorem Leaves.bracket (h : P.Leaves S c) : P.Leaves S (bracket c) where
  triple Q := (h.triple Q).bracket
  idle := Idle.bracket (h.triple S.free) h.idle

/-- An action that leaves the data alone, and no code. -/
theorem Leaves.act (hneeds : ¬P.needs a)
    (h : ∀ d r d' e, P.exec d a r = some (d', e) → d' = d ∧ e = []) : P.Leaves S [.act a] where
  triple Q := Triple.act fun d r d' e hd halways hexec => by
    obtain ⟨rfl, rfl⟩ := h d r d' e hexec
    exact ⟨halways, Triple.nil fun _ heq => heq ▸ hd⟩
  idle gained rest hrest := .actFree hneeds (fun d r d' e hexec => (h d r d' e hexec).1)
    fun d r d' e hexec => by
      rw [(h d r d' e hexec).2]
      exact hrest

/-- **A section**: code between `lock` and `unlock`. -/
theorem Safe.section (h : P.Triple S S.free c S.free) :
    P.Safe S none [] (.lock :: c ++ [.unlock]) :=
  .lock fun d hd => h d [] [.unlock] hd fun _ hd' => .unlock hd' .nil

theorem Safe.of_idle (h : P.Idle S c) : P.Safe S none [] c := by
  simpa using h [] [] .nil

end LockProgram
