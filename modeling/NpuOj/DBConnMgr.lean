import Mathlib.Algebra.GroupWithZero.Nat
import Mathlib.Data.Fintype.Basic
import NpuOj.Lib.Counting
import NpuOj.Lib.TransSystem

/-!
# The pool of database connections

`DBConnMgr` keeps ten connections, of which the configuration makes a number
available. A semaphore counts the ones to be had; under the lock,
`get_available_connection` takes a connection that has been made before, or else makes
a new one, and `release_connection` puts one back. The connection is made by
`connect_db` in the middle of the search, and what it returns is not looked at.

A section under the lock is one step. The loops run over an index that is compared with
the number of available connections and not with the size of the arrays, so that the
search may fall out of the array (`NpuOj.Search.outOfBounds`) as far as the model is
concerned.

That the pool is safe is `NpuOj.dbConns_safe`. That a connection that was handed out has
been made is another matter: `NpuOj.dbConns_connected`.
-/

namespace NpuOj

/-! ### The slots -/

/-- `DBConState` -/
inductive DBConState
  | init
  | available
  | used
  | closed
  deriving DecidableEq, Repr

/-- What has become of a `MYSQL` object. -/
inductive MysqlCon
  /-- Nothing yet. -/
  | untouched
  /-- `mysql_real_connect` returned it. -/
  | connected
  /-- `mysql_real_connect` returned `NULL`. -/
  | failed
  deriving DecidableEq, Repr

/-- `MAX_CONNECTIONS` -/
def maxConnections : ℕ := 10

instance : NeZero maxConnections := ⟨by decide⟩

/-- `MAX_AVAILABLE_CONNECTIONS`, from the value of `DB_MAX_CONNECTIONS`: an `unsigned
int`, cut to the size of the arrays. -/
def maxAvailableConnections (dbMaxConnections : ℕ) : ℕ :=
  let n := dbMaxConnections % 2 ^ 32
  if maxConnections < n then maxConnections else n

theorem maxAvailableConnections_le (dbMaxConnections : ℕ) :
    maxAvailableConnections dbMaxConnections ≤ maxConnections := by
  simp only [maxAvailableConnections]
  split <;> omega

/-- `m_Conn_bits` -/
abbrev ConnBits := Fin maxConnections → DBConState

/-- What a search through the slots comes to. -/
inductive Search
  | found (j : Fin maxConnections)
  | absent
  /-- The index has left the array. -/
  | outOfBounds
  deriving DecidableEq, Repr

/-- The loop `for (i = …; i < n; ++i)` up to a slot in the given state, with the number of
rounds that are left and the index. -/
def searchFrom (bits : ConnBits) (c : DBConState) : ℕ → ℕ → Search
  | 0, _ => .absent
  | rounds + 1, i =>
    if h : i < maxConnections then
      if bits ⟨i, h⟩ = c then .found ⟨i, h⟩ else searchFrom bits c rounds (i + 1)
    else .outOfBounds

/-- The whole search. -/
def search (bits : ConnBits) (c : DBConState) (n : ℕ) : Search := searchFrom bits c n 0

/-- The loop of `release_connection`, which does not stop at the slot that it frees. -/
def freeFrom (con : Fin maxConnections) : ℕ → ℕ → ConnBits → Option ConnBits
  | 0, _, bits => some bits
  | rounds + 1, i, bits =>
    if h : i < maxConnections then
      freeFrom con rounds (i + 1) (if bits ⟨i, h⟩ = .used ∧ (⟨i, h⟩ : Fin maxConnections) = con
        then Function.update bits ⟨i, h⟩ .available else bits)
    else none

/-- `connect_db`: the object after `mysql_init` and `mysql_real_connect`. -/
def connectDb (ok : Bool) : MysqlCon := if ok then .connected else .failed

/-- What the section of `get_available_connection` leaves. -/
structure Taken where
  con : Option (Fin maxConnections)
  bits : ConnBits
  connections : Fin maxConnections → MysqlCon
  /-- The slot that `connect_db` was called for. -/
  attempted : Option (Fin maxConnections)

/-- The section of `get_available_connection`: first the slots that are free, then those
that have not been used; `ok` says whether a connection that is attempted is made. -/
def takeSlot (n : ℕ) (bits : ConnBits) (connections : Fin maxConnections → MysqlCon) (ok : Bool) :
    Option Taken :=
  match search bits .available n with
  | .found j => some ⟨some j, Function.update bits j .used, connections, none⟩
  | .outOfBounds => none
  | .absent => match search bits .init n with
    | .found j => some ⟨some j, Function.update bits j .used,
        Function.update connections j (connectDb ok), some j⟩
    | .outOfBounds => none
    | .absent => some ⟨none, bits, connections, none⟩

section Search

variable (bits : ConnBits) (c : DBConState)

theorem searchFrom_cases (rounds i : ℕ) (h : i + rounds ≤ maxConnections) :
    (∃ j, searchFrom bits c rounds i = .found j ∧ (j : ℕ) < i + rounds ∧ bits j = c) ∨
      searchFrom bits c rounds i = .absent ∧
        ∀ j : Fin maxConnections, i ≤ j → (j : ℕ) < i + rounds → bits j ≠ c := by
  induction rounds generalizing i with
  | zero => exact Or.inr ⟨rfl, fun j hj hlt => by omega⟩
  | succ rounds ih =>
    have hi : i < maxConnections := by omega
    by_cases hbit : bits ⟨i, hi⟩ = c
    · exact Or.inl ⟨⟨i, hi⟩, by rw [searchFrom, dif_pos hi, if_pos hbit],
        Nat.lt_add_of_pos_right rounds.succ_pos, hbit⟩
    · rw [searchFrom, dif_pos hi, if_neg hbit]
      rcases ih (i + 1) (by omega) with ⟨j, hfound, hlt, hj⟩ | ⟨habsent, hnone⟩
      · exact Or.inl ⟨j, hfound, by omega, hj⟩
      · refine Or.inr ⟨habsent, fun j hij hlt hj => ?_⟩
        rcases Nat.eq_or_lt_of_le hij with heq | hlt'
        · exact hbit (by rwa [show (⟨i, hi⟩ : Fin maxConnections) = j from Fin.ext heq])
        · exact hnone j hlt' (by omega) hj

/-- **A search that stays in the array** finds a slot in the state or there is none. -/
theorem search_cases {n : ℕ} (hn : n ≤ maxConnections) :
    (∃ j, search bits c n = .found j ∧ (j : ℕ) < n ∧ bits j = c) ∨
      search bits c n = .absent ∧ ∀ j : Fin maxConnections, (j : ℕ) < n → bits j ≠ c := by
  have h := searchFrom_cases bits c n 0 (by omega)
  simpa only [search, Nat.zero_add, Nat.zero_le, forall_const] using h

theorem freeFrom_eq {con : Fin maxConnections} (rounds i : ℕ) (h : i + rounds ≤ maxConnections)
    (bits : ConnBits) (hcon : bits con = .used ∨ (con : ℕ) < i) :
    freeFrom con rounds i bits = some
      (if i ≤ con ∧ (con : ℕ) < i + rounds then Function.update bits con .available else bits) := by
  induction rounds generalizing i bits with
  | zero => rw [freeFrom, if_neg (by omega)]
  | succ rounds ih =>
    have hi : i < maxConnections := by omega
    rw [freeFrom, dif_pos hi]
    by_cases hic : (⟨i, hi⟩ : Fin maxConnections) = con
    · subst hic
      have hused : bits ⟨i, hi⟩ = .used := hcon.resolve_right (Nat.lt_irrefl i)
      rw [if_pos ⟨hused, rfl⟩, ih (i + 1) (by omega) _ (Or.inr (Nat.lt_succ_self i)),
        if_neg (fun hle => by have := hle.1; change i + 1 ≤ i at this; omega),
        if_pos ⟨le_rfl, Nat.lt_add_of_pos_right rounds.succ_pos⟩]
    · have hne : i ≠ con := fun heq => hic (Fin.ext heq)
      rw [if_neg fun hand => hic hand.2, ih (i + 1) (by omega) bits
        (hcon.imp_right fun hlt => Nat.lt_succ_of_lt hlt)]
      exact congrArg some (if_congr (by omega) rfl rfl)

end Search

/-! ### The threads -/

/-- Where a thread is. -/
inductive ConnLoc
  /-- Outside. -/
  | idle
  /-- Before `sem_wait` in `get_available_connection`. -/
  | requesting
  /-- Past `sem_wait`, before the section that takes a connection. -/
  | passedSem
  /-- With what `get_available_connection` returned, which may be `NULL`. -/
  | holding (con : Option (Fin maxConnections))
  /-- Past the section that frees the slot, before `sem_post`. -/
  | freed
  /-- At an index outside the arrays. -/
  | crashed
  deriving DecidableEq, Repr

/-- The thread holds what `get_available_connection` returned. -/
def ConnLoc.isHolding : ConnLoc → Bool
  | .holding _ => true
  | _ => false

/-- A step of one thread. -/
inductive ConnStep
  | request
  | semWait
  /-- The section that takes a connection; one that has to be made is made or not. -/
  | take (ok : Bool)
  | release
  | post
  deriving DecidableEq, Repr

/-- What has happened: how often `connect_db` was called for each slot, and the greatest
number of connections held at the same time. -/
structure ConnHistory where
  connects : Fin maxConnections → ℕ
  peak : ℕ

/-- The pool and the threads that use it. -/
structure ConnState (ι : Type*) where
  mConnBits : ConnBits
  mConnections : Fin maxConnections → MysqlCon
  mSem : ℕ
  loc : ι → ConnLoc
  history : ConnHistory

section Threads

variable {ι : Type*} [Fintype ι] [DecidableEq ι] {n : ℕ}

namespace ConnState

/-- `init`: no slot has been used, and the semaphore holds the number of those that are
available. -/
def initConns (n : ℕ) (ι : Type*) : ConnState ι where
  mConnBits _ := .init
  mConnections _ := .untouched
  mSem := n
  loc _ := .idle
  history := ⟨fun _ => 0, 0⟩

omit [Fintype ι] in
/-- The state after one thread has moved. -/
def move (s : ConnState ι) (i : ι) (l : ConnLoc) : ConnState ι :=
  { s with loc := Function.update s.loc i l }

omit [DecidableEq ι] in
/-- The number of connections that are held. -/
def holders (s : ConnState ι) : ℕ := countIn (·.isHolding = true) s.loc

/-- The state after a thread has taken a connection. -/
def takes (s : ConnState ι) (i : ι) (t : Taken) : ConnState ι :=
  { s.move i (.holding t.con) with
    mConnBits := t.bits
    mConnections := t.connections
    history :=
      { connects := fun j => s.history.connects j + if t.attempted = some j then 1 else 0
        peak := max s.history.peak (s.move i (.holding t.con)).holders } }

/-- One step of one thread. -/
def step (n : ℕ) (s : ConnState ι) : ι × ConnStep → Option (ConnState ι)
  | (i, a) => match a, s.loc i with
    | .request, .idle => some (s.move i .requesting)
    | .semWait, .requesting =>
      if 0 < s.mSem then some { s.move i .passedSem with mSem := s.mSem - 1 } else none
    | .take ok, .passedSem => match takeSlot n s.mConnBits s.mConnections ok with
      | some t => some (s.takes i t)
      | none => some (s.move i .crashed)
    | .release, .holding (some con) => match freeFrom con n 0 s.mConnBits with
      | some bits => some { s.move i .freed with mConnBits := bits }
      | none => some (s.move i .crashed)
    | .post, .freed => some { s.move i .idle with mSem := s.mSem + 1 }
    | _, _ => none

end ConnState

/-- **The threads and the connections**, from the state that `init` builds with `n`
connections available. -/
def dbConns (n : ℕ) (ι : Type*) [Fintype ι] [DecidableEq ι] :
    TransSystem (ConnState ι) (ι × ConnStep) where
  Init s := s = ConnState.initConns n ι
  step := ConnState.step n

/-! ### What a step can do -/

/-- The steps of the pool, as long as the loops stay in the arrays and every connection
that is held belongs to a slot in use. -/
inductive ConnMove (n : ℕ) (s : ConnState ι) (i : ι) : ConnStep → ConnState ι → Prop
  | request (hi : s.loc i = .idle) : ConnMove n s i .request (s.move i .requesting)
  | semWait (hi : s.loc i = .requesting) (hsem : 0 < s.mSem) :
      ConnMove n s i .semWait { s.move i .passedSem with mSem := s.mSem - 1 }
  | takeFree {j : Fin maxConnections} {ok : Bool} (hi : s.loc i = .passedSem) (hjn : (j : ℕ) < n)
      (hj : s.mConnBits j = .available) :
      ConnMove n s i (.take ok)
        (s.takes i ⟨some j, Function.update s.mConnBits j .used, s.mConnections, none⟩)
  | takeNew {j : Fin maxConnections} {ok : Bool} (hi : s.loc i = .passedSem)
      (hfree : ∀ k : Fin maxConnections, (k : ℕ) < n → s.mConnBits k ≠ .available)
      (hjn : (j : ℕ) < n) (hj : s.mConnBits j = .init) :
      ConnMove n s i (.take ok) (s.takes i ⟨some j, Function.update s.mConnBits j .used,
        Function.update s.mConnections j (connectDb ok), some j⟩)
  | takeNull {ok : Bool} (hi : s.loc i = .passedSem)
      (hfree : ∀ k : Fin maxConnections, (k : ℕ) < n → s.mConnBits k ≠ .available)
      (hnew : ∀ k : Fin maxConnections, (k : ℕ) < n → s.mConnBits k ≠ .init) :
      ConnMove n s i (.take ok) (s.takes i ⟨none, s.mConnBits, s.mConnections, none⟩)
  | release {j : Fin maxConnections} (hi : s.loc i = .holding (some j)) :
      ConnMove n s i .release
        { s.move i .freed with mConnBits := Function.update s.mConnBits j .available }
  | post (hi : s.loc i = .freed) :
      ConnMove n s i .post { s.move i .idle with mSem := s.mSem + 1 }

omit [Fintype ι] in
theorem ConnState.loc_move_of_ne {s : ConnState ι} {i k : ι} {l : ConnLoc} (hk : k ≠ i) :
    (s.move i l).loc k = s.loc k :=
  Function.update_of_ne hk _ _

/-- A step of one thread moves no other. -/
theorem ConnState.loc_of_step {s s' : ConnState ι} {i k : ι} {a : ConnStep}
    (h : s.step n (i, a) = some s') (hk : k ≠ i) : s'.loc k = s.loc k := by
  simp only [step] at h
  repeat' split at h
  all_goals first | exact Option.some.inj h ▸ loc_move_of_ne hk | cases h

/-- **Inversion of a step.** -/
theorem ConnState.move_of_step {s s' : ConnState ι} {i : ι} {a : ConnStep}
    (hn : n ≤ maxConnections)
    (hheld : ∀ i j, s.loc i = .holding (some j) → s.mConnBits j = .used ∧ (j : ℕ) < n)
    (h : s.step n (i, a) = some s') : ConnMove n s i a s' := by
  simp only [step] at h
  split at h
  · next hi => exact Option.some.inj h ▸ .request hi
  · next hi =>
    split at h
    · next hsem => exact Option.some.inj h ▸ .semWait hi hsem
    · cases h
  · next ok hi =>
    rw [takeSlot] at h
    rcases search_cases s.mConnBits .available hn with ⟨j, hfound, hjn, hj⟩ | ⟨habsent, hfree⟩
    · rw [hfound] at h
      exact Option.some.inj h ▸ .takeFree hi hjn hj
    · rw [habsent] at h
      rcases search_cases s.mConnBits .init hn with ⟨j, hfound, hjn, hj⟩ | ⟨habsent', hnew⟩
      · rw [hfound] at h
        exact Option.some.inj h ▸ .takeNew hi hfree hjn hj
      · rw [habsent'] at h
        exact Option.some.inj h ▸ .takeNull hi hfree hnew
  · next j hi =>
    obtain ⟨hused, hjn⟩ := hheld i j hi
    rw [freeFrom_eq n 0 (by omega) _ (Or.inl hused), if_pos ⟨Nat.zero_le _, by omega⟩] at h
    exact Option.some.inj h ▸ .release hi
  · next hi => exact Option.some.inj h ▸ .post hi
  · cases h

end Threads

end NpuOj
