import Mathlib.Logic.Relation
import Mathlib.Tactic.Common

/-!
# One thread, its lock and all the others

The code of one thread, as a tree: it takes a lock, tries for it or gives it back, acts on data
that are shared, and goes on by what it has found. In between, at any point, the other threads
take the lock and give it back, and change the data as a relation allows.

An *operation* is a piece of code that is entered and left; operations may call each other. The
tree has two marks for that, so that it can be asked of each operation, also of one that is
called by another, whether it leaves the lock as it found it. `LockCode.Bad` says what must not
happen: a thread waits for the lock that it has, gives back a lock that it has not, or leaves an
operation with the lock but entered it without, or the other way round. `LockCode.Safe` is that it
never happens, whatever the others do.

Code is shown to be safe by a weakest precondition, `LockCode.Keeps`, which is compositional
(`LockCode.keeps_bind`) and sound (`LockCode.Keeps.safe`), and to be unsafe by a run that goes
wrong, of the code or of a part of it (`LockCode.CanFail.bind`).
-/

/-- The code of a thread, with data `D`, answers of the world `R` and a result in `ρ`. -/
inductive LockCode (D R ρ : Type*)
  | ret (r : ρ)
  /-- The program has come to its end. -/
  | halt
  | lock (k : LockCode D R ρ)
  | unlock (k : LockCode D R ρ)
  /-- Take the lock if nobody has it, and go on by whether it was taken. -/
  | tryLock (k : Bool → LockCode D R ρ)
  /-- Act on the data, and go on by what they were before and by an answer. -/
  | act (f : D → R → D) (k : D → R → LockCode D R ρ)
  | enter (k : LockCode D R ρ)
  | leave (k : LockCode D R ρ)

namespace LockCode

variable {D R ρ ρ' : Type*}

/-- One piece of code after the other. -/
def bind : LockCode D R ρ → (ρ → LockCode D R ρ') → LockCode D R ρ'
  | ret r, g => g r
  | halt, _ => halt
  | lock k, g => lock (k.bind g)
  | unlock k, g => unlock (k.bind g)
  | tryLock k, g => tryLock fun gained => (k gained).bind g
  | act f k, g => act f fun d r => (k d r).bind g
  | enter k, g => enter (k.bind g)
  | leave k, g => leave (k.bind g)

/-- Read the data and an answer. -/
def ask (k : D → R → LockCode D R ρ) : LockCode D R ρ := act (fun d _ => d) k

/-- An operation. -/
def op (c : LockCode D R ρ) : LockCode D R ρ := enter (c.bind fun r => leave (ret r))

/-- Code whose result is not used. -/
def void (c : LockCode D R ρ) : LockCode D R Unit := c.bind fun _ => ret ()

/-! ### Running -/

/-- Who has the lock. -/
inductive Holder
  | nobody
  | me
  | other
  deriving DecidableEq, Repr

/-- A thread that runs, among others: who has the lock, the data, for each operation that it is
in whether it had the lock when it entered, the innermost first, and what it is to run. -/
structure Config (D R ρ : Type*) where
  holder : Holder
  data : D
  entered : List Bool
  code : LockCode D R ρ

/-- A step of the thread, or of the others. -/
inductive Step (rely : D → D → Prop) : Config D R ρ → Config D R ρ → Prop
  | lock {d es k} : Step rely ⟨.nobody, d, es, .lock k⟩ ⟨.me, d, es, k⟩
  | unlock {d es k} : Step rely ⟨.me, d, es, .unlock k⟩ ⟨.nobody, d, es, k⟩
  | gain {d es k} : Step rely ⟨.nobody, d, es, .tryLock k⟩ ⟨.me, d, es, k true⟩
  | miss {o d es k} (h : o ≠ .nobody) : Step rely ⟨o, d, es, .tryLock k⟩ ⟨o, d, es, k false⟩
  | act {o d es f k} (r : R) : Step rely ⟨o, d, es, .act f k⟩ ⟨o, f d r, es, k d r⟩
  | enter {o d es k} : Step rely ⟨o, d, es, .enter k⟩ ⟨o, d, decide (o = .me) :: es, k⟩
  | leave {o d b es k} (h : b = decide (o = .me)) :
    Step rely ⟨o, d, b :: es, .leave k⟩ ⟨o, d, es, k⟩
  | envData {o d d' es c} (h : rely d d') : Step rely ⟨o, d, es, c⟩ ⟨o, d', es, c⟩
  | envLock {d es c} : Step rely ⟨.nobody, d, es, c⟩ ⟨.other, d, es, c⟩
  | envUnlock {d es c} : Step rely ⟨.other, d, es, c⟩ ⟨.nobody, d, es, c⟩

/-- **What must not happen.** -/
def Bad (s : Config D R ρ) : Prop :=
  match s.code with
  /- The thread would wait for itself. -/
  | .lock _ => s.holder = .me
  | .unlock _ => s.holder ≠ .me
  | .leave _ => s.entered.head? ≠ some (decide (s.holder = .me))
  | _ => False

/-- The steps of a thread among the others. -/
abbrev Steps (rely : D → D → Prop) : Config D R ρ → Config D R ρ → Prop :=
  Relation.ReflTransGen (Step rely)

/-- **Nothing bad happens**, whatever the others do. -/
def Safe (rely : D → D → Prop) (s : Config D R ρ) : Prop := ∀ s', Steps rely s s' → ¬Bad s'

/-- Something bad can happen. -/
def CanFail (rely : D → D → Prop) (s : Config D R ρ) : Prop := ∃ s', Steps rely s s' ∧ Bad s'

/-- **An operation leaves the lock as its thread finds it**, in any run from the given data, and
so does every operation that it calls. -/
def LeavesLock (rely : D → D → Prop) (held : Bool) (d : D) (c : LockCode D R ρ) : Prop :=
  ∀ o : Holder, decide (o = .me) = held → Safe rely ⟨o, d, [], c⟩

/-! ### The weakest precondition -/

/-- **Code keeps to the lock**, where the data have a property at all times: from a thread that
has the lock or has not, and is in operations that it entered with it or without, to the same
and a result. -/
def Keeps (I : D → Prop) (post : Bool → List Bool → ρ → Prop) :
    Bool → List Bool → LockCode D R ρ → Prop
  | held, es, ret r => post held es r
  | _, _, halt => True
  | held, es, lock k => held = false ∧ Keeps I post true es k
  | held, es, unlock k => held = true ∧ Keeps I post false es k
  | held, es, tryLock k => (held = false → Keeps I post true es (k true)) ∧
      Keeps I post held es (k false)
  | held, es, act f k => ∀ d r, I d → I (f d r) ∧ Keeps I post held es (k d r)
  | held, es, enter k => Keeps I post held (held :: es) k
  | held, es, leave k => ∃ es', es = held :: es' ∧ Keeps I post held es' k

section Keeps

variable {I : D → Prop} {rely : D → D → Prop} {post post' : Bool → List Bool → ρ → Prop}
  {held : Bool} {es : List Bool} {c : LockCode D R ρ} {s s' : Config D R ρ}

theorem keeps_bind {g : ρ → LockCode D R ρ'} {post : Bool → List Bool → ρ' → Prop} :
    Keeps I post held es (c.bind g) ↔
      Keeps I (fun held' es' r => Keeps I post held' es' (g r)) held es c := by
  induction c generalizing held es with
  | ret r => rfl
  | halt => rfl
  | lock k ih => exact and_congr_right fun _ => ih
  | unlock k ih => exact and_congr_right fun _ => ih
  | tryLock k ih => exact and_congr (imp_congr_right fun _ => ih true) (ih false)
  | act f k ih =>
    exact forall_congr' fun d => forall_congr' fun r => imp_congr_right fun _ =>
      and_congr_right fun _ => ih d r
  | enter k ih => exact ih
  | leave k ih => exact exists_congr fun _ => and_congr_right fun _ => ih

theorem Keeps.mono (h : Keeps I post held es c)
    (hpost : ∀ held' es' r, post held' es' r → post' held' es' r) : Keeps I post' held es c := by
  induction c generalizing held es with
  | ret r => exact hpost _ _ _ h
  | halt => trivial
  | lock k ih => exact ⟨h.1, ih h.2⟩
  | unlock k ih => exact ⟨h.1, ih h.2⟩
  | tryLock k ih => exact ⟨fun hfree => ih true (h.1 hfree), ih false h.2⟩
  | act f k ih => exact fun d r hd => ⟨(h d r hd).1, ih d r (h d r hd).2⟩
  | enter k ih => exact ih h
  | leave k ih =>
    obtain ⟨es', hes, hk⟩ := h
    exact ⟨es', hes, ih hk⟩

/-- What holds of a thread that keeps to the lock, at all times. -/
def KeepsInv (I : D → Prop) (post : Bool → List Bool → ρ → Prop) (s : Config D R ρ) : Prop :=
  I s.data ∧ Keeps I post (decide (s.holder = .me)) s.entered s.code

/-- **Step lemma**: the invariant is kept, by the thread and by the others. -/
theorem KeepsInv.step (hrely : ∀ d d', I d → rely d d' → I d') (hinv : KeepsInv I post s)
    (h : Step rely s s') : KeepsInv I post s' := by
  obtain ⟨hdata, hkeeps⟩ := hinv
  cases h with
  | lock => exact ⟨hdata, hkeeps.2⟩
  | unlock => exact ⟨hdata, hkeeps.2⟩
  | gain => exact ⟨hdata, hkeeps.1 rfl⟩
  | miss hne => exact ⟨hdata, hkeeps.2⟩
  | act r => exact hkeeps _ r hdata
  | enter => exact ⟨hdata, hkeeps⟩
  | leave heq =>
    obtain ⟨es', hes, hk⟩ := hkeeps
    obtain ⟨-, rfl⟩ := List.cons.inj hes
    exact ⟨hdata, hk⟩
  | envData hd => exact ⟨hrely _ _ hdata hd, hkeeps⟩
  | envLock => exact ⟨hdata, hkeeps⟩
  | envUnlock => exact ⟨hdata, hkeeps⟩

theorem KeepsInv.not_bad (hinv : KeepsInv I post s) : ¬Bad s := by
  obtain ⟨o, d, es, c⟩ := s
  obtain ⟨-, hkeeps⟩ := hinv
  intro hbad
  cases c with
  | lock k => exact of_decide_eq_false hkeeps.1 hbad
  | unlock k => exact hbad (of_decide_eq_true hkeeps.1)
  | leave k =>
    obtain ⟨es', hes, -⟩ := hkeeps
    exact hbad (congrArg List.head? hes)
  | _ => exact hbad

/-- **Soundness**: code that keeps to the lock is safe. -/
theorem Keeps.safe {o : Holder} {d : D} (hrely : ∀ d d', I d → rely d d' → I d') (hd : I d)
    (h : Keeps I post (decide (o = .me)) es c) : Safe rely ⟨o, d, es, c⟩ := by
  intro s' hsteps
  have hinv : KeepsInv I post s' := by
    induction hsteps with
    | refl => exact ⟨hd, h⟩
    | tail _ hstep ih => exact ih.step hrely hstep
  exact hinv.not_bad

end Keeps

/-! ### From one state of the lock to another -/

/-- **Code leads from one state of the lock to another**: it is run with the lock or without, and
comes to its end with it or without, in the operations it was started in. -/
def Leads (I : D → Prop) (held held' : Bool) (c : LockCode D R ρ) : Prop :=
  ∀ es (post : Bool → List Bool → ρ → Prop), (∀ r, post held' es r) → Keeps I post held es c

namespace Leads

variable {I : D → Prop} {held held' held'' : Bool}

theorem ret (r : ρ) : Leads I held held (.ret r : LockCode D R ρ) := fun _ _ hpost => hpost r

theorem halt : Leads I held held' (.halt : LockCode D R ρ) := fun _ _ _ => trivial

theorem bind {c : LockCode D R ρ} {g : ρ → LockCode D R ρ'} (h : Leads I held held' c)
    (hg : ∀ r, Leads I held' held'' (g r)) : Leads I held held'' (c.bind g) :=
  fun es post hpost => keeps_bind.mpr (h es _ fun r => hg r es post hpost)

theorem lock {k : LockCode D R ρ} (h : Leads I true held' k) : Leads I false held' (.lock k) :=
  fun es post hpost => ⟨rfl, h es post hpost⟩

theorem unlock {k : LockCode D R ρ} (h : Leads I false held' k) : Leads I true held' (.unlock k) :=
  fun es post hpost => ⟨rfl, h es post hpost⟩

theorem tryLock {k : Bool → LockCode D R ρ} (h : held = false → Leads I true held' (k true))
    (h' : Leads I held held' (k false)) : Leads I held held' (.tryLock k) :=
  fun es post hpost => ⟨fun hfree => h hfree es post hpost, h' es post hpost⟩

theorem act {f : D → R → D} {k : D → R → LockCode D R ρ} (hf : ∀ d r, I d → I (f d r))
    (h : ∀ d r, I d → Leads I held held' (k d r)) : Leads I held held' (.act f k) :=
  fun es post hpost d r hd => ⟨hf d r hd, h d r hd es post hpost⟩

theorem ask {k : D → R → LockCode D R ρ} (h : ∀ d r, I d → Leads I held held' (k d r)) :
    Leads I held held' (.ask k) :=
  act (fun _ _ hd => hd) h

/-- An operation leaves the lock as it finds it. -/
theorem op {c : LockCode D R ρ} (h : Leads I held held c) : Leads I held held (.op c) :=
  fun es _ hpost => keeps_bind.mpr (h (held :: es) _ fun r => ⟨es, rfl, hpost r⟩)

/-- Code that comes back to the state of the lock leaves it, in any run. -/
theorem leavesLock {rely : D → D → Prop} {c : LockCode D R ρ} {d : D}
    (h : Leads I held held c) (hrely : ∀ d d', I d → rely d d' → I d') (hd : I d) :
    LeavesLock rely held d c := by
  rintro o rfl
  exact (h [] (fun _ _ _ => True) fun _ => trivial).safe hrely hd

end Leads

/-! ### Code that can fail -/

section CanFail

variable {rely : D → D → Prop} {s s' : Config D R ρ}

theorem CanFail.head (h : Step rely s s') (hfail : CanFail rely s') : CanFail rely s := by
  obtain ⟨t, hsteps, hbad⟩ := hfail
  exact ⟨t, Relation.ReflTransGen.head h hsteps, hbad⟩

theorem Bad.canFail (h : Bad s) : CanFail rely s := ⟨s, Relation.ReflTransGen.refl, h⟩

theorem CanFail.not_safe (h : CanFail rely s) : ¬Safe rely s := by
  obtain ⟨t, hsteps, hbad⟩ := h
  exact fun hsafe => hsafe t hsteps hbad

/-- A configuration with more code to come. -/
def Config.bind (s : Config D R ρ) (g : ρ → LockCode D R ρ') : Config D R ρ' :=
  ⟨s.holder, s.data, s.entered, s.code.bind g⟩

theorem Step.bind (g : ρ → LockCode D R ρ') (h : Step rely s s') :
    Step rely (s.bind g) (s'.bind g) := by
  cases h with
  | lock => exact .lock
  | unlock => exact .unlock
  | gain => exact .gain
  | miss hne => exact .miss hne
  | act r => exact .act r
  | enter => exact .enter
  | leave heq => exact .leave heq
  | envData hd => exact .envData hd
  | envLock => exact .envLock
  | envUnlock => exact .envUnlock

theorem Bad.bind (g : ρ → LockCode D R ρ') (h : Bad s) : Bad (s.bind g) := by
  obtain ⟨o, d, es, c⟩ := s
  cases c with
  | lock k => exact h
  | unlock k => exact h
  | leave k => exact h
  | _ => exact h.elim

/-- **What goes wrong in a part goes wrong in the whole.** -/
theorem CanFail.bind (g : ρ → LockCode D R ρ') (h : CanFail rely s) : CanFail rely (s.bind g) := by
  obtain ⟨t, hsteps, hbad⟩ := h
  exact ⟨t.bind g, hsteps.lift (·.bind g) fun _ _ => Step.bind g, hbad.bind g⟩

end CanFail

end LockCode
