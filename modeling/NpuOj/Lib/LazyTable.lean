import Mathlib.Algebra.Order.Group.Nat
import Mathlib.Data.Finset.Lattice.Fold
import Mathlib.Data.Fintype.Basic
import Mathlib.Data.List.Nodup
import Mathlib.Logic.Function.Basic
import NpuOj.Lib.Fairness

/-!
# A table that the first caller builds

A table that is needed again and again is built once, by whoever needs it first: there is a
pointer that is null at the beginning; a caller that finds it null sets it to a new block, clears
the block and writes the entries one after the other; and every caller, in the end, copies the
block. With one thread this is as good as building the table each time.

Several threads that call at the same time disturb each other, and without a lock they do so in
every way there is: a block is copied before it is complete, a second caller replaces the block
while the first one writes to it, one caller clears what the other has written. What remains is
that the disturbance passes. `LazyTable.complete_of_quiet`: once nobody clears or writes, the block
is complete, whatever has happened before. `LazyTable.copied_of_settled`: if nobody is about
to replace it either, the block stays as it is, and all later copies are copies of it. And
`LazyTable.settles`: under a fair scheduler this moment comes.

The reason is that of any number of callers that clear the block, each writes *all* the entries
afterwards, and always to the block that the pointer shows; and that what they write is the same.
-/

/-- What is to be in the table: the entries that are written, one after the other, and the part
of the block that is cleared before. -/
structure LazyTable (ι κ α : Type) where
  /-- The name of a place of the block. -/
  key : ι → κ
  /-- The entries, with the names of their places. -/
  writes : List (κ × α)
  nodup : (writes.map Prod.fst).Nodup
  /-- The places that are cleared. -/
  cleared : ι → Bool
  /-- What they are cleared to. -/
  zero : α

/-- Where a caller is. -/
inductive LazyPlace (κ α : Type)
  /-- It is not in a call. -/
  | outside
  /-- It is about to compare the pointer with null. -/
  | testing
  /-- It has found null, and is about to set the pointer to a new block. -/
  | allocating
  /-- It is about to clear the block. -/
  | clearing
  /-- It writes the entries that are left. -/
  | writing (rest : List (κ × α))
  /-- It is about to copy the block. -/
  | copying

/-- The block that the pointer shows, if it is not null; the callers; and the copies that have been
made. A block that is replaced is lost. -/
structure LazyState (ι κ α : Type) (n : ℕ) where
  block : Option (ι → α)
  place : Fin n → LazyPlace κ α
  copied : List (ι → α)

/-- The statements of a caller. A new block has the contents that it happens to have. -/
inductive LazyStep (ι α : Type) (n : ℕ)
  | call (w : Fin n)
  | test (w : Fin n)
  | alloc (w : Fin n) (heap : ι → α)
  | clear (w : Fin n)
  | write (w : Fin n)
  | copy (w : Fin n)

/-- The steps that are owed to a caller that is in a call. -/
def LazyStep.OwedTo {ι α : Type} {n : ℕ} (w : Fin n) : LazyStep ι α n → Prop
  | call _ => False
  | test v | alloc v _ | clear v | write v | copy v => v = w

namespace LazyPlace

variable {κ α : Type}

/-- The caller clears the block, or writes to it. -/
def Fills : LazyPlace κ α → Prop
  | clearing | writing _ => True
  | _ => False

/-- The caller is between its comparison with null and its last entry. -/
def Builds : LazyPlace κ α → Prop
  | allocating | clearing | writing _ => True
  | _ => False

/-- How many statements the building has left. -/
def left (length : ℕ) : LazyPlace κ α → ℕ
  | testing => length + 4
  | allocating => length + 3
  | clearing => length + 2
  | writing rest => rest.length + 1
  | outside | copying => 0

end LazyPlace

namespace LazyTable

variable {ι κ α : Type} [DecidableEq κ] {n : ℕ} (T : LazyTable ι κ α)

/-- The block with one more entry. -/
def put (b : ι → α) (x : κ × α) : ι → α := fun i => if T.key i = x.1 then x.2 else b i

/-- The block with its part cleared. -/
def wipe (b : ι → α) : ι → α := fun i => if T.cleared i then T.zero else b i

/-- One statement of one caller. -/
def step (s : LazyState ι κ α n) : LazyStep ι α n → Option (LazyState ι κ α n)
  | .call w => match s.place w with
    | .outside => some { s with place := Function.update s.place w .testing }
    | _ => none
  | .test w => match s.place w with
    | .testing => some
        { s with place := Function.update s.place w
                  (if s.block.isNone then .allocating else .copying) }
    | _ => none
  | .alloc w heap => match s.place w with
    | .allocating => some
        { s with block := some heap, place := Function.update s.place w .clearing }
    | _ => none
  | .clear w => match s.place w with
    | .clearing => some
        { s with block := s.block.map T.wipe
                 place := Function.update s.place w (.writing T.writes) }
    | _ => none
  | .write w => match s.place w with
    | .writing (x :: rest) => some
        { s with block := s.block.map (T.put · x)
                 place := Function.update s.place w (.writing rest) }
    | .writing [] => some { s with place := Function.update s.place w .copying }
    | _ => none
  | .copy w => match s.place w, s.block with
    | .copying, some b => some
        { s with place := Function.update s.place w .outside, copied := s.copied ++ [b] }
    | _, _ => none

/-- **The callers, one statement at a time.** -/
def callers (n : ℕ) : TransSystem (LazyState ι κ α n) (LazyStep ι α n) where
  Init s := s.block = none ∧ (∀ w, s.place w = .outside) ∧ s.copied = []
  step := T.step

/-- **A complete block**: every entry is there, and the part that is to be cleared is clear
elsewhere. -/
structure Complete (b : ι → α) : Prop where
  entry : ∀ i v, (T.key i, v) ∈ T.writes → b i = v
  clear : ∀ i, T.key i ∉ T.writes.map Prod.fst → T.cleared i = true → b i = T.zero

/-- The block has been built, and nobody builds. -/
structure Settled (s : LazyState ι κ α n) : Prop where
  built : s.block ≠ none
  quiet : ∀ w, ¬(s.place w).Builds

variable {T} {s s' : LazyState ι κ α n} {a : LazyStep ι α n} {b : ι → α}

/-! ### A call that nobody disturbs -/

variable (T) in
/-- The block that a caller builds, if it is alone. -/
def build (heap : ι → α) : ι → α := T.writes.foldl T.put (T.wipe heap)

variable (T) in
/-- The statements of a call. -/
def statements (w : Fin n) (block : Option (ι → α)) (heap : ι → α) : List (LazyStep ι α n) :=
  match block with
  | some _ => [.call w, .test w, .copy w]
  | none => [.call w, .test w, .alloc w heap, .clear w] ++
      List.replicate (T.writes.length + 1) (.write w) ++ [.copy w]

/-- The entries that are left are written, and the block is copied. -/
theorem run_writing {w : Fin n} {rest : List (κ × α)} (hw : s.place w = .writing rest)
    (hb : s.block = some b) :
    (T.callers n).run s (List.replicate (rest.length + 1) (.write w) ++ [.copy w])
      = some { block := some (rest.foldl T.put b)
               place := Function.update s.place w .outside
               copied := s.copied ++ [rest.foldl T.put b] } := by
  induction rest generalizing s b with
  | nil => simp [callers, step, hw, hb]
  | cons x rest ih =>
    have hstep : (T.callers n).step s (.write w) = some { s with
        block := some (T.put b x)
        place := Function.update s.place w (.writing rest) } := by
      simp [callers, step, hw, hb]
    rw [List.length_cons, List.replicate_succ, List.cons_append, TransSystem.run_cons, hstep,
      Option.bind_some, ih (Function.update_self w _ _) rfl]
    simp

/-- **A call without disturbance** builds the block if there is none, and copies it. -/
theorem run_statements {w : Fin n} (hw : s.place w = .outside) (heap : ι → α) :
    (T.callers n).run s (T.statements w s.block heap)
      = some { block := some (s.block.getD (T.build heap))
               place := Function.update s.place w .outside
               copied := s.copied ++ [s.block.getD (T.build heap)] } := by
  cases hb : s.block with
  | some b => simp [statements, callers, step, hw, hb]
  | none =>
    have hwriting := run_writing (T := T) (b := T.wipe heap)
      (s := ⟨some (T.wipe heap), Function.update s.place w (.writing T.writes), s.copied⟩)
      (Function.update_self w _ _) rfl
    simp only [Function.update_idem] at hwriting
    have hstart : ∀ as, (T.callers n).run s
        (.call w :: .test w :: .alloc w heap :: .clear w :: as) = (T.callers n).run
          ⟨some (T.wipe heap), Function.update s.place w (.writing T.writes), s.copied⟩ as := by
      intro as
      simp [callers, step, hw, hb]
    rw [statements, List.append_assoc]
    exact (hstart _).trans hwriting

/-! ### The block while it is built -/

/-- The caller will still write the entry. -/
def WillWrite (k : κ) : LazyPlace κ α → Prop
  | .clearing => True
  | .writing rest => k ∈ rest.map Prod.fst
  | _ => False

variable (T) in
/-- **The invariant**: what is not in the block yet, or not any more, is still to be written by
somebody. -/
structure LazyInv (s : LazyState ι κ α n) : Prop where
  entry : ∀ b, s.block = some b → ∀ i v, (T.key i, v) ∈ T.writes →
    b i = v ∨ ∃ w, WillWrite (T.key i) (s.place w)
  clear : ∀ b, s.block = some b → ∀ i, T.key i ∉ T.writes.map Prod.fst → T.cleared i = true →
    b i = T.zero ∨ ∃ w, s.place w = .clearing
  /-- What a caller has left to write is the end of the list. -/
  rest : ∀ w rest, s.place w = .writing rest → rest <:+ T.writes
  /-- Whoever has passed the comparison has a block, or is about to make one. -/
  built : ∀ w, (s.place w).Fills ∨ s.place w = .copying → s.block ≠ none

/-- What can have happened in a step. -/
inductive LazyMove (T : LazyTable ι κ α) (s : LazyState ι κ α n) :
    LazyStep ι α n → LazyState ι κ α n → Prop
  | call {w : Fin n} (hw : s.place w = .outside) : LazyMove T s (.call w)
      { s with place := Function.update s.place w .testing }
  | null {w : Fin n} (hw : s.place w = .testing) (hb : s.block = none) : LazyMove T s (.test w)
      { s with place := Function.update s.place w .allocating }
  | found {w : Fin n} (hw : s.place w = .testing) (hb : s.block ≠ none) : LazyMove T s (.test w)
      { s with place := Function.update s.place w .copying }
  | alloc {w : Fin n} {heap : ι → α} (hw : s.place w = .allocating) : LazyMove T s (.alloc w heap)
      { s with block := some heap, place := Function.update s.place w .clearing }
  | clear {w : Fin n} (hw : s.place w = .clearing) : LazyMove T s (.clear w)
      { s with block := s.block.map T.wipe
               place := Function.update s.place w (.writing T.writes) }
  | write {w : Fin n} {x : κ × α} {rest : List (κ × α)} (hw : s.place w = .writing (x :: rest)) :
      LazyMove T s (.write w)
        { s with block := s.block.map (T.put · x)
                 place := Function.update s.place w (.writing rest) }
  | written {w : Fin n} (hw : s.place w = .writing []) : LazyMove T s (.write w)
      { s with place := Function.update s.place w .copying }
  | copy {w : Fin n} {b : ι → α} (hw : s.place w = .copying) (hb : s.block = some b) :
      LazyMove T s (.copy w)
        { s with place := Function.update s.place w .outside, copied := s.copied ++ [b] }

theorem lazyMove_of_step (h : T.step s a = some s') : LazyMove T s a s' := by
  cases a with
  | call w =>
    simp only [step] at h
    split at h
    · next hw =>
      obtain rfl := Option.some.inj h
      exact .call hw
    · cases h
  | test w =>
    simp only [step] at h
    split at h
    · next hw =>
      obtain rfl := Option.some.inj h
      by_cases hb : s.block.isNone
      · rw [if_pos hb]
        exact .null hw (Option.isNone_iff_eq_none.mp hb)
      · rw [if_neg hb]
        exact .found hw (mt Option.isNone_iff_eq_none.mpr hb)
    · cases h
  | alloc w heap =>
    simp only [step] at h
    split at h
    · next hw =>
      obtain rfl := Option.some.inj h
      exact .alloc hw
    · cases h
  | clear w =>
    simp only [step] at h
    split at h
    · next hw =>
      obtain rfl := Option.some.inj h
      exact .clear hw
    · cases h
  | write w =>
    simp only [step] at h
    split at h
    · next hw =>
      obtain rfl := Option.some.inj h
      exact .write hw
    · next hw =>
      obtain rfl := Option.some.inj h
      exact .written hw
    · cases h
  | copy w =>
    simp only [step] at h
    split at h
    · next hw hb =>
      obtain rfl := Option.some.inj h
      exact .copy hw hb
    · cases h

/-! ### Every step keeps the invariant -/

omit [DecidableEq κ] in
/-- Another caller is where it was. -/
theorem exists_place_update {P : LazyPlace κ α → Prop} {w : Fin n} {p : LazyPlace κ α}
    (h : ∃ v, P (s.place v)) (hw : P (s.place w) → P p) :
    ∃ v, P (Function.update s.place w p v) := by
  obtain ⟨v, hv⟩ := h
  refine ⟨v, ?_⟩
  rcases eq_or_ne v w with rfl | hne
  · rw [Function.update_self]
    exact hw hv
  · rwa [Function.update_of_ne hne]

omit [DecidableEq κ] in
theorem exists_place_self {P : LazyPlace κ α → Prop} {w : Fin n} {p : LazyPlace κ α} (hp : P p) :
    ∃ v, P (Function.update s.place w p v) :=
  ⟨w, by rwa [Function.update_self]⟩

omit [DecidableEq κ] in
/-- What holds of all places is checked at the one that has changed. -/
theorem forall_place_update {P : LazyPlace κ α → Prop} {w : Fin n} {p : LazyPlace κ α}
    (h : ∀ v, P (s.place v)) (hp : P p) (v : Fin n) : P (Function.update s.place w p v) := by
  rcases eq_or_ne v w with rfl | hne
  · rwa [Function.update_self]
  · rw [Function.update_of_ne hne]
    exact h v

omit [DecidableEq κ] in
/-- A caller that neither fills the block nor begins to moves on. -/
theorem LazyInv.move {w : Fin n} {p : LazyPlace κ α} {copied : List (ι → α)} (hinv : T.LazyInv s)
    (hw : ∀ k, ¬WillWrite k (s.place w)) (hp : ¬p.Fills) (hb : p = .copying → s.block ≠ none) :
    T.LazyInv { s with place := Function.update s.place w p, copied } where
  entry b hblock i v hmem := (hinv.entry b hblock i v hmem).imp_right fun h =>
    exists_place_update h fun h => absurd h (hw _)
  clear b hblock i hnot hclear := (hinv.clear b hblock i hnot hclear).imp_right fun h =>
    exists_place_update (P := (· = .clearing)) h fun h => absurd (h ▸ trivial) (hw (T.key i))
  rest := forall_place_update (P := fun p => ∀ rest, p = .writing rest → rest <:+ T.writes)
    hinv.rest fun _ h => absurd (h ▸ trivial) hp
  built := forall_place_update (P := fun p => p.Fills ∨ p = .copying → s.block ≠ none) hinv.built
    fun h => h.elim (fun h => absurd h hp) hb

omit [DecidableEq κ] in
theorem LazyInv.alloc {w : Fin n} (hinv : T.LazyInv s) (heap : ι → α) :
    T.LazyInv { s with block := some heap, place := Function.update s.place w .clearing } where
  entry _ _ i _ _ := Or.inr (exists_place_self (P := WillWrite (T.key i)) trivial)
  clear _ _ _ _ _ := Or.inr (exists_place_self (P := (· = .clearing)) rfl)
  rest := forall_place_update (P := fun p => ∀ rest, p = .writing rest → rest <:+ T.writes)
    hinv.rest nofun
  built _ _ := by simp

omit [DecidableEq κ] in
theorem LazyInv.wipe {w : Fin n} (hinv : T.LazyInv s) (hw : s.place w = .clearing) :
    T.LazyInv { s with block := s.block.map T.wipe
                       place := Function.update s.place w (.writing T.writes) } where
  entry _ _ i _ hmem := Or.inr
    (exists_place_self (P := WillWrite (T.key i)) (List.mem_map_of_mem (f := Prod.fst) hmem))
  clear b hblock i _ hclear := by
    obtain ⟨b, -, rfl⟩ := Option.map_eq_some_iff.mp hblock
    exact Or.inl (if_pos hclear)
  rest := forall_place_update (P := fun p => ∀ rest, p = .writing rest → rest <:+ T.writes)
    hinv.rest fun rest h => by
      obtain rfl := LazyPlace.writing.inj h
      exact List.suffix_rfl
  built := forall_place_update (P := fun p => p.Fills ∨ p = .copying → s.block.map T.wipe ≠ none)
    (fun v hv => by simpa using hinv.built v hv)
    fun _ => by simpa using hinv.built w (Or.inl (hw ▸ trivial))

/-- **The step that writes an entry.** All callers write the same there, and no entry is written
where the block is to be clear. -/
theorem LazyInv.put {w : Fin n} {x : κ × α} {rest : List (κ × α)} (hinv : T.LazyInv s)
    (hw : s.place w = .writing (x :: rest)) :
    T.LazyInv { s with block := s.block.map (T.put · x)
                       place := Function.update s.place w (.writing rest) } where
  entry b hblock i v hmem := by
    obtain ⟨b, hb, rfl⟩ := Option.map_eq_some_iff.mp hblock
    have hx : x ∈ T.writes := (hinv.rest w _ hw).subset List.mem_cons_self
    by_cases hkey : T.key i = x.1
    · have hval : (T.key i, v) = x := List.inj_on_of_nodup_map T.nodup hmem hx hkey
      refine Or.inl ?_
      rw [LazyTable.put, if_pos hkey, ← hval]
    · rw [LazyTable.put, if_neg hkey]
      refine (hinv.entry b hb i v hmem).imp_right fun h => exists_place_update h fun hwill => ?_
      rw [hw] at hwill
      exact (List.mem_cons.mp hwill).resolve_left hkey
  clear b hblock i hnot hclear := by
    obtain ⟨b, hb, rfl⟩ := Option.map_eq_some_iff.mp hblock
    have hx : x.1 ∈ T.writes.map Prod.fst :=
      List.mem_map_of_mem ((hinv.rest w _ hw).subset List.mem_cons_self)
    rw [LazyTable.put, if_neg fun hkey => hnot (by rwa [hkey])]
    refine (hinv.clear b hb i hnot hclear).imp_right fun h =>
      exists_place_update (P := (· = .clearing)) h fun hat => ?_
    rw [hw] at hat
    cases hat
  rest := forall_place_update (P := fun p => ∀ rest, p = .writing rest → rest <:+ T.writes)
    hinv.rest fun rest' h => by
      obtain rfl := LazyPlace.writing.inj h
      exact (List.suffix_cons x rest).trans (hinv.rest w _ hw)
  built := forall_place_update
    (P := fun p => p.Fills ∨ p = .copying → s.block.map (T.put · x) ≠ none)
    (fun v hv => by simpa using hinv.built v hv)
    fun _ => by simpa using hinv.built w (Or.inl (hw ▸ trivial))

theorem LazyInv.step (hinv : T.LazyInv s) (h : T.step s a = some s') : T.LazyInv s' := by
  cases lazyMove_of_step h with
  | call hw | null hw => exact hinv.move (by simp [hw, WillWrite]) nofun nofun
  | found hw hb => exact hinv.move (by simp [hw, WillWrite]) nofun fun _ => hb
  | alloc hw => exact hinv.alloc _
  | clear hw => exact hinv.wipe hw
  | write hw => exact hinv.put hw
  | @written w hw =>
    exact hinv.move (by simp [hw, WillWrite]) nofun fun _ => hinv.built w (Or.inl (hw ▸ trivial))
  | copy hw hb => exact hinv.move (by simp [hw, WillWrite]) nofun nofun

theorem lazyInv_of_reachable (h : (T.callers n).Reachable s) : T.LazyInv s := by
  refine h.invariant (fun s hinit => ?_) fun _ _ _ _ hinv _ hs => hinv.step hs
  obtain ⟨hblock, hplace, -⟩ := hinit
  exact ⟨by simp [hblock], by simp [hblock], by simp [hplace], by simp [hplace, LazyPlace.Fills]⟩

/-- **Once nobody clears or writes, the block is complete**, in whatever order the callers have
built it. -/
theorem complete_of_quiet (h : (T.callers n).Reachable s) (hquiet : ∀ w, ¬(s.place w).Fills)
    (hb : s.block = some b) : T.Complete b := by
  have hinv := lazyInv_of_reachable h
  refine ⟨fun i v hmem => (hinv.entry b hb i v hmem).resolve_right ?_,
    fun i hnot hclear => (hinv.clear b hb i hnot hclear).resolve_right ?_⟩
  · rintro ⟨w, hw⟩
    refine hquiet w ?_
    cases hp : s.place w <;> rw [hp] at hw <;> trivial
  · rintro ⟨w, hw⟩
    exact hquiet w (hw ▸ trivial)

/-! ### When nobody builds any more -/

theorem block_of_step (h : T.step s a = some s') (hb : s.block ≠ none) : s'.block ≠ none := by
  cases lazyMove_of_step h with
  | clear | write => simpa using hb
  | alloc => simp
  | _ => exact hb

/-- Whoever begins to build has found null. -/
theorem builds_of_step (h : T.step s a = some s') (hb : s.block ≠ none) {w : Fin n}
    (hw : ¬(s.place w).Builds) : ¬(s'.place w).Builds := by
  have hstay : ∀ {v p}, ((s.place v).Builds ∨ ¬p.Builds) →
      ¬(Function.update s.place v p w).Builds := by
    rintro v p hor
    rcases eq_or_ne w v with rfl | hne
    · rw [Function.update_self]
      exact hor.resolve_left hw
    · rwa [Function.update_of_ne hne]
  cases lazyMove_of_step h with
  | call | found | written | copy => exact hstay (Or.inr nofun)
  | null _ hnone => exact absurd hnone hb
  | alloc hv | clear hv | write hv => exact hstay (Or.inl (hv ▸ trivial))

theorem Settled.step (hs : Settled s) (h : T.step s a = some s') :
    Settled s' ∧ s'.block = s.block ∧
      (s'.copied = s.copied ∨ ∃ b, s.block = some b ∧ s'.copied = s.copied ++ [b]) := by
  refine ⟨⟨block_of_step h hs.built, fun w => builds_of_step h hs.built (hs.quiet w)⟩, ?_⟩
  cases lazyMove_of_step h with
  | call | found | written => exact ⟨rfl, Or.inl rfl⟩
  | null _ hnone => exact absurd hnone hs.built
  | @alloc w _ hw | @clear w hw | @write w _ _ hw => exact absurd (hw ▸ trivial) (hs.quiet w)
  | copy _ hb => exact ⟨rfl, Or.inr ⟨_, hb, rfl⟩⟩

/-- **From the moment at which nobody builds, the block stays as it is**, and it is complete; all
that is copied from then on is this block. -/
theorem copied_of_settled {ok : LazyState ι κ α n → LazyStep ι α n → Prop}
    {e : (T.callers n).Execution ok} {k : ℕ} (hreach : (T.callers n).Reachable (e.state k))
    (hs : Settled (e.state k)) :
    ∃ b, T.Complete b ∧ ∀ l, k ≤ l → Settled (e.state l) ∧ (e.state l).block = some b ∧
      ∃ m, (e.state l).copied = (e.state k).copied ++ List.replicate m b := by
  obtain ⟨b, hb⟩ := Option.ne_none_iff_exists'.mp hs.built
  have hquiet : ∀ w, ¬((e.state k).place w).Fills := fun w hw => hs.quiet w (by
    cases hp : (e.state k).place w <;> rw [hp] at hw <;> trivial)
  refine ⟨b, complete_of_quiet hreach hquiet hb, fun l hkl => ?_⟩
  refine TransSystem.Execution.always_of_stable (e := e)
    (P := fun s => Settled s ∧ s.block = some b ∧
      ∃ m, s.copied = (e.state k).copied ++ List.replicate m b) ?_ ⟨hs, hb, 0, by simp⟩ hkl
  rintro j a ⟨hs, hb, m, hm⟩ ha
  obtain ⟨hs', hb', hcopied⟩ := hs.step (e.moves j a ha).2
  refine ⟨hs', hb'.trans hb, ?_⟩
  rcases hcopied with hsame | ⟨b', hb'', hmore⟩
  · exact ⟨m, hsame.trans hm⟩
  · obtain rfl := Option.some.inj (hb''.symm.trans hb)
    exact ⟨m + 1, by rw [hmore, hm, List.append_assoc, List.replicate_succ']⟩

/-! ### Under a fair scheduler -/

/-- The other callers do not move a caller that is in a call. -/
theorem place_of_not_owed (h : T.step s a = some s') {w : Fin n} (ha : ¬a.OwedTo w)
    (hw : s.place w ≠ .outside) : s'.place w = s.place w := by
  cases lazyMove_of_step h with
  | @call v hv =>
    exact Function.update_of_ne (fun hwv => hw (by rw [hwv, hv])) _ _
  | _ => exact Function.update_of_ne (fun hwv => ha hwv.symm) _ _

/-- A caller that builds comes closer to the end with each of its steps. -/
theorem left_of_owed (h : T.step s a = some s') {w : Fin n} (ha : a.OwedTo w)
    (hw : (s.place w).Builds) :
    (s'.place w).left T.writes.length < (s.place w).left T.writes.length := by
  cases lazyMove_of_step h with
  | call => exact ha.elim
  | null hv | found hv | copy hv =>
    obtain rfl := ha
    rw [hv] at hw
    exact hw.elim
  | alloc hv | clear hv | write hv | written hv =>
    obtain rfl := ha
    simp [hv, LazyPlace.left]

theorem enabled_of_builds {w : Fin n} (hw : (s.place w).Builds) :
    (T.callers n).Enabled (LazyStep.OwedTo w) s := by
  cases hp : s.place w with
  | allocating =>
    refine ⟨.alloc w fun _ => T.zero, rfl, ?_⟩
    simp only [callers, LazyTable.step, hp]
    exact ⟨_, rfl⟩
  | clearing =>
    refine ⟨.clear w, rfl, ?_⟩
    simp only [callers, LazyTable.step, hp]
    exact ⟨_, rfl⟩
  | writing rest =>
    refine ⟨.write w, rfl, ?_⟩
    cases rest <;>
      · simp only [callers, LazyTable.step, hp]
        exact ⟨_, rfl⟩
  | outside | testing | copying =>
    rw [hp] at hw
    exact hw.elim

theorem enabled_of_testing {w : Fin n} (hw : s.place w = .testing) :
    (T.callers n).Enabled (LazyStep.OwedTo w) s := by
  refine ⟨.test w, rfl, ?_⟩
  simp only [callers, LazyTable.step, hw]
  exact ⟨_, rfl⟩

/-- A caller that is not in a call has nothing to do. -/
theorem not_enabled_of_outside {w : Fin n} (hw : s.place w = .outside) :
    ¬(T.callers n).Enabled (LazyStep.OwedTo w) s := by
  rintro ⟨a, ha, s', hs'⟩
  cases lazyMove_of_step hs' with
  | call => exact ha
  | _ hv =>
    obtain rfl := ha
    rw [hw] at hv
    cases hv

section Fair

variable {e : (T.callers n).Execution fun _ _ => True}
  (hfair : ∀ w, e.StronglyFair (LazyStep.OwedTo w))

include hfair

/-- Whoever builds comes to the end. -/
theorem builder_ends (w : Fin n) :
    e.LeadsTo (fun s => (s.place w).Builds) fun s => ¬(s.place w).Builds := by
  refine .of_rank (fun s => (s.place w).left T.writes.length) fun r => .of_fair (hfair w) ?_
    fun k => ⟨k, le_rfl, fun hP => enabled_of_builds hP.1⟩
  rintro k a ⟨hbuilds, hr⟩ ha
  have hstep := (e.moves k a ha).2
  by_cases howed : a.OwedTo w
  · have hlt := left_of_owed hstep howed hbuilds
    exact Or.inr ((em _).imp_right fun h => ⟨not_not.mp h, hr ▸ hlt⟩)
  · have hsame := place_of_not_owed hstep howed fun hout => by
      rw [hout] at hbuilds
      exact hbuilds
    exact Or.inl ⟨howed, by rwa [hsame], by rw [hsame, hr]⟩

/-- Once there is a call, there is a block. -/
theorem call_builds (hreach : ∀ k, (T.callers n).Reachable (e.state k)) (w : Fin n) :
    e.LeadsTo (fun s => s.block = none ∧ s.place w ≠ .outside) fun s => s.block ≠ none := by
  refine .of_rank (fun s => (s.place w).left T.writes.length) fun r => .of_fair (hfair w) ?_
    fun k => ⟨k, le_rfl, fun hP => ?_⟩
  · rintro k a ⟨⟨hb, hw⟩, hr⟩ ha
    have hstep := (e.moves k a ha).2
    by_cases howed : a.OwedTo w
    · refine Or.inr ?_
      generalize e.state (k + 1) = s' at hstep
      cases lazyMove_of_step hstep with
      | call => exact howed.elim
      | @null v hv =>
        obtain rfl : v = w := howed
        exact Or.inr ⟨⟨hb, by simp⟩, by simp [← hr, hv, LazyPlace.left]⟩
      | alloc => exact Or.inl (by simp)
      | found _ hsome => exact absurd hb hsome
      | @clear v hv | @write v _ _ hv | @written v hv =>
        exact absurd hb ((lazyInv_of_reachable (hreach k)).built v (Or.inl (hv ▸ trivial)))
      | @copy v _ hv =>
        exact absurd hb ((lazyInv_of_reachable (hreach k)).built v (Or.inr hv))
    · have hsame := place_of_not_owed hstep howed hw
      by_cases hb' : (e.state (k + 1)).block = none
      · exact Or.inl ⟨howed, ⟨hb', by rwa [hsame]⟩, by rw [hsame, hr]⟩
      · exact Or.inr (Or.inl hb')
  · have hbuilt := (lazyInv_of_reachable (hreach k)).built w
    cases hp : (e.state k).place w with
    | outside => exact absurd hp hP.1.2
    | testing => exact enabled_of_testing hp
    | allocating => exact enabled_of_builds (hp ▸ trivial)
    | clearing | writing rest => exact absurd hP.1.1 (hbuilt (Or.inl (hp ▸ trivial)))
    | copying => exact absurd hP.1.1 (hbuilt (Or.inr hp))

/-- **The building comes to an end**: if there is a call, there is a moment from which on nobody
builds. -/
theorem settles (hreach : (T.callers n).Reachable (e.state 0))
    (hcall : ∃ w, (e.state 0).place w ≠ .outside) : ∃ k, ∀ l, k ≤ l → Settled (e.state l) := by
  obtain ⟨j, hj⟩ : ∃ j, (e.state j).block ≠ none := by
    obtain ⟨w, hw⟩ := hcall
    by_cases hb : (e.state 0).block = none
    · obtain ⟨j, -, hj⟩ := call_builds hfair (e.reachable hreach) w 0 ⟨hb, hw⟩
      exact ⟨j, hj⟩
    · exact ⟨0, hb⟩
  have hblock : ∀ k, j ≤ k → (e.state k).block ≠ none := fun k =>
    TransSystem.Execution.always_of_stable (e := e) (P := fun s => s.block ≠ none)
      (fun k a hk ha => block_of_step (e.moves k a ha).2 hk) hj
  have hone : ∀ w, ∃ k, j ≤ k ∧ ¬((e.state k).place w).Builds := fun w => by
    by_cases hw : ((e.state j).place w).Builds
    · exact builder_ends hfair w j hw
    · exact ⟨j, le_rfl, hw⟩
  choose k hjk hk using hone
  refine ⟨max j (Finset.univ.sup k), fun l hl =>
    ⟨hblock l ((le_max_left _ _).trans hl), fun w => ?_⟩⟩
  have hkl : k w ≤ l :=
    (Finset.le_sup (Finset.mem_univ w)).trans ((le_max_right _ _).trans hl)
  -- whoever has ended does not begin again, since the pointer is not null
  have hstable := TransSystem.Execution.always_of_stable (e := e)
    (P := fun s => s.block ≠ none ∧ ¬(s.place w).Builds)
    (fun m a hm ha => ⟨block_of_step (e.moves m a ha).2 hm.1,
      builds_of_step (e.moves m a ha).2 hm.1 hm.2⟩) ⟨hblock _ (hjk w), hk w⟩ hkl
  exact hstable.2

end Fair

end LazyTable
