import Mathlib.Data.Fintype.Fin
import NpuOj.DBConnMgr

/-!
# Safety of the connection pool

The semaphore counts permits and the slots have three states, which a thread changes in
different steps. `NpuOj.ConnInv` relates them: a slot in use stands for one thread that
holds it, and the slots in use, the value of the semaphore and the threads in the two
windows (past `sem_wait` without a connection, and past the section that frees a slot
without `sem_post`) add up to the number of available connections.

It follows that a thread with a permit finds a slot (`NpuOj.ConnInv.exists_slot_of_passedSem`).
A new slot is taken only while every slot that has been used before is in use, so that
the connections that were ever made were once all held at the same time: this is the
ghost `NpuOj.ConnHistory.peak`.

The second result is about the outcome of `connect_db`. The slot is marked as used
whatever the outcome is, and `NpuOj.dbConns_connected` needs that no attempt fails;
`NpuOj.takeSlot_failed` says that an attempt that fails is handed out.
-/

namespace NpuOj

/-- Slots that are all in use are no fewer than those available, if these fit in the
array. -/
theorem le_countAt_used {n : ℕ} {bits : ConnBits} (hn : n ≤ maxConnections)
    (h : ∀ j : Fin maxConnections, (j : ℕ) < n → bits j = .used) : n ≤ countAt .used bits := by
  have hcard : (Finset.univ.filter fun j : Fin maxConnections => (j : ℕ) < n).card = n := by
    rw [Fin.card_filter_val_lt, min_eq_right hn]
  calc n = _ := hcard.symm
    _ ≤ (Finset.univ.filter fun j => bits j = .used).card :=
      Finset.card_le_card fun j hj => by
        rw [Finset.mem_filter] at hj ⊢
        exact ⟨hj.1, h j hj.2⟩

section Safety

variable {ι : Type*} [Fintype ι] [DecidableEq ι] {n : ℕ} {s s' : ConnState ι} {i : ι}
  {a : ConnStep}

/-- **The invariant of the pool.** -/
structure ConnInv (n : ℕ) (s : ConnState ι) : Prop where
  held : ∀ j, countAt (.holding (some j)) s.loc = if s.mConnBits j = .used then 1 else 0
  notNull : ∀ i, s.loc i ≠ .holding none
  notCrashed : ∀ i, s.loc i ≠ .crashed
  holders : countAt .used s.mConnBits = s.holders
  permits : countAt .used s.mConnBits + s.mSem + countAt .passedSem s.loc + countAt .freed s.loc
    = n
  notClosed : ∀ j, s.mConnBits j ≠ .closed
  beyond : ∀ j : Fin maxConnections, n ≤ j → s.mConnBits j = .init
  connects : ∀ j, s.history.connects j = if s.mConnBits j = .init then 0 else 1
  peak : countIn (· ≠ .init) s.mConnBits ≤ s.history.peak

omit [DecidableEq ι] in
theorem connInv_init (n : ℕ) : ConnInv n (ConnState.initConns n ι) where
  held j := by simp [ConnState.initConns, countAt_const]
  notNull i := by simp [ConnState.initConns]
  notCrashed i := by simp [ConnState.initConns]
  holders := by
    change countAt .used (fun _ => DBConState.init) = countIn _ (fun _ => ConnLoc.idle)
    rw [countAt_const, countIn_const]
    rfl
  permits := by simp [ConnState.initConns, countAt_const]
  notClosed j := by simp [ConnState.initConns]
  beyond j _ := rfl
  connects j := by simp [ConnState.initConns]
  peak := by simp [ConnState.initConns, countIn_const]

/-! ### What the invariant says of a slot -/

omit [DecidableEq ι] in
/-- A connection that is held belongs to a slot in use, which is one of those available. -/
theorem ConnInv.used_of_holding (hinv : ConnInv n s) {j : Fin maxConnections}
    (hi : s.loc i = .holding (some j)) : s.mConnBits j = .used ∧ (j : ℕ) < n := by
  have hused : s.mConnBits j = .used := by
    by_contra hbit
    have hzero := hinv.held j
    rw [if_neg hbit, countAt_eq_zero_iff] at hzero
    exact hzero i hi
  refine ⟨hused, not_le.mp fun hle => ?_⟩
  rw [hinv.beyond j hle] at hused
  cases hused

omit [DecidableEq ι] in
/-- **A thread with a permit finds a slot**, free or new. -/
theorem ConnInv.exists_slot_of_passedSem (hinv : ConnInv n s) (hn : n ≤ maxConnections)
    (hi : s.loc i = .passedSem) :
    ∃ j : Fin maxConnections, (j : ℕ) < n ∧
      (s.mConnBits j = .available ∨ s.mConnBits j = .init) := by
  by_contra hnone
  have hused : ∀ j : Fin maxConnections, (j : ℕ) < n → s.mConnBits j = .used := by
    intro j hj
    cases hbit : s.mConnBits j with
    | used => rfl
    | closed => exact absurd hbit (hinv.notClosed j)
    | available => exact absurd ⟨j, hj, Or.inl hbit⟩ hnone
    | init => exact absurd ⟨j, hj, Or.inr hbit⟩ hnone
  have hle := le_countAt_used hn hused
  have hpos : 0 < countAt .passedSem s.loc := countAt_pos_iff.mpr ⟨i, hi⟩
  have hsum := hinv.permits
  omega

omit [DecidableEq ι] in
/-- Where no slot is free, the slots that have been used are the ones in use. -/
theorem ConnInv.used_of_ne_init (hinv : ConnInv n s)
    (hfree : ∀ k : Fin maxConnections, (k : ℕ) < n → s.mConnBits k ≠ .available)
    (j : Fin maxConnections) (hj : s.mConnBits j ≠ .init) : s.mConnBits j = .used := by
  have hjn : (j : ℕ) < n := not_le.mp fun hle => hj (hinv.beyond j hle)
  cases hbit : s.mConnBits j with
  | used => rfl
  | closed => exact absurd hbit (hinv.notClosed j)
  | available => exact absurd hbit (hfree j hjn)
  | init => exact absurd hbit hj

/-! ### The steps -/

omit [Fintype ι] in
/-- What holds of the place of every thread holds after one of them has moved. -/
theorem ConnState.forall_move {Q : ConnLoc → Prop} {l : ConnLoc} (hs : ∀ k, Q (s.loc k))
    (hl : Q l) (k : ι) : Q (Function.update s.loc i l k) :=
  (Function.forall_update_iff s.loc fun _ l => Q l).mpr ⟨hl, fun k _ => hs k⟩ k

omit [DecidableEq ι] in
/-- No slot is closed after one of them has been taken or freed. -/
theorem ConnInv.notClosed_update (hinv : ConnInv n s) (j : Fin maxConnections) {b : DBConState}
    (hb : b ≠ .closed) : ∀ k, Function.update s.mConnBits j b k ≠ .closed :=
  (Function.forall_update_iff s.mConnBits fun _ b => b ≠ .closed).mpr
    ⟨hb, fun k _ => hinv.notClosed k⟩

omit [DecidableEq ι] in
/-- The slots beyond the limit are not touched. -/
theorem ConnInv.beyond_update (hinv : ConnInv n s) {j : Fin maxConnections} (hjn : (j : ℕ) < n)
    (b : DBConState) (k : Fin maxConnections) (hk : n ≤ (k : ℕ)) :
    Function.update s.mConnBits j b k = .init := by
  rw [Function.update_of_ne (fun hkj => by rw [hkj] at hk; omega)]
  exact hinv.beyond k hk

theorem ConnState.holders_move (s : ConnState ι) (i : ι) (l : ConnLoc) :
    (s.move i l).holders + (if (s.loc i).isHolding then 1 else 0)
      = s.holders + (if l.isHolding then 1 else 0) :=
  countIn_update s.loc i l

/-- **A thread moves between places in which it holds nothing**, and the permits that it
stands for there are those that the semaphore gains or loses. -/
theorem ConnInv.moveSem (hinv : ConnInv n s) {l : ConnLoc} {sem : ℕ}
    (hi : (s.loc i).isHolding = false) (hl : l.isHolding = false) (hcrash : l ≠ .crashed)
    (hsem : sem + (if l = .passedSem then 1 else 0) + (if l = .freed then 1 else 0)
      = s.mSem + (if s.loc i = .passedSem then 1 else 0) + (if s.loc i = .freed then 1 else 0)) :
    ConnInv n { s.move i l with mSem := sem } := by
  have hnothing : ∀ {l' : ConnLoc}, l'.isHolding = false → ∀ con, l' ≠ .holding con := by
    rintro l' hl' con rfl
    cases hl'
  refine ⟨fun j => ?_, ConnState.forall_move (Q := (· ≠ .holding none)) hinv.notNull
    (hnothing hl none), ConnState.forall_move (Q := (· ≠ .crashed)) hinv.notCrashed hcrash, ?_, ?_,
    hinv.notClosed, hinv.beyond, hinv.connects, hinv.peak⟩
  · exact (countAt_stay (hnothing hi (some j)) (hnothing hl (some j))).trans (hinv.held j)
  · have hmove := s.holders_move i l
    simp only [hi, hl, Bool.false_eq_true, if_false, Nat.add_zero] at hmove
    exact hinv.holders.trans hmove.symm
  · have hpassed : countAt .passedSem (Function.update s.loc i l) + _ = _ :=
      countIn_update s.loc i l
    have hfreed : countAt .freed (Function.update s.loc i l) + _ = _ := countIn_update s.loc i l
    have hsum := hinv.permits
    change countAt .used s.mConnBits + sem + countAt _ (Function.update s.loc i l)
      + countAt _ (Function.update s.loc i l) = n
    simp only [countAt] at hpassed hfreed hsum ⊢
    omega

/-- **A thread takes a slot** that is not in use. If the slot is new, `connect_db` is
called for it, and no slot is free. -/
theorem ConnInv.take (hinv : ConnInv n s) {j : Fin maxConnections}
    {connections : Fin maxConnections → MysqlCon} {attempted : Option (Fin maxConnections)}
    (hi : s.loc i = .passedSem) (hjn : (j : ℕ) < n) (hj : s.mConnBits j ≠ .used)
    (hattempted : ∀ k, attempted = some k ↔ k = j ∧ s.mConnBits j = .init)
    (hfree : s.mConnBits j = .init →
      ∀ k : Fin maxConnections, (k : ℕ) < n → s.mConnBits k ≠ .available) :
    ConnInv n
      (s.takes i ⟨some j, Function.update s.mConnBits j .used, connections, attempted⟩) := by
  have hused : countAt .used (Function.update s.mConnBits j .used)
      = countAt .used s.mConnBits + 1 := countAt_enter hj
  have hholders : (s.move i (.holding (some j))).holders = s.holders + 1 := by
    have hmove := s.holders_move i (.holding (some j))
    rw [hi] at hmove
    exact hmove
  refine ⟨fun k => ?_, ConnState.forall_move (Q := (· ≠ .holding none)) hinv.notNull (by simp),
    ConnState.forall_move (Q := (· ≠ .crashed)) hinv.notCrashed (by simp), ?_, ?_,
    hinv.notClosed_update j (by simp), hinv.beyond_update hjn _, fun k => ?_, ?_⟩
  · change countAt _ (Function.update s.loc i (.holding (some j)))
      = if Function.update s.mConnBits j .used k = .used then 1 else 0
    by_cases hk : k = j
    · subst hk
      rw [countAt_enter (by simp [hi]), hinv.held k, if_neg hj, Function.update_self, if_pos rfl]
    · rw [countAt_stay (by simp [hi]) (by simp [Ne.symm hk]), hinv.held k,
        Function.update_of_ne hk]
  · change countAt _ (Function.update s.mConnBits j .used) = (s.move i (.holding (some j))).holders
    rw [hused, hholders, hinv.holders]
  · change countAt _ (Function.update s.mConnBits j .used) + s.mSem
      + countAt _ (Function.update s.loc i (.holding (some j)))
      + countAt _ (Function.update s.loc i (.holding (some j))) = n
    have hleave := countAt_leave hi (show ConnLoc.holding (some j) ≠ .passedSem by simp)
    have hstay : countAt .freed (Function.update s.loc i (.holding (some j)))
        = countAt .freed s.loc := countAt_stay (by simp [hi]) (by simp)
    have hsum := hinv.permits
    omega
  · change s.history.connects k + (if attempted = some k then 1 else 0)
      = if Function.update s.mConnBits j .used k = .init then 0 else 1
    rw [hinv.connects k]
    simp only [hattempted]
    rcases eq_or_ne k j with rfl | hk
    · rw [Function.update_self, if_neg (by simp : (DBConState.used ≠ .init))]
      by_cases hinit : s.mConnBits k = .init <;> simp [hinit]
    · rw [Function.update_of_ne hk, if_neg (fun h : k = j ∧ _ => hk h.1), Nat.add_zero]
  · change countIn _ (Function.update s.mConnBits j .used)
      ≤ max s.history.peak (s.move i (.holding (some j))).holders
    by_cases hinit : s.mConnBits j = .init
    · -- every slot that was used before is in use, and each is held
      refine le_max_of_le_right ?_
      have hcongr : countIn (· ≠ .init) (Function.update s.mConnBits j .used)
          = countAt .used (Function.update s.mConnBits j .used) :=
        countIn_congr fun k => by
          rcases eq_or_ne k j with rfl | hk
          · simp
          · rw [Function.update_of_ne hk]
            exact ⟨hinv.used_of_ne_init (hfree hinit) k, fun h => by simp [h]⟩
      rw [hcongr, hused, hholders, hinv.holders]
    · refine le_max_of_le_left ?_
      rw [countIn_update_stay (by simp [hinit])]
      exact hinv.peak

/-- A thread frees its slot. -/
theorem ConnInv.release (hinv : ConnInv n s) {j : Fin maxConnections}
    (hi : s.loc i = .holding (some j)) :
    ConnInv n { s.move i .freed with
      mConnBits := Function.update s.mConnBits j .available } := by
  obtain ⟨hj, hjn⟩ := hinv.used_of_holding hi
  have hused := countAt_leave hj (show DBConState.available ≠ .used by simp)
  have hholders := s.holders_move i .freed
  rw [hi] at hholders
  refine ⟨fun k => ?_, ConnState.forall_move (Q := (· ≠ .holding none)) hinv.notNull (by simp),
    ConnState.forall_move (Q := (· ≠ .crashed)) hinv.notCrashed (by simp), ?_, ?_,
    hinv.notClosed_update j (by simp), hinv.beyond_update hjn _, fun k => ?_, ?_⟩
  · change countAt _ (Function.update s.loc i .freed)
      = if Function.update s.mConnBits j .available k = .used then 1 else 0
    by_cases hk : k = j
    · subst hk
      have hleave := countAt_leave hi (show ConnLoc.freed ≠ .holding (some k) by simp)
      rw [hinv.held k, if_pos hj] at hleave
      rw [Function.update_self, if_neg (by simp)]
      omega
    · rw [countAt_stay (by simp [hi, Ne.symm hk]) (by simp), hinv.held k, Function.update_of_ne hk]
  · change countAt _ (Function.update s.mConnBits j .available) = (s.move i .freed).holders
    have hsame := hinv.holders
    simp only [ConnLoc.isHolding, if_true, Bool.false_eq_true, if_false] at hholders
    omega
  · change countAt _ (Function.update s.mConnBits j .available) + s.mSem
      + countAt _ (Function.update s.loc i _) + countAt _ (Function.update s.loc i _) = n
    have hstay : countAt .passedSem (Function.update s.loc i .freed)
        = countAt .passedSem s.loc := countAt_stay (by simp [hi]) (by simp)
    have henter : countAt .freed (Function.update s.loc i .freed)
        = countAt .freed s.loc + 1 := countAt_enter (by simp [hi])
    have hsum := hinv.permits
    omega
  · change s.history.connects k
      = if Function.update s.mConnBits j .available k = .init then 0 else 1
    rw [hinv.connects k]
    rcases eq_or_ne k j with rfl | hk
    · simp [hj]
    · rw [Function.update_of_ne hk]
  · change countIn _ (Function.update s.mConnBits j .available) ≤ s.history.peak
    rw [countIn_update_stay (by simp [hj])]
    exact hinv.peak

/-- **Every step keeps the invariant.** -/
theorem ConnInv.move (hinv : ConnInv n s) (hn : n ≤ maxConnections) (h : ConnMove n s i a s') :
    ConnInv n s' := by
  cases h with
  | request hi => exact hinv.moveSem (by rw [hi]; rfl) rfl (by simp) (by simp [hi])
  | semWait hi hsem =>
    refine hinv.moveSem (by rw [hi]; rfl) rfl (by simp) ?_
    simp [hi, Nat.sub_add_cancel hsem]
  | takeFree hi hjn hj => exact hinv.take hi hjn (by simp [hj]) (by simp [hj]) (by simp [hj])
  | takeNew hi hfree hjn hj =>
    exact hinv.take hi hjn (by simp [hj]) (by simp [hj, eq_comm]) fun _ => hfree
  | takeNull hi hfree hnew =>
    obtain ⟨j, hjn, hj | hj⟩ := hinv.exists_slot_of_passedSem hn hi
    · exact absurd hj (hfree j hjn)
    · exact absurd hj (hnew j hjn)
  | release hi => exact hinv.release hi
  | post hi => exact hinv.moveSem (by rw [hi]; rfl) rfl (by simp) (by simp [hi])

theorem ConnInv.move_of_step (hinv : ConnInv n s) (hn : n ≤ maxConnections)
    (h : s.step n (i, a) = some s') : ConnMove n s i a s' :=
  ConnState.move_of_step hn (fun _ _ => hinv.used_of_holding) h

theorem connInv_of_reachable {ok : ConnState ι → ι × ConnStep → Prop} (hn : n ≤ maxConnections)
    (h : (dbConns n ι).ReachableBy ok s) : ConnInv n s :=
  h.invariant (by rintro _ rfl; exact connInv_init n)
    fun _ ⟨_, _⟩ _ _ hinv _ hstep => hinv.move hn (hinv.move_of_step hn hstep)

/-! ### The results -/

/-- A step connects a slot only where none is free, and no slot goes back to `init`. -/
theorem ConnMove.slots (h : ConnMove n s i a s') (hinv : ConnInv n s) (j : Fin maxConnections) :
    (s.mConnBits j ≠ .init → s'.mConnBits j ≠ .init) ∧
      (s'.history.connects j ≠ s.history.connects j → ∀ k, s.mConnBits k ≠ .available) := by
  have hupdate : ∀ (k : Fin maxConnections) (c : DBConState), c ≠ .init →
      s.mConnBits j ≠ .init → Function.update s.mConnBits k c j ≠ .init := by
    intro k c hc hj
    rcases eq_or_ne j k with rfl | hjk
    · rwa [Function.update_self]
    · rwa [Function.update_of_ne hjk]
  cases h with
  | request hi | semWait hi hsem | post hi => exact ⟨id, fun hne => absurd rfl hne⟩
  | takeNull hi hfree hnew => exact ⟨id, fun hne => absurd rfl hne⟩
  | takeFree hi hjn hj => exact ⟨hupdate _ _ (by simp), fun hne => absurd rfl hne⟩
  | release hi => exact ⟨hupdate _ _ (by simp), fun hne => absurd rfl hne⟩
  | takeNew hi hfree hjn hj =>
    refine ⟨hupdate _ _ (by simp), fun _ k hk => ?_⟩
    rcases Nat.lt_or_ge k n with hkn | hkn
    · exact hfree k hkn hk
    · rw [hinv.beyond k hkn] at hk
      cases hk

/-- **The pool is safe**: no two threads hold the same connection, none that is past the
semaphore gets `NULL`, and no index leaves the arrays. A slot is connected at most once,
and only while no slot that has been connected is free, so that the slots ever connected
are no more than the connections that were once held at the same time. -/
theorem dbConns_safe {dbMaxConnections : ℕ}
    (h : (dbConns (maxAvailableConnections dbMaxConnections) ι).Reachable s) :
    (∀ i k j, s.loc i = .holding (some j) → s.loc k = .holding (some j) → i = k) ∧
      (∀ i, s.loc i ≠ .holding none) ∧ (∀ i, s.loc i ≠ .crashed) ∧
      (∀ j, s.history.connects j ≤ 1) ∧
      countIn (0 < ·) s.history.connects ≤ s.history.peak ∧
      ∀ a s', s.step (maxAvailableConnections dbMaxConnections) a = some s' → ∀ j,
        (s.mConnBits j ≠ .init → s'.mConnBits j ≠ .init) ∧
          (s'.history.connects j ≠ s.history.connects j → ∀ k, s.mConnBits k ≠ .available) := by
  have hn := maxAvailableConnections_le dbMaxConnections
  have hinv := connInv_of_reachable hn h
  refine ⟨fun i k j hi hk => ?_, hinv.notNull, hinv.notCrashed, fun j => ?_, ?_,
    fun ⟨i, a⟩ s' hstep j => (hinv.move_of_step hn hstep).slots hinv j⟩
  · have hone : countAt (.holding (some j)) s.loc ≤ 1 := by
      rw [hinv.held j]
      split <;> omega
    exact eq_of_countAt_le_one hone hi hk
  · rw [hinv.connects j]
    split <;> omega
  · have hcongr : countIn (0 < ·) s.history.connects = countIn (· ≠ .init) s.mConnBits :=
      countIn_congr fun j => by
        rw [hinv.connects j]
        split <;> simp [*]
    rw [hcongr]
    exact hinv.peak

/-- Two threads and one connection: the first holds it, and the second waits. -/
theorem dbConns_safe_twoThreads : ∃ s : ConnState (Fin 2),
    s.loc 0 = .holding (some 0) ∧ s.loc 1 = .requesting ∧ s.history.connects 0 ≤ 1 :=
  have hrun : (dbConns (maxAvailableConnections 1) (Fin 2)).Reachable _ :=
    TransSystem.reachable_of_run rfl
      (show (dbConns (maxAvailableConnections 1) (Fin 2)).run
        (ConnState.initConns (maxAvailableConnections 1) (Fin 2))
        [(0, .request), (1, .request), (0, .semWait), (0, .take true)] = some _ from rfl)
  ⟨_, rfl, rfl, (dbConns_safe hrun).2.2.2.1 0⟩

/-! ### The outcome of `connect_db` -/

/-- The step is not an attempt to connect that fails: where it could be one, a slot that
has been connected is free. -/
def NoFailedConnect (n : ℕ) (s : ConnState ι) : ι × ConnStep → Prop
  | (_, .take false) => ∃ j : Fin maxConnections, (j : ℕ) < n ∧ s.mConnBits j = .available
  | _ => True

/-- An attempt that fails is handed out, in a slot that is now in use. -/
theorem takeSlot_failed {bits : ConnBits} {connections : Fin maxConnections → MysqlCon} {t : Taken}
    {j : Fin maxConnections} (h : takeSlot n bits connections false = some t)
    (hj : t.attempted = some j) :
    t.con = some j ∧ t.connections j = .failed ∧ t.bits j = .used := by
  rw [takeSlot] at h
  split at h
  · obtain rfl := Option.some.inj h
    cases hj
  · cases h
  · split at h
    · next k _ =>
      obtain rfl := Option.some.inj h
      obtain rfl : k = j := Option.some.inj hj
      exact ⟨rfl, by simp [connectDb], by simp⟩
    · cases h
    · obtain rfl := Option.some.inj h
      cases hj

/-- **Connections that are handed out have been made**, in every run in which no attempt
to connect fails; and there is then no slot whose attempt failed. -/
theorem dbConns_connected {dbMaxConnections : ℕ}
    (h : (dbConns (maxAvailableConnections dbMaxConnections) ι).ReachableBy
      (NoFailedConnect (maxAvailableConnections dbMaxConnections)) s) :
    (∀ i j, s.loc i = .holding (some j) → s.mConnections j = .connected) ∧
      ∀ j, s.mConnections j = .failed → s.mConnBits j = .init := by
  have hn := maxAvailableConnections_le dbMaxConnections
  have hconnected : ∀ j, s.mConnections j
      = if s.mConnBits j = .init then .untouched else .connected := by
    refine h.invariant (I := fun s => ∀ j, s.mConnections j
      = if s.mConnBits j = .init then .untouched else .connected) (by rintro _ rfl j; rfl) ?_
    rintro s ⟨i, a⟩ s' hreach hslots hok hstep j
    have hinv := connInv_of_reachable hn hreach
    cases hinv.move_of_step hn hstep with
    | request hi | semWait hi hsem | post hi | takeNull hi hfree hnew => exact hslots j
    | @takeFree k _ hi hkn hk =>
      change s.mConnections j = if Function.update s.mConnBits k .used j = .init then _ else _
      rcases eq_or_ne j k with rfl | hjk
      · rw [hslots j, hk, Function.update_self]
        rfl
      · rw [hslots j, Function.update_of_ne hjk]
    | @takeNew k made hi hfree hkn hk =>
      -- where no slot is free, the condition says that the connection was made
      obtain rfl : made = true := by
        rcases made with _ | _
        · obtain ⟨l, hln, hl⟩ := hok
          exact absurd hl (hfree l hln)
        · rfl
      change Function.update s.mConnections k .connected j
        = if Function.update s.mConnBits k .used j = .init then _ else _
      rcases eq_or_ne j k with rfl | hjk
      · simp
      · rw [Function.update_of_ne hjk, Function.update_of_ne hjk, hslots j]
    | @release k hi =>
      change s.mConnections j = if Function.update s.mConnBits k .available j = .init then _ else _
      rcases eq_or_ne j k with rfl | hjk
      · rw [hslots j, (hinv.used_of_holding hi).1, Function.update_self]
        rfl
      · rw [hslots j, Function.update_of_ne hjk]
  refine ⟨fun i j hi => ?_, fun j hj => ?_⟩
  · rw [hconnected j, if_neg]
    rw [((connInv_of_reachable hn h).used_of_holding hi).1]
    simp
  · rw [hconnected j] at hj
    split at hj <;> cases hj

/-- A thread holds the connection that was made for it. -/
theorem dbConns_connected_oneThread : ∃ s : ConnState (Fin 1),
    s.loc 0 = .holding (some 0) ∧ s.mConnections 0 = .connected :=
  have hrun : (dbConns (maxAvailableConnections 3) (Fin 1)).ReachableBy
      (NoFailedConnect (maxAvailableConnections 3)) _ :=
    TransSystem.ReachableBy.run (.init rfl)
      (by rintro s a (_ | ⟨_, _ | ⟨_, _ | ⟨_, _ | _⟩⟩⟩) <;> trivial)
      (show (dbConns (maxAvailableConnections 3) (Fin 1)).run
        (ConnState.initConns (maxAvailableConnections 3) (Fin 1))
        [(0, .request), (0, .semWait), (0, .take true)] = some _ from rfl)
  ⟨_, rfl, (dbConns_connected hrun).1 0 0 rfl⟩

/-- **An attempt to connect fails**: the thread holds a connection that has not been made,
and after it has been put back the next request is given the same one, without another
attempt. -/
theorem dbConns_failedConnect : ∃ s s' : ConnState (Fin 1),
    (dbConns (maxAvailableConnections 3) (Fin 1)).Reachable s ∧
      s.loc 0 = .holding (some 0) ∧ s.mConnections 0 = .failed ∧
      (dbConns (maxAvailableConnections 3) (Fin 1)).run s
        [(0, .release), (0, .post), (0, .request), (0, .semWait), (0, .take true)] = some s' ∧
      s'.loc 0 = .holding (some 0) ∧ s'.mConnections 0 = .failed ∧ s'.history.connects 0 = 1 :=
  ⟨_, _, TransSystem.reachable_of_run rfl
      (show (dbConns (maxAvailableConnections 3) (Fin 1)).run
        (ConnState.initConns (maxAvailableConnections 3) (Fin 1))
        [(0, .request), (0, .semWait), (0, .take false)] = some _ from rfl),
    rfl, rfl, rfl, rfl, rfl, rfl⟩

end Safety

end NpuOj
