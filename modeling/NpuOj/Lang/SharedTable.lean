import NpuOj.Lang.SyscallLimits
import NpuOj.Lib.LazyTable

/-!
# The table of budgets, when several workers launch

`init_system_call_limits` keeps its table behind a static pointer that is shared by all workers,
and there is no lock. `NpuOj.initSystemCallLimits` is the function called by one thread after the
other; here its statements are taken one at a time, as an instance of `LazyTable`, and a call that
nobody disturbs is that function again (`NpuOj.initSystemCallLimits_alone`).

A worker that calls while another one is still filling the block copies what is there, and all
calls that have not been written yet are refused (`NpuOj.sysCallInit_torn`). But this is over as
soon as nobody fills the block any more, and does not come again: `NpuOj.sysCallInit_settles`.
-/

namespace NpuOj

/-- The table that `init_system_call_limits` builds. -/
def syscallTable : LazyTable (Fin 512) ℤ ℤ where
  key i := (i : ℤ)
  writes := listedPairs rfC
  nodup := nodup_listedPairs_rfC
  -- `memset(sys_call_init, 0, 512)`
  cleared i := sizeofInt * (i + 1) ≤ 512
  zero := 0

/-- **The workers in `init_system_call_limits`**, one statement at a time. The limits that a call
leaves are what it has copied. -/
abbrev tableThreads (n : ℕ) : TransSystem (LazyState (Fin 512) ℤ ℤ n) (LazyStep (Fin 512) ℤ n) :=
  syscallTable.callers n

section Calls

variable {n : ℕ}

/-! ### A call that nobody disturbs -/

theorem fillLimits_eq_foldl : ∀ (l : List ℤ) (t : SyscallLimits),
    fillLimits l t = (listedPairs l).foldl syscallTable.put t
  | [], _ => rfl
  | [_], _ => rfl
  | nr :: lim :: rest, t => by
    by_cases hnr : 0 ≤ nr
    · rw [fillLimits, listedPairs, if_pos hnr, if_pos hnr, List.foldl_cons,
        fillLimits_eq_foldl rest]
      rfl
    · rw [fillLimits, listedPairs, if_neg hnr, if_neg hnr]
      rfl

theorem build_syscallTable (heap : SyscallLimits) :
    syscallTable.build heap = fillLimits rfC (memsetZero heap 512) := by
  have hwipe : syscallTable.wipe heap = memsetZero heap 512 := by
    funext i
    simp [LazyTable.wipe, syscallTable, memsetZero]
  rw [LazyTable.build, hwipe, fillLimits_eq_foldl]
  rfl

/-- **A call that nobody disturbs** is the one of a single thread. -/
theorem initSystemCallLimits_alone {s : LazyState (Fin 512) ℤ ℤ n} {w : Fin n}
    (hw : s.place w = .outside) (heap : SyscallLimits) (rl : ResourceLimit) :
    let r := initSystemCallLimits s.block heap rl
    (tableThreads n).run s (syscallTable.statements w s.block heap)
      = some { block := r.2
               place := Function.update s.place w .outside
               copied := s.copied ++ [r.1.syscallLimits] } := by
  rw [LazyTable.run_statements hw heap]
  cases s.block with
  | some b => rw [initSystemCallLimits_some]; rfl
  | none => rw [initSystemCallLimits_none, initSystemCallLimits_some, Option.getD_none,
      build_syscallTable]

/-! ### Calls that disturb each other -/

/-- A complete block is the policy, where the block is written or cleared. -/
theorem eq_policy_of_complete {b : SyscallLimits} (h : syscallTable.Complete b) {i : Fin 512}
    (hi : (i : ℕ) < 128 ∨ (listedLimit i).isSome) : b i = policy i := by
  cases hlisted : listedLimit i with
  | some lim =>
    obtain ⟨l₁, l₂, heq, -⟩ := List.lookup_eq_some_iff.mp hlisted
    have hmem : ((i : ℤ), lim) ∈ listedPairs rfC := by simp [heq]
    rw [h.entry i lim hmem, policy, hlisted, Option.getD_some]
  | none =>
    have hnot : (i : ℤ) ∉ (listedPairs rfC).map Prod.fst := fun hmem => by
      obtain ⟨x, hx, hkey⟩ := List.mem_map.mp hmem
      exact (bne_iff_ne.mp (List.lookup_eq_none_iff.mp hlisted x hx)) hkey.symm
    have hlow : (i : ℕ) < 128 := hi.resolve_right (by simp [hlisted])
    rw [h.clear i hnot (decide_eq_true (by rw [sizeofInt]; omega)), policy, hlisted,
      Option.getD_none]
    rfl

/-- A worker that calls while another one is about to write its first entry gets a table in which
no call has a budget, and its program is not let into `write`. -/
theorem sysCallInit_torn : ∃ s : LazyState (Fin 512) ℤ ℤ 2, (tableThreads 2).Reachable s ∧
    s.copied.map (fun t => t 4) = [0] ∧ policy 4 = -1 := by
  obtain ⟨s, hs⟩ : ∃ s, (tableThreads 2).run ⟨none, fun _ => .outside, []⟩
      [.call 0, .test 0, .alloc 0 fun _ => 0, .clear 0, .call 1, .test 1, .copy 1] = some s :=
    ⟨_, rfl⟩
  refine ⟨s, TransSystem.reachable_of_run ⟨rfl, fun _ => rfl, rfl⟩ hs, ?_, by decide +kernel⟩
  obtain rfl := Option.some.inj hs
  rfl

/-- **The disturbance passes.** However many workers make their first calls at the same time, and
in whatever order their statements come, there is a moment, under a fair scheduler, from which on
all workers get one and the same table, and it is the policy: on all numbers that are listed, and on
all that the first call clears. -/
theorem sysCallInit_settles {e : (tableThreads n).Execution fun _ _ => True}
    (hreach : (tableThreads n).Reachable (e.state 0))
    (hfair : ∀ w, e.StronglyFair (LazyStep.OwedTo w))
    (hcall : ∃ w, (e.state 0).place w ≠ .outside) :
    ∃ (k : ℕ) (b : SyscallLimits),
      (∀ i : Fin 512, (i : ℕ) < 128 ∨ (listedLimit i).isSome → b i = policy i) ∧
      ∀ l, k ≤ l → ∃ m, (e.state l).copied = (e.state k).copied ++ List.replicate m b := by
  obtain ⟨k, hk⟩ := LazyTable.settles hfair hreach hcall
  obtain ⟨b, hcomplete, hb⟩ := LazyTable.copied_of_settled (e.reachable hreach k) (hk k le_rfl)
  exact ⟨k, b, fun i hi => eq_policy_of_complete hcomplete hi, fun l hkl => (hb l hkl).2.2⟩

/-- Two workers, the first of which is filling the block when the second one calls. -/
theorem sysCallInit_settles_twoWorkers : ∃ e : (tableThreads 2).Execution fun _ _ => True,
    (e.state 0).place 0 = .testing ∧ ∃ (k : ℕ) (b : SyscallLimits), b 4 = -1 ∧
      ∀ l, k ≤ l → ∃ m, (e.state l).copied = (e.state k).copied ++ List.replicate m b := by
  let s : LazyState (Fin 512) ℤ ℤ 2 := ⟨none, Function.update (fun _ => .outside) 0 .testing, []⟩
  have hreach : (tableThreads 2).Reachable s :=
    TransSystem.reachable_of_run (s := ⟨none, fun _ => .outside, []⟩) ⟨rfl, fun _ => rfl, rfl⟩
      (show (tableThreads 2).run _ [.call 0] = some s from rfl)
  obtain ⟨e, he, -, hend⟩ := @TransSystem.Execution.exists_of_run _ _ (tableThreads 2)
    (fun _ _ => True) _ _ _ (fun _ _ _ => trivial)
    (show (tableThreads 2).run s ([.test 0, .alloc 0 fun _ => 0, .clear 0, .call 1, .test 1,
      .copy 1] ++ List.replicate 20 (.write 0) ++ [.copy 0]) = some _ from rfl)
  have hfair : ∀ w, e.StronglyFair (LazyStep.OwedTo w) := fun w =>
    hend _ (LazyTable.not_enabled_of_outside (by revert w; exact Fin.forall_fin_two.mpr ⟨rfl, rfl⟩))
  obtain ⟨k, b, hb, hcopied⟩ := sysCallInit_settles (he ▸ hreach) hfair
    ⟨0, by rw [he]; exact nofun⟩
  exact ⟨e, by rw [he]; rfl, k, b, (hb 4 (Or.inl (by decide))).trans (by decide +kernel), hcopied⟩

end Calls

end NpuOj
