import NpuOj.DataItem

/-!
# The table of system call budgets

`init_system_call_limits` gives the supervised program its policy: a table with a
budget for every system call number, copied into the limits of each launch from a
block that is built on the first call and kept in a static pointer. The block comes
from `malloc`, is cleared, and is then filled from the list `RF_C` of pairs of a
number and its limit, up to the first negative number.

The clearing asks for `512` **bytes**, which is a quarter of the block. The entries
from `128` on keep what the heap held unless `RF_C` lists them, and
`NpuOj.initCalls_eq_policy_iff` says exactly when the policy is in force all the
same.
-/

namespace NpuOj

/-! ### The list of allowed calls -/

/-- The system call numbers of the list, on i386: the x86 target on which
`SYS_fstat64` and `SYS_mmap2` exist. -/
inductive Sys
  | exitGroup | futex | setThreadArea | fstat64 | mmap2 | mremap | writev | mprotect | uname
  | munmap | gettimeofday | brk | access | lseek | time | execve | close | write | read
  deriving DecidableEq

/-- The number of a call. -/
def Sys.nr : Sys → ℤ
  | .exitGroup => 252 | .futex => 240 | .setThreadArea => 243 | .fstat64 => 197
  | .mmap2 => 192 | .mremap => 163 | .writev => 146 | .mprotect => 125 | .uname => 122
  | .munmap => 91 | .gettimeofday => 78 | .brk => 45 | .access => 33 | .lseek => 19
  | .time => 13 | .execve => 11 | .close => 6 | .write => 4 | .read => 3

/-- `RF_C`: pairs of a number and its limit, a sentinel, and the zeros that fill an
array of 512 entries. -/
def rfC : List ℤ :=
  [Sys.access.nr, -1,
    Sys.brk.nr, -1,
    Sys.close.nr, -1,
    Sys.execve.nr, 1,
    Sys.exitGroup.nr, -1,
    Sys.fstat64.nr, -1,
    Sys.futex.nr, -1,
    Sys.gettimeofday.nr, -1,
    Sys.mmap2.nr, -1,
    Sys.mremap.nr, -1,
    Sys.mprotect.nr, -1,
    Sys.munmap.nr, -1,
    Sys.lseek.nr, -1,
    Sys.read.nr, -1,
    Sys.setThreadArea.nr, -1,
    Sys.uname.nr, -1,
    Sys.write.nr, -1,
    Sys.writev.nr, -1,
    Sys.time.nr, -1,
    -1] ++ List.replicate 473 0

/-! ### Building the table -/

/-- `sizeof(int)` -/
def sizeofInt : ℕ := 4

/-- `memset(t, 0, bytes)` on a table of `int`s: the entries that lie below the given
number of bytes. -/
def memsetZero (t : SyscallLimits) (bytes : ℕ) : SyscallLimits :=
  fun i => if sizeofInt * (i + 1) ≤ bytes then 0 else t i

/-- `memcpy(dst, src, bytes)` on tables of `int`s. -/
def memcpy (dst src : SyscallLimits) (bytes : ℕ) : SyscallLimits :=
  fun i => if sizeofInt * (i + 1) ≤ bytes then src i else dst i

/-- The loop `for (int i = 0; RF_C[i] >= 0; i += 2)`, from the position whose tail is
the given list. -/
def fillLimits : List ℤ → SyscallLimits → SyscallLimits
  | nr :: lim :: rest, t =>
    if 0 ≤ nr then fillLimits rest fun i => if (i : ℤ) = nr then lim else t i else t
  | _, t => t

/-- `init_system_call_limits`. The static pointer is `none` before the first call;
`heap` is what `malloc` would hand out. -/
def initSystemCallLimits (sysCallInit : Option SyscallLimits) (heap : SyscallLimits)
    (rl : ResourceLimit) : ResourceLimit × Option SyscallLimits :=
  let cleared := memsetZero rl.syscallLimits (512 * sizeofInt)
  let block := match sysCallInit with
    | some block => block
    -- `512` bytes, where the block has `512` entries
    | none => fillLimits rfC (memsetZero heap 512)
  ({ rl with syscallLimits := memcpy cleared block (512 * sizeofInt) }, some block)

/-- The limits left by each of a sequence of calls. -/
def initCalls (heap : SyscallLimits) : Option SyscallLimits → List ResourceLimit →
    List ResourceLimit
  | _, [] => []
  | st, rl :: rls =>
    let (rl', st') := initSystemCallLimits st heap rl
    rl' :: initCalls heap st' rls

/-! ### The policy -/

/-- The pairs of a list like `RF_C`, up to its sentinel. -/
def listedPairs : List ℤ → List (ℤ × ℤ)
  | nr :: lim :: rest => if 0 ≤ nr then (nr, lim) :: listedPairs rest else []
  | _ => []

/-- The limit that `RF_C` lists for a number. -/
def listedLimit (i : Fin 512) : Option ℤ := (listedPairs rfC).lookup (i : ℤ)

/-- **The policy**: the listed limit for a listed number, and no call at all for any
other. -/
def policy : SyscallLimits := fun i => (listedLimit i).getD 0

/-- **Filling a table** writes the limit of every listed number and touches nothing
else, if no number is listed twice. -/
theorem fillLimits_apply : ∀ (l : List ℤ), ((listedPairs l).map Prod.fst).Nodup →
    ∀ (t : SyscallLimits) (i : Fin 512),
      fillLimits l t i = ((listedPairs l).lookup (i : ℤ)).getD (t i)
  | [], _, _, _ => rfl
  | [_], _, _, _ => rfl
  | nr :: lim :: rest, hnodup, t, i => by
    by_cases hnr : 0 ≤ nr
    · rw [listedPairs, if_pos hnr, List.map_cons, List.nodup_cons] at hnodup
      rw [fillLimits, if_pos hnr, fillLimits_apply rest hnodup.2, listedPairs, if_pos hnr,
        List.lookup_cons]
      by_cases hi : (i : ℤ) = nr
      · -- the pair itself: no later pair has this number
        have hlater : (listedPairs rest).lookup nr = none :=
          List.lookup_eq_none_iff.mpr fun p hp =>
            bne_iff_ne.mpr fun he => hnodup.1 (List.mem_map.mpr ⟨p, hp, he.symm⟩)
        rw [hi, hlater]
        simp
      · rw [if_neg hi, beq_false_of_ne hi]
    · rw [fillLimits, if_neg hnr, listedPairs, if_neg hnr]
      rfl

theorem nodup_listedPairs_rfC : ((listedPairs rfC).map Prod.fst).Nodup := by decide +kernel

/-- The block of the first call: listed numbers have their limits, the entries below
`128` are cleared, and the others hold what the heap held. -/
theorem fillLimits_rfC (heap : SyscallLimits) (i : Fin 512) :
    fillLimits rfC (memsetZero heap 512) i
      = (listedLimit i).getD (if (i : ℕ) < 128 then 0 else heap i) := by
  have hzero : memsetZero heap 512 i = if (i : ℕ) < 128 then 0 else heap i := by
    rw [memsetZero, sizeofInt]
    exact if_congr (by omega) rfl rfl
  rw [fillLimits_apply rfC nodup_listedPairs_rfC, hzero, listedLimit]

/-- A call copies the whole block into the limits. -/
theorem initSystemCallLimits_some (block heap : SyscallLimits) (rl : ResourceLimit) :
    initSystemCallLimits (some block) heap rl
      = ({ rl with syscallLimits := block }, some block) := by
  have hcopy : ∀ dst, memcpy dst block (512 * sizeofInt) = block := fun dst => by
    funext i
    have hi : sizeofInt * ((i : ℕ) + 1) ≤ 512 * sizeofInt := by
      rw [sizeofInt]
      omega
    rw [memcpy, if_pos hi]
  simp only [initSystemCallLimits, hcopy]

theorem initSystemCallLimits_none (heap : SyscallLimits) (rl : ResourceLimit) :
    initSystemCallLimits none heap rl
      = initSystemCallLimits (some (fillLimits rfC (memsetZero heap 512))) heap rl := rfl

/-- Every call after the first copies the block that the first one built. -/
theorem mem_initCalls_some {block heap : SyscallLimits} {rls : List ResourceLimit}
    {rl' : ResourceLimit} (h : rl' ∈ initCalls heap (some block) rls) :
    rl'.syscallLimits = block := by
  induction rls with
  | nil => cases h
  | cons rl rls ih =>
    simp only [initCalls, initSystemCallLimits_some, List.mem_cons] at h
    rcases h with rfl | h
    · rfl
    · exact ih h

/-- **When the policy is in force.** After the first call and after any number of
later ones the table is the policy exactly if every entry from `128` on that `RF_C`
does not list was zero in the block that `malloc` returned. -/
theorem initCalls_eq_policy_iff (heap : SyscallLimits) (rl : ResourceLimit)
    (rls : List ResourceLimit) :
    (∀ rl' ∈ initCalls heap none (rl :: rls), ∀ i, rl'.syscallLimits i = policy i) ↔
      ∀ i : Fin 512, 128 ≤ (i : ℕ) → listedLimit i = none → heap i = 0 := by
  have hfirst : initCalls heap none (rl :: rls)
      = initCalls heap (some (fillLimits rfC (memsetZero heap 512))) (rl :: rls) := rfl
  constructor
  · -- the first call copies the block, and an entry from `128` on is what the heap held
    intro h i hi hlisted
    have hhead : { rl with syscallLimits := fillLimits rfC (memsetZero heap 512) }
        ∈ initCalls heap none (rl :: rls) := by
      rw [hfirst, initCalls, initSystemCallLimits_some]
      exact List.mem_cons_self
    have hentry : fillLimits rfC (memsetZero heap 512) i = policy i := h _ hhead i
    rw [fillLimits_rfC, policy, hlisted, if_neg (by omega)] at hentry
    exact hentry
  · intro h rl' hrl' i
    rw [hfirst] at hrl'
    rw [mem_initCalls_some hrl', fillLimits_rfC, policy]
    cases hlisted : listedLimit i with
    | some lim => rfl
    | none =>
      by_cases hi : (i : ℕ) < 128
      · rw [if_pos hi]
      · rw [if_neg hi]
        exact h i (by omega) hlisted

/-- A block that the heap hands out full of `-1` leaves call `200`, which is not
listed, without any limit. -/
theorem initSystemCallLimits_dirty_block :
    listedLimit 200 = none ∧
      ((initSystemCallLimits none (fun _ => -1) {}).1).syscallLimits 200 = -1 := by
  decide +kernel

end NpuOj
