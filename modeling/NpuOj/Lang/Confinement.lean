import NpuOj.Lang.KernelLimits
import NpuOj.Lib.Credentials

/-!
# What the children have given up

Before it executes the program, the child that `LangC::launch` forks goes to the work directory,
makes it its root directory, becomes the user of the judge and sets its limits. It looks at none of
the answers, but for printing a message. The group ids are left as they are, and `rl_gid` is read by
nobody. The child that `compile` forks does the same for the compiler, but has no root directory
made.

`NpuOj.launchChild` is the child when it comes to `execl`. The program may then make what calls it
likes: `NpuOj.launchChild_confined_iff` says when it is the user of the judge in its work directory
all the same, with the limits, and for good. The daemon has to be the superuser's, which `main` sees
to, and the path has to lead to the work directory a second time: `chroot` is given the path that
`chdir` was given, from where `chdir` has led. For an absolute path this makes no difference; with a
relative one of names only there is no root directory (`NpuOj.resolve_chdir_of_relative`). The
compiler, for which `NpuOj.compileChild_confined_iff` says the same, sees all directories.

What a process may do with a descriptor that it has inherited is not in here, nor is what the parent
makes of the calls that it traces.
-/

namespace NpuOj

open Posix

/-! ### The calls of the child -/

/-- What `set_resource_limit` sets a limit on. -/
inductive RlimitResource
  | cpu
  | as
  | fsize
  deriving DecidableEq, Repr

/-- What is handed to `setrlimit` for a resource. -/
def KernelLimits.on (limits : KernelLimits) : RlimitResource → Option Rlimit
  | .cpu => limits.rlimitCpu
  | .as => limits.rlimitAs
  | .fsize => limits.rlimitFsize

/-- A path as it is written. -/
def pathOf (dir : String) : Pathname String where
  absolute := dir.toList.head? = some '/'
  steps := (dir.toList.splitOn '/').filterMap fun name =>
    if name = [] ∨ name = ['.'] then none
    else if name = ['.', '.'] then some .up
    else some (.down (String.ofList name))

/-- What the system answers to the child: whether the work directory can be entered at either call,
and whether the user may have one more process, which some systems make a condition for becoming
this user. -/
structure SetUpReply where
  chdir : Bool
  chroot : Bool
  setuid : Bool
  setresuid : Bool
  deriving DecidableEq, Repr

/-- A process with some authority. -/
abbrev NojProcess := Process String RlimitResource

/-- `chdir(rl.work_dir)`, and then `chroot(rl.work_dir)`. -/
def enterWorkDir (k : NojProcess) (rl : ResourceLimit) (reply : SetUpReply) : NojProcess :=
  match rl.workDir with
  | none => k
  | some dir => (k.call (.chdir (pathOf dir) reply.chdir)).call (.chroot (pathOf dir) reply.chroot)

/-- `(uid_t) -1`, which is nobody's id. -/
def noUid : ℕ := 2 ^ 32 - 1

/-- An id as the calls take it. -/
def uidArg (id : ℕ) : Option ℕ := if id = noUid then none else some id

/-- `setuid(rl.rl_uid)` -/
def setuidTo (k : NojProcess) (rl : ResourceLimit) (reply : SetUpReply) : NojProcess :=
  match uidArg rl.rlUid with
  | none => k
  | some id => if reply.setuid then k.call (.setuid id) else k

/-- `setuid(rl.rl_uid)`, and then `setresuid(rl.rl_uid, rl.rl_uid, rl.rl_uid)`. -/
def becomeUser (k : NojProcess) (rl : ResourceLimit) (reply : SetUpReply) : NojProcess :=
  let k := setuidTo k rl reply
  let id := uidArg rl.rlUid
  if reply.setresuid then k.call (.setresuid id id id) else k

/-- `setrlimit`, if it is called. -/
def setLimit (k : NojProcess) (r : RlimitResource) (lim : Option Rlimit) : NojProcess :=
  match lim with
  | none => k
  | some lim => k.call (.setrlimit r lim.rlimCur lim.rlimMax)

/-- The limits of the child: `set_resource_limit`, after the limit on files has been set. -/
def childLimits (pf : Platform) (rl : ResourceLimit) : KernelLimits :=
  setResourceLimit pf { rl with fileLimit := rl.fileLimit.setMB pf 5 }

/-- The calls of `setrlimit`, in their order. -/
def setLimits (k : NojProcess) (limits : KernelLimits) : NojProcess :=
  setLimit (setLimit (setLimit k .cpu limits.rlimitCpu) .as limits.rlimitAs)
    .fsize limits.rlimitFsize

/-- **The child of `launch`** when it comes to `execl`. -/
def launchChild (k : NojProcess) (pf : Platform) (rl : ResourceLimit) (reply : SetUpReply) :
    NojProcess :=
  setLimits (becomeUser (enterWorkDir k rl reply) rl reply) (childLimits pf rl)

/-- **The child of `compile`** when it comes to `execlp`: there is no `chroot` and no `setresuid`,
and the limit on files is the one that there is. -/
def compileChild (k : NojProcess) (pf : Platform) (rl : ResourceLimit) (reply : SetUpReply) :
    NojProcess :=
  let k := match rl.workDir with
    | none => k
    | some dir => k.call (.chdir (pathOf dir) reply.chdir)
  setLimits (setuidTo k rl reply) (setResourceLimit pf rl)

/-- The hard limits that are asked for. -/
def KernelLimits.askedFor (limits : KernelLimits) (r : RlimitResource) : Option ℕ :=
  (limits.on r).map Rlimit.rlimMax

/-! ### What it takes -/

/-- **The root directory is made**: `chroot` succeeds, and the path leads to the work directory
when it is called, which the working directory is not outside of. -/
structure MakesRoot (k : NojProcess) (p : Pathname String) (reply : SetUpReply) : Prop where
  chroot : reply.chroot = true
  again : (k.call (.chdir p reply.chdir)).resolve p = k.resolve p
  inside : k.resolve p <+: (k.call (.chdir p reply.chdir)).cwd

/-- **The limits are made**: no soft limit is above the hard one, or the hard limit of the daemon is
low enough. -/
def MakesLimits (k : NojProcess) (limits : KernelLimits) : Prop :=
  ∀ r, ∀ lim ∈ limits.on r, lim.rlimCur ≤ lim.rlimMax ∨ k.hard r ≤ lim.rlimMax

/-- An id that is a user's who is not the superuser. -/
structure Ordinary (id : ℕ) : Prop where
  ne_zero : id ≠ 0
  ne_noUid : id ≠ noUid

section Child

variable {k : NojProcess} {pf : Platform} {rl : ResourceLimit} {reply : SetUpReply} {dir : String}
  {p : Pathname String} {r r' : RlimitResource} {lim : Option Rlimit}

/-! ### The directories -/

/-- For a path of names, `chdir` leads away from where the path could be followed again. -/
theorem resolve_chdir_of_relative {names : List String} :
    (k.call (.chdir ⟨false, names.map .down⟩ true)).resolve ⟨false, names.map .down⟩
      = k.resolve ⟨false, names.map .down⟩ ↔ names = [] := by
  simp [Process.call, Process.resolve, walk_down]

/-- An absolute path leads to the same place from everywhere. -/
theorem resolve_chdir_of_absolute (hp : p.absolute = true) (ok : Bool) :
    (k.call (.chdir p ok)).resolve p = k.resolve p := by
  cases ok <;> simp [Process.call, Process.resolve, hp]

theorem enterWorkDir_eq (hdir : rl.workDir = some dir) :
    enterWorkDir k rl reply = (k.call (.chdir (pathOf dir) reply.chdir)).call
      (.chroot (pathOf dir) reply.chroot) := by
  rw [enterWorkDir, hdir]

/-- Of the process, only its directories change. -/
theorem enterWorkDir_dirs (k : NojProcess) (rl : ResourceLimit) (reply : SetUpReply) :
    ∃ root cwd, enterWorkDir k rl reply = { k with root, cwd } := by
  rw [enterWorkDir]
  split
  · exact ⟨k.root, k.cwd, rfl⟩
  · simp only [Process.call]
    split <;> split <;> exact ⟨_, _, rfl⟩

/-- **When the child is shut in.** -/
theorem enterWorkDir_shutIn_iff (reply : SetUpReply) (hdir : rl.workDir = some dir)
    (hroot : k.root = []) (hne : k.resolve (pathOf dir) ≠ []) :
    (k.resolve (pathOf dir) <+: (enterWorkDir k rl reply).root ∧
        (enterWorkDir k rl reply).root <+: (enterWorkDir k rl reply).cwd) ↔
      k.privileged = true ∧ MakesRoot k (pathOf dir) reply := by
  rw [enterWorkDir_eq hdir]
  generalize pathOf dir = p at *
  have hk₁ : (k.call (.chdir p reply.chdir)).root = [] ∧
      (k.call (.chdir p reply.chdir)).privileged = k.privileged := by
    cases reply.chdir <;> exact ⟨hroot, rfl⟩
  by_cases hchroot : k.privileged = true ∧ reply.chroot = true
  · -- the root directory is where the path leads now
    have henter : (k.call (.chdir p reply.chdir)).call (.chroot p reply.chroot)
        = { k.call (.chdir p reply.chdir) with
            root := (k.call (.chdir p reply.chdir)).resolve p } := by
      rw [show ∀ s : NojProcess, s.call (.chroot p reply.chroot)
        = if s.privileged ∧ reply.chroot then { s with root := s.resolve p } else s from
          fun _ => rfl, if_pos ⟨hk₁.2.trans hchroot.1, hchroot.2⟩]
    rw [henter]
    constructor
    · rintro ⟨hbelow, hcwd⟩
      refine ⟨hchroot.1, hchroot.2, ?_, hbelow.trans hcwd⟩
      cases hok : reply.chdir with
      | false => rfl
      | true =>
        -- the working directory is where the path led before
        rw [hok] at hbelow hcwd
        exact (hbelow.eq_of_length_le hcwd.length_le).symm
    · rintro ⟨-, -, hagain, hinside⟩
      rw [hagain]
      exact ⟨List.prefix_refl _, hinside⟩
  · have henter : (k.call (.chdir p reply.chdir)).call (.chroot p reply.chroot)
        = k.call (.chdir p reply.chdir) := by
      rw [show ∀ s : NojProcess, s.call (.chroot p reply.chroot)
        = if s.privileged ∧ reply.chroot then { s with root := s.resolve p } else s from
          fun _ => rfl, if_neg fun h => hchroot ⟨hk₁.2.symm.trans h.1, h.2⟩]
    rw [henter, hk₁.1]
    refine iff_of_false (fun h => hne (List.prefix_nil.mp h.1)) ?_
    rintro ⟨hpriv, hmakes⟩
    exact hchroot ⟨hpriv, hmakes.chroot⟩

/-! ### The user -/

/-- Of the process, only its user ids change. -/
theorem setuidTo_eq (k : NojProcess) (rl : ResourceLimit) (reply : SetUpReply) :
    ∃ uids, setuidTo k rl reply = { k with uids } := by
  rw [setuidTo]
  split
  · exact ⟨k.uids, rfl⟩
  · split
    · exact ⟨_, rfl⟩
    · exact ⟨k.uids, rfl⟩

theorem becomeUser_eq (k : NojProcess) (rl : ResourceLimit) (reply : SetUpReply) :
    ∃ uids, becomeUser k rl reply = { k with uids } := by
  obtain ⟨uids, huids⟩ := setuidTo_eq k rl reply
  rw [becomeUser, huids]
  split
  · exact ⟨_, rfl⟩
  · exact ⟨uids, rfl⟩

/-- The superuser is somebody else. -/
theorem uids_ne_all {id : ℕ} (hpriv : k.privileged = true) (hne : id ≠ 0) :
    k.uids ≠ Ids.all id := by
  intro h
  have hzero : k.uids.effective = 0 := of_decide_eq_true hpriv
  rw [h] at hzero
  exact hne hzero

/-- The superuser becomes the user, if the call succeeds. -/
theorem setuidTo_uids (rl : ResourceLimit) (reply : SetUpReply) (hpriv : k.privileged = true) :
    (setuidTo k rl reply).uids =
      if rl.rlUid ≠ noUid ∧ reply.setuid = true then Ids.all rl.rlUid else k.uids := by
  rw [setuidTo, uidArg]
  by_cases hid : rl.rlUid = noUid
  · simp [hid]
  · cases reply.setuid <;> simp [hid, Process.call, hpriv, Ids.set]

/-- The superuser becomes the user by either call, and then the other one changes nothing. -/
theorem becomeUser_uids (rl : ResourceLimit) (reply : SetUpReply) (hpriv : k.privileged = true) :
    (becomeUser k rl reply).uids =
      if rl.rlUid ≠ noUid ∧ (reply.setuid = true ∨ reply.setresuid = true) then Ids.all rl.rlUid
      else k.uids := by
  have hset := setuidTo_uids rl reply hpriv
  rw [becomeUser, uidArg]
  by_cases hid : rl.rlUid = noUid
  · rw [if_neg fun h => h.1 hid] at hset
    cases reply.setresuid <;> simp [hid, Process.call, Ids.setres, hset]
  · -- `setresuid` does not fail for the superuser, nor for the user
    have hsetres : ∀ s : NojProcess, s.privileged = true ∨ s.uids = Ids.all rl.rlUid →
        (s.call (.setresuid (some rl.rlUid) (some rl.rlUid) (some rl.rlUid))).uids
          = Ids.all rl.rlUid := by
      rintro s (hs | hs)
      · simp [Process.call, hs, Ids.setres, Ids.all]
      · simp [Process.call, hs, Ids.setres, Ids.all]
    cases hone : reply.setuid with
    | false =>
      rw [if_neg fun h => Bool.false_ne_true (hone.symm.trans h.2)] at hset
      have hstill : (setuidTo k rl reply).privileged = true := by
        rwa [Process.privileged, hset]
      cases reply.setresuid
      · simpa [hid] using hset
      · simpa [hid] using hsetres _ (Or.inl hstill)
    | true =>
      rw [if_pos ⟨hid, hone⟩] at hset
      cases reply.setresuid
      · simpa [hid] using hset
      · simpa [hid] using hsetres _ (Or.inr hset)

/-- **Who has become an ordinary user**: the child of a superuser, if the calls are for one and one
of them has succeeded. -/
theorem uids_eq_all_iff {s : NojProcess} {id : ℕ} {called : Prop} [Decidable called]
    (hpriv : k.privileged = true)
    (huids : s.uids = if id ≠ noUid ∧ called then Ids.all id else k.uids) :
    s.uids = Ids.all id ∧ id ≠ 0 ↔ Ordinary id ∧ called := by
  constructor
  · rintro ⟨hall, hzero⟩
    by_cases htaken : id ≠ noUid ∧ called
    · exact ⟨⟨hzero, htaken.1⟩, htaken.2⟩
    · rw [if_neg htaken] at huids
      exact absurd (huids.symm.trans hall) (uids_ne_all hpriv hzero)
  · rintro ⟨hid, hcalled⟩
    rw [if_pos ⟨hid.ne_noUid, hcalled⟩] at huids
    exact ⟨huids, hid.ne_zero⟩

/-! ### The limits -/

/-- Of the process, only its limits change. -/
theorem setLimit_eq (k : NojProcess) (r : RlimitResource) (lim : Option Rlimit) :
    ∃ hard, setLimit k r lim = { k with hard } := by
  cases lim with
  | none => exact ⟨k.hard, rfl⟩
  | some lim =>
    simp only [setLimit, Process.call]
    split
    · exact ⟨_, rfl⟩
    · exact ⟨k.hard, rfl⟩

theorem setLimits_eq (k : NojProcess) (limits : KernelLimits) :
    ∃ hard, setLimits k limits = { k with hard } := by
  obtain ⟨hard₁, h₁⟩ := setLimit_eq k .cpu limits.rlimitCpu
  obtain ⟨hard₂, h₂⟩ := setLimit_eq { k with hard := hard₁ } .as limits.rlimitAs
  obtain ⟨hard₃, h₃⟩ := setLimit_eq { k with hard := hard₂ } .fsize limits.rlimitFsize
  exact ⟨hard₃, by rw [setLimits, h₁, h₂, h₃]⟩

theorem setLimit_hard_of_ne (hne : r' ≠ r) : (setLimit k r lim).hard r' = k.hard r' := by
  cases lim with
  | none => rfl
  | some lim =>
    simp only [setLimit, Process.call]
    split
    · exact Function.update_of_ne hne _ _
    · rfl

/-- What becomes of a limit is a matter of the privilege and of the limit before. -/
theorem setLimit_hard_congr {k' : NojProcess} (hpriv : k.privileged = k'.privileged)
    (hhard : k.hard r = k'.hard r) : (setLimit k r lim).hard r = (setLimit k' r lim).hard r := by
  cases lim with
  | none => exact hhard
  | some lim =>
    simp only [setLimit, Process.call, hpriv, hhard]
    split
    · simp
    · exact hhard

theorem setLimit_privileged : (setLimit k r lim).privileged = k.privileged := by
  obtain ⟨hard, hhard⟩ := setLimit_eq k r lim
  rw [hhard]
  rfl

/-- **A limit that is asked for** without privilege is in force, or a lower one is, or it is not one
that the system takes. -/
theorem setLimit_hard_le_iff (r : RlimitResource) (lim : Rlimit) (hpriv : k.privileged = false) :
    (setLimit k r (some lim)).hard r ≤ lim.rlimMax ↔
      lim.rlimCur ≤ lim.rlimMax ∨ k.hard r ≤ lim.rlimMax := by
  simp only [setLimit, Process.call, hpriv, Bool.false_eq_true, false_or]
  split
  · next htaken =>
    simp [htaken.1]
  · next hnot =>
    refine ⟨Or.inr, fun h => h.elim (fun hcur => ?_) id⟩
    exact le_of_lt (not_le.mp fun hle => hnot ⟨hcur, hle⟩)

/-- The limits do not disturb each other. -/
theorem setLimits_hard (limits : KernelLimits) (r : RlimitResource) :
    (setLimits k limits).hard r = (setLimit k r (limits.on r)).hard r := by
  cases r with
  | cpu =>
    rw [setLimits, setLimit_hard_of_ne (by decide), setLimit_hard_of_ne (by decide)]
    rfl
  | as =>
    rw [setLimits, setLimit_hard_of_ne (by decide)]
    exact setLimit_hard_congr setLimit_privileged (setLimit_hard_of_ne (by decide))
  | fsize =>
    refine setLimit_hard_congr (setLimit_privileged.trans setLimit_privileged) ?_
    rw [setLimit_hard_of_ne (by decide), setLimit_hard_of_ne (by decide)]

theorem setLimits_hard_le_iff {limits : KernelLimits} (hpriv : k.privileged = false) :
    (∀ r, ∀ max ∈ limits.askedFor r, (setLimits k limits).hard r ≤ max) ↔
      MakesLimits k limits := by
  refine forall_congr' fun r => ?_
  rw [setLimits_hard, KernelLimits.askedFor]
  cases limits.on r with
  | none => simp
  | some lim => simpa using setLimit_hard_le_iff r lim hpriv

/-! ### The child of `launch` -/

/-- What the calls leave of the child. -/
theorem launchChild_eq (k : NojProcess) (pf : Platform) (rl : ResourceLimit)
    (reply : SetUpReply) : ∃ hard, launchChild k pf rl reply =
      { enterWorkDir k rl reply with uids := (becomeUser (enterWorkDir k rl reply) rl reply).uids,
                                     hard } := by
  obtain ⟨uids, huids⟩ := becomeUser_eq (enterWorkDir k rl reply) rl reply
  obtain ⟨hard, hhard⟩ := setLimits_eq (becomeUser (enterWorkDir k rl reply) rl reply)
    (childLimits pf rl)
  exact ⟨hard, by rw [launchChild, hhard, huids]⟩

theorem launchChild_uids (pf : Platform) (rl : ResourceLimit) (reply : SetUpReply)
    (hpriv : k.privileged = true) : (launchChild k pf rl reply).uids =
      if rl.rlUid ≠ noUid ∧ (reply.setuid = true ∨ reply.setresuid = true) then Ids.all rl.rlUid
      else k.uids := by
  obtain ⟨root, cwd, hdirs⟩ := enterWorkDir_dirs k rl reply
  obtain ⟨hard, hchild⟩ := launchChild_eq k pf rl reply
  rw [hchild, hdirs]
  exact becomeUser_uids rl reply hpriv

theorem launchChild_hard_le_iff (huids : (launchChild k pf rl reply).uids = Ids.all rl.rlUid)
    (hne : rl.rlUid ≠ 0) :
    (∀ r, ∀ max ∈ (childLimits pf rl).askedFor r, (launchChild k pf rl reply).hard r ≤ max) ↔
      MakesLimits k (childLimits pf rl) := by
  obtain ⟨root, cwd, hdirs⟩ := enterWorkDir_dirs k rl reply
  obtain ⟨uids, huser⟩ := becomeUser_eq (enterWorkDir k rl reply) rl reply
  have hstill : (launchChild k pf rl reply).uids
      = (becomeUser (enterWorkDir k rl reply) rl reply).uids := by
    obtain ⟨hard, hhard⟩ := launchChild_eq k pf rl reply
    rw [hhard]
  rw [launchChild, setLimits_hard_le_iff (Process.not_privileged (hstill.symm.trans huids) hne),
    huser, hdirs]
  rfl

/-- **What the child has given up** when it comes to `execl`. -/
theorem launchChild_confined (hdir : rl.workDir = some dir) (hroot : k.root = [])
    (hne : k.resolve (pathOf dir) ≠ []) :
    (launchChild k pf rl reply).Confined rl.rlUid (k.resolve (pathOf dir))
        (childLimits pf rl).askedFor ↔
      k.privileged = true ∧ Ordinary rl.rlUid ∧
        (reply.setuid = true ∨ reply.setresuid = true) ∧
        MakesRoot k (pathOf dir) reply ∧ MakesLimits k (childLimits pf rl) := by
  have hshut := enterWorkDir_shutIn_iff reply hdir hroot hne
  obtain ⟨hard, hchild⟩ := launchChild_eq k pf rl reply
  constructor
  · rintro ⟨hall, hzero, hbelow, hcwd, hhard⟩
    have hlimits := (launchChild_hard_le_iff hall hzero).mp hhard
    rw [hchild] at hbelow hcwd
    obtain ⟨hpriv, hmakes⟩ := hshut.mp ⟨hbelow, hcwd⟩
    obtain ⟨hid, hcalled⟩ :=
      (uids_eq_all_iff hpriv (launchChild_uids pf rl reply hpriv)).mp ⟨hall, hzero⟩
    exact ⟨hpriv, hid, hcalled, hmakes, hlimits⟩
  · rintro ⟨hpriv, hid, hcalled, hmakes, hlimits⟩
    obtain ⟨hall, hzero⟩ :=
      (uids_eq_all_iff hpriv (launchChild_uids pf rl reply hpriv)).mpr ⟨hid, hcalled⟩
    obtain ⟨hbelow, hcwd⟩ := hshut.mpr ⟨hpriv, hmakes⟩
    refine ⟨hall, hzero, ?_, ?_, (launchChild_hard_le_iff hall hzero).mpr hlimits⟩
    · rwa [hchild]
    · rwa [hchild]

/-- The calls are not about the groups. -/
theorem launchChild_groups :
    (launchChild k pf rl reply).groups = k.groups ∧ (launchChild k pf rl reply).gids = k.gids := by
  obtain ⟨root, cwd, hdirs⟩ := enterWorkDir_dirs k rl reply
  obtain ⟨hard, hchild⟩ := launchChild_eq k pf rl reply
  rw [hchild, hdirs]
  exact ⟨rfl, rfl⟩

/-! ### The child of `compile` -/

theorem compileChild_eq (k : NojProcess) (pf : Platform) (rl : ResourceLimit)
    (reply : SetUpReply) : ∃ cwd, compileChild k pf rl reply =
      setLimits { k with uids := (setuidTo { k with cwd } rl reply).uids, cwd }
        (setResourceLimit pf rl) := by
  obtain ⟨cwd, hcwd⟩ : ∃ cwd, compileChild k pf rl reply =
      setLimits (setuidTo { k with cwd } rl reply) (setResourceLimit pf rl) := by
    rw [compileChild]
    split
    · exact ⟨k.cwd, rfl⟩
    · simp only [Process.call]
      split <;> exact ⟨_, rfl⟩
  obtain ⟨uids, huids⟩ := setuidTo_eq { k with cwd } rl reply
  exact ⟨cwd, by rw [hcwd, huids]⟩

theorem compileChild_uids (pf : Platform) (rl : ResourceLimit) (reply : SetUpReply)
    (hpriv : k.privileged = true) : (compileChild k pf rl reply).uids =
      if rl.rlUid ≠ noUid ∧ reply.setuid = true then Ids.all rl.rlUid else k.uids := by
  obtain ⟨cwd, hchild⟩ := compileChild_eq k pf rl reply
  rw [hchild]
  obtain ⟨hard, hhard⟩ := setLimits_eq
    { k with uids := (setuidTo { k with cwd } rl reply).uids, cwd } (setResourceLimit pf rl)
  rw [hhard]
  exact setuidTo_uids rl reply hpriv

/-- The calls are not about the groups, nor about the root directory. -/
theorem compileChild_rest : (compileChild k pf rl reply).root = k.root ∧
    (compileChild k pf rl reply).groups = k.groups ∧
    (compileChild k pf rl reply).gids = k.gids := by
  obtain ⟨cwd, hchild⟩ := compileChild_eq k pf rl reply
  rw [hchild]
  obtain ⟨hard, hhard⟩ := setLimits_eq
    { k with uids := (setuidTo { k with cwd } rl reply).uids, cwd } (setResourceLimit pf rl)
  rw [hhard]
  exact ⟨rfl, rfl, rfl⟩

/-- **What the compiler has given up**: no directory but the top one. -/
theorem compileChild_confined {dir : List String} (hroot : k.root = [])
    (hpriv : k.privileged = true) :
    (compileChild k pf rl reply).Confined rl.rlUid dir (setResourceLimit pf rl).askedFor ↔
      dir = [] ∧ Ordinary rl.rlUid ∧ reply.setuid = true ∧
        MakesLimits k (setResourceLimit pf rl) := by
  have hordinary := uids_eq_all_iff hpriv (compileChild_uids pf rl reply hpriv)
  obtain ⟨cwd, hchild⟩ := compileChild_eq k pf rl reply
  generalize hs : { k with uids := (setuidTo { k with cwd } rl reply).uids, cwd } = s at hchild
  obtain ⟨hard, hhard⟩ := setLimits_eq s (setResourceLimit pf rl)
  have hchildRoot : (compileChild k pf rl reply).root = [] := compileChild_rest.1.trans hroot
  have hlimits : (compileChild k pf rl reply).uids = Ids.all rl.rlUid → rl.rlUid ≠ 0 →
      ((∀ r, ∀ max ∈ (setResourceLimit pf rl).askedFor r,
        (compileChild k pf rl reply).hard r ≤ max) ↔ MakesLimits k (setResourceLimit pf rl)) := by
    intro hall hzero
    rw [hchild, hhard] at hall
    change s.uids = Ids.all rl.rlUid at hall
    rw [hchild, setLimits_hard_le_iff (Process.not_privileged hall hzero), ← hs]
    rfl
  constructor
  · rintro ⟨hall, hzero, hbelow, -, hle⟩
    rw [hchildRoot] at hbelow
    obtain ⟨hid, hcalled⟩ := hordinary.mp ⟨hall, hzero⟩
    exact ⟨List.prefix_nil.mp hbelow, hid, hcalled, (hlimits hall hzero).mp hle⟩
  · rintro ⟨rfl, hid, hcalled, hmakes⟩
    obtain ⟨hall, hzero⟩ := hordinary.mpr ⟨hid, hcalled⟩
    refine ⟨hall, hzero, List.nil_prefix, ?_, (hlimits hall hzero).mpr hmakes⟩
    rw [hchildRoot]
    exact List.nil_prefix

/-! ### The groups of both -/

/-- A child keeps the groups for good if it has become somebody else, and only then. -/
theorem keepsGroups_iff {s : NojProcess} {called : Prop} [Decidable called] {id : ℕ}
    (hpriv : k.privileged = true)
    (huids : s.uids = if id ≠ noUid ∧ called then Ids.all id else k.uids) :
    s.KeepsGroups ↔ Ordinary id ∧ called := by
  rw [← uids_eq_all_iff hpriv huids]
  constructor
  · intro hkeeps
    have hnot : s.privileged ≠ true := fun h => Process.not_keepsGroups h hkeeps
    -- whoever is not the user is the superuser still
    by_cases htaken : id ≠ noUid ∧ called
    · rw [if_pos htaken] at huids
      refine ⟨huids, ?_⟩
      rintro rfl
      exact hnot (by rw [Process.privileged, huids]; rfl)
    · rw [if_neg htaken] at huids
      exact absurd (by rwa [Process.privileged, huids]) hnot
  · rintro ⟨hall, hzero⟩
    exact Process.keepsGroups_of_uids hall hzero

end Child

/-! ### The program -/

/-- **When the program is confined**: whatever calls it makes, as long as it executes no file that
changes its user, it remains the user of the judge, sees nothing but the work directory and has the
limits, exactly if the daemon is the superuser's and the user of the judge is not the superuser, one
of the two calls makes the child this user, the root directory is made, and the limits are. -/
theorem launchChild_confined_iff (k : NojProcess) (pf : Platform) (rl : ResourceLimit)
    (reply : SetUpReply) {dir : String} (hdir : rl.workDir = some dir) (hroot : k.root = [])
    (hne : k.resolve (pathOf dir) ≠ []) :
    (∀ cs, (∀ c ∈ cs, c.Plain) → ((launchChild k pf rl reply).callAll cs).HoldsTo rl.rlUid
        (k.resolve (pathOf dir)) (childLimits pf rl).askedFor) ↔
      k.privileged = true ∧ Ordinary rl.rlUid ∧
        (reply.setuid = true ∨ reply.setresuid = true) ∧
        MakesRoot k (pathOf dir) reply ∧ MakesLimits k (childLimits pf rl) :=
  (Process.holdsTo_forever_iff (Or.inl hne)).trans (launchChild_confined hdir hroot hne)

/-- A daemon of the superuser in its directory. -/
def nojDaemon : NojProcess where
  uids := Ids.all 0
  gids := Ids.all 0
  groups := [0]
  root := []
  cwd := ["usr", "local", "noj"]
  hard _ := ⊤

/-- All calls of a child succeed. -/
def allEntered : SetUpReply := ⟨true, true, true, true⟩

/-- The limits of a problem with a second and 64 MB, for a work directory. -/
def secondLimits (dir : String) : ResourceLimit :=
  { memoryLimit := ⟨67108864, true⟩, singleTimeLimit := ⟨1000, true⟩, workDir := some dir,
    rlUid := 1001 }

theorem ordinary_secondLimits (dir : String) : Ordinary (secondLimits dir).rlUid :=
  ⟨show (1001 : ℕ) ≠ 0 by decide, show (1001 : ℕ) ≠ noUid by decide⟩

theorem makesLimits_secondLimits (dir : String) :
    MakesLimits nojDaemon (childLimits lp64 (secondLimits dir)) := by
  rintro r lim hlim
  cases r with
  | cpu =>
    obtain rfl := Option.some.inj hlim
    exact Or.inl (show (2 : ℕ) ≤ 2 from le_rfl)
  | as | fsize =>
    obtain rfl := Option.some.inj hlim
    exact Or.inl le_rfl

/-- **A work directory by a relative path**: `chroot` does not find it where `chdir` has led. -/
theorem launchChild_confined_iff_relative :
    (∀ cs, (∀ c ∈ cs, c.Plain) →
      ((launchChild nojDaemon lp64 (secondLimits "/usr/local/noj/judge0") allEntered).callAll
        cs).HoldsTo 1001 ["usr", "local", "noj", "judge0"]
          (childLimits lp64 (secondLimits "/usr/local/noj/judge0")).askedFor) ∧
    ¬∀ cs, (∀ c ∈ cs, c.Plain) →
      ((launchChild nojDaemon lp64 (secondLimits "judge0") ⟨true, false, true, true⟩).callAll
        cs).HoldsTo 1001 ["usr", "local", "noj", "judge0"]
          (childLimits lp64 (secondLimits "judge0")).askedFor := by
  constructor
  · exact (launchChild_confined_iff nojDaemon lp64 (secondLimits "/usr/local/noj/judge0")
      allEntered rfl rfl (by decide)).mpr ⟨rfl, ordinary_secondLimits _, Or.inl rfl,
        ⟨rfl, by decide, by decide⟩, makesLimits_secondLimits _⟩
  · intro h
    obtain ⟨-, -, -, hmakes, -⟩ := (launchChild_confined_iff nojDaemon lp64
      (secondLimits "judge0") ⟨true, false, true, true⟩ rfl rfl (by decide)).mp h
    exact absurd hmakes.chroot (by decide)

/-- **When the compiler is confined**: where it is, it has the limits and is the user of the judge
for good, but it sees all directories. -/
theorem compileChild_confined_iff (k : NojProcess) (pf : Platform) (rl : ResourceLimit)
    (reply : SetUpReply) (dir : List String) (hroot : k.root = [])
    (hpriv : k.privileged = true) :
    (∀ cs, (∀ c ∈ cs, c.Plain) → ((compileChild k pf rl reply).callAll cs).HoldsTo rl.rlUid dir
        (setResourceLimit pf rl).askedFor) ↔
      dir = [] ∧ Ordinary rl.rlUid ∧ reply.setuid = true ∧
        MakesLimits k (setResourceLimit pf rl) :=
  (Process.holdsTo_forever_iff (Or.inr (compileChild_rest.1.trans hroot))).trans
    (compileChild_confined hroot hpriv)

/-- **The compiler of a submission**, with all calls successful, is confined, but not to its work
directory. -/
theorem compileChild_confined_iff_judge :
    (∀ cs, (∀ c ∈ cs, c.Plain) →
      ((compileChild nojDaemon lp64 (secondLimits "/usr/local/noj/judge0") allEntered).callAll
        cs).HoldsTo 1001 []
          (setResourceLimit lp64 (secondLimits "/usr/local/noj/judge0")).askedFor) ∧
    ¬∀ cs, (∀ c ∈ cs, c.Plain) →
      ((compileChild nojDaemon lp64 (secondLimits "/usr/local/noj/judge0") allEntered).callAll
        cs).HoldsTo 1001 ["usr", "local", "noj", "judge0"]
          (setResourceLimit lp64 (secondLimits "/usr/local/noj/judge0")).askedFor := by
  constructor
  · refine (compileChild_confined_iff nojDaemon lp64 (secondLimits "/usr/local/noj/judge0")
      allEntered [] rfl rfl).mpr ⟨rfl, ordinary_secondLimits _, rfl, ?_⟩
    rintro (_ | _ | _) lim hlim
    · obtain rfl := Option.some.inj hlim
      exact Or.inl (show (2 : ℕ) ≤ 2 from le_rfl)
    · obtain rfl := Option.some.inj hlim
      exact Or.inl le_rfl
    · exact absurd hlim (by simp [KernelLimits.on, setResourceLimit, secondLimits])
  · intro h
    exact absurd ((compileChild_confined_iff nojDaemon lp64
      (secondLimits "/usr/local/noj/judge0") allEntered ["usr", "local", "noj", "judge0"] rfl
        rfl).mp h).1 (by decide)

/-- **The groups of both children**: a child of the superuser's daemon has the groups of the daemon,
the superuser's among them, for good, exactly if it has become somebody else: as long as it executes
no file that changes its user or its group. `rl_gid` plays no role. -/
theorem children_keepGroups_iff (k : NojProcess) (pf : Platform) (rl : ResourceLimit)
    (reply : SetUpReply) (hpriv : k.privileged = true) :
    ((launchChild k pf rl reply).groups = k.groups ∧ (launchChild k pf rl reply).gids = k.gids ∧
        ((launchChild k pf rl reply).KeepsGroups ↔
          Ordinary rl.rlUid ∧ (reply.setuid = true ∨ reply.setresuid = true))) ∧
      (compileChild k pf rl reply).groups = k.groups ∧
        (compileChild k pf rl reply).gids = k.gids ∧
        ((compileChild k pf rl reply).KeepsGroups ↔
          Ordinary rl.rlUid ∧ reply.setuid = true) := by
  refine ⟨⟨launchChild_groups.1, launchChild_groups.2, ?_⟩,
    compileChild_rest.2.1, compileChild_rest.2.2, ?_⟩
  · exact keepsGroups_iff hpriv (launchChild_uids pf rl reply hpriv)
  · exact keepsGroups_iff hpriv (compileChild_uids pf rl reply hpriv)

/-- **The program runs in the group of the superuser**, and cannot leave it. -/
theorem children_keepGroups_iff_superuser :
    let s := (launchChild nojDaemon lp64 (secondLimits "/usr/local/noj/judge0") allEntered).callAll
      [.setgroups [], .setgid 1001]
    s.groups = [0] ∧ ∀ gid, s.gids.Has gid → gid = 0 := by
  obtain ⟨⟨hgroups, hgids, hkeeps⟩, -⟩ := children_keepGroups_iff nojDaemon lp64
    (secondLimits "/usr/local/noj/judge0") allEntered rfl
  obtain ⟨hstill, hnone⟩ := hkeeps.mpr ⟨ordinary_secondLimits _, Or.inl rfl⟩
    [.setgroups [], .setgid 1001] (by simp [AuthCall.PlainGroup])
  refine ⟨hstill.trans hgroups, fun gid hgid => ?_⟩
  have hhas := hnone gid hgid
  rw [hgids] at hhas
  exact Ids.has_all_iff.mp hhas

end NpuOj
