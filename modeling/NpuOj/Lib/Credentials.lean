import Mathlib.Algebra.Order.Monoid.Unbundled.WithTop
import Mathlib.Data.List.Infix
import Mathlib.Data.Nat.Notation

/-!
# What a process may do, and how it gives this up

A process has user and group ids, a root directory and a working directory, and hard limits on
resources. With an effective user id of zero it may change all of them; without, it may go between
the ids that it has, change its working directory and lower its limits, and no more.

So what a process gives up is gone for good, if it gives up enough. `Process.seesOnly_iff` says when
all paths that a process can name lie below a directory: this takes a root directory below it and a
working directory below the root, since a `..` stops at the root only if it comes by.
`Process.Confined` collects what a process has given up, and `Process.Confined.callAll` says that
this is for ever, whatever calls it makes, as long as it executes no file that changes its user.
What it keeps of its groups is lost as well by a file that changes the group.

Symbolic links are left out: a link leads to another path of the same process.
-/

/-! ### Ids -/

/-- The three ids of a process. -/
structure Ids where
  real : ℕ
  effective : ℕ
  saved : ℕ
  deriving DecidableEq, Repr

namespace Ids

variable {ids : Ids} {id id' : ℕ} {r e s : Option ℕ}

def all (id : ℕ) : Ids := ⟨id, id, id⟩

def Has (ids : Ids) (id : ℕ) : Prop := id = ids.real ∨ id = ids.effective ∨ id = ids.saved

instance : Decidable (ids.Has id) := inferInstanceAs (Decidable (_ ∨ _))

/-- `setuid` or `setgid`, which changes nothing where it fails. -/
def set (privileged : Bool) (ids : Ids) (id : ℕ) : Ids :=
  if privileged then all id
  else if id = ids.real ∨ id = ids.saved then { ids with effective := id }
  else ids

/-- `setresuid` or `setresgid`; `none` is an id that is to be left alone. -/
def setres (privileged : Bool) (ids : Ids) (r e s : Option ℕ) : Ids :=
  if privileged ∨ ((∀ id ∈ r, ids.Has id) ∧ (∀ id ∈ e, ids.Has id) ∧ ∀ id ∈ s, ids.Has id) then
    ⟨r.getD ids.real, e.getD ids.effective, s.getD ids.saved⟩
  else ids

theorem has_all_iff : (all id).Has id' ↔ id' = id := by
  simp [all, Has]

/-- Without privilege no id is gained. -/
theorem has_of_has_set (h : (ids.set false id).Has id') : ids.Has id' := by
  rw [set, if_neg Bool.false_ne_true] at h
  split at h
  · next hid =>
    rcases h with h | h | h
    · exact Or.inl h
    · exact h ▸ hid.imp_right Or.inr
    · exact Or.inr (Or.inr h)
  · exact h

theorem has_of_has_setres (h : (ids.setres false r e s).Has id') : ids.Has id' := by
  rw [setres] at h
  split at h
  · next hgiven =>
    obtain ⟨hr, he, hs⟩ := hgiven.resolve_left Bool.false_ne_true
    have hone : ∀ {o : Option ℕ} {old : ℕ}, (∀ id ∈ o, ids.Has id) → ids.Has old →
        ids.Has (o.getD old) := by
      rintro (_ | id) old ho hold
      · exact hold
      · exact ho id rfl
    rcases h with h | h | h
    · exact h ▸ hone hr (Or.inl rfl)
    · exact h ▸ hone he (Or.inr (Or.inl rfl))
    · exact h ▸ hone hs (Or.inr (Or.inr rfl))
  · exact h

/-- Whoever has one id has it thrice. -/
theorem eq_all_of_has (h : ∀ id', ids.Has id' → id' = id) : ids = all id := by
  obtain ⟨real, effective, saved⟩ := ids
  simp only [all, Ids.mk.injEq]
  exact ⟨h _ (Or.inl rfl), h _ (Or.inr (Or.inl rfl)), h _ (Or.inr (Or.inr rfl))⟩

end Ids

/-! ### Paths -/

/-- A component of a path. -/
inductive PathStep (κ : Type*)
  /-- `..` -/
  | up
  | down (name : κ)
  deriving DecidableEq, Repr

/-- A path. -/
structure Pathname (κ : Type*) where
  absolute : Bool
  steps : List (PathStep κ)
  deriving DecidableEq, Repr

section Walk

variable {κ : Type*} [DecidableEq κ] {root cur : List κ} {steps steps' : List (PathStep κ)}

/-- The directory that some components lead to. From the root `..` leads nowhere. -/
def walk (root : List κ) : List κ → List (PathStep κ) → List κ
  | cur, [] => cur
  | cur, .up :: steps => walk root (if cur = root then cur else cur.dropLast) steps
  | cur, .down name :: steps => walk root (cur ++ [name]) steps

omit [DecidableEq κ] in
/-- A directory strictly below another one has its parent there. -/
theorem prefix_dropLast (h : root <+: cur) (hne : root ≠ cur) : root <+: cur.dropLast := by
  induction cur using List.reverseRecOn with
  | nil => exact absurd (List.prefix_nil.mp h) hne
  | append_singleton cur name =>
    rw [List.dropLast_concat]
    exact (List.prefix_concat_iff.mp h).resolve_left hne

/-- **Below the root**, every walk stays there. -/
theorem prefix_walk (h : root <+: cur) (steps : List (PathStep κ)) :
    root <+: walk root cur steps := by
  induction steps generalizing cur with
  | nil => exact h
  | cons step steps ih =>
    cases step with
    | down name => exact ih (h.trans (List.prefix_append cur [name]))
    | up =>
      refine ih ?_
      split
      · exact h
      · next hne => exact prefix_dropLast h (Ne.symm hne)

/-- **Past the root** there is a walk to the top. -/
theorem exists_walk_eq_nil (h : ¬root <+: cur) : ∃ steps, walk root cur steps = [] := by
  induction cur using List.reverseRecOn with
  | nil => exact ⟨[], rfl⟩
  | append_singleton cur name ih =>
    have hne : cur ++ [name] ≠ root := by
      rintro rfl
      exact h (List.prefix_refl _)
    obtain ⟨steps, hsteps⟩ := ih fun hcur => h (hcur.trans (List.prefix_append cur [name]))
    refine ⟨.up :: steps, ?_⟩
    rw [walk, if_neg hne, List.dropLast_concat, hsteps]

theorem walk_down (root cur names : List κ) :
    walk root cur (names.map PathStep.down) = cur ++ names := by
  induction names generalizing cur with
  | nil => simp [walk]
  | cons name names ih => simp [walk, ih]

end Walk

/-! ### Processes -/

/-- What a process may do: with the names `κ` of files and the resources `ρ`. -/
structure Process (κ ρ : Type*) where
  uids : Ids
  gids : Ids
  groups : List ℕ
  root : List κ
  cwd : List κ
  /-- The hard limits. -/
  hard : ρ → WithTop ℕ

/-- A call that has to do with what a process may do. The calls on directories come with the
answer whether there is such a directory that may be entered. -/
inductive AuthCall (κ ρ : Type*)
  | setuid (id : ℕ)
  | setresuid (r e s : Option ℕ)
  | setgid (id : ℕ)
  | setresgid (r e s : Option ℕ)
  | setgroups (groups : List ℕ)
  | chdir (p : Pathname κ) (ok : Bool)
  | chroot (p : Pathname κ) (ok : Bool)
  | setrlimit (r : ρ) (cur max : ℕ)
  /-- A file is executed, with its owner if it has a set-user-ID bit, and with its group if it has
  a set-group-ID bit. -/
  | exec (owner group : Option ℕ)

/-- The call executes no file that changes the user. -/
def AuthCall.Plain {κ ρ : Type*} : AuthCall κ ρ → Prop
  | .exec owner _ => owner = none
  | _ => True

/-- Nor one that changes the group. -/
def AuthCall.PlainGroup {κ ρ : Type*} : AuthCall κ ρ → Prop
  | .exec owner group => owner = none ∧ group = none
  | _ => True

theorem AuthCall.PlainGroup.plain {κ ρ : Type*} {c : AuthCall κ ρ} (h : c.PlainGroup) :
    c.Plain := by
  cases c with
  | exec owner group => exact h.1
  | _ => trivial

namespace Process

variable {κ ρ : Type*} [DecidableEq κ] [DecidableEq ρ] {s : Process κ ρ} {c : AuthCall κ ρ}
  {cs : List (AuthCall κ ρ)} {dir : List κ} {id : ℕ} {limit : ρ → Option ℕ}

omit [DecidableEq κ] [DecidableEq ρ] in
def privileged (s : Process κ ρ) : Bool := s.uids.effective = 0

omit [DecidableEq ρ] in
/-- Where a path leads. -/
def resolve (s : Process κ ρ) (p : Pathname κ) : List κ :=
  walk s.root (if p.absolute then s.root else s.cwd) p.steps

/-- The process after a call. One that fails changes nothing. -/
def call (s : Process κ ρ) : AuthCall κ ρ → Process κ ρ
  | .setuid id => { s with uids := s.uids.set s.privileged id }
  | .setresuid r e sv => { s with uids := s.uids.setres s.privileged r e sv }
  | .setgid id => { s with gids := s.gids.set s.privileged id }
  | .setresgid r e sv => { s with gids := s.gids.setres s.privileged r e sv }
  | .setgroups groups => if s.privileged then { s with groups } else s
  | .chdir p ok => if ok then { s with cwd := s.resolve p } else s
  | .chroot p ok => if s.privileged ∧ ok then { s with root := s.resolve p } else s
  | .setrlimit r cur max =>
    if cur ≤ max ∧ (s.privileged ∨ (max : WithTop ℕ) ≤ s.hard r) then
      { s with hard := Function.update s.hard r (max : WithTop ℕ) }
    else s
  | .exec owner group =>
    let uid := owner.getD s.uids.effective
    let gid := group.getD s.gids.effective
    { s with
      uids := { s.uids with effective := uid, saved := uid }
      gids := { s.gids with effective := gid, saved := gid } }

/-- The process after some calls. -/
def callAll (s : Process κ ρ) (cs : List (AuthCall κ ρ)) : Process κ ρ := cs.foldl call s

/-! ### What is seen -/

omit [DecidableEq ρ] in
/-- All paths lead to a place below the directory. -/
def SeesOnly (dir : List κ) (s : Process κ ρ) : Prop := ∀ p, dir <+: s.resolve p

omit [DecidableEq ρ] in
/-- **When a process is shut in**: its root directory lies below the directory, and its working
directory below its root directory. -/
theorem seesOnly_iff (hdir : dir ≠ [] ∨ s.root = []) :
    s.SeesOnly dir ↔ dir <+: s.root ∧ s.root <+: s.cwd := by
  constructor
  · intro h
    refine ⟨h ⟨true, []⟩, ?_⟩
    by_contra hout
    have hdir : dir ≠ [] := hdir.resolve_right fun hroot => hout (hroot ▸ List.nil_prefix)
    obtain ⟨steps, hsteps⟩ := exists_walk_eq_nil hout
    have htop : dir <+: s.resolve ⟨false, steps⟩ := h ⟨false, steps⟩
    rw [resolve, if_neg Bool.false_ne_true, hsteps] at htop
    exact hdir (List.prefix_nil.mp htop)
  · rintro ⟨hroot, hcwd⟩ p
    refine hroot.trans (prefix_walk ?_ p.steps)
    split
    · exact List.prefix_refl _
    · exact hcwd

/-! ### What is given up for good -/

omit [DecidableEq ρ] in
/-- A process is one user's, sees nothing but the directory, and has the limits. -/
structure HoldsTo (id : ℕ) (dir : List κ) (limit : ρ → Option ℕ) (s : Process κ ρ) : Prop where
  uids : s.uids = Ids.all id
  sees : s.SeesOnly dir
  hard : ∀ r, ∀ max ∈ limit r, s.hard r ≤ max

/-- **What a process has given up** so that it is so for good: the user is not the superuser, and
the working directory is below the root directory. -/
structure Confined (id : ℕ) (dir : List κ) (limit : ρ → Option ℕ) (s : Process κ ρ) : Prop where
  uids : s.uids = Ids.all id
  ne_zero : id ≠ 0
  root : dir <+: s.root
  cwd : s.root <+: s.cwd
  hard : ∀ r, ∀ max ∈ limit r, s.hard r ≤ max

omit [DecidableEq κ] [DecidableEq ρ] in
theorem not_privileged (huids : s.uids = Ids.all id) (hne : id ≠ 0) : s.privileged = false := by
  rw [privileged, huids, Ids.all, decide_eq_false hne]

/-- **Whoever is one user** that is not the superuser remains this user. -/
theorem uids_call (huids : s.uids = Ids.all id) (hne : id ≠ 0) (hc : c.Plain) :
    (s.call c).uids = Ids.all id := by
  have hpriv := not_privileged huids hne
  have hsame : ∀ ids : Ids, (∀ id', ids.Has id' → s.uids.Has id') → ids = Ids.all id :=
    fun ids hids => Ids.eq_all_of_has fun id' hid' => by
      have hold := hids id' hid'
      rwa [huids, Ids.has_all_iff] at hold
  cases c with
  | setuid id' =>
    refine hsame _ fun x hx => ?_
    have hset : (s.uids.set s.privileged id').Has x := hx
    rw [hpriv] at hset
    exact Ids.has_of_has_set hset
  | setresuid r e sv =>
    refine hsame _ fun x hx => ?_
    have hset : (s.uids.setres s.privileged r e sv).Has x := hx
    rw [hpriv] at hset
    exact Ids.has_of_has_setres hset
  | setgid | setresgid => exact huids
  | setgroups | chdir | chroot | setrlimit =>
    rw [Process.call]
    split <;> exact huids
  | exec owner group =>
    obtain rfl : owner = none := hc
    simp [Process.call, huids, Ids.all]

/-- **One call** gives nothing back. -/
theorem Confined.call (h : s.Confined id dir limit) (hc : c.Plain) :
    (s.call c).Confined id dir limit := by
  have hpriv := not_privileged h.uids h.ne_zero
  have huids := uids_call h.uids h.ne_zero hc
  cases c with
  | setuid | setresuid | exec => exact ⟨huids, h.ne_zero, h.root, h.cwd, h.hard⟩
  | setgid | setresgid => exact ⟨h.uids, h.ne_zero, h.root, h.cwd, h.hard⟩
  | setgroups groups => simpa [Process.call, hpriv] using h
  | chdir p ok =>
    cases ok with
    | false => exact h
    | true =>
      refine ⟨h.uids, h.ne_zero, h.root, prefix_walk ?_ p.steps, h.hard⟩
      split
      · exact List.prefix_refl _
      · exact h.cwd
  | chroot p ok => simpa [Process.call, hpriv] using h
  | setrlimit r cur max =>
    rw [Process.call]
    split
    · next htaken =>
      have hle : (max : WithTop ℕ) ≤ s.hard r := htaken.2.resolve_left (by simp [hpriv])
      refine ⟨h.uids, h.ne_zero, h.root, h.cwd, fun r' m hm => ?_⟩
      rcases eq_or_ne r' r with rfl | hne
      · simpa using hle.trans (h.hard r' m hm)
      · simpa [hne] using h.hard r' m hm
    · exact h

/-- **No sequence of calls** gives anything back. -/
theorem Confined.callAll (h : s.Confined id dir limit) (hcs : ∀ c ∈ cs, c.Plain) :
    (s.callAll cs).Confined id dir limit := by
  induction cs generalizing s with
  | nil => exact h
  | cons c cs ih =>
    exact ih (h.call (hcs c List.mem_cons_self)) fun c' hc' => hcs c' (List.mem_cons_of_mem c hc')

/-- **What is for good**: a process holds to it whatever it calls, as long as it executes no file
that changes its user, exactly if it has given up what there is to give up. -/
theorem holdsTo_forever_iff (hdir : dir ≠ [] ∨ s.root = []) :
    (∀ cs, (∀ c ∈ cs, c.Plain) → (s.callAll cs).HoldsTo id dir limit) ↔
      s.Confined id dir limit := by
  constructor
  · intro h
    have hnow : s.HoldsTo id dir limit := h [] nofun
    obtain ⟨hroot, hcwd⟩ := (seesOnly_iff hdir).mp hnow.sees
    refine ⟨hnow.uids, ?_, hroot, hcwd, hnow.hard⟩
    -- the superuser becomes another one
    rintro rfl
    have hnext : (s.callAll [.setuid 1]).HoldsTo 0 dir limit := h _ (by simp [AuthCall.Plain])
    have huids := hnext.uids
    simp [callAll, Process.call, privileged, hnow.uids, Ids.set, Ids.all] at huids
  · intro h cs hcs
    have hlater := h.callAll hcs
    refine ⟨hlater.uids, fun p => hlater.root.trans (prefix_walk ?_ p.steps), hlater.hard⟩
    split
    · exact List.prefix_refl _
    · exact hlater.cwd

/-! ### The groups -/

/-- A process has the groups that it has for good, as long as it executes no file that changes its
user or its group. -/
def KeepsGroups (s : Process κ ρ) : Prop :=
  ∀ cs, (∀ c ∈ cs, AuthCall.PlainGroup c) → (s.callAll cs).groups = s.groups ∧
    ∀ gid, (s.callAll cs).gids.Has gid → s.gids.Has gid

/-- One call of a process without privilege gains no group and drops none. -/
theorem groups_call (hpriv : s.privileged = false) (hc : c.PlainGroup) :
    (s.call c).groups = s.groups ∧ ∀ gid, (s.call c).gids.Has gid → s.gids.Has gid := by
  cases c with
  | setgid id' =>
    refine ⟨rfl, fun gid hgid => ?_⟩
    have hset : (s.gids.set s.privileged id').Has gid := hgid
    rw [hpriv] at hset
    exact Ids.has_of_has_set hset
  | setresgid r e sv =>
    refine ⟨rfl, fun gid hgid => ?_⟩
    have hset : (s.gids.setres s.privileged r e sv).Has gid := hgid
    rw [hpriv] at hset
    exact Ids.has_of_has_setres hset
  | setgroups | chroot => simp [call, hpriv]
  | chdir | setrlimit =>
    rw [call]
    split <;> exact ⟨rfl, fun _ hgid => hgid⟩
  | setuid | setresuid => exact ⟨rfl, fun _ hgid => hgid⟩
  | exec owner group =>
    obtain ⟨-, rfl⟩ := hc
    refine ⟨rfl, fun gid hgid => ?_⟩
    have hset : gid = s.gids.real ∨ gid = s.gids.effective ∨ gid = s.gids.effective := hgid
    exact hset.imp_right fun h => Or.inl (or_self_iff.mp h)

/-- **Whoever is one user** that is not the superuser keeps the groups. -/
theorem keepsGroups_of_uids (huids : s.uids = Ids.all id) (hne : id ≠ 0) : s.KeepsGroups := by
  intro cs hcs
  induction cs generalizing s with
  | nil => exact ⟨rfl, fun _ hgid => hgid⟩
  | cons c cs ih =>
    have hc := hcs c List.mem_cons_self
    obtain ⟨hgroups, hgids⟩ := ih (uids_call huids hne hc.plain)
      fun c' hc' => hcs c' (List.mem_cons_of_mem c hc')
    have hcall := groups_call (not_privileged huids hne) hc
    exact ⟨hgroups.trans hcall.1, fun gid hgid => hcall.2 gid (hgids gid hgid)⟩

/-- The superuser takes one group more. -/
theorem not_keepsGroups (hpriv : s.privileged = true) : ¬s.KeepsGroups := by
  intro h
  have hmore := (h [.setgroups (0 :: s.groups)] (by simp [AuthCall.PlainGroup])).1
  simp [callAll, call, hpriv] at hmore

end Process
