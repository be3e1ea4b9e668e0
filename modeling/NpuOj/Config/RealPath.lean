import NpuOj.Config.Lookup

/-!
# Paths with a variable

A path in the configuration may contain `$NOJ_WORKDIR`, and `parse_real_path` puts the value of
the environment variable there: it looks for the first occurrence and prints the value, and then
what comes after the occurrence. What comes before it is not printed, and a second occurrence is
printed as it is.

What is meant is the relation `NpuOj.Expands`: each occurrence is replaced and all else is kept.
`NpuOj.parsesRight_iff` says when this is what comes out.
-/

namespace NpuOj

open Posix

/-! ### The code -/

/-- What `parse_real_path` comes to. -/
inductive ParsedPath
  /-- `exit(EXIT_FAILURE)`, after a line in the log. -/
  | exit
  /-- `NULL`: the path is to be used as it is. -/
  | null
  | path (text : List Char)
  deriving DecidableEq, Repr

/-- `strstr`: the text from the first occurrence of the word on. -/
def strstr (word : List Char) : List Char → Option (List Char)
  | [] => if word = [] then some [] else none
  | c :: cs => if word <+: c :: cs then some (c :: cs) else strstr word cs

/-- `$NOJ_WORKDIR` -/
def nojWorkdir : List Char := "$NOJ_WORKDIR".toList

/-- `parse_real_path`, where the environment has a value for the variable or none. -/
def parseRealPath (env : Option (List Char)) (path : List Char) : Outcome Fault ParsedPath :=
  if '$' ∈ path then
    match strstr nojWorkdir path with
    | none => .ret .exit
    | some loc => match env with
      -- `strlen(env_path)`
      | none => .fault .nullDeref
      | some envPath =>
        let rest := loc.drop nojWorkdir.length
        let size := envPath.length + (rest.length + 4)
        .ret (.path ((envPath ++ rest).take (size - 1)))
  else .ret .null

section Strstr

variable {word text loc u v : List Char}

theorem strstr_eq_none_iff :
    strstr word text = none ↔ ∀ u v, text = u ++ v → ¬word <+: v := by
  induction text with
  | nil =>
    rw [strstr]
    constructor
    · intro h u v htext hword
      obtain ⟨rfl, rfl⟩ := List.append_eq_nil_iff.mp htext.symm
      rw [if_pos (List.prefix_nil.mp hword)] at h
      cases h
    · intro h
      exact if_neg fun hnil => h [] [] rfl (by simp [hnil])
  | cons c cs ih =>
    rw [strstr]
    constructor
    · intro h u v htext hword
      split at h
      · cases h
      · next hhere =>
        cases u with
        | nil =>
          obtain rfl : c :: cs = v := htext
          exact hhere hword
        | cons d u => exact ih.mp h u v (List.cons.inj htext).2 hword
    · intro h
      rw [if_neg (h [] _ rfl)]
      exact ih.mpr fun u v htext => h (c :: u) v (by rw [htext, List.cons_append])

/-- **What `strstr` finds** is an occurrence, and there is none before it. -/
theorem strstr_eq_some (h : strstr word text = some loc) :
    ∃ u, text = u ++ loc ∧ word <+: loc ∧
      ∀ u' v', text = u' ++ v' → word <+: v' → u.length ≤ u'.length := by
  induction text with
  | nil =>
    rw [strstr] at h
    split at h
    · next hnil =>
      obtain rfl := Option.some.inj h
      exact ⟨[], rfl, by simp [hnil], fun _ _ _ _ => Nat.zero_le _⟩
    · cases h
  | cons c cs ih =>
    rw [strstr] at h
    split at h
    · next hword =>
      obtain rfl := Option.some.inj h
      exact ⟨[], rfl, hword, fun _ _ _ _ => Nat.zero_le _⟩
    · next hhere =>
      obtain ⟨u, rfl, hword, hfirst⟩ := ih h
      refine ⟨c :: u, rfl, hword, fun u' v' htext hword' => ?_⟩
      cases u' with
      | nil =>
        obtain rfl : c :: (u ++ loc) = v' := htext
        exact absurd hword' hhere
      | cons d u' => exact Nat.succ_le_succ (hfirst u' v' (List.cons.inj htext).2 hword')

end Strstr

/-! ### What is meant -/

/-- **The path with the value of the variable**: every occurrence is replaced, and every other
letter is kept. -/
inductive Expands (value : List Char) : List Char → List Char → Prop
  | nil : Expands value [] []
  | keep {c path out} (hc : c ≠ '$') (h : Expands value path out) :
    Expands value (c :: path) (c :: out)
  | replace {path out} (h : Expands value path out) :
    Expands value (nojWorkdir ++ path) (value ++ out)

/-- Every dollar sign begins an occurrence of the variable. -/
def OnlyWorkdir (path : List Char) : Prop :=
  ∀ u v, path = u ++ '$' :: v → nojWorkdir <+: '$' :: v

namespace Expands

variable {value path out rest : List Char}

/-- Without a dollar sign there is nothing to replace. -/
theorem of_notMem (h : '$' ∉ path) : Expands value path path := by
  induction path with
  | nil => exact nil
  | cons c path ih =>
    rw [List.mem_cons, not_or] at h
    exact keep (Ne.symm h.1) (ih h.2)

theorem count_eq (h : Expands value path out) :
    out.count '$' = path.count '$' * value.count '$' := by
  induction h with
  | nil => simp
  | keep hc _ ih => rw [List.count_cons_of_ne hc, List.count_cons_of_ne hc, ih]
  | replace _ ih =>
    have hone : nojWorkdir.count '$' = 1 := by decide
    rw [List.count_append, List.count_append, ih, hone, Nat.add_mul, Nat.one_mul]

theorem length_eq (h : Expands value path out) :
    out.length + nojWorkdir.length * path.count '$' =
      path.length + value.length * path.count '$' := by
  induction h with
  | nil => simp
  | keep hc _ ih =>
    rw [List.count_cons_of_ne hc, List.length_cons, List.length_cons]
    omega
  | replace _ ih =>
    have hone : nojWorkdir.count '$' = 1 := by decide
    rw [List.count_append, hone, List.length_append, List.length_append, Nat.mul_add, Nat.mul_add]
    omega

theorem cons_inv {c : Char} (h : Expands value (c :: path) out) (hc : c ≠ '$') :
    ∃ out', Expands value path out' ∧ out = c :: out' := by
  generalize hp : c :: path = p at h
  cases h with
  | nil => cases hp
  | keep _ h =>
    obtain ⟨rfl, rfl⟩ := List.cons.inj hp
    exact ⟨_, h, rfl⟩
  | replace h => exact absurd (List.cons.inj hp).1 hc

theorem replace_inv (h : Expands value (nojWorkdir ++ path) out) :
    ∃ out', Expands value path out' ∧ out = value ++ out' := by
  generalize hp : nojWorkdir ++ path = p at h
  cases h with
  | nil => cases hp
  | keep hc h => exact absurd (List.cons.inj hp).1.symm hc
  | replace h =>
    obtain rfl := List.append_cancel_left hp
    exact ⟨_, h, rfl⟩

/-- The text before the first occurrence is kept. -/
theorem append_inv {u : List Char} (h : Expands value (u ++ (nojWorkdir ++ rest)) out)
    (hu : '$' ∉ u) : ∃ out', Expands value rest out' ∧ out = u ++ (value ++ out') := by
  induction u generalizing out with
  | nil => exact replace_inv h
  | cons c u ih =>
    rw [List.mem_cons, not_or] at hu
    obtain ⟨out', hout', rfl⟩ := cons_inv h (Ne.symm hu.1)
    obtain ⟨out'', hout'', rfl⟩ := ih hout' hu.2
    exact ⟨out'', hout'', rfl⟩

/-- A value of the same length that changes nothing is the variable itself. -/
theorem value_eq (h : Expands value path out) (hsame : path = out) (hmem : '$' ∈ path)
    (hlength : value.length = nojWorkdir.length) : value = nojWorkdir := by
  induction h with
  | nil => cases hmem
  | keep hc _ ih =>
    have hmem' := (List.mem_cons.mp hmem).resolve_left (Ne.symm hc)
    exact ih (List.cons.inj hsame).2 hmem'
  | replace _ _ => exact (List.append_inj hsame hlength.symm).1.symm

/-- Putting the variable itself changes nothing. -/
theorem refl_of_onlyWorkdir (h : OnlyWorkdir path) : Expands nojWorkdir path path := by
  induction hn : path.length using Nat.strongRecOn generalizing path with
  | _ n ih =>
    subst hn
    cases path with
    | nil => exact nil
    | cons c path =>
      have htail : ∀ {front rest}, c :: path = front ++ rest → OnlyWorkdir rest := by
        intro front rest hsplit u v hrest
        exact h (front ++ u) v (by rw [hsplit, hrest, List.append_assoc])
      by_cases hc : c = '$'
      · obtain ⟨rest, hrest⟩ := h [] path (by rw [hc]; rfl)
        rw [← hc] at hrest
        rw [← hrest]
        refine replace (ih rest.length ?_ (htail hrest.symm) rfl)
        rw [← hrest, List.length_append]
        exact Nat.lt_add_of_pos_left (by decide)
      · have hrest : c :: path = [c] ++ path := rfl
        exact keep hc (ih path.length (Nat.lt_succ_self _) (htail hrest) rfl)

/-- **The code puts one value, and drops what is before it**: that is right if nothing is before
it, and nothing after it has to be replaced. -/
theorem front_eq_nil {u : List Char} (hu : '$' ∉ u)
    (h : Expands value (u ++ (nojWorkdir ++ rest)) (value ++ rest)) :
    u = [] ∧ ('$' ∉ rest ∨ value = nojWorkdir) := by
  obtain ⟨out, hout, heq⟩ := append_inv h hu
  have hlength := congrArg List.length heq
  have hcount := congrArg (List.count '$') heq
  simp only [List.length_append, List.count_append, List.count_eq_zero.mpr hu] at hlength hcount
  have hlen := hout.length_eq
  by_cases hmem : '$' ∈ rest
  · have hpos : 0 < rest.count '$' := List.count_pos_iff.mpr hmem
    -- each occurrence is replaced, and there are as many dollar signs as before
    have hone : value.count '$' = 1 := by
      rw [hout.count_eq] at hcount
      have hmul : rest.count '$' * 1 = rest.count '$' * value.count '$' := by omega
      exact (Nat.eq_of_mul_eq_mul_left hpos hmul).symm
    have hvalue : '$' ∈ value := List.count_pos_iff.mp (by omega)
    obtain ⟨a, b, rfl, ha⟩ := List.eq_append_cons_of_mem hvalue
    -- the first dollar sign is behind the same text
    have hfirst : a ++ ('$' :: (b ++ rest)) = (u ++ a) ++ ('$' :: (b ++ out)) := by
      simpa using heq
    have hua : '$' ∉ u ++ a := by
      rw [List.mem_append]
      exact not_or.mpr ⟨hu, ha⟩
    obtain ⟨hfront, hback⟩ := run_unique (bne_of_notMem ha) (bne_of_notMem hua) (by simp)
      (by simp) hfirst
    have hnil : u = [] := List.append_cancel_right (hfront.symm.trans (List.nil_append a).symm)
    have hrest : rest = out := List.append_cancel_left (List.cons.inj hback).2
    refine ⟨hnil, Or.inr (hout.value_eq hrest hmem ?_)⟩
    rw [← hrest] at hlen
    exact Nat.eq_of_mul_eq_mul_right hpos (by omega)
  · rw [List.count_eq_zero.mpr hmem] at hlen
    exact ⟨List.length_eq_zero_iff.mp (by omega), Or.inl hmem⟩

end Expands

/-! ### When a path is parsed right -/

section Parse

variable {env : Option (List Char)} {path value : List Char}

/-- **The path is parsed right**: it is used as it is exactly if there is no dollar sign in it,
the daemon exits if a dollar sign does not begin an occurrence of the variable, and else every
occurrence is replaced. -/
structure ParsesRight (env : Option (List Char)) (path : List Char) : Prop where
  null : parseRealPath env path = .ret .null ↔ '$' ∉ path
  exit : ¬OnlyWorkdir path → parseRealPath env path = .ret .exit
  expands : '$' ∈ path → OnlyWorkdir path → ∃ value out, env = some value ∧
    Expands value path out ∧ parseRealPath env path = .ret (.path out)

/-- The buffer has room for the whole path. -/
theorem parseRealPath_of_strstr {loc rest : List Char} (hmem : '$' ∈ path)
    (hloc : strstr nojWorkdir path = some loc) (hrest : loc = nojWorkdir ++ rest) :
    parseRealPath (some value) path = .ret (.path (value ++ rest)) := by
  rw [parseRealPath, if_pos hmem, hloc]
  dsimp only
  rw [hrest, List.drop_left' rfl, List.take_of_length_le]
  rw [List.length_append]
  omega

/-- A path with one dollar sign, in front of the variable. -/
theorem onlyWorkdir_append {rest : List Char} (h : '$' ∉ rest) :
    OnlyWorkdir (nojWorkdir ++ rest) := by
  intro u v hsplit
  cases u with
  | nil => exact ⟨rest, hsplit⟩
  | cons c u =>
    have htail : "NOJ_WORKDIR".toList ++ rest = u ++ '$' :: v := (List.cons.inj hsplit).2
    have hmem : '$' ∈ "NOJ_WORKDIR".toList ++ rest := by
      rw [htail]
      simp
    rcases List.mem_append.mp hmem with hname | hrest
    · exact absurd hname (by decide)
    · exact absurd hrest h

/-- Where every dollar sign begins an occurrence, there is none before the first of them. -/
theorem OnlyWorkdir.notMem {u loc : List Char} (h : OnlyWorkdir (u ++ loc))
    (hfirst : ∀ u' v', u ++ loc = u' ++ v' → nojWorkdir <+: v' → u.length ≤ u'.length) :
    '$' ∉ u := by
  intro hmem
  obtain ⟨a, b, rfl, -⟩ := List.eq_append_cons_of_mem hmem
  have hsplit : (a ++ '$' :: b) ++ loc = a ++ '$' :: (b ++ loc) := by simp
  have hle := hfirst a _ hsplit (h a _ hsplit)
  rw [List.length_append, List.length_cons] at hle
  omega

theorem parsesRight_of_notMem (hmem : '$' ∉ path) : ParsesRight env path := by
  have honly : OnlyWorkdir path := by
    rintro u v rfl
    simp at hmem
  refine ⟨?_, fun h => absurd honly h, fun h => absurd h hmem⟩
  rw [parseRealPath, if_neg hmem]
  exact iff_of_true rfl hmem

/-- Without an occurrence the daemon exits. -/
theorem parsesRight_of_strstr_eq_none (hmem : '$' ∈ path) (hloc : strstr nojWorkdir path = none) :
    ParsesRight env path := by
  have hexit : parseRealPath env path = .ret .exit := by
    rw [parseRealPath, if_pos hmem, hloc]
  refine ⟨?_, fun _ => hexit, fun _ honly => ?_⟩
  · rw [hexit]
    exact iff_of_false (by simp) (not_not.mpr hmem)
  · obtain ⟨u, v, hsplit⟩ := List.append_of_mem hmem
    exact absurd (honly u v hsplit) (strstr_eq_none_iff.mp hloc u _ hsplit)

/-- The first occurrence is at the beginning. -/
theorem parsesRight_of_front {rest : List Char}
    (hlast : '$' ∉ rest ∨ (OnlyWorkdir (nojWorkdir ++ rest) ∧ value = nojWorkdir)) :
    ParsesRight (some value) (nojWorkdir ++ rest) := by
  have hmem : '$' ∈ nojWorkdir ++ rest := List.mem_append_left _ (by decide)
  have hloc : strstr nojWorkdir (nojWorkdir ++ rest) = some (nojWorkdir ++ rest) :=
    if_pos (List.prefix_append nojWorkdir rest)
  have hparse : parseRealPath (some value) (nojWorkdir ++ rest) = .ret (.path (value ++ rest)) :=
    parseRealPath_of_strstr hmem hloc rfl
  have honly : OnlyWorkdir (nojWorkdir ++ rest) := by
    rcases hlast with hrest | ⟨honly, -⟩
    · exact onlyWorkdir_append hrest
    · exact honly
  refine ⟨?_, fun h => absurd honly h, fun _ _ => ⟨value, _, rfl, ?_, hparse⟩⟩
  · rw [hparse]
    exact iff_of_false (by simp) (not_not.mpr hmem)
  · rcases hlast with hrest | ⟨-, rfl⟩
    · exact .replace (.of_notMem hrest)
    · exact .refl_of_onlyWorkdir honly

/-- If a path with an occurrence is parsed right then the occurrence is at the beginning. -/
theorem ParsesRight.front {u rest : List Char}
    (h : ParsesRight env (u ++ (nojWorkdir ++ rest)))
    (hloc : strstr nojWorkdir (u ++ (nojWorkdir ++ rest)) = some (nojWorkdir ++ rest))
    (hfirst : ∀ u' v', u ++ (nojWorkdir ++ rest) = u' ++ v' → nojWorkdir <+: v' →
      u.length ≤ u'.length) :
    ∃ value, env = some value ∧ u = [] ∧
      ('$' ∉ rest ∨ (OnlyWorkdir (nojWorkdir ++ rest) ∧ value = nojWorkdir)) := by
  have hmem : '$' ∈ u ++ (nojWorkdir ++ rest) :=
    List.mem_append_right _ (List.mem_append_left _ (by decide))
  have honly : OnlyWorkdir (u ++ (nojWorkdir ++ rest)) := by
    by_contra hnot
    have hexit := h.exit hnot
    rw [parseRealPath, if_pos hmem, hloc] at hexit
    cases env <;> simp at hexit
  obtain ⟨value, out, rfl, hexpands, hparse⟩ := h.expands hmem honly
  rw [parseRealPath_of_strstr hmem hloc rfl] at hparse
  obtain rfl := ParsedPath.path.inj (Outcome.ret.inj hparse)
  obtain ⟨rfl, hlast⟩ := hexpands.front_eq_nil (honly.notMem hfirst)
  exact ⟨value, rfl, rfl, hlast.imp_right fun hvalue => ⟨honly, hvalue⟩⟩

/-- **When a path is parsed right**: exactly if there is no dollar sign in it, or no occurrence of
the variable, or the variable has a value and the path begins with its only occurrence. More
occurrences are right only if the value is the name of the variable itself. -/
theorem parsesRight_iff (env : Option (List Char)) (path : List Char) : ParsesRight env path ↔
    '$' ∉ path ∨ (∀ u v, path = u ++ v → ¬nojWorkdir <+: v) ∨
      ∃ value rest, env = some value ∧ path = nojWorkdir ++ rest ∧
        ('$' ∉ rest ∨ (OnlyWorkdir path ∧ value = nojWorkdir)) := by
  by_cases hmem : '$' ∈ path
  swap
  · exact iff_of_true (parsesRight_of_notMem hmem) (Or.inl hmem)
  rcases hloc : strstr nojWorkdir path with _ | loc
  · exact iff_of_true (parsesRight_of_strstr_eq_none hmem hloc)
      (Or.inr (Or.inl (strstr_eq_none_iff.mp hloc)))
  · obtain ⟨u, rfl, ⟨rest, rfl⟩, hfirst⟩ := strstr_eq_some hloc
    constructor
    · intro h
      obtain ⟨value, henv, rfl, hlast⟩ := h.front hloc hfirst
      exact Or.inr (Or.inr ⟨value, rest, henv, rfl, hlast⟩)
    · rintro (hnot | hnone | ⟨value, rest', rfl, hpath, hlast⟩)
      · exact absurd hmem hnot
      · exact absurd ⟨rest, rfl⟩ (hnone u _ rfl)
      · rw [hpath] at hlast ⊢
        exact parsesRight_of_front hlast

/-- What is before the variable is lost, and a second occurrence stays. -/
theorem parseRealPath_wrong :
    parseRealPath (some "/srv".toList) "/mnt$NOJ_WORKDIR/lib".toList =
      .ret (.path "/srv/lib".toList) ∧
    parseRealPath (some "/srv".toList) "$NOJ_WORKDIR:$NOJ_WORKDIR".toList =
      .ret (.path "/srv:$NOJ_WORKDIR".toList) ∧
    ¬ParsesRight (some "/srv".toList) "/mnt$NOJ_WORKDIR/lib".toList := by
  have hparse : parseRealPath (some "/srv".toList) "/mnt$NOJ_WORKDIR/lib".toList =
      .ret (.path "/srv/lib".toList) := by decide
  refine ⟨hparse, by decide, fun h => ?_⟩
  have honly : OnlyWorkdir "/mnt$NOJ_WORKDIR/lib".toList := by
    by_contra hnot
    cases hparse.symm.trans (h.exit hnot)
  obtain ⟨value, out, hvalue, hexpands, hout⟩ := h.expands (by decide) honly
  obtain rfl := Option.some.inj hvalue
  obtain rfl := ParsedPath.path.inj (Outcome.ret.inj (hparse.symm.trans hout))
  have hfront : '$' ∉ "/mnt".toList := by decide
  exact absurd (Expands.front_eq_nil hfront hexpands).1 (by decide)

end Parse

end NpuOj
