import NpuOj.Lib.EventLoop
import NpuOj.Network

/-!
# The configuration file

`load_file` reads `/etc/noj.conf` into a buffer, and `main` does not look whether it could.
Every setting is looked up in the buffer when it is wanted: `regex_get_value` prints the key
into a pattern, has it compiled and searched for by PCRE, and copies the group of the match. A
setting that is not found makes the daemon exit, after a line in the log.

PCRE is a parameter here. A pattern that does not compile is not searched for; any other is
searched for in what the buffer holds, and if there is no buffer then the search begins with a
`strlen` of `NULL`: `NpuOj.lookups_safe_iff` says when that does not happen.
-/

namespace NpuOj

open Posix

/-! ### PCRE -/

/-- The offsets of a group in a subject of the given length. -/
structure Span (length : ℕ) where
  start : ℕ
  stop : ℕ
  start_le_stop : start ≤ stop
  stop_le_length : stop ≤ length

/-- A compiled pattern, as `pcre_exec` runs it: whether the subject matches, and where the group
is, if it has taken part in the match. -/
abbrev Matcher := (subject : List Char) → Option (Option (Span subject.length))

/-- `pcre_compile`: what a pattern is compiled to, if it is one. -/
abbrev Pcre := String → Option Matcher

/-! ### Looking up a value -/

/-- The pattern for the value of a key. -/
def valuePattern (key : String) : String :=
  snprintf (bufferSize - 1) ("^\\s*" ++ key ++ "\\s*=\\s*(\\S+)\\s*$")

/-- `regex_get_value`: the value, or `NULL`. It is put into a block of its own if `dest` is
`NULL`, and into `dest` if that has room for it. -/
def regexGetValue (pcre : Pcre) (subject : Option (List Char)) (key : String) (dest : Option ℕ) :
    Outcome Fault (Option (List Char)) :=
  match pcre (valuePattern key) with
  | none => .ret none
  | some exec => match subject with
    -- the length of the subject is taken with `strlen`
    | none => .fault .nullDeref
    | some subject => match exec subject with
      | none => .ret none
      | some group =>
        let value := match group with
          | some span => (subject.take span.stop).drop span.start
          -- both offsets are `-1`, so that nothing is copied
          | none => []
        match dest with
        | none => .ret (some value)
        | some size => .ret (if value.length + 1 ≤ size then some value else none)

/-! ### The settings -/

/-- What `load_file` finds. -/
inductive ConfigFile
  /-- `fopen` fails. -/
  | missing
  /-- `fopen` succeeds and `fread` fails. -/
  | unreadable
  | content (text : List Char)

/-- `load_file`: the buffer afterwards. `fread` reads one item of the size of the file, and
there is none in an empty file; what is behind a zero byte is not seen by any look-up. -/
def loadFile (file : ConfigFile) (mBuffer : Option (List Char)) : Option (List Char) :=
  match file with
  | .missing => mBuffer
  | .unreadable => none
  | .content [] => none
  | .content text => some (text.takeWhile fun c => c.toNat ≠ 0)

section Settings

variable (pf : Platform) (pcre : Pcre) (mBuffer : Option (List Char)) (key : String)

/-- `get_string`; `none` if the daemon exits. -/
def getString (dest : Option ℕ) : Outcome Fault (Option (List Char)) :=
  regexGetValue pcre mBuffer key dest

/-- `get_long`; `none` if the daemon exits. -/
def getLong : Outcome Fault (Option ℤ) :=
  (regexGetValue pcre mBuffer key none).bind fun
    | none => .ret none
    | some str =>
      let (num, erange) := strtol pf str
      let unconverted := (scanNumeral str).digits.isEmpty
      .ret (if unconverted ∨ (erange ∧ (num = pf.longMax ∨ num = pf.longMin)) ∨ (erange ∧ num = 0)
        then none else some num)

/-- `get_ulong`; `none` if the daemon exits. -/
def getUlong : Outcome Fault (Option ℕ) :=
  (regexGetValue pcre mBuffer key none).bind fun
    | none => .ret none
    | some str =>
      let num := strtoul pf (String.ofList str)
      let erange := strtoulErange pf str
      let unconverted := (scanNumeral str).digits.isEmpty
      .ret (if (erange ∧ num = pf.ulongMax) ∨ (erange ∧ num = 0) ∨ unconverted
        then none else some num)

end Settings

/-! ### What a look-up comes to -/

section Lookup

variable {pf : Platform} {pcre : Pcre} {mBuffer : Option (List Char)} {key : String}
  {dest : Option ℕ} {file : ConfigFile}

/-- **A look-up finds a part of the buffer** or nothing, unless there is no buffer. -/
theorem regexGetValue_cases (pcre : Pcre) (mBuffer : Option (List Char)) (key : String)
    (dest : Option ℕ) :
    (∃ v, regexGetValue pcre mBuffer key dest = .ret v ∧
        ∀ str ∈ v, ∃ subject ∈ mBuffer, str <:+: subject) ∨
      (regexGetValue pcre mBuffer key dest = .fault .nullDeref ∧ mBuffer = none ∧
        pcre (valuePattern key) ≠ none) := by
  rw [regexGetValue]
  split
  · exact Or.inl ⟨none, rfl, by simp⟩
  · next exec hcompile =>
    split
    · exact Or.inr ⟨rfl, rfl, by simp [hcompile]⟩
    · next subject =>
      split
      · exact Or.inl ⟨none, rfl, by simp⟩
      · next group hexec =>
        generalize hvalue : (match group with
          | some span => (subject.take span.stop).drop span.start
          | none => []) = value
        have hinfix : value <:+: subject := by
          rw [← hvalue]
          split
          · exact (List.drop_suffix _ _).isInfix.trans (List.take_prefix _ _).isInfix
          · exact List.nil_infix
        left
        split
        · exact ⟨some value, rfl, by simpa using hinfix⟩
        · refine ⟨_, rfl, fun str hstr => ⟨subject, rfl, ?_⟩⟩
          split at hstr
          · obtain rfl : value = str := Option.some.inj hstr
            exact hinfix
          · cases hstr

/-- **What `get_long` goes on with**: the number at the beginning of the value, if it is one
of a `long`. -/
theorem getLong_eq_ret_some {n : ℤ} : getLong pf pcre mBuffer key = .ret (some n) ↔
    ∃ str, regexGetValue pcre mBuffer key none = .ret (some str) ∧
      (scanNumeral str).digits ≠ [] ∧ pf.FitsLong (scanNumeral str).value ∧
      n = (scanNumeral str).value := by
  rw [getLong, Outcome.bind_eq_ret_iff]
  constructor
  · rintro ⟨_ | str, hvalue, hret⟩
    · cases hret
    · simp only [Outcome.ret.injEq, Option.ite_none_left_eq_some] at hret
      obtain ⟨hok, hn⟩ := hret
      obtain ⟨hconverted, hrange⟩ := not_or.mp hok
      refine ⟨str, hvalue, by simpa using hconverted, ?_⟩
      by_cases hfits : pf.FitsLong (scanNumeral str).value
      · rw [strtol_of_fitsLong hfits] at hn
        exact ⟨hfits, (Option.some.inj hn).symm⟩
      · exact absurd (Or.inl (strtol_of_not_fitsLong hfits)) hrange
  · rintro ⟨str, hvalue, hdigits, hfits, rfl⟩
    refine ⟨some str, hvalue, ?_⟩
    simp only [strtol_of_fitsLong hfits, Outcome.ret.injEq, Option.ite_none_left_eq_some]
    exact ⟨by simpa using hdigits, trivial⟩

/-- **What `get_ulong` goes on with**: the number at the beginning of the value, if it is one
of an `unsigned long`; behind a minus sign, what is missing to the next power of two. -/
theorem getUlong_eq_ret_some {n : ℕ} : getUlong pf pcre mBuffer key = .ret (some n) ↔
    ∃ str, regexGetValue pcre mBuffer key none = .ret (some str) ∧
      (scanNumeral str).digits ≠ [] ∧ (scanNumeral str).magnitude ≤ pf.ulongMax ∧
      n = if (scanNumeral str).neg then pf.wrap (2 ^ pf.wordBits - (scanNumeral str).magnitude)
        else (scanNumeral str).magnitude := by
  rw [getUlong, Outcome.bind_eq_ret_iff]
  constructor
  · rintro ⟨_ | str, hvalue, hret⟩
    · cases hret
    · simp only [Outcome.ret.injEq, Option.ite_none_left_eq_some] at hret
      obtain ⟨hok, hn⟩ := hret
      obtain ⟨hmax, hzero⟩ := not_or.mp hok
      have hconverted := (not_or.mp hzero).2
      rw [strtoul_ofList] at hmax hn
      have hle : ¬pf.ulongMax < (scanNumeral str).magnitude := by
        intro hlt
        exact hmax ⟨decide_eq_true hlt, if_pos hlt⟩
      rw [if_neg hle] at hn
      exact ⟨str, hvalue, by simpa using hconverted, Nat.le_of_not_lt hle,
        (Option.some.inj hn).symm⟩
  · rintro ⟨str, hvalue, hdigits, hle, rfl⟩
    have hrange : strtoulErange pf str = false := decide_eq_false (Nat.not_lt.mpr hle)
    refine ⟨some str, hvalue, ?_⟩
    simp only [hrange, strtoul_ofList, if_neg (Nat.not_lt.mpr hle), Outcome.ret.injEq,
      Option.ite_none_left_eq_some]
    exact ⟨by simpa using hdigits, trivial⟩

/-- **The look-ups of a key are safe**: each comes to a part of the buffer, or to an exit that
the log is told of. -/
structure LookupsSafe (pf : Platform) (pcre : Pcre) (mBuffer : Option (List Char))
    (key : String) : Prop where
  string : ∀ dest, ∃ v, getString pcre mBuffer key dest = .ret v ∧
    ∀ str ∈ v, ∃ subject ∈ mBuffer, str <:+: subject
  long : ∃ v, getLong pf pcre mBuffer key = .ret v ∧
    ∀ n ∈ v, ∃ subject ∈ mBuffer, ∃ str, str <:+: subject ∧ n = (scanNumeral str).value
  ulong : ∃ v, getUlong pf pcre mBuffer key = .ret v ∧
    ∀ n ∈ v, ∃ subject ∈ mBuffer, ∃ str, str <:+: subject ∧ n = strtoul pf (String.ofList str)

/-- The file is there and can be read, and it is not empty. -/
def ConfigFile.Loads : ConfigFile → Prop
  | .content (_ :: _) => True
  | _ => False

theorem loadFile_eq_none_iff : loadFile file none = none ↔ ¬file.Loads := by
  rcases file with _ | _ | _ | ⟨c, text⟩ <;> simp [loadFile, ConfigFile.Loads]

/-- Looking up is safe where there is a buffer, and where the pattern is not searched for. -/
theorem lookupsSafe_of_ret (h : ∀ dest, ∃ v, regexGetValue pcre mBuffer key dest = .ret v ∧
    ∀ str ∈ v, ∃ subject ∈ mBuffer, str <:+: subject) : LookupsSafe pf pcre mBuffer key := by
  obtain ⟨v, hv, hfound⟩ := h none
  refine ⟨h, ?_, ?_⟩
  · have hret : ∃ n, getLong pf pcre mBuffer key = .ret n := by
      rw [getLong, hv]
      rcases v with _ | str <;> exact ⟨_, rfl⟩
    obtain ⟨n, hn⟩ := hret
    refine ⟨n, hn, ?_⟩
    rintro n rfl
    obtain ⟨str, hstr, -, -, hvalue⟩ := getLong_eq_ret_some.mp hn
    obtain rfl : v = some str := Outcome.ret.inj (hv.symm.trans hstr)
    obtain ⟨subject, hsubject, hinfix⟩ := hfound str rfl
    exact ⟨subject, hsubject, str, hinfix, hvalue⟩
  · have hret : ∃ n, getUlong pf pcre mBuffer key = .ret n := by
      rw [getUlong, hv]
      rcases v with _ | str <;> exact ⟨_, rfl⟩
    obtain ⟨n, hn⟩ := hret
    refine ⟨n, hn, ?_⟩
    rintro n rfl
    obtain ⟨str, hstr, -, hle, hvalue⟩ := getUlong_eq_ret_some.mp hn
    obtain rfl : v = some str := Outcome.ret.inj (hv.symm.trans hstr)
    obtain ⟨subject, hsubject, hinfix⟩ := hfound str rfl
    refine ⟨subject, hsubject, str, hinfix, ?_⟩
    rw [hvalue, strtoul_ofList, if_neg (Nat.not_lt.mpr hle)]

/-- **When looking up is safe**: after `load_file` has run, no look-up of a key reads through
the null buffer, exactly if the file is there, can be read and is not empty, or the pattern of
the key does not compile. -/
theorem lookups_safe_iff (pf : Platform) (pcre : Pcre) (file : ConfigFile) (key : String) :
    LookupsSafe pf pcre (loadFile file none) key ↔
      file.Loads ∨ pcre (valuePattern key) = none := by
  constructor
  · intro hsafe
    by_contra hcond
    obtain ⟨hloads, hcompiles⟩ := not_or.mp hcond
    obtain ⟨v, hv, -⟩ := hsafe.string none
    obtain ⟨exec, hexec⟩ := Option.ne_none_iff_exists'.mp hcompiles
    rw [loadFile_eq_none_iff.mpr hloads, getString, regexGetValue, hexec] at hv
    cases hv
  · intro hcond
    refine lookupsSafe_of_ret fun dest => ?_
    rcases regexGetValue_cases pcre (loadFile file none) key dest with hret | ⟨-, hnone, hcompile⟩
    · exact hret
    · rcases hcond with hloads | hnot
      · exact absurd hloads (loadFile_eq_none_iff.mp hnone)
      · exact absurd hnot hcompile

/-- The daemon on a machine without `/etc/noj.conf`: the first look-up reads through `NULL`. -/
theorem lookups_fileMissing :
    getString (fun _ => some fun _ => none) (loadFile .missing none) "DB_HOST" none
      = .fault .nullDeref ∧
    getUlong lp64 (fun _ => some fun _ => none) (loadFile (.content []) none) "JUDGES_NUM"
      = .fault .nullDeref :=
  ⟨rfl, rfl⟩

end Lookup

end NpuOj
