import Mathlib.Data.List.TakeWhile
import NpuOj.Config.Lookup
import NpuOj.DBConnMgr
import NpuOj.Network.Command

/-!
# The numbers of the configuration

Five settings are numbers. The two that are sizes are read with `get_ulong` and stored as
`unsigned int`, and the three ports are read with `get_long` and stored as `int`. The text is
converted by `strtoul` or `strtol`, which stop at the first letter that is no digit, and the code
asks only whether they have begun and whether the number is one of a `long`.

`NpuOj.readsExactly_iff` says for which texts the number that is used is the one that is written.
-/

namespace NpuOj

open Posix

/-! ### Reading -/

/-- The settings that are numbers. -/
inductive NumericSetting
  | judgesNum
  | dbMaxConnections
  | dbPort
  | ftpPort
  | sftpPort
  deriving DecidableEq, Repr

namespace NumericSetting

/-- The key of a setting. -/
def key : NumericSetting → String
  | judgesNum => "JUDGES_NUM"
  | dbMaxConnections => "DB_MAX_CONNECTIONS"
  | dbPort => "DB_PORT"
  | ftpPort => "FTP_PORT"
  | sftpPort => "SFTP_PORT"

/-- A setting that is stored as an `unsigned int`. -/
def IsSize (s : NumericSetting) : Prop := s = judgesNum ∨ s = dbMaxConnections

instance : DecidablePred IsSize := fun _ => inferInstanceAs (Decidable (_ ∨ _))

end NumericSetting

section Reading

variable (pf : Platform) (pcre : Pcre) (mBuffer : Option (List Char))

/-- `jm_judges_num`, as `init_judges` reads it; `none` if the daemon exits. -/
def jmJudgesNum : Outcome Fault (Option ℕ) :=
  (getUlong pf pcre mBuffer "JUDGES_NUM").bind fun num => .ret (num.map (· % 2 ^ 32))

/-- `MAX_AVAILABLE_CONNECTIONS`, as `DBConnMgr::init` reads it. -/
def dbAvailableConnections : Outcome Fault (Option ℕ) :=
  (getUlong pf pcre mBuffer "DB_MAX_CONNECTIONS").bind fun num =>
    .ret (num.map maxAvailableConnections)

/-- A port, as `DBConnMgr::init` and `NetworkManager::init` read it. -/
def portOf (key : String) : Outcome Fault (Option ℤ) :=
  (getLong pf pcre mBuffer key).bind fun num => .ret (num.map toInt)

/-- The number that is used for a setting. -/
def NumericSetting.used : NumericSetting → Outcome Fault (Option ℤ)
  | judgesNum => (jmJudgesNum pf pcre mBuffer).bind fun num => .ret (num.map (↑))
  | dbMaxConnections => (dbAvailableConnections pf pcre mBuffer).bind fun num => .ret (num.map (↑))
  | dbPort => portOf pf pcre mBuffer "DB_PORT"
  | ftpPort => portOf pf pcre mBuffer "FTP_PORT"
  | sftpPort => portOf pf pcre mBuffer "SFTP_PORT"

end Reading

/-! ### What is written -/

/-- **A text is wholly a decimal numeral**, with an optional sign. -/
def Decimal (str : List Char) (x : ℤ) : Prop :=
  ∃ ds : List Char, ds ≠ [] ∧ (∀ c ∈ ds, c.isDigit = true) ∧
    (((str = ds ∨ str = '+' :: ds) ∧ x = ofDigits ds) ∨ (str = '-' :: ds ∧ x = -ofDigits ds))

namespace NumericSetting

/-- The numbers of the type in which a setting is stored. -/
def Fits (s : NumericSetting) (x : ℤ) : Prop :=
  if s.IsSize then 0 ≤ x ∧ x < 2 ^ 32 else -2 ^ 31 ≤ x ∧ x < 2 ^ 31

/-- **The text is a number for the setting**: a decimal numeral, of a number that can be stored,
and without a minus sign for a size. -/
def Accepts (s : NumericSetting) (str : List Char) (x : ℤ) : Prop :=
  Decimal str x ∧ s.Fits x ∧ (s.IsSize → '-' ∉ str)

/-- The number to be used: there are ten connections at most. -/
def meant (s : NumericSetting) (x : ℤ) : ℤ :=
  if s = dbMaxConnections then min x maxConnections else x

end NumericSetting

section Exact

variable {pf : Platform} {pcre : Pcre} {mBuffer : Option (List Char)} {s : NumericSetting}
  {str ds : List Char} {x n : ℤ}

/-- **The number is read exactly**: the daemon goes on only with a value that is a number for the
setting, and uses this number. -/
def ReadsExactly (pf : Platform) (pcre : Pcre) (mBuffer : Option (List Char))
    (s : NumericSetting) : Prop :=
  ∀ n, s.used pf pcre mBuffer = .ret (some n) →
    ∃ str x, regexGetValue pcre mBuffer s.key none = .ret (some str) ∧ s.Accepts str x ∧
      n = s.meant x

/-- **The conversion fails**: there is no digit where the number should begin, or the number is
none of a `long` (of an `unsigned long`, for a size). -/
def NumericSetting.Unreadable (pf : Platform) (s : NumericSetting) (str : List Char) : Prop :=
  (scanNumeral str).digits = [] ∨
    if s.IsSize then pf.ulongMax < (scanNumeral str).magnitude
    else ¬pf.FitsLong (scanNumeral str).value

/-- What is stored when the conversion has not failed. -/
def NumericSetting.stored (pf : Platform) (s : NumericSetting) (num : Numeral) : ℤ :=
  let size := if num.neg then pf.wrap (2 ^ pf.wordBits - num.magnitude) else num.magnitude
  match s with
  | judgesNum => (size % 2 ^ 32 : ℕ)
  | dbMaxConnections => (maxAvailableConnections size : ℕ)
  | _ => toInt num.value

theorem portOf_eq_ret_some {key : String} : portOf pf pcre mBuffer key = .ret (some n) ↔
    ∃ str, regexGetValue pcre mBuffer key none = .ret (some str) ∧
      ((scanNumeral str).digits ≠ [] ∧ pf.FitsLong (scanNumeral str).value) ∧
      n = toInt (scanNumeral str).value := by
  rw [portOf, Outcome.bind_eq_ret_iff]
  constructor
  · rintro ⟨_ | num, hget, hret⟩
    · cases hret
    · obtain ⟨str, hstr, hdigits, hfits, rfl⟩ := getLong_eq_ret_some.mp hget
      exact ⟨str, hstr, ⟨hdigits, hfits⟩, (Option.some.inj (Outcome.ret.inj hret)).symm⟩
  · rintro ⟨str, hstr, ⟨hdigits, hfits⟩, rfl⟩
    exact ⟨_, getLong_eq_ret_some.mpr ⟨str, hstr, hdigits, hfits, rfl⟩, rfl⟩

/-- The same for a size, whatever is made of the number. -/
theorem size_eq_ret_some {key : String} {f : ℕ → ℕ} :
    (((getUlong pf pcre mBuffer key).bind fun num => .ret (num.map f)).bind fun num =>
      .ret (num.map ((↑) : ℕ → ℤ))) = .ret (some n) ↔
    ∃ str, regexGetValue pcre mBuffer key none = .ret (some str) ∧
      ((scanNumeral str).digits ≠ [] ∧ (scanNumeral str).magnitude ≤ pf.ulongMax) ∧
      n = f (if (scanNumeral str).neg then pf.wrap (2 ^ pf.wordBits - (scanNumeral str).magnitude)
        else (scanNumeral str).magnitude) := by
  simp only [Outcome.bind_eq_ret_iff]
  constructor
  · rintro ⟨_, ⟨_ | num, hget, hret⟩, hret'⟩
    · cases hret
      cases hret'
    · cases hret
      obtain ⟨str, hstr, hdigits, hle, rfl⟩ := getUlong_eq_ret_some.mp hget
      exact ⟨str, hstr, ⟨hdigits, hle⟩, (Option.some.inj (Outcome.ret.inj hret')).symm⟩
  · rintro ⟨str, hstr, ⟨hdigits, hle⟩, rfl⟩
    exact ⟨_, ⟨_, getUlong_eq_ret_some.mpr ⟨str, hstr, hdigits, hle, rfl⟩, rfl⟩, rfl⟩

/-- **What the daemon goes on with** for a setting. -/
theorem used_eq_ret_some : s.used pf pcre mBuffer = .ret (some n) ↔
    ∃ str, regexGetValue pcre mBuffer s.key none = .ret (some str) ∧ ¬s.Unreadable pf str ∧
      n = s.stored pf (scanNumeral str) := by
  have hport : ∀ s : NumericSetting, ¬s.IsSize → ∀ str, (¬s.Unreadable pf str ↔
      (scanNumeral str).digits ≠ [] ∧ pf.FitsLong (scanNumeral str).value) := by
    intro s hs str
    rw [NumericSetting.Unreadable, if_neg hs, not_or, not_not]
  have hsize : ∀ s : NumericSetting, s.IsSize → ∀ str, (¬s.Unreadable pf str ↔
      (scanNumeral str).digits ≠ [] ∧ (scanNumeral str).magnitude ≤ pf.ulongMax) := by
    intro s hs str
    rw [NumericSetting.Unreadable, if_pos hs, not_or, Nat.not_lt]
  cases s with
  | judgesNum =>
    simp only [hsize _ (show NumericSetting.judgesNum.IsSize by decide)]
    exact size_eq_ret_some
  | dbMaxConnections =>
    simp only [hsize _ (show NumericSetting.dbMaxConnections.IsSize by decide)]
    exact size_eq_ret_some
  | dbPort =>
    simp only [hport _ (show ¬NumericSetting.dbPort.IsSize by decide)]
    exact portOf_eq_ret_some
  | ftpPort =>
    simp only [hport _ (show ¬NumericSetting.ftpPort.IsSize by decide)]
    exact portOf_eq_ret_some
  | sftpPort =>
    simp only [hport _ (show ¬NumericSetting.sftpPort.IsSize by decide)]
    exact portOf_eq_ret_some

/-! ### Numerals -/

theorem not_isSpace_of_isDigit {c : Char} (hc : c.isDigit = true) : isSpace c = false :=
  not_isSpace_of_isWord (by simp [isWord, Char.isAlphanum, hc])

theorem takeWhile_digits (hall : ∀ c ∈ ds, c.isDigit = true) :
    ds.takeWhile Char.isDigit = ds ∧ ds.dropWhile Char.isDigit = [] :=
  ⟨List.takeWhile_eq_self_iff.mpr hall, List.dropWhile_eq_nil_iff.mpr hall⟩

/-- Digits without a sign. -/
theorem scanNumeral_digits (hne : ds ≠ []) (hall : ∀ c ∈ ds, c.isDigit = true) :
    scanNumeral ds = ⟨false, ds, []⟩ := by
  obtain ⟨htake, hdrop⟩ := takeWhile_digits hall
  obtain ⟨c, cs, rfl⟩ := List.exists_cons_of_ne_nil hne
  have hc : c.isDigit = true := hall c List.mem_cons_self
  have hblank : (c :: cs).dropWhile isSpace = c :: cs := by
    rw [List.dropWhile_cons, not_isSpace_of_isDigit hc]
    rfl
  have hminus : c ≠ '-' := by
    rintro rfl
    exact absurd hc (by decide)
  have hplus : c ≠ '+' := by
    rintro rfl
    exact absurd hc (by decide)
  simp [scanNumeral, hblank, hminus, hplus, htake, hdrop]

theorem scanNumeral_plus (hall : ∀ c ∈ ds, c.isDigit = true) :
    scanNumeral ('+' :: ds) = ⟨false, ds, []⟩ := by
  obtain ⟨htake, hdrop⟩ := takeWhile_digits hall
  have hblank : ('+' :: ds).dropWhile isSpace = '+' :: ds := rfl
  simp [scanNumeral, hblank, htake, hdrop]

theorem scanNumeral_minus (hall : ∀ c ∈ ds, c.isDigit = true) :
    scanNumeral ('-' :: ds) = ⟨true, ds, []⟩ := by
  obtain ⟨htake, hdrop⟩ := takeWhile_digits hall
  have hblank : ('-' :: ds).dropWhile isSpace = '-' :: ds := rfl
  simp [scanNumeral, hblank, htake, hdrop]

/-- **A numeral is scanned to its end**, and has the number that it writes. -/
theorem Decimal.scanNumeral (h : Decimal str x) :
    (Posix.scanNumeral str).value = x ∧
      ((Posix.scanNumeral str).neg = true → '-' ∈ str) := by
  obtain ⟨ds, hne, hall, ⟨rfl | rfl, rfl⟩ | ⟨rfl, rfl⟩⟩ := h
  · rw [scanNumeral_digits hne hall]
    exact ⟨rfl, nofun⟩
  · rw [scanNumeral_plus hall]
    exact ⟨rfl, nofun⟩
  · rw [scanNumeral_minus hall]
    exact ⟨rfl, fun _ => List.mem_cons_self⟩

/-! ### When a number is read exactly -/

/-- A number for a size has no sign to be wrapped. -/
theorem NumericSetting.Accepts.magnitude (h : s.Accepts str x) (hs : s.IsSize) :
    (scanNumeral str).neg = false ∧ ((scanNumeral str).magnitude : ℤ) = x ∧
      (scanNumeral str).magnitude < 2 ^ 32 := by
  obtain ⟨hdecimal, hfits, hsign⟩ := h
  obtain ⟨hvalue, hneg⟩ := hdecimal.scanNumeral
  have hpos : (scanNumeral str).neg = false := by
    rw [Bool.eq_false_iff]
    exact fun hc => hsign hs (hneg hc)
  rw [Numeral.value, hpos] at hvalue
  have hmagnitude : ((scanNumeral str).magnitude : ℤ) = x := hvalue
  rw [Fits, if_pos hs] at hfits
  exact ⟨hpos, hmagnitude, by omega⟩

/-- A port is kept by the conversion to `int`. -/
theorem NumericSetting.Accepts.toInt_value (h : s.Accepts str x) (hs : ¬s.IsSize) :
    toInt (scanNumeral str).value = x := by
  obtain ⟨hdecimal, hfits, -⟩ := h
  rw [Fits, if_neg hs] at hfits
  have hint : ((2 ^ 32 : ℕ) : ℤ) = 4294967296 := rfl
  rw [hdecimal.scanNumeral.1, toInt, Int.bmod_def, hint]
  split <;> omega

/-- A number for the setting is stored as it is meant. -/
theorem NumericSetting.Accepts.stored_eq (h : s.Accepts str x) :
    s.stored pf (scanNumeral str) = s.meant x := by
  cases s with
  | judgesNum =>
    obtain ⟨hpos, rfl, hlt⟩ := h.magnitude (by decide)
    rw [stored, hpos]
    exact congrArg _ (Nat.mod_eq_of_lt hlt)
  | dbMaxConnections =>
    obtain ⟨hpos, rfl, hlt⟩ := h.magnitude (by decide)
    simp only [stored, meant, hpos, maxAvailableConnections, Nat.mod_eq_of_lt hlt, if_true,
      Bool.false_eq_true, if_false]
    split <;> omega
  | dbPort => exact h.toInt_value (by decide)
  | ftpPort => exact h.toInt_value (by decide)
  | sftpPort => exact h.toInt_value (by decide)

/-- **When a number is read exactly**: exactly if the value in the text cannot be converted, so
that the daemon exits, or it is a number for the setting. -/
theorem readsExactly_iff (pf : Platform) (pcre : Pcre) (mBuffer : Option (List Char))
    (s : NumericSetting) : ReadsExactly pf pcre mBuffer s ↔
      ∀ str, regexGetValue pcre mBuffer s.key none = .ret (some str) →
        s.Unreadable pf str ∨ ∃ x, s.Accepts str x := by
  constructor
  · intro h str hstr
    by_cases hun : s.Unreadable pf str
    · exact Or.inl hun
    · obtain ⟨str', x, hstr', haccepts, -⟩ := h _ (used_eq_ret_some.mpr ⟨str, hstr, hun, rfl⟩)
      obtain rfl := Option.some.inj (Outcome.ret.inj (hstr.symm.trans hstr'))
      exact Or.inr ⟨x, haccepts⟩
  · intro h n hn
    obtain ⟨str, hstr, hread, rfl⟩ := used_eq_ret_some.mp hn
    obtain ⟨x, haccepts⟩ := (h str hstr).resolve_left hread
    exact ⟨str, x, hstr, haccepts, haccepts.stored_eq⟩

/-- Numbers that are cut off, wrapped or narrowed without notice: a port with letters behind it,
a negative number of judges, and one judge more than an `unsigned int` can count. -/
theorem used_inexact :
    NumericSetting.dbPort.used lp64 backtracking (some "DB_PORT = 33x6".toList) =
      .ret (some 33) ∧
    NumericSetting.judgesNum.used lp64 backtracking (some "JUDGES_NUM = 4294967296".toList) =
      .ret (some 0) ∧
    NumericSetting.judgesNum.used lp64 backtracking (some "JUDGES_NUM = -1".toList) =
      .ret (some 4294967295) ∧
    ¬ReadsExactly lp64 backtracking (some "JUDGES_NUM = -1".toList) .judgesNum := by
  have hused : NumericSetting.judgesNum.used lp64 backtracking
      (some "JUDGES_NUM = -1".toList) = .ret (some 4294967295) := by decide +kernel
  refine ⟨by decide +kernel, by decide +kernel, hused, fun h => ?_⟩
  obtain ⟨str, x, hstr, ⟨-, -, hsign⟩, -⟩ := h _ hused
  have hvalue : regexGetValue backtracking (some "JUDGES_NUM = -1".toList) "JUDGES_NUM" none =
      .ret (some ['-', '1']) := by decide +kernel
  obtain rfl := Option.some.inj (Outcome.ret.inj (hvalue.symm.trans hstr))
  exact hsign (by decide) (by decide)

/-! ### The ports of the transfers -/

/-- The look-ups of a buffer, where `none` is an exit. -/
def loadedConfig (pf : Platform) (pcre : Pcre) (text : List Char) : ConfigManager where
  getString key := match NpuOj.getString pcre (some text) key none with
    | .ret v => v.map String.ofList
    | _ => none
  getLong key := match NpuOj.getLong pf pcre (some text) key with
    | .ret num => num
    | _ => none

/-- **The port of the transfers** is the one of the configured mode. -/
theorem port_of_readSettings {text : List Char} {c : TransferSettings}
    (h : readSettings (loadedConfig pf pcre text) = some c) :
    (c.mode = .sftp ∧ NumericSetting.sftpPort.used pf pcre (some text) = .ret (some c.port)) ∨
      (c.mode = .ftp ∧ NumericSetting.ftpPort.used pf pcre (some text) = .ret (some c.port)) := by
  have hport : ∀ key port, (loadedConfig pf pcre text).getLong key = some port →
      portOf pf pcre (some text) key = .ret (some (toInt port)) := by
    intro key port hget
    rw [loadedConfig] at hget
    dsimp only at hget
    rw [portOf]
    split at hget
    · next num hnum => rw [hnum, hget]; rfl
    · cases hget
  simp only [readSettings, Option.bind_eq_bind, Option.bind_eq_some_iff] at h
  obtain ⟨mode, -, h⟩ := h
  split at h
  · simp only [Option.bind_eq_some_iff] at h
    obtain ⟨host, -, port, hget, user, -, idFile, -, script, -, upScript, -, hc⟩ := h
    obtain rfl := Option.some.inj hc
    exact Or.inl ⟨rfl, hport _ port hget⟩
  · split at h
    · simp only [Option.bind_eq_some_iff] at h
      obtain ⟨host, -, port, hget, user, -, pass, -, script, -, upScript, -, hc⟩ := h
      obtain rfl := Option.some.inj hc
      exact Or.inr ⟨rfl, hport _ port hget⟩
    · cases h

end Exact

end NpuOj
