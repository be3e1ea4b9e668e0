import Mathlib.Algebra.Group.Int.Defs
import Mathlib.Algebra.Group.Nat.Defs
import Mathlib.Algebra.GroupWithZero.Nat
import Mathlib.Data.Int.Init
import Mathlib.Tactic.Common

/-!
# What a C program relies on: word sizes, wait statuses, strings

The parts of C and POSIX that a supervising program computes with.

* **Sizes.** The width of `long` and `size_t` and the size of a page differ
  between the builds of a program, and are the two fields of `Posix.Platform`. A
  signed value is an integer; where the code converts between `long` and `size_t`,
  `Posix.Platform.toSizeT` and `Posix.Platform.toLong` are the conversions.
* **Wait statuses.** `wait4`, `waitpid` and `system` report an `int`, which the
  macros `WIFEXITED`, `WTERMSIG` and so on take apart. A status that `wait4`
  reports without `WCONTINUED` is an exit, a termination by a signal or a stop
  (`Posix.WaitStatus`), and a stop is neither of the other two
  (`Posix.not_wifstopped_of_wifexited`, `Posix.not_wifsignaled_of_wifstopped`).
* **Strings.** `snprintf` and `strncpy` cut a text to the buffer, `strtoul` reads a
  decimal prefix. A `Char` of a text stands for one byte, which is what they count.
-/

namespace Posix

/-! ### Sizes -/

/-- The sizes in which two builds of a program differ. -/
structure Platform where
  /-- The number of bits of `long` and of `size_t`. -/
  wordBits : ℕ
  /-- The number of bytes of a page. -/
  pageSize : ℤ

namespace Platform

variable (pf : Platform)

/-- The greatest `unsigned long` (and `size_t`). -/
def ulongMax : ℕ := 2 ^ pf.wordBits - 1

/-- The conversion of a signed value to `size_t`. -/
def toSizeT (x : ℤ) : ℕ := (x % 2 ^ pf.wordBits).toNat

/-- The `long` that holds the low bits of a value. -/
def toLong (x : ℤ) : ℤ := x.bmod (2 ^ pf.wordBits)

/-- The `size_t` that holds the low bits of a value. -/
def wrap (n : ℕ) : ℕ := n % 2 ^ pf.wordBits

/-- The value is one of a `long`. -/
def FitsLong (x : ℤ) : Prop := -2 ^ pf.wordBits ≤ 2 * x ∧ 2 * x < 2 ^ pf.wordBits

instance (x : ℤ) : Decidable (pf.FitsLong x) := inferInstanceAs (Decidable (_ ∧ _))

variable {pf} {x : ℤ}

theorem toLong_of_fitsLong (h : pf.FitsLong x) : pf.toLong x = x := by
  obtain ⟨hlow, hhigh⟩ := h
  refine Int.bmod_eq_of_le_mul_two ?_ ?_ <;>
    · push_cast
      omega

/-- A value that is not negative is kept by the conversion, if there is room. -/
theorem toSizeT_of_nonneg (hx : 0 ≤ x) (hlt : x < 2 ^ pf.wordBits) : (pf.toSizeT x : ℤ) = x := by
  rw [toSizeT, Int.emod_eq_of_lt hx hlt, Int.toNat_of_nonneg hx]

/-- A negative value becomes one close to the greatest. -/
theorem toSizeT_of_neg (hx : x < 0) (hle : -2 ^ pf.wordBits ≤ x) :
    (pf.toSizeT x : ℤ) = x + 2 ^ pf.wordBits := by
  have hmod : x % 2 ^ pf.wordBits = x + 2 ^ pf.wordBits := by
    rw [← Int.add_emod_right, Int.emod_eq_of_lt] <;> omega
  rw [toSizeT, hmod, Int.toNat_of_nonneg (by omega)]

/-- A sum of sizes is at least the first exactly if it does not wrap. -/
theorem le_wrap_add_iff {n m : ℕ} (hn : n < 2 ^ pf.wordBits) (hm : m < 2 ^ pf.wordBits) :
    n ≤ pf.wrap (n + m) ↔ n + m < 2 ^ pf.wordBits := by
  rw [wrap]
  constructor
  · intro h
    by_contra hge
    rw [Nat.mod_eq_sub_mod (by omega), Nat.mod_eq_of_lt (by omega)] at h
    omega
  · intro h
    rw [Nat.mod_eq_of_lt h]
    exact Nat.le_add_right n m

end Platform

/-- The two common builds: 32 and 64 bits, with pages of 4096 bytes. -/
def ilp32 : Platform := ⟨32, 4096⟩

@[inherit_doc ilp32]
def lp64 : Platform := ⟨64, 4096⟩

/-! ### Wait statuses -/

/-- The value of a byte as a `signed char`. -/
def signedChar (x : ℤ) : ℤ := if x < 128 then x else x - 256

/-- `WTERMSIG`: the low seven bits. -/
def wtermsig (stat : ℤ) : ℤ := stat % 128

/-- `WEXITSTATUS`: the second byte. -/
def wexitstatus (stat : ℤ) : ℤ := stat / 256 % 256

/-- `WSTOPSIG` is `WEXITSTATUS`. -/
def wstopsig (stat : ℤ) : ℤ := wexitstatus stat

/-- `WIFEXITED` -/
def wifexited (stat : ℤ) : Prop := wtermsig stat = 0

/-- `WIFSIGNALED`, as the C library writes it: `((signed char) ((stat & 0x7f) + 1) >> 1) > 0`. -/
def wifsignaled (stat : ℤ) : Prop := 0 < signedChar (wtermsig stat + 1) / 2

/-- `WIFSTOPPED` -/
def wifstopped (stat : ℤ) : Prop := stat % 256 = 127

instance : DecidablePred wifexited := fun _ => inferInstanceAs (Decidable (_ = _))

instance : DecidablePred wifsignaled := fun _ => inferInstanceAs (Decidable (_ < _))

instance : DecidablePred wifstopped := fun _ => inferInstanceAs (Decidable (_ = _))

/-- A status is one of a termination by signal when its low seven bits are neither
all clear nor all set. -/
theorem wifsignaled_iff {stat : ℤ} : wifsignaled stat ↔ stat % 128 ≠ 0 ∧ stat % 128 ≠ 127 := by
  rw [wifsignaled, wtermsig, signedChar]
  split <;> omega

theorem not_wifstopped_of_wifexited {stat : ℤ} (h : wifexited stat) : ¬wifstopped stat := by
  rw [wifexited, wtermsig] at h
  rw [wifstopped]
  omega

theorem not_wifsignaled_of_wifstopped {stat : ℤ} (h : wifstopped stat) : ¬wifsignaled stat := by
  rw [wifstopped] at h
  rw [wifsignaled_iff]
  omega

/-- The number of a signal that may terminate a child. -/
abbrev Signo := { signo : Fin 127 // signo ≠ 0 }

/-- **A status that `wait4` reports** when it is not asked for continued children. -/
structure WaitStatus where
  /-- The status word. -/
  stat : ℤ
  /-- The child exited, was terminated by a signal, or stopped. -/
  reported : wifexited stat ∨ wifsignaled stat ∨ wifstopped stat

namespace WaitStatus

/-- A byte may be written as a numeral. -/
instance : NeZero 256 := ⟨by decide⟩

instance : DecidableEq WaitStatus := fun a b =>
  decidable_of_iff (a.stat = b.stat) (by cases a; cases b; simp)

/-- The status of a child that exited. -/
def exited (code : Fin 256) : WaitStatus where
  stat := 256 * code
  reported := Or.inl (by rw [wifexited, wtermsig]; omega)

/-- The status of a child that was terminated by a signal. -/
def signaled (signo : Signo) : WaitStatus where
  stat := (signo.1 : ℕ)
  reported := Or.inr (Or.inl (by
    have hne := Fin.val_ne_zero_iff.mpr signo.2
    rw [wifsignaled_iff]
    omega))

/-- The status of a child that was stopped by a signal. -/
def stopped (signo : Fin 256) : WaitStatus where
  stat := 256 * signo + 127
  reported := Or.inr (Or.inr (by rw [wifstopped]; omega))

theorem wexitstatus_exited (code : Fin 256) : wexitstatus (exited code).stat = code := by
  simp only [wexitstatus, exited]
  omega

theorem wifexited_exited (code : Fin 256) : wifexited (exited code).stat := by
  simp only [wifexited, wtermsig, exited]
  omega

theorem wifsignaled_signaled (signo : Signo) : wifsignaled (signaled signo).stat := by
  have hne := Fin.val_ne_zero_iff.mpr signo.2
  simp only [wifsignaled_iff, signaled]
  omega

theorem wifstopped_stopped (signo : Fin 256) : wifstopped (stopped signo).stat := by
  simp only [wifstopped, stopped]
  omega

theorem wstopsig_stopped (signo : Fin 256) : wstopsig (stopped signo).stat = signo := by
  simp only [wstopsig, wexitstatus, stopped]
  omega

/-- The child has come to its end, and a `wait` has told so. -/
def Ended (status : WaitStatus) : Prop := wifexited status.stat ∨ wifsignaled status.stat

instance : DecidablePred Ended := fun _ => inferInstanceAs (Decidable (_ ∨ _))

/-- A child that has not come to its end is stopped. -/
theorem ended_iff {status : WaitStatus} : status.Ended ↔ ¬wifstopped status.stat := by
  constructor
  · rintro (hexit | hsig) hstop
    · exact not_wifstopped_of_wifexited hexit hstop
    · exact not_wifsignaled_of_wifstopped hstop hsig
  · intro hstop
    exact (or_assoc.mpr status.reported).resolve_right hstop

end WaitStatus

/-! ### Signal numbers on x86 -/

def sigtrap : ℤ := 5
def sigabrt : ℤ := 6
def sigbus : ℤ := 7
def sigkill : ℤ := 9
def sigsegv : ℤ := 11
def sigalrm : ℤ := 14
def sigchld : ℤ := 17
def sigxcpu : ℤ := 24
def sigxfsz : ℤ := 25

/-! ### Strings -/

/-- What `snprintf` leaves in a buffer of `size` bytes: the text, cut so that the
terminating zero byte fits. -/
def snprintf (size : ℕ) (text : String) : String := String.ofList (text.toList.take (size - 1))

/-- What `strncpy` leaves in a zeroed field that has room for `size` bytes and a zero byte:
the text, cut without notice. -/
def strncpy (size : ℕ) (text : String) : String := String.ofList (text.toList.take size)

theorem length_strncpy (size : ℕ) (text : String) :
    (strncpy size text).length = min size text.length := by
  rw [strncpy, String.length_ofList, List.length_take, String.length_toList]

theorem strncpy_of_length_le {size : ℕ} {text : String} (h : text.length ≤ size) :
    strncpy size text = text := by
  rw [strncpy, List.take_of_length_le (by rwa [String.length_toList]), String.ofList_toList]

theorem length_snprintf (size : ℕ) (text : String) :
    (snprintf size text).length = min (size - 1) text.length :=
  length_strncpy (size - 1) text

theorem snprintf_of_length_le {size : ℕ} {text : String} (h : text.length ≤ size - 1) :
    snprintf size text = text :=
  strncpy_of_length_le h

/-- A number is read back from its digits. -/
theorem ofDigitChars_toString (n : ℕ) : Nat.ofDigitChars 10 (toString n).toList 0 = n := by
  have hdigits : (toString n).toList = Nat.toDigits 10 n := Nat.toList_repr
  rw [hdigits, Nat.ofDigitChars_ten_toDigits]

theorem toString_injective {n m : ℕ} (h : toString n = toString m) : n = m := by
  rw [← ofDigitChars_toString n, h, ofDigitChars_toString]

/-- The bytes of an ASCII text. -/
def ascii (text : String) : List UInt8 := text.toList.map fun c => UInt8.ofNat c.toNat

/-- `strcasecmp(a, b) == 0`: the texts up to the terminating zero byte agree but for the
case of ASCII letters. -/
def strcasecmpEq (a b : String) : Bool :=
  let folded (text : String) := (text.toList.takeWhile fun c => c.toNat ≠ 0).map Char.toLower
  folded a == folded b

/-- `strncasecmp(a, b, n) == 0`, for texts without a zero byte. -/
def strncasecmpEq (a b : String) (n : ℕ) : Bool :=
  (a.toList.map Char.toLower).take n == (b.toList.map Char.toLower).take n

/-- The blanks that `strtoul` skips. -/
def isSpace (c : Char) : Bool := c == ' ' || (9 ≤ c.toNat && c.toNat ≤ 13)

/-- The number that a list of decimal digits writes. -/
def ofDigits (ds : List Char) : ℕ := ds.foldl (fun n c => 10 * n + (c.toNat - 48)) 0

/-- `strtoul(text, NULL, 10)`: blanks, an optional sign and as many digits as there
are; a value out of range becomes the greatest `unsigned long`, and a minus sign
negates in `unsigned long`. -/
def strtoul (pf : Platform) (text : String) : ℕ :=
  let cs := text.toList.dropWhile isSpace
  let (neg, cs) := match cs with
    | '-' :: rest => (true, rest)
    | '+' :: rest => (false, rest)
    | _ => (false, cs)
  let n := ofDigits (cs.takeWhile Char.isDigit)
  if pf.ulongMax < n then pf.ulongMax else if neg then pf.wrap (2 ^ pf.wordBits - n) else n

/-- What `strtol` and `strtoul` find at the beginning of a text: a sign, digits, and what comes
after them. Without digits nothing is converted. -/
structure Numeral where
  neg : Bool
  digits : List Char
  rest : List Char
  deriving DecidableEq, Repr

/-- The numeral at the beginning of a text, after blanks. -/
def scanNumeral (cs : List Char) : Numeral :=
  let cs := cs.dropWhile isSpace
  let (neg, cs) := match cs with
    | '-' :: rest => (true, rest)
    | '+' :: rest => (false, rest)
    | _ => (false, cs)
  ⟨neg, cs.takeWhile Char.isDigit, cs.dropWhile Char.isDigit⟩

namespace Numeral

/-- The number that the digits write. -/
def magnitude (num : Numeral) : ℕ := ofDigits num.digits

/-- The number with its sign. -/
def value (num : Numeral) : ℤ := if num.neg then -num.magnitude else num.magnitude

end Numeral

/-- `LONG_MAX` -/
def Platform.longMax (pf : Platform) : ℤ := 2 ^ (pf.wordBits - 1) - 1

/-- `LONG_MIN` -/
def Platform.longMin (pf : Platform) : ℤ := -2 ^ (pf.wordBits - 1)

/-- `strtol(text, &end, 10)`: the number, and whether `errno` is `ERANGE`. -/
def strtol (pf : Platform) (cs : List Char) : ℤ × Bool :=
  let num := scanNumeral cs
  if pf.FitsLong num.value then (num.value, false)
  else (if num.neg then pf.longMin else pf.longMax, true)

theorem strtol_of_fitsLong {pf : Platform} {cs : List Char}
    (h : pf.FitsLong (scanNumeral cs).value) :
    strtol pf cs = ((scanNumeral cs).value, false) := if_pos h

/-- A number that is out of range becomes the greatest or the least. -/
theorem strtol_of_not_fitsLong {pf : Platform} {cs : List Char}
    (h : ¬pf.FitsLong (scanNumeral cs).value) :
    (strtol pf cs).2 = true ∧
      ((strtol pf cs).1 = pf.longMax ∨ (strtol pf cs).1 = pf.longMin) := by
  have hconv : strtol pf cs = (if (scanNumeral cs).neg then pf.longMin else pf.longMax, true) :=
    if_neg h
  rw [hconv]
  refine ⟨rfl, ?_⟩
  cases (scanNumeral cs).neg
  · exact Or.inl rfl
  · exact Or.inr rfl

/-- Whether `errno` is `ERANGE` after `strtoul(text, &end, 10)`. -/
def strtoulErange (pf : Platform) (cs : List Char) : Bool :=
  pf.ulongMax < (scanNumeral cs).magnitude

/-- What `strtoul` returns, by the numeral at the beginning. -/
theorem strtoul_ofList (pf : Platform) (cs : List Char) :
    strtoul pf (String.ofList cs) =
      if pf.ulongMax < (scanNumeral cs).magnitude then pf.ulongMax
      else if (scanNumeral cs).neg then pf.wrap (2 ^ pf.wordBits - (scanNumeral cs).magnitude)
      else (scanNumeral cs).magnitude := by
  simp only [strtoul, scanNumeral, Numeral.magnitude, String.toList_ofList]
  rfl

example : strtoul ilp32 " 1000 ms" = 1000 ∧ strtoul ilp32 "-1" = 4294967295 ∧
    strtoul ilp32 "99999999999" = 4294967295 := by decide

end Posix
