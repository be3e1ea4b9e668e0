import NpuOj.Config
import NpuOj.Lib.Backtracking

/-!
# What the pattern of a key finds

The pattern of a key asks for a line start, the key, an equals sign and a value, with runs of
`\s` between them, and `\s` is any white space: also the end of a line. So what it finds is an
*assignment* whose gaps may go over line ends. This file says what is found, for the texts that
a configuration file is made of, and compares it with the assignments that stand on one line.

What is asked of PCRE is that it finds the leftmost match, the one that backtracking comes to
first, for the patterns that `regex_get_value` builds from a word and for texts in ASCII whose line
ends are line feeds (`NpuOj.Pcre.RunsKeys`). `NpuOj.backtracking` is a PCRE that can be run.

* `NpuOj.matcher_eq_some`, `NpuOj.matcher_eq_none_iff`: the match is an assignment whose gaps are
  white space, at the first place where there is one, and its group is the value.
* `NpuOj.oneLine_iff`: when that assignment stands on one line.
* `NpuOj.regexGetValue_joinLines`: on a text whose lines are each blank, a comment or an
  assignment it always does, and it is the first of the lines that assign to the key.
-/

namespace NpuOj

open Posix Backtracking

/-! ### Texts and keys -/

/-- A letter, a digit or an underscore. -/
def isWord (c : Char) : Bool := c.isAlphanum || c == '_'

/-- A space or a tab. -/
def isBlank (c : Char) : Bool := c == ' ' || c == '\t'

/-- A printable character that is not a space. -/
def isGraph (c : Char) : Bool := 33 ≤ c.toNat && c.toNat ≤ 126

/-- **A text for a configuration file**: printable characters, blanks and line feeds. -/
structure ConfigText where
  chars : List Char
  plain : ∀ c ∈ chars, isGraph c ∨ isBlank c ∨ c = '\n'

/-- **A key**: a word that fits into the buffer for the pattern. -/
structure ConfigKey where
  name : List Char
  word : ∀ c ∈ name, isWord c = true
  fits : name.length + 20 ≤ bufferSize - 2

/-- The letters agree but for the case. -/
def sameLetter (b c : Char) : Bool := b.toLower == c.toLower

/-- The words agree but for the case. -/
abbrev SameWord (key name : List Char) : Prop :=
  List.Forall₂ (fun b c => sameLetter b c = true) key name

/-! ### PCRE on the patterns of the keys -/

/-- `^` in multiline mode: the beginning of the text, or behind a line feed that is not its end. -/
def lineStart (before after : List Char) : Bool :=
  match before with
  | [] => true
  | c :: _ => c == '\n' && !after.isEmpty

/-- `$` in multiline mode: the end of the text, or in front of a line feed. -/
def lineEnd (_before after : List Char) : Bool :=
  match after with
  | [] => true
  | c :: _ => c == '\n'

/-- What a pattern says, as far as the patterns of the keys need it. Letters are taken in either
case. -/
def parsePattern : List Char → Option (List (Piece Char))
  | [] => some []
  | '^' :: rest => (parsePattern rest).map (.place lineStart :: ·)
  | '$' :: rest => (parsePattern rest).map (.place lineEnd :: ·)
  | '(' :: rest => (parsePattern rest).map (.openGroup :: ·)
  | ')' :: rest => (parsePattern rest).map (.closeGroup :: ·)
  | '\\' :: 's' :: '*' :: rest => (parsePattern rest).map (.star isSpace :: ·)
  | '\\' :: 'S' :: '+' :: rest => (parsePattern rest).map (.plus (fun c => !isSpace c) :: ·)
  | c :: rest =>
    if isWord c || c == '=' then (parsePattern rest).map (.one (sameLetter c) :: ·) else none

/-- The group that a matcher has remembered. -/
def groupOf (length : ℕ) (t : Thread Char) : Option (Span length) :=
  match t.opened, t.closed with
  | some start, some stop =>
    if h : start ≤ stop ∧ stop ≤ length then some ⟨start, stop, h.1, h.2⟩ else none
  | _, _ => none

/-- `pcre_exec`: the pieces are searched for from the beginning of the subject. -/
def matcher (pieces : List (Piece Char)) : Matcher := fun subject =>
  (Backtracking.search pieces [] subject).map (groupOf subject.length)

/-- **A PCRE** for the patterns of the keys. -/
def backtracking : Pcre := fun pattern => (parsePattern pattern.toList).map matcher

/-- The pieces of the pattern of a key. -/
def ConfigKey.pieces (key : ConfigKey) : List (Piece Char) :=
  .place lineStart :: .star isSpace :: (key.name.map (fun b => .one (sameLetter b)) ++
    [.star isSpace, .one (sameLetter '='), .star isSpace, .openGroup,
      .plus (fun c => !isSpace c), .closeGroup, .star isSpace, .place lineEnd])

section Compile

variable {c : Char} {word rest : List Char}

theorem parsePattern_cons (hc : isWord c = true) :
    parsePattern (c :: rest) = (parsePattern rest).map (.one (sameLetter c) :: ·) := by
  rw [parsePattern.eq_def]
  split
  all_goals try (obtain ⟨rfl, -⟩ := List.cons.inj ‹_›; exact absurd hc (by decide))
  · next h => cases h
  · next h =>
    obtain ⟨rfl, rfl⟩ := List.cons.inj h
    rw [if_pos (by rw [hc, Bool.true_or])]

theorem parsePattern_append (hword : ∀ c ∈ word, isWord c = true) :
    parsePattern (word ++ rest) =
      (parsePattern rest).map (word.map (fun b => .one (sameLetter b)) ++ ·) := by
  induction word with
  | nil => simp
  | cons c word ih =>
    rw [List.forall_mem_cons] at hword
    rw [List.cons_append, parsePattern_cons hword.1, ih hword.2, Option.map_map]
    rfl

/-- **The pattern of a key compiles** to its pieces. -/
theorem backtracking_valuePattern (key : ConfigKey) :
    backtracking (valuePattern (String.ofList key.name)) = some (matcher key.pieces) := by
  have hlength : ("^\\s*" ++ String.ofList key.name ++ "\\s*=\\s*(\\S+)\\s*$").length
      ≤ bufferSize - 1 - 1 := by
    have hhead : "^\\s*".length = 4 := rfl
    have htail : "\\s*=\\s*(\\S+)\\s*$".length = 16 := rfl
    have hname : (String.ofList key.name).length = key.name.length := String.length_ofList
    rw [String.length_append, String.length_append, hhead, htail, hname]
    have hfits := key.fits
    omega
  have htext : (valuePattern (String.ofList key.name)).toList =
      '^' :: '\\' :: 's' :: '*' :: (key.name ++ "\\s*=\\s*(\\S+)\\s*$".toList) := by
    rw [valuePattern, snprintf_of_length_le hlength]
    simp
  rw [backtracking, htext, parsePattern, parsePattern, parsePattern_append key.word]
  rfl

end Compile

/-- **PCRE runs the patterns of the keys**: it finds the leftmost match of their pieces, the one
that backtracking comes to first. -/
def Pcre.RunsKeys (pcre : Pcre) : Prop :=
  ∀ key : ConfigKey, ∃ exec, pcre (valuePattern (String.ofList key.name)) = some exec ∧
    ∀ text : ConfigText, exec text.chars = matcher key.pieces text.chars

theorem runsKeys_backtracking : backtracking.RunsKeys :=
  fun key => ⟨_, backtracking_valuePattern key, fun _ => rfl⟩

/-! ### Assignments -/

/-- **An assignment**: a name, an equals sign and a value, with gaps of a kind. -/
structure Assignment (gap : Char → Bool) where
  indent : List Char
  name : List Char
  gapBefore : List Char
  gapAfter : List Char
  value : List Char
  trail : List Char
  indent_gap : ∀ c ∈ indent, gap c = true
  name_word : ∀ c ∈ name, isWord c = true
  gapBefore_gap : ∀ c ∈ gapBefore, gap c = true
  gapAfter_gap : ∀ c ∈ gapAfter, gap c = true
  value_ne : value ≠ []
  value_solid : ∀ c ∈ value, isSpace c = false
  trail_gap : ∀ c ∈ trail, gap c = true

namespace Assignment

variable {gap : Char → Bool} (a : Assignment gap)

/-- What comes before the equals sign. -/
def head : List Char := a.indent ++ a.name ++ a.gapBefore

/-- How an assignment is written. -/
def text : List Char := a.head ++ '=' :: (a.gapAfter ++ (a.value ++ a.trail))

/-- Where the value begins. -/
def valueAt : ℕ := a.head.length + 1 + a.gapAfter.length

theorem text_append_ne_nil (rest : List Char) : a.text ++ rest ≠ [] := by
  simp [text]

end Assignment

/-- The text before a line. -/
def LineStart (before : List Char) : Prop := before = [] ∨ ∃ b, before = b ++ ['\n']

/-- The text after a line. -/
def LineEnd (after : List Char) : Prop := after = [] ∨ ∃ a, after = '\n' :: a

/-- **An assignment in a text**, from a line start to a line end. If its gaps are blanks then it
stands on one line. -/
structure Occurrence (gap : Char → Bool) (text : List Char) where
  before : List Char
  assignment : Assignment gap
  after : List Char
  text_eq : text = before ++ (assignment.text ++ after)
  lineStart : LineStart before
  lineEnd : LineEnd after

namespace Occurrence

variable {gap : Char → Bool} {text : List Char} (o : Occurrence gap text)

/-- The name is the key, but for the case. -/
def AssignsTo (key : ConfigKey) : Prop := SameWord key.name o.assignment.name

/-- The value that is assigned. -/
def value : List Char := o.assignment.value

/-- Where the value begins. -/
def valueAt : ℕ := o.before.length + o.assignment.valueAt

end Occurrence

/-! ### Letters -/

section Letters

variable {b c d : Char}

theorem isWord_iff : isWord c = true ↔ (48 ≤ c.toNat ∧ c.toNat ≤ 57) ∨
    (65 ≤ c.toNat ∧ c.toNat ≤ 90) ∨ (97 ≤ c.toNat ∧ c.toNat ≤ 122) ∨ c.toNat = 95 := by
  have hupper : c.isUpper = true ↔ 65 ≤ c.toNat ∧ c.toNat ≤ 90 := decide_eq_true_iff
  have hlower : c.isLower = true ↔ 97 ≤ c.toNat ∧ c.toNat ≤ 122 :=
    Bool.and_eq_true_iff.trans (and_congr decide_eq_true_iff decide_eq_true_iff)
  have hdigit : c.isDigit = true ↔ 48 ≤ c.toNat ∧ c.toNat ≤ 57 := Char.isDigit_iff_toNat
  have hunder : c = '_' ↔ c.toNat = 95 := Char.toNat_inj.symm
  have hword : isWord c = (c.isUpper || c.isLower || c.isDigit || c == '_') := rfl
  rw [hword, Bool.or_eq_true, Bool.or_eq_true, Bool.or_eq_true, beq_iff_eq, hupper, hlower, hdigit,
    hunder]
  omega

theorem isSpace_iff : isSpace c = true ↔ c.toNat = 32 ∨ (9 ≤ c.toNat ∧ c.toNat ≤ 13) := by
  simp [isSpace, ← Char.toNat_inj]

theorem isSpace_of_isBlank (hc : isBlank c = true) : isSpace c = true := by
  have hblank : c = ' ' ∨ c = '\t' := by simpa [isBlank] using hc
  rcases hblank with rfl | rfl <;> rfl

theorem not_isSpace_of_isWord (hc : isWord c = true) : isSpace c = false := by
  rw [isWord_iff] at hc
  rw [← Bool.not_eq_true, isSpace_iff]
  omega

theorem ne_eq_of_isWord (hc : isWord c = true) : c ≠ '=' := by
  rintro rfl
  exact absurd hc (by decide)

theorem toNat_toLower : c.toLower.toNat =
    if 65 ≤ c.toNat ∧ c.toNat ≤ 90 then c.toNat + 32 else c.toNat := by
  by_cases h : 65 ≤ c.toNat ∧ c.toNat ≤ 90
  · have hval : c.toLower.val = c.val + 32 := congrArg Char.val (dif_pos h)
    rw [if_pos h, ← Char.toNat_val, hval, UInt32.toNat_add]
    change (c.toNat + 32) % _ = _
    omega
  · have hsame : c.toLower = c := dif_neg h
    rw [if_neg h, hsame]

theorem sameLetter_iff : sameLetter b c = true ↔
    (if 65 ≤ b.toNat ∧ b.toNat ≤ 90 then b.toNat + 32 else b.toNat) =
      if 65 ≤ c.toNat ∧ c.toNat ≤ 90 then c.toNat + 32 else c.toNat := by
  rw [sameLetter, beq_iff_eq, ← Char.toNat_inj, toNat_toLower, toNat_toLower]

/-- A word stays one in the other case. -/
theorem isWord_of_sameLetter (hsame : sameLetter b c = true) (hb : isWord b = true) :
    isWord c = true := by
  rw [sameLetter_iff] at hsame
  rw [isWord_iff] at hb ⊢
  split at hsame <;> split at hsame <;> omega

/-- There is only one equals sign. -/
theorem sameLetter_eq_iff : sameLetter '=' c = true ↔ c = '=' := by
  have hnat : '='.toNat = 61 := rfl
  rw [sameLetter_iff, ← Char.toNat_inj, hnat, if_neg (by omega)]
  split <;> omega

theorem isWord_of_sameWord {key name : List Char} (h : SameWord key name)
    (hkey : ∀ b ∈ key, isWord b = true) : ∀ c ∈ name, isWord c = true := by
  intro c hc
  induction h with
  | nil => cases hc
  | cons hsame _ ih =>
    rw [List.forall_mem_cons] at hkey
    rcases List.mem_cons.mp hc with rfl | hc
    · exact isWord_of_sameLetter hsame hkey.1
    · exact ih hkey.2 hc

end Letters

/-! ### Runs of letters -/

section Runs

variable {p : Char → Bool} {xs ys xs' ys' : List Char}

/-- **A run of letters of a kind is as long as it can be**, where what comes after it begins
with another one. -/
theorem run_unique (hxs : ∀ c ∈ xs, p c = true) (hxs' : ∀ c ∈ xs', p c = true)
    (hys : ∀ c ∈ ys.head?, p c = false) (hys' : ∀ c ∈ ys'.head?, p c = false)
    (h : xs ++ ys = xs' ++ ys') : xs = xs' ∧ ys = ys' := by
  induction xs generalizing xs' with
  | nil =>
    cases xs' with
    | nil => exact ⟨rfl, h⟩
    | cons c xs' =>
      obtain rfl : ys = c :: (xs' ++ ys') := h
      exact absurd (hxs' c List.mem_cons_self) (by rw [hys c rfl]; decide)
  | cons c xs ih =>
    rw [List.forall_mem_cons] at hxs
    cases xs' with
    | nil =>
      obtain rfl : c :: (xs ++ ys) = ys' := h
      exact absurd hxs.1 (by rw [hys' c rfl]; decide)
    | cons d xs' =>
      rw [List.forall_mem_cons] at hxs'
      obtain ⟨rfl, htail⟩ := List.cons.inj h
      obtain ⟨rfl, hrest⟩ := ih hxs.2 hxs'.2 htail
      exact ⟨rfl, hrest⟩

theorem bne_of_notMem {d : Char} (h : d ∉ xs) : ∀ c ∈ xs, (c != d) = true := by
  intro c hc
  rw [bne_iff_ne]
  rintro rfl
  exact h hc

end Runs

namespace Occurrence

section Places

variable {gap : Char → Bool} {text : List Char} (o : Occurrence gap text)

/-- Where the equals sign is. -/
def eqAt : ℕ := o.before.length + o.assignment.head.length

theorem valueAt_eq : o.valueAt = o.eqAt + 1 + o.assignment.gapAfter.length := by
  rw [valueAt, Assignment.valueAt, eqAt]
  omega

/-- The text from the line start on. -/
theorem getElem?_text (j : ℕ) :
    text[o.before.length + j]? = (o.assignment.text ++ o.after)[j]? := by
  refine (congrArg (·[o.before.length + j]?) o.text_eq).trans ?_
  rw [List.getElem?_append_right (Nat.le_add_right _ _), Nat.add_sub_cancel_left]

theorem getElem?_eqAt : text[o.eqAt]? = some '=' := by
  rw [eqAt, getElem?_text, Assignment.text]
  simp

/-- The text up to the equals sign. -/
theorem take_eqAt : text.take o.eqAt = o.before ++ o.assignment.head := by
  have hsplit : text = (o.before ++ o.assignment.head) ++
      ('=' :: (o.assignment.gapAfter ++ (o.value ++ o.assignment.trail)) ++ o.after) :=
    o.text_eq.trans (by simp [Assignment.text, value])
  refine (congrArg (List.take o.eqAt) hsplit).trans (List.take_left' ?_)
  rw [List.length_append, eqAt]

/-- The text behind the equals sign. -/
theorem drop_eqAt : text.drop (o.eqAt + 1) =
    o.assignment.gapAfter ++ (o.value ++ (o.assignment.trail ++ o.after)) := by
  have hsplit : text = (o.before ++ o.assignment.head ++ ['=']) ++
      (o.assignment.gapAfter ++ (o.value ++ (o.assignment.trail ++ o.after))) :=
    o.text_eq.trans (by simp [Assignment.text, value])
  refine (congrArg (List.drop (o.eqAt + 1)) hsplit).trans (List.drop_left' ?_)
  simp [eqAt, Nat.add_assoc]

/-- The text from the value on. -/
theorem drop_valueAt : text.drop o.valueAt = o.value ++ (o.assignment.trail ++ o.after) := by
  rw [valueAt_eq, ← List.drop_drop, drop_eqAt, List.drop_left' rfl]

end Places

variable {text : List Char} (o o' : Occurrence isSpace text)

theorem not_mem_head : '=' ∉ o.assignment.head := by
  rw [Assignment.head, List.mem_append, List.mem_append]
  rintro ((h | h) | h)
  · exact absurd (o.assignment.indent_gap _ h) (by decide)
  · exact ne_eq_of_isWord (o.assignment.name_word _ h) rfl
  · exact absurd (o.assignment.gapBefore_gap _ h) (by decide)

theorem getElem?_valueAt : ∃ c, text[o.valueAt]? = some c ∧ isSpace c = false := by
  obtain ⟨c, cs, hvalue⟩ := List.exists_cons_of_ne_nil o.assignment.value_ne
  refine ⟨c, ?_, o.assignment.value_solid c (by rw [hvalue]; exact List.mem_cons_self)⟩
  rw [← List.head?_drop, drop_valueAt, value, hvalue]
  rfl

/-- Between the line start and the value there is one equals sign, and then white space. -/
theorem gap_of_getElem? {i : ℕ} {c : Char} (hstart : o.before.length ≤ i) (hi : i < o.valueAt)
    (hc : text[i]? = some c) : (i < o.eqAt ∧ c ≠ '=') ∨ i = o.eqAt ∨ isSpace c = true := by
  obtain ⟨j, rfl⟩ := Nat.exists_eq_add_of_le hstart
  rw [getElem?_text, Assignment.text, List.append_assoc] at hc
  rw [valueAt_eq, eqAt] at hi
  rw [eqAt]
  rcases Nat.lt_trichotomy j o.assignment.head.length with hlt | heq | hgt
  · rw [List.getElem?_append_left hlt] at hc
    refine Or.inl ⟨by omega, ?_⟩
    rintro rfl
    exact o.not_mem_head (List.mem_of_getElem? hc)
  · exact Or.inr (Or.inl (by rw [heq]))
  · obtain ⟨k, rfl⟩ := Nat.exists_eq_add_of_lt hgt
    rw [List.getElem?_append_right (by omega)] at hc
    have hk : o.assignment.head.length + k + 1 - o.assignment.head.length = k + 1 := by omega
    rw [hk, List.cons_append, List.getElem?_cons_succ, List.append_assoc,
      List.getElem?_append_left (by omega)] at hc
    exact Or.inr (Or.inr (o.assignment.gapAfter_gap c (List.mem_of_getElem? hc)))

/-- An equals sign behind the line start is not before the one of the assignment. -/
theorem eqAt_le (h : o.before.length ≤ o'.eqAt) : o.eqAt ≤ o'.eqAt := by
  by_contra hlt
  rw [Nat.not_le] at hlt
  have hi : o'.eqAt < o.valueAt := by
    rw [o.valueAt_eq]
    omega
  rcases o.gap_of_getElem? h hi o'.getElem?_eqAt with ⟨-, hne⟩ | heq | hspace
  · exact hne rfl
  · omega
  · exact absurd hspace (by decide)

/-- **What begins first has its value first.** -/
theorem valueAt_le (h : o.before.length ≤ o'.eqAt) : o.valueAt ≤ o'.valueAt := by
  by_contra hlt
  rw [Nat.not_le] at hlt
  have hle := o.eqAt_le o' h
  have heqAt' : o'.eqAt < o'.valueAt := by
    rw [o'.valueAt_eq]
    omega
  -- the value of the second would begin in white space of the first
  obtain ⟨c, hc, hsolid⟩ := o'.getElem?_valueAt
  rcases o.gap_of_getElem? (by omega) hlt hc with ⟨hbefore, -⟩ | heq | hspace
  · omega
  · omega
  · exact absurd hspace (by rw [hsolid]; decide)

/-- What comes after a value is white space. -/
theorem isSpace_of_head? : ∀ c ∈ (o.assignment.trail ++ o.after).head?, isSpace c = true := by
  intro c hc
  rcases htrail : o.assignment.trail with _ | ⟨d, ds⟩
  · rcases o.lineEnd with hnil | ⟨rest, hcons⟩
    · rw [htrail, hnil] at hc
      cases hc
    · rw [htrail, hcons] at hc
      obtain rfl := Option.some.inj hc
      rfl
  · rw [htrail] at hc
    obtain rfl := Option.some.inj hc
    exact o.assignment.trail_gap _ (by rw [htrail]; exact List.mem_cons_self)

/-- **A value is all that stands at its place** up to the next white space. -/
theorem value_eq (h : o.valueAt = o'.valueAt) : o.value = o'.value := by
  have hdrop := o.drop_valueAt.symm.trans ((congrArg (text.drop ·) h).trans o'.drop_valueAt)
  have hsolid : ∀ o : Occurrence isSpace text, ∀ c ∈ o.value, (!isSpace c) = true := by
    intro o c hc
    rw [o.assignment.value_solid c hc]
    rfl
  have hrest : ∀ o : Occurrence isSpace text,
      ∀ c ∈ (o.assignment.trail ++ o.after).head?, (!isSpace c) = false := by
    intro o c hc
    rw [o.isSpace_of_head? c hc]
    rfl
  exact (run_unique (hsolid o) (hsolid o') (hrest o) (hrest o') hdrop).1

end Occurrence

/-! ### What the pieces match -/

section Pieces

variable {key : ConfigKey} {before after text : List Char} {t : Thread Char}

theorem lineStart_iff (hafter : after ≠ []) :
    NpuOj.lineStart before.reverse after = true ↔ LineStart before := by
  rcases List.eq_nil_or_concat before with rfl | ⟨b, c, rfl⟩
  · exact ⟨fun _ => Or.inl rfl, fun _ => rfl⟩
  · have hstart : NpuOj.lineStart (b ++ [c]).reverse after = (c == '\n' && !after.isEmpty) := by
      rw [List.reverse_append]
      rfl
    rw [List.concat_eq_append, hstart]
    simp [LineStart, hafter]

theorem lineEnd_iff : NpuOj.lineEnd before after = true ↔ LineEnd after := by
  rcases after with _ | ⟨c, after⟩
  · exact ⟨fun _ => Or.inl rfl, fun _ => rfl⟩
  · simp [NpuOj.lineEnd, LineEnd]

/-- **The pattern of a key matches an assignment** to it, and remembers where its value is. -/
theorem mem_run_pieces : t ∈ run key.pieces (.start before.reverse after) ↔
    ∃ (a : Assignment isSpace) (rest : List Char), after = a.text ++ rest ∧ LineStart before ∧
      LineEnd rest ∧ SameWord key.name a.name ∧
      t = ⟨a.text.reverse ++ before.reverse, rest, some (before.length + a.valueAt),
        some (before.length + a.valueAt + a.value.length)⟩ := by
  rw [ConfigKey.pieces]
  simp only [mem_run_place, mem_run_star, mem_run_word, mem_run_one, mem_run_openGroup,
    mem_run_plus, mem_run_closeGroup, mem_run_nil, Thread.take, Thread.start, Thread.pos,
    sameLetter_eq_iff, lineEnd_iff, Bool.not_eq_true']
  constructor
  · rintro ⟨hstart, indent, _, rfl, hindent, name, _, rfl, hname, gapBefore, _, rfl, hbefore, _,
      _, rfl, rfl, gapAfter, _, rfl, hafter, value, _, rfl, hne, hvalue, trail, rest, rfl, htrail,
      hend, rfl⟩
    refine ⟨⟨indent, name, gapBefore, gapAfter, value, trail, hindent,
      isWord_of_sameWord hname key.word, hbefore, hafter, hne, hvalue, htrail⟩, rest, ?_, ?_, hend,
      hname, ?_⟩
    · simp [Assignment.text, Assignment.head]
    · exact (lineStart_iff (by simp)).mp hstart
    · simp [Assignment.text, Assignment.head, Assignment.valueAt]
      omega
  · rintro ⟨a, rest, rfl, hstart, hend, hname, rfl⟩
    refine ⟨(lineStart_iff (a.text_append_ne_nil rest)).mpr hstart, a.indent, _, ?_, a.indent_gap,
      a.name, _, rfl, hname, a.gapBefore, _, rfl, a.gapBefore_gap, _, _, rfl, rfl, a.gapAfter, _,
      rfl, a.gapAfter_gap, a.value, _, rfl, a.value_ne, a.value_solid, a.trail, rest, rfl,
      a.trail_gap, hend, ?_⟩
    · simp [Assignment.text, Assignment.head]
    · simp [Assignment.text, Assignment.head, Assignment.valueAt]
      omega

/-- The place of the value of an assignment. -/
def Occurrence.span (o : Occurrence isSpace text) : Span text.length where
  start := o.valueAt
  stop := o.valueAt + o.value.length
  start_le_stop := Nat.le_add_right _ _
  stop_le_length := by
    have hlength := congrArg List.length o.drop_valueAt
    rw [List.length_drop, List.length_append] at hlength
    obtain ⟨c, hc, -⟩ := o.getElem?_valueAt
    have hlt : o.valueAt < text.length := (List.getElem?_eq_some_iff.mp hc).1
    omega

/-- The value is what stands at its place. -/
theorem Occurrence.slice_span (o : Occurrence isSpace text) :
    (text.take o.span.stop).drop o.span.start = o.value := by
  rw [Occurrence.span, List.drop_take, Nat.add_sub_cancel_left, o.drop_valueAt,
    List.take_left' rfl]

theorem matcher_eq_none_iff : matcher key.pieces text = none ↔
    ∀ o : Occurrence isSpace text, ¬o.AssignsTo key := by
  rw [matcher, Option.map_eq_none_iff, search_eq_none_iff]
  constructor
  · intro h o hkey
    have hrun := h o.before (o.assignment.text ++ o.after) o.text_eq
    rw [List.append_nil] at hrun
    have hmem := mem_run_pieces.mpr ⟨o.assignment, o.after, rfl, o.lineStart, o.lineEnd, hkey, rfl⟩
    rw [hrun] at hmem
    cases hmem
  · intro h skipped rest htext
    rw [List.append_nil]
    refine List.eq_nil_iff_forall_not_mem.mpr fun t ht => ?_
    obtain ⟨a, after, rfl, hstart, hend, hkey, -⟩ := mem_run_pieces.mp ht
    exact h ⟨skipped, a, after, htext, hstart, hend⟩ hkey

/-- **What the pattern of a key finds** is the first assignment to it, where the gaps may go
over line ends. -/
theorem matcher_eq_some {group : Option (Span text.length)}
    (h : matcher key.pieces text = some group) :
    ∃ o : Occurrence isSpace text, o.AssignsTo key ∧ group = some o.span ∧
      ∀ o' : Occurrence isSpace text, o'.AssignsTo key → o.valueAt ≤ o'.valueAt := by
  rw [matcher, Option.map_eq_some_iff] at h
  obtain ⟨t, hsearch, rfl⟩ := h
  obtain ⟨before, rest, htext, hmem, hfirst⟩ := search_eq_some hsearch
  rw [List.append_nil] at hmem
  obtain ⟨a, after, rfl, hstart, hend, hkey, rfl⟩ := mem_run_pieces.mp hmem
  let o : Occurrence isSpace text := ⟨before, a, after, htext, hstart, hend⟩
  refine ⟨o, hkey, ?_, fun o' hkey' => ?_⟩
  · rw [groupOf]
    exact dif_pos ⟨o.span.start_le_stop, o.span.stop_le_length⟩
  · have hmatch := mem_run_pieces.mpr ⟨o'.assignment, o'.after, rfl, o'.lineStart, o'.lineEnd,
      hkey', rfl⟩
    have hle := hfirst o'.before _ o'.text_eq (by
      rw [List.append_nil]
      exact List.ne_nil_of_mem hmatch)
    exact o.valueAt_le o' (Nat.le_trans hle (Nat.le_add_right _ _))

/-- **What is looked up** is the value of the first assignment, if there is room for it. -/
theorem regexGetValue_first {pcre : Pcre} (hpcre : pcre.RunsKeys) (key : ConfigKey)
    (text : ConfigText) (dest : Option ℕ) :
    ((∀ o : Occurrence isSpace text.chars, ¬o.AssignsTo key) ∧
        regexGetValue pcre (some text.chars) (String.ofList key.name) dest = .ret none) ∨
      ∃ o : Occurrence isSpace text.chars, o.AssignsTo key ∧
        (∀ o' : Occurrence isSpace text.chars, o'.AssignsTo key → o.valueAt ≤ o'.valueAt) ∧
        regexGetValue pcre (some text.chars) (String.ofList key.name) dest =
          .ret (match dest with
            | none => some o.value
            | some size => if o.value.length + 1 ≤ size then some o.value else none) := by
  obtain ⟨exec, hcompile, hexec⟩ := hpcre key
  rw [regexGetValue, hcompile]
  rcases hmatch : matcher key.pieces text.chars with _ | group
  · exact Or.inl ⟨matcher_eq_none_iff.mp hmatch, by simp only [hexec, hmatch]⟩
  · obtain ⟨o, hkey, rfl, hfirst⟩ := matcher_eq_some hmatch
    refine Or.inr ⟨o, hkey, hfirst, ?_⟩
    simp only [hexec, hmatch, o.slice_span]
    cases dest <;> rfl

end Pieces

/-! ### Assignments on one line -/

-- What holds of each letter of a text is decided on the text, not on all the letters there are.
local instance (priority := 2000) decidableForallMemText (p : Char → Prop) [DecidablePred p]
    (text : List Char) : Decidable (∀ c ∈ text, p c) := List.decidableBAll p text

section OneLine

variable {pcre : Pcre} {key : ConfigKey} {text : List Char}

/-- Blanks are white space. -/
def Assignment.spread (a : Assignment isBlank) : Assignment isSpace :=
  { a with
    indent_gap := fun c hc => isSpace_of_isBlank (a.indent_gap c hc)
    gapBefore_gap := fun c hc => isSpace_of_isBlank (a.gapBefore_gap c hc)
    gapAfter_gap := fun c hc => isSpace_of_isBlank (a.gapAfter_gap c hc)
    trail_gap := fun c hc => isSpace_of_isBlank (a.trail_gap c hc) }

/-- What stands on one line can be found. -/
def Occurrence.spread (o : Occurrence isBlank text) : Occurrence isSpace text :=
  { o with assignment := o.assignment.spread }

/-- **The value is on the line of its key**: what is looked up is the value of an assignment
that stands on one line, and is taken from that line. -/
structure StaysOnLine (pcre : Pcre) (text : List Char) (key : ConfigKey) : Prop where
  value : ∀ dest v,
    regexGetValue pcre (some text) (String.ofList key.name) dest = .ret (some v) →
      ∃ o : Occurrence isBlank text, o.AssignsTo key ∧ o.value = v
  place : ∀ exec span, pcre (valuePattern (String.ofList key.name)) = some exec →
    exec text = some (some span) →
      ∃ o : Occurrence isBlank text, o.AssignsTo key ∧
        o.valueAt = span.start ∧ o.valueAt + o.value.length = span.stop

/-- **When a value is on the line of its key**: exactly if the first assignment to the key, line
ends read as blanks, is one that stands on one line. -/
theorem oneLine_iff (hpcre : pcre.RunsKeys) (text : ConfigText) (key : ConfigKey) :
    StaysOnLine pcre text.chars key ↔ ∀ o : Occurrence isSpace text.chars, o.AssignsTo key →
      ∃ o' : Occurrence isBlank text.chars, o'.AssignsTo key ∧ o'.valueAt ≤ o.valueAt := by
  obtain ⟨exec, hcompile, hexec⟩ := hpcre key
  constructor
  · intro h o hkey
    rcases hmatch : matcher key.pieces text.chars with _ | group
    · exact absurd hkey (matcher_eq_none_iff.mp hmatch o)
    · obtain ⟨first, -, rfl, hfirst⟩ := matcher_eq_some hmatch
      obtain ⟨o', hkey', hstart, -⟩ := h.place _ _ hcompile ((hexec text).trans hmatch)
      refine ⟨o', hkey', ?_⟩
      rw [hstart]
      exact hfirst o hkey
  · intro h
    -- the first assignment has its value where one of one line has it
    have hline : ∀ o : Occurrence isSpace text.chars, o.AssignsTo key →
        (∀ o' : Occurrence isSpace text.chars, o'.AssignsTo key → o.valueAt ≤ o'.valueAt) →
          ∃ o' : Occurrence isBlank text.chars, o'.AssignsTo key ∧ o'.valueAt = o.valueAt ∧
            o'.value = o.value := by
      intro o hkey hfirst
      obtain ⟨o', hkey', hle⟩ := h o hkey
      have heq : o.valueAt = o'.valueAt := Nat.le_antisymm (hfirst o'.spread hkey') hle
      exact ⟨o', hkey', heq.symm, (o.value_eq o'.spread heq).symm⟩
    constructor
    · intro dest v hv
      rcases regexGetValue_first hpcre key text dest with ⟨-, hnone⟩ | ⟨o, hkey, hfirst, hsome⟩
      · cases hnone.symm.trans hv
      · obtain ⟨o', hkey', -, hvalue⟩ := hline o hkey hfirst
        refine ⟨o', hkey', hvalue.trans ?_⟩
        have hret := Outcome.ret.inj (hsome.symm.trans hv)
        rcases dest with _ | size
        · exact Option.some.inj hret
        · exact Option.some.inj (Option.ite_none_right_eq_some.mp hret).2
    · intro exec' span hexec' hspan
      obtain rfl := Option.some.inj (hcompile.symm.trans hexec')
      obtain ⟨o, hkey, hgroup, hfirst⟩ := matcher_eq_some ((hexec text).symm.trans hspan)
      obtain rfl := Option.some.inj hgroup
      obtain ⟨o', hkey', hat, hvalue⟩ := hline o hkey hfirst
      refine ⟨o', hkey', hat, ?_⟩
      rw [hat, hvalue]
      rfl

/-- The key that `test_regex` asks for. -/
def dbPort : ConfigKey := ⟨"db_port".toList, by decide, by decide⟩

/-- The port and the host are set. -/
def portSet : ConfigText where
  chars := "DB_port=3306\nDB_HOST=127.0.0.1".toList
  plain := by decide

/-- The setting of the port, as it stands in this text. -/
def portOnLine : Occurrence isBlank portSet.chars where
  before := []
  assignment := ⟨[], "DB_port".toList, [], [], "3306".toList, [], by simp, by decide, by simp,
    by simp, by decide, by decide, by simp⟩
  after := "\nDB_HOST=127.0.0.1".toList
  text_eq := by decide
  lineStart := Or.inl rfl
  lineEnd := Or.inr ⟨_, rfl⟩

/-- A setting of the first line is the first one. -/
theorem oneLine_iff_portSet : StaysOnLine backtracking portSet.chars dbPort := by
  refine (oneLine_iff runsKeys_backtracking portSet dbPort).mpr fun o _ => ⟨portOnLine, ?_, ?_⟩
  · exact (show SameWord dbPort.name "DB_port".toList by decide)
  · exact portOnLine.spread.valueAt_le o (Nat.zero_le _)

/-- The port is left out, and there is no blank in the setting on the next line. -/
def portLeftOut : ConfigText where
  chars := "DB_port = \nDB_HOST=127.0.0.1".toList
  plain := by decide

/-- All of the next line is taken for the port. -/
theorem lookup_portLeftOut :
    regexGetValue backtracking (some portLeftOut.chars) "db_port" none =
      .ret (some "DB_HOST=127.0.0.1".toList) ∧
      ¬StaysOnLine backtracking portLeftOut.chars dbPort := by
  have hlookup : regexGetValue backtracking (some portLeftOut.chars) "db_port" none =
      .ret (some "DB_HOST=127.0.0.1".toList) := by decide +kernel
  refine ⟨hlookup, fun h => ?_⟩
  obtain ⟨o, -, hvalue⟩ := h.value none _ hlookup
  have hdrop := o.drop_eqAt
  rw [hvalue] at hdrop
  -- the value is long, so that it is behind the first of the two equals signs
  have hlength := congrArg List.length hdrop
  rw [List.length_drop, List.length_append, List.length_append] at hlength
  have hsigns : ∀ i < 11, portLeftOut.chars[i]? = some '=' → i = 8 := by decide
  have heqAt : o.eqAt = 8 := by
    refine hsigns o.eqAt ?_ o.getElem?_eqAt
    have hall : portLeftOut.chars.length = 28 := rfl
    have hpart : "DB_HOST=127.0.0.1".toList.length = 17 := rfl
    omega
  -- and between them the line ends
  have hrest : portLeftOut.chars.drop 9 = ' ' :: '\n' :: "DB_HOST=127.0.0.1".toList := by decide
  have hfirst : "DB_HOST=127.0.0.1".toList = 'D' :: "B_HOST=127.0.0.1".toList := by decide
  rw [heqAt, hrest, hfirst] at hdrop
  rcases hgap : o.assignment.gapAfter with _ | ⟨c, _ | ⟨d, gap⟩⟩
  · rw [hgap] at hdrop
    exact absurd (List.cons.inj hdrop).1 (by decide)
  · rw [hgap] at hdrop
    exact absurd (List.cons.inj (List.cons.inj hdrop).2).1 (by decide)
  · rw [hgap] at hdrop
    have hd : '\n' = d := (List.cons.inj (List.cons.inj hdrop).2).1
    exact absurd (o.assignment.gapAfter_gap d (by simp [hgap])) (by rw [← hd]; decide)

end OneLine

/-! ### Texts made of lines -/

/-- **A line of a configuration file.** -/
inductive ConfigLine
  | blank (blanks : List Char) (hblanks : ∀ c ∈ blanks, isBlank c = true)
  | comment (indent rest : List Char) (hindent : ∀ c ∈ indent, isBlank c = true)
    (hrest : ∀ c ∈ rest, isGraph c ∨ isBlank c)
  | assignment (a : Assignment isBlank) (hvalue : ∀ c ∈ a.value, isGraph c = true)

/-- How a line is written. -/
def ConfigLine.text : ConfigLine → List Char
  | blank blanks _ => blanks
  | comment indent rest _ _ => indent ++ '#' :: rest
  | assignment a _ => a.text

/-- The lines, each with its line feed. -/
def closedLines (lines : List ConfigLine) : List Char :=
  lines.flatMap fun line => line.text ++ ['\n']

/-- The lines with line feeds between them. -/
def joinLines : List ConfigLine → List Char
  | [] => []
  | [line] => line.text
  | line :: lines => line.text ++ '\n' :: joinLines lines

/-- What a line assigns to a key. -/
def ConfigLine.assigned (key : ConfigKey) : ConfigLine → Option (List Char)
  | blank _ _ => none
  | comment _ _ _ _ => none
  | assignment a _ => if SameWord key.name a.name then some a.value else none

/-- **The settings as one reads them**: the value of the first line that assigns to the key. -/
def readLines (key : ConfigKey) (lines : List ConfigLine) : Option (List Char) :=
  lines.findSome? (·.assigned key)

section Lines

variable {key : ConfigKey} {line : ConfigLine} {lines lines' : List ConfigLine}
  {before indent rest : List Char} {c : Char}

theorem isGraph_of_isWord (hc : isWord c = true) : isGraph c = true := by
  rw [isWord_iff] at hc
  rw [isGraph, Bool.and_eq_true, decide_eq_true_iff, decide_eq_true_iff]
  omega

/-- A line has no other letters than a text for a configuration file. -/
theorem ConfigLine.plain_text (line : ConfigLine) : ∀ c ∈ line.text, isGraph c ∨ isBlank c := by
  intro c hc
  cases line with
  | blank blanks hblanks => exact Or.inr (hblanks c hc)
  | comment indent rest hindent hrest =>
    rw [ConfigLine.text, List.mem_append, List.mem_cons] at hc
    rcases hc with h | rfl | h
    · exact Or.inr (hindent c h)
    · exact Or.inl rfl
    · exact hrest c h
  | assignment a hvalue =>
    simp only [ConfigLine.text, Assignment.text, Assignment.head, List.mem_append,
      List.mem_cons] at hc
    rcases hc with ((h | h) | h) | rfl | h | h | h
    · exact Or.inr (a.indent_gap c h)
    · exact Or.inl (isGraph_of_isWord (a.name_word c h))
    · exact Or.inr (a.gapBefore_gap c h)
    · exact Or.inl rfl
    · exact Or.inr (a.gapAfter_gap c h)
    · exact Or.inl (hvalue c h)
    · exact Or.inr (a.trail_gap c h)

theorem newline_notMem_text (line : ConfigLine) : '\n' ∉ line.text := by
  intro h
  rcases line.plain_text _ h with hgraph | hblank
  · exact absurd hgraph (by decide)
  · exact absurd hblank (by decide)

theorem joinLines_cons_cons (line line' : ConfigLine) (lines : List ConfigLine) :
    joinLines (line :: line' :: lines) = line.text ++ '\n' :: joinLines (line' :: lines) := rfl

theorem plain_joinLines (lines : List ConfigLine) :
    ∀ c ∈ joinLines lines, isGraph c ∨ isBlank c ∨ c = '\n' := by
  have hline : ∀ line : ConfigLine, ∀ c ∈ line.text, isGraph c ∨ isBlank c ∨ c = '\n' :=
    fun line c hc => (line.plain_text c hc).imp_right Or.inl
  induction lines with
  | nil => simp [joinLines]
  | cons line lines ih =>
    cases lines with
    | nil => exact hline line
    | cons line' lines =>
      rw [joinLines_cons_cons, List.forall_mem_append, List.forall_mem_cons]
      exact ⟨hline line, Or.inr (Or.inr rfl), ih⟩

/-- What comes before a line and after it. -/
theorem joinLines_append (lines : List ConfigLine) (line : ConfigLine) (lines' : List ConfigLine) :
    ∃ after, LineEnd after ∧
      joinLines (lines ++ line :: lines') = closedLines lines ++ (line.text ++ after) := by
  induction lines with
  | nil =>
    cases lines' with
    | nil => exact ⟨[], Or.inl rfl, (List.append_nil _).symm⟩
    | cons line' lines' => exact ⟨_, Or.inr ⟨_, rfl⟩, rfl⟩
  | cons line₀ lines ih =>
    obtain ⟨after, hend, hjoin⟩ := ih
    refine ⟨after, hend, ?_⟩
    have hne : lines ++ line :: lines' ≠ [] := by simp
    obtain ⟨line₁, rest, hcons⟩ := List.exists_cons_of_ne_nil hne
    rw [List.cons_append, hcons, joinLines_cons_cons, ← hcons, hjoin]
    simp [closedLines]

theorem lineStart_closedLines (lines : List ConfigLine) : LineStart (closedLines lines) := by
  rcases List.eq_nil_or_concat lines with rfl | ⟨lines, line, rfl⟩
  · exact Or.inl rfl
  · refine Or.inr ⟨closedLines lines ++ line.text, ?_⟩
    simp [closedLines]

theorem LineStart.of_append {u w : List Char} (h : LineStart (u ++ '\n' :: w)) : LineStart w := by
  rcases h with hnil | ⟨b, hb⟩
  · simp at hnil
  · rcases List.eq_nil_or_concat w with rfl | ⟨w, c, rfl⟩
    · exact Or.inl rfl
    · have hlast : (u ++ '\n' :: w) ++ [c] = b ++ ['\n'] := by simpa using hb
      have hc : [c] = ['\n'] := (List.append_inj' hlast rfl).2
      exact Or.inr ⟨w, by rw [List.concat_eq_append, hc]⟩

/-- **A text that is made of lines is cut at a line start** between two lines. -/
theorem exists_closedLines (h : joinLines lines = before ++ rest) (hstart : LineStart before)
    (hrest : rest ≠ []) :
    ∃ done todo, lines = done ++ todo ∧ before = closedLines done ∧ joinLines todo = rest := by
  induction lines generalizing before with
  | nil => exact absurd (List.append_eq_nil_iff.mp h.symm).2 hrest
  | cons line lines ih =>
    by_cases hmem : '\n' ∈ before
    · obtain ⟨u, w, rfl, hu⟩ := List.eq_append_cons_of_mem hmem
      cases lines with
      | nil =>
        have htext : line.text = u ++ '\n' :: w ++ rest := h
        exact absurd (by rw [htext]; simp) (newline_notMem_text line)
      | cons line' lines =>
        rw [joinLines_cons_cons, List.append_assoc, List.cons_append] at h
        -- the first line feed is the one behind the first line
        obtain ⟨rfl, htail⟩ := run_unique (bne_of_notMem (newline_notMem_text line))
          (bne_of_notMem hu) (by simp) (by simp) h
        obtain ⟨done, todo, hlines, rfl, htodo⟩ := ih (List.cons.inj htail).2 hstart.of_append
        exact ⟨line :: done, todo, by rw [hlines, List.cons_append], by simp [closedLines], htodo⟩
    · rcases hstart with rfl | ⟨b, rfl⟩
      · exact ⟨[], line :: lines, rfl, rfl, h⟩
      · exact absurd (by simp) hmem

/-- White space at the beginning of lines ends within one of them. -/
theorem exists_line_of_indent (h : joinLines lines = indent ++ c :: rest)
    (hindent : ∀ c ∈ indent, isSpace c = true) (hc : isSpace c = false) :
    ∃ done line todo blanks tail, lines = done ++ line :: todo ∧
      indent = closedLines done ++ blanks ∧ line.text = blanks ++ c :: tail := by
  have hnewline : c ≠ '\n' := by
    rintro rfl
    exact absurd hc (by decide)
  induction lines generalizing indent with
  | nil => simp [joinLines] at h
  | cons line lines ih =>
    cases lines with
    | nil => exact ⟨[], line, [], indent, rest, rfl, rfl, h⟩
    | cons line' lines =>
      rw [joinLines_cons_cons] at h
      rcases List.append_eq_append_iff.mp h with ⟨more, rfl, hmore⟩ | ⟨more, htext, hmore⟩
      · -- all of the line is white space
        cases more with
        | nil => exact absurd (List.cons.inj hmore).1.symm hnewline
        | cons d more =>
          obtain ⟨rfl, hjoin⟩ := List.cons.inj hmore
          obtain ⟨done, found, todo, blanks, tail, hlines, rfl, htext⟩ :=
            ih hjoin fun c hc => hindent c (by simp [hc])
          refine ⟨line :: done, found, todo, blanks, tail, by rw [hlines, List.cons_append], ?_,
            htext⟩
          simp [closedLines]
      · cases more with
        | nil => exact absurd (List.cons.inj hmore).1 hnewline
        | cons d more =>
          obtain ⟨rfl, -⟩ := List.cons.inj hmore
          exact ⟨[], line, line' :: lines, indent, more, rfl, rfl, htext⟩

/-- A line that begins with a word assigns. -/
theorem exists_assignment {blanks tail : List Char} (h : line.text = blanks ++ c :: tail)
    (hblanks : ∀ c ∈ blanks, isSpace c = true) (hc : isWord c = true) :
    ∃ a hvalue, line = .assignment a hvalue := by
  have hsolid : isSpace c = false := not_isSpace_of_isWord hc
  cases line with
  | blank all hall =>
    have hmem : c ∈ all := by
      rw [show all = blanks ++ c :: tail from h]
      simp
    exact absurd (isSpace_of_isBlank (hall c hmem)) (by rw [hsolid]; decide)
  | comment indent rest hindent hrest =>
    have hrun := run_unique (fun c hc => isSpace_of_isBlank (hindent c hc)) hblanks (by simp; rfl)
      (by simpa using hsolid) h
    obtain ⟨rfl, -⟩ := List.cons.inj hrun.2
    exact absurd hc (by decide)
  | assignment a hvalue => exact ⟨a, hvalue, rfl⟩

/-- **A name is what its assignment has of words** before the equals sign. -/
theorem Assignment.filter_head (a : Assignment isSpace) : a.head.filter isWord = a.name := by
  have hgap : ∀ xs : List Char, (∀ c ∈ xs, isSpace c = true) → xs.filter isWord = [] := by
    intro xs hxs
    rw [List.filter_eq_nil_iff]
    intro c hc hword
    exact absurd (hxs c hc) (by rw [not_isSpace_of_isWord hword]; decide)
  rw [Assignment.head, List.filter_append, List.filter_append, hgap _ a.indent_gap,
    hgap _ a.gapBefore_gap, List.filter_eq_self.mpr a.name_word, List.nil_append, List.append_nil]

/-- The assignment of a line, in the text. -/
theorem exists_occurrence {text : List Char} {done todo : List ConfigLine} {a : Assignment isBlank}
    {hvalue} (h : text = joinLines (done ++ .assignment a hvalue :: todo)) :
    ∃ o : Occurrence isSpace text, o.before = closedLines done ∧ o.assignment = a.spread := by
  obtain ⟨after, hend, hjoin⟩ := joinLines_append done (.assignment a hvalue) todo
  exact ⟨⟨_, a.spread, after, h.trans hjoin, lineStart_closedLines done, hend⟩, rfl, rfl⟩

theorem closedLines_append (lines lines' : List ConfigLine) :
    closedLines (lines ++ lines') = closedLines lines ++ closedLines lines' :=
  List.flatMap_append

/-- **What the pattern finds stands on one line**: an assignment whose gaps may go over line ends
is, but for empty lines before it, an assignment of a line. -/
theorem Occurrence.exists_line {text : List Char} (o : Occurrence isSpace text)
    (htext : text = joinLines lines) (hname : o.assignment.name ≠ []) :
    ∃ done a hvalue todo, lines = done ++ .assignment a hvalue :: todo ∧
      a.name = o.assignment.name ∧ a.value = o.value ∧ (closedLines done).length ≤ o.valueAt := by
  -- the line in which the name begins
  obtain ⟨done, todo', rfl, hbefore, hjoin⟩ := exists_closedLines (htext.symm.trans o.text_eq)
    o.lineStart (o.assignment.text_append_ne_nil o.after)
  obtain ⟨c, cs, hcons⟩ := List.exists_cons_of_ne_nil hname
  have hc : isWord c = true := o.assignment.name_word c (by rw [hcons]; exact List.mem_cons_self)
  have hindented : joinLines todo' = o.assignment.indent ++ c ::
      (cs ++ (o.assignment.gapBefore ++ '=' ::
        (o.assignment.gapAfter ++ (o.assignment.value ++ o.assignment.trail)) ++ o.after)) := by
    rw [hjoin, Assignment.text, Assignment.head, hcons]
    simp
  obtain ⟨more, line, todo, blanks, tail, rfl, hindent, hline⟩ :=
    exists_line_of_indent hindented o.assignment.indent_gap (not_isSpace_of_isWord hc)
  have hspace : ∀ c ∈ closedLines more ++ blanks, isSpace c = true := by
    rw [← hindent]
    exact o.assignment.indent_gap
  obtain ⟨a, hvalue, rfl⟩ := exists_assignment hline
    (fun c hc => hspace c (List.mem_append_right _ hc)) hc
  -- its assignment has the same equals sign and the same value
  rw [← List.append_assoc] at htext
  obtain ⟨o', hbefore', ha⟩ := exists_occurrence htext
  have hle : o.before.length ≤ o'.eqAt := by
    rw [eqAt, hbefore', hbefore, closedLines_append, List.length_append]
    omega
  have hle' : o'.before.length ≤ o.eqAt := by
    rw [eqAt, hbefore', hbefore, closedLines_append, Assignment.head, hindent]
    simp only [List.length_append]
    omega
  have heqAt : o.eqAt = o'.eqAt := Nat.le_antisymm (o.eqAt_le o' hle) (o'.eqAt_le o hle')
  have hvalueAt : o.valueAt = o'.valueAt :=
    Nat.le_antisymm (o.valueAt_le o' hle) (o'.valueAt_le o hle')
  refine ⟨done ++ more, a, hvalue, todo, by rw [List.append_assoc], ?_, ?_, ?_⟩
  · have hhead : o.assignment.head = closedLines more ++ a.spread.head := by
      have htake := o.take_eqAt.symm.trans ((congrArg (text.take ·) heqAt).trans o'.take_eqAt)
      rw [hbefore', hbefore, ha, closedLines_append, List.append_assoc] at htake
      exact List.append_cancel_left htake
    have hnone : (closedLines more).filter isWord = [] := by
      rw [List.filter_eq_nil_iff]
      intro c hc hword
      exact absurd (hspace c (List.mem_append_left _ hc))
        (by rw [not_isSpace_of_isWord hword]; decide)
    rw [← o.assignment.filter_head, hhead, List.filter_append, hnone, List.nil_append,
      Assignment.filter_head]
    rfl
  · rw [o.value_eq o' hvalueAt, value, ha]
    rfl
  · rw [hvalueAt, o'.valueAt_eq, eqAt, hbefore']
    omega

/-- A line that assigns to a key is an assignment in the text, whose value begins before the line
ends. -/
theorem exists_assignsTo {done todo : List ConfigLine} {a : Assignment isBlank} {hvalue}
    (hlines : lines = done ++ .assignment a hvalue :: todo) (hsame : SameWord key.name a.name) :
    ∃ o : Occurrence isSpace (joinLines lines), o.AssignsTo key ∧
      o.valueAt < (closedLines (done ++ [.assignment a hvalue])).length := by
  obtain ⟨o, hbefore, ha⟩ := exists_occurrence (congrArg joinLines hlines)
  refine ⟨o, by rw [Occurrence.AssignsTo, ha]; exact hsame, ?_⟩
  rw [Occurrence.valueAt, hbefore, ha, closedLines_append, List.length_append]
  have hlt : a.spread.valueAt < (closedLines [.assignment a hvalue]).length := by
    simp [closedLines, ConfigLine.text, Assignment.text, Assignment.valueAt, Assignment.head,
      Assignment.spread]
    omega
  omega

theorem readLines_eq_none (h : ∀ done a hvalue todo,
    lines = done ++ .assignment a hvalue :: todo → ¬ SameWord key.name a.name) :
    readLines key lines = none := by
  rw [readLines, List.findSome?_eq_none_iff]
  intro line hline
  cases line with
  | blank blanks hblanks => rfl
  | comment indent rest hindent hrest => rfl
  | assignment a hvalue =>
    obtain ⟨done, todo, hlines⟩ := List.append_of_mem hline
    exact if_neg (h done a hvalue todo hlines)

/-- The first line that assigns to the key is the one that is read. -/
theorem readLines_eq_some {done todo : List ConfigLine} {a : Assignment isBlank} {hvalue}
    (hdone : readLines key done = none) (hsame : SameWord key.name a.name) :
    readLines key (done ++ .assignment a hvalue :: todo) = some a.value := by
  rw [readLines] at hdone ⊢
  rw [List.findSome?_append, hdone, Option.none_or, List.findSome?_cons, ConfigLine.assigned,
    if_pos hsame]

/-- **Looking up agrees with reading line by line**: on a text whose lines are blank, comments or
assignments, the value of a key is that of the first line that assigns to it. -/
theorem regexGetValue_joinLines {pcre : Pcre} (hpcre : pcre.RunsKeys) (key : ConfigKey)
    (hkey : key.name ≠ []) (lines : List ConfigLine) (dest : Option ℕ) :
    regexGetValue pcre (some (joinLines lines)) (String.ofList key.name) dest =
      .ret (match dest with
        | none => readLines key lines
        | some size => (readLines key lines).filter fun value => value.length + 1 ≤ size) := by
  rcases regexGetValue_first hpcre key ⟨joinLines lines, plain_joinLines lines⟩ dest with
    ⟨hnone, hret⟩ | ⟨o, hkey', hfirst, hret⟩
  · have hread : readLines key lines = none := by
      refine readLines_eq_none fun done a hvalue todo hlines hsame => ?_
      obtain ⟨o, hkey', -⟩ := exists_assignsTo hlines hsame
      exact hnone o hkey'
    rw [hret, hread]
    cases dest <;> rfl
  · have hname : o.assignment.name ≠ [] := by
      intro hnil
      obtain ⟨b, bs, hcons⟩ := List.exists_cons_of_ne_nil hkey
      rw [Occurrence.AssignsTo, hnil, hcons] at hkey'
      cases hkey'
    obtain ⟨done, a, hvalue, todo, hlines, haname, havalue, hle⟩ := o.exists_line rfl hname
    -- no line before it assigns to the key
    have hdone : readLines key done = none := by
      refine readLines_eq_none fun done' a' hvalue' todo' hdone' hsame => ?_
      rw [hdone', List.append_assoc, List.cons_append] at hlines
      obtain ⟨o', hkey'', hlt⟩ := exists_assignsTo hlines hsame
      have hmin := hfirst o' hkey''
      rw [hdone', List.append_cons, closedLines_append, List.length_append] at hle
      omega
    have hsame : SameWord key.name a.name := by
      rw [haname]
      exact hkey'
    have hread : readLines key lines = some a.value := by
      rw [hlines, readLines_eq_some hdone hsame]
    rw [hret, hread, havalue]
    cases dest with
    | none => rfl
    | some size => simp [Option.filter]

/-- An assignment with one blank on each side of the equals sign. -/
def plainAssignment (name value : List Char) (hname : ∀ c ∈ name, isWord c = true)
    (hne : value ≠ []) (hsolid : ∀ c ∈ value, isSpace c = false) : Assignment isBlank :=
  ⟨[], name, [' '], [' '], value, [], by simp, hname, by decide, by decide, hne, hsolid, by simp⟩

/-- A comment, an empty line and two settings whose names end alike. -/
def sampleLines : List ConfigLine := [
  .comment [] " FTP_HOST = none".toList (by simp) (by decide),
  .blank [] (by simp),
  .assignment (plainAssignment "SFTP_HOST".toList "oj".toList (by decide) (by decide) (by decide))
    (by decide),
  .assignment (plainAssignment "FTP_HOST".toList "a=b#c".toList (by decide) (by decide)
    (by decide)) (by decide)]

theorem regexGetValue_sampleLines :
    regexGetValue backtracking (some (joinLines sampleLines)) "ftp_host" none =
      .ret (some "a=b#c".toList) :=
  (regexGetValue_joinLines runsKeys_backtracking ⟨"ftp_host".toList, by decide, by decide⟩
    (by decide) sampleLines none).trans (by decide)

end Lines

end NpuOj
