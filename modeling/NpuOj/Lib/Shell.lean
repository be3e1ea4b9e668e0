import Mathlib.Data.List.Basic
import Mathlib.Tactic.Common

/-!
# The words of a shell command

A simple command of `sh` is read letter by letter: blanks end a word, a part between double
quotes belongs to the word that it stands in, a variable between quotes is replaced by its
value, and what a redirection is directed to is no word. Everything else that means something
to the shell is outside the fragment, where `Shell.words` has no value.

Two facts are enough to read a command that a program has printed. Values without metacharacters
that stand between blanks are words, except for those that are empty
(`Shell.words_line`); and a text between quotes goes into the word as it is expanded
(`Shell.scan_quoted`).
-/

namespace Shell

/-! ### Letters -/

/-- The letters that mean something to the shell outside of quotes. -/
def isMeta (c : Char) : Bool :=
  c ∈ [' ', '\t', '\n', '|', '&', ';', '<', '>', '(', ')', '$', '`', '\\', '"', '\'', '*', '?',
    '[', '#', '~', '{', '}']

/-- The letters that mean something to the shell between double quotes. -/
def isQuotedMeta (c : Char) : Bool := c ∈ ['"', '$', '\\', '`']

/-- The letters of the name of a variable. -/
def isName (c : Char) : Bool := c.isAlphanum || c = '_'

/-- The letters stand for themselves. -/
def Plain (text : List Char) : Prop := ∀ c ∈ text, isMeta c = false

instance : DecidablePred Plain := fun text => List.decidableBAll _ text

theorem isMeta_of_isDigit {c : Char} (h : c.isDigit = true) : isMeta c = false := by
  refine decide_eq_false fun hmeta => ?_
  have hno := (List.all_eq_true (p := fun d => !d.isDigit)).mp (by decide) c hmeta
  rw [h] at hno
  cases hno

/-- The values of the variables; a variable that is not set has the empty one. -/
abbrev Environment := List Char → List Char

/-! ### Reading a command -/

/-- What has been read of a command. -/
structure Lexer where
  words : List (List Char) := []
  /-- The word that is being read. -/
  word : Option (List Char) := none
  quoted : Bool := false
  /-- The name of a variable that is being read, between quotes. -/
  name : Option (List Char) := none
  /-- The word is what a redirection is directed to. -/
  target : Bool := false
  deriving DecidableEq

namespace Lexer

/-- Letters of the word. -/
def put (l : Lexer) (text : List Char) : Lexer := { l with word := some (l.word.getD [] ++ text) }

/-- The end of the word, if there is one. -/
def close (l : Lexer) : Lexer := match l.word with
  | none => l
  | some word =>
    if l.target then { l with word := none, target := false }
    else { l with word := none, words := l.words ++ [word] }

/-- A `>`, after the number of a descriptor or after another word. -/
def redirect (l : Lexer) : Lexer :=
  if (l.word.getD []).all Char.isDigit then { l with word := none, target := true }
  else { l.close with target := true }

/-- A letter that is not part of a name. -/
def letter (l : Lexer) (c : Char) : Option Lexer :=
  if l.quoted then
    if c = '"' then some { l with quoted := false }
    else if c = '$' then some { l with name := some [] }
    else if isQuotedMeta c then none
    else some (l.put [c])
  else if c = ' ' then some l.close
  else if c = '"' then some { l.put [] with quoted := true }
  else if c = '>' then some l.redirect
  else if c = '&' ∧ l.target ∧ l.word = none then some l
  else if isMeta c then none
  else some (l.put [c])

/-- A letter. The fragment has no parameters but variables. -/
def read (env : Environment) (l : Lexer) (c : Char) : Option Lexer := match l.name with
  | none => l.letter c
  | some name =>
    if isName c then
      if name = [] ∧ c.isDigit then none else some { l with name := some (name ++ [c]) }
    else if name = [] then none
    else { l.put (env name) with name := none }.letter c

/-- The end of the command. -/
def finish (l : Lexer) : Option (List (List Char)) :=
  if l.quoted ∨ l.close.target then none else some l.close.words

end Lexer

/-- Reading a part of a command. -/
def scan (env : Environment) (l : Lexer) (text : List Char) : Option Lexer :=
  text.foldlM (Lexer.read env) l

/-- The words of a command. -/
def words (env : Environment) (text : List Char) : Option (List (List Char)) :=
  (scan env {} text).bind Lexer.finish

/-- The words of a simple command. A first word with a `=` may be an assignment, which the fragment
does not have. -/
def command (env : Environment) (text : List Char) : Option (List (List Char)) := do
  let ws ← words env text
  if '=' ∈ ws.headD [] then none else some ws

example : words (fun _ => "/srv".toList) "a \"$X/b c\" 1>/dev/null 2>&1".toList =
    some ["a".toList, "/srv/b c".toList] := by decide +kernel

section Scan

variable {env : Environment} {l : Lexer} {c : Char} {text rest : List Char}

@[simp] theorem scan_nil : scan env l [] = some l := rfl

theorem scan_cons : scan env l (c :: text) = (l.read env c).bind fun l => scan env l text := by
  rw [scan, List.foldlM_cons]
  rfl

theorem scan_append :
    scan env l (text ++ rest) = (scan env l text).bind fun l => scan env l rest := by
  rw [scan, List.foldlM_append]
  rfl

theorem Lexer.put_put (text' : List Char) : (l.put text).put text' = l.put (text ++ text') := by
  simp [Lexer.put]

/-! ### Words between blanks -/

theorem Lexer.read_of_not_isMeta (hname : l.name = none) (hquoted : l.quoted = false)
    (hc : isMeta c = false) : l.read env c = some (l.put [c]) := by
  have hne : c ≠ ' ' ∧ c ≠ '"' ∧ c ≠ '>' ∧ c ≠ '&' := by
    refine ⟨?_, ?_, ?_, ?_⟩ <;> rintro rfl <;> exact absurd hc (by decide)
  rw [Lexer.read, hname]
  simp only [Lexer.letter, hquoted, hne, hc, if_false, false_and, Bool.false_eq_true]

theorem scan_plain (hname : l.name = none) (hquoted : l.quoted = false) (htext : Plain text)
    (hne : text ≠ []) : scan env l text = some (l.put text) := by
  induction text generalizing l with
  | nil => exact absurd rfl hne
  | cons c text ih =>
    obtain ⟨hc, htext⟩ := List.forall_mem_cons.mp htext
    rw [scan_cons, Lexer.read_of_not_isMeta hname hquoted hc, Option.bind_some]
    rcases text with _ | ⟨d, text⟩
    · rfl
    · rw [ih (l := l.put [c]) hname hquoted htext (List.cons_ne_nil _ _), Lexer.put_put]
      rfl

/-- Values one after another, with blanks between them. -/
def line : List (List Char) → List Char
  | [] => []
  | value :: values => value ++ values.flatMap (' ' :: ·)

/-- The lexer after some words, in a value. -/
def Lexer.inValue (words : List (List Char)) (value : List Char) : Lexer :=
  { words := words, word := if value = [] then none else some value }

theorem scan_value {words : List (List Char)} {value : List Char} (hvalue : Plain value) :
    scan env { words := words } value = some (.inValue words value) := by
  rw [Lexer.inValue]
  split
  · next hnil => rw [hnil, scan_nil]
  · next hne => rw [scan_plain rfl rfl hvalue hne, Lexer.put, Option.getD_none, List.nil_append]

theorem scan_blank {words : List (List Char)} {value : List Char} :
    scan env (.inValue words value) (' ' :: text) =
      scan env { words := words ++ [value].filter (· ≠ []) } text := by
  rw [scan_cons]
  by_cases hvalue : value = []
  · subst hvalue
    simp [Lexer.inValue, Lexer.read, Lexer.letter, Lexer.close]
  · simp [Lexer.inValue, Lexer.read, Lexer.letter, Lexer.close, hvalue]

theorem finish_inValue {words : List (List Char)} {value : List Char} :
    (Lexer.inValue words value).finish = some (words ++ [value].filter (· ≠ [])) := by
  by_cases hvalue : value = []
  · subst hvalue
    simp [Lexer.inValue, Lexer.finish, Lexer.close]
  · simp [Lexer.inValue, Lexer.finish, Lexer.close, hvalue]

/-- **The words of a line** are the values that are not empty. -/
theorem words_line {values : List (List Char)} (hvalues : ∀ value ∈ values, Plain value) :
    words env (line values) = some (values.filter (· ≠ [])) := by
  have hrest : ∀ {values : List (List Char)} {ws : List (List Char)} {value : List Char},
      (∀ value ∈ values, Plain value) →
      (scan env (.inValue ws value) (values.flatMap (' ' :: ·))).bind Lexer.finish =
        some (ws ++ (value :: values).filter (· ≠ [])) := by
    intro values
    induction values with
    | nil =>
      intro ws value _
      rw [List.flatMap_nil, scan_nil, Option.bind_some, finish_inValue]
    | cons value' values ih =>
      intro ws value hvalues
      obtain ⟨hvalue', hvalues⟩ := List.forall_mem_cons.mp hvalues
      rw [List.flatMap_cons, List.cons_append, scan_blank, scan_append, scan_value hvalue',
        Option.bind_some, ih hvalues, List.append_assoc, ← List.filter_append]
      rfl
  cases values with
  | nil => rfl
  | cons value values =>
    obtain ⟨hvalue, hvalues⟩ := List.forall_mem_cons.mp hvalues
    rw [words, line, scan_append, scan_value hvalue, Option.bind_some, hrest hvalues]
    rfl

/-! ### Texts between quotes -/

/-- **The text has this value between quotes**: its variables are replaced. -/
inductive Expands (env : Environment) : List Char → List Char → Prop
  | nil : Expands env [] []
  | letter {c : Char} {text value : List Char} (hc : isQuotedMeta c = false)
      (h : Expands env text value) : Expands env (c :: text) (c :: value)
  | parameter {name text value : List Char} {c : Char} (hc : c.isDigit = false)
      (hname : ∀ d ∈ c :: name, isName d = true) (hnext : ∀ d ∈ text.head?, isName d = false)
      (h : Expands env text value) :
      Expands env ('$' :: c :: (name ++ text)) (env (c :: name) ++ value)

theorem isQuotedMeta_of_not_isMeta (h : isMeta c = false) : isQuotedMeta c = false := by
  have hne : c ≠ '"' ∧ c ≠ '$' ∧ c ≠ '\\' ∧ c ≠ '`' := by
    refine ⟨?_, ?_, ?_, ?_⟩ <;> rintro rfl <;> exact absurd h (by decide)
  simp [isQuotedMeta, hne]

/-- A value without metacharacters stands for itself. -/
theorem Plain.expands (h : Plain text) : Expands env text text := by
  induction text with
  | nil => exact .nil
  | cons c text ih =>
    obtain ⟨hc, htext⟩ := List.forall_mem_cons.mp h
    exact .letter (isQuotedMeta_of_not_isMeta hc) (ih htext)

/-- A blank, or anything else that cannot be in a name, ends the name of a variable. -/
theorem Expands.append {value value' : List Char} (h : Expands env text value)
    (hnext : ∀ d ∈ rest.head?, isName d = false) (hrest : Expands env rest value') :
    Expands env (text ++ rest) (value ++ value') := by
  induction h with
  | nil => exact hrest
  | letter hc _ ih => exact .letter hc ih
  | @parameter name text value c hc hname hnext' _ ih =>
    rw [List.cons_append, List.cons_append, List.append_assoc, List.append_assoc]
    refine .parameter hc hname ?_ ih
    cases text with
    | nil => exact hnext
    | cons d text => exact hnext'

/-- A line of texts is expanded to the line of their values. -/
theorem expands_line {texts values : List (List Char)}
    (h : List.Forall₂ (Expands env) texts values) : Expands env (line texts) (line values) := by
  have hrest : ∀ {texts values : List (List Char)}, List.Forall₂ (Expands env) texts values →
      Expands env (texts.flatMap (' ' :: ·)) (values.flatMap (' ' :: ·)) := by
    intro texts values h
    induction h with
    | nil => exact .nil
    | @cons text value texts values hvalue _ ih =>
      rw [List.flatMap_cons, List.flatMap_cons]
      refine .append (.letter (by decide) hvalue) ?_ ih
      intro d hd
      cases texts with
      | nil => cases hd
      | cons text texts =>
        obtain rfl : ' ' = d := Option.some.inj hd
        decide
  cases h with
  | nil => exact .nil
  | @cons text value texts values hvalue hvalues =>
    refine .append hvalue ?_ (hrest hvalues)
    intro d hd
    cases texts with
    | nil => cases hd
    | cons text texts =>
      obtain rfl : ' ' = d := Option.some.inj hd
      decide

theorem Lexer.put_nil (h : l.word ≠ none) : l.put [] = l := by
  obtain ⟨word, hword⟩ := Option.ne_none_iff_exists'.mp h
  rw [Lexer.put, hword, Option.getD_some, List.append_nil, ← hword]

/-- The name of a variable ends where a letter cannot be in it. -/
theorem scan_name {name name' : List Char} {d : Char} (hname : ∀ c ∈ name', isName c = true)
    (hne : name ≠ []) (hd : isName d = false) :
    scan env { l with name := some name } (name' ++ d :: rest) =
      scan env { l.put (env (name ++ name')) with name := none } (d :: rest) := by
  induction name' generalizing name with
  | nil =>
    rw [List.nil_append, List.append_nil, scan_cons, scan_cons, Lexer.read, Lexer.read]
    simp only [hd, Bool.false_eq_true, if_false, if_neg hne]
    rfl
  | cons c name' ih =>
    obtain ⟨hc, hname⟩ := List.forall_mem_cons.mp hname
    have hread : Lexer.read env { l with name := some name } c =
        some { l with name := some (name ++ [c]) } := by
      simp only [Lexer.read, hc, if_true, hne, false_and, if_false]
    rw [List.cons_append, scan_cons, hread, Option.bind_some,
      ih hname (List.append_ne_nil_of_right_ne_nil _ (List.cons_ne_nil _ _)), List.append_assoc]
    rfl

/-- **A text between quotes** goes into the word as it is expanded. -/
theorem scan_quoted {value : List Char} {d : Char} (h : Expands env text value)
    (hname : l.name = none) (hquoted : l.quoted = true) (hword : l.word ≠ none)
    (hd : isName d = false) :
    scan env l (text ++ d :: rest) = scan env (l.put value) (d :: rest) := by
  induction h generalizing l with
  | nil => rw [List.nil_append, Lexer.put_nil hword]
  | @letter c text value hc _ ih =>
    have hne : c ≠ '"' ∧ c ≠ '$' := by
      refine ⟨?_, ?_⟩ <;> rintro rfl <;> exact absurd hc (by decide)
    have hread : l.read env c = some (l.put [c]) := by
      rw [Lexer.read, hname]
      simp only [Lexer.letter, hquoted, hne, hc, if_true, if_false, Bool.false_eq_true]
    rw [List.cons_append, scan_cons, hread, Option.bind_some,
      ih (l := l.put [c]) hname hquoted (Option.some_ne_none _), Lexer.put_put]
    rfl
  | @parameter name text value c hc hletters hnext _ ih =>
    obtain ⟨hletter, hletters⟩ := List.forall_mem_cons.mp hletters
    have hdollar : l.read env '$' = some { l with name := some [] } := by
      rw [Lexer.read, hname]
      simp [Lexer.letter, hquoted]
    have hfirst : Lexer.read env { l with name := some [] } c =
        some { l with name := some [c] } := by
      simp [Lexer.read, hletter, hc]
    -- the letter after the name
    obtain ⟨e, rest', hrest, he⟩ : ∃ e rest', text ++ d :: rest = e :: rest' ∧
        isName e = false := by
      cases text with
      | nil => exact ⟨d, rest, rfl, hd⟩
      | cons e text => exact ⟨e, _, rfl, hnext e rfl⟩
    have hput : { l.put (env (c :: name)) with name := none } = l.put (env (c :: name)) := by
      rw [← hname]
      rfl
    rw [List.cons_append, List.cons_append, List.append_assoc, scan_cons, hdollar,
      Option.bind_some, scan_cons, hfirst, Option.bind_some, hrest,
      scan_name hletters (List.cons_ne_nil _ _) he, List.singleton_append, hput, ← hrest,
      ih (l := l.put (env (c :: name))) hname hquoted (Option.some_ne_none _), Lexer.put_put]

end Scan

end Shell
