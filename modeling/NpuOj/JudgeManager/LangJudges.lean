import Mathlib.Data.Fin.VecNotation
import NpuOj.JudgeManager.Task
import NpuOj.Lib.FirstOfKind

/-!
# The registry of language judges and the objects in it

`add_lang_judge` is given an object, which it keeps in `jm_lang_judges` or deletes: it compares the
object with each one of the registry by mode and language, deletes it if it finds an equal that is
another object, and goes on comparing. So an object that has been deleted is asked for its mode
again, if what it equals is not the last of the registry.

`NpuOj.addLangJudge` is what this does to the values, as long as it goes well
(`NpuOj.RegistryInv.map_eq`); here the objects have an identity and may be deleted. When a sequence
of calls keeps the registry as it should be is `NpuOj.keepsRegistry_iff`.
-/

namespace NpuOj

open FirstOfKind

/-! ### The registry -/

/-- A virtual call on an object that has been deleted. -/
inductive ObjectFault (A : Type)
  | deletedRead (object : A)
  deriving DecidableEq

/-- The members of the registry, and the objects that `add_lang_judge` has deleted. -/
structure LangJudges (A : Type) where
  jmLangJudges : List A := []
  deleted : List A := []
  deriving DecidableEq

section Registry

variable {A : Type} [DecidableEq A] (obj : A → LangJudge)

/-- What an object answers. -/
def callObject (deleted : List A) (object : A) : Outcome (ObjectFault A) LangJudge :=
  if object ∈ deleted then .fault (.deletedRead object) else .ret (obj object)

namespace LangJudges

/-- The loop of `add_lang_judge`: what has been deleted, and `flg_duplicable`. -/
def scan (jdg : A) : List A → List A → Bool → Outcome (ObjectFault A) (List A × Bool)
  | [], deleted, flgDuplicable => .ret (deleted, flgDuplicable)
  | member :: members, deleted, flgDuplicable => do
    let a ← callObject obj deleted member
    let b ← callObject obj deleted jdg
    -- the loop does not stop at an equal
    if a.eq b then scan jdg members (if jdg ≠ member then jdg :: deleted else deleted) true
    else scan jdg members deleted flgDuplicable

/-- `add_lang_judge` -/
def addLangJudge (r : LangJudges A) (jdg : A) : Outcome (ObjectFault A) (LangJudges A) := do
  let (deleted, flgDuplicable) ← scan obj jdg r.jmLangJudges r.deleted false
  .ret ⟨if flgDuplicable then r.jmLangJudges else r.jmLangJudges ++ [jdg], deleted⟩

/-- The loop of `get_lang_judge`. -/
def findMatch (deleted : List A) (submit : Submission) :
    List A → Outcome (ObjectFault A) (Option A)
  | [] => .ret none
  | member :: members => do
    let a ← callObject obj deleted member
    if a.matches submit then .ret (some member) else findMatch deleted submit members

/-- `get_lang_judge` -/
def getLangJudge (r : LangJudges A) (submit : Submission) : Outcome (ObjectFault A) (Option A) :=
  findMatch obj r.deleted submit r.jmLangJudges

end LangJudges

/-- The registry after a sequence of calls of `add_lang_judge`. -/
def addLangJudges (calls : List A) : Outcome (ObjectFault A) (LangJudges A) :=
  calls.foldl (fun r jdg => r.bind fun r => r.addLangJudge obj jdg) (.ret {})

/-! ### What is asked of it -/

/-- **The registry is as it should be** after some calls: no two members are equal, no member has
been deleted, and the judge that is found for a submission is the first one added that matches. -/
structure RegistryOk (calls : List A) (r : LangJudges A) : Prop where
  distinct : r.jmLangJudges.Pairwise fun a b => (obj a).eq (obj b) = false
  live : ∀ a ∈ r.jmLangJudges, a ∉ r.deleted
  lookUp : ∀ submit,
    r.getLangJudge obj submit = .ret (calls.find? fun a => (obj a).matches submit)

/-- **The calls keep the registry**, each of them. -/
def KeepsRegistry (calls : List A) : Prop :=
  ∀ done, done <+: calls → ∃ r, addLangJudges obj done = .ret r ∧ RegistryOk obj done r

/-- What holds of each call, with those before it. -/
def EachCall (P : List A → A → Prop) (calls : List A) : Prop :=
  ∀ done jdg todo, calls = done ++ jdg :: todo → P done jdg

/-- No call is given an object that has been deleted. -/
def LiveCalls (calls : List A) : Prop :=
  EachCall (fun done jdg => ∀ r, addLangJudges obj done = .ret r → jdg ∉ r.deleted) calls

/-- The objects have the same mode and language. -/
def SameKind (a b : A) : Prop := (obj a).eq (obj b) = true

/-- **An object that is a duplicate equals the last judge**: if another one of its mode and
language was added before it, then no judge of a new mode or language was added after that one. -/
def EqualsLast (done : List A) (jdg : A) : Prop :=
  ∀ before first between, done = before ++ first :: between →
    (∀ c ∈ before, ¬SameKind obj c first) → SameKind obj first jdg →
    jdg = first ∨ ∀ c ∈ between, ∃ d ∈ before ++ [first], SameKind obj d c

/-! ### What one call does -/

/-- What two judges are compared by. -/
def LangJudge.kind (jdg : LangJudge) : NojJudgeMode × NojLanguage := (jdg.getMode, jdg.getLang)

theorem LangJudge.eq_iff {a b : LangJudge} : a.eq b = true ↔ a.kind = b.kind := by
  rw [LangJudge.eq, decide_eq_true_iff, LangJudge.kind, LangJudge.kind, Prod.mk.injEq]

theorem LangJudge.matches_eq (jdg : LangJudge) (submit : Submission) :
    jdg.matches submit = decide (jdg.kind = (submit.sbmCurMode, submit.sbmLang)) := by
  rw [LangJudge.matches, LangJudge.kind, decide_eq_decide, Prod.mk.injEq, and_comm]

variable {obj} {deleted members members' : List A} {jdg first : A} {flgDuplicable : Bool}

/-- The objects that are not deleted answer. -/
theorem callObject_of_notMem (h : jdg ∉ deleted) : callObject obj deleted jdg = .ret (obj jdg) :=
  if_neg h

namespace LangJudges

theorem scan_append : scan obj jdg (members ++ members') deleted flgDuplicable =
    (scan obj jdg members deleted flgDuplicable).bind
      fun x => scan obj jdg members' x.1 x.2 := by
  induction members generalizing deleted flgDuplicable with
  | nil => rfl
  | cons member members ih =>
    simp only [List.cons_append, scan, Outcome.bind_def]
    cases callObject obj deleted member with
    | ret a =>
      cases callObject obj deleted jdg with
      | ret b =>
        simp only [Outcome.ret_bind]
        split <;> exact ih
      | fault e => rfl
      | pending => rfl
    | fault e => rfl
    | pending => rfl

/-- Among members that are all different from the object nothing happens. -/
theorem scan_of_ne (hjdg : jdg ∉ deleted) (hlive : ∀ a ∈ members, a ∉ deleted)
    (hne : ∀ a ∈ members, (obj a).kind ≠ (obj jdg).kind) :
    scan obj jdg members deleted flgDuplicable = .ret (deleted, flgDuplicable) := by
  induction members with
  | nil => rfl
  | cons member members ih =>
    rw [List.forall_mem_cons] at hlive hne
    have hdiff : ¬(obj member).eq (obj jdg) = true := by
      rw [LangJudge.eq_iff]
      exact hne.1
    rw [scan, callObject_of_notMem hlive.1, callObject_of_notMem hjdg, Outcome.bind_def,
      Outcome.ret_bind, Outcome.bind_def, Outcome.ret_bind, if_neg hdiff]
    exact ih hlive.2 hne.2

end LangJudges

/-- The mode and the language of an object. -/
abbrev kindOf (obj : A → LangJudge) (a : A) : NojJudgeMode × NojLanguage := (obj a).kind

omit [DecidableEq A] in
theorem exists_sameKind_iff {l : List A} {a : A} :
    (∃ d ∈ l, SameKind obj d a) ↔ kindOf obj a ∈ l.map (kindOf obj) := by
  simp only [SameKind, LangJudge.eq_iff, List.mem_map, kindOf]

omit [DecidableEq A] in
/-- What the condition comes to, once the first object of the mode and language is known. -/
theorem equalsLast_iff {us vs : List A} (hfirst : kindOf obj first ∉ us.map (kindOf obj))
    (hkind : kindOf obj first = kindOf obj jdg) : EqualsLast obj (us ++ first :: vs) jdg ↔
      jdg = first ∨ ∀ c ∈ vs, kindOf obj c ∈ (us ++ [first]).map (kindOf obj) := by
  simp only [EqualsLast, exists_sameKind_iff]
  constructor
  · intro h
    refine h us first vs rfl (fun c hc hsame => hfirst ?_) (LangJudge.eq_iff.mpr hkind)
    exact exists_sameKind_iff.mp ⟨c, hc, hsame⟩
  · intro h before first' between hsplit hbefore hsame
    have hfirst' : kindOf obj first' ∉ before.map (kindOf obj) := by
      rw [← exists_sameKind_iff]
      rintro ⟨c, hc, hcsame⟩
      exact hbefore c hc hcsame
    obtain ⟨rfl, rfl, rfl⟩ := eq_of_first hsplit hfirst hfirst'
      (hkind.trans (LangJudge.eq_iff.mp hsame).symm)
    exact h

omit [DecidableEq A] in
theorem equalsLast_of_notMem {done : List A} (h : kindOf obj jdg ∉ done.map (kindOf obj)) :
    EqualsLast obj done jdg := by
  rintro before first between rfl - hsame
  exact absurd (exists_sameKind_iff.mp ⟨first, by simp, hsame⟩) h

namespace LangJudges

/-- **The scan at an equal**: it goes well if the object is the member itself, or if the member is
the last. -/
theorem scan_at_equal (hjdg : jdg ∉ deleted)
    (hlive : ∀ a ∈ members ++ first :: members', a ∉ deleted)
    (hkind : (obj first).kind = (obj jdg).kind)
    (hne : ∀ a ∈ members, (obj a).kind ≠ (obj jdg).kind)
    (hne' : ∀ a ∈ members', (obj a).kind ≠ (obj jdg).kind) :
    scan obj jdg (members ++ first :: members') deleted false =
      if jdg = first then .ret (deleted, true)
      else if members' = [] then .ret (jdg :: deleted, true) else .fault (.deletedRead jdg) := by
  rw [List.forall_mem_append, List.forall_mem_cons] at hlive
  obtain ⟨hmembers, hfirst, hmembers'⟩ := hlive
  have hequal : (obj first).eq (obj jdg) = true := LangJudge.eq_iff.mpr hkind
  rw [scan_append, scan_of_ne hjdg hmembers hne, Outcome.ret_bind, scan,
    callObject_of_notMem hfirst, callObject_of_notMem hjdg, Outcome.bind_def, Outcome.ret_bind,
    Outcome.bind_def, Outcome.ret_bind, if_pos hequal]
  by_cases hself : jdg = first
  · rw [if_pos hself, if_neg (not_not.mpr hself)]
    exact scan_of_ne hjdg hmembers' hne'
  · rw [if_neg hself, if_pos hself]
    cases members' with
    | nil => rfl
    | cons member members' =>
      -- the next member is not the object, which is deleted
      have hmember : member ∉ jdg :: deleted := by
        rw [List.mem_cons, not_or]
        exact ⟨fun h => hne' member List.mem_cons_self (by rw [h]),
          hmembers' member List.mem_cons_self⟩
      rw [scan, callObject_of_notMem hmember, if_neg (List.cons_ne_nil _ _), Outcome.bind_def,
        Outcome.ret_bind, callObject, if_pos List.mem_cons_self]
      rfl

end LangJudges

/-! ### What a sequence of calls does -/

/-- **After some calls that went well**, the registry has the first object of each mode and
language, and what has been deleted equals a member that is another object. -/
structure RegistryInv (obj : A → LangJudge) (calls : List A) (r : LangJudges A) : Prop where
  members : r.jmLangJudges = kept (kindOf obj) calls
  deleted : ∀ a ∈ r.deleted, ∃ b ∈ r.jmLangJudges, b ≠ a ∧ kindOf obj b = kindOf obj a

namespace RegistryInv

variable {calls : List A} {r : LangJudges A}

omit [DecidableEq A] in
theorem nodup (hinv : RegistryInv obj calls r) : (r.jmLangJudges.map (kindOf obj)).Nodup := by
  rw [hinv.members]
  exact nodup_map_kept calls

omit [DecidableEq A] in
/-- No member has been deleted. -/
theorem live (hinv : RegistryInv obj calls r) : ∀ a ∈ r.jmLangJudges, a ∉ r.deleted := by
  intro a ha hdeleted
  obtain ⟨b, hb, hne, hkind⟩ := hinv.deleted a hdeleted
  exact hne (List.inj_on_of_nodup_map hinv.nodup hb ha hkind)

/-- A new mode or language is added. -/
theorem add_new (hinv : RegistryInv obj calls r) (hjdg : jdg ∉ r.deleted)
    (hnew : kindOf obj jdg ∉ calls.map (kindOf obj)) :
    ∃ r', r.addLangJudge obj jdg = .ret r' ∧ RegistryInv obj (calls ++ [jdg]) r' := by
  have hnew' : kindOf obj jdg ∉ (kept (kindOf obj) calls).map (kindOf obj) := by
    rwa [mem_map_kept]
  have hscan :
      LangJudges.scan obj jdg r.jmLangJudges r.deleted false = .ret (r.deleted, false) := by
    refine LangJudges.scan_of_ne hjdg hinv.live fun a ha hkind => hnew' ?_
    rw [hinv.members] at ha
    exact List.mem_map.mpr ⟨a, ha, hkind⟩
  refine ⟨⟨r.jmLangJudges ++ [jdg], r.deleted⟩, ?_, ?_, fun a ha => ?_⟩
  · rw [LangJudges.addLangJudge, hscan]
    rfl
  · rw [kept_concat, keep_of_notMem hnew', ← hinv.members]
  · obtain ⟨b, hb, hba⟩ := hinv.deleted a ha
    exact ⟨b, List.mem_append_left _ hb, hba⟩

omit [DecidableEq A] in
/-- The members other than one have another mode or language than that one. -/
theorem kind_ne (hinv : RegistryInv obj calls r)
    (hmembers : r.jmLangJudges = members ++ first :: members') :
    ∀ a ∈ members ++ members', kindOf obj a ≠ kindOf obj first := by
  have hnodup := hinv.nodup
  rw [hmembers, List.map_append, List.map_cons] at hnodup
  have hnot := (List.nodup_middle.mp hnodup).notMem
  rw [← List.map_append] at hnot
  exact fun a ha hsame => hnot (List.mem_map.mpr ⟨a, ha, hsame⟩)

/-- A duplicate of a member is dropped if it is the member itself, deleted if the member is the
last, and asked for its mode after it has been deleted otherwise. -/
theorem addLangJudge_duplicate (hinv : RegistryInv obj calls r) (hjdg : jdg ∉ r.deleted)
    (hmembers : r.jmLangJudges = members ++ first :: members')
    (hkind : kindOf obj first = kindOf obj jdg) :
    r.addLangJudge obj jdg =
      if jdg = first then .ret r
      else if members' = [] then .ret ⟨r.jmLangJudges, jdg :: r.deleted⟩
      else .fault (.deletedRead jdg) := by
  have hothers := hinv.kind_ne hmembers
  rw [hkind, List.forall_mem_append] at hothers
  have hlive := hinv.live
  rw [hmembers] at hlive
  rw [LangJudges.addLangJudge, hmembers,
    LangJudges.scan_at_equal hjdg hlive hkind hothers.1 hothers.2]
  split
  · rw [← hmembers]
    rfl
  · split <;> rfl

omit [DecidableEq A] in
/-- What equals a member is not kept. -/
theorem concat_of_mem (hinv : RegistryInv obj calls r)
    (hmem : kindOf obj jdg ∈ calls.map (kindOf obj)) {deleted : List A}
    (hdeleted : ∀ a ∈ deleted, ∃ b ∈ r.jmLangJudges, b ≠ a ∧ kindOf obj b = kindOf obj a) :
    RegistryInv obj (calls ++ [jdg]) ⟨r.jmLangJudges, deleted⟩ where
  members := by
    rw [kept_concat, keep_of_mem (by rwa [mem_map_kept])]
    exact hinv.members
  deleted := hdeleted

/-- **What one call does** to a registry that is as it should be. -/
theorem add (hinv : RegistryInv obj calls r) (hjdg : jdg ∉ r.deleted) :
    (EqualsLast obj calls jdg ∧
      ∃ r', r.addLangJudge obj jdg = .ret r' ∧ RegistryInv obj (calls ++ [jdg]) r') ∨
    (¬EqualsLast obj calls jdg ∧ r.addLangJudge obj jdg = .fault (.deletedRead jdg)) := by
  by_cases hmem : kindOf obj jdg ∈ calls.map (kindOf obj)
  swap
  · exact Or.inl ⟨equalsLast_of_notMem hmem, hinv.add_new hjdg hmem⟩
  obtain ⟨us, first, vs, rfl, hkind, hfirst⟩ := exists_first hmem
  obtain ⟨cs, hkept, hnil⟩ := kept_split us first vs hfirst
  have hmembers : r.jmLangJudges = kept (kindOf obj) us ++ first :: cs := hinv.members.trans hkept
  have hadd := hinv.addLangJudge_duplicate hjdg hmembers hkind
  rw [equalsLast_iff hfirst hkind, ← hnil]
  by_cases hself : jdg = first
  · rw [if_pos hself] at hadd
    exact Or.inl ⟨Or.inl hself, r, hadd, hinv.concat_of_mem hmem hinv.deleted⟩
  rw [if_neg hself] at hadd
  by_cases hlast : cs = []
  · rw [if_pos hlast] at hadd
    refine Or.inl ⟨Or.inr hlast, _, hadd, hinv.concat_of_mem hmem fun a ha => ?_⟩
    rcases List.mem_cons.mp ha with rfl | hold
    · exact ⟨first, by simp [hmembers], Ne.symm hself, hkind⟩
    · exact hinv.deleted a hold
  · rw [if_neg hlast] at hadd
    exact Or.inr ⟨not_or.mpr ⟨hself, hlast⟩, hadd⟩

end RegistryInv

theorem LangJudges.findMatch_eq (submit : Submission) (hlive : ∀ a ∈ members, a ∉ deleted) :
    findMatch obj deleted submit members =
      .ret (members.find? fun a => (obj a).matches submit) := by
  induction members with
  | nil => rfl
  | cons member members ih =>
    rw [List.forall_mem_cons] at hlive
    rw [findMatch, callObject_of_notMem hlive.1, Outcome.bind_def, Outcome.ret_bind,
      List.find?_cons, ih hlive.2]
    cases (obj member).matches submit <;> rfl

/-- **The registry is as it should be** as long as the calls go well. -/
theorem RegistryInv.ok {calls : List A} {r : LangJudges A} (hinv : RegistryInv obj calls r) :
    RegistryOk obj calls r where
  distinct := by
    refine (List.pairwise_map.mp hinv.nodup).imp fun hne => ?_
    rwa [← Bool.not_eq_true, LangJudge.eq_iff]
  live := hinv.live
  lookUp submit := by
    have hmatches : (fun a => (obj a).matches submit) =
        fun a => decide (kindOf obj a = (submit.sbmCurMode, submit.sbmLang)) :=
      funext fun a => LangJudge.matches_eq (obj a) submit
    rw [LangJudges.getLangJudge, LangJudges.findMatch_eq submit hinv.live, hinv.members, hmatches]
    exact congrArg _ (find?_kept (fun k => decide (k = (submit.sbmCurMode, submit.sbmLang))) calls)

section Calls

variable {calls done : List A}

omit [DecidableEq A] in
theorem EachCall.of_prefix {P : List A → A → Prop} (h : EachCall P calls) (hdone : done <+: calls) :
    EachCall P done := by
  obtain ⟨todo, rfl⟩ := hdone
  rintro before jdg after rfl
  exact h before jdg (after ++ todo) (by simp)

omit [DecidableEq A] in
theorem eachCall_nil (P : List A → A → Prop) : EachCall P [] := by
  intro done jdg todo h
  simp at h

omit [DecidableEq A] in
theorem eachCall_cons {P : List A → A → Prop} :
    EachCall P (jdg :: calls) ↔ P [] jdg ∧ EachCall (fun done => P (jdg :: done)) calls := by
  constructor
  · intro h
    refine ⟨h [] jdg calls rfl, ?_⟩
    rintro done jdg' todo rfl
    exact h (jdg :: done) jdg' todo rfl
  · rintro ⟨hjdg, hcalls⟩ done jdg' todo hsplit
    cases done with
    | nil =>
      obtain ⟨rfl, -⟩ := List.cons.inj hsplit
      exact hjdg
    | cons first done =>
      obtain ⟨rfl, hrest⟩ := List.cons.inj hsplit
      exact hcalls done jdg' todo hrest

omit [DecidableEq A] in
theorem eachCall_concat {P : List A → A → Prop} :
    EachCall P (calls ++ [jdg]) ↔ EachCall P calls ∧ P calls jdg := by
  induction calls generalizing P with
  | nil =>
    rw [List.nil_append, eachCall_cons]
    exact ⟨fun h => ⟨eachCall_nil P, h.1⟩, fun h => ⟨h.2, eachCall_nil _⟩⟩
  | cons first calls ih => rw [List.cons_append, eachCall_cons, eachCall_cons, ih, and_assoc]

theorem addLangJudges_concat (calls : List A) (jdg : A) : addLangJudges obj (calls ++ [jdg]) =
    (addLangJudges obj calls).bind fun r => r.addLangJudge obj jdg := by
  rw [addLangJudges, List.foldl_append]
  rfl

/-- **What a sequence of calls does**, with objects that are not deleted: it goes well as long as
every duplicate equals the last judge. -/
theorem addLangJudges_cases (hlive : LiveCalls obj calls) :
    (EachCall (EqualsLast obj) calls ∧
      ∃ r, addLangJudges obj calls = .ret r ∧ RegistryInv obj calls r) ∨
    (¬EachCall (EqualsLast obj) calls ∧ ∃ e, addLangJudges obj calls = .fault e) := by
  induction calls using List.reverseRecOn with
  | nil =>
    exact Or.inl ⟨eachCall_nil _, {}, rfl, rfl, fun a ha => by cases ha⟩
  | append_singleton calls jdg ih =>
    rw [LiveCalls, eachCall_concat] at hlive
    rw [eachCall_concat, addLangJudges_concat]
    rcases ih hlive.1 with ⟨hlast, r, hr, hinv⟩ | ⟨hlast, e, he⟩
    · rw [hr, Outcome.ret_bind]
      rcases hinv.add (hlive.2 r hr) with ⟨hjdg, hgood⟩ | ⟨hjdg, hbad⟩
      · exact Or.inl ⟨⟨hlast, hjdg⟩, hgood⟩
      · exact Or.inr ⟨fun h => hjdg h.2, _, hbad⟩
    · rw [he]
      exact Or.inr ⟨fun h => hlast h.1, e, rfl⟩

/-- **When the registry is kept**: exactly if every object that is added while another one of its
mode and language is there equals the last judge. -/
theorem keepsRegistry_iff (obj : A → LangJudge) (calls : List A) (hlive : LiveCalls obj calls) :
    KeepsRegistry obj calls ↔ EachCall (EqualsLast obj) calls := by
  constructor
  · intro h
    obtain ⟨r, hr, -⟩ := h calls List.prefix_rfl
    rcases addLangJudges_cases hlive with ⟨hlast, -⟩ | ⟨-, e, he⟩
    · exact hlast
    · cases hr.symm.trans he
  · intro h done hdone
    rcases addLangJudges_cases (hlive.of_prefix hdone) with ⟨-, r, hr, hinv⟩ | ⟨hlast, -⟩
    · exact ⟨r, hr, hinv.ok⟩
    · exact absurd (h.of_prefix hdone) hlast

end Calls

/-! ### The values of the registry -/

omit [DecidableEq A] in
/-- What is kept, as values. -/
theorem map_kept (obj : A → LangJudge) (calls : List A) :
    (kept (kindOf obj) calls).map obj = (calls.map obj).foldl addLangJudge [] := by
  induction calls using List.reverseRecOn with
  | nil => rfl
  | append_singleton calls jdg ih =>
    have hany : ((kept (kindOf obj) calls).map obj).any (·.eq (obj jdg)) = true ↔
        kindOf obj jdg ∈ (kept (kindOf obj) calls).map (kindOf obj) := by
      rw [← exists_sameKind_iff, List.any_eq_true]
      simp [SameKind]
    rw [kept_concat, List.map_append, List.map_singleton, List.foldl_append, ← ih]
    by_cases hjdg : kindOf obj jdg ∈ (kept (kindOf obj) calls).map (kindOf obj)
    · rw [keep_of_mem hjdg]
      exact (if_pos (hany.mpr hjdg)).symm
    · rw [keep_of_notMem hjdg, List.map_append]
      exact (if_neg (mt hany.mp hjdg)).symm

/-- **The objects behave as the values** that `NpuOj.addLangJudge` and `NpuOj.getLangJudge` compute
with, as long as the calls go well. -/
theorem RegistryInv.map_eq {calls : List A} {r : LangJudges A} (hinv : RegistryInv obj calls r) :
    r.jmLangJudges.map obj = (calls.map obj).foldl addLangJudge [] ∧
      ∀ submit, ∃ found, r.getLangJudge obj submit = .ret found ∧
        found.map obj = getLangJudge (r.jmLangJudges.map obj) submit := by
  refine ⟨by rw [hinv.members, map_kept], fun submit => ?_⟩
  refine ⟨_, LangJudges.findMatch_eq submit hinv.live, ?_⟩
  rw [getLangJudge, List.find?_map]
  rfl

end Registry

/-- The objects that `init_judges` adds. -/
def startJudges (scripts : Scripts) : Fin 4 → LangJudge :=
  ![⟨.debug, .c, ⟨scripts.cDebugCompiler⟩⟩, ⟨.release, .c, ⟨scripts.cReleaseCompiler⟩⟩,
    ⟨.debug, .cpp, ⟨scripts.cppDebugCompiler⟩⟩, ⟨.release, .cpp, ⟨scripts.cppReleaseCompiler⟩⟩]

/-- At the start all goes well, and the registry is the one that submissions are judged with. -/
theorem addLangJudges_startJudges (scripts : Scripts) :
    addLangJudges (startJudges scripts) [0, 1, 2, 3] = .ret ⟨[0, 1, 2, 3], []⟩ ∧
      [0, 1, 2, 3].map (startJudges scripts) = initLangJudges scripts :=
  ⟨rfl, rfl⟩

/-- Two objects for each mode of C. -/
def twiceJudges : Fin 4 → LangJudge :=
  ![⟨.debug, .c, ⟨none⟩⟩, ⟨.release, .c, ⟨none⟩⟩, ⟨.release, .c, ⟨none⟩⟩, ⟨.debug, .c, ⟨none⟩⟩]

/-- A duplicate of the last judge is deleted, and a judge that is there may be added again. -/
theorem keepsRegistry_twiceJudges : KeepsRegistry twiceJudges [0, 1, 2, 0] := by
  have hlive : LiveCalls twiceJudges [0, 1, 2, 0] := by
    simp only [LiveCalls, eachCall_cons]
    refine ⟨?_, ?_, ?_, ?_, eachCall_nil _⟩ <;> intro r hr <;>
      rw [← Outcome.ret.inj hr] <;> decide
  refine (keepsRegistry_iff twiceJudges [0, 1, 2, 0] hlive).mpr ?_
  simp only [eachCall_cons]
  refine ⟨equalsLast_of_notMem (by decide), equalsLast_of_notMem (by decide), ?_, ?_,
    eachCall_nil _⟩
  · show EqualsLast twiceJudges ([0] ++ 1 :: []) 2
    exact (equalsLast_iff (by decide) (by decide)).mpr (Or.inr (by simp))
  · show EqualsLast twiceJudges ([] ++ 0 :: [1, 2]) 0
    exact (equalsLast_iff (by decide) (by decide)).mpr (Or.inl rfl)

/-- **A duplicate of a judge that is not the last** is deleted, and then compared with the next
one. -/
theorem not_keepsRegistry_twiceJudges : LiveCalls twiceJudges [0, 1, 3] ∧
    addLangJudges twiceJudges [0, 1, 3] = .fault (.deletedRead 3) ∧
    ¬KeepsRegistry twiceJudges [0, 1, 3] := by
  have hfault : addLangJudges twiceJudges [0, 1, 3] = .fault (.deletedRead 3) := rfl
  refine ⟨?_, hfault, fun h => ?_⟩
  · simp only [LiveCalls, eachCall_cons]
    refine ⟨?_, ?_, ?_, eachCall_nil _⟩ <;> intro r hr <;>
      rw [← Outcome.ret.inj hr] <;> decide
  · obtain ⟨r, hr, -⟩ := h _ List.prefix_rfl
    cases hfault.symm.trans hr

end NpuOj
