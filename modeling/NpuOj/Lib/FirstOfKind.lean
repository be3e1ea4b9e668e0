import Mathlib.Data.List.Induction
import Mathlib.Data.List.Nodup
import Mathlib.Tactic.Common

/-!
# Keeping the first of each kind

Things that have a kind are handed over one after the other, and a thing is kept if nothing of its
kind has been kept before. What is kept has each kind once (`FirstOfKind.nodup_map_kept`), has
every kind that was handed over (`FirstOfKind.mem_map_kept`), and a search by kind finds in it what
it finds among all that was handed over (`FirstOfKind.find?_kept`).

`FirstOfKind.kept_split` says where a thing that is kept comes from, and whether something has been
kept after it.
-/

namespace FirstOfKind

variable {α κ : Type*} [DecidableEq κ] (kind : α → κ)

/-- Keep a thing, unless there is one of its kind. -/
def keep (l : List α) (a : α) : List α := if kind a ∈ l.map kind then l else l ++ [a]

/-- **What is kept** of a list. -/
def kept (as : List α) : List α := as.foldl (keep kind) []

variable {kind} {as bs l : List α} {a b : α}

theorem keep_of_mem (h : kind a ∈ l.map kind) : keep kind l a = l := if_pos h

theorem keep_of_notMem (h : kind a ∉ l.map kind) : keep kind l a = l ++ [a] := if_neg h

theorem kept_concat (as : List α) (a : α) : kept kind (as ++ [a]) = keep kind (kept kind as) a := by
  rw [kept, kept, List.foldl_append]
  rfl

/-- No kind is lost. -/
theorem mem_map_kept {k : κ} : k ∈ (kept kind as).map kind ↔ k ∈ as.map kind := by
  induction as using List.reverseRecOn with
  | nil => rfl
  | append_singleton as a ih =>
    rw [kept_concat, List.map_append, List.mem_append]
    by_cases ha : kind a ∈ (kept kind as).map kind
    · rw [keep_of_mem ha, ih]
      refine ⟨Or.inl, fun h => h.elim id fun hk => ?_⟩
      obtain rfl : k = kind a := List.mem_singleton.mp hk
      exact ih.mp ha
    · rw [keep_of_notMem ha, List.map_append, List.mem_append, ih]

/-- **No kind is kept twice.** -/
theorem nodup_map_kept (as : List α) : ((kept kind as).map kind).Nodup := by
  induction as using List.reverseRecOn with
  | nil => exact List.nodup_nil
  | append_singleton as a ih =>
    rw [kept_concat]
    by_cases ha : kind a ∈ (kept kind as).map kind
    · rwa [keep_of_mem ha]
    · rw [keep_of_notMem ha, List.map_append, List.map_singleton]
      exact ih.append (List.nodup_singleton _) (List.disjoint_singleton.mpr ha)

/-- **A search by kind** finds the first of all. -/
theorem find?_kept (p : κ → Bool) (as : List α) :
    (kept kind as).find? (fun a => p (kind a)) = as.find? fun a => p (kind a) := by
  induction as using List.reverseRecOn with
  | nil => rfl
  | append_singleton as a ih =>
    rw [kept_concat, List.find?_append, ← ih]
    by_cases ha : kind a ∈ (kept kind as).map kind
    · rw [keep_of_mem ha]
      cases hfind : (kept kind as).find? fun a => p (kind a) with
      | some b => rfl
      | none =>
        -- what is kept of its kind is not found either
        obtain ⟨b, hb, hba⟩ := List.mem_map.mp ha
        have hno := List.find?_eq_none.mp hfind b hb
        rw [hba] at hno
        simp [hno]
    · rw [keep_of_notMem ha, List.find?_append]

/-- What is handed over later is kept behind what was there. -/
theorem kept_append (as bs : List α) : ∃ cs, kept kind (as ++ bs) = kept kind as ++ cs ∧
    (cs = [] ↔ ∀ b ∈ bs, kind b ∈ as.map kind) := by
  induction bs using List.reverseRecOn with
  | nil => exact ⟨[], by simp⟩
  | append_singleton bs b ih =>
    obtain ⟨cs, hcs, hnil⟩ := ih
    rw [← List.append_assoc, kept_concat]
    by_cases hb : kind b ∈ (kept kind (as ++ bs)).map kind
    · refine ⟨cs, by rw [keep_of_mem hb, hcs], ?_⟩
      rw [mem_map_kept, List.map_append, List.mem_append] at hb
      rw [hnil, List.forall_mem_append, List.forall_mem_singleton]
      refine ⟨fun h => ⟨h, hb.elim id fun hbs => ?_⟩, And.left⟩
      obtain ⟨c, hc, hcb⟩ := List.mem_map.mp hbs
      exact hcb ▸ h c hc
    · refine ⟨cs ++ [b], by rw [keep_of_notMem hb, hcs, List.append_assoc], ?_⟩
      refine iff_of_false (by simp) fun h => hb ?_
      rw [mem_map_kept, List.map_append]
      exact List.mem_append_left _ (h b (by simp))

/-- **The first of its kind is kept**, and something is kept behind it if a new kind comes after
it. -/
theorem kept_split (as : List α) (b : α) (bs : List α) (hb : kind b ∉ as.map kind) :
    ∃ cs, kept kind (as ++ b :: bs) = kept kind as ++ b :: cs ∧
      (cs = [] ↔ ∀ c ∈ bs, kind c ∈ (as ++ [b]).map kind) := by
  obtain ⟨cs, hcs, hnil⟩ : ∃ cs, kept kind (as ++ [b] ++ bs) = kept kind (as ++ [b]) ++ cs ∧
      (cs = [] ↔ ∀ c ∈ bs, kind c ∈ (as ++ [b]).map kind) := kept_append _ _
  refine ⟨cs, ?_, hnil⟩
  rw [kept_concat, keep_of_notMem (by rwa [mem_map_kept]), List.append_assoc, List.append_assoc]
    at hcs
  exact hcs

omit [DecidableEq κ] in
/-- A kind that is there has a first thing. -/
theorem exists_first (h : kind a ∈ as.map kind) :
    ∃ us b vs, as = us ++ b :: vs ∧ kind b = kind a ∧ kind b ∉ us.map kind := by
  obtain ⟨ks, ks', hmap, hfirst⟩ := List.eq_append_cons_of_mem h
  obtain ⟨us, rest, rfl, rfl, hrest⟩ := List.map_eq_append_iff.mp hmap
  obtain ⟨b, vs, rfl, hb, rfl⟩ := List.map_eq_cons_iff.mp hrest
  exact ⟨us, b, vs, rfl, hb, hb ▸ hfirst⟩

omit [DecidableEq κ] in
theorem eq_nil_of_first {vs ws vs' : List α} (h : a :: vs = ws ++ b :: vs')
    (hab : kind a = kind b) (hb : kind b ∉ ws.map kind) : ws = [] ∧ a = b ∧ vs = vs' := by
  cases ws with
  | nil => exact ⟨rfl, List.cons.inj h⟩
  | cons c ws =>
    obtain ⟨rfl, -⟩ := List.cons.inj h
    exact absurd (List.mem_map.mpr ⟨a, List.mem_cons_self, hab⟩) hb

omit [DecidableEq κ] in
/-- There is only one first thing of a kind. -/
theorem eq_of_first {us vs us' vs' : List α} (h : us ++ a :: vs = us' ++ b :: vs')
    (ha : kind a ∉ us.map kind) (hb : kind b ∉ us'.map kind) (hab : kind a = kind b) :
    us = us' ∧ a = b ∧ vs = vs' := by
  rcases List.append_eq_append_iff.mp h with ⟨ws, rfl, hws⟩ | ⟨ws, rfl, hws⟩
  · rw [List.map_append, List.mem_append, not_or] at hb
    obtain ⟨rfl, rfl, rfl⟩ := eq_nil_of_first hws hab hb.2
    exact ⟨(List.append_nil _).symm, rfl, rfl⟩
  · rw [List.map_append, List.mem_append, not_or] at ha
    obtain ⟨rfl, rfl, rfl⟩ := eq_nil_of_first hws hab.symm ha.2
    exact ⟨List.append_nil _, rfl, rfl⟩

end FirstOfKind
