import Mathlib.Data.Finset.Lattice.Fold
import NpuOj.Lang.Compile.Inherited

/-!
# When a call of `compile` comes back

Here the threads of `NpuOj.compilers` are scheduled fairly, and every child that has a status ends
at some time. A call that waits for its script then leaves `waitpid` if its script ends, and is
back if the script has succeeded. A call that reads is back once the other children that have its
end for writing are gone, and not before: with them it shares the fate of whatever was forked
between its `pipe` and its `close` (`NpuOj.compile_returns_iff`).
-/

namespace NpuOj

section Returns

variable {n cap : ℕ} {s s' : CompilersState n} {a : CompilersStep n} {w : Fin n}
  {p first last c j : ℕ} {chunks : List Chunk}

/-! ### The steps -/

/-- The status of a child is settled at its fork. -/
theorem status_of_compilersStep (h : s.step cap a = some s') (hj : j < s.fam.forks) :
    j < s'.fam.forks ∧ s'.status j = s.status j := by
  cases compilersMove_of_step h with
  | fork | spawn => exact ⟨Nat.lt_succ_of_lt hj, Function.update_of_ne hj.ne _ _⟩
  | _ => exact ⟨hj, rfl⟩

/-- A child that has ended stays so. -/
theorem dead_of_compilersStep (h : s.step cap a = some s') (hj : j < s.fam.forks)
    (hdead : s.fam.alive j = false) : s'.fam.alive j = false := by
  cases compilersMove_of_step h with
  | fork | spawn => exact (Family.alive_fork_of_lt hj).trans hdead
  | ends => exact Family.alive_bury_eq_false hdead
  | _ => exact hdead

/-- A child that does not end is alive afterwards. -/
theorem alive_of_compilersStep (h : s.step cap a = some s') (hj : j < s.fam.forks)
    (halive : s.fam.alive j = true) (ha : ¬a.OwedTo (.child j)) : s'.fam.alive j = true := by
  cases compilersMove_of_step h with
  | fork | spawn => exact (Family.alive_fork_of_lt hj).trans halive
  | ends =>
    have hne : j ≠ _ := fun hji => ha hji.symm
    exact (Function.update_of_ne hne _ _).trans halive
  | _ => exact halive

/-- The others do not move a thread that is in a call. -/
theorem loc_of_compilersStep (h : s.step cap a = some s') (hw : s.loc w ≠ .outside)
    (ha : ¬a.OwedTo (.thread w)) : s'.loc w = s.loc w := by
  cases compilersMove_of_step h with
  | pipe hv =>
    refine Function.update_of_ne ?_ _ _
    rintro rfl
    exact hw hv
  | spawn | write | ends => rfl
  | _ => exact Function.update_of_ne (fun hwv => ha hwv.symm) _ _

/-- **Out of `waitpid`**, with the status of the script. -/
theorem waiting_of_compilersStep (h : s.step cap a = some s')
    (hw : s.loc w = .waiting p first last c) (ha : a.OwedTo (.thread w)) :
    (s.status c = some 0 ∧ s'.loc w = .outside) ∨
      ∃ stat, s.status c = some stat ∧ stat ≠ 0 ∧ s'.loc w = .reading p first last c [] := by
  cases compilersMove_of_step h with
  | pipe | spawn | write | ends => exact ha.elim
  | fork hv | forkFails hv | close hv | read hv | eof hv =>
    obtain rfl := ha
    rw [hw] at hv
    cases hv
  | passes hv hc hstat =>
    obtain rfl := ha
    rw [hw] at hv
    obtain ⟨rfl, rfl, rfl, rfl⟩ := CompileAt.waiting.inj hv
    exact Or.inl ⟨hstat, Function.update_self ..⟩
  | fails hv hc hstat hne =>
    obtain rfl := ha
    rw [hw] at hv
    obtain ⟨rfl, rfl, rfl, rfl⟩ := CompileAt.waiting.inj hv
    exact Or.inr ⟨_, hstat, hne, Function.update_self ..⟩

/-- **A `read`** leaves less in the pipe, or it is the last one. -/
theorem reading_of_compilersStep (h : s.step cap a = some s')
    (hw : s.loc w = .reading p first last c chunks) (ha : a.OwedTo (.thread w)) :
    (s.fam.Released p ∧ s'.loc w = .outside) ∨
      (s'.content p).length < (s.content p).length ∧
        ∃ chunks', s'.loc w = .reading p first last c chunks' := by
  cases compilersMove_of_step h with
  | pipe | spawn | write | ends => exact ha.elim
  | fork hv | forkFails hv | close hv | passes hv | fails hv =>
    obtain rfl := ha
    rw [hw] at hv
    cases hv
  | read hv hk hchunk hle =>
    obtain rfl := ha
    rw [hw] at hv
    obtain ⟨rfl, rfl, rfl, rfl, rfl⟩ := CompileAt.reading.inj hv
    refine Or.inr ⟨?_, _, Function.update_self ..⟩
    simp only [CompilersState.setLoc, CompilersState.drop, Function.update_self, List.length_drop]
    omega
  | eof hv hempty hgone =>
    obtain rfl := ha
    rw [hw] at hv
    obtain ⟨rfl, -⟩ := CompileAt.reading.inj hv
    exact Or.inl ⟨hgone, Function.update_self ..⟩

/-- **Once the end for writing is gone**, the others leave the pipe of a call alone. -/
theorem content_of_compilersStep (hinv : CompilersInv s) (h : s.step cap a = some s')
    (hw : p ∈ (s.loc w).pipe?) (hgone : s.fam.Released p) (ha : ¬a.OwedTo (.thread w)) :
    s'.content p = s.content p := by
  cases compilersMove_of_step h with
  | @write j q bytes hj hq =>
    refine Function.update_of_ne ?_ _ _
    rintro rfl
    exact hgone.2 j (hinv.wf.lt_of_alive j hj) hj hq
  | @read v q _ _ _ _ _ _ hv =>
    refine Function.update_of_ne ?_ _ _
    rintro rfl
    exact hinv.not_other hw v (fun hvw => ha hvw) (by rw [hv]; rfl)
  | _ => rfl

/-- A call in `waitpid` or in the loop that reads. -/
def CompileAt.Awaits (p first last c : ℕ) (l : CompileAt) : Prop :=
  l = .waiting p first last c ∨ ∃ chunks, l = .reading p first last c chunks

theorem CompileAt.Awaits.window {l : CompileAt} (h : l.Awaits p first last c) {f : Family ℕ}
    (hl : l.Window f) : f.HeldBetween p first last ∧ first ≤ c ∧ c < last := by
  rcases h with rfl | ⟨chunks, rfl⟩ <;> exact hl

theorem CompileAt.Awaits.ne_outside {l : CompileAt} (h : l.Awaits p first last c) :
    l ≠ .outside := by
  rcases h with rfl | ⟨chunks, rfl⟩ <;> exact nofun

/-! ### Under a fair scheduler -/

section Fair

variable {e : (compilers cap n).Execution fun _ _ => True} {k : ℕ}

/-- Until a call is back, it reads. -/
theorem reader_stays (hw : (e.state k).loc w = .reading p first last c chunks) {l : ℕ}
    (hkl : k ≤ l) : (∃ m, k ≤ m ∧ (e.state m).loc w = .outside) ∨
      ∃ chunks, (e.state l).loc w = .reading p first last c chunks := by
  refine or_iff_not_imp_left.mpr fun hnever => ?_
  induction l, hkl using Nat.le_induction with
  | base => exact ⟨chunks, hw⟩
  | succ l hkl ih =>
    obtain ⟨chunks, hl⟩ := ih
    cases ha : e.action l with
    | none => exact ⟨chunks, by rw [e.rests l ha, hl]⟩
    | some a =>
      have hstep := (e.moves l a ha).2
      by_cases howed : a.OwedTo (.thread w)
      · rcases reading_of_compilersStep hstep hl howed with ⟨-, hout⟩ | ⟨-, hread⟩
        · exact absurd ⟨l + 1, Nat.le_succ_of_le hkl, hout⟩ hnever
        · exact hread
      · exact ⟨chunks, (loc_of_compilersStep hstep (by rw [hl]; exact nofun) howed).trans hl⟩

section

variable (hinit : (compilers cap n).Reachable (e.state 0))
  (hfair : ∀ t, e.StronglyFair (CompilersStep.OwedTo t))

include hfair

/-- A child that has a status is dead from some moment on. -/
theorem child_ends (hj : j < (e.state k).fam.forks) (hstat : (e.state k).status j ≠ none) :
    ∃ m, k ≤ m ∧ ∀ l, m ≤ l → (e.state l).fam.alive j = false := by
  have hends : e.LeadsTo
      (fun s => j < s.fam.forks ∧ s.status j ≠ none ∧ s.fam.alive j = true)
      fun s => j < s.fam.forks ∧ s.fam.alive j = false := by
    refine .of_fair (hfair (.child j)) (fun i a hP ha => ?_) fun i => ⟨i, le_rfl, fun hP => ?_⟩
    · obtain ⟨hlt, hstat, halive⟩ := hP
      have hstep := (e.moves i a ha).2
      obtain ⟨hlt', hsame⟩ := status_of_compilersStep hstep hlt
      by_cases howed : a.OwedTo (.child j)
      · refine Or.inr ⟨hlt', ?_⟩
        generalize e.state (i + 1) = s' at hstep
        cases compilersMove_of_step hstep with
        | ends =>
          obtain rfl := howed
          exact Function.update_self ..
        | _ => exact howed.elim
      · exact Or.inl ⟨howed, hlt', by rwa [hsame], alive_of_compilersStep hstep hlt halive howed⟩
    · exact ⟨.ends j, rfl, _, if_pos ⟨hP.2.2, hP.2.1⟩⟩
  obtain ⟨m, hkm, hm⟩ : ∃ m, k ≤ m ∧
      j < (e.state m).fam.forks ∧ (e.state m).fam.alive j = false := by
    cases halive : (e.state k).fam.alive j with
    | false => exact ⟨k, le_rfl, hj, halive⟩
    | true => exact hends k ⟨hj, hstat, halive⟩
  refine ⟨m, hkm, fun l hml => ?_⟩
  have hstable := TransSystem.Execution.always_of_stable (e := e)
    (P := fun s => j < s.fam.forks ∧ s.fam.alive j = false)
    (fun i a hi ha => ⟨(status_of_compilersStep (e.moves i a ha).2 hi.1).1,
      dead_of_compilersStep (e.moves i a ha).2 hi.1 hi.2⟩) hm hml
  exact hstable.2

/-- So are all the children between two forks, if each of them has one. -/
theorem window_ends (hlast : last ≤ (e.state k).fam.forks)
    (hstat : ∀ j, first ≤ j → j < last → (e.state k).status j ≠ none) :
    ∃ m, k ≤ m ∧ ∀ l, m ≤ l → ∀ j, first ≤ j → j < last → (e.state l).fam.alive j = false := by
  have hone : ∀ j, ∃ m, k ≤ m ∧
      ∀ l, m ≤ l → first ≤ j → j < last → (e.state l).fam.alive j = false := fun j => by
    by_cases hj : first ≤ j ∧ j < last
    · obtain ⟨m, hkm, hm⟩ := child_ends hfair (hj.2.trans_le hlast) (hstat j hj.1 hj.2)
      exact ⟨m, hkm, fun l hml _ _ => hm l hml⟩
    · exact ⟨k, le_rfl, fun l _ hfirst hjlast => absurd ⟨hfirst, hjlast⟩ hj⟩
  choose m hkm hm using hone
  refine ⟨max k ((Finset.range last).sup m), le_max_left _ _, fun l hl j hfirst hjlast => ?_⟩
  refine hm j l (le_trans ?_ ((le_max_right _ _).trans hl)) hfirst hjlast
  exact Finset.le_sup (Finset.mem_range.mpr hjlast)

include hinit

/-- **A call leaves `waitpid`**, if its script ends. -/
theorem waitpid_returns {stat : ℤ} (hw : (e.state k).loc w = .waiting p first last c)
    (hstat : (e.state k).status c = some stat) :
    ∃ l, k ≤ l ∧ (stat = 0 ∧ (e.state l).loc w = .outside ∨
      stat ≠ 0 ∧ (e.state l).loc w = .reading p first last c []) := by
  have hlt : ∀ i, (e.state i).loc w = .waiting p first last c → c < (e.state i).fam.forks :=
    fun i hi => ((compilersInv_of_reachable (e.reachable hinit i)).ok w).window.child_lt
      (by rw [hi]; rfl)
  obtain ⟨m, hkm, hdead⟩ := child_ends hfair (hlt k hw) (by simp [hstat])
  refine TransSystem.Execution.LeadsTo.of_fair
    (P := fun s => s.loc w = .waiting p first last c ∧ s.status c = some stat)
    (Q := fun s => stat = 0 ∧ s.loc w = .outside ∨
      stat ≠ 0 ∧ s.loc w = .reading p first last c [])
    (hfair (.thread w)) (fun i a hP ha => ?_) (fun i => ?_) k ⟨hw, hstat⟩
  · obtain ⟨hi, hstat⟩ := hP
    have hstep := (e.moves i a ha).2
    by_cases howed : a.OwedTo (.thread w)
    · refine Or.inr ?_
      rcases waiting_of_compilersStep hstep hi howed with
        ⟨hzero, hout⟩ | ⟨stat', hstat', hne, hread⟩
      · exact Or.inl ⟨Option.some.inj (hstat.symm.trans hzero), hout⟩
      · exact Or.inr ⟨Option.some.inj (hstat.symm.trans hstat') ▸ hne, hread⟩
    · refine Or.inl ⟨howed, ?_, (status_of_compilersStep hstep (hlt i hi)).2.trans hstat⟩
      exact (loc_of_compilersStep hstep (by rw [hi]; exact nofun) howed).trans hi
  · refine ⟨max i m, le_max_left i m, fun hP => ⟨.reap w, rfl, ?_⟩⟩
    simp only [compilers, CompilersState.step, hP.1, hdead _ (le_max_right i m), hP.2]
    exact ⟨_, rfl⟩

/-- **A call reads the end of the file**, if its end for writing is gone. -/
theorem reader_returns (hw : (e.state k).loc w = .reading p first last c chunks)
    (hgone : ∀ j, first ≤ j → j < last → (e.state k).fam.alive j = false) :
    ∃ l, k ≤ l ∧ (e.state l).loc w = .outside := by
  have hinv : ∀ i, CompilersInv (e.state i) := fun i =>
    compilersInv_of_reachable (e.reachable hinit i)
  -- what is left in the pipe becomes less with every `read`
  refine TransSystem.Execution.LeadsTo.of_rank
    (P := fun s : CompilersState n => (∃ chunks, s.loc w = .reading p first last c chunks) ∧
      ∀ j, first ≤ j → j < last → s.fam.alive j = false)
    (Q := fun s => s.loc w = .outside) (fun s => (s.content p).length) (fun r => ?_)
    k ⟨⟨chunks, hw⟩, hgone⟩
  refine .of_fair (hfair (.thread w)) (fun i a hP ha => ?_) fun i => ⟨i, le_rfl, fun hP => ?_⟩
  · obtain ⟨⟨⟨chunks, hi⟩, hdead⟩, hr⟩ := hP
    have hstep := (e.moves i a ha).2
    have hwindow : (e.state i).fam.HeldBetween p first last :=
      (hi ▸ (hinv i).ok w : (CompileAt.reading p first last c chunks).Ok (e.state i)).window.1
    have hdead' : ∀ j, first ≤ j → j < last → (e.state (i + 1)).fam.alive j = false :=
      fun j hfirst hlast => dead_of_compilersStep hstep (hlast.trans_le hwindow.le)
        (hdead j hfirst hlast)
    by_cases howed : a.OwedTo (.thread w)
    · rcases reading_of_compilersStep hstep hi howed with ⟨-, hout⟩ | ⟨hlt, hread⟩
      · exact Or.inr (Or.inl hout)
      · exact Or.inr (Or.inr ⟨⟨hread, hdead'⟩, hr ▸ hlt⟩)
    · have hsame := content_of_compilersStep (hinv i) hstep (by rw [hi]; rfl)
        (hwindow.released_iff.mpr hdead) howed
      refine Or.inl ⟨howed, ⟨⟨chunks, ?_⟩, hdead'⟩, by rw [hsame, hr]⟩
      exact (loc_of_compilersStep hstep (by rw [hi]; exact nofun) howed).trans hi
  · obtain ⟨⟨⟨chunks, hi⟩, hdead⟩, -⟩ := hP
    have hwindow : (e.state i).fam.HeldBetween p first last :=
      (hi ▸ (hinv i).ok w : (CompileAt.reading p first last c chunks).Ok (e.state i)).window.1
    by_cases hempty : (e.state i).content p = []
    · refine ⟨.eof w, rfl, ?_⟩
      simp only [compilers, CompilersState.step, hi]
      exact ⟨_, if_pos ⟨hempty, hwindow.released_iff.mpr hdead⟩⟩
    · have hlength := List.length_pos_of_ne_nil hempty
      refine ⟨.read w 1, rfl, ?_⟩
      simp only [compilers, CompilersState.step, hi]
      exact ⟨_, dif_pos ⟨Nat.one_pos, by decide, hlength⟩⟩

end

/-- A call that comes back has waited for its script, and if this has failed for all children that
were forked in the meantime. -/
theorem ended_of_returns (hinit : (compilers cap n).Reachable (e.state 0))
    (hw : ((e.state k).loc w).Awaits p first last c) {l : ℕ} (hkl : k ≤ l)
    (hout : (e.state l).loc w = .outside) :
    ∃ stat, (e.state k).status c = some stat ∧
      (stat = 0 ∨ ∀ j, first ≤ j → j < last → (e.state k).status j ≠ none) := by
  by_contra hnot
  have hstays : ((e.state l).loc w).Awaits p first last c ∧
      ∀ j < last, (e.state l).status j = (e.state k).status j := by
    refine TransSystem.Execution.always_of_stable (e := e)
      (P := fun s => (s.loc w).Awaits p first last c ∧
        ∀ j < last, s.status j = (e.state k).status j)
      (fun i a hP ha => ?_) ⟨hw, fun _ _ => rfl⟩ hkl
    obtain ⟨hi, hsame⟩ := hP
    have hstep := (e.moves i a ha).2
    have hinv := compilersInv_of_reachable (e.reachable hinit i)
    obtain ⟨hwindow, -, hclast⟩ := hi.window (hinv.ok w).window
    refine ⟨?_, fun j hj =>
      (status_of_compilersStep hstep (hj.trans_le hwindow.le)).2.trans (hsame j hj)⟩
    by_cases howed : a.OwedTo (.thread w)
    · rcases hi with hwaiting | ⟨chunks, hreading⟩
      · rcases waiting_of_compilersStep hstep hwaiting howed with ⟨hzero, -⟩ | ⟨stat, -, -, hread⟩
        · exact absurd ⟨0, (hsame c hclast).symm.trans hzero, Or.inl rfl⟩ hnot
        · exact Or.inr ⟨[], hread⟩
      · rcases reading_of_compilersStep hstep hreading howed with ⟨hgone, -⟩ | ⟨-, hread⟩
        · obtain ⟨-, stat, hstat, -⟩ :=
            (hreading ▸ hinv.ok w : (CompileAt.reading p first last c chunks).Ok _).failed
          refine absurd ⟨stat, (hsame c hclast).symm.trans hstat, Or.inr fun j hfirst hlast => ?_⟩
            hnot
          rw [← hsame j hlast]
          exact hinv.ended j (hlast.trans_le hwindow.le)
            (hwindow.released_iff.mp hgone j hfirst hlast)
        · exact Or.inr hread
    · rwa [loc_of_compilersStep hstep hi.ne_outside howed]
  exact hstays.1.ne_outside hout

/-- **When a call of `compile` comes back.** Under a fair scheduler a call that waits for its script
comes back exactly if the script ends and has succeeded, or all children end that any thread has
forked between its `pipe` and its `close`, its script among them. -/
theorem compile_returns_iff {e : (compilers cap n).Execution fun _ _ => True}
    (hinit : (compilers cap n).Reachable (e.state 0))
    (hfair : ∀ t, e.StronglyFair (CompilersStep.OwedTo t)) {k : ℕ}
    (hw : (e.state k).loc w = .waiting p first last c) :
    (∃ l, k ≤ l ∧ (e.state l).loc w = .outside) ↔
      ∃ stat, (e.state k).status c = some stat ∧
        (stat = 0 ∨ ∀ j, first ≤ j → j < last → (e.state k).status j ≠ none) := by
  constructor
  · rintro ⟨l, hkl, hout⟩
    exact ended_of_returns hinit (Or.inl hw) hkl hout
  · rintro ⟨stat, hstat, hor⟩
    obtain ⟨l, hkl, ⟨-, hout⟩ | ⟨hne, hread⟩⟩ := waitpid_returns hinit hfair hw hstat
    · exact ⟨l, hkl, hout⟩
    have hall := hor.resolve_left hne
    have hwindow : (e.state k).fam.HeldBetween p first last :=
      (hw ▸ (compilersInv_of_reachable (e.reachable hinit k)).ok w :
        (CompileAt.waiting p first last c).Ok (e.state k)).window.1
    obtain ⟨m, hkm, hdead⟩ := window_ends hfair hwindow.le hall
    -- at this moment it still reads, if it is not back
    rcases reader_stays hread (le_max_left l m) with ⟨i, hli, hout⟩ | ⟨chunks, hlater⟩
    · exact ⟨i, hkl.trans hli, hout⟩
    · obtain ⟨i, hi, hout⟩ := reader_returns hinit hfair hlater (hdead _ (le_max_right l m))
      exact ⟨i, hkl.trans ((le_max_left l m).trans hi), hout⟩

/-- **A submission that waits for the program of another one**: its script has failed, and the
program that was started in the meantime runs on. -/
theorem compile_returns_iff_runsOn : ∃ e : (compilers 65536 2).Execution fun _ _ => True,
    (e.state 0).loc 0 = .waiting 0 0 2 0 ∧ (e.state 0).status 0 = some 256 ∧
      ¬∃ l, 0 ≤ l ∧ (e.state l).loc 0 = .outside := by
  let s := ((compilers 65536 2).run (.start 2)
    [.pipe 0, .fork 0 (some 256), .spawn 1 none, .close 0]).get rfl
  let s' := ((compilers 65536 2).run s [.ends 0, .reap 0]).get rfl
  have hreach : (compilers 65536 2).Reachable s :=
    TransSystem.reachable_of_run rfl (Option.some_get _).symm
  obtain ⟨e, he, -, hend⟩ : ∃ e : (compilers 65536 2).Execution fun _ _ => True,
      e.state 0 = s ∧ (∀ k, 2 ≤ k → e.state k = s') ∧
        ∀ A, ¬(compilers 65536 2).Enabled A s' → e.StronglyFair A :=
    TransSystem.Execution.exists_of_run (fun _ _ _ => trivial)
      (show (compilers 65536 2).run s [.ends 0, .reap 0] = some s' from rfl)
  have hloc : ∀ v, s'.loc v = .outside ∨ s'.loc v = .reading 0 0 2 0 [] :=
    Fin.forall_fin_two.mpr ⟨Or.inr rfl, Or.inl rfl⟩
  have hquiet : ∀ j, s'.fam.alive j = true → s'.status j = none
    | 0, hj => by cases hj
    | 1, _ => rfl
    | _ + 2, hj => by cases hj
  -- nobody owes a step any more: the first thread reads, and the program has the end for writing
  have hfair : ∀ t, e.StronglyFair (CompilersStep.OwedTo t) := fun t => hend _ (by
    rintro ⟨a, howed, s'', hs''⟩
    cases compilersMove_of_step hs'' with
    | pipe | spawn | write => cases t <;> exact howed
    | ends hj hstat => exact hstat (hquiet _ hj)
    | @fork v _ _ _ hv | @forkFails v _ _ hv | @close v _ _ _ hv | @passes v _ _ _ _ hv
    | @fails v _ _ _ _ _ hv =>
      rcases hloc v with hout | hread
      · simp [hout] at hv
      · simp [hread] at hv
    | @read v _ _ _ _ _ _ _ hv hk _ hle =>
      rcases hloc v with hout | hread
      · simp [hout] at hv
      · obtain ⟨rfl, -⟩ := CompileAt.reading.inj (hread.symm.trans hv)
        exact absurd hle hk.not_ge
    | @eof v _ _ _ _ _ hv _ hgone =>
      rcases hloc v with hout | hread
      · simp [hout] at hv
      · obtain ⟨rfl, -⟩ := CompileAt.reading.inj (hread.symm.trans hv)
        exact hgone.2 1 (by decide) rfl (by decide))
  refine ⟨e, by rw [he]; rfl, by rw [he]; rfl, fun hback => ?_⟩
  obtain ⟨stat, hstat, hor⟩ := (compile_returns_iff (he ▸ hreach) hfair
    (by rw [he]; rfl)).mp hback
  rw [he] at hstat hor
  obtain rfl : 256 = stat := Option.some.inj hstat
  exact hor.resolve_left (by decide) 1 (Nat.zero_le 1) (by decide) rfl

end Fair

end Returns

end NpuOj
