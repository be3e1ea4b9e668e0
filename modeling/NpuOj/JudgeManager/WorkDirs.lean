import NpuOj.JudgeManager.Judges
import NpuOj.Lang.Judge

/-!
# The work directories of the judges

`init_judges` makes as many judges as the configuration says, and each of them works in a
directory of its own: the main directory, `/judge`, and the number of the judge. The
constructor prints this path into a block with five bytes for the number, of which it hands
four to `snprintf`, and `snprintf` needs one for the zero byte; so there is room for three
digits, and a number with more of them is cut to the first three.

`NpuOj.workDirs_distinct_iff` says for how many judges the paths are complete and different.
That judges which run at the same time then never share a directory is
`NpuOj.judges_workDirs`.
-/

namespace NpuOj

open Posix

/-- The path of a judge, as the constructor `Judge::Judge` prints it. -/
def judgeWorkDir (mainDir : String) (id : ℕ) : String :=
  let size := mainDir.length + "/judge".length + 5
  snprintf (size - 1) (mainDir ++ "/judge" ++ toString id)

/-- `Judge::Judge`. The user is not known yet: `init_work_dir` looks it up. -/
def Judge.ofId (mainDir : String) (id : ℕ) : Judge := ⟨judgeWorkDir mainDir id, 0⟩

variable {mainDir : String} {i j N : ℕ}

/-- A number of at most three digits is printed in full. -/
theorem judgeWorkDir_of_lt (mainDir : String) (h : i < 1000) :
    judgeWorkDir mainDir i = mainDir ++ "/judge" ++ toString i := by
  have hdigits : (toString i).length ≤ 3 := (Nat.length_repr_le_iff (by decide)).mpr h
  refine snprintf_of_length_le ?_
  rw [String.length_append, String.length_append]
  omega

theorem judgeWorkDir_injOn (hi : i < 1000) (hj : j < 1000)
    (h : judgeWorkDir mainDir i = judgeWorkDir mainDir j) : i = j := by
  rw [judgeWorkDir_of_lt mainDir hi, judgeWorkDir_of_lt mainDir hj, String.append_right_inj] at h
  exact toString_injective h

/-- The judge `1000` works in the directory of the judge `100`. -/
theorem judgeWorkDir_thousand (mainDir : String) :
    judgeWorkDir mainDir 1000 = judgeWorkDir mainDir 100 := by
  have hsize : mainDir.length + "/judge".length + 4 - 1 =
      (mainDir ++ "/judge").toList.length + 3 := by
    rw [String.length_toList, String.length_append]
    omega
  have htext : (mainDir ++ "/judge" ++ toString 1000).toList =
      (mainDir ++ "/judge").toList ++ (toString 1000).toList := String.toList_append
  have hcut : judgeWorkDir mainDir 1000 =
      mainDir ++ "/judge" ++ String.ofList ((toString 1000).toList.take 3) := by
    change snprintf (mainDir.length + "/judge".length + 4) _ = _
    rw [snprintf, hsize, htext, List.take_length_add_append, String.ofList_append,
      String.ofList_toList]
  have hdigits : String.ofList ((toString 1000).toList.take 3) = toString 100 := by
    decide +kernel
  rw [hcut, hdigits, judgeWorkDir_of_lt mainDir (by decide)]

section Sharing

variable {ι : Type*} [DecidableEq ι] [Fintype ι]

/-- **The judges that run at the same time** work in different directories, if there are at
most `1000` of them. -/
theorem judges_workDirs (mainDir : String) (hN : N ≤ 1000) {s : JudgesState N ι}
    (h : (judges N ι).Reachable s) {w w' : ι} (hne : w ≠ w') {j j' : Fin N}
    (hw : s.loc w = .using (some j)) (hw' : s.loc w' = .using (some j')) :
    judgeWorkDir mainDir j ≠ judgeWorkDir mainDir j' := by
  intro heq
  obtain rfl : j = j' := Fin.ext (judgeWorkDir_injOn (by omega) (by omega) heq)
  exact hne ((judgesInv_of_reachable h).eq_of_using hw hw')

end Sharing

/-- **When the directories are different**: the paths of any two judges differ, each is the
main directory, `/judge` and the number in full, and judges in use at the same time never
share one, exactly if there are at most `1000` judges. -/
theorem workDirs_distinct_iff (mainDir : String) (judgesNum : ℕ) (ι : Type*) [DecidableEq ι]
    [Fintype ι] :
    ((∀ i j, i < judgesNum → j < judgesNum → i ≠ j →
        (Judge.ofId mainDir i).workDir ≠ (Judge.ofId mainDir j).workDir) ∧
      (∀ i < judgesNum, (Judge.ofId mainDir i).workDir = mainDir ++ "/judge" ++ toString i) ∧
      ∀ s, (judges judgesNum ι).Reachable s → ∀ w w' : ι, w ≠ w' →
        ∀ j j' : Fin judgesNum, s.loc w = .using (some j) → s.loc w' = .using (some j') →
          (Judge.ofId mainDir j).workDir ≠ (Judge.ofId mainDir j').workDir) ↔
    judgesNum ≤ 1000 := by
  constructor
  · rintro ⟨hdistinct, -, -⟩
    by_contra hlarge
    exact hdistinct 1000 100 (by omega) (by omega) (by decide) (judgeWorkDir_thousand mainDir)
  · intro h
    refine ⟨?_, ?_, ?_⟩
    · intro i j hi hj hne heq
      exact hne (judgeWorkDir_injOn (by omega) (by omega) heq)
    · intro i hi
      exact judgeWorkDir_of_lt mainDir (by omega)
    · intro s hs w w' hne j j' hw hw'
      exact judges_workDirs mainDir h hs hne hw hw'

/-- With `1001` judges, the last of them works in the directory of the judge `100`. -/
theorem workDirs_thousandAndOne :
    (Judge.ofId "/home/noj" 100).workDir = "/home/noj/judge100" ∧
      (Judge.ofId "/home/noj" 1000).workDir = "/home/noj/judge100" := by
  decide +kernel

end NpuOj
