import NpuOj.Lang.LaunchVerdict

/-!
# The unit in which memory is measured

A `MemorySize` is a number of bytes: the limit of a problem is one, `set_resource_limit`
hands it to the kernel as one, and the results are printed as one. What `LangC::launch` puts
into it are two other figures: the page faults times the page size, shifted right by ten, and
the number of kilobytes that the kernel reports as `VmPeak`.

`NpuOj.launchLoop_peakOf` says what the loop computes, in its own unit, and
`NpuOj.launchParent_memory_iff` that this is the number of bytes only if there was nothing to
measure.
-/

namespace NpuOj

open Posix

variable {pf : Platform} {rl : ResourceLimit} {submit : Submission} {seen rest : List WaitEvent}
  {st st' : LaunchState} {e : WaitEvent} {vmPeak : ℤ}

/-! ### The greatest figure -/

/-- The number is the greatest of the list, or zero if there is none. -/
structure PeakOf (ns : List ℕ) (m : ℕ) : Prop where
  le : ∀ n ∈ ns, n ≤ m
  attained : m = 0 ∨ m ∈ ns

theorem peakOf_nil : PeakOf [] 0 where
  le _ hn := absurd hn List.not_mem_nil
  attained := Or.inl rfl

theorem PeakOf.snoc {ns : List ℕ} {m : ℕ} (h : PeakOf ns m) (n : ℕ) :
    PeakOf (ns ++ [n]) (max m n) where
  le k hk := by
    rcases List.mem_append.mp hk with hk | hk
    · exact (h.le k hk).trans (Nat.le_max_left m n)
    · rw [List.mem_singleton.mp hk]
      exact Nat.le_max_right m n
  attained := by
    rcases max_choice m n with hmax | hmax
    · rw [hmax]
      exact h.attained.imp id fun hm => List.mem_append_left [n] hm
    · rw [hmax]
      exact Or.inr (List.mem_append_right ns (List.mem_singleton_self n))

theorem checkSyscall_maxMemory {nr : ℤ}
    (h : checkSyscall st nr = .next st' ∨ checkSyscall st nr = .stop st') :
    st'.res.resMaxMemory = st.res.resMaxMemory := by
  simp only [checkSyscall] at h
  repeat' split at h
  all_goals rcases h with h | h <;> cases h <;> rfl

/-- However the body goes on, it has raised the running maximum to the figure of the event. -/
theorem launchStep_getByte {timeLeft : ℤ} (hset : rl.memoryLimit.isSet = true)
    (h : launchStep pf rl timeLeft st e = .next st' ∨ launchStep pf rl timeLeft st e = .stop st') :
    st'.res.resMaxMemory.getByte = max st.res.resMaxMemory.getByte (memFigure pf e) := by
  rw [← raiseMaxMemory_getByte]
  refine congrArg MemorySize.getByte ?_
  simp only [launchStep, launchStepWith, hset, if_true] at h
  repeat' split at h
  all_goals try (rcases h with h | h <;> cases h <;> rfl)
  exact checkSyscall_maxMemory h

/-- **What the loop records** is the greatest figure of the events it has read. -/
theorem launchLoop_peakOf (hset : rl.memoryLimit.isSet = true)
    (h : launchLoop pf rl submit (seen ++ rest) = .ret (st, rest)) :
    PeakOf (seen.map (memFigure pf)) st.res.resMaxMemory.getByte := by
  have hstep : ∀ pre s a s', PeakOf (pre.map (memFigure pf)) s.res.resMaxMemory.getByte →
      launchStep pf rl (getRlCpuMillisecond rl) s a = .next s' ∨
        launchStep pf rl (getRlCpuMillisecond rl) s a = .stop s' →
      PeakOf ((pre ++ [a]).map (memFigure pf)) s'.res.resMaxMemory.getByte := by
    intro pre s a s' hpeak hs
    rw [List.map_append, launchStep_getByte hset hs]
    exact hpeak.snoc (memFigure pf a)
  let peak (seen : List WaitEvent) (s : LaunchState) : Prop :=
    PeakOf (seen.map (memFigure pf)) s.res.resMaxMemory.getByte
  have hstart : peak [] ⟨Result.ofSubmission submit, rl.syscallLimits⟩ := peakOf_nil
  obtain ⟨seen', hseen, hpeak⟩ := exists_read_of_runLoop (I := peak) (P := peak)
    (fun pre s a s' hs hnext => hstep pre s a s' hs (Or.inl hnext))
    (fun pre s a s' hs hstop => hstep pre s a s' hs (Or.inr hstop)) hstart h
  rwa [List.append_cancel_right hseen]

theorem samplePeak_getByte (res : Result) :
    (samplePeak pf rl res vmPeak).resMaxMemory.getByte =
      max res.resMaxMemory.getByte (pf.toSizeT vmPeak) := by
  rw [← raiseMaxMemory_getByte]
  simp only [samplePeak]
  split <;> rfl

/-! ### The bytes -/

/-- The bytes that an event shows. -/
def byteCount (pf : Platform) (e : WaitEvent) : ℤ := e.usage.ruMinflt * pf.pageSize

/-- The bytes that a run shows: those of its events, and `VmPeak`. -/
def byteCounts (pf : Platform) (seen : List WaitEvent) (vmPeak : ℤ) : List ℤ :=
  seen.map (byteCount pf) ++ [vmPeak * 1024]

/-- **Memory is measured in bytes**: every number of bytes can be computed, a run that shows
more of them than the limit is told so, and what is recorded is the greatest of them. -/
structure MemoryInBytes (pf : Platform) (rl : ResourceLimit) (seen : List WaitEvent) (vmPeak : ℤ)
    (res : Result) : Prop where
  /-- A product that does not fit into a `long` has no value. -/
  defined : ∀ n ∈ byteCounts pf seen vmPeak, pf.FitsLong n
  /-- The limit is one of bytes. -/
  enforced : ∀ e ∈ seen, (rl.memoryLimit.getByte : ℤ) < byteCount pf e →
    res.resType = .memoryLimitExceed
  /-- The record is one of bytes. -/
  recorded : (res.resMaxMemory.getByte : ℤ) ∈ byteCounts pf seen vmPeak ∧
    ∀ n ∈ byteCounts pf seen vmPeak, n ≤ res.resMaxMemory.getByte

/-- The figure of a number of bytes: the kilobytes, as a `size_t`. -/
def figureOf (pf : Platform) (n : ℤ) : ℕ := pf.toSizeT (n / 1024)

theorem fitsLong_div {n : ℤ} (h : pf.FitsLong n) : pf.FitsLong (n / 1024) := by
  obtain ⟨hlow, hhigh⟩ := h
  constructor <;> omega

/-- A figure within half of the range is that of a number which is not negative. -/
theorem figureOf_eq {n : ℤ} (h : pf.FitsLong n)
    (hlt : 2 * (figureOf pf n : ℤ) < 2 ^ pf.wordBits) : 0 ≤ n ∧ (figureOf pf n : ℤ) = n / 1024 := by
  obtain ⟨hlow, hhigh⟩ := fitsLong_div h
  rw [figureOf] at hlt ⊢
  by_cases hneg : n / 1024 < 0
  · rw [Platform.toSizeT_of_neg hneg (by omega)] at hlt
    omega
  · exact ⟨by omega, Platform.toSizeT_of_nonneg (by omega) (by omega)⟩

/-- **What a run records**: the greatest of the figures of its bytes. -/
theorem samplePeak_peakOf (hset : rl.memoryLimit.isSet = true)
    (hdefined : ∀ n ∈ byteCounts pf seen vmPeak, pf.FitsLong n)
    (h : launchLoop pf rl submit (seen ++ rest) = .ret (st, rest)) :
    PeakOf ((byteCounts pf seen vmPeak).map (figureOf pf))
      (samplePeak pf rl st.res vmPeak).resMaxMemory.getByte := by
  have hseen : seen.map (memFigure pf) = (seen.map (byteCount pf)).map (figureOf pf) := by
    rw [List.map_map]
    refine List.map_congr_left fun e he => ?_
    have hfits := hdefined (byteCount pf e) (List.mem_append_left _ (List.mem_map_of_mem he))
    rw [memFigure, ← byteCount, Platform.toLong_of_fitsLong hfits]
    rfl
  have hlast : pf.toSizeT vmPeak = figureOf pf (vmPeak * 1024) := by
    rw [figureOf, Int.mul_ediv_cancel _ (by decide)]
  rw [samplePeak_getByte, hlast, byteCounts, List.map_append, ← hseen]
  exact (launchLoop_peakOf hset h).snoc _

section Figures

variable {ns : List ℤ} {m : ℕ}

/-- **A record in both units** is one of nothing: a figure is at most a thousandth of the
greatest number of bytes. -/
theorem eq_zero_of_peakOf_figures (hdefined : ∀ n ∈ ns, pf.FitsLong n)
    (hpeak : PeakOf (ns.map (figureOf pf)) m) (hmem : (m : ℤ) ∈ ns) (hle : ∀ n ∈ ns, n ≤ m) :
    ∀ n ∈ ns, n = 0 := by
  have hfigure : ∀ n ∈ ns, 0 ≤ n ∧ (figureOf pf n : ℤ) = n / 1024 := by
    intro n hn
    have hfig := hpeak.le _ (List.mem_map_of_mem hn)
    have hhigh := (hdefined m hmem).2
    exact figureOf_eq (hdefined n hn) (by omega)
  have hzero : m = 0 := by
    rcases hpeak.attained with hzero | hattained
    · exact hzero
    · obtain ⟨n, hn, rfl⟩ := List.mem_map.mp hattained
      have hfig := (hfigure n hn).2
      have hnle := hle n hn
      omega
  intro n hn
  have hnonneg := (hfigure n hn).1
  have hnle := hle n hn
  omega

/-- The record of nothing. -/
theorem eq_zero_of_peakOf_zeros (hpeak : PeakOf (ns.map (figureOf pf)) m)
    (hzero : ∀ n ∈ ns, n = 0) : m = 0 := by
  rcases hpeak.attained with hnone | hattained
  · exact hnone
  · obtain ⟨n, hn, hfig⟩ := List.mem_map.mp hattained
    rw [← hfig, hzero n hn]
    rfl

end Figures

/-- **When memory is measured in bytes**: a run under a limit of memory enforces it and
records its memory in one unit exactly if no event shows a byte and `VmPeak` is zero. -/
theorem launchParent_memory_iff (pf : Platform) (rl : ResourceLimit) (submit : Submission)
    (seen rest : List WaitEvent) (vmPeak : ℤ) (st : LaunchState)
    (hset : rl.memoryLimit.isSet = true)
    (hloop : launchLoop pf rl submit (seen ++ rest) = .ret (st, rest)) :
    (∃ res limits, launchParent pf rl submit (seen ++ rest) vmPeak = .ret (res, limits) ∧
        MemoryInBytes pf rl seen vmPeak res) ↔
      ∀ n ∈ byteCounts pf seen vmPeak, n = 0 := by
  have hret : launchParent pf rl submit (seen ++ rest) vmPeak
      = .ret (samplePeak pf rl st.res vmPeak, st.syscallLimits) := by
    rw [launchParent, hloop, Outcome.ret_bind]
  constructor
  · rintro ⟨res, limits, hres, hbytes⟩
    obtain ⟨rfl, -⟩ : _ = res ∧ _ = limits := by simpa using hret.symm.trans hres
    have hpeak := samplePeak_peakOf hset hbytes.defined hloop
    exact eq_zero_of_peakOf_figures hbytes.defined hpeak hbytes.recorded.1 hbytes.recorded.2
  · intro hzero
    have hdefined : ∀ n ∈ byteCounts pf seen vmPeak, pf.FitsLong n := by
      intro n hn
      rw [hzero n hn]
      exact ⟨by simp, by simp⟩
    have hrecord := eq_zero_of_peakOf_zeros (samplePeak_peakOf hset hdefined hloop) hzero
    refine ⟨_, _, hret, ⟨hdefined, fun e he hover => ?_, ?_⟩⟩
    · have hbytes := hzero (byteCount pf e) (List.mem_append_left _ (List.mem_map_of_mem he))
      omega
    · rw [hrecord]
      have hlast : vmPeak * 1024 ∈ byteCounts pf seen vmPeak :=
        List.mem_append_right _ (List.mem_singleton_self _)
      rw [hzero _ hlast] at hlast
      exact ⟨hlast, fun n hn => (hzero n hn).le⟩

/-- The program exits before it has touched a page. -/
theorem launchParent_memory_iff_untouched : ∃ res limits,
    launchParent lp64 writeLimits writeOnce [⟨.exited 0, ⟨⟨0, 0⟩, ⟨0, 0⟩, 0⟩, 231⟩] 0
      = .ret (res, limits) ∧
    MemoryInBytes lp64 writeLimits [⟨.exited 0, ⟨⟨0, 0⟩, ⟨0, 0⟩, 0⟩, 231⟩] 0 res :=
  (launchParent_memory_iff lp64 writeLimits writeOnce [⟨.exited 0, ⟨⟨0, 0⟩, ⟨0, 0⟩, 0⟩, 231⟩] [] 0 _
    rfl rfl).mpr (by decide)

/-- A program that touches 200 pages of 4096 bytes under a limit of 1024 bytes passes, and 800
is recorded. -/
theorem launchParent_kilobytes : ∃ res limits,
    launchParent lp64 writeLimits writeOnce [eventOf (.exited 0) 231] 0 = .ret (res, limits) ∧
    byteCount lp64 (eventOf (.exited 0) 231) = 819200 ∧
    writeLimits.memoryLimit.getByte = 1024 ∧
    res.resType = .runPass ∧ res.resMaxMemory.getByte = 800 :=
  ⟨_, _, rfl, rfl, rfl, rfl, rfl⟩

end NpuOj
