import NpuOj.JudgeManager.Problem

/-!
# What a download reports

`fetch_file` turns the status of a shell command into a `Noj_State`, and its caller
`fetch_testcase_from_ftp` makes one state of two downloads, by writing the second over the
first. The status of a script that exits with a code is a multiple of `256`, so that in FTP
mode, where it is compared with `1` as it is, no exit code is ever reported
(`NpuOj.fetchFile_ftp_exited`).

`NpuOj.fetch_normal_iff` says of which statuses the two functions make something true.
-/

namespace NpuOj

open Posix

variable {net : NetworkManager} {serverPath localDir : String} {system : SystemReply}

/-- **In FTP mode every exit code is reported as `normal`.** -/
theorem fetchFile_ftp_exited (hmode : net.mMode = .ftp) {code : Fin 256}
    (hstat : system (net.cmd serverPath localDir) = (WaitStatus.exited code).stat) :
    net.fetchFile serverPath localDir system = .normal := by
  rw [NetworkManager.fetchFile_eq_normal_iff, hmode, hstat]
  intro h
  have h1 : (256 : ℤ) * code = 1 := h
  omega

section Testcase

variable (ctx : LoadContext) (reply : DownloadReply) (tc : TestCase)

/-- The status of the first download of `fetch_testcase_from_ftp`. -/
def inputStatus : ℤ :=
  reply.input (ctx.network.cmd tc.tcRemoteInputFile (ctx.inputPath tc.tcId))

/-- The status of the second download. -/
def outputStatus : ℤ :=
  reply.output (ctx.network.cmd tc.tcRemoteOutputFile (ctx.outputPath tc.tcId))

theorem fetchTestcaseFromFtp_fst : (fetchTestcaseFromFtp ctx reply tc).1
    = ctx.network.fetchFile tc.tcRemoteOutputFile (ctx.outputPath tc.tcId) reply.output := rfl

end Testcase

/-- A failure that is not reported is one that the caller takes for a download. -/
theorem fetchFile_normal_iff : (net.fetchFile serverPath localDir system = .normal →
      net.Downloads serverPath localDir system) ↔
    system (net.cmd serverPath localDir) = 0 ∨
      net.mMode.Reports (system (net.cmd serverPath localDir)) := by
  rw [NetworkManager.fetchFile_eq_normal_iff, NetworkManager.downloads_iff]
  constructor
  · intro h
    by_cases hreports : net.mMode.Reports (system (net.cmd serverPath localDir))
    · exact Or.inr hreports
    · exact Or.inl (h hreports).2
  · rintro (hzero | hreports) hnot
    · refine ⟨fun hmode => hnot ?_, hzero⟩
      rw [hmode]
      trivial
    · exact absurd hreports hnot

/-- **When `normal` means a download.** For a single file: if the status is zero, or is one
that the decoder of the mode reports as a failure. For the two files of a test case: if both
are zero, or the one of the second download is reported as a failure. -/
theorem fetch_normal_iff (net : NetworkManager) (serverPath localDir : String)
    (system : SystemReply) (ctx : LoadContext) (reply : DownloadReply) (tc : TestCase) :
    ((net.fetchFile serverPath localDir system = .normal →
        net.Downloads serverPath localDir system) ↔
      system (net.cmd serverPath localDir) = 0 ∨
        net.mMode.Reports (system (net.cmd serverPath localDir))) ∧
    (((fetchTestcaseFromFtp ctx reply tc).1 = .normal →
        ctx.network.Downloads tc.tcRemoteInputFile (ctx.inputPath tc.tcId) reply.input ∧
        ctx.network.Downloads tc.tcRemoteOutputFile (ctx.outputPath tc.tcId) reply.output) ↔
      (inputStatus ctx reply tc = 0 ∧ outputStatus ctx reply tc = 0) ∨
        ctx.network.mMode.Reports (outputStatus ctx reply tc)) := by
  refine ⟨fetchFile_normal_iff, ?_⟩
  have hsecond : (fetchTestcaseFromFtp ctx reply tc).1 = .normal ↔
      ¬ctx.network.mMode.Reports (outputStatus ctx reply tc) := by
    rw [fetchTestcaseFromFtp_fst, NetworkManager.fetchFile_eq_normal_iff, outputStatus]
  rw [hsecond, NetworkManager.downloads_iff, NetworkManager.downloads_iff, ← inputStatus,
    ← outputStatus]
  constructor
  · intro h
    by_cases hreports : ctx.network.mMode.Reports (outputStatus ctx reply tc)
    · exact Or.inr hreports
    · obtain ⟨⟨-, hinput⟩, -, houtput⟩ := h hreports
      exact Or.inl ⟨hinput, houtput⟩
  · rintro (⟨hinput, houtput⟩ | hreports) hnot
    · have hmode : ctx.network.mMode ≠ .noMode := by
        intro hmode
        rw [hmode] at hnot
        exact hnot trivial
      exact ⟨⟨hmode, hinput⟩, hmode, houtput⟩
    · exact absurd hreports hnot

/-- A server that is reached by FTP. -/
def ftpContext : LoadContext :=
  { nojContext with network := { nojContext.network with mMode := .ftp } }

/-- A script that exits with the code `1`, which says that the file is missing. -/
def fileMissing : SystemReply := fun _ => (WaitStatus.exited 1).stat

/-- A test case before its files are downloaded. -/
def remoteTestcase : TestCase := ⟨5, 1000, "", "", 0, "/tc/5.in", "/tc/5.out"⟩

/-- Failures that are taken for a download: the exit code `1` in FTP mode, an exit code
without a name and a death by signal in SFTP mode, and in this mode a test case without its
input. -/
theorem fetch_fileMissing :
    ftpContext.network.fetchFile "/tc/5.in" "/home/noj/data/5.in" fileMissing = .normal ∧
    ¬ftpContext.network.Downloads "/tc/5.in" "/home/noj/data/5.in" fileMissing ∧
    nojContext.network.fetchFile "/tc/5.in" "/home/noj/data/5.in"
      (fun _ => (WaitStatus.exited 50).stat) = .normal ∧
    nojContext.network.fetchFile "/tc/5.in" "/home/noj/data/5.in"
      (fun _ => (WaitStatus.signaled ⟨8, by decide⟩).stat) = .normal ∧
    (fetchTestcaseFromFtp nojContext ⟨fileMissing, fun _ => 0⟩ remoteTestcase).1 = .normal ∧
    ¬nojContext.network.Downloads "/tc/5.in" "/home/noj/data/5.in" fileMissing := by
  refine ⟨rfl, ?_, rfl, rfl, rfl, ?_⟩ <;>
    · intro h
      exact absurd h (by decide)

end NpuOj
