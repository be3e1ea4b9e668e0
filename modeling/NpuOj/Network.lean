import Mathlib.Tactic.SplitIfs
import NpuOj.DataItem

/-!
# Fetching files from the server

`NetworkManager::fetch_file` runs a download script through `system` and turns the
status of the command into a `Noj_State`. There is one function for each transfer
mode, and they read the status differently: the one for FTP compares the whole
status with `1`, the one for SFTP the exit code.

What `system` answers is a function of the command, so that the text of the command,
which `snprintf` cuts to its buffer, is a part of the model.
-/

namespace NpuOj

open Posix

/-- `BUFFER_SIZE` -/
def bufferSize : ℕ := 256

/-- What `system` answers to a command: a wait status, or `-1`. -/
abbrev SystemReply := String → ℤ

/-- `NetworkMode` -/
inductive NetworkMode
  | noMode
  | ftp
  | sftp
  deriving DecidableEq, Repr

/-- **The decoder of the mode reports a failure**: in FTP mode for a status that is `1`
itself, in SFTP mode for the exit codes `1` and `2`, and without a mode always. -/
def NetworkMode.Reports (mode : NetworkMode) (ret : ℤ) : Prop :=
  match mode with
  | .ftp => ret = 1
  | .sftp => wexitstatus ret = 1 ∨ wexitstatus ret = 2
  | .noMode => True

/-- The settings of the transfer. -/
structure NetworkManager where
  mMode : NetworkMode := .noMode
  mHost : String := ""
  mPort : ℤ := 0
  mIdFile : String := ""
  mUsername : String := ""
  mPasswd : String := ""
  mDownScript : String := ""
  deriving DecidableEq, Repr

namespace NetworkManager

variable (net : NetworkManager) (serverPath localDir : String) (system : SystemReply)

/-- The command of an FTP download. -/
def ftpCmd : String :=
  snprintf (bufferSize - 1) ("su - noj -c \"" ++ net.mDownScript ++ " " ++ net.mHost ++ " " ++
    net.mUsername ++ " " ++ net.mPasswd ++ " " ++ serverPath ++ " " ++ localDir ++
    "\" 1>/dev/null 2>&1")

/-- The command of an SFTP download. -/
def sftpCmd : String :=
  snprintf (bufferSize - 1) ("su - noj -c \"" ++ net.mDownScript ++ " " ++ serverPath ++ " " ++
    localDir ++ " " ++ net.mUsername ++ " " ++ net.mHost ++ " " ++ toString net.mPort ++ " " ++
    net.mIdFile ++ "\" 1>/dev/null 2>&1")

/-- `fetch_file_from_ftp`: the status itself is compared with `1`. -/
def fetchFileFromFtp : NojState :=
  let ret := system (net.ftpCmd serverPath localDir)
  if ret = 1 then .fileNotDownload else .normal

/-- `fetch_file_from_sftp`: the exit code is compared with `1` and `2`. -/
def fetchFileFromSftp : NojState :=
  let ret := system (net.sftpCmd serverPath localDir)
  if ret = 0 then .normal
  else if wexitstatus ret = 1 then .fileNotDownload
  else if wexitstatus ret = 2 then .permissionError
  else .normal

/-- `fetch_file` -/
def fetchFile : NojState :=
  match net.mMode with
  | .ftp => net.fetchFileFromFtp serverPath localDir system
  | .sftp => net.fetchFileFromSftp serverPath localDir system
  | .noMode => .serverError

/-- **The file has been downloaded**: the command of the mode ran, and its status is
the one of a script that exited with code zero. -/
def Downloads : Prop :=
  match net.mMode with
  | .ftp => system (net.ftpCmd serverPath localDir) = 0
  | .sftp => system (net.sftpCmd serverPath localDir) = 0
  | .noMode => False

instance : Decidable (net.Downloads serverPath localDir system) := by
  unfold Downloads
  split <;> infer_instance

/-- The command of the mode, whose status decides. Each `Char` of it is a byte. -/
def cmd : String :=
  match net.mMode with
  | .ftp => net.ftpCmd serverPath localDir
  | .sftp => net.sftpCmd serverPath localDir
  | .noMode => ""

variable {net serverPath localDir system}

/-- A file that has been downloaded is reported as such. The converse fails: in FTP
mode a script that exits with `1` makes the status `256`, which is not `1`. -/
theorem fetchFile_eq_normal_of_downloads (h : net.Downloads serverPath localDir system) :
    net.fetchFile serverPath localDir system = .normal := by
  rw [Downloads] at h
  rw [fetchFile]
  split <;> rename_i hmode <;> rw [hmode] at h
  · rw [fetchFileFromFtp, h]
    rfl
  · rw [fetchFileFromSftp, h]
    rfl
  · exact h.elim

/-- **What `fetch_file` reports**: `normal`, unless the decoder of the mode recognizes the
failure. -/
theorem fetchFile_eq_normal_iff :
    net.fetchFile serverPath localDir system = .normal ↔
      ¬net.mMode.Reports (system (net.cmd serverPath localDir)) := by
  cases hmode : net.mMode with
  | ftp =>
    simp only [fetchFile, fetchFileFromFtp, cmd, NetworkMode.Reports, hmode]
    split
    · next h => exact iff_of_false (by decide) (not_not.mpr h)
    · next h => exact iff_of_true rfl h
  | sftp =>
    simp only [fetchFile, fetchFileFromSftp, cmd, NetworkMode.Reports, hmode]
    generalize system (net.sftpCmd serverPath localDir) = ret
    split_ifs with h0 h1 h2
    · exact iff_of_true rfl (by rw [h0]; decide)
    · exact iff_of_false (by decide) (not_not.mpr (Or.inl h1))
    · exact iff_of_false (by decide) (not_not.mpr (Or.inr h2))
    · exact iff_of_true rfl (not_or.mpr ⟨h1, h2⟩)
  | noMode =>
    simp only [fetchFile, NetworkMode.Reports, hmode]
    exact iff_of_false (by decide) (not_not.mpr trivial)

theorem downloads_iff :
    net.Downloads serverPath localDir system ↔
      net.mMode ≠ .noMode ∧ system (net.cmd serverPath localDir) = 0 := by
  rw [Downloads, cmd]
  split <;> rename_i hmode <;> simp [hmode]

end NetworkManager

end NpuOj
