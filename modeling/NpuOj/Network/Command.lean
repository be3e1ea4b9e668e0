import NpuOj.Network

/-!
# The command of a download

`NetworkManager::init` copies the settings of the transfer into fields of fixed size, with
`strncpy`, and `fetch_file` prints them and two paths into a buffer of `256` bytes, with
`snprintf`. Neither looks whether something has been cut.

The text of a command that is meant is `NpuOj.TransferSettings.text`, of the settings as
they are configured. `NpuOj.cmd_eq_text_iff` says when it is the command that goes to
`system`.
-/

namespace NpuOj

open Posix

/-! ### The configuration -/

/-- `ConfigManager`: the values of the keys. Where there is none, or where the text of a
number cannot be converted, the daemon exits. -/
structure ConfigManager where
  getString : String → Option String
  getLong : String → Option ℤ

/-- The conversion of a `long` to `int`. -/
def toInt (x : ℤ) : ℤ := x.bmod (2 ^ 32)

/-- The settings of one mode, as they are configured. -/
structure TransferSettings where
  mode : NetworkMode
  host : String
  port : ℤ
  user : String
  /-- The password, or the identity file. -/
  credential : String
  downScript : String
  deriving DecidableEq, Repr

/-- The keys that `init` reads. The script for uploads has to be there, and nothing uses it. -/
def readSettings (cf : ConfigManager) : Option TransferSettings := do
  let mode ← cf.getString "FTP_MODE"
  -- the mode may be any beginning of the word
  if strncasecmpEq mode "sftp" mode.length then
    let host ← cf.getString "SFTP_HOST"
    let port ← cf.getLong "SFTP_PORT"
    let user ← cf.getString "SFTP_USER"
    let idFile ← cf.getString "SFTP_IDF"
    let downScript ← cf.getString "SFTP_DOWNLOAD_SCRIPT"
    let _upScript ← cf.getString "SFTP_UPLOAD_SCRIPT"
    some ⟨.sftp, host, toInt port, user, idFile, downScript⟩
  else if strncasecmpEq mode "ftp" mode.length then
    let host ← cf.getString "FTP_HOST"
    let port ← cf.getLong "FTP_PORT"
    let user ← cf.getString "FTP_USER"
    let pass ← cf.getString "FTP_PASS"
    let downScript ← cf.getString "FTP_DOWNLOAD_SCRIPT"
    let _upScript ← cf.getString "FTP_UPLOAD_SCRIPT"
    some ⟨.ftp, host, toInt port, user, pass, downScript⟩
  else none

/-! ### The fields -/

/-- What the system answers to `init_sftp_setting`: whether there is a user `noj`, and the
status of the command that gives the identity file to it. -/
structure SftpReply where
  nojUser : Bool
  chown : SystemReply

namespace NetworkManager

/-- `init_ftp_setting` -/
def initFtpSetting (net : NetworkManager) (ftpHost : String) (port : ℤ) (user passwd : String) :
    NetworkManager :=
  { net with
    mMode := .ftp
    mPort := port
    mHost := strncpy 64 ftpHost
    mUsername := strncpy 32 user
    mPasswd := strncpy 32 passwd }

/-- `init_sftp_setting`, which exits if there is no user `noj` or the identity file cannot be
given to it. -/
def initSftpSetting (net : NetworkManager) (sftpHost : String) (port : ℤ) (user idFile : String)
    (reply : SftpReply) : Option NetworkManager :=
  let net : NetworkManager :=
    { net with
      mMode := .sftp
      mPort := port
      mHost := strncpy 64 sftpHost
      mUsername := strncpy 32 user
      mIdFile := strncpy 128 idFile }
  let cmd := snprintf (bufferSize - 1) ("chown noj " ++ net.mIdFile)
  if reply.nojUser ∧ reply.chown cmd = 0 then some net else none

/-- `set_ftp_cmd_script` -/
def setFtpCmdScript (net : NetworkManager) (downScript : String) : NetworkManager :=
  { net with mDownScript := strncpy 128 downScript }

/-- `init`; `none` if the daemon exits. -/
def init (cf : ConfigManager) (reply : SftpReply) : Option NetworkManager := do
  let c ← readSettings cf
  match c.mode with
  | .sftp =>
    let net ← initSftpSetting {} c.host c.port c.user c.credential reply
    some (net.setFtpCmdScript c.downScript)
  | .ftp =>
    let net := initFtpSetting {} c.host c.port c.user c.credential
    some (net.setFtpCmdScript c.downScript)
  | .noMode => none

end NetworkManager

/-! ### The command -/

/-- The format of an FTP download. -/
def ftpText (downScript host username passwd ftpLoc localDir : String) : String :=
  "su - noj -c \"" ++ downScript ++ " " ++ host ++ " " ++ username ++ " " ++ passwd ++ " " ++
    ftpLoc ++ " " ++ localDir ++ "\" 1>/dev/null 2>&1"

/-- The format of an SFTP download. -/
def sftpText (downScript ftpLoc localDir username host : String) (port : ℤ) (idFile : String) :
    String :=
  "su - noj -c \"" ++ downScript ++ " " ++ ftpLoc ++ " " ++ localDir ++ " " ++ username ++ " " ++
    host ++ " " ++ toString port ++ " " ++ idFile ++ "\" 1>/dev/null 2>&1"

theorem length_suNoj : "su - noj -c \"".length = 13 := by decide +kernel

theorem length_redirection : "\" 1>/dev/null 2>&1".length = 18 := by decide +kernel

theorem length_blank : " ".length = 1 := by decide +kernel

theorem length_ftpText (downScript host username passwd ftpLoc localDir : String) :
    (ftpText downScript host username passwd ftpLoc localDir).length
      = 36 + downScript.length + host.length + username.length + passwd.length +
        ftpLoc.length + localDir.length := by
  unfold ftpText
  simp only [String.length_append, length_suNoj, length_redirection, length_blank]
  omega

theorem length_sftpText (downScript ftpLoc localDir username host : String) (port : ℤ)
    (idFile : String) :
    (sftpText downScript ftpLoc localDir username host port idFile).length
      = 37 + downScript.length + ftpLoc.length + localDir.length + username.length +
        host.length + (toString port).length + idFile.length := by
  unfold sftpText
  simp only [String.length_append, length_suNoj, length_redirection, length_blank]
  omega

theorem NetworkManager.ftpCmd_eq (net : NetworkManager) (ftpLoc localDir : String) :
    net.ftpCmd ftpLoc localDir = snprintf (bufferSize - 1)
      (ftpText net.mDownScript net.mHost net.mUsername net.mPasswd ftpLoc localDir) := rfl

theorem NetworkManager.sftpCmd_eq (net : NetworkManager) (ftpLoc localDir : String) :
    net.sftpCmd ftpLoc localDir = snprintf (bufferSize - 1)
      (sftpText net.mDownScript ftpLoc localDir net.mUsername net.mHost net.mPort net.mIdFile) :=
  rfl

namespace TransferSettings

variable (c : TransferSettings)

/-- **The command that is meant**: all values in full, the closing quote and the redirection. Each
`Char` of it is a byte. -/
def text (serverPath localDir : String) : String :=
  match c.mode with
  | .ftp => ftpText c.downScript c.host c.user c.credential serverPath localDir
  | .sftp => sftpText c.downScript serverPath localDir c.user c.host c.port c.credential
  | .noMode => ""

/-- How long the password or the identity file may be. -/
def credentialRoom : ℕ :=
  match c.mode with
  | .ftp => 32
  | .sftp => 128
  | .noMode => 0

/-- **Every value fits its field.** -/
structure FitFields : Prop where
  host : c.host.length ≤ 64
  user : c.user.length ≤ 32
  credential : c.credential.length ≤ c.credentialRoom
  downScript : c.downScript.length ≤ 128

/-- The settings as they are stored. -/
def stored : TransferSettings :=
  { c with
    host := strncpy 64 c.host
    user := strncpy 32 c.user
    credential := strncpy c.credentialRoom c.credential
    downScript := strncpy 128 c.downScript }

/-- The number of characters of the values. -/
def valuesLength : ℕ := c.host.length + c.user.length + c.credential.length + c.downScript.length

variable {c}

theorem stored_of_fitFields (h : c.FitFields) : c.stored = c := by
  rw [stored, strncpy_of_length_le h.host, strncpy_of_length_le h.user,
    strncpy_of_length_le h.credential, strncpy_of_length_le h.downScript]

theorem valuesLength_stored : c.stored.valuesLength
    = min 64 c.host.length + min 32 c.user.length + min c.credentialRoom c.credential.length +
      min 128 c.downScript.length := by
  simp only [valuesLength, stored, length_strncpy]

/-- The values are cut, or every value fits its field. -/
theorem fitFields_iff : c.FitFields ↔ c.valuesLength ≤ c.stored.valuesLength := by
  rw [valuesLength_stored, valuesLength]
  constructor
  · rintro ⟨hhost, huser, hcredential, hscript⟩
    omega
  · intro h
    exact ⟨by omega, by omega, by omega, by omega⟩

/-- The values make the text as much shorter as they are cut. -/
theorem length_text_stored (hmode : c.mode ≠ .noMode) (serverPath localDir : String) :
    (c.stored.text serverPath localDir).length + c.valuesLength
      = (c.text serverPath localDir).length + c.stored.valuesLength := by
  cases hm : c.mode with
  | ftp =>
    simp only [text, stored, hm, length_ftpText, valuesLength]
    omega
  | sftp =>
    simp only [text, stored, hm, length_sftpText, valuesLength]
    omega
  | noMode => exact absurd hm hmode

end TransferSettings

section Init

variable {cf : ConfigManager} {reply : SftpReply} {net : NetworkManager} {c : TransferSettings}

/-- **The command of a manager that has been set up** prints the settings as they are
stored. -/
theorem cmd_of_init (h : NetworkManager.init cf reply = some net) (hc : readSettings cf = some c)
    (serverPath localDir : String) :
    c.mode ≠ .noMode ∧ net.cmd serverPath localDir
      = snprintf (bufferSize - 1) (c.stored.text serverPath localDir) := by
  simp only [NetworkManager.init, hc, Option.bind_eq_bind, Option.bind_some] at h
  cases hm : c.mode with
  | ftp =>
    simp only [hm, Option.some.injEq] at h
    subst h
    refine ⟨by simp, ?_⟩
    simp only [NetworkManager.cmd, NetworkManager.setFtpCmdScript, NetworkManager.initFtpSetting,
      NetworkManager.ftpCmd_eq, TransferSettings.text, TransferSettings.stored, hm,
      TransferSettings.credentialRoom]
  | sftp =>
    simp only [hm, Option.bind_eq_some_iff, NetworkManager.initSftpSetting] at h
    obtain ⟨net', hnet', hnet⟩ := h
    split at hnet'
    · cases hnet'
      cases hnet
      refine ⟨by simp, ?_⟩
      simp only [NetworkManager.cmd, NetworkManager.setFtpCmdScript, NetworkManager.sftpCmd_eq,
        TransferSettings.text, TransferSettings.stored, hm, TransferSettings.credentialRoom]
    · cases hnet'
  | noMode =>
    rw [hm] at h
    cases h

/-- **When the command is complete.** The command that a manager gives to `system` is the
one that is meant exactly if every value fits its field and the whole fits the buffer. -/
theorem cmd_eq_text_iff (h : NetworkManager.init cf reply = some net)
    (hc : readSettings cf = some c) (serverPath localDir : String) :
    net.cmd serverPath localDir = c.text serverPath localDir ↔
      c.FitFields ∧ (c.text serverPath localDir).length ≤ 254 := by
  obtain ⟨hmode, hcmd⟩ := cmd_of_init h hc serverPath localDir
  have hlength := TransferSettings.length_text_stored hmode serverPath localDir
  have hsize : bufferSize - 1 - 1 = 254 := rfl
  rw [hcmd]
  constructor
  · -- every cut makes the command shorter
    intro heq
    have hshort := length_snprintf (bufferSize - 1) (c.stored.text serverPath localDir)
    rw [heq, hsize] at hshort
    have hcut : c.stored.valuesLength ≤ c.valuesLength := by
      rw [TransferSettings.valuesLength_stored, TransferSettings.valuesLength]
      omega
    refine ⟨TransferSettings.fitFields_iff.mpr ?_, ?_⟩ <;> omega
  · rintro ⟨hfit, hroom⟩
    rw [TransferSettings.stored_of_fitFields hfit]
    exact snprintf_of_length_le hroom

/-- The configuration as it is installed, for the keys of SFTP. -/
def nojConf : ConfigManager where
  getString
    | "FTP_MODE" => some "SFTP"
    | "SFTP_HOST" => some "127.0.0.1"
    | "SFTP_USER" => some "noj_ftp"
    | "SFTP_IDF" => some "$NOJ_WORKDIR/conf/id_rsa"
    | "SFTP_DOWNLOAD_SCRIPT" => some "$NOJ_WORKDIR/scripts/download_from_sftp.sh"
    | "SFTP_UPLOAD_SCRIPT" => some "$NOJ_WORKDIR/scripts/upload_to_sftp.sh"
    | _ => none
  getLong
    | "SFTP_PORT" => some 22
    | _ => none

/-- Its settings. -/
def nojSettings : TransferSettings :=
  ⟨.sftp, "127.0.0.1", 22, "noj_ftp", "$NOJ_WORKDIR/conf/id_rsa",
    "$NOJ_WORKDIR/scripts/download_from_sftp.sh"⟩

/-- The manager that is set up with it. -/
def nojManager : NetworkManager where
  mMode := .sftp
  mHost := "127.0.0.1"
  mPort := 22
  mIdFile := "$NOJ_WORKDIR/conf/id_rsa"
  mUsername := "noj_ftp"
  mDownScript := "$NOJ_WORKDIR/scripts/download_from_sftp.sh"

theorem readSettings_nojConf : readSettings nojConf = some nojSettings := by decide +kernel

theorem init_nojConf :
    NetworkManager.init nojConf ⟨true, fun _ => 0⟩ = some nojManager := by decide +kernel

theorem length_text_nojSettings (serverPath localDir : String) :
    (nojSettings.text serverPath localDir).length
      = 121 + serverPath.length + localDir.length := by
  have hscript : nojSettings.downScript.length = 42 := by decide +kernel
  have hhost : nojSettings.host.length = 9 := by decide +kernel
  have huser : nojSettings.user.length = 7 := by decide +kernel
  have hport : (toString nojSettings.port).length = 2 := by decide +kernel
  have hidFile : nojSettings.credential.length = 24 := by decide +kernel
  have htext : nojSettings.text serverPath localDir = sftpText nojSettings.downScript serverPath
    localDir nojSettings.user nojSettings.host nojSettings.port nojSettings.credential := rfl
  rw [htext, length_sftpText, hscript, hhost, huser, hport, hidFile]
  omega

/-- Short paths leave the command complete. -/
theorem cmd_eq_text_iff_nojConf :
    nojManager.cmd "/tc/5.in" "/home/noj/data/5.in"
      = nojSettings.text "/tc/5.in" "/home/noj/data/5.in" := by
  refine (cmd_eq_text_iff init_nojConf readSettings_nojConf _ _).mpr ⟨?_, ?_⟩
  · exact ⟨by decide +kernel, by decide +kernel, by decide +kernel, by decide +kernel⟩
  · rw [length_text_nojSettings]
    decide +kernel

/-- A remote path of 160 characters. -/
def longPath : String := String.ofList ('/' :: List.replicate 159 'p')

/-- **A path that does not fit**: the command that goes to `system` is cut before its closing
quote. -/
theorem cmd_longPath :
    NetworkManager.init nojConf ⟨true, fun _ => 0⟩ = some nojManager ∧
    readSettings nojConf = some nojSettings ∧
    (nojManager.cmd longPath "/home/noj/data/5.in").length = 254 ∧
    (nojSettings.text longPath "/home/noj/data/5.in").length = 300 := by
  have hlong : longPath.length = 160 :=
    String.length_ofList.trans (by rw [List.length_cons, List.length_replicate])
  have hlocal : "/home/noj/data/5.in".length = 19 := by decide +kernel
  have htext : (nojSettings.text longPath "/home/noj/data/5.in").length = 300 := by
    have htext := length_text_nojSettings longPath "/home/noj/data/5.in"
    omega
  obtain ⟨hmode, hcmd⟩ :=
    cmd_of_init init_nojConf readSettings_nojConf longPath "/home/noj/data/5.in"
  have hstored : nojSettings.stored = nojSettings := by decide +kernel
  refine ⟨init_nojConf, readSettings_nojConf, ?_, htext⟩
  rw [hcmd, hstored, length_snprintf, htext]
  decide

end Init

end NpuOj
