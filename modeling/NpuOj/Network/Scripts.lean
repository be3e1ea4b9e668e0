import NpuOj.Lib.Shell
import NpuOj.Network.Command

/-!
# The scripts that download

`fetch_file` prints a command for `system`, in which `su` gives a text to the shell of `noj`,
which calls a download script with the words of this text. The scripts read their parameters by
position: a remote file, a local one, a user, a host, in SFTP mode a port, and an identity file,
and ask `sftp` for the remote file.

In SFTP mode the command has its words in this order. In FTP mode the host, the user and the
password come first, and the script takes the host from a variable that nothing sets. So
`NpuOj.callsScript_iff`: the script asks for the file that is meant exactly in SFTP mode, if no
value is empty.
-/

namespace NpuOj

open Posix

/-! ### The scripts -/

/-- The files as a download script finds them. -/
structure ScriptFiles where
  /-- `-r`, before `sftp` -/
  readable : String → Bool
  /-- `-d` -/
  isDir : String → Bool
  /-- `-r`, after `sftp` -/
  arrived : String → Bool

/-- A call of `sftp` and the file that it is told to get. -/
structure SftpCall where
  /-- `-i` -/
  idFile : String
  /-- `-P` -/
  port : Option String
  user : String
  host : String
  remoteFile : String
  localFile : String
  deriving DecidableEq, Repr

/-- What a script does: what it asks `sftp` for, and what it exits with. -/
structure ScriptResult where
  request : Option SftpCall
  status : ℕ
  deriving DecidableEq, Repr

/-- `${1##*/}` -/
def baseName (path : String) : String :=
  String.ofList (path.toList.reverse.takeWhile (· ≠ '/')).reverse

/-- The check of the file that was downloaded. -/
def checkDownload (files : ScriptFiles) (remoteFile localFile : String) : ℕ :=
  if files.isDir localFile then
    if files.arrived (localFile ++ baseName remoteFile) then 0 else 1
  else if files.arrived localFile then 0 else 1

/-- The part that the scripts have in common. -/
def downloadFile (files : ScriptFiles) (call : SftpCall) : ScriptResult :=
  if files.readable call.idFile then ⟨some call, checkDownload files call.remoteFile call.localFile⟩
  else ⟨none, 2⟩

/-- `download_from_ftp.sh`, with words as parameters. The host is the value of a variable. -/
def downloadFromFtp (login : Shell.Environment) (files : ScriptFiles) (args : List String) :
    ScriptResult :=
  match args with
  | [remoteFile, localFile, user, _, idFile] =>
    let host := String.ofList (login "host".toList)
    downloadFile files ⟨idFile, none, user, host, remoteFile, localFile⟩
  | _ => ⟨none, 50⟩

/-- `download_from_sftp.sh`, with words as parameters. -/
def downloadFromSftp (files : ScriptFiles) (args : List String) : ScriptResult :=
  match args with
  | [remoteFile, localFile, user, host, port, idFile] =>
    downloadFile files ⟨idFile, some port, user, host, remoteFile, localFile⟩
  | _ => ⟨none, 50⟩

/-- The scripts for downloads. -/
inductive DownloadScript
  | ftp
  | sftp
  deriving DecidableEq, Repr

namespace DownloadScript

/-- The number of parameters that it requires. -/
def numArgs : DownloadScript → ℕ
  | ftp => 5
  | sftp => 6

/-- Its file, below the directory of the daemon. -/
def file : DownloadScript → String
  | ftp => "/scripts/download_from_ftp.sh"
  | sftp => "/scripts/download_from_sftp.sh"

/-- Where it is installed. -/
def path (workdir : String) (script : DownloadScript) : String := workdir ++ script.file

def run (login : Shell.Environment) (files : ScriptFiles) :
    DownloadScript → List String → ScriptResult
  | ftp => downloadFromFtp login files
  | sftp => downloadFromSftp files

/-- The script that is installed at a path. -/
def find? (workdir file : String) : Option DownloadScript :=
  [ftp, sftp].find? fun script => script.path workdir = file

end DownloadScript

/-- The script that is shipped for a mode. -/
def NetworkMode.script : NetworkMode → Option DownloadScript
  | .ftp => some .ftp
  | .sftp => some .sftp
  | .noMode => none

/-! ### From the command to the script -/

/-- The words of `su - noj -c text`. -/
def suWords (text : List Char) : List (List Char) :=
  [['s', 'u'], ['-'], ['n', 'o', 'j'], ['-', 'c'], text]

/-- The text that `su` gives to the shell of `noj`. -/
def suText : List (List Char) → Option (List Char)
  | [su, dash, user, option, text] =>
    if [su, dash, user, option, text] = suWords text then some text else none
  | _ => none

/-- The script that a command calls, with its parameters: `system` gives the command to a shell
with the environment of the daemon, and `su` gives its text to one with that of a login. -/
def calledScript (env login : Shell.Environment) (workdir cmd : String) :
    Option (DownloadScript × List String) := do
  let ws ← Shell.command env cmd.toList
  let text ← suText ws
  let args ← Shell.command login text
  match args with
  | [] => none
  | file :: args =>
    let script ← DownloadScript.find? workdir (String.ofList file)
    some (script, args.map String.ofList)

/-- The call of `sftp` that is meant. -/
def TransferSettings.request (c : TransferSettings) (idFile serverPath localDir : String) :
    SftpCall where
  idFile := idFile
  port := match c.mode with
    | .sftp => some (toString c.port)
    | _ => none
  user := c.user
  host := c.host
  remoteFile := serverPath
  localFile := localDir

/-- **The command calls the script of the mode with the parameters that it reads**: there are as
many as it requires, and if it can read the identity file it asks for the remote path at the host,
as the user, to store it at the local path. -/
def CallsScript (env login : Shell.Environment) (workdir idFile : String) (net : NetworkManager)
    (c : TransferSettings) (serverPath localDir : String) : Prop :=
  ∃ script args, c.mode.script = some script ∧
    calledScript env login workdir (net.cmd serverPath localDir) = some (script, args) ∧
    args.length = script.numArgs ∧
    ∀ files : ScriptFiles, files.readable idFile →
      (script.run login files args).request = some (c.request idFile serverPath localDir)

/-! ### The words of the command -/

namespace TransferSettings

variable (c : TransferSettings) (credential serverPath localDir : String)

/-- What stands after the script in the command, for a value of the credential. -/
def args : List String :=
  match c.mode with
  | .ftp => [c.host, c.user, credential, serverPath, localDir]
  | .sftp => [serverPath, localDir, c.user, c.host, toString c.port, credential]
  | .noMode => []

end TransferSettings

/-- **The values have neither blanks nor metacharacters**, except that the identity file and the
script may have variables in them, as they are installed; the script is the one of the mode. -/
structure PlainSettings (env : Shell.Environment) (workdir idFile : String) (c : TransferSettings)
    (serverPath localDir : String) : Prop where
  plainHost : Shell.Plain c.host.toList
  plainUser : Shell.Plain c.user.toList
  plainServerPath : Shell.Plain serverPath.toList
  plainLocalDir : Shell.Plain localDir.toList
  plainIdFile : Shell.Plain idFile.toList
  plainWorkdir : Shell.Plain workdir.toList
  noAssignment : '=' ∉ workdir.toList
  credential : Shell.Expands env c.credential.toList idFile.toList
  downScript : ∀ script, c.mode.script = some script →
    Shell.Expands env c.downScript.toList (script.path workdir).toList

section Words

variable {env login : Shell.Environment} {workdir idFile serverPath localDir : String}
  {c : TransferSettings} {script : DownloadScript}

theorem toList_suNoj : "su - noj -c \"".toList =
    ['s', 'u', ' ', '-', ' ', 'n', 'o', 'j', ' ', '-', 'c', ' ', '"'] := by decide +kernel

theorem toList_redirection : "\" 1>/dev/null 2>&1".toList =
    ['"', ' ', '1', '>', '/', 'd', 'e', 'v', '/', 'n', 'u', 'l', 'l', ' ', '2', '>', '&', '1'] := by
  decide +kernel

theorem toList_blank : " ".toList = [' '] := by decide +kernel

/-- What a format with blanks prints is a line of the values. -/
theorem toList_printed (before after value : String) (values : List String) :
    (values.foldl (fun text value => text ++ " " ++ value) (before ++ value) ++ after).toList =
      before.toList ++ (Shell.line ((value :: values).map String.toList) ++ after.toList) := by
  have hfold : ∀ text : String,
      (values.foldl (fun text value => text ++ " " ++ value) text).toList =
        text.toList ++ (values.map String.toList).flatMap (' ' :: ·) := by
    induction values with
    | nil => simp
    | cons value values ih =>
      intro text
      rw [List.foldl_cons, ih, String.toList_append, String.toList_append, toList_blank]
      simp
  rw [String.toList_append, hfold, String.toList_append, List.map_cons, Shell.line]
  simp only [List.append_assoc]

/-- The text of a command is a line of values between quotes. -/
theorem toList_text (hmode : c.mode ≠ .noMode) : (c.text serverPath localDir).toList =
    "su - noj -c \"".toList ++ (Shell.line ((c.downScript ::
      c.args c.credential serverPath localDir).map String.toList) ++
        "\" 1>/dev/null 2>&1".toList) := by
  rw [← toList_printed, TransferSettings.text, TransferSettings.args]
  cases hm : c.mode with
  | ftp => rfl
  | sftp => rfl
  | noMode => exact absurd hm hmode

/-- What `system` makes of a text between the quotes. -/
theorem suText_of_expands {text value : List Char} (h : Shell.Expands env text value) :
    (Shell.command env ("su - noj -c \"".toList ++
      (text ++ "\" 1>/dev/null 2>&1".toList))).bind suText = some value := by
  rw [toList_suNoj, toList_redirection, Shell.command, Shell.words, Shell.scan_append]
  have hstart : Shell.scan env {}
      ['s', 'u', ' ', '-', ' ', 'n', 'o', 'j', ' ', '-', 'c', ' ', '"'] = some
        { words := [['s', 'u'], ['-'], ['n', 'o', 'j'], ['-', 'c']], word := some []
          quoted := true } := rfl
  rw [hstart, Option.bind_some, Shell.scan_quoted h rfl rfl (Option.some_ne_none _) (by decide)]
  have hend : (Shell.scan env (Shell.Lexer.put
        { words := [['s', 'u'], ['-'], ['n', 'o', 'j'], ['-', 'c']], word := some []
          quoted := true } value)
      ['"', ' ', '1', '>', '/', 'd', 'e', 'v', '/', 'n', 'u', 'l', 'l', ' ', '2', '>', '&',
        '1']).bind Shell.Lexer.finish =
      some [['s', 'u'], ['-'], ['n', 'o', 'j'], ['-', 'c'], value] := rfl
  rw [hend]
  exact if_pos rfl

theorem DownloadScript.file_plain (script : DownloadScript) :
    Shell.Plain script.file.toList ∧ '=' ∉ script.file.toList ∧ script.file.toList ≠ [] := by
  cases script <;> decide +kernel

theorem DownloadScript.find?_path (script : DownloadScript) :
    find? workdir (script.path workdir) = some script := by
  have hne : ftp.path workdir ≠ sftp.path workdir := by
    rw [path, path, Ne, String.append_right_inj]
    decide +kernel
  cases script with
  | ftp => simp [find?]
  | sftp => simp [find?, hne]

theorem plain_toString (port : ℤ) : Shell.Plain (toString port).toList := by
  have hnat : ∀ n : ℕ, Shell.Plain (toString n).toList := by
    intro n c hc
    have hdigits : (toString n).toList = Nat.toDigits 10 n := Nat.toList_repr
    rw [hdigits] at hc
    exact Shell.isMeta_of_isDigit (Nat.isDigit_of_mem_toDigits (by decide) (by decide) hc)
  cases port with
  | ofNat n => exact hnat n
  | negSucc n =>
    have htext : toString (Int.negSucc n) = "-" ++ toString (n + 1) := rfl
    have hsign : Shell.Plain "-".toList := by decide +kernel
    rw [htext, String.toList_append]
    exact List.forall_mem_append.mpr ⟨hsign, hnat (n + 1)⟩

theorem PlainSettings.plain_args (h : PlainSettings env workdir idFile c serverPath localDir) :
    ∀ value ∈ (c.args idFile serverPath localDir).map String.toList, Shell.Plain value := by
  rw [List.forall_mem_map]
  cases hm : c.mode with
  | ftp =>
    simp only [TransferSettings.args, hm, List.forall_mem_cons]
    exact ⟨h.plainHost, h.plainUser, h.plainIdFile, h.plainServerPath, h.plainLocalDir, by simp⟩
  | sftp =>
    simp only [TransferSettings.args, hm, List.forall_mem_cons]
    exact ⟨h.plainServerPath, h.plainLocalDir, h.plainUser, h.plainHost, plain_toString _,
      h.plainIdFile, by simp⟩
  | noMode => simp [TransferSettings.args, hm]

theorem PlainSettings.expands_args (h : PlainSettings env workdir idFile c serverPath localDir) :
    List.Forall₂ (Shell.Expands env)
      ((c.args c.credential serverPath localDir).map String.toList)
      ((c.args idFile serverPath localDir).map String.toList) := by
  have hhost : Shell.Expands env c.host.toList c.host.toList := h.plainHost.expands
  have huser : Shell.Expands env c.user.toList c.user.toList := h.plainUser.expands
  have hserverPath : Shell.Expands env serverPath.toList serverPath.toList :=
    h.plainServerPath.expands
  have hlocalDir : Shell.Expands env localDir.toList localDir.toList := h.plainLocalDir.expands
  have hport : Shell.Expands env (toString c.port).toList (toString c.port).toList :=
    (plain_toString c.port).expands
  cases hm : c.mode with
  | ftp =>
    simp only [TransferSettings.args, hm, List.map_cons, List.map_nil, List.forall₂_cons]
    exact ⟨hhost, huser, h.credential, hserverPath, hlocalDir, .nil⟩
  | sftp =>
    simp only [TransferSettings.args, hm, List.map_cons, List.map_nil, List.forall₂_cons]
    exact ⟨hserverPath, hlocalDir, huser, hhost, hport, h.credential, .nil⟩
  | noMode =>
    simp only [TransferSettings.args, hm, List.map_nil]
    exact .nil

/-- **What the command calls**: the script of the mode, with the values that are not empty, in the
order in which they are printed. -/
theorem PlainSettings.calledScript (h : PlainSettings env workdir idFile c serverPath localDir)
    (hscript : c.mode.script = some script) :
    NpuOj.calledScript env login workdir (c.text serverPath localDir) =
      some (script, (c.args idFile serverPath localDir).filter (· ≠ "")) := by
  obtain ⟨hplain, hassign, hne⟩ := script.file_plain
  have hpath : (script.path workdir).toList = workdir.toList ++ script.file.toList :=
    String.toList_append
  have hpathPlain : Shell.Plain (script.path workdir).toList :=
    hpath ▸ List.forall_mem_append.mpr ⟨h.plainWorkdir, hplain⟩
  have hpathNe : (script.path workdir).toList ≠ [] :=
    hpath ▸ List.append_ne_nil_of_right_ne_nil _ hne
  have hmode : c.mode ≠ .noMode := by
    intro hm
    rw [hm] at hscript
    cases hscript
  -- the shell of the daemon
  obtain ⟨ws, hws, htext⟩ := Option.bind_eq_some_iff.mp (suText_of_expands
    (Shell.expands_line (.cons (h.downScript script hscript) h.expands_args)))
  -- the shell of `noj`
  have hlogin : Shell.command login (Shell.line ((script.path workdir).toList ::
      (c.args idFile serverPath localDir).map String.toList)) =
        some ((script.path workdir).toList ::
          ((c.args idFile serverPath localDir).map String.toList).filter (· ≠ [])) := by
    rw [Shell.command, Shell.words_line (List.forall_mem_cons.mpr ⟨hpathPlain, h.plain_args⟩),
      List.filter_cons_of_pos (by simpa using hpathNe)]
    exact if_neg (hpath ▸ List.not_mem_append h.noAssignment hassign)
  have hargs : (((c.args idFile serverPath localDir).map String.toList).filter (· ≠ [])).map
      String.ofList = (c.args idFile serverPath localDir).filter (· ≠ "") := by
    rw [List.filter_map, List.map_map]
    simp [Function.comp_def]
  rw [NpuOj.calledScript, toList_text hmode, List.map_cons, hws]
  simp only [Option.bind_eq_bind, Option.bind_some, htext, hlogin, String.ofList_toList,
    DownloadScript.find?_path, hargs]

end Words

/-! ### When the script gets what it reads -/

section Scripts

variable {cf : ConfigManager} {reply : SftpReply} {net : NetworkManager} {c : TransferSettings}
  {env login : Shell.Environment} {workdir idFile serverPath localDir : String}

/-- No value is empty. -/
def NoEmptyValue (c : TransferSettings) (idFile serverPath localDir : String) : Prop :=
  "" ∉ c.args idFile serverPath localDir

instance : Decidable (NoEmptyValue c idFile serverPath localDir) :=
  inferInstanceAs (Decidable (_ ∉ _))

theorem filter_args_of_noEmptyValue (h : NoEmptyValue c idFile serverPath localDir) :
    (c.args idFile serverPath localDir).filter (· ≠ "") = c.args idFile serverPath localDir :=
  List.filter_eq_self.mpr fun value hvalue => by
    simpa using fun heq : value = "" => h (heq ▸ hvalue)

/-- An empty value makes the parameters fewer. -/
theorem length_filter_args_lt (h : ¬NoEmptyValue c idFile serverPath localDir) :
    ((c.args idFile serverPath localDir).filter (· ≠ "")).length <
      (c.args idFile serverPath localDir).length := by
  refine List.length_filter_lt_length_iff_exists.mpr ⟨"", not_not.mp h, by simp⟩

/-- **In SFTP mode** the words are in the order in which the script reads them. -/
theorem callsScript_sftp (hplain : PlainSettings env workdir idFile c serverPath localDir)
    (huncut : net.cmd serverPath localDir = c.text serverPath localDir) (hmode : c.mode = .sftp)
    (hvalues : NoEmptyValue c idFile serverPath localDir) :
    CallsScript env login workdir idFile net c serverPath localDir := by
  have hscript : c.mode.script = some .sftp := by rw [hmode]; rfl
  have hargs : c.args idFile serverPath localDir =
      [serverPath, localDir, c.user, c.host, toString c.port, idFile] := by
    rw [TransferSettings.args, hmode]
  refine ⟨.sftp, c.args idFile serverPath localDir, hscript, ?_, by rw [hargs]; rfl, ?_⟩
  · rw [huncut, hplain.calledScript hscript, filter_args_of_noEmptyValue hvalues]
  · intro files hreadable
    have hrequest : c.request idFile serverPath localDir =
        ⟨idFile, some (toString c.port), c.user, c.host, serverPath, localDir⟩ := by
      rw [TransferSettings.request, hmode]
    rw [hargs, hrequest]
    simp only [DownloadScript.run, downloadFromSftp, downloadFile, hreadable, if_true]

/-- With an empty value the script is called with too few parameters. -/
theorem noEmptyValue_of_callsScript
    (hplain : PlainSettings env workdir idFile c serverPath localDir)
    (huncut : net.cmd serverPath localDir = c.text serverPath localDir)
    (h : CallsScript env login workdir idFile net c serverPath localDir) :
    NoEmptyValue c idFile serverPath localDir := by
  obtain ⟨script, args, hscript, hcalled, hlen, -⟩ := h
  rw [huncut, hplain.calledScript hscript] at hcalled
  obtain rfl := (Prod.mk.inj (Option.some.inj hcalled)).2
  by_contra hvalues
  have hlt := length_filter_args_lt hvalues
  have hfull : (c.args idFile serverPath localDir).length = script.numArgs := by
    cases hm : c.mode with
    | noMode =>
      rw [hm] at hscript
      cases hscript
    | _ =>
      rw [hm] at hscript
      obtain rfl := Option.some.inj hscript
      simp only [TransferSettings.args, hm]
      rfl
  omega

/-- **In FTP mode** the host is not the one that is meant. -/
theorem not_callsScript_ftp (hplain : PlainSettings env workdir idFile c serverPath localDir)
    (huncut : net.cmd serverPath localDir = c.text serverPath localDir) (hmode : c.mode = .ftp)
    (hlogin : login "host".toList = []) :
    ¬CallsScript env login workdir idFile net c serverPath localDir := by
  intro h
  have hvalues := noEmptyValue_of_callsScript hplain huncut h
  obtain ⟨script, args, hscript, hcalled, -, hrun⟩ := h
  rw [huncut, hplain.calledScript hscript, filter_args_of_noEmptyValue hvalues] at hcalled
  obtain rfl := (Prod.mk.inj (Option.some.inj hcalled)).2
  rw [hmode] at hscript
  obtain rfl := Option.some.inj hscript
  have hargs : c.args idFile serverPath localDir =
      [c.host, c.user, idFile, serverPath, localDir] := by
    rw [TransferSettings.args, hmode]
  have hrequest := hrun ⟨fun _ => true, fun _ => false, fun _ => true⟩ rfl
  rw [hargs] at hrequest
  have hhost : "" = c.host := by
    have hcall := Option.some.inj hrequest
    have hhost := congrArg SftpCall.host hcall
    dsimp only at hhost
    rwa [hlogin] at hhost
  refine hvalues ?_
  rw [hargs, hhost]
  exact List.mem_cons_self

/-- **When the script asks for the file that is meant**: exactly in SFTP mode, if no value is
empty. Without a variable `host` in the environment of `noj`, the script for FTP asks no host. -/
theorem callsScript_iff (cf : ConfigManager) (reply : SftpReply) (net : NetworkManager)
    (c : TransferSettings) (env login : Shell.Environment)
    (workdir idFile serverPath localDir : String)
    (h : NetworkManager.init cf reply = some net) (hc : readSettings cf = some c)
    (hplain : PlainSettings env workdir idFile c serverPath localDir)
    (huncut : net.cmd serverPath localDir = c.text serverPath localDir)
    (hlogin : login "host".toList = []) :
    CallsScript env login workdir idFile net c serverPath localDir ↔
      c.mode = .sftp ∧ NoEmptyValue c idFile serverPath localDir := by
  constructor
  · intro hcalls
    refine ⟨?_, noEmptyValue_of_callsScript hplain huncut hcalls⟩
    cases hm : c.mode with
    | sftp => rfl
    | ftp => exact absurd hcalls (not_callsScript_ftp hplain huncut hm hlogin)
    | noMode => exact absurd hm (cmd_of_init h hc serverPath localDir).1
  · rintro ⟨hmode, hvalues⟩
    exact callsScript_sftp hplain huncut hmode hvalues

/-! ### What `fetch_file` reports -/

/-- What `system` answers: the status of the script, or of a shell that finds none. -/
def scriptSystem (env login : Shell.Environment) (workdir : String) (files : ScriptFiles) :
    SystemReply := fun cmd =>
  match calledScript env login workdir cmd with
  | some (script, args) => 256 * (script.run login files args).status
  | none => 256 * 127

theorem mMode_of_init (h : NetworkManager.init cf reply = some net)
    (hc : readSettings cf = some c) : net.mMode = c.mode := by
  simp only [NetworkManager.init, hc, Option.bind_eq_bind, Option.bind_some] at h
  cases hm : c.mode with
  | ftp =>
    simp only [hm, Option.some.injEq] at h
    rw [← h]
    rfl
  | sftp =>
    simp only [hm, Option.bind_eq_some_iff, NetworkManager.initSftpSetting] at h
    obtain ⟨net', hnet', hnet⟩ := h
    split at hnet'
    · cases hnet'
      cases hnet
      rfl
    · cases hnet'
  | noMode =>
    rw [hm] at h
    cases h

theorem checkDownload_eq_zero_or_one (files : ScriptFiles) (remoteFile localFile : String) :
    checkDownload files remoteFile localFile = 0 ∨
      checkDownload files remoteFile localFile = 1 := by
  rw [checkDownload]
  split_ifs <;> simp

/-- **From the script to the answer of `fetch_file`**, in SFTP mode: it reports the file exactly
if the script has found it after `sftp`. -/
theorem fetchFile_sftp_eq_normal_iff (h : NetworkManager.init cf reply = some net)
    (hc : readSettings cf = some c)
    (hplain : PlainSettings env workdir idFile c serverPath localDir)
    (huncut : net.cmd serverPath localDir = c.text serverPath localDir) (hmode : c.mode = .sftp)
    (hvalues : NoEmptyValue c idFile serverPath localDir) {files : ScriptFiles}
    (hreadable : files.readable idFile) :
    net.fetchFile serverPath localDir (scriptSystem env login workdir files) = .normal ↔
      checkDownload files serverPath localDir = 0 := by
  have hscript : c.mode.script = some .sftp := by rw [hmode]; rfl
  have hargs : c.args idFile serverPath localDir =
      [serverPath, localDir, c.user, c.host, toString c.port, idFile] := by
    rw [TransferSettings.args, hmode]
  have hsystem : scriptSystem env login workdir files (net.cmd serverPath localDir) =
      256 * checkDownload files serverPath localDir := by
    rw [scriptSystem, huncut, hplain.calledScript hscript, filter_args_of_noEmptyValue hvalues,
      hargs]
    simp only [DownloadScript.run, downloadFromSftp, downloadFile, hreadable, if_true]
  rw [NetworkManager.fetchFile_eq_normal_iff, mMode_of_init h hc, hmode, hsystem]
  rcases checkDownload_eq_zero_or_one files serverPath localDir with hzero | hone
  · rw [hzero, NetworkMode.Reports]
    exact iff_of_true (by decide) rfl
  · rw [hone, NetworkMode.Reports]
    exact iff_of_false (by decide) (by decide)

end Scripts

/-! ### The installed configuration -/

/-- The environment of the daemon, and of a login. -/
def daemonEnv : Shell.Environment := fun name =>
  if name = "NOJ_WORKDIR".toList then "/usr/local/noj".toList else []

/-- A path below the directory of the daemon. -/
theorem expands_workdir {rest : String} (hrest : Shell.Plain rest.toList)
    (hhead : rest.toList.head? = some '/') :
    Shell.Expands daemonEnv ("$NOJ_WORKDIR" ++ rest).toList ("/usr/local/noj" ++ rest).toList := by
  have hname : "$NOJ_WORKDIR".toList =
      '$' :: 'N' :: ['O', 'J', '_', 'W', 'O', 'R', 'K', 'D', 'I', 'R'] := by decide +kernel
  have hvalue : daemonEnv ('N' :: ['O', 'J', '_', 'W', 'O', 'R', 'K', 'D', 'I', 'R']) =
      "/usr/local/noj".toList := by decide +kernel
  have hletters : ∀ d ∈ 'N' :: ['O', 'J', '_', 'W', 'O', 'R', 'K', 'D', 'I', 'R'],
      Shell.isName d = true := List.all_eq_true.mp (by decide)
  have hnext : ∀ d ∈ rest.toList.head?, Shell.isName d = false := by
    rw [hhead]
    rintro _ ⟨⟩
    decide
  rw [String.toList_append, String.toList_append, hname, ← hvalue]
  exact .parameter (by decide) hletters hnext hrest.expands

theorem expands_script (script : DownloadScript) :
    Shell.Expands daemonEnv ("$NOJ_WORKDIR" ++ script.file).toList
      (script.path "/usr/local/noj").toList := by
  refine expands_workdir script.file_plain.1 ?_
  cases script <;> decide +kernel

theorem plainSettings_nojSettings : PlainSettings daemonEnv "/usr/local/noj"
    "/usr/local/noj/conf/id_rsa" nojSettings "/tc/5.in" "/home/noj/data/5.in" where
  plainHost := by decide +kernel
  plainUser := by decide +kernel
  plainServerPath := by decide +kernel
  plainLocalDir := by decide +kernel
  plainIdFile := by decide +kernel
  plainWorkdir := by decide +kernel
  noAssignment := by decide +kernel
  credential := by
    have hidFile : nojSettings.credential = "$NOJ_WORKDIR" ++ "/conf/id_rsa" ∧
        "/usr/local/noj/conf/id_rsa" = "/usr/local/noj" ++ "/conf/id_rsa" := by decide +kernel
    rw [hidFile.1, hidFile.2]
    exact expands_workdir (by decide +kernel) (by decide +kernel)
  downScript script hscript := by
    obtain rfl := Option.some.inj hscript
    have hfile : nojSettings.downScript = "$NOJ_WORKDIR" ++ DownloadScript.sftp.file := by
      decide +kernel
    rw [hfile]
    exact expands_script .sftp

theorem cmd_nojManager : nojManager.cmd "/tc/5.in" "/home/noj/data/5.in" =
    nojSettings.text "/tc/5.in" "/home/noj/data/5.in" := by
  refine snprintf_of_length_le (le_of_eq_of_le (length_text_nojSettings _ _) ?_)
  decide +kernel

/-- In SFTP mode, as installed, a test case is asked for as it is meant. -/
theorem callsScript_nojSettings : CallsScript daemonEnv (fun _ => []) "/usr/local/noj"
    "/usr/local/noj/conf/id_rsa" nojManager nojSettings "/tc/5.in" "/home/noj/data/5.in" :=
  (callsScript_iff nojConf ⟨true, fun _ => 0⟩ nojManager nojSettings daemonEnv (fun _ => [])
    "/usr/local/noj" "/usr/local/noj/conf/id_rsa" "/tc/5.in" "/home/noj/data/5.in" init_nojConf
    readSettings_nojConf plainSettings_nojSettings cmd_nojManager rfl).mpr
    ⟨rfl, by decide +kernel⟩

/-- The configuration as it is installed, for the keys of FTP and in FTP mode. -/
def ftpConf : ConfigManager where
  getString
    | "FTP_MODE" => some "FTP"
    | "FTP_HOST" => some "127.0.0.255"
    | "FTP_USER" => some "temp"
    | "FTP_PASS" => some "pass"
    | "FTP_DOWNLOAD_SCRIPT" => some "$NOJ_WORKDIR/scripts/download_from_ftp.sh"
    | "FTP_UPLOAD_SCRIPT" => some "$NOJ_WORKDIR/scripts/upload_to_ftp.sh"
    | _ => none
  getLong
    | "FTP_PORT" => some 21
    | _ => none

/-- Its settings. -/
def ftpSettings : TransferSettings :=
  ⟨.ftp, "127.0.0.255", 21, "temp", "pass", "$NOJ_WORKDIR/scripts/download_from_ftp.sh"⟩

/-- The manager that is set up with it. -/
def ftpManager : NetworkManager where
  mMode := .ftp
  mHost := "127.0.0.255"
  mPort := 21
  mUsername := "temp"
  mPasswd := "pass"
  mDownScript := "$NOJ_WORKDIR/scripts/download_from_ftp.sh"

theorem init_ftpConf : readSettings ftpConf = some ftpSettings ∧
    NetworkManager.init ftpConf ⟨true, fun _ => 0⟩ = some ftpManager := by decide +kernel

theorem plainSettings_ftpSettings : PlainSettings daemonEnv "/usr/local/noj" "pass" ftpSettings
    "/tc/5.in" "/home/noj/data/5.in" where
  plainHost := by decide +kernel
  plainUser := by decide +kernel
  plainServerPath := by decide +kernel
  plainLocalDir := by decide +kernel
  plainIdFile := by decide +kernel
  plainWorkdir := by decide +kernel
  noAssignment := by decide +kernel
  credential := by
    have hpass : Shell.Plain "pass".toList := by decide +kernel
    exact hpass.expands
  downScript script hscript := by
    obtain rfl := Option.some.inj hscript
    have hfile : ftpSettings.downScript = "$NOJ_WORKDIR" ++ DownloadScript.ftp.file := by
      decide +kernel
    rw [hfile]
    exact expands_script .ftp

theorem cmd_ftpManager : ftpManager.cmd "/tc/5.in" "/home/noj/data/5.in" =
    ftpSettings.text "/tc/5.in" "/home/noj/data/5.in" := by
  refine snprintf_of_length_le (le_of_eq_of_le (length_ftpText _ _ _ _ _ _) ?_)
  decide +kernel

/-- **In FTP mode** the script for FTP takes the host for the remote file and the user for the
local one. -/
theorem not_callsScript_ftpSettings : readSettings ftpConf = some ftpSettings ∧
    NetworkManager.init ftpConf ⟨true, fun _ => 0⟩ = some ftpManager ∧
    ¬CallsScript daemonEnv (fun _ => []) "/usr/local/noj" "pass" ftpManager ftpSettings "/tc/5.in"
      "/home/noj/data/5.in" := by
  exact ⟨init_ftpConf.1, init_ftpConf.2,
    not_callsScript_ftp plainSettings_ftpSettings cmd_ftpManager rfl rfl⟩

end NpuOj
