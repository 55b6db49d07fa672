/-
# HummingbirdRpms.Env — what the tools ask the outside.

Every program, service and library the tools call that is not part of this repository is a field of
`Env`: a function from what it is given to what it answers.  Nothing is assumed about the answers
here; where a result needs one of them to behave, it says so in a hypothesis.
-/
import HummingbirdRpms.Repo

namespace HummingbirdRpms

open Lib

/-! ## gorget -/

/-- A run of the gorget command line. -/
structure GorgetCommand where
  package : Str
  version : Str
  oldVersion : Str
  packageDir : Tree
  pipelineFile : File
  upstreamRepo : Option Str
  /-- The process environment, as a lookup. -/
  environ : Str → Option Str

/-- How a gorget run ends, and what it leaves in its output directory. -/
structure GorgetRun where
  proc : Proc
  outputDir : Tree := ∅

/-! ## Fetching sources -/

/-- What a download does: how the request ends, and what is wrong with the content received, if
anything is. -/
structure Download where
  response : Except Exn File
  broken : Option Exn := none

/-- A program that works in a package directory: how it ends, and the directory it leaves. -/
structure DirRun where
  proc : Proc
  dir : Tree

/-- A hook command of `metadata/<package>.update-hooks.yaml`. -/
structure HookCommand where
  command : Str
  package : Str
  oldVersion : Str
  newVersion : Str
  specFile : Str

/-! ## Git -/

/-- A clone of an upstream dist-git repository. -/
structure Upstream where
  /-- The commit a branch points at. -/
  tip : Str → Option Str
  /-- `git rev-parse`: the full hash of a revision. -/
  revParse : Str → Option Str
  /-- The tracked tree of a commit. -/
  tree : Str → Option Tree
  /-- The tree of the merge base of two commits. -/
  mergeBase : Str → Str → Option Tree

/-- How `git merge` ends: whether it reports failure, the working tree it leaves, and the paths it
leaves unmerged. -/
structure Merge where
  failed : Bool
  tree : Tree
  unmerged : List Path := []

/-! ## Koji -/

/-- What one call of a Koji method does. -/
inductive KojiReply where
  | value (result : Value)
  | raises (e : Exn)

structure Env where
  /-- `yaml.safe_load` -/
  safeLoad : Str → Except Exn Value
  /-- `os.environ.get` -/
  environ : Str → Option Str
  /-- Whether `ci/upload-to-lookaside-cache.sh` is there. -/
  uploadScriptExists : Bool
  upload : UploadCommand → Proc
  /-- Whether `metadata/gpg-keys` can be made. -/
  gpgKeysDirOk : Bool
  gorget : GorgetCommand → GorgetRun
  /-- The sources a spec file declares, by number, as the specfile library expands them. -/
  specSources : Tree → Path → Except Exn (List (Nat × Str))
  download : (url : Str) → Download
  /-- `hashlib.new(algo.lower())` over a file. -/
  fileHash : (algo : Str) → File → Except Exn Str
  /-- `go_vendor_archive create` on the spec file of a directory. -/
  goVendorArchive : Tree → Path → DirRun
  hook : HookCommand → Tree → DirRun
  /-- The output of `git log -1 --format=%cd --date=format:%Y%m%d` on a commit fetched from a
  repository, or how the attempt to get it failed. -/
  commitDate : (repo commit : Str) → Except Exn Str
  /-- `upstream-releases.json`, its `fedora` table. -/
  fedoraReleases : List (Str × Str)
  /-- The output of `git ls-remote`; `none` when git fails. -/
  lsRemote : (source branch : Str) → Option Str
  /-- `git clone` of a branch of a source, with all its branches or this one only; `none` when git
  fails. -/
  clone : (source branch : Str) → (singleBranch : Bool) → Option Upstream
  /-- The three-way merge of `git merge` and of one step of `git rebase`. -/
  merge : (base ours theirs : Tree) → Merge
  /-- Whether a path that is not tracked is ignored by the `.gitignore` files of a working tree. -/
  ignored : Tree → Path → Bool
  /-- Whether `git checkout` of a tree goes through over the untracked files in its way. -/
  switchOk : (untracked target : Tree) → Bool
  /-- `diff` on two files, ignoring trailing space and blank lines; with `true`, also lines matching
  `^Release:`. -/
  diff : (releaseLines : Bool) → File → File → Bool
  /-- `rpmspec -q` on the spec file of a directory. -/
  rpmspec : Tree → Path → Proc
  /-- The release MDAPI reports for a package on a branch. -/
  mdapi : (package branch : Str) → Except Exn (Option Str)
  /-- `Version(a) < Version(b)`; `none` when one of them is not a version. -/
  versionLt : Str → Str → Option Bool
  /-- `getBuild` of a build name, on the given attempt. -/
  getBuild : (nvr : Str) → (attempt : Nat) → KojiReply
  /-- Whether `git commit` goes through. -/
  commitOk : Bool
  /-- `int(data["id"])` of what release-monitoring.org answers on a Fedora package. -/
  anityaId : (package : Str) → Except Exn Int
  /-- Whether the `jinja2` program can be run. -/
  jinja2Ok : Bool
  /-- Whether `ci/generate_resources.py all` goes through. -/
  generateOk : Bool

/-- Nothing outside answers: no program can be started, no request gets through. -/
def Env.offline : Env where
  safeLoad _ := .error (.raised .yamlError "")
  environ _ := none
  uploadScriptExists := true
  upload _ := .notStarted ""
  gpgKeysDirOk := true
  gorget _ := { proc := .notStarted "gorget" }
  specSources _ _ := .error (.raised .runtimeError "")
  download _ := { response := .error (.raised .osError "") }
  fileHash _ _ := .error (.raised .valueError "")
  goVendorArchive dir _ := ⟨.notStarted "", dir⟩
  hook _ dir := ⟨.notStarted "", dir⟩
  commitDate _ _ := .error (.raised .calledProcessError "git fetch")
  fedoraReleases := []
  lsRemote _ _ := none
  clone _ _ _ := none
  merge _ ours _ := { failed := true, tree := ours }
  ignored _ _ := false
  switchOk _ _ := false
  diff _ f g := decide (f = g)
  rpmspec _ _ := .notStarted ""
  mdapi _ _ := .ok none
  versionLt _ _ := none
  getBuild _ _ := .value .none
  commitOk := false
  anityaId _ := .error (.raised .osError "")
  jinja2Ok := false
  generateOk := false

end HummingbirdRpms
