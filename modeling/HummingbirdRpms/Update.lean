/-
# HummingbirdRpms.Update — updating a package from its upstream dist-git.

`update` and `continue_update` of `ci/dist_git.py`.  An update first decides, reading only, whether the
upstream version is taken and what the package directory becomes (`updateDecision`).  Only then does it
write (`applyUpdate`): the directory, `%autorelease` in it, the gorget step, the metadata, and at the
end either the state file of an interrupted update or a commit.

`continueUpdate` takes up from a state file: it looks for conflict markers, runs the same gorget step
and commits.  What the two have in common, the gorget step with its verdict and the staging of a
package, stands here once.

**`applyUpdate_cases`** and **`continueUpdate_cases`** list the ways a run that wrote can end.
-/
import HummingbirdRpms.Gates
import HummingbirdRpms.Merge
import HummingbirdRpms.PinRefresh

namespace HummingbirdRpms

open Lib Lib.Text Lib.Regex Lib.Exec

/-! ## Arguments and decisions -/

/-- The arguments of `update`. -/
structure UpdateArgs where
  skipBuildCheck : Bool := false
  sync : Bool := false
  dryRun : Bool := false
  allowPrerelease : Bool := false
  mark : Bool := false
  ref : Option Str := none
  branch : Option Str := none

/-- `if value:` of an optional string argument -/
def given (value : Option Str) : Option Str := value.filter (!·.isEmpty)

/-- What an update works on: the package's record, the branch it takes and the commit it found. -/
structure Target where
  metadata : PackageMetadata
  source : Str
  oldBranch : Str
  oldSha : Str
  effectiveBranch : Str
  branchChanged : Bool
  latestSha : Str
  deriving DecidableEq

/-- What an update is about to do to a package. -/
structure UpdatePlan where
  latestSha : Str
  version : Str
  release : Str
  hasAutorelease : Bool
  hasModifications : Bool
  /-- The directory that replaces the package's, with whether a merge failed. -/
  merge : Merge

/-- What an update decides before it writes. -/
inductive Decision where
  | skip
  /-- The package is to be marked as synced at this version and release. -/
  | mark (target : Target) (version release : Str)
  | apply (target : Target) (plan : UpdatePlan)

/-- The upstream package name, which may differ from the directory's. -/
def Target.upstreamName (t : Target) : Str := pathStem t.source

section

variable [UnicodeTables]

/-! ## The decision -/

/-- `if not result.stdout.strip()`, then `result.stdout.split()[0]` -/
def lsRemoteSha (env : Env) (package source branch : Str) : Except Exn Str :=
  match env.lsRemote source branch with
  | none => .error (.raised .calledProcessError "git ls-remote")
  | some stdout =>
      if strip stdout = [] then exit ("ERROR: Unable to query remote for ".toList ++ package)
      else .ok ((strip stdout).takeWhile fun c => !isSpace c)

/-- The branch an update takes, and whether that is another one than the package's. -/
def effectiveBranch (env : Env) (args : UpdateArgs) (oldBranch : Str) : Except Exn (Str × Bool) :=
  match given args.branch with
  | some branch =>
      if branch = oldBranch then .ok (oldBranch, false)
      else do
        let _ ← getDistTag env branch
        return (branch, true)
  | none => .ok (oldBranch, false)

/-- The beginning of `update`: which package, branch and commit. -/
def updateTarget (env : Env) (w : World) (package : Str) (args : UpdateArgs) :
    Except Exn (Option Target) := do
  match w.imports package with
  | none => exit ("ERROR: Package ".toList ++ package ++ " not found (missing metadata/".toList ++
      package ++ ".json)".toList)
  | some metadata =>
      failIf (w.rpms package = none) (.raised .assertionError [])
      failIf (metadata.modificationStatus = some .independent) (.systemExit (.message
        ("ERROR: Cannot update independent package ".toList ++ package ++ "\n".toList)))
      match metadata.source, metadata.branch, metadata.sha with
      | some source, some oldBranch, some oldSha =>
          let (branch, branchChanged) ← effectiveBranch env args oldBranch
          let latestSha ← match given args.ref with
            | some ref => pure ref
            | none => lsRemoteSha env package source branch
          return some ⟨metadata, source, oldBranch, oldSha, branch, branchChanged, latestSha⟩
      | _, _, _ => return none

/-- `git clone` of the effective branch, with what is checked out afterwards. -/
def cloneUpstream (env : Env) (t : Target) : Except Exn (Upstream × Tree) :=
  match env.clone t.source t.effectiveBranch (!t.branchChanged) with
  | none => .error (.raised .calledProcessError "git clone")
  | some up =>
      match up.tip t.effectiveBranch with
      | none => .error (.raised .calledProcessError "git clone")
      | some tip => do return (up, ← checkout up tip)

/-- Mark mode, for a package that is at the upstream commit. -/
def markDecision (env : Env) (w : World) (package : Str) (t : Target) : Except Exn Decision := do
  let (up, upstreamDir) ← cloneUpstream env t
  let unmodified ← isPackageUnmodified env up (w.packageDir package) t.oldSha
  failIf (unmodified = false) (.systemExit (.message
    ("ERROR: Cannot mark ".toList ++ package ++ (" as synced - package has modifications\n" ++
      "       Use 'sync' without --mark to discard local changes").toList)))
  let (version, release) ← parseSpecVersion env upstreamDir
  return .mark t version release

/-- The commit an update takes, checked out: the clone, its working tree and the full hash. -/
def checkoutUpdate (env : Env) (t : Target) (args : UpdateArgs) : Except Exn (Upstream × Tree × Str) := do
  let (up, upstreamDir) ← cloneUpstream env t
  failIf (t.branchChanged = true ∧ up.tip t.oldBranch = none)
    (.raised .calledProcessError "git branch")
  match given args.ref with
  | none => return (up, upstreamDir, t.latestSha)
  | some ref =>
      match up.revParse ref with
      | none => .error (.raised .calledProcessError "git checkout")
      | some sha => return (up, ← checkout up sha, sha)

/-- The release an update takes: the spec file's, or for `%autorelease` the one MDAPI reports. -/
def resolveRelease (env : Env) (t : Target) (hasAutorelease : Bool) (release : Str) :
    Except Exn Str := do
  if hasAutorelease then
    let resolved ← queryAutoreleaseFromMdapi env t.upstreamName t.effectiveBranch
    return ((resolved.filter (!·.isEmpty)).getD release)
  else return release

/-- Whether the tracked version admits an upstream version. -/
def tracksVersion (track version : Str) : Bool :=
  track = [] || track = "latest".toList || version = track || startsWith (track ++ ".") version

/-- The checks on the version of an update that may skip it. -/
def versionAdmitted (env : Env) (t : Target) (args : UpdateArgs) (version release : Str) :
    Except Exn Bool := do
  let forward ← if args.sync then pure true
    else isForwardBranchMove env t.branchChanged t.oldBranch t.effectiveBranch
  let older := !forward && env.versionLt version t.metadata.version = some true
  let untracked := !args.sync && !t.branchChanged &&
    (t.metadata.trackUpstream.any fun track => !tracksVersion track version)
  let prerelease := !args.sync && !args.allowPrerelease && !t.branchChanged &&
    (isPrerelease version release).isSome
  return !older && !untracked && !prerelease

/-- Whether the build check lets an update through. -/
def buildAdmitted (env : Env) (t : Target) (args : UpdateArgs) (version release latestSha : Str) :
    Except Exn Bool := do
  let distTag ← getDistTag env t.effectiveBranch
  if args.skipBuildCheck || args.sync then return true
  else checkKojiBuild env t.upstreamName version release latestSha distTag

/-- The directory an update puts in place: merged with the local modifications of a package recorded
as modified, else the upstream checkout. -/
def mergeOrReplace (env : Env) (up : Upstream) (packageDir upstreamDir : Tree) (t : Target)
    (sync hasModifications : Bool) (latestSha : Str) : Except Exn Merge :=
  if !sync && t.metadata.modificationStatus = some .modified && hasModifications then
    mergeLocalModifications env up packageDir t.metadata.modificationStatus t.oldSha latestSha
  else .ok { failed := false, tree := upstreamDir }

/-- The decision on a commit other than the recorded one, or another branch. -/
def planUpdate (env : Env) (w : World) (package : Str) (t : Target) (args : UpdateArgs) :
    Except Exn Decision := do
  let (up, upstreamDir, latestSha) ← checkoutUpdate env t args
  if upstreamDir.glob ".spec" = [] then return .skip
  else
    let (version, specRelease) ← parseSpecVersion env upstreamDir
    let hasAutorelease ← usesAutorelease upstreamDir
    let release ← resolveRelease env t hasAutorelease specRelease
    if !(← versionAdmitted env t args version release) then return .skip
    else if !(← buildAdmitted env t args version release latestSha) then return .skip
    else
      let unmodified ← isPackageUnmodified env up (w.packageDir package) t.oldSha
      let merge ← mergeOrReplace env up (w.packageDir package) upstreamDir t args.sync (!unmodified)
        latestSha
      return .apply t ⟨latestSha, version, release, hasAutorelease, !unmodified, merge⟩

/-- What `update` decides before it writes. -/
def updateDecision (env : Env) (w : World) (package : Str) (args : UpdateArgs) :
    Except Exn Decision := do
  match ← updateTarget env w package args with
  | none => return .skip
  | some t =>
      if t.latestSha = t.oldSha && !t.branchChanged then
        failIf (args.sync && !args.mark) (.systemExit (.message
          ("ERROR: Package ".toList ++ package ++ " is already at upstream ".toList ++
            t.latestSha.take 8)))
        if !args.mark then return .skip else markDecision env w package t
      else planUpdate env w package t args

/-! ## Staging and committing -/

/-- `.gitignore` -/
def gitignoreName : Path := ".gitignore"

/-- The lines of the `.gitignore` file, if there is one. -/
def gitignoreLines (packageDir : Tree) : Except Exn (List Str) :=
  if packageDir.present gitignoreName then splitlines <$> readText packageDir gitignoreName
  else .ok []

/-- `_update_gitignore` -/
def updateGitignore (packageDir : Tree) (filenames : List Str) : Except Exn Tree := do
  let existingLines ← gitignoreLines packageDir
  let newEntries := filenames.filter (!existingLines.contains ·)
  let appended := newEntries.flatMap (· ++ "\n".toList)
  if newEntries = [] then return packageDir
  else
    match packageDir.read gitignoreName with
    | some (.text s) => return packageDir.write gitignoreName (.text (s ++ appended))
    | _ => return packageDir.write gitignoreName (.text appended)

/-- The uploaded files added to `.gitignore`. -/
def ignoreUploaded (package : Str) (newSourceFilenames : List Str) : Tool Unit :=
  if newSourceFilenames = [] then pure ()
  else do
    let dir ← lift (updateGitignore ((← get).packageDir package) newSourceFilenames)
    modify fun w => w.setRpms package dir

/-- `git add -f` of the package directory with its metadata file and its pipeline file, if it has
one: a metadata file that is neither there nor tracked is an error. -/
def addPackage (package : Str) : Tool Unit := do
  let w ← get
  raiseIf (w.metadata package = none ∧ (w.index package).metadata = none)
    (.raised .calledProcessError "git add")
  gitAddPackage package true (loadSourcePipeline w package).isSome

/-- `_stage_package_for_commit` -/
def stagePackageForCommit (package : Str) (newSourceFilenames : List Str) : Tool Unit := do
  ignoreUploaded package newSourceFilenames
  addPackage package
  if newSourceFilenames = [] then pure () else gitReset package newSourceFilenames

/-- `save_package_metadata`, of a record that is there. -/
def saveMetadata (package : Str) : Option PackageMetadata → Tool Unit
  | some metadata => modify fun w => w.setMetadata package metadata
  | none => pure ()

/-- The end `update` and `continue_update` have in common: the metadata written, the package staged
and committed. -/
def commitPackage (env : Env) (package : Str) (metadata : Option PackageMetadata)
    (newSourceFilenames : List Str) (commitMsg : Str) : Tool Unit := do
  saveMetadata package metadata
  stagePackageForCommit package newSourceFilenames
  gitCommit env.commitOk commitMsg

/-! ## `update` -/

/-- `version-release` -/
def versionRelease (version release : Str) : Str := version ++ "-".toList ++ release

/-- The commit message of an update. -/
def updateMessage (package : Str) (t : Target) (plan : UpdatePlan) (sync : Bool) : Str :=
  (if sync then "Sync ".toList else "Update ".toList) ++ package ++ " from ".toList ++
    versionRelease t.metadata.version (t.metadata.release.getD "(none)") ++ " to ".toList ++
    versionRelease plan.version plan.release ++
    (if t.branchChanged then " (".toList ++ t.oldBranch ++ " -> ".toList ++ t.effectiveBranch ++
      ")".toList else []) ++ "\n\nUpstream: ".toList ++ plan.latestSha

/-- What the commit message starts with when the gorget step failed. -/
def manualGorgetPrefix : Str := "NEEDS MANUAL GORGET RUN: "

/-- The commit message that is saved, for the reason the gorget step gave, if it gave one. -/
def savedMessage (commitMsg : Str) : Option Str → Str
  | none => commitMsg
  | some reason => manualGorgetPrefix ++ commitMsg ++ "\n\n".toList ++ reason

/-- The record of a package after an update. -/
def updatedMetadata (t : Target) (plan : UpdatePlan) (sync : Bool) : PackageMetadata :=
  { t.metadata with
    sha := some plan.latestSha
    version := plan.version
    release := some plan.release
    branch := if t.branchChanged then some t.effectiveBranch else t.metadata.branch
    modificationStatus :=
      if sync || !plan.hasModifications then some .clean else t.metadata.modificationStatus
    modificationReason :=
      if sync || !plan.hasModifications then none else t.metadata.modificationReason }

/-- The package directory replaced, with `%autorelease` resolved in it. -/
def placeUpdate (package : Str) (plan : UpdatePlan) : Tool Unit := do
  modify fun w => w.setRpms package plan.merge.tree
  if plan.hasAutorelease then do
    let dir ← lift (replaceAutoreleaseInSpec plan.merge.tree plan.release false)
    modify fun w => w.setRpms package dir

/-- The gorget step, which a dry run and a failed merge leave out. -/
def gorgetStep (env : Env) (skip : Bool) (package oldVersion newVersion : Str)
    (metadata : PackageMetadata) : Tool (Option Str × List Str) :=
  if skip then pure (none, [])
  else runGorgetForUpdatedPackage env package oldVersion newVersion metadata

/-- What `.dist_git_update_state.json` is written with. -/
def interrupted (package : Str) (args : UpdateArgs) (t : Target) (plan : UpdatePlan)
    (reason : Option Str) : UpdateState where
  package := package
  commitMsg := savedMessage (updateMessage package t plan args.sync) reason
  metadata := some (updatedMetadata t plan args.sync)
  oldVersion := some t.metadata.version

/-- The writing part of `update`. -/
def applyUpdate (env : Env) (package : Str) (args : UpdateArgs) (t : Target) (plan : UpdatePlan) :
    Tool Unit := do
  placeUpdate package plan
  let (reason, newSourceFilenames) ← gorgetStep env (plan.merge.failed || args.dryRun) package
    t.metadata.version plan.version t.metadata
  modify fun w => w.setImports package (updatedMetadata t plan args.sync)
  if args.dryRun then pure ()
  else if plan.merge.failed || reason.isSome then do
    modify fun w => { w with state := some (interrupted package args t plan reason) }
    throw (.systemExit (.code 2))
  else
    commitPackage env package (some (updatedMetadata t plan args.sync)) newSourceFilenames
      (updateMessage package t plan args.sync)

/-- The record of a package marked as synced. -/
def markedMetadata (t : Target) : PackageMetadata :=
  { t.metadata with modificationStatus := some .clean, modificationReason := none }

/-- The message of the commit that marks a package as synced. -/
def markMessage (package : Str) (t : Target) (version release : Str) : Str :=
  "Sync ".toList ++ package ++ " to ".toList ++ versionRelease version release ++
    " (mark)\n\nUpstream: ".toList ++ t.latestSha

/-- The writing part of mark mode: the record, and a commit of it that may be empty. -/
def applyMark (env : Env) (package : Str) (args : UpdateArgs) (t : Target) (version release : Str) :
    Tool Unit := do
  modify fun w => w.setImports package (markedMetadata t)
  if args.dryRun then pure ()
  else do
    modify fun w => w.setMetadata package (markedMetadata t)
    gitAddMetadata package
    gitCommit env.commitOk (markMessage package t version release)

/-- `update` -/
def update (env : Env) (package : Str) (args : UpdateArgs) : Tool Unit := do
  match ← lift (updateDecision env (← get) package args) with
  | .skip => pure ()
  | .mark t version release => applyMark env package args t version release
  | .apply t plan => applyUpdate env package args t plan

/-! ## `continue_update` -/

/-- Whether a file can be read and holds a conflict marker. -/
def hasConflictMarker : File → Bool
  | .text s => contains "<<<<<<<" s
  | _ => false

/-- The first file of a directory that holds a conflict marker. -/
def conflictFile (dir : Tree) : Option Path :=
  dir.paths.find? fun q => (dir.read q).any hasConflictMarker

/-- The gorget step of `continue_update`, which a state file without metadata or without the old
version leaves out. -/
def continueGorget (env : Env) (dryRun : Bool) (state : UpdateState) :
    Tool (Option Str × List Str) :=
  match state.metadata, state.oldVersion with
  | some metadata, some oldVersion =>
      gorgetStep env dryRun state.package oldVersion metadata.version metadata
  | _, _ => pure (none, [])

/-- The message `continue_update` exits with when it keeps the state file, for a reason. -/
def statePreserved (reason : Str) : Str :=
  "ERROR: ".toList ++ reason ++
    ("\n       State preserved -- fix the issue above, then re-run: " ++
      "./ci/dist_git.py update --continue").toList

/-- `continue_update`, for the state file there is. -/
def continueFrom (env : Env) (dryRun : Bool) (state : UpdateState) : Tool Unit := do
  let w ← get
  if w.rpms state.package = none then do
    modify fun w => { w with state := none }
    throw (.systemExit (.message ("ERROR: Package directory rpms/".toList ++ state.package ++
      "/ not found".toList)))
  match conflictFile (w.packageDir state.package) with
  | some path =>
      throw (.systemExit (.message ("ERROR: Unresolved conflicts in rpms/".toList ++ state.package ++
        "/".toList ++ path)))
  | none => do
      match ← continueGorget env dryRun state with
      | (some reason, _) =>
          throw (.systemExit (.message (statePreserved reason)))
      | (none, newSourceFilenames) =>
          if dryRun then pure ()
          else do
            commitPackage env state.package state.metadata newSourceFilenames state.commitMsg
            modify fun w => { w with state := none }

/-- `continue_update` -/
def continueUpdate (env : Env) (dryRun : Bool) : Tool Unit := do
  match (← get).state with
  | none => throw (.systemExit (.message "ERROR: No update in progress. Nothing to continue."))
  | some state => continueFrom env dryRun state

end

/-! ## What a decision to apply is based on -/

/-- What `update` has found when it decides to apply a plan. -/
structure Planned [UnicodeTables] (env : Env) (w : World) (package : Str) (args : UpdateArgs)
    (t : Target) (plan : UpdatePlan) (up : Upstream) (upstreamDir : Tree) (specRelease : Str) : Prop where
  target : updateTarget env w package args = .ok (some t)
  news : ¬ (t.latestSha = t.oldSha ∧ t.branchChanged = false)
  checkout : checkoutUpdate env t args = .ok (up, upstreamDir, plan.latestSha)
  spec : parseSpecVersion env upstreamDir = .ok (plan.version, specRelease)
  autorelease : usesAutorelease upstreamDir = .ok plan.hasAutorelease
  release : resolveRelease env t plan.hasAutorelease specRelease = .ok plan.release
  version : versionAdmitted env t args plan.version plan.release = .ok true
  build : buildAdmitted env t args plan.version plan.release plan.latestSha = .ok true
  compared : isPackageUnmodified env up (w.packageDir package) t.oldSha = .ok (!plan.hasModifications)
  merge : mergeOrReplace env up (w.packageDir package) upstreamDir t args.sync plan.hasModifications
    plan.latestSha = .ok plan.merge

section

variable [UnicodeTables] {env : Env} {w : World} {package : Str} {args : UpdateArgs} {t t' : Target}
  {plan : UpdatePlan}

/-- An update works on what a dependent package's record says. -/
theorem updateTarget_ok (h : updateTarget env w package args = .ok (some t)) :
    w.imports package = some t.metadata ∧ t.metadata.modificationStatus ≠ some .independent ∧
      t.metadata.source = some t.source ∧ t.metadata.branch = some t.oldBranch ∧
      t.metadata.sha = some t.oldSha := by
  unfold updateTarget at h
  cases hm : w.imports package with
  | none =>
      rw [hm] at h
      exact absurd h (by simp [exit])
  | some metadata =>
      rw [hm] at h
      obtain ⟨_, -, h⟩ := except_bind_ok_iff.mp h
      obtain ⟨_, hstatus, h⟩ := except_bind_ok_iff.mp h
      split at h
      · rename_i source branch sha hsource hbranch hsha
        obtain ⟨⟨effective, changed⟩, -, h⟩ := except_bind_ok_iff.mp h
        dsimp only at h
        split at h
        all_goals
          obtain ⟨_, -, h⟩ := except_bind_ok_iff.mp h
          obtain rfl := Option.some.inj (Except.ok.inj h)
          exact ⟨rfl, failIf_ok_iff.mp hstatus, hsource, hbranch, hsha⟩
      · exact absurd (Except.ok.inj h) (by simp)

theorem planUpdate_apply (h : planUpdate env w package t args = .ok (.apply t' plan))
    (target : updateTarget env w package args = .ok (some t))
    (news : ¬ (t.latestSha = t.oldSha ∧ t.branchChanged = false)) :
    t' = t ∧ ∃ up upstreamDir specRelease,
      Planned env w package args t plan up upstreamDir specRelease := by
  obtain ⟨⟨up, upstreamDir, latestSha⟩, hcheckout, h⟩ := except_bind_ok_iff.mp h
  dsimp only at h
  split at h
  · exact absurd h (by simp)
  · obtain ⟨⟨version, specRelease⟩, hspec, h⟩ := except_bind_ok_iff.mp h
    obtain ⟨auto, hauto, h⟩ := except_bind_ok_iff.mp h
    obtain ⟨release, hrelease, h⟩ := except_bind_ok_iff.mp h
    obtain ⟨versionOk, hversion, h⟩ := except_bind_ok_iff.mp h
    cases versionOk with
    | false => exact absurd h (by simp)
    | true =>
        rw [if_neg (by simp)] at h
        obtain ⟨buildOk, hbuild, h⟩ := except_bind_ok_iff.mp h
        cases buildOk with
        | false => exact absurd h (by simp)
        | true =>
            rw [if_neg (by simp)] at h
            obtain ⟨unmodified, hcompared, h⟩ := except_bind_ok_iff.mp h
            obtain ⟨merge, hmerge, h⟩ := except_bind_ok_iff.mp h
            obtain ⟨rfl, rfl⟩ := Decision.apply.inj (Except.ok.inj h)
            refine ⟨rfl, up, upstreamDir, specRelease, target, news, hcheckout, hspec, hauto, hrelease,
              hversion, hbuild, ?_, hmerge⟩
            rwa [Bool.not_not]

/-- A plan is applied for what `update` has found. -/
theorem planned_of_apply (h : updateDecision env w package args = .ok (.apply t plan)) :
    ∃ up upstreamDir specRelease, Planned env w package args t plan up upstreamDir specRelease := by
  obtain ⟨target, htarget, h⟩ := except_bind_ok_iff.mp h
  cases target with
  | none => exact absurd h (by simp)
  | some t' =>
      dsimp only at h
      split at h
      · obtain ⟨_, -, h⟩ := except_bind_ok_iff.mp h
        split at h
        · exact absurd h (by simp)
        · obtain ⟨_, -, h⟩ := except_bind_ok_iff.mp h
          obtain ⟨_, -, h⟩ := except_bind_ok_iff.mp h
          obtain ⟨_, -, h⟩ := except_bind_ok_iff.mp h
          obtain ⟨_, -, h⟩ := except_bind_ok_iff.mp h
          exact absurd h (by simp)
      · rename_i hnews
        obtain ⟨rfl, hplanned⟩ := planUpdate_apply h htarget (by simpa using hnews)
        exact hplanned

theorem planUpdate_not_mark {version release : Str} :
    planUpdate env w package t args ≠ .ok (.mark t' version release) := by
  intro h
  obtain ⟨⟨up, upstreamDir, latestSha⟩, -, h⟩ := except_bind_ok_iff.mp h
  dsimp only at h
  split at h
  · exact absurd h (by simp)
  · obtain ⟨⟨version, specRelease⟩, -, h⟩ := except_bind_ok_iff.mp h
    obtain ⟨_, -, h⟩ := except_bind_ok_iff.mp h
    obtain ⟨_, -, h⟩ := except_bind_ok_iff.mp h
    obtain ⟨_, -, h⟩ := except_bind_ok_iff.mp h
    split at h
    · exact absurd h (by simp)
    · obtain ⟨_, -, h⟩ := except_bind_ok_iff.mp h
      split at h
      · exact absurd h (by simp)
      · obtain ⟨_, -, h⟩ := except_bind_ok_iff.mp h
        obtain ⟨_, -, h⟩ := except_bind_ok_iff.mp h
        exact absurd h (by simp)

/-- Only mark mode, and only at the recorded commit, marks a package. -/
theorem mark_of_decision {version release : Str}
    (h : updateDecision env w package args = .ok (.mark t version release)) :
    args.mark = true ∧ updateTarget env w package args = .ok (some t) ∧
      t.latestSha = t.oldSha ∧ t.branchChanged = false ∧
      markDecision env w package t = .ok (.mark t version release) := by
  obtain ⟨target, htarget, h⟩ := except_bind_ok_iff.mp h
  cases target with
  | none => exact absurd h (by simp)
  | some t' =>
      dsimp only at h
      split at h
      · rename_i hsame
        simp only [Bool.and_eq_true, decide_eq_true_eq, Bool.not_eq_true'] at hsame
        obtain ⟨_, -, h⟩ := except_bind_ok_iff.mp h
        cases hmark : args.mark with
        | false => simp [hmark] at h
        | true =>
            rw [hmark] at h
            have hdecision : markDecision env w package t' = .ok (.mark t version release) := h
            have h := hdecision
            obtain ⟨_, -, h⟩ := except_bind_ok_iff.mp h
            obtain ⟨_, -, h⟩ := except_bind_ok_iff.mp h
            obtain ⟨_, -, h⟩ := except_bind_ok_iff.mp h
            obtain ⟨_, -, h⟩ := except_bind_ok_iff.mp h
            obtain ⟨rfl, -, -⟩ := Decision.mark.inj (Except.ok.inj h)
            exact ⟨rfl, htarget, hsame.1, hsame.2, hdecision⟩
      · exact absurd h planUpdate_not_mark

end

/-! ## What staging does -/

/-- From `w` to `w'` the directory and the index of one package may have changed. -/
def DirAndIndex (package : Str) (w w' : World) : Prop :=
  ∃ dir index, w' =
    { w with rpms := Function.update w.rpms package dir, index := Function.update w.index package index }

namespace DirAndIndex

variable {package : Str} {w w' : World}

instance : Std.Refl (DirAndIndex package) :=
  ⟨fun w => ⟨w.rpms package, w.index package, by simp⟩⟩

instance : IsTrans World (DirAndIndex package) where
  trans := by
    rintro _ _ _ ⟨dir₁, index₁, rfl⟩ ⟨dir₂, index₂, rfl⟩
    exact ⟨dir₂, index₂, by simp⟩

theorem setRpms (t : Tree) : DirAndIndex package w (w.setRpms package t) :=
  ⟨some t, w.index package, by simp [World.setRpms]⟩

theorem setIndex (t : Tracked) : DirAndIndex package w (w.setIndex package t) :=
  ⟨w.rpms package, t, by simp [World.setIndex]⟩

theorem commits (h : DirAndIndex package w w') : w'.commits = w.commits := by
  obtain ⟨dir, index, rfl⟩ := h
  rfl

theorem head (h : DirAndIndex package w w') (p : Str) : w'.head p = w.head p := by
  obtain ⟨dir, index, rfl⟩ := h
  rfl

end DirAndIndex

section

variable {package : Str} {w w' : World} {names : List Str}

theorem updateGitignore_read {dir dir' : Tree} {q : Path} (h : updateGitignore dir names = .ok dir')
    (hq : q ≠ gitignoreName) : dir'.read q = dir.read q := by
  obtain ⟨existing, -, h⟩ := except_bind_ok_iff.mp h
  dsimp only at h
  split at h
  · rw [Except.ok.inj h]
  · split at h
    all_goals
      rw [← Except.ok.inj h, Tree.read_write_ne hq]

theorem steps_stage : Steps (DirAndIndex package) (stagePackageForCommit package names) := by
  refine steps_bind (steps_ite (steps_pure _) ?_) fun _ => steps_bind ?_ fun _ => ?_
  · refine steps_bind steps_get fun w => steps_bind (steps_lift _) fun dir => ?_
    exact steps_modify fun w => DirAndIndex.setRpms dir
  · refine steps_bind steps_get fun w => steps_bind steps_raiseIf fun _ => ?_
    exact steps_modify fun w => DirAndIndex.setIndex _
  · exact steps_ite (steps_pure _) (steps_modify fun w => DirAndIndex.setIndex _)

theorem addPackage_ok {u : Unit} (h : addPackage package w = .ok u w') :
    w' = w.setIndex package
      { rpms := gitFiles (w.packageDir package), metadata := w.metadata package
        pipeline := if (loadSourcePipeline w package).isSome then w.pipelines package
          else (w.index package).pipeline } := by
  obtain ⟨_, _, hget, _, _, hraise, hmod⟩ : ∃ _ _, _ ∧ ∃ _ _, _ ∧ _ := by
    simpa only [addPackage, bind_ok_iff] using h
  obtain ⟨rfl, rfl⟩ := EStateM.Result.ok.inj hget
  obtain ⟨_, rfl⟩ := raiseIf_ok_iff.mp hraise
  obtain ⟨_, rfl⟩ := EStateM.Result.ok.inj hmod
  rfl

theorem isFile_gitignore_of_update {dir dir' : Tree} (h : updateGitignore dir names = .ok dir')
    (hnames : names ≠ []) : dir'.isFile gitignoreName = true := by
  obtain ⟨existing, hexisting, h⟩ := except_bind_ok_iff.mp h
  dsimp only at h
  split at h
  · rename_i hnil
    obtain rfl := Except.ok.inj h
    -- every name is listed, so there is a file that lists it
    unfold gitignoreLines at hexisting
    split at hexisting
    · unfold readText at hexisting
      cases hread : dir.read gitignoreName with
      | none => simp [hread] at hexisting
      | some f =>
          cases f with
          | text t => exact Tree.isFile_of_read hread rfl
          | bytes b => simp [hread, decodeText] at hexisting
          | dir => simp [hread, decodeText] at hexisting
    · obtain rfl := Except.ok.inj hexisting
      exact absurd (by simpa using hnil) hnames
  · split at h
    all_goals
      rw [← Except.ok.inj h]
      exact Tree.isFile_of_read (Tree.read_write_self) rfl

theorem ignoreUploaded_ok {u : Unit} (h : ignoreUploaded package names w = .ok u w') :
    (∃ dir, w' = { w with rpms := Function.update w.rpms package dir }) ∧
      (∀ q ≠ gitignoreName, (w'.packageDir package).read q = (w.packageDir package).read q) ∧
      (w'.packageDir package).isFile gitignoreName =
        if names = [] then (w.packageDir package).isFile gitignoreName else true := by
  unfold ignoreUploaded at h
  split at h
  · rename_i hnil
    obtain ⟨_, rfl⟩ := EStateM.Result.ok.inj h
    exact ⟨⟨w.rpms package, by simp⟩, fun _ _ => rfl, (if_pos hnil).symm⟩
  · rename_i hnames
    obtain ⟨_, _, hget, dir, _, hlift, hmod⟩ : ∃ _ _, _ ∧ ∃ _ _, _ ∧ _ := by
      simpa only [bind_ok_iff] using h
    obtain ⟨rfl, rfl⟩ := EStateM.Result.ok.inj hget
    obtain ⟨hdir, rfl⟩ := lift_ok_iff.mp hlift
    obtain ⟨_, rfl⟩ := EStateM.Result.ok.inj hmod
    have hplaced : ∀ w : World, (w.setRpms package dir).packageDir package = dir := by
      intro w
      simp [World.packageDir, World.setRpms]
    refine ⟨⟨some dir, rfl⟩, fun q hq => ?_, ?_⟩
    · rw [hplaced]
      exact updateGitignore_read hdir hq
    · rw [hplaced, if_neg hnames]
      exact isFile_gitignore_of_update hdir hnames

/-- Whether staging leaves `.gitignore` a file of the index. -/
def stagedGitignore (names : List Str) (before dir : Tree) : Bool :=
  if names = [] then dir.isFile gitignoreName
  else if gitignoreName ∈ names then before.isFile gitignoreName else true

/-- What staging a package puts into the index: its directory, but for the uploaded files, which stay
as the last commit tracks them, its metadata file and its pipeline file. -/
structure Staging (package : Str) (names : List Str) (w : World) (index : Str → Tracked) : Prop where
  rpms : ∀ q ≠ gitignoreName, (index package).rpms.read q =
    if q ∈ names then (w.head package).rpms.read q else (gitFiles (w.packageDir package)).read q
  gitignore : (index package).rpms.isFile gitignoreName =
    stagedGitignore names (w.head package).rpms (w.packageDir package)
  metadata : (index package).metadata = w.metadata package
  pipeline : (index package).pipeline =
    if (loadSourcePipeline w package).isSome then w.pipelines package else (w.index package).pipeline
  others : ∀ p ≠ package, index p = w.index p

theorem stage_ok {u : Unit} (h : stagePackageForCommit package names w = .ok u w') :
    Staging package names w w'.index := by
  obtain ⟨_, w₁, hignore, _, w₂, hadd, hreset⟩ : ∃ _ _, _ ∧ ∃ _ _, _ ∧ _ := by
    simpa only [stagePackageForCommit, bind_ok_iff] using h
  obtain ⟨⟨dir, hw₁⟩, hread, hgitignore⟩ := ignoreUploaded_ok hignore
  have hw₂ := addPackage_ok hadd
  have hrpms : (w₂.index package).rpms = gitFiles (w₁.packageDir package) := by
    simp [hw₂, World.setIndex]
  have hmetadata : (w₂.index package).metadata = w.metadata package := by
    simp [hw₂, hw₁, World.setIndex]
  have hpipeline : (w₂.index package).pipeline =
      if (loadSourcePipeline w package).isSome then w.pipelines package
      else (w.index package).pipeline := by
    simp [hw₂, hw₁, World.setIndex, loadSourcePipeline]
  have hothers : ∀ p ≠ package, w₂.index p = w.index p := by
    intro p hp
    simp [hw₂, hw₁, World.setIndex, hp]
  split at hreset
  · rename_i hnil
    obtain ⟨_, rfl⟩ := EStateM.Result.ok.inj hreset
    refine ⟨fun q hq => ?_, ?_, hmetadata, hpipeline, hothers⟩
    · rw [hrpms, hnil, if_neg List.not_mem_nil]
      exact read_gitFiles_congr (hread q hq)
    · rw [hrpms, isFile_gitFiles, hgitignore, stagedGitignore, if_pos hnil, if_pos hnil]
  · rename_i hnames
    obtain ⟨_, rfl⟩ := EStateM.Result.ok.inj hreset
    have hhead : w₂.head package = w.head package := by
      rw [hw₂, hw₁]
      rfl
    have hindex : ∀ q, (names.foldl (resetPath (w₂.head package).rpms) (w₂.index package).rpms).read q =
        if q ∈ names then (w.head package).rpms.read q
        else (gitFiles (w₁.packageDir package)).read q := by
      intro q
      rw [read_foldl_resetPath, hhead, hrpms]
    refine ⟨fun q hq => ?_, ?_, ?_, ?_, fun p hp => ?_⟩
    · simp only [World.setIndex, Function.update_self]
      rw [hindex, read_gitFiles_congr (hread q hq)]
    · simp only [World.setIndex, Function.update_self]
      rw [Tree.isFile, hindex, stagedGitignore, if_neg hnames]
      split
      · rfl
      · rw [← Tree.isFile, isFile_gitFiles, hgitignore, if_neg hnames]
    · simpa [World.setIndex] using hmetadata
    · simpa [World.setIndex] using hpipeline
    · simpa [World.setIndex, hp] using hothers p hp

end

/-! ## How a commit comes about -/

/-- The world with a package's record written, if there is one. -/
def World.saved (w : World) (package : Str) : Option PackageMetadata → World
  | some metadata => w.setMetadata package metadata
  | none => w

section

variable {env : Env} {package commitMsg : Str} {metadata : Option PackageMetadata} {names : List Str}
  {w w' : World} {u : Unit} {e : Exn}

theorem run_saveMetadata : saveMetadata package metadata w = .ok () (w.saved package metadata) := by
  cases metadata <;> rfl

theorem gitCommit_ok {ok : Bool} (h : gitCommit ok commitMsg w = .ok u w') :
    w' = { w with commits := ⟨commitMsg, w.index⟩ :: w.commits } := by
  unfold gitCommit at h
  split at h
  · exact (EStateM.Result.ok.inj h).2.symm
  · exact absurd h (by simp)

theorem gitCommit_error {ok : Bool} (h : gitCommit ok commitMsg w = .error e w') : w' = w := by
  unfold gitCommit at h
  split at h
  · exact absurd h (by simp)
  · exact (EStateM.Result.error.inj h).2.symm

/-- What a package's commit holds, and what it leaves besides. -/
structure Committed (package commitMsg : Str) (names : List Str) (w w' : World) (c : Commit) :
    Prop where
  message : c.message = commitMsg
  content : Staging package names w c.content
  frame : ∃ dir, w' = { w with
    rpms := Function.update w.rpms package dir, index := c.content, commits := c :: w.commits }

theorem commitPackage_ok (h : commitPackage env package metadata names commitMsg w = .ok u w') :
    ∃ c, Committed package commitMsg names (w.saved package metadata) w' c := by
  obtain ⟨_, w₁, hsave, _, w₂, hstage, hcommit⟩ : ∃ _ _, _ ∧ ∃ _ _, _ ∧ _ := by
    simpa only [commitPackage, bind_ok_iff] using h
  obtain ⟨_, rfl⟩ := EStateM.Result.ok.inj (run_saveMetadata.symm.trans hsave)
  refine ⟨⟨commitMsg, w₂.index⟩, rfl, stage_ok hstage, ?_⟩
  obtain ⟨dir, index, rfl⟩ := steps_stage.ok hstage
  exact ⟨dir, gitCommit_ok hcommit⟩

/-- Nothing is committed when the end of an update raises. -/
theorem commitPackage_error (h : commitPackage env package metadata names commitMsg w = .error e w') :
    DirAndIndex package (w.saved package metadata) w' := by
  rcases bind_error_iff.mp h with h | ⟨_, w₁, hsave, h⟩
  · exact absurd (run_saveMetadata.symm.trans h) (by simp)
  · obtain ⟨_, rfl⟩ := EStateM.Result.ok.inj (run_saveMetadata.symm.trans hsave)
    rcases bind_error_iff.mp h with h | ⟨_, w₂, hstage, h⟩
    · exact steps_stage.error h
    · rw [gitCommit_error h]
      exact steps_stage.ok hstage

@[simp] theorem saved_commits : (w.saved package metadata).commits = w.commits := by
  cases metadata <;> rfl

end

theorem TouchesPackage.commits {package : Str} {w w' : World} (h : TouchesPackage package w w') :
    w'.commits = w.commits := by
  obtain ⟨_, _, _, rfl⟩ := h
  rfl

/-- The directory an update puts in place, with `%autorelease` resolved. -/
def UpdatePlan.placed [UnicodeTables] (plan : UpdatePlan) : Except Exn Tree :=
  if plan.hasAutorelease then replaceAutoreleaseInSpec plan.merge.tree plan.release false
  else .ok plan.merge.tree

section

variable [UnicodeTables] {env : Env} {package : Str} {args : UpdateArgs} {t : Target}
  {plan : UpdatePlan} {w w' : World} {u : Unit} {e : Exn} {c : Commit}

theorem run_placeUpdate : placeUpdate package plan w =
    match plan.placed with
    | .ok dir => .ok () (w.setRpms package dir)
    | .error e => .error e (w.setRpms package plan.merge.tree) := by
  have hset : ∀ dir, (w.setRpms package plan.merge.tree).setRpms package dir =
      w.setRpms package dir := fun dir => by simp [World.setRpms]
  unfold placeUpdate UpdatePlan.placed
  rw [run_bind_of_ok (run_modify _ w)]
  split
  · cases replaceAutoreleaseInSpec plan.merge.tree plan.release false with
    | ok dir => exact congrArg (EStateM.Result.ok ()) (hset dir)
    | error e => rfl
  · rfl

theorem steps_gorgetStep {skip : Bool} {oldVersion newVersion : Str} {metadata : PackageMetadata} :
    Steps (TouchesPackage package)
      (gorgetStep env skip package oldVersion newVersion metadata) :=
  steps_ite (steps_pure _) steps_runGorgetForUpdatedPackage

/-- An update whose gorget step found no reason to stop, and what it committed. -/
structure UpdateCommits (env : Env) (package : Str) (args : UpdateArgs) (t : Target)
    (plan : UpdatePlan) (w w' : World) (c : Commit) (dir : Tree) (names : List Str) (w₂ : World) :
    Prop where
  wet : args.dryRun = false
  clean : plan.merge.failed = false
  placed : plan.placed = .ok dir
  gorget : runGorgetForUpdatedPackage env package t.metadata.version plan.version t.metadata
    (w.setRpms package dir) = .ok (none, names) w₂
  commit : Committed package (updateMessage package t plan args.sync) names
    ((w₂.setImports package (updatedMetadata t plan args.sync)).setMetadata package
      (updatedMetadata t plan args.sync)) w' c

/-- The ways the writing part of an update can end. -/
inductive UpdateEnds (env : Env) (package : Str) (args : UpdateArgs) (t : Target)
    (plan : UpdatePlan) (w : World) : EStateM.Result Exn World Unit → Prop
  /-- The spec file that was put in place could not be read. -/
  | notPlaced {e : Exn} (failed : plan.placed = .error e) :
      UpdateEnds env package args t plan w (.error e (w.setRpms package plan.merge.tree))
  /-- The gorget step raised what it does not handle. -/
  | unhandled {e : Exn} {dir : Tree} {w₂ : World} (wet : args.dryRun = false)
      (clean : plan.merge.failed = false) (placed : plan.placed = .ok dir)
      (gorget : runGorgetForUpdatedPackage env package t.metadata.version plan.version t.metadata
        (w.setRpms package dir) = .error e w₂) :
      UpdateEnds env package args t plan w (.error e w₂)
  /-- A dry run. -/
  | dry {dir : Tree} (dry : args.dryRun = true) (placed : plan.placed = .ok dir) :
      UpdateEnds env package args t plan w
        (.ok () ((w.setRpms package dir).setImports package (updatedMetadata t plan args.sync)))
  /-- The merge failed, or the gorget step gave a reason for manual resolution. -/
  | interrupted {dir : Tree} {reason : Option Str} {names : List Str} {w₂ : World}
      (wet : args.dryRun = false) (placed : plan.placed = .ok dir)
      (gorget : gorgetStep env plan.merge.failed package t.metadata.version plan.version t.metadata
        (w.setRpms package dir) = .ok (reason, names) w₂)
      (conflict : plan.merge.failed = true ∨ reason.isSome = true) :
      UpdateEnds env package args t plan w (.error (.systemExit (.code 2))
        { w₂.setImports package (updatedMetadata t plan args.sync) with
          state := some (interrupted package args t plan reason) })
  /-- The package was committed. -/
  | committed {w' w₂ : World} {c : Commit} {dir : Tree} {names : List Str}
      (commits : UpdateCommits env package args t plan w w' c dir names w₂) :
      UpdateEnds env package args t plan w (.ok () w')
  /-- Staging or committing the package failed. -/
  | notCommitted {e : Exn} {dir : Tree} {names : List Str} {w₂ w' : World}
      (wet : args.dryRun = false) (clean : plan.merge.failed = false) (placed : plan.placed = .ok dir)
      (gorget : runGorgetForUpdatedPackage env package t.metadata.version plan.version t.metadata
        (w.setRpms package dir) = .ok (none, names) w₂)
      (frame : DirAndIndex package
        ((w₂.setImports package (updatedMetadata t plan args.sync)).setMetadata package
          (updatedMetadata t plan args.sync)) w') :
      UpdateEnds env package args t plan w (.error e w')

/-- **`applyUpdate_cases`** — how the writing part of an update ends. -/
theorem applyUpdate_cases :
    UpdateEnds env package args t plan w (applyUpdate env package args t plan w) := by
  unfold applyUpdate
  rw [run_bind, run_placeUpdate]
  cases hplaced : plan.placed with
  | error e => exact .notPlaced hplaced
  | ok dir =>
      dsimp only
      rw [run_bind]
      cases hgorget : gorgetStep env (plan.merge.failed || args.dryRun) package t.metadata.version
          plan.version t.metadata (w.setRpms package dir) with
      | error e w₂ =>
          cases hskip : plan.merge.failed || args.dryRun with
          | true =>
              rw [hskip] at hgorget
              exact absurd hgorget (by simp [gorgetStep])
          | false =>
              rw [hskip] at hgorget
              obtain ⟨hclean, hwet⟩ := Bool.or_eq_false_iff.mp hskip
              exact .unhandled hwet hclean hplaced hgorget
      | ok r w₂ =>
          obtain ⟨reason, names⟩ := r
          dsimp only
          rw [run_bind_of_ok (run_modify _ w₂)]
          cases hdry : args.dryRun with
          | true =>
              rw [hdry, Bool.or_true] at hgorget
              obtain ⟨_, rfl⟩ := EStateM.Result.ok.inj hgorget
              exact .dry hdry hplaced
          | false =>
              rw [hdry, Bool.or_false] at hgorget
              rw [if_neg Bool.false_ne_true]
              split
              · rename_i hconflict
                exact .interrupted hdry hplaced hgorget (by simpa using hconflict)
              · rename_i hconflict
                simp only [Bool.or_eq_true, not_or, Bool.not_eq_true, Option.isSome_eq_false_iff,
                  Option.isNone_iff_eq_none] at hconflict
                obtain ⟨hclean, rfl⟩ := hconflict
                rw [hclean] at hgorget
                cases hcommit : commitPackage env package (some (updatedMetadata t plan args.sync)) names
                    (updateMessage package t plan args.sync)
                    (w₂.setImports package (updatedMetadata t plan args.sync)) with
                | ok u w' =>
                    obtain ⟨c, hc⟩ := commitPackage_ok hcommit
                    exact .committed ⟨hdry, hclean, hplaced, hgorget, hc⟩
                | error e w' =>
                    exact .notCommitted hdry hclean hplaced hgorget (commitPackage_error hcommit)

theorem steps_continueGorget {dryRun : Bool} {state : UpdateState} :
    Steps (TouchesPackage state.package) (continueGorget env dryRun state) := by
  unfold continueGorget
  split
  · exact steps_gorgetStep
  · exact steps_pure _

/-- A continued update whose directory has no conflict marker, and what it committed. -/
structure ContinueCommits (env : Env) (state : UpdateState) (w w' : World) (c : Commit)
    (names : List Str) (w₂ : World) : Prop where
  exists_dir : w.rpms state.package ≠ none
  resolved : conflictFile (w.packageDir state.package) = none
  gorget : continueGorget env false state w = .ok (none, names) w₂
  commit : ∃ w₃, Committed state.package state.commitMsg names (w₂.saved state.package state.metadata)
    w₃ c ∧ w' = { w₃ with state := none }

/-- The ways a continued update can end. -/
inductive ContinueEnds (env : Env) (dryRun : Bool) (state : UpdateState) (w : World) :
    EStateM.Result Exn World Unit → Prop
  /-- The package directory is gone, and the state file with it. -/
  | noDir {m : Str} (gone : w.rpms state.package = none) :
      ContinueEnds env dryRun state w (.error (.systemExit (.message m)) { w with state := none })
  /-- A file still holds a conflict marker. -/
  | conflict {m : Str} {path : Path} (exists_dir : w.rpms state.package ≠ none)
      (unresolved : conflictFile (w.packageDir state.package) = some path) :
      ContinueEnds env dryRun state w (.error (.systemExit (.message m)) w)
  | unhandled {e : Exn} {w₂ : World} (exists_dir : w.rpms state.package ≠ none)
      (resolved : conflictFile (w.packageDir state.package) = none)
      (gorget : continueGorget env dryRun state w = .error e w₂) :
      ContinueEnds env dryRun state w (.error e w₂)
  /-- The gorget step gave a reason for manual resolution: the state file stays. -/
  | manual {reason : Str} {names : List Str} {w₂ : World}
      (exists_dir : w.rpms state.package ≠ none)
      (resolved : conflictFile (w.packageDir state.package) = none)
      (gorget : continueGorget env dryRun state w = .ok (some reason, names) w₂) :
      ContinueEnds env dryRun state w (.error (.systemExit (.message (statePreserved reason))) w₂)
  | dry {names : List Str} {w₂ : World} (dry : dryRun = true)
      (gorget : continueGorget env dryRun state w = .ok (none, names) w₂) :
      ContinueEnds env dryRun state w (.ok () w₂)
  | committed {w' w₂ : World} {c : Commit} {names : List Str} (wet : dryRun = false)
      (commits : ContinueCommits env state w w' c names w₂) :
      ContinueEnds env dryRun state w (.ok () w')
  | notCommitted {e : Exn} {names : List Str} {w₂ w' : World} (wet : dryRun = false)
      (gorget : continueGorget env dryRun state w = .ok (none, names) w₂)
      (frame : DirAndIndex state.package (w₂.saved state.package state.metadata) w') :
      ContinueEnds env dryRun state w (.error e w')

theorem continueUpdate_of_state {dryRun : Bool} {state : UpdateState} (hstate : w.state = some state) :
    continueUpdate env dryRun w = continueFrom env dryRun state w := by
  unfold continueUpdate
  rw [run_bind_of_ok (run_get w), hstate]

/-- **`continueUpdate_cases`** — how a continued update ends, when there is a state file. -/
theorem continueUpdate_cases {dryRun : Bool} {state : UpdateState} (hstate : w.state = some state) :
    ContinueEnds env dryRun state w (continueUpdate env dryRun w) := by
  rw [continueUpdate_of_state hstate]
  unfold continueFrom
  rw [run_bind_of_ok (run_get w)]
  by_cases hdir : w.rpms state.package = none
  · simp only [if_pos hdir]
    exact .noDir hdir
  · simp only [if_neg hdir]
    cases hconflict : conflictFile (w.packageDir state.package) with
    | some path => exact .conflict hdir hconflict
    | none =>
        dsimp only
        cases hgorget : continueGorget env dryRun state w with
        | error e w₂ =>
            exact (run_bind_of_error hgorget).symm ▸ .unhandled hdir hconflict hgorget
        | ok r w₂ =>
            obtain ⟨reason, names⟩ := r
            refine (run_bind_of_ok hgorget).symm ▸ ?_
            cases reason with
            | some reason => exact .manual hdir hconflict hgorget
            | none =>
                cases hdry : dryRun with
                | true =>
                    rw [hdry] at hgorget
                    exact .dry rfl hgorget
                | false =>
                    rw [hdry] at hgorget
                    dsimp only
                    rw [if_neg Bool.false_ne_true, run_bind]
                    cases hcommit : commitPackage env state.package state.metadata names
                        state.commitMsg w₂ with
                    | ok u w₃ =>
                        obtain ⟨c, hc⟩ := commitPackage_ok hcommit
                        exact .committed rfl ⟨hdir, hconflict, hgorget, w₃, hc, rfl⟩
                    | error e w₃ =>
                        exact .notCommitted rfl hgorget (commitPackage_error hcommit)

/-- An update that reaches the gorget step goes on from what the step returns. -/
theorem applyUpdate_eq {dir : Tree} (wet : args.dryRun = false) (clean : plan.merge.failed = false)
    (placed : plan.placed = .ok dir) :
    applyUpdate env package args t plan w =
      match runGorgetForUpdatedPackage env package t.metadata.version plan.version t.metadata
          (w.setRpms package dir) with
      | .error e w₂ => .error e w₂
      | .ok (some reason, _) w₂ => .error (.systemExit (.code 2))
          { w₂.setImports package (updatedMetadata t plan args.sync) with
            state := some (interrupted package args t plan (some reason)) }
      | .ok (none, names) w₂ =>
          commitPackage env package (some (updatedMetadata t plan args.sync)) names
            (updateMessage package t plan args.sync)
            (w₂.setImports package (updatedMetadata t plan args.sync)) := by
  unfold applyUpdate
  rw [run_bind, run_placeUpdate, placed]
  dsimp only
  rw [run_bind, gorgetStep, wet, clean, if_neg (by simp)]
  cases runGorgetForUpdatedPackage env package t.metadata.version plan.version t.metadata
      (w.setRpms package dir) with
  | error e w₂ => rfl
  | ok r w₂ =>
      obtain ⟨_ | reason, names⟩ := r
      · rfl
      · rfl

/-- A continued update that reaches the gorget step goes on from what the step returns. -/
theorem continueUpdate_eq {state : UpdateState} (hstate : w.state = some state)
    (exists_dir : w.rpms state.package ≠ none)
    (resolved : conflictFile (w.packageDir state.package) = none) :
    continueUpdate env false w =
      match continueGorget env false state w with
      | .error e w₂ => .error e w₂
      | .ok (some reason, _) w₂ => .error (.systemExit (.message (statePreserved reason))) w₂
      | .ok (none, names) w₂ =>
          (do
            commitPackage env state.package state.metadata names state.commitMsg
            modify fun w => { w with state := none } : Tool Unit) w₂ := by
  rw [continueUpdate_of_state hstate]
  unfold continueFrom
  rw [run_bind_of_ok (run_get w)]
  simp only [if_neg exists_dir, resolved]
  cases hgorget : continueGorget env false state w with
  | error e w₂ => exact run_bind_of_error hgorget
  | ok r w₂ =>
      refine (run_bind_of_ok hgorget).trans ?_
      obtain ⟨_ | reason, names⟩ := r
      · rfl
      · rfl

theorem update_of_apply (h : updateDecision env w package args = .ok (.apply t plan)) :
    update env package args w = applyUpdate env package args t plan w := by
  unfold update
  rw [run_bind_of_ok (run_get w), run_bind, h, lift_ok]

theorem update_of_skip (h : updateDecision env w package args = .ok .skip) :
    update env package args w = .ok () w := by
  unfold update
  rw [run_bind_of_ok (run_get w), run_bind, h, lift_ok]
  rfl

theorem update_of_mark {version release : Str}
    (h : updateDecision env w package args = .ok (.mark t version release)) :
    update env package args w = applyMark env package args t version release w := by
  unfold update
  rw [run_bind_of_ok (run_get w), run_bind, h, lift_ok]

theorem update_of_error (h : updateDecision env w package args = .error e) :
    update env package args w = .error e w := by
  unfold update
  rw [run_bind_of_ok (run_get w), run_bind, h, lift_error]

end

/-! ## What an update checks out -/

theorem cloneUpstream_ok {env : Env} {t : Target} {up : Upstream} {upstreamDir : Tree}
    (h : cloneUpstream env t = .ok (up, upstreamDir)) :
    env.clone t.source t.effectiveBranch (!t.branchChanged) = some up ∧
      ∃ tip, up.tip t.effectiveBranch = some tip ∧ up.tree tip = some upstreamDir := by
  unfold cloneUpstream at h
  cases hclone : env.clone t.source t.effectiveBranch (!t.branchChanged) with
  | none => simp [hclone] at h
  | some up' =>
      simp only [hclone] at h
      cases htip : up'.tip t.effectiveBranch with
      | none => simp [htip] at h
      | some tip =>
          simp only [htip] at h
          obtain ⟨dir, hdir, h⟩ := except_bind_ok_iff.mp h
          obtain ⟨rfl, rfl⟩ := Prod.mk.inj (Except.ok.inj h)
          exact ⟨rfl, tip, htip, checkout_ok_iff.mp hdir⟩

/-- The commit an update takes is the tip of the branch, recorded as what `git ls-remote` listed, or the
one `--ref` names. -/
theorem checkoutUpdate_ok {env : Env} {t : Target} {args : UpdateArgs} {up : Upstream}
    {upstreamDir : Tree} {sha : Str} (h : checkoutUpdate env t args = .ok (up, upstreamDir, sha)) :
    env.clone t.source t.effectiveBranch (!t.branchChanged) = some up ∧
      ((given args.ref = none ∧ sha = t.latestSha ∧
          ∃ tip, up.tip t.effectiveBranch = some tip ∧ up.tree tip = some upstreamDir) ∨
        ∃ ref, given args.ref = some ref ∧ up.revParse ref = some sha ∧
          up.tree sha = some upstreamDir) := by
  obtain ⟨⟨up', dir⟩, hclone, h⟩ := except_bind_ok_iff.mp h
  obtain ⟨_, -, h⟩ := except_bind_ok_iff.mp h
  obtain ⟨hup, htip⟩ := cloneUpstream_ok hclone
  cases href : given args.ref with
  | none =>
      simp only [href] at h
      obtain ⟨rfl, rfl, rfl⟩ : up' = up ∧ dir = upstreamDir ∧ t.latestSha = sha := by
        simpa [Prod.mk.injEq] using h
      exact ⟨hup, Or.inl ⟨rfl, rfl, htip⟩⟩
  | some ref =>
      simp only [href] at h
      cases hrev : up'.revParse ref with
      | none => simp [hrev] at h
      | some full =>
          simp only [hrev] at h
          obtain ⟨dir', hdir', h⟩ := except_bind_ok_iff.mp h
          obtain ⟨rfl, rfl, rfl⟩ : up' = up ∧ dir' = upstreamDir ∧ full = sha := by
            simpa [Prod.mk.injEq] using h
          exact ⟨hup, Or.inr ⟨ref, rfl, hrev, checkout_ok_iff.mp hdir'⟩⟩

/-! ## Mark mode -/

section

variable {env : Env} {package : Str} {args : UpdateArgs} {t : Target} {w : World}

/-- What mark mode commits. -/
structure MarkCommits (package : Str) (t : Target) (version release : Str) (w w' : World)
    (c : Commit) : Prop where
  message : c.message = markMessage package t version release
  content : c.content = Function.update w.index package
    { w.index package with metadata := some (markedMetadata t) }
  final : w' = { (w.setImports package (markedMetadata t)).setMetadata package (markedMetadata t) with
    index := c.content, commits := c :: w.commits }

/-- The ways mark mode can end. -/
inductive MarkEnds (package : Str) (args : UpdateArgs) (t : Target) (version release : Str)
    (w : World) : EStateM.Result Exn World Unit → Prop
  | dry (dry : args.dryRun = true) :
      MarkEnds package args t version release w (.ok () (w.setImports package (markedMetadata t)))
  | committed {w' : World} {c : Commit} (wet : args.dryRun = false)
      (commits : MarkCommits package t version release w w' c) :
      MarkEnds package args t version release w (.ok () w')
  | notCommitted {e : Exn} (wet : args.dryRun = false) :
      MarkEnds package args t version release w (.error e
        (((w.setImports package (markedMetadata t)).setMetadata package (markedMetadata t)).setIndex
          package { w.index package with metadata := some (markedMetadata t) }))

theorem applyMark_cases {version release : Str} :
    MarkEnds package args t version release w (applyMark env package args t version release w) := by
  unfold applyMark
  rw [run_bind_of_ok (run_modify _ w)]
  cases hdry : args.dryRun with
  | true => exact .dry hdry
  | false =>
      rw [if_neg Bool.false_ne_true, run_bind_of_ok (run_modify _ _)]
      have hadd : gitAddMetadata package ((w.setImports package (markedMetadata t)).setMetadata package
          (markedMetadata t)) = .ok ⟨⟩ (((w.setImports package (markedMetadata t)).setMetadata package
            (markedMetadata t)).setIndex package
              { w.index package with metadata := some (markedMetadata t) }) := by
        simp [gitAddMetadata, World.setMetadata, World.setImports]
      rw [run_bind_of_ok hadd]
      unfold gitCommit
      split
      · exact MarkEnds.committed (c := ⟨_, _⟩) hdry ⟨rfl, rfl, rfl⟩
      · exact .notCommitted hdry

end

end HummingbirdRpms
