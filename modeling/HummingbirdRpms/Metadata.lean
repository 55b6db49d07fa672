/-
# HummingbirdRpms.Metadata — the commands that write `metadata/<package>.json`, and what they keep.

Six operations of two scripts write a package's record: `import_`, `update` in its four modes,
`mark_modified` and `set_upstream` of `ci/dist_git.py`, and `mark_package_modified` of
`ci/check_upstream_versions.py`.  Each command is a process of its own: it begins by reading every
record there is.

**`metadata_invariant`** is about all sequences of these commands: every record stays well formed, and
an independent package stays independent.  Two things are left open.  An import from Hummingbird's own
group writes an independent record with the source, branch and commit an independent package has none
of; and `mark-modified` on an independent package makes it another kind of package.
-/
import HummingbirdRpms.Update

namespace HummingbirdRpms

open Lib Lib.Text Lib.Regex Lib.Exec

/-- Both copies of a package's record written: the file and the dictionary of the process. -/
def saveRecord (package : Str) (metadata : PackageMetadata) : Tool Unit :=
  modify fun w => (w.setMetadata package metadata).setImports package metadata

/-- `get_all_imported_packages`, at the start of a process. -/
def World.started (w : World) : World := { w with imports := w.metadata }

/-! ## `import_` -/

/-- What follows a prefix, where `url` starts with it. -/
def afterPrefix (pre url : Str) : Option Str :=
  if startsWith pre url then some (url.drop pre.length) else none

/-- `expand_url_shortcut` -/
def expandUrlShortcut (url : Str) : Str :=
  match afterPrefix "fedora/" url with
  | some package => "https://src.fedoraproject.org/rpms/".toList ++ package ++ ".git".toList
  | none =>
      match afterPrefix "centos/" url with
      | some package =>
          "https://gitlab.com/redhat/centos-stream/rpms/".toList ++ package ++ ".git".toList
      | none => url

/-- `lookup_anitya_project_id`: an HTTP error, another error of the request and an answer without an
integer `id` all mean that there is none. -/
def lookupAnityaProjectId (env : Env) (package : Str) : Except Exn (Option Int) :=
  match env.anityaId package with
  | .ok n => .ok (some n)
  | .error (.raised .osError _) => .ok none
  | .error (.raised .keyError _) => .ok none
  | .error (.raised .valueError _) => .ok none
  | .error (.raised .unicodeDecodeError _) => .ok none
  | .error (.raised .jsonDecodeError _) => .ok none
  | .error e => .error e

/-- Whether a source is one of Hummingbird's own repositories. -/
def isHummingbirdUrl (url : Str) : Bool := contains "gitlab.com/redhat/hummingbird" url

/-- The record of a package that is imported. -/
def importedMetadata (url branch sha version release : Str) (anityaId : Option Int) :
    PackageMetadata where
  source := some url
  branch := some branch
  sha := some sha
  version := version
  release := if isHummingbirdUrl url then none else some release
  modificationStatus := some (if isHummingbirdUrl url then .independent else .clean)
  releaseMonitoringProjectId := anityaId.map .id

/-- `git clone` of a branch into a package directory, and `git checkout` of a ref in it: the hash of
what is checked out. -/
def cloneInto (env : Env) (dirName url branch : Str) (ref : Option Str) : Tool Str := do
  let (up, tip) ← lift (match env.clone url branch true with
    | none => .error (.raised .calledProcessError "git clone")
    | some up =>
        match up.tip branch with
        | none => .error (.raised .calledProcessError "git clone")
        | some tip => .ok (up, tip))
  let dir ← lift (checkout up tip)
  modify fun w => w.setRpms dirName dir
  match given ref with
  | none => pure tip
  | some ref => do
      let sha ← lift (match up.revParse ref with
        | none => .error (.raised .calledProcessError "git checkout")
        | some sha => .ok sha)
      let dir ← lift (checkout up sha)
      modify fun w => w.setRpms dirName dir
      pure sha

section

variable [UnicodeTables]

/-- The release of an imported package, with `%autorelease` replaced by what MDAPI reports. -/
def importRelease (env : Env) (packageName dirName branch specRelease : Str) : Tool Str := do
  let dir := (← get).packageDir dirName
  if ← lift (usesAutorelease dir) then do
    match (← lift (queryAutoreleaseFromMdapi env packageName branch)).filter (!·.isEmpty) with
    | none => pure specRelease
    | some release => do
        let dir ← lift (replaceAutoreleaseInSpec dir release true)
        modify fun w => w.setRpms dirName dir
        pure release
  else pure specRelease

/-- What follows once the record of an imported package is written. -/
def finishImport (env : Env) (dirName commitMsg : Str) (dryRun : Bool) : Tool Unit := do
  raiseIf (env.jinja2Ok = false)
    (.systemExit (.message "ERROR: jinja2 command-line tool is not available."))
  raiseIf (env.generateOk = false) (.raised .calledProcessError "generate_resources.py")
  if dryRun then pure ()
  else do
    gitAddPackage dirName true false
    gitCommit env.commitOk commitMsg

/-- The directory an import goes to. -/
def importDirName (url : Str) (directory : Option Str) : Str :=
  (given directory).getD (pathStem (expandUrlShortcut url))

/-- The message of the commit that imports a package. -/
def importMessage (packageName version release branch sha : Str) : Str :=
  "Import ".toList ++ packageName ++ "-".toList ++ versionRelease version release ++
    "\n\nBranch: ".toList ++ branch ++ "\nUpstream: ".toList ++ sha

/-- `import_`, into a directory that is not there. -/
def importInto (env : Env) (dirName url packageName branch : Str) (ref : Option Str) (dryRun : Bool) :
    Tool Unit := do
  let sha ← cloneInto env dirName url branch ref
  let (version, specRelease) ← lift (parseSpecVersion env ((← get).packageDir dirName))
  let release ← importRelease env packageName dirName branch specRelease
  let anityaId ← lift (lookupAnityaProjectId env packageName)
  saveRecord dirName (importedMetadata url branch sha version release anityaId)
  finishImport env dirName (importMessage packageName version release branch sha) dryRun

/-- `import_` -/
def import_ (env : Env) (url branch : Str) (ref directory : Option Str) (dryRun : Bool) : Tool Unit := do
  let dirName := importDirName url directory
  raiseIf ((← get).rpms dirName ≠ none) (.systemExit (.message
    ("ERROR: Package directory rpms/".toList ++ dirName ++ ("/ already exists\n" ++
      "       Use 'sync' or 'update' command to update existing packages.").toList)))
  importInto env dirName (expandUrlShortcut url) (pathStem (expandUrlShortcut url)) branch ref dryRun

end

/-! ## `mark_modified` and `set_upstream` -/

/-- `ERROR: Package … not found` -/
def packageNotFound (package : Str) : Exn :=
  .systemExit (.message ("ERROR: Package ".toList ++ package ++ " not found (missing metadata/".toList ++
    package ++ ".json)".toList))

/-- The reason a package is marked with: the one given, or what is typed at the prompt, `none` at the
end of the input. -/
def askReason (reason answer : Option Str) : Except Exn Str :=
  match given reason with
  | some reason => .ok reason
  | none =>
      match answer with
      | none => exit "\nAborted"
      | some line =>
          if strip line = [] then exit "ERROR: Reason is required when marking as modified"
          else .ok (strip line)

/-- `mark_modified` -/
def markModified (package : Str) (modified : Bool) (reason answer : Option Str) : Tool Unit := do
  match (← get).imports package with
  | none => throw (packageNotFound package)
  | some metadata =>
      if modified then do
        modify fun w => w.setImports package { metadata with modificationStatus := some .modified }
        let reason ← lift (askReason reason answer)
        saveRecord package
          { metadata with modificationStatus := some .modified, modificationReason := some reason }
      else
        saveRecord package
          { metadata with modificationStatus := some .clean, modificationReason := none }

/-- A parameter of `set_upstream`: left as it is (`_UNSET`), removed (`None`), or set. -/
inductive Setting (α : Type) where
  | unset
  | remove
  | set (value : α)

/-- What a setting makes of a field. -/
def Setting.apply {α : Type} (old : Option α) : Setting α → Option α
  | .unset => old
  | .remove => none
  | .set value => some value

/-- `--option VALUE` or `--no-option` -/
def settingOf {α : Type} (parse : Str → α) (value : Option Str) (no : Bool) : Setting α :=
  match value with
  | some s => .set (parse s)
  | none => if no then .remove else .unset

/-- The argument of `--project-id`: an integer where `int()` takes it. -/
def parseProjectId (s : Str) : ProjectId :=
  match parseInt s with
  | some n => .id n
  | none => .name s

/-- `set_upstream` -/
def setUpstream (package : Str) (trackVersion : Setting Str) (projectId : Setting ProjectId) :
    Tool Unit := do
  match (← get).imports package with
  | none => throw (packageNotFound package)
  | some metadata =>
      saveRecord package
        { metadata with
          trackUpstream := trackVersion.apply metadata.trackUpstream
          releaseMonitoringProjectId := projectId.apply metadata.releaseMonitoringProjectId }

/-- The command line of `set-upstream`. -/
structure SetUpstreamArgs where
  trackVersion : Option Str := none
  noTrackVersion : Bool := false
  projectId : Option Str := none
  noProjectId : Bool := false

namespace SetUpstreamArgs

variable (args : SetUpstreamArgs)

def trackSetting : Setting Str := settingOf id args.trackVersion args.noTrackVersion

def projectSetting : Setting ProjectId := settingOf parseProjectId args.projectId args.noProjectId

/-- Whether no flag is given. -/
def isEmpty : Bool :=
  args.trackVersion.isNone && !args.noTrackVersion && args.projectId.isNone && !args.noProjectId

end SetUpstreamArgs

/-! ## `mark_package_modified` -/

/-- The record `mark_package_modified` writes. -/
def packageModified (data : PackageMetadata) (reason : Str) (version : Option Str) : PackageMetadata :=
  let data :=
    if data.modificationStatus = some .independent then data
    else { data with modificationStatus := some .modified, modificationReason := some reason }
  { data with version := version.getD data.version, release := none }

/-- `mark_package_modified` -/
def markPackageModified (package reason : Str) (version : Option Str) : Tool Unit := do
  match (← get).metadata package with
  | none => pure ()
  | some data => modify fun w => w.setMetadata package (packageModified data reason version)

/-- The reason `update_spec_version` gives. -/
def upstreamVersionReason (newVersion : Str) : Str := "Update to upstream version ".toList ++ newVersion

theorem upstreamVersionReason_ne_nil {newVersion : Str} : upstreamVersionReason newVersion ≠ [] :=
  List.append_ne_nil_of_left_ne_nil (by decide) _

/-! ## The commands -/

/-- A command that writes records, with what its command line accepts. -/
inductive RecordCommand where
  | import_ (url branch : Str) (ref directory : Option Str) (dryRun : Bool)
  /-- `update`, without `--continue`; without a package, for all there are, in the order in which
  `imports` lists them. -/
  | update (package : Option Str) (order : List Str) (skipBuildCheck dryRun allowPrerelease : Bool)
      (ref branch : Option Str)
  | sync (package : Str) (dryRun mark : Bool) (ref branch : Option Str)
  /-- `mark-modified`, with what is typed at its prompt. -/
  | markModified (package : Str) (modified : Bool) (reason answer : Option Str)
  | setUpstream (package : Str) (args : SetUpstreamArgs)
  /-- `mark_package_modified`, as `update_spec_version` calls it. -/
  | markPackageModified (package newVersion : Str) (version : Option Str)

section

variable [UnicodeTables]

/-- `for pkg in packages: update(pkg, …)` -/
def updateEach (env : Env) (args : UpdateArgs) : List Str → Tool Unit
  | [] => pure ()
  | package :: packages => do
      update env package args
      updateEach env args packages

namespace RecordCommand

/-- What `main` does with a command. -/
def main (env : Env) : RecordCommand → Tool Unit
  | .import_ url branch ref directory dryRun => HummingbirdRpms.import_ env url branch ref directory dryRun
  | .update package order skipBuildCheck dryRun allowPrerelease ref branch => do
      modify fun w => { w with state := none }
      raiseIf (given branch ≠ none ∧ given package = none) (.systemExit (.message
        "ERROR: --branch requires a package name (cannot change branch for all packages)"))
      updateEach env { skipBuildCheck, dryRun, allowPrerelease, ref, branch }
        (match given package with
          | some package => [package]
          | none => order)
  | .sync package dryRun mark ref branch =>
      HummingbirdRpms.update env package { sync := true, dryRun, mark, ref, branch }
  | .markModified package modified reason answer =>
      HummingbirdRpms.markModified package modified reason answer
  | .setUpstream package args => do
      raiseIf (args.isEmpty = true) (.systemExit (.message
        "ERROR: set-upstream requires at least one flag (e.g. --track-version, --project-id)"))
      HummingbirdRpms.setUpstream package args.trackSetting args.projectSetting
  | .markPackageModified package newVersion version =>
      HummingbirdRpms.markPackageModified package (upstreamVersionReason newVersion) version

/-- The world a command leaves behind, whether it ends well or not. -/
def after (env : Env) (cmd : RecordCommand) (w : World) : World := final (cmd.main env) w.started

end RecordCommand

/-- The world a sequence of commands leaves behind; what they ask the outside may answer otherwise
each time. -/
def afterAll : List (Env × RecordCommand) → World → World
  | [], w => w
  | (env, cmd) :: rest, w => afterAll rest (cmd.after env w)

end

/-! ## What a record is to satisfy -/

/-- A record has a reason that is not empty. -/
def PackageMetadata.HasReason (m : PackageMetadata) : Prop :=
  ∃ reason, m.modificationReason = some reason ∧ reason ≠ []

/-- A well-formed record; `names` are the upstream names its project may be given by instead of a
number. -/
structure RecordOk (names : List Str) (m : PackageMetadata) : Prop where
  status : m.modificationStatus ≠ none
  independent : m.modificationStatus = some .independent →
    m.source = none ∧ m.branch = none ∧ m.sha = none ∧ m.release = none ∧ m.modificationReason = none
  reason : m.HasReason ↔ m.modificationStatus = some .modified
  release : m.release ≠ none → m.source ≠ none
  projectId : ∀ s, m.releaseMonitoringProjectId = some (.name s) → s ∈ names

/-- Every record of the repository is well formed. -/
def RecordsOk (names : List Str) (w : World) : Prop := ∀ p m, w.metadata p = some m → RecordOk names m

/-- A package whose record says that it is independent. -/
def RecordIndependent (w : World) (p : Str) : Prop :=
  ∃ m, w.metadata p = some m ∧ m.modificationStatus = some .independent

/-- A well-formed record of a package that is not independent. -/
def DependentOk (names : List Str) (m : PackageMetadata) : Prop :=
  RecordOk names m ∧ m.modificationStatus ≠ some .independent

section

variable {names names' : List Str} {m : PackageMetadata}

theorem RecordOk.mono (h : RecordOk names m) (hsub : names ⊆ names') : RecordOk names' m :=
  { h with projectId := fun s hs => hsub (h.projectId s hs) }

theorem hasReason_some {reason : Str} :
    { m with modificationReason := some reason }.HasReason ↔ reason ≠ [] := by
  simp [PackageMetadata.HasReason]

theorem not_hasReason_none : ¬ { m with modificationReason := none }.HasReason := by
  rintro ⟨reason, h, -⟩
  exact absurd h (by simp)

/-- A record marked as clean is well formed. -/
theorem DependentOk.clean (h : RecordOk names m) : DependentOk names
    { m with modificationStatus := some .clean, modificationReason := none } := by
  refine ⟨⟨by simp, by simp, ?_, h.release, h.projectId⟩, by simp⟩
  simpa using not_hasReason_none (m := { m with modificationStatus := some .clean })

/-- A record marked as modified for a reason that is not empty is well formed. -/
theorem DependentOk.modified (h : RecordOk names m) {reason : Str} (hr : reason ≠ []) :
    DependentOk names
      { m with modificationStatus := some .modified, modificationReason := some reason } := by
  refine ⟨⟨by simp, by simp, ?_, h.release, h.projectId⟩, by simp⟩
  simpa using (hasReason_some (m := { m with modificationStatus := some .modified })).mpr hr

/-- An update keeps the record of a package with a source well formed. -/
theorem DependentOk.updated {t : Target} {plan : UpdatePlan} {sync : Bool}
    (h : DependentOk names t.metadata) (hsource : t.metadata.source ≠ none) :
    DependentOk names (updatedMetadata t plan sync) := by
  unfold updatedMetadata
  cases hreset : sync || !plan.hasModifications with
  | true =>
      refine ⟨⟨by simp, by simp, ?_, fun _ => hsource, h.1.projectId⟩, by simp⟩
      simp [PackageMetadata.HasReason]
  | false =>
      exact ⟨⟨h.1.status, fun hi => absurd hi h.2, h.1.reason, fun _ => hsource, h.1.projectId⟩, h.2⟩

theorem DependentOk.imported {url branch sha version release : Str} {anityaId : Option Int}
    (h : isHummingbirdUrl url = false) :
    DependentOk names (importedMetadata url branch sha version release anityaId) := by
  unfold importedMetadata
  rw [if_neg (by simp [h]), if_neg (by simp [h])]
  refine ⟨⟨by simp, by simp, ?_, by simp, ?_⟩, by simp⟩
  · simp [PackageMetadata.HasReason]
  · intro s hs
    cases anityaId with
    | none => exact absurd hs (by simp)
    | some n => exact absurd hs (by simp)

theorem RecordOk.packageModified {reason : Str} {version : Option Str} (h : RecordOk names m)
    (hr : reason ≠ []) : RecordOk names (packageModified m reason version) := by
  unfold HummingbirdRpms.packageModified
  by_cases hi : m.modificationStatus = some .independent
  · simp only [if_pos hi]
    obtain ⟨hsource, hbranch, hsha, -, hreason⟩ := h.independent hi
    exact ⟨h.status, fun _ => ⟨hsource, hbranch, hsha, rfl, hreason⟩, h.reason, by simp, h.projectId⟩
  · simp only [if_neg hi]
    have hm := (DependentOk.modified h hr).1
    exact ⟨hm.status, by simp, hm.reason, by simp, hm.projectId⟩

theorem packageModified_independent {reason : Str} {version : Option Str}
    (h : m.modificationStatus = some .independent) :
    (packageModified m reason version).modificationStatus = some .independent := by
  simp [packageModified, h]

end

/-! ## What a command writes -/

/-- From `w` to `w'` one package's directory and records may have changed, its records to such that
satisfy `ok`. -/
structure Writes (ok : PackageMetadata → Prop) (p : Str) (w w' : World) : Prop where
  imports : w'.imports = w.imports ∨ ∃ m, ok m ∧ w'.imports = Function.update w.imports p (some m)
  metadata : w'.metadata = w.metadata ∨ ∃ m, ok m ∧ w'.metadata = Function.update w.metadata p (some m)
  rpms : ∀ q ≠ p, w'.rpms q = w.rpms q

namespace Writes

variable {ok : PackageMetadata → Prop} {p : Str} {w w' : World}

instance : Std.Refl (Writes ok p) := ⟨fun _ => ⟨Or.inl rfl, Or.inl rfl, fun _ _ => rfl⟩⟩

theorem update_trans {r r' r'' : Str → Option PackageMetadata}
    (h : r' = r ∨ ∃ m, ok m ∧ r' = Function.update r p (some m))
    (h' : r'' = r' ∨ ∃ m, ok m ∧ r'' = Function.update r' p (some m)) :
    r'' = r ∨ ∃ m, ok m ∧ r'' = Function.update r p (some m) := by
  rcases h' with rfl | ⟨m', hm', rfl⟩
  · exact h
  · rcases h with rfl | ⟨m, -, rfl⟩
    · exact Or.inr ⟨m', hm', rfl⟩
    · exact Or.inr ⟨m', hm', by rw [Function.update_idem]⟩

instance : IsTrans World (Writes ok p) where
  trans := by
    intro w₁ w₂ w₃ h h'
    exact ⟨update_trans h.imports h'.imports, update_trans h.metadata h'.metadata,
      fun q hq => (h'.rpms q hq).trans (h.rpms q hq)⟩

theorem setRpms (t : Tree) : Writes ok p w (w.setRpms p t) :=
  ⟨Or.inl rfl, Or.inl rfl, fun _ hq => Function.update_of_ne hq _ _⟩

theorem setImports {m : PackageMetadata} (hm : ok m) : Writes ok p w (w.setImports p m) :=
  ⟨Or.inr ⟨m, hm, rfl⟩, Or.inl rfl, fun _ _ => rfl⟩

theorem setMetadata {m : PackageMetadata} (hm : ok m) : Writes ok p w (w.setMetadata p m) :=
  ⟨Or.inl rfl, Or.inr ⟨m, hm, rfl⟩, fun _ _ => rfl⟩

theorem of_rpms (himports : w'.imports = w.imports) (hmetadata : w'.metadata = w.metadata)
    (hrpms : w'.rpms = w.rpms) : Writes ok p w w' :=
  ⟨Or.inl himports, Or.inl hmetadata, fun _ _ => congrFun hrpms _⟩

theorem of_touches (h : TouchesPackage p w w') : Writes ok p w w' := by
  obtain ⟨dir, pipeline, es, rfl⟩ := h
  exact ⟨Or.inl rfl, Or.inl rfl, fun _ hq => Function.update_of_ne hq _ _⟩

theorem of_dirAndIndex (h : DirAndIndex p w w') : Writes ok p w w' := by
  obtain ⟨dir, index, rfl⟩ := h
  exact ⟨Or.inl rfl, Or.inl rfl, fun _ hq => Function.update_of_ne hq _ _⟩

end Writes

section

variable {ok : PackageMetadata → Prop} {p : Str} {message : Str} {committed : Bool}

theorem steps_gitCommit : Steps (Writes ok p) (gitCommit committed message) :=
  steps_ite (steps_modify fun _ => Writes.of_rpms rfl rfl rfl) (steps_throw _)

variable {env : Env} {m : PackageMetadata} {names : List Str}

theorem steps_commitPackage (hm : ok m) :
    Steps (Writes ok p) (commitPackage env p (some m) names message) := by
  refine steps_bind (steps_modify fun w => Writes.setMetadata hm) fun _ => ?_
  exact steps_bind (fun w => Writes.of_dirAndIndex (steps_stage w)) fun _ => steps_gitCommit

theorem steps_applyMark {args : UpdateArgs} {t : Target} {version release : Str}
    (hm : ok (markedMetadata t)) :
    Steps (Writes ok p) (applyMark env p args t version release) := by
  refine steps_bind (steps_modify fun w => Writes.setImports hm) fun _ => steps_ite (steps_pure _) ?_
  refine steps_bind (steps_modify fun w => Writes.setMetadata hm) fun _ => ?_
  exact steps_bind (steps_modify fun w => Writes.of_rpms rfl rfl rfl) fun _ => steps_gitCommit

variable [UnicodeTables]

theorem steps_applyUpdate {args : UpdateArgs} {t : Target} {plan : UpdatePlan}
    (hm : ok (updatedMetadata t plan args.sync)) :
    Steps (Writes ok p) (applyUpdate env p args t plan) := by
  refine steps_bind ?_ fun _ => steps_bind (fun w => Writes.of_touches (steps_gorgetStep w)) fun r => ?_
  · refine steps_bind (steps_modify fun w => Writes.setRpms _) fun _ => steps_ite ?_ (steps_pure _)
    exact steps_bind (steps_lift _) fun dir => steps_modify fun w => Writes.setRpms dir
  · refine steps_bind (steps_modify fun w => Writes.setImports hm) fun _ => steps_ite (steps_pure _) ?_
    refine steps_ite ?_ (steps_commitPackage hm)
    exact steps_bind (steps_modify fun w => Writes.of_rpms rfl rfl rfl) fun _ => steps_throw _

theorem steps_importInto {dirName url packageName branch : Str} {ref : Option Str} {dryRun : Bool}
    (hm : ∀ sha version release anityaId,
      ok (importedMetadata url branch sha version release anityaId)) :
    Steps (Writes ok dirName) (importInto env dirName url packageName branch ref dryRun) := by
  refine steps_bind ?_ fun sha => steps_bind steps_get fun w => steps_bind (steps_lift _) fun r =>
    steps_bind ?_ fun release => steps_bind (steps_lift _) fun anityaId => steps_bind ?_ fun _ => ?_
  · refine steps_bind (steps_lift _) fun r => steps_bind (steps_lift _) fun dir =>
      steps_bind (steps_modify fun w => Writes.setRpms _) fun _ => ?_
    split
    · exact steps_pure _
    · refine steps_bind (steps_lift _) fun sha => steps_bind (steps_lift _) fun dir => ?_
      exact steps_bind (steps_modify fun w => Writes.setRpms _) fun _ => steps_pure _
  · refine steps_bind steps_get fun w => steps_bind (steps_lift _) fun auto => ?_
    refine steps_ite (steps_bind (steps_lift _) fun resolved => ?_) (steps_pure _)
    split
    · exact steps_pure _
    · refine steps_bind (steps_lift _) fun dir => ?_
      exact steps_bind (steps_modify fun w => Writes.setRpms _) fun _ => steps_pure _
  · refine steps_modify fun w => ?_
    exact IsTrans.trans _ _ _ (Writes.setMetadata (hm sha r.1 release anityaId))
      (Writes.setImports (hm sha r.1 release anityaId))
  · refine steps_bind steps_raiseIf fun _ => steps_bind steps_raiseIf fun _ => ?_
    refine steps_ite (steps_pure _) (steps_bind ?_ fun _ => steps_gitCommit)
    exact steps_modify fun w => Writes.of_rpms rfl rfl rfl

end

/-! ## What a process keeps -/

/-- A package whose directory is there and whose record says that it is independent. -/
def Independent (w : World) (p : Str) : Prop := w.rpms p ≠ none ∧ RecordIndependent w p

/-- From `w` to `w'` the records stay well formed, and independent packages stay independent. -/
structure Preserves (names : List Str) (w w' : World) : Prop where
  records : RecordsOk names w → RecordsOk names w'
  independent : ∀ p, Independent w p → Independent w' p

theorem Preserves.trans {names : List Str} {w₁ w₂ w₃ : World} (h : Preserves names w₁ w₂)
    (h' : Preserves names w₂ w₃) : Preserves names w₁ w₃ :=
  ⟨fun hw => h'.records (h.records hw), fun p hp => h'.independent p (h.independent p hp)⟩

/-- Within a process, the dictionary is well formed too, and knows every independent package. -/
structure ProcessOk (names : List Str) (w : World) : Prop where
  records : RecordsOk names w
  imports : ∀ p m, w.imports p = some m → RecordOk names m
  independent : ∀ p, RecordIndependent w p →
    ∃ m, w.imports p = some m ∧ m.modificationStatus = some .independent

theorem ProcessOk.started {names : List Str} {w : World} (h : RecordsOk names w) :
    ProcessOk names w.started := ⟨h, h, fun _ hp => hp⟩

section

variable {names : List Str} {p : Str} {w w' : World} {m : PackageMetadata}

theorem recordOk_of_update {r r' : Str → Option PackageMetadata}
    (h : ∀ q m, r q = some m → RecordOk names m)
    (hr : r' = r ∨ ∃ m, DependentOk names m ∧ r' = Function.update r p (some m)) {q : Str}
    (hq : r' q = some m) : RecordOk names m := by
  rcases hr with rfl | ⟨m', hm', rfl⟩
  · exact h q m hq
  · by_cases hqp : q = p
    · subst hqp
      rw [Function.update_self] at hq
      exact Option.some.inj hq ▸ hm'.1
    · rw [Function.update_of_ne hqp] at hq
      exact h q m hq

theorem eq_of_update {r r' : Str → Option PackageMetadata}
    (hr : r' = r ∨ ∃ m, DependentOk names m ∧ r' = Function.update r p (some m)) {q : Str}
    (hq : q ≠ p) : r' q = r q := by
  rcases hr with rfl | ⟨m', -, rfl⟩
  · rfl
  · exact Function.update_of_ne hq _ _

/-- A package whose record has been written as a dependent one is not independent afterwards, unless
it was before. -/
theorem Writes.independent (h : Writes (DependentOk names) p w w') (hp : RecordIndependent w' p) :
    RecordIndependent w p := by
  obtain ⟨m, hm, hi⟩ := hp
  rcases h.metadata with hsame | ⟨m', hm', hnew⟩
  · exact ⟨m, by rw [← hm, hsame], hi⟩
  · rw [hnew, Function.update_self] at hm
    exact absurd (Option.some.inj hm ▸ hi) hm'.2

/-- Writing the records of a package that is not independent keeps a process in order. -/
theorem Writes.processOk (h : Writes (DependentOk names) p w w') (hw : ProcessOk names w)
    (hp : ¬ RecordIndependent w p) : ProcessOk names w' := by
  refine ⟨fun q m hq => recordOk_of_update hw.records h.metadata hq,
    fun q m hq => recordOk_of_update hw.imports h.imports hq, fun q hq => ?_⟩
  by_cases hqp : q = p
  · exact absurd (h.independent (hqp ▸ hq)) hp
  · obtain ⟨m, hm, hi⟩ := hq
    rw [eq_of_update h.metadata hqp] at hm
    rw [eq_of_update h.imports hqp]
    exact hw.independent q ⟨m, hm, hi⟩

theorem Writes.preserves (h : Writes (DependentOk names) p w w') (hp : ¬ Independent w p) :
    Preserves names w w' := by
  refine ⟨fun hw q m hq => recordOk_of_update hw h.metadata hq, ?_⟩
  intro q hq
  have hqp : q ≠ p := by
    intro heq
    exact hp (heq ▸ hq)
  obtain ⟨hdir, m, hm, hi⟩ := hq
  exact ⟨by rwa [h.rpms q hqp], m, by rwa [eq_of_update h.metadata hqp], hi⟩

end

/-! ## The commands -/

section

variable [UnicodeTables] {env : Env} {names : List Str} {w w' : World} {p : Str}

theorem updateDecision_target {args : UpdateArgs} {t : Target} {decision : Decision}
    (h : updateDecision env w p args = .ok decision)
    (hd : (∃ version release, decision = .mark t version release) ∨ ∃ plan, decision = .apply t plan) :
    updateTarget env w p args = .ok (some t) := by
  rcases hd with ⟨version, release, rfl⟩ | ⟨plan, rfl⟩
  · exact (mark_of_decision h).2.1
  · obtain ⟨_, _, _, hplanned⟩ := planned_of_apply h
    exact hplanned.target

/-- An update writes, if anything, the record of its package, which is not independent. -/
theorem update_writes {args : UpdateArgs} (hw : ProcessOk names w) :
    final (update env p args) w = w ∨
      ¬ RecordIndependent w p ∧ Writes (DependentOk names) p w (final (update env p args) w) := by
  cases hdecision : updateDecision env w p args with
  | error e => exact Or.inl (final_of_error (update_of_error hdecision))
  | ok decision =>
      -- whatever is written was decided on a target: a dependent package with a source
      have dependent : ∀ t, updateTarget env w p args = .ok (some t) →
          ¬ RecordIndependent w p ∧ DependentOk names t.metadata ∧ t.metadata.source ≠ none := by
        intro t ht
        obtain ⟨hm, hstatus, hsource, -⟩ := updateTarget_ok ht
        refine ⟨fun hp => ?_, ⟨hw.imports p _ hm, hstatus⟩, by simp [hsource]⟩
        obtain ⟨m, hm', hi⟩ := hw.independent p hp
        exact hstatus (Option.some.inj (hm.symm.trans hm') ▸ hi)
      cases decision with
      | skip => exact Or.inl (final_of_ok (update_of_skip hdecision))
      | mark t version release =>
          obtain ⟨hp, hm, -⟩ := dependent t (updateDecision_target hdecision (Or.inl ⟨_, _, rfl⟩))
          refine Or.inr ⟨hp, ?_⟩
          rw [final, update_of_mark hdecision]
          exact steps_applyMark (DependentOk.clean hm.1) w
      | apply t plan =>
          obtain ⟨hp, hm, hsource⟩ := dependent t (updateDecision_target hdecision (Or.inr ⟨_, rfl⟩))
          refine Or.inr ⟨hp, ?_⟩
          rw [final, update_of_apply hdecision]
          exact steps_applyUpdate (DependentOk.updated hm hsource) w

/-- **Step lemma of `update`**: a process that updates a package stays in order, and what it leaves is
preserved. -/
theorem update_keeps {args : UpdateArgs} (hw : ProcessOk names w) :
    ProcessOk names (final (update env p args) w) ∧ Preserves names w (final (update env p args) w) := by
  rcases @update_writes _ env _ _ p args hw with hsame | ⟨hp, h⟩
  · rw [hsame]
    exact ⟨hw, fun h => h, fun _ h => h⟩
  · exact ⟨h.processOk hw hp, h.preserves fun hi => hp hi.2⟩

theorem updateEach_preserves {args : UpdateArgs} {packages : List Str} (hw : ProcessOk names w) :
    Preserves names w (final (updateEach env args packages) w) := by
  induction packages generalizing w with
  | nil => exact ⟨fun h => h, fun _ h => h⟩
  | cons p packages ih =>
      obtain ⟨hok, hkept⟩ := @update_keeps _ env _ _ p args hw
      cases hrun : update env p args w with
      | error e w' =>
          rw [final_of_error hrun] at hkept
          rwa [updateEach, final_of_error (run_bind_of_error hrun)]
      | ok u w' =>
          rw [final_of_ok hrun] at hok hkept
          rw [updateEach, final, run_bind_of_ok hrun]
          exact hkept.trans (ih hok)

end

section

variable {names : List Str} {w w' : World} {p : Str}

theorem Preserves.of_same (hmetadata : w'.metadata = w.metadata) (hrpms : w'.rpms = w.rpms) :
    Preserves names w w' := by
  refine ⟨fun h => ?_, fun q h => ?_⟩
  · simpa only [RecordsOk, hmetadata] using h
  · simpa only [Independent, RecordIndependent, hmetadata, hrpms] using h

theorem Preserves.after_same {w₁ : World} (h : Preserves names w₁ w')
    (hmetadata : w₁.metadata = w.metadata) (hrpms : w₁.rpms = w.rpms) : Preserves names w w' :=
  (Preserves.of_same hmetadata hrpms).trans h

/-- A record written over another one keeps the rest as it is. -/
theorem Preserves.of_record {m : PackageMetadata}
    (hmetadata : w'.metadata = Function.update w.metadata p (some m)) (hrpms : w'.rpms = w.rpms)
    (hm : RecordOk names m)
    (hi : RecordIndependent w p → m.modificationStatus = some .independent) :
    Preserves names w w' := by
  refine ⟨fun h q m' hq => ?_, fun q h => ?_⟩
  · by_cases hqp : q = p
    · rw [hmetadata, hqp, Function.update_self] at hq
      exact Option.some.inj hq ▸ hm
    · rw [hmetadata, Function.update_of_ne hqp] at hq
      exact h q m' hq
  · obtain ⟨hdir, hrec⟩ := h
    refine ⟨by rwa [hrpms], ?_⟩
    unfold RecordIndependent
    by_cases hqp : q = p
    · rw [hmetadata, hqp, Function.update_self]
      exact ⟨m, rfl, hi (hqp ▸ hrec)⟩
    · rw [hmetadata, Function.update_of_ne hqp]
      exact hrec

theorem askReason_ne_nil {reason answer : Option Str} {r : Str} (h : askReason reason answer = .ok r) :
    r ≠ [] := by
  unfold askReason at h
  split at h
  · rename_i reason' hgiven
    have hr := (Option.filter_eq_some_iff.mp hgiven).2
    rw [← Except.ok.inj h]
    simpa using hr
  · split at h
    · exact absurd h (by simp [exit])
    · split at h
      · exact absurd h (by simp [exit])
      · rename_i hne
        exact Except.ok.inj h ▸ hne

theorem markModified_preserves {modified : Bool} {reason answer : Option Str}
    (hw : RecordsOk names w) (hp : ¬ RecordIndependent w p) :
    Preserves names w (final (markModified p modified reason answer) w.started) := by
  unfold final markModified
  rw [run_bind_of_ok (run_get _)]
  cases hm : w.metadata p with
  | none =>
      have himports : w.started.imports p = none := hm
      simp only [himports]
      exact .of_same rfl rfl
  | some m =>
      have himports : w.started.imports p = some m := hm
      simp only [himports]
      have hok := hw p m hm
      cases modified with
      | false => exact .of_record rfl rfl (DependentOk.clean hok).1 fun hi => absurd hi hp
      | true =>
          rw [if_pos rfl, run_bind_of_ok (run_modify _ _), run_bind]
          cases hreason : askReason reason answer with
          -- the process ends with a changed dictionary, but nothing is written
          | error e => exact .of_same rfl rfl
          | ok r =>
              exact .of_record rfl rfl (DependentOk.modified hok (askReason_ne_nil hreason)).1
                fun hi => absurd hi hp

/-- What a setting of a project makes of a well-formed one, when the upstream names are known. -/
theorem projectSetting_name {args : SetUpstreamArgs} {old : Option ProjectId} {s : Str}
    (hold : ∀ s, old = some (.name s) → s ∈ names)
    (hnames : ∀ s, args.projectId = some s → parseInt s = none → s ∈ names)
    (h : args.projectSetting.apply old = some (.name s)) : s ∈ names := by
  unfold SetUpstreamArgs.projectSetting settingOf at h
  cases hid : args.projectId with
  | none =>
      rw [hid] at h
      dsimp only at h
      split at h
      · exact absurd h (by simp [Setting.apply])
      · exact hold s h
  | some v =>
      rw [hid] at h
      have h := Option.some.inj h
      unfold parseProjectId at h
      split at h
      · exact absurd h (by simp)
      · rename_i hparse
        obtain rfl := ProjectId.name.inj h
        exact hnames v hid hparse

theorem setUpstream_preserves {args : SetUpstreamArgs} (hw : RecordsOk names w)
    (hnames : ∀ s, args.projectId = some s → parseInt s = none → s ∈ names) :
    Preserves names w
      (final (setUpstream p args.trackSetting args.projectSetting) w.started) := by
  unfold final setUpstream
  rw [run_bind_of_ok (run_get _)]
  cases hm : w.metadata p with
  | none =>
      have himports : w.started.imports p = none := hm
      simp only [himports]
      exact .of_same rfl rfl
  | some m =>
      have himports : w.started.imports p = some m := hm
      simp only [himports]
      have hok := hw p m hm
      refine .of_record rfl rfl ⟨hok.status, hok.independent, hok.reason, hok.release, ?_⟩ ?_
      · exact fun s hs => projectSetting_name hok.projectId hnames hs
      · rintro ⟨m', hm', hi⟩
        exact Option.some.inj (hm.symm.trans hm') ▸ hi

theorem markPackageModified_preserves {reason : Str} {version : Option Str} (hw : RecordsOk names w)
    (hr : reason ≠ []) :
    Preserves names w (final (markPackageModified p reason version) w.started) := by
  unfold final markPackageModified
  rw [run_bind_of_ok (run_get _)]
  cases hm : w.metadata p with
  | none =>
      have hmetadata : w.started.metadata p = none := hm
      simp only [hmetadata]
      exact .of_same rfl rfl
  | some m =>
      have hmetadata : w.started.metadata p = some m := hm
      simp only [hmetadata]
      refine .of_record rfl rfl ((hw p m hm).packageModified hr) ?_
      rintro ⟨m', hm', hi⟩
      exact packageModified_independent (Option.some.inj (hm.symm.trans hm') ▸ hi)

end

/-! ## Sequences of commands -/

namespace RecordCommand

/-- A command is neither an import from Hummingbird's own repositories nor `mark-modified` on an
independent package. -/
def Plain (w : World) : RecordCommand → Prop
  | .import_ url _ _ _ _ => isHummingbirdUrl (expandUrlShortcut url) = false
  | .markModified package _ _ _ => ¬ RecordIndependent w package
  | _ => True

/-- The upstream names a command sets: an argument of `--project-id` that is no integer. -/
def projectNames : RecordCommand → List Str
  | .setUpstream _ args => args.projectId.toList.filter fun s => (parseInt s).isNone
  | _ => []

end RecordCommand

/-- Every command of a sequence is plain in the world it runs in. -/
def AllPlain [UnicodeTables] : World → List (Env × RecordCommand) → Prop
  | _, [] => True
  | w, (env, cmd) :: rest => cmd.Plain w ∧ AllPlain (cmd.after env w) rest

/-- The upstream names a sequence of commands sets. -/
def projectNames (commands : List (Env × RecordCommand)) : List Str :=
  commands.flatMap fun c => c.2.projectNames

section

variable [UnicodeTables] {env : Env} {names : List Str} {w : World} {cmd : RecordCommand}

theorem import_preserves {url branch : Str} {ref directory : Option Str} {dryRun : Bool}
    (hurl : isHummingbirdUrl (expandUrlShortcut url) = false) :
    Preserves names w (final (import_ env url branch ref directory dryRun) w.started) := by
  have hrun : final (import_ env url branch ref directory dryRun) w.started =
      if w.rpms (importDirName url directory) ≠ none then w.started
      else final (importInto env (importDirName url directory) (expandUrlShortcut url)
        (pathStem (expandUrlShortcut url)) branch ref dryRun) w.started := final_raiseIf_bind
  rw [hrun]
  split
  · exact .of_same rfl rfl
  · rename_i hdir
    have hwrites : Steps (Writes (DependentOk names) (importDirName url directory))
        (importInto env (importDirName url directory) (expandUrlShortcut url)
          (pathStem (expandUrlShortcut url)) branch ref dryRun) :=
      steps_importInto fun _ _ _ _ => DependentOk.imported hurl
    exact ((hwrites w.started).preserves fun hi => hdir hi.1).after_same rfl rfl

/-- **Step lemma**: a plain command keeps the records well formed and independent packages
independent. -/
theorem after_preserves (hw : RecordsOk names w) (hplain : cmd.Plain w)
    (hnames : cmd.projectNames ⊆ names) : Preserves names w (cmd.after env w) := by
  have hstart := ProcessOk.started hw
  cases cmd with
  | import_ url branch ref directory dryRun => exact import_preserves hplain
  | update package order skipBuildCheck dryRun allowPrerelease ref branch =>
      have hok : ProcessOk names { w.started with state := none } :=
        ⟨hstart.records, hstart.imports, hstart.independent⟩
      show Preserves names w (final (raiseIf _ _ >>= fun _ => updateEach env _ _)
        { w.started with state := none })
      rw [final_raiseIf_bind]
      split
      · exact .of_same rfl rfl
      · exact (updateEach_preserves hok).after_same rfl rfl
  | sync package dryRun mark ref branch =>
      exact (update_keeps hstart).2.after_same rfl rfl
  | markModified package modified reason answer => exact markModified_preserves hw hplain
  | setUpstream package args =>
      show Preserves names w (final (raiseIf _ _ >>= fun _ => setUpstream package _ _) w.started)
      rw [final_raiseIf_bind]
      split
      · exact .of_same rfl rfl
      · refine setUpstream_preserves hw fun s hs hparse => hnames ?_
        simp [RecordCommand.projectNames, hs, hparse]
  | markPackageModified package newVersion version =>
      exact markPackageModified_preserves hw upstreamVersionReason_ne_nil

/-- Run lemma: what plain commands keep, a sequence of them keeps. -/
theorem afterAll_preserves {commands : List (Env × RecordCommand)} (hw : RecordsOk names w)
    (hplain : AllPlain w commands) (hnames : projectNames commands ⊆ names) :
    Preserves names w (afterAll commands w) := by
  induction commands generalizing w with
  | nil => exact ⟨fun h => h, fun _ h => h⟩
  | cons c rest ih =>
      obtain ⟨env, cmd⟩ := c
      obtain ⟨hcmd, hrest⟩ := List.append_subset.mp hnames
      have hstep := @after_preserves _ env _ _ _ hw hplain.1 hcmd
      exact hstep.trans (ih (hstep.records hw) hplain.2 hrest)

/-- **`metadata_invariant`** — in every sequence of the commands, with what they ask the outside
answering anything each time, every record is well formed after each of them, and a package with its
directory whose record says that it is independent stays so.  The project of a package may be given by
a name that `set-upstream` was given in the sequence. -/
theorem metadata_invariant (w : World) (commands : List (Env × RecordCommand))
    (hw : RecordsOk [] w) (hplain : AllPlain w commands) :
    RecordsOk (projectNames commands) (afterAll commands w) ∧
      ∀ p, Independent w p → Independent (afterAll commands w) p := by
  have hw' : RecordsOk (projectNames commands) w :=
    fun p m hm => (hw p m hm).mono (List.nil_subset _)
  have hrun := afterAll_preserves hw' hplain (List.Subset.refl _)
  exact ⟨hrun.records hw', hrun.independent⟩

end

/-! ### An example repository -/

/-- A package of Fedora's. -/
def bashMetadata : PackageMetadata where
  source := some "https://src.fedoraproject.org/rpms/bash.git"
  branch := some "f42"
  sha := some "old"
  version := "1"
  release := some "1"
  modificationStatus := some .clean

/-- An independent package. -/
def filesMetadata : PackageMetadata where
  version := "1"
  modificationStatus := some .independent

/-- A repository of two packages, with directories or, where `dirs` is false, with records only. -/
def bashWorld (dirs : Bool) : World :=
  { World.empty with
    metadata := fun p =>
      if p = "bash".toList then some bashMetadata
      else if p = "files".toList then some filesMetadata else none
    rpms := fun _ => if dirs then some ∅ else none }

theorem bashMetadata_ok : RecordOk [] bashMetadata := by
  refine ⟨by decide, by decide, ?_, by decide, by simp [bashMetadata]⟩
  simp [PackageMetadata.HasReason, bashMetadata]

theorem filesMetadata_ok : RecordOk [] filesMetadata := by
  refine ⟨by decide, by decide, ?_, by decide, by simp [filesMetadata]⟩
  simp [PackageMetadata.HasReason, filesMetadata]

theorem bashWorld_ok {dirs : Bool} : RecordsOk [] (bashWorld dirs) := by
  intro p m hm
  dsimp only [bashWorld] at hm
  split at hm
  · exact Option.some.inj hm ▸ bashMetadata_ok
  · split at hm
    · exact Option.some.inj hm ▸ filesMetadata_ok
    · exact absurd hm (by simp)

/-- Fedora's dist-git, with one commit of each package. -/
def importEnv : Env :=
  { Env.offline with
    clone := fun _ _ _ => some
      { tip := fun _ => some "new"
        revParse := fun _ => none
        tree := fun _ => some (Tree.ofList [("files.spec", .text "Name: files\n")])
        mergeBase := fun _ _ => none }
    rpmspec := fun _ _ => .exited 0 "2\n1\n" []
    anityaId := fun _ => .ok 42
    jinja2Ok := true
    generateOk := true
    commitOk := true }

/-- A sequence that marks `bash` as modified, names its project, takes a new version of `files` and
imports `zsh`. -/
def exampleCommands : List (Env × RecordCommand) :=
  [(Env.offline, .markModified "bash" true none (some "local patch\n")),
    (Env.offline, .setUpstream "bash" { projectId := some "gnu-bash" }),
    (Env.offline, .markPackageModified "files" "2" (some "2")),
    (importEnv, .import_ "fedora/zsh" "f42" none none false)]

theorem exampleCommands_plain {w : World} [UnicodeTables] (h : w.metadata "bash" = some bashMetadata) :
    AllPlain w exampleCommands := by
  refine ⟨?_, trivial, trivial, ?_, trivial⟩
  · rintro ⟨m, hm, hi⟩
    obtain rfl := Option.some.inj (h.symm.trans hm)
    exact absurd hi (by decide)
  · show isHummingbirdUrl (expandUrlShortcut "fedora/zsh") = false
    decide

theorem metadata_invariant_commands :
    letI := asciiTables
    RecordsOk [] (bashWorld true) ∧ AllPlain (bashWorld true) exampleCommands ∧
      RecordsOk ["gnu-bash"] (afterAll exampleCommands (bashWorld true)) ∧
      Independent (afterAll exampleCommands (bashWorld true)) "files" := by
  let _ := asciiTables
  have hplain := exampleCommands_plain (w := bashWorld true) rfl
  obtain ⟨hrecords, hindependent⟩ :=
    metadata_invariant (bashWorld true) exampleCommands bashWorld_ok hplain
  refine ⟨bashWorld_ok, hplain, hrecords, hindependent _ ⟨by simp [bashWorld], filesMetadata, ?_, rfl⟩⟩
  decide

/-- `set-upstream` writes a project that is not a number, and an import where a record is left over
makes an independent record another one. -/
theorem metadata_not_invariant :
    letI := asciiTables
    (RecordsOk [] (bashWorld true) ∧
      ¬ RecordsOk [] (afterAll [(Env.offline, .setUpstream "bash" { projectId := some "gnu-bash" })]
        (bashWorld true))) ∧
    (RecordsOk [] (bashWorld false) ∧ RecordIndependent (bashWorld false) "files" ∧
      ¬ RecordIndependent (afterAll [(importEnv, .import_ "fedora/files" "f42" none none false)]
        (bashWorld false)) "files") := by
  let _ := asciiTables
  refine ⟨⟨bashWorld_ok, fun h => ?_⟩, bashWorld_ok, ⟨filesMetadata, by decide, rfl⟩, ?_⟩
  · have hm : (afterAll [(Env.offline, .setUpstream "bash" { projectId := some "gnu-bash" })]
        (bashWorld true)).metadata "bash" =
          some { bashMetadata with releaseMonitoringProjectId := some (.name "gnu-bash") } := by
      decide +kernel
    exact absurd ((h _ _ hm).projectId _ rfl) (by simp)
  · rintro ⟨m, hm, hi⟩
    have hclean : ((afterAll [(importEnv, .import_ "fedora/files" "f42" none none false)]
        (bashWorld false)).metadata "files").map (·.modificationStatus) = some (some .clean) := by
      decide +kernel
    rw [hm, Option.map_some, hi] at hclean
    exact absurd hclean (by decide)

end HummingbirdRpms
