/-
# HummingbirdRpms.UpstreamVersion — a package taken to a new upstream version.

`update_spec_version` of `ci/check_upstream_versions.py`, with `_load_update_hooks`.  It works in
phases: the spec file is updated, by a hook or through the specfile library; the sources are fetched, by
gorget, by a hook or from the URLs the spec declares; another hook may follow; and at the end the record
of the package is marked as modified, with the version the spec file now resolves to.

**`steps_updateSpecVersion`**: however it ends, it has touched the directory and the record of its
package, and the log, and nothing else.
-/
import HummingbirdRpms.Metadata
import HummingbirdRpms.Sources

namespace HummingbirdRpms

open Lib Lib.Text Lib.Exec

/-! ## The hooks of a package -/

/-- The commands of `update-hooks.yaml`, as they stand there. -/
structure UpdateHooks where
  updateSpec : Value
  downloadSources : Value
  postUpdate : Value

/-- `_VALID_HOOK_PHASES` -/
def validHookPhases : List Str := ["update_spec", "download_sources", "post_update"]

/-- `type(v).__name__`; a number's is read off its `repr`. -/
def Value.typeName : Value → Str
  | .none => "NoneType"
  | .bool _ => "bool"
  | .num _ r =>
      if startsWith "datetime.datetime(" r then "datetime"
      else if startsWith "datetime.date(" r then "date"
      else if (parseInt r).isSome then "int" else "float"
  | .str _ => "str"
  | .list _ => "list"
  | .dict _ => "dict"

/-- The path of a package's hooks. -/
def hooksPath (package : Str) : Str := "metadata/".toList ++ package ++ ".update-hooks.yaml".toList

/-- `_load_update_hooks`, on what the path of the hooks holds. -/
def loadUpdateHooks (env : Env) (package : Str) (hooksFile : Option File) :
    Except Exn (Option UpdateHooks) :=
  match hooksFile with
  | none => .ok none
  | some file => do
      match ← env.safeLoad (← decodeText (hooksPath package) file) with
      | .dict entries =>
          let unknown := ((entries.map (·.1)).filter (!validHookPhases.contains ·)).dedup
          failIf (unknown ≠ []) (.raised .valueError (hooksPath package ++ ": unknown hook phase(s): ".toList ++
            join ", " (unknown.insertionSort (· ≤ ·))))
          return some ⟨Value.entry "update_spec" entries, Value.entry "download_sources" entries,
            Value.entry "post_update" entries⟩
      | data => .error (.raised .valueError (hooksPath package ++ ": expected a YAML mapping, got ".toList ++
          data.typeName))

/-- The command of a hook, if there is one: what is no string has no `rstrip`. -/
def hookCommand (hook : Value) : Except Exn (Option Str) :=
  if !hook.truthy then .ok none
  else
    match hook with
    | .str command => .ok (some command)
    | data => .error (.raised .attributeError
        ("'".toList ++ data.typeName ++ "' object has no attribute 'rstrip'".toList))

/-! ## Spec files -/

/-- The specfile library: a spec file it has loaded is its text. -/
structure SpecLibrary where
  /-- `Specfile(spec_file, sourcedir=package_dir)` -/
  load : Tree → Path → Except Exn Str
  expandedVersion : Tree → Str → Except Exn Str
  /-- `tags.version.value` -/
  versionTag : Str → Except Exn Str
  hasAutorelease : Str → Except Exn Bool
  updateTag : (tag value : Str) → Str → Except Exn Str
  updateVersion : (version : Str) → Tree → Str → Except Exn Str

section

variable [UnicodeTables]

/-- `parse_spec_version_release` -/
def parseSpecVersionRelease (env : Env) (packageDir : Tree) : Except Exn (Option (Str × Str)) :=
  match packageDir.glob ".spec" with
  | [specFile] => do
      let result ← (env.rpmspec packageDir specFile).run
      if result.returncode ≠ 0 then return none
      else
        match (strip result.stdout).splitOn '\n' with
        | version :: release :: _ => return if version = [] then none else some (version, release)
        | _ => return none
  | _ => .ok none

/-- The version before an update whose spec file a hook updates. -/
def versionBefore (env : Env) (w : World) (package newVersion : Str) : Except Exn Str :=
  match given ((w.metadata package).map (·.version)) with
  | some version => .ok version
  | none => do return ((← parseSpecVersionRelease env (w.packageDir package)).map (·.1)).getD newVersion

/-- The spec file updated through the specfile library: the version before, and the new text. -/
def specUpdate (lib : SpecLibrary) (packageDir : Tree) (specFile : Path) (newVersion : Str) :
    Except Exn (Str × Str) := do
  let spec ← lib.load packageDir specFile
  let oldVersion ← lib.expandedVersion packageDir spec
  let versionTagValue ← lib.versionTag spec
  let spec ← if versionTagValue = oldVersion then lib.updateTag "Version" newVersion spec
    else lib.updateVersion newVersion packageDir spec
  if ← lib.hasAutorelease spec then return (oldVersion, spec)
  else return (oldVersion, ← lib.updateTag "Release" "0.1%\x7b?dist\x7d" spec)

/-- The first phase: the version before. -/
def updateSpecPhase (env : Env) (lib : SpecLibrary) (package newVersion : Str) (specFile : Path)
    (hook : Value) : Tool Str := do
  let w ← get
  if hook.truthy then do
    let oldVersion ← lift (versionBefore env w package newVersion)
    let command ← lift (hookCommand hook)
    let _ ← runHook env "update_spec" (command.getD []) package oldVersion newVersion
    return oldVersion
  else do
    let (oldVersion, spec) ← lift (specUpdate lib (w.packageDir package) specFile newVersion)
    modify fun w => w.setRpms package ((w.packageDir package).write specFile (.text spec))
    return oldVersion

/-- The second phase: the files that are fetched. -/
def fetchPhase (env : Env) (skipPipeline : Bool) (package oldVersion newVersion : Str) (hook : Value) :
    Tool (List Str) := do
  let w ← get
  match if skipPipeline then none else loadSourcePipeline w package with
  | some file => runGorgetPipeline env package oldVersion newVersion file
  | none => do
      match ← lift (hookCommand hook) with
      | some command => downloadSourcesHook env command package oldVersion newVersion
      | none => downloadNewSources env package oldVersion newVersion

/-- The third phase. -/
def postUpdatePhase (env : Env) (package oldVersion newVersion : Str) (hook : Value) : Tool Unit := do
  match ← lift (hookCommand hook) with
  | some command => do
      let _ ← runHook env "post_update" command package oldVersion newVersion
  | none => pure ()

/-- What the record is told at the end: the version the spec file resolves to. -/
def recordUpdate (env : Env) (package newVersion : Str) : Tool Unit := do
  let resolved ← lift (parseSpecVersionRelease env ((← get).packageDir package))
  markPackageModified package (upstreamVersionReason newVersion)
    (some ((resolved.map (·.1)).getD newVersion))

/-- `update_spec_version`: the names of the files it has fetched. -/
def updateSpecVersion (env : Env) (lib : SpecLibrary) (hooksFile : Option File) (skipPipeline : Bool)
    (package newVersion : Str) : Tool (List Str) := do
  match ((← get).packageDir package).glob ".spec" with
  | [specFile] => do
      let hooks := (← lift (loadUpdateHooks env package hooksFile)).getD ⟨.none, .none, .none⟩
      let oldVersion ← updateSpecPhase env lib package newVersion specFile hooks.updateSpec
      let downloaded ← fetchPhase env skipPipeline package oldVersion newVersion hooks.downloadSources
      postUpdatePhase env package oldVersion newVersion hooks.postUpdate
      recordUpdate env package newVersion
      return downloaded
  | specFiles =>
      throw (.raised .osError ("Expected exactly one .spec file in rpms/".toList ++ package ++
        ", found ".toList ++ ofNat specFiles.length))

end

/-! ## What it touches -/

/-- From `w` to `w'` the directory, the record and the index of a package may have changed, not what the
index holds of its pipeline, and the log may have grown. -/
def WorksOn (p : Str) (w w' : World) : Prop :=
  ∃ dir metadata rpms recorded es, w' = { w with
    rpms := Function.update w.rpms p dir
    metadata := Function.update w.metadata p metadata
    index := Function.update w.index p { w.index p with rpms := rpms, metadata := recorded }
    log := es ++ w.log }

namespace WorksOn

variable {p : Str} {w w' : World}

instance : Std.Refl (WorksOn p) :=
  ⟨fun w => ⟨w.rpms p, w.metadata p, (w.index p).rpms, (w.index p).metadata, [], by simp⟩⟩

instance : IsTrans World (WorksOn p) where
  trans := by
    rintro _ _ _ ⟨dir₁, m₁, rpms₁, recorded₁, es₁, rfl⟩ ⟨dir₂, m₂, rpms₂, recorded₂, es₂, rfl⟩
    exact ⟨dir₂, m₂, rpms₂, recorded₂, es₂ ++ es₁, by simp⟩

theorem of_dirAndLog (h : DirAndLog p w w') : WorksOn p w w' := by
  obtain ⟨dir, es, rfl⟩ := h
  exact ⟨dir, w.metadata p, (w.index p).rpms, (w.index p).metadata, es, by simp⟩

theorem setMetadata (m : PackageMetadata) : WorksOn p w (w.setMetadata p m) :=
  ⟨w.rpms p, some m, (w.index p).rpms, (w.index p).metadata, [], by simp [World.setMetadata]⟩

theorem setIndex {t : Tracked} (h : t.pipeline = (w.index p).pipeline) : WorksOn p w (w.setIndex p t) := by
  obtain ⟨rpms, metadata, pipeline⟩ := t
  obtain rfl : pipeline = (w.index p).pipeline := h
  exact ⟨w.rpms p, w.metadata p, rpms, metadata, [], by simp [World.setIndex]⟩

theorem fetches {env : Env} : Fetches env p (WorksOn p) where
  setRpms _ t := of_dirAndLog (DirAndLog.setRpms t)
  upload filepath hashtype w := of_dirAndLog (DirAndLog.fetches.upload filepath hashtype w)
  gorget w pipelineFile sources :=
    have hfetches : Fetches env p (DirAndLog p) := DirAndLog.fetches
    of_dirAndLog (hfetches.gorget w pipelineFile sources)

end WorksOn

section

variable [UnicodeTables] {env : Env} {lib : SpecLibrary} {package newVersion oldVersion : Str}

omit [UnicodeTables] in
theorem steps_updateSpecPhase {specFile : Path} {hook : Value} :
    Steps (WorksOn package) (updateSpecPhase env lib package newVersion specFile hook) := by
  refine steps_bind steps_get fun w => steps_ite ?_ ?_
  · refine steps_bind (steps_lift _) fun old => steps_bind (steps_lift _) fun command => ?_
    exact steps_bind WorksOn.fetches.runHook fun _ => steps_pure _
  · refine steps_bind (steps_lift _) fun r => ?_
    have hfetches : Fetches env package (WorksOn package) := WorksOn.fetches
    exact steps_bind (steps_modify fun w => hfetches.setRpms w _) fun _ => steps_pure _

theorem steps_fetchPhase {skipPipeline : Bool} {hook : Value} :
    Steps (WorksOn package) (fetchPhase env skipPipeline package oldVersion newVersion hook) := by
  refine steps_bind steps_get fun w => ?_
  split
  · exact WorksOn.fetches.runGorgetPipeline
  · refine steps_bind (steps_lift _) fun command => ?_
    split
    · exact WorksOn.fetches.downloadSourcesHook
    · exact WorksOn.fetches.downloadNewSources

omit [UnicodeTables] in
theorem steps_postUpdatePhase {hook : Value} :
    Steps (WorksOn package) (postUpdatePhase env package oldVersion newVersion hook) := by
  refine steps_bind (steps_lift _) fun command => ?_
  split
  · exact steps_bind WorksOn.fetches.runHook fun _ => steps_pure _
  · exact steps_pure _

omit [UnicodeTables] in
theorem steps_recordUpdate : Steps (WorksOn package) (recordUpdate env package newVersion) := by
  refine steps_bind steps_get fun w => steps_bind (steps_lift _) fun resolved => ?_
  refine steps_bind steps_get fun w => ?_
  split
  · exact steps_pure _
  · exact steps_modify fun w => WorksOn.setMetadata _

/-- **`steps_updateSpecVersion`** — however it ends, `update_spec_version` has touched the directory and
the record of its package, and the log. -/
theorem steps_updateSpecVersion {hooksFile : Option File} {skipPipeline : Bool} :
    Steps (WorksOn package)
      (updateSpecVersion env lib hooksFile skipPipeline package newVersion) := by
  refine steps_bind steps_get fun w => ?_
  split
  · refine steps_bind (steps_lift _) fun hooks => steps_bind steps_updateSpecPhase fun old => ?_
    refine steps_bind steps_fetchPhase fun downloaded => steps_bind steps_postUpdatePhase fun _ => ?_
    exact steps_bind steps_recordUpdate fun _ => steps_pure _
  · exact steps_throw _

end

end HummingbirdRpms
