/-
# HummingbirdRpms.Sources — every place that uploads the sources of a package.

Besides gorget, three parts of `ci/check_upstream_versions.py` upload: `download_new_sources`, which
fetches the remote sources a spec declares, `_regenerate_vendor_archive`, which it calls, and the
`download_sources` hook of `update_spec_version`, whose output names files to upload.  All of them go
through `_upload_to_lookaside`.  The CVE helper uploads nothing itself: it prints the commands.

**`ownBucket_iff`** — for a package with a cache URL of its own, every upload of a part of
`ci/check_upstream_versions.py` names the bucket of that URL, and there is none when the URL has no
bucket; the commands the CVE helper prints never do.
-/
import HummingbirdRpms.Gorget

namespace HummingbirdRpms

open Lib Lib.Text Lib.Exec

/-! ## Small steps the parts share -/

/-- `_download_file(url, directory / name)` -/
def downloadFile (env : Env) (package url : Str) (name : Path) : Tool Unit := do
  let got := env.download url
  let content ← lift got.response
  let dir := (← get).packageDir package
  raiseIf (dir.writable name = false) (.raised .osError name)
  modify fun w => w.setRpms package (dir.write name content)
  lift (got.broken.elim (.ok ()) .error)

/-- `_compute_file_hash(directory / name, algo)` -/
def computeFileHash (env : Env) (dir : Tree) (name : Path) (algo : Str) : Except Exn Str :=
  match dir.read name with
  | some f => env.fileHash (lowerAscii algo) f
  | none => .error (.raised .osError name)

/-- The text a failed program is reported with. -/
def failureText (c : Completed) : Str :=
  if strip c.stderr = [] then strip c.stdout else strip c.stderr

/-- `_get_spec_source_urls` -/
def specSourceUrls (specSources : List (Nat × Str)) : List (Nat × Str) :=
  specSources.filter fun s =>
    startsWith "http://" s.2 || startsWith "https://" s.2 || startsWith "ftp://" s.2

/-- The first entry that satisfies `p`, replaced. -/
def replaceFirst (p : SourceEntry → Bool) (f : SourceEntry → SourceEntry) :
    List SourceEntry → List SourceEntry
  | [] => []
  | e :: es => if p e then f e :: es else e :: replaceFirst p f es

/-! ## `_regenerate_vendor_archive` -/

/-- The entry of a vendor archive. -/
def isVendorEntry (e : SourceEntry) : Bool := contains "-vendor.tar." e.filename

/-- The part of `_regenerate_vendor_archive` from the `go_vendor_archive` run on. -/
def createVendorArchive (env : Env) (package : Str) (specFile : Path) (vendorEntry : SourceEntry)
    (newVendorFilename : Str) : Tool Str := do
  let run := env.goVendorArchive ((← get).packageDir package) specFile
  modify fun w => w.setRpms package run.dir
  let result ← lift run.proc.run
  raiseIf (result.returncode ≠ 0) (.raised .runtimeError
    ("go_vendor_archive create failed (exit ".toList ++ ofInt result.returncode ++ "): ".toList ++
      failureText result))
  raiseIf (run.dir.present newVendorFilename = false) (.raised .osError
    ("go_vendor_archive did not produce ".toList ++ newVendorFilename))
  uploadToLookaside env (packagePath package newVendorFilename) package vendorEntry.algo
  let newHash ← lift (computeFileHash env run.dir newVendorFilename vendorEntry.algo)
  unlinkAll package
    (if vendorEntry.filename = newVendorFilename then [] else [vendorEntry.filename])
  return newHash

/-- `_regenerate_vendor_archive`: the new file name, if there is one, and the entries with the vendor
entry updated. -/
def regenerateVendorArchive (env : Env) (package oldVersion newVersion : Str)
    (entries : List SourceEntry) : Tool (Option Str × List SourceEntry) := do
  let dir := (← get).packageDir package
  if dir.present "go-vendor-tools.toml" = false then return (none, entries)
  else
    match entries.find? isVendorEntry, dir.glob ".spec" with
    | some vendorEntry, [specFile] => do
        let newVendorFilename := replace oldVersion newVersion vendorEntry.filename
        let newHash ← createVendorArchive env package specFile vendorEntry newVendorFilename
        return (some newVendorFilename, replaceFirst isVendorEntry
          (fun e => { e with filename := newVendorFilename, hash := newHash }) entries)
    | _, _ => return (none, entries)

/-! ## `download_new_sources` -/

/-- The loop over the URLs: the entries it adds, and the names it downloaded. -/
def downloadEach (env : Env) (package : Str) (sourcesFilenames : List Str) :
    List (Nat × Str) → Tool (List SourceEntry)
  | [] => pure []
  | (_, url) :: urls => do
      if sourcesFilenames.contains (basename url) then downloadEach env package sourcesFilenames urls
      else
        downloadFile env package url (basename url)
        uploadToLookaside env (packagePath package (basename url)) package "SHA512"
        let hash ← lift (computeFileHash env ((← get).packageDir package) (basename url) "SHA512")
        let added ← downloadEach env package sourcesFilenames urls
        return ⟨"SHA512", basename url, hash⟩ :: added

/-- `sources_path.write_text` -/
def writeSources (package : Str) (entries : List SourceEntry) : Tool Unit :=
  modify fun w => w.setRpms package
    ((w.packageDir package).write sourcesName (.text (renderSources entries)))

section

variable [UnicodeTables]

/-- The names of `sources_filenames` that neither the spec nor a vendor entry still names, sorted. -/
def staleSources (sourcesFilenames specFilenames : List Str) (entries : List SourceEntry) :
    List Str :=
  ((sourcesFilenames.filter fun n =>
    !specFilenames.contains n &&
      !((entries.filter isVendorEntry).map (·.filename)).contains n).dedup).insertionSort (· ≤ ·)

/-- The part of `download_new_sources` that fetches. -/
def fetchSources (env : Env) (package oldVersion newVersion : Str) (sourcesEntries : List SourceEntry)
    (urls : List (Nat × Str)) : Tool (List Str) := do
  let sourcesFilenames := sourcesEntries.map (·.filename)
  let added ← downloadEach env package sourcesFilenames urls
  let (vendorFile, entries) ←
    regenerateVendorArchive env package oldVersion newVersion (sourcesEntries ++ added)
  let downloaded := added.map (·.filename) ++ vendorFile.toList
  let stale := staleSources sourcesFilenames (urls.map fun u => basename u.2) entries
  unlinkAll package stale
  if downloaded = [] ∧ stale = [] then return downloaded
  else
    writeSources package (entries.filter fun e => !stale.contains e.filename)
    return downloaded

/-- `download_new_sources` -/
def downloadNewSources (env : Env) (package oldVersion newVersion : Str) : Tool (List Str) := do
  let dir := (← get).packageDir package
  match dir.glob ".spec" with
  | [specFile] => do
      let sourcesEntries ← lift (parseSourcesFile dir sourcesName)
      let specSources ← lift (env.specSources dir specFile)
      let urls := specSourceUrls specSources
      if sourcesEntries = [] ∨ urls ≠ [] then
        fetchSources env package oldVersion newVersion sourcesEntries urls
      else
        let declared := specSources.map fun s => basename s.2
        let unexplained := ((sourcesEntries.map (·.filename)).dedup).filter (!declared.contains ·)
        raiseIf (unexplained ≠ []) (.raised .runtimeError
          (package ++ ": source discovery returned no remote URLs; refusing to remove ".toList ++
            ofNat unexplained.length ++ " existing source entries not declared in the spec".toList))
        return []
  | _ => return []

/-! ## The `download_sources` hook -/

/-- `_run_hook`: what the command printed. -/
def runHook (env : Env) (hookName command package oldVersion newVersion : Str) : Tool Str := do
  let dir := (← get).packageDir package
  let run := env.hook
    { command, package, oldVersion, newVersion, specFile := ((dir.glob ".spec").head?).getD [] } dir
  modify fun w => w.setRpms package run.dir
  let result ← lift run.proc.run
  let details := strip result.stdout
  raiseIf (result.returncode ≠ 0) (.raised .runtimeError
    (package ++ ": ".toList ++ hookName ++ " hook failed (exit ".toList ++ ofInt result.returncode ++
      ")".toList ++ if details = [] then [] else ": ".toList ++ details))
  return result.stdout

/-- The entries after a file the hook listed has been uploaded. -/
def recordHookFile (oldVersion newVersion filename hash : Str) (entries : List SourceEntry) :
    List SourceEntry :=
  let listed := fun e : SourceEntry =>
    e.filename = filename || e.filename = replace newVersion oldVersion filename
  if entries.any listed then replaceFirst listed (fun e => { e with filename, hash }) entries
  else entries ++ [⟨"SHA512", filename, hash⟩]

/-- The loop over the files the hook listed. -/
def uploadHookFiles (env : Env) (package oldVersion newVersion : Str) :
    List Str → List SourceEntry → Tool (List SourceEntry)
  | [], entries => pure entries
  | filename :: filenames, entries => do
      let dir := (← get).packageDir package
      raiseIf (dir.present filename = false) (.raised .osError
        (package ++ ": download_sources hook listed '".toList ++ filename ++
          "' but the file does not exist".toList))
      uploadToLookaside env (packagePath package filename) package "sha512"
      let hash ← lift (computeFileHash env dir filename "SHA512")
      uploadHookFiles env package oldVersion newVersion filenames
        (recordHookFile oldVersion newVersion filename hash entries)

/-- The `download_sources` branch of `update_spec_version`. -/
def downloadSourcesHook (env : Env) (command package oldVersion newVersion : Str) :
    Tool (List Str) := do
  let stdout ← runHook env "download_sources" command package oldVersion newVersion
  let entries ← lift (parseSourcesFile ((← get).packageDir package) sourcesName)
  let filenames := ((splitlines stdout).map strip).filter (!·.isEmpty)
  let entries ← uploadHookFiles env package oldVersion newVersion filenames entries
  if filenames = [] then return []
  else
    writeSources package entries
    return filenames

end

/-! ## What fetching sources touches -/

namespace Fetches

variable {env : Env} {package : Str} {R : World → World → Prop} [Std.Refl R] [IsTrans World R]

theorem downloadFile {url name : Str} (h : Fetches env package R) :
    Steps R (downloadFile env package url name) := by
  refine steps_bind (steps_lift _) fun content => steps_bind steps_get fun w => ?_
  refine steps_bind steps_raiseIf fun _ => steps_bind (steps_modify fun w => h.setRpms w _) fun _ => ?_
  exact steps_lift _

theorem downloadEach {sourcesFilenames : List Str} {urls : List (Nat × Str)} (h : Fetches env package R) :
    Steps R (downloadEach env package sourcesFilenames urls) := by
  induction urls with
  | nil => exact steps_pure _
  | cons url urls ih =>
      refine steps_ite ih ?_
      refine steps_bind h.downloadFile fun _ => steps_bind (h.upload _ _) fun _ => ?_
      refine steps_bind steps_get fun w => steps_bind (steps_lift _) fun hash => ?_
      exact steps_bind ih fun added => steps_pure _

theorem createVendorArchive {specFile : Path} {vendorEntry : SourceEntry} {newVendorFilename : Str}
    (h : Fetches env package R) :
    Steps R (createVendorArchive env package specFile vendorEntry newVendorFilename) := by
  refine steps_bind steps_get fun w => steps_bind (steps_modify fun w => h.setRpms w _) fun _ => ?_
  refine steps_bind (steps_lift _) fun result => steps_bind steps_raiseIf fun _ => ?_
  refine steps_bind steps_raiseIf fun _ => steps_bind (h.upload _ _) fun _ => ?_
  refine steps_bind (steps_lift _) fun hash => ?_
  exact steps_bind h.unlinkAll fun _ => steps_pure _

theorem regenerateVendorArchive {oldVersion newVersion : Str} {entries : List SourceEntry}
    (h : Fetches env package R) :
    Steps R (regenerateVendorArchive env package oldVersion newVersion entries) := by
  refine steps_bind steps_get fun w => steps_ite (steps_pure _) ?_
  split
  · exact steps_bind h.createVendorArchive fun _ => steps_pure _
  · exact steps_pure _

variable {oldVersion newVersion : Str}

theorem uploadHookFiles {filenames : List Str} {entries : List SourceEntry} (h : Fetches env package R) :
    Steps R (uploadHookFiles env package oldVersion newVersion filenames entries) := by
  induction filenames generalizing entries with
  | nil => exact steps_pure _
  | cons filename filenames ih =>
      refine steps_bind steps_get fun w => steps_bind steps_raiseIf fun _ => ?_
      refine steps_bind (h.upload _ _) fun _ => ?_
      exact steps_bind (steps_lift _) fun _ => ih

theorem runHook {hookName command : Str} (h : Fetches env package R) :
    Steps R (runHook env hookName command package oldVersion newVersion) := by
  refine steps_bind steps_get fun w => steps_bind (steps_modify fun w => h.setRpms w _) fun _ => ?_
  exact steps_bind (steps_lift _) fun _ => steps_bind steps_raiseIf fun _ => steps_pure _

omit [Std.Refl R] [IsTrans World R] in
theorem writeSources {entries : List SourceEntry} (h : Fetches env package R) :
    Steps R (writeSources package entries) := steps_modify fun w => h.setRpms w _

theorem fetchSources {sourcesEntries : List SourceEntry} {urls : List (Nat × Str)}
    (h : Fetches env package R) :
    Steps R (fetchSources env package oldVersion newVersion sourcesEntries urls) := by
  refine steps_bind h.downloadEach fun added => ?_
  refine steps_bind h.regenerateVendorArchive fun vendor => ?_
  refine steps_bind h.unlinkAll fun _ => steps_ite (steps_pure _) ?_
  exact steps_bind h.writeSources fun _ => steps_pure _

variable [UnicodeTables]

theorem downloadNewSources (h : Fetches env package R) :
    Steps R (downloadNewSources env package oldVersion newVersion) := by
  refine steps_bind steps_get fun w => ?_
  dsimp only
  split
  · refine steps_bind (steps_lift _) fun entries => steps_bind (steps_lift _) fun sources => ?_
    refine steps_ite h.fetchSources ?_
    exact steps_bind steps_raiseIf fun _ => steps_pure _
  · exact steps_pure _

theorem downloadSourcesHook {command : Str} (h : Fetches env package R) :
    Steps R (downloadSourcesHook env command package oldVersion newVersion) := by
  refine steps_bind h.runHook fun stdout => steps_bind steps_get fun w => ?_
  refine steps_bind (steps_lift _) fun entries => steps_bind h.uploadHookFiles fun entries => ?_
  refine steps_ite (steps_pure _) ?_
  exact steps_bind h.writeSources fun _ => steps_pure _

end Fetches

/-! ## The parts that upload, and what they upload -/

/-- A part of the repository that runs uploads, or prints them. -/
inductive Uploader where
  | gorget (oldVersion newVersion : Str) (pipelineFile : File)
  | newSources (oldVersion newVersion : Str)
  | vendorArchive (oldVersion newVersion : Str) (entries : List SourceEntry)
  | hook (command oldVersion newVersion : Str)
  | cveHelper (files : List Str)

/-- Whether a command is among the uploads a run of `x` from `w` adds to the log. -/
def UploadedBy {α : Type} (x : Tool α) (w : World) (cmd : UploadCommand) : Prop :=
  ∃ es file, (final x w).log = es ++ w.log ∧ .upload cmd file ∈ es

/-- The uploads of a package that an uploader runs from `w`, or prints. -/
def Uploader.UploadsFor [UnicodeTables] (env : Env) (package : Str) (w : World) (cmd : UploadCommand) :
    Uploader → Prop
  | .gorget old new file => UploadedBy (runGorgetPipeline env package old new file) w cmd
  | .newSources old new => UploadedBy (downloadNewSources env package old new) w cmd
  | .vendorArchive old new entries =>
      UploadedBy (regenerateVendorArchive env package old new entries) w cmd
  | .hook command old new => UploadedBy (downloadSourcesHook env command package old new) w cmd
  | .cveHelper files => cmd ∈ lookasideUploads files package

/-- The bucket the upload script reads out of a command's arguments. -/
def scriptBucket (cmd : UploadCommand) : Option Str := (getopts {} cmd.argv).map (·.bucket)

/-- Every upload of a package whose entry has the cache URL `url` names, in the arguments the script
reads, the bucket of that URL; a URL without a bucket has no upload. -/
def OwnBucket [UnicodeTables] (env : Env) (package : Str) (url : Value) (w : World) (u : Uploader) :
    Prop :=
  ∀ cmd, u.UploadsFor env package w cmd →
    ∃ s bucket, url = .str s ∧ lookasideBucketByCacheUrl.lookup s = some bucket ∧
      scriptBucket cmd = some bucket

theorem scriptBucket_eq (cmd : UploadCommand) : scriptBucket cmd = some cmd.target := by
  rw [scriptBucket, UploadCommand.getopts_argv, Option.map_some]

/-- The bucket of a cache URL is the mapped one. -/
theorem bucketOfCacheUrl_ok {package bucket : Str} {url : Value} (ht : url.truthy = true)
    (h : bucketOfCacheUrl package url = .ok bucket) :
    ∃ s, url = .str s ∧ lookasideBucketByCacheUrl.lookup s = some bucket := by
  unfold bucketOfCacheUrl at h
  rw [ht] at h
  cases url with
  | str s =>
      simp only [Bool.not_true, Bool.false_eq_true, if_false] at h
      cases hs : lookasideBucketByCacheUrl.lookup s with
      | none => simp [hs] at h
      | some b => exact ⟨s, rfl, by simpa [hs] using h⟩
  | _ => simp at h

/-- No mapped bucket is the public one. -/
theorem mapped_ne_default {s bucket : Str} (h : lookasideBucketByCacheUrl.lookup s = some bucket) :
    bucket ≠ defaultLookasideBucket := by
  unfold lookasideBucketByCacheUrl at h
  rw [List.lookup_cons] at h
  split at h
  · obtain rfl := Option.some.inj h
    decide
  · simp at h

section

variable {env : Env} {package : Str} {w : World} {overrides url : Value}

/-- A part that only uploads to the package's own bucket keeps private sources private. -/
theorem ownBucket_of_steps {α : Type} {x : Tool α} (hx : Steps (UploadsToOwnBucket env package) x)
    (hload : loadOverrides env w.overrides = .ok overrides)
    (hurl : cacheUrlOf overrides package = .ok url) (ht : url.truthy = true) {cmd : UploadCommand}
    (h : UploadedBy x w cmd) :
    ∃ s bucket, url = .str s ∧ lookasideBucketByCacheUrl.lookup s = some bucket ∧
      scriptBucket cmd = some bucket := by
  obtain ⟨es, file, hlog, hmem⟩ := h
  obtain ⟨_, es', hlog', hes'⟩ := hx w
  obtain rfl := List.append_cancel_right (hlog.symm.trans hlog')
  obtain ⟨_, bucket, hbucket, hcmd⟩ := hes' cmd file hmem
  rw [getPackageLookasideBucket, hload, except_bind_ok, hurl, except_bind_ok] at hbucket
  obtain ⟨s, rfl, hs⟩ := bucketOfCacheUrl_ok ht hbucket
  refine ⟨s, bucket, rfl, hs, ?_⟩
  rw [scriptBucket_eq, UploadCommand.target, hcmd]
  rfl

variable [UnicodeTables]

/-- **`ownBucket_iff`** — for a package with a cache URL of its own, an uploader keeps to the bucket of
that URL unless it is the CVE helper, printing commands for at least one file. -/
theorem ownBucket_iff (hload : loadOverrides env w.overrides = .ok overrides)
    (hurl : cacheUrlOf overrides package = .ok url) (ht : url.truthy = true) (u : Uploader) :
    OwnBucket env package url w u ↔ ∀ files, u = .cveHelper files → files = [] := by
  cases u with
  | gorget old new file =>
      exact iff_of_true (fun _ => ownBucket_of_steps UploadsToOwnBucket.fetches.runGorgetPipeline hload hurl ht)
        (by simp)
  | newSources old new =>
      exact iff_of_true (fun _ => ownBucket_of_steps UploadsToOwnBucket.fetches.downloadNewSources hload hurl ht) (by simp)
  | vendorArchive old new entries =>
      exact iff_of_true (fun _ => ownBucket_of_steps UploadsToOwnBucket.fetches.regenerateVendorArchive hload hurl ht)
        (by simp)
  | hook command old new =>
      exact iff_of_true (fun _ => ownBucket_of_steps UploadsToOwnBucket.fetches.downloadSourcesHook hload hurl ht) (by simp)
  | cveHelper files =>
      cases files with
      | nil =>
          refine iff_of_true (fun cmd hcmd => ?_) (by simp)
          exact absurd hcmd (List.not_mem_nil)
      | cons src files =>
          refine iff_of_false (fun h => ?_) (by simp)
          -- the first printed command names no bucket, so the script takes its own default
          obtain ⟨s, bucket, _, hs, hbucket⟩ :=
            h ⟨staged src, package, none, none⟩ List.mem_cons_self
          exact mapped_ne_default hs (Option.some.inj hbucket).symm

end

/-- The text of an override that gives a package the private cache. -/
def privateText : Str :=
  "nodejs20-lts:\n  lookaside_cache_url: https://dp9y1t38f72i0.cloudfront.net/\n"

def privateUrl : Value := .str "https://dp9y1t38f72i0.cloudfront.net/"

/-- What it parses to. -/
def privateOverrides : Value :=
  .dict [("nodejs20-lts", .dict [("lookaside_cache_url", privateUrl)])]

/-- A repository with that override, and an environment that parses it. -/
def privateWorld : World := { World.empty with overrides := some (.text privateText) }

def privateEnv : Env :=
  { Env.offline with
    safeLoad := fun t =>
      if t = privateText then .ok privateOverrides else .error (.raised .yamlError "") }

theorem loadOverrides_private :
    loadOverrides privateEnv privateWorld.overrides = .ok privateOverrides := by
  have htext : universalNewlines privateText = privateText := by decide
  have hload : privateEnv.safeLoad (universalNewlines privateText) = .ok privateOverrides := by
    rw [htext]
    simp only [privateEnv, if_true]
  show (do return (← privateEnv.safeLoad (universalNewlines privateText)).orDict) = _
  rw [hload]
  rfl

/-- A private package's downloaded sources stay out of the public bucket. -/
theorem ownBucket_iff_newSources :
    letI := asciiTables
    OwnBucket privateEnv "nodejs20-lts" privateUrl privateWorld (.newSources "20.1" "20.2") := by
  let _ := asciiTables
  exact (ownBucket_iff loadOverrides_private rfl rfl _).mpr fun _ h => Uploader.noConfusion h

/-- The CVE helper prints, for a private package, an upload to the public bucket. -/
theorem cveHelper_prints_public_upload :
    letI := asciiTables
    loadOverrides privateEnv privateWorld.overrides = .ok privateOverrides ∧
      cacheUrlOf privateOverrides "nodejs20-lts" = .ok privateUrl ∧
      ¬ OwnBucket privateEnv "nodejs20-lts" privateUrl privateWorld
        (.cveHelper ["node-v20.tar.xz".toList]) := by
  let _ := asciiTables
  refine ⟨loadOverrides_private, rfl, fun h => ?_⟩
  obtain ⟨s, bucket, _, hs, hbucket⟩ :=
    h ⟨staged "node-v20.tar.xz", "nodejs20-lts", none, none⟩ List.mem_cons_self
  exact mapped_ne_default hs (Option.some.inj hbucket).symm

end HummingbirdRpms
