/-
# HummingbirdRpms.Gorget — running the source pipeline of a package.

`_run_gorget_pipeline` of `ci/check_upstream_versions.py` runs gorget on a pipeline file, copies what
it emitted into the package directory, uploads each file, removes the files the new `sources` no longer
lists and replaces `sources`.  Everything up to the first copy only reads (`gorgetOutput`); from there
on each step is a write that stays when a later one raises.

Main results: a run touches one package directory and the log, and nothing else
(**`steps_runGorgetPipeline`**); what the directory holds after a run that returned
(**`runGorgetPipeline_ok`**); and exactly which of the ways it can raise are neither a `RuntimeError`
nor an `OSError` (**`runGorgetPipeline_unhandled_iff`**).
-/
import Mathlib.Data.List.Sort
import HummingbirdRpms.GitLab
import HummingbirdRpms.Lookaside

namespace HummingbirdRpms

open Lib Lib.Text Lib.Regex Lib.Exec

/-! ## The `sources` file -/

/-- `sources` -/
def sourcesName : Path := "sources"

/-- An entry of a `sources` file. -/
structure SourceEntry where
  algo : Str
  filename : Str
  hash : Str
  deriving DecidableEq

/-- `ALGO (filename) = hash` -/
def SourceEntry.line (e : SourceEntry) : Str :=
  e.algo ++ " (".toList ++ e.filename ++ ") = ".toList ++ e.hash

/-- The text `_write_sources_file` writes. -/
def renderSources (entries : List SourceEntry) : Str :=
  join "\n" (entries.map SourceEntry.line) ++ "\n".toList

/-! ## Copying, uploading and removing -/

/-- The path of a file of a package directory, as the upload script is given it. -/
def packagePath (package filename : Str) : Str :=
  "rpms/".toList ++ package ++ "/".toList ++ filename

/-- One entry of the loop: copy the emitted file into the package directory and upload it. -/
def emitEntry (env : Env) (package : Str) (outputDir : Tree) (entry : SourceEntry) : Tool Unit := do
  raiseIf (outputDir.isFile entry.filename = false) (.raised .runtimeError
    (package ++ ": gorget's sources file references ".toList ++ reprStr entry.filename ++
      " but it was not emitted to /output".toList))
  let dir := (← get).packageDir package
  raiseIf (dir.writable entry.filename = false) (.raised .osError entry.filename)
  modify fun w => w.setRpms package
    (dir.write entry.filename ((outputDir.read entry.filename).getD .dir))
  uploadToLookaside env (packagePath package entry.filename) package entry.algo

/-- `for entry in new_entries` -/
def emitEntries (env : Env) (package : Str) (outputDir : Tree) : List SourceEntry → Tool Unit
  | [] => pure ()
  | entry :: entries => do
      emitEntry env package outputDir entry
      emitEntries env package outputDir entries

/-- `sorted(old_filenames - new_filenames)` -/
def superseded (oldEntries newEntries : List SourceEntry) : List Str :=
  (((oldEntries.map (·.filename)).filter
    (!(newEntries.map (·.filename)).contains ·)).dedup).insertionSort (· ≤ ·)

/-- The loop over stale files: one that exists is unlinked, which a directory does not allow. -/
def unlinkAll (package : Str) : List Path → Tool Unit
  | [] => pure ()
  | name :: names => do
      let dir := (← get).packageDir package
      raiseIf (dir.isDir name) (.raised .osError name)
      modify fun w => w.setRpms package (dir.unlink name)
      unlinkAll package names

/-! ## Reading what gorget emits -/

/-- `report.json` -/
def reportName : Path := "report.json"

/-- The report a gorget run may have left, on a line of its own. -/
def gorgetReport (outputDir : Tree) : Except Exn Str :=
  if outputDir.isFile reportName then do return "\n".toList ++ (← readText outputDir reportName)
  else .ok []

/-- The message of a failed gorget run. -/
def gorgetFailure (package : Str) (outputDir : Tree) (result : Completed) : Except Exn Str := do
  let report ← gorgetReport outputDir
  let details := strip result.stdout
  let suffix := if details = [] then [] else ": ".toList ++ details
  return package ++ ": gorget pipeline failed (exit ".toList ++ ofInt result.returncode ++
    ")".toList ++ suffix ++ report

/-- The `upstream_repo` of a package's metadata file. -/
def upstreamRepoOnDisk (w : World) (package : Str) : Option Str :=
  ((w.metadata package).bind (·.upstreamRepo)).filter (!·.isEmpty)

/-- The gorget run for a package, in a given environment. -/
def gorgetRun (env : Env) (w : World) (package oldVersion newVersion : Str) (pipelineFile : File)
    (environ : Str → Option Str) : GorgetRun :=
  env.gorget
    { package, version := newVersion, oldVersion, packageDir := w.packageDir package, pipelineFile,
      upstreamRepo := upstreamRepoOnDisk w package, environ }

section

variable [UnicodeTables]

/-- `^(\w+)\s+\((.+?)\)\s+=\s+(\w+)$` -/
def sourcesLineRe : Re :=
  Re.seq [.group 1 (Re.some1 isWord), Re.some1 isSpace, .lit "(",
    .group 2 (.cat (.chr (· != '\n')) (.many false (· != '\n'))), .lit ")", Re.some1 isSpace,
    .lit "=", Re.some1 isSpace, .group 3 (Re.some1 isWord), .eos]

/-- The entry a line of a `sources` file gives, if it has the format. -/
def parseSourcesLine (line : Str) : Option SourceEntry :=
  (matchAt sourcesLineRe (strip line) 0).map fun m => ⟨m.group 1, m.group 2, m.group 3⟩

/-- `_parse_sources_file` -/
def parseSourcesFile (t : Tree) (p : Path) : Except Exn (List SourceEntry) :=
  if t.present p then do
    return (splitlines (← readText t p)).filterMap parseSourcesLine
  else .ok []

/-- The entries of the `sources` file gorget emitted. -/
def emittedEntries (package : Str) (outputDir : Tree) : Except Exn (List SourceEntry) := do
  failIf (outputDir.isFile sourcesName = false) (.raised .runtimeError
    (package ++ ": gorget pipeline exited 0 but emitted no 'sources' file".toList))
  let newEntries ← parseSourcesFile outputDir sourcesName
  failIf (newEntries = []) (.raised .runtimeError
    (package ++ ": gorget pipeline emitted an empty 'sources' file (no parseable entries)".toList))
  return newEntries

/-- The part of `_run_gorget_pipeline` before its first write: the gorget run, the check of how it
ended and the entries it emitted. -/
def gorgetOutput (env : Env) (w : World) (package oldVersion newVersion : Str)
    (pipelineFile : File) : Except Exn (Tree × List SourceEntry) := do
  failIf (env.gpgKeysDirOk = false) (.raised .osError "metadata/gpg-keys")
  let environ ← gitCloneEnvForUpstreamRepo env.environ (upstreamRepoOnDisk w package)
  let run := gorgetRun env w package oldVersion newVersion pipelineFile environ
  let result ← run.proc.run
  if result.returncode = 0 then
    return (run.outputDir, ← emittedEntries package run.outputDir)
  else
    throw (.raised .runtimeError (← gorgetFailure package run.outputDir result))

/-- `_run_gorget_pipeline` -/
def runGorgetPipeline (env : Env) (package oldVersion newVersion : Str) (pipelineFile : File) :
    Tool (List Str) := do
  let (outputDir, newEntries) ←
    lift (gorgetOutput env (← get) package oldVersion newVersion pipelineFile)
  emitEntries env package outputDir newEntries
  let oldEntries ← lift (parseSourcesFile ((← get).packageDir package) sourcesName)
  unlinkAll package (superseded oldEntries newEntries)
  modify fun w => (w.setRpms package
    ((w.packageDir package).write sourcesName (.text (renderSources newEntries)))).record
      (.gorget package pipelineFile (renderSources newEntries))
  return newEntries.map (·.filename)

end

/-! ## What a run touches -/

/-- From `w` to `w'` the directory of one package may have changed and the log grown. -/
def DirAndLog (package : Str) (w w' : World) : Prop :=
  ∃ dir es, w' = { w with rpms := Function.update w.rpms package dir, log := es ++ w.log }

namespace DirAndLog

variable {package : Str} {w w' : World}

instance : Std.Refl (DirAndLog package) :=
  ⟨fun w => ⟨w.rpms package, [], by rw [Function.update_eq_self, List.nil_append]⟩⟩

instance : IsTrans World (DirAndLog package) where
  trans := by
    rintro _ _ _ ⟨dir₁, es₁, rfl⟩ ⟨dir₂, es₂, rfl⟩
    exact ⟨dir₂, es₂ ++ es₁, by rw [Function.update_idem, List.append_assoc]⟩

theorem setRpms (t : Tree) : DirAndLog package w (w.setRpms package t) :=
  ⟨some t, [], rfl⟩


theorem of_logGrows (h : LogGrows w w') : DirAndLog package w w' := by
  obtain ⟨es, rfl⟩ := h
  exact ⟨w.rpms package, es, by rw [Function.update_eq_self]⟩

end DirAndLog

/-- A relation that the parts of fetching a package's sources respect: they write the directory of the
package, upload for it, and log what a gorget run has found. -/
structure Fetches (env : Env) (package : Str) (R : World → World → Prop) : Prop where
  setRpms : ∀ w t, R w (w.setRpms package t)
  upload : ∀ filepath hashtype, Steps R (uploadToLookaside env filepath package hashtype)
  gorget : ∀ w pipelineFile sources, R w (w.record (.gorget package pipelineFile sources))

section

variable {env : Env} {package : Str}

theorem DirAndLog.fetches : Fetches env package (DirAndLog package) where
  setRpms _ t := DirAndLog.setRpms t
  upload _ _ w := DirAndLog.of_logGrows (steps_upload_log w)
  gorget _ _ _ := DirAndLog.of_logGrows ⟨[_], rfl⟩

theorem UploadsToOwnBucket.fetches : Fetches env package (UploadsToOwnBucket env package) where
  setRpms _ _ := UploadsToOwnBucket.of_same rfl rfl
  upload _ _ := steps_uploadToLookaside
  gorget _ _ _ := ⟨rfl, [_], rfl, fun _ _ hcmd => absurd (List.mem_singleton.mp hcmd) (by simp)⟩

end

namespace Fetches

variable {env : Env} {package : Str} {R : World → World → Prop} [Std.Refl R] [IsTrans World R]

theorem emitEntry {outputDir : Tree} {entry : SourceEntry} (h : Fetches env package R) :
    Steps R (emitEntry env package outputDir entry) := by
  refine steps_bind steps_raiseIf fun _ => steps_bind steps_get fun w => ?_
  refine steps_bind steps_raiseIf fun _ => steps_bind ?_ fun _ => h.upload _ _
  exact steps_modify fun w => h.setRpms w _

theorem emitEntries {outputDir : Tree} {entries : List SourceEntry} (h : Fetches env package R) :
    Steps R (emitEntries env package outputDir entries) := by
  induction entries with
  | nil => exact steps_pure _
  | cons entry entries ih => exact steps_bind h.emitEntry fun _ => ih

theorem unlinkAll {names : List Path} (h : Fetches env package R) :
    Steps R (unlinkAll package names) := by
  induction names with
  | nil => exact steps_pure _
  | cons name names ih =>
      refine steps_bind steps_get fun w => steps_bind steps_raiseIf fun _ => ?_
      exact steps_bind (steps_modify fun w => h.setRpms w _) fun _ => ih

theorem runGorgetPipeline [UnicodeTables] {oldVersion newVersion : Str} {pipelineFile : File}
    (h : Fetches env package R) :
    Steps R (runGorgetPipeline env package oldVersion newVersion pipelineFile) := by
  refine steps_bind steps_get fun w => steps_bind (steps_lift _) fun out => ?_
  refine steps_bind h.emitEntries fun _ => steps_bind steps_get fun w => ?_
  refine steps_bind (steps_lift _) fun old => steps_bind h.unlinkAll fun _ => ?_
  refine steps_bind (steps_modify fun w => ?_) fun _ => steps_pure _
  exact IsTrans.trans _ _ _ (h.setRpms w _) (h.gorget _ _ _)

end Fetches

section

variable {env : Env} {package : Str} {w w' : World}

theorem steps_emitEntry {outputDir : Tree} {entry : SourceEntry} :
    Steps (DirAndLog package) (emitEntry env package outputDir entry) := DirAndLog.fetches.emitEntry

variable [UnicodeTables] {oldVersion newVersion : Str} {pipelineFile : File}

/-- **`steps_runGorgetPipeline`** — however it ends, a run has touched its package's directory and the
log, and nothing else. -/
theorem steps_runGorgetPipeline :
    Steps (DirAndLog package)
      (runGorgetPipeline env package oldVersion newVersion pipelineFile) :=
  DirAndLog.fetches.runGorgetPipeline

end

/-! ## What a run that returned leaves in the directory -/

/-- A directory after the emitted files have been copied into it. -/
def copied (outputDir : Tree) (entries : List SourceEntry) (dir : Tree) : Tree :=
  entries.foldl
    (fun dir e => dir.write e.filename ((outputDir.read e.filename).getD .dir)) dir

theorem read_copied {outputDir dir : Tree} {entries : List SourceEntry} {q : Path} :
    (copied outputDir entries dir).read q =
      if q ∈ entries.map (·.filename) then some ((outputDir.read q).getD .dir) else dir.read q := by
  induction entries generalizing dir with
  | nil => rfl
  | cons e es ih =>
      rw [copied, List.foldl_cons]
      refine ih.trans ?_
      rw [Tree.read_write]
      by_cases hq : q = e.filename
      · subst hq
        simp
      · simp [hq]

theorem isFile_copied {outputDir dir : Tree} {entries : List SourceEntry}
    (h : ∀ e ∈ entries, outputDir.isFile e.filename = true) {q : Path} :
    (copied outputDir entries dir).isFile q =
      (decide (q ∈ entries.map (·.filename)) || dir.isFile q) := by
  rw [Tree.isFile, read_copied]
  split
  · rename_i hq
    obtain ⟨e, he, rfl⟩ := List.mem_map.mp hq
    have := h e he
    cases hr : outputDir.read e.filename with
    | none => simp [Tree.isFile, hr] at this
    | some f => simpa [Tree.isFile, hr, List.mem_map_of_mem he] using this
  · rename_i hq
    rw [decide_eq_false hq, Bool.false_or]
    rfl

theorem isFile_foldl_unlink {names : List Path} {dir : Tree} {q : Path} :
    (names.foldl Tree.unlink dir).isFile q = (decide (q ∉ names) && dir.isFile q) := by
  induction names generalizing dir with
  | nil => simp
  | cons n names ih =>
      rw [List.foldl_cons, ih, Tree.isFile_unlink]
      by_cases hq : q = n <;> simp [hq]

/-- The directory a run leaves: the emitted files copied in, the superseded ones gone, and `sources`
rewritten. -/
def refreshed (outputDir : Tree) (newEntries oldEntries : List SourceEntry) (dir : Tree) : Tree :=
  ((superseded oldEntries newEntries).foldl Tree.unlink (copied outputDir newEntries dir)).write
    sourcesName (.text (renderSources newEntries))

theorem mem_superseded {oldEntries newEntries : List SourceEntry} {q : Path} :
    q ∈ superseded oldEntries newEntries ↔
      q ∈ oldEntries.map (·.filename) ∧ q ∉ newEntries.map (·.filename) := by
  unfold superseded
  rw [List.mem_insertionSort, List.mem_dedup, List.mem_filter]
  simp

/-- Besides `sources`, the files of the directory afterwards are the emitted ones and those that were
there and are named by no entry of the old `sources`. -/
theorem isFile_refreshed {outputDir dir : Tree} {newEntries oldEntries : List SourceEntry}
    (h : ∀ e ∈ newEntries, outputDir.isFile e.filename = true) {q : Path} (hq : q ≠ sourcesName) :
    (refreshed outputDir newEntries oldEntries dir).isFile q =
      (decide (q ∈ newEntries.map (·.filename)) ||
        (decide (q ∉ oldEntries.map (·.filename)) && dir.isFile q)) := by
  have hw : (refreshed outputDir newEntries oldEntries dir).isFile q =
      ((superseded oldEntries newEntries).foldl Tree.unlink
        (copied outputDir newEntries dir)).isFile q := by
    unfold refreshed Tree.isFile
    rw [Tree.read_write_ne hq]
  rw [hw, isFile_foldl_unlink, isFile_copied h]
  by_cases hnew : q ∈ newEntries.map (·.filename)
  · simp [mem_superseded, hnew]
  · by_cases hold : q ∈ oldEntries.map (·.filename) <;> simp [mem_superseded, hnew, hold]

section

variable {env : Env} {package : Str} {outputDir : Tree} {w w' : World} {u : Unit}

theorem emitEntry_ok {entry : SourceEntry}
    (h : emitEntry env package outputDir entry w = .ok u w') :
    w'.packageDir package = copied outputDir [entry] (w.packageDir package) ∧
      outputDir.isFile entry.filename = true := by
  simp only [emitEntry, bind_ok_iff, raiseIf_ok_iff] at h
  obtain ⟨_, _, ⟨hfile, rfl⟩, _, _, hget, _, _, ⟨_, rfl⟩, _, _, hmod, hup⟩ := h
  obtain ⟨rfl, rfl⟩ := EStateM.Result.ok.inj hget
  obtain ⟨_, rfl⟩ := EStateM.Result.ok.inj hmod
  obtain ⟨es, rfl⟩ := steps_upload_log.ok hup
  refine ⟨?_, by simpa using hfile⟩
  simp [copied, World.packageDir, World.setRpms]

theorem emitEntries_ok {entries : List SourceEntry}
    (h : emitEntries env package outputDir entries w = .ok u w') :
    w'.packageDir package = copied outputDir entries (w.packageDir package) ∧
      ∀ e ∈ entries, outputDir.isFile e.filename = true := by
  induction entries generalizing w with
  | nil =>
      obtain ⟨_, rfl⟩ := EStateM.Result.ok.inj h
      exact ⟨rfl, by simp⟩
  | cons e es ih =>
      obtain ⟨_, _, he, hes⟩ := bind_ok_iff.mp h
      obtain ⟨hdir, hfile⟩ := emitEntry_ok he
      obtain ⟨hdirs, hfiles⟩ := ih hes
      refine ⟨hdirs.trans ?_, List.forall_mem_cons.mpr ⟨hfile, hfiles⟩⟩
      rw [hdir]
      rfl

theorem unlinkAll_ok {names : List Path} (h : unlinkAll package names w = .ok u w') :
    w'.packageDir package = names.foldl Tree.unlink (w.packageDir package) := by
  induction names generalizing w with
  | nil =>
      obtain ⟨_, rfl⟩ := EStateM.Result.ok.inj h
      rfl
  | cons n ns ih =>
      simp only [unlinkAll, bind_ok_iff, raiseIf_ok_iff] at h
      obtain ⟨_, _, hget, _, _, ⟨_, rfl⟩, _, _, hmod, hns⟩ := h
      obtain ⟨rfl, rfl⟩ := EStateM.Result.ok.inj hget
      obtain ⟨_, rfl⟩ := EStateM.Result.ok.inj hmod
      rw [ih hns]
      simp [World.packageDir, World.setRpms]

variable [UnicodeTables] {oldVersion newVersion : Str} {pipelineFile : File} {names : List Str}

/-- What a gorget run that returned has done: the entries it emitted, the names it returned, the
directory and the event it left. -/
structure Refreshed (env : Env) (package oldVersion newVersion : Str) (pipelineFile : File)
    (names : List Str) (w w' : World) (outputDir : Tree) (newEntries oldEntries : List SourceEntry) :
    Prop where
  output : gorgetOutput env w package oldVersion newVersion pipelineFile = .ok (outputDir, newEntries)
  old : parseSourcesFile (copied outputDir newEntries (w.packageDir package)) sourcesName =
    .ok oldEntries
  names : names = newEntries.map (·.filename)
  emitted : ∀ e ∈ newEntries, outputDir.isFile e.filename = true
  dir : w'.packageDir package = refreshed outputDir newEntries oldEntries (w.packageDir package)
  log : ∃ es, w'.log = .gorget package pipelineFile (renderSources newEntries) :: (es ++ w.log)

/-- **`runGorgetPipeline_ok`** — what a run that returned has done. -/
theorem runGorgetPipeline_ok
    (h : runGorgetPipeline env package oldVersion newVersion pipelineFile w = .ok names w') :
    ∃ outputDir newEntries oldEntries,
      Refreshed env package oldVersion newVersion pipelineFile names w w'
        outputDir newEntries oldEntries := by
  simp only [runGorgetPipeline, bind_ok_iff, lift_ok_iff] at h
  obtain ⟨_, _, hget, ⟨out, new⟩, _, ⟨hout, rfl⟩, _, w₁, hemit, _, _, hget', old, _, ⟨hold, rfl⟩, _, w₂,
    hunlink, _, _, hmod, hret⟩ := h
  obtain ⟨rfl, rfl⟩ := EStateM.Result.ok.inj hget
  obtain ⟨rfl, rfl⟩ := EStateM.Result.ok.inj hget'
  obtain ⟨_, rfl⟩ := EStateM.Result.ok.inj hmod
  obtain ⟨rfl, rfl⟩ := EStateM.Result.ok.inj hret
  obtain ⟨hdir, hfiles⟩ := emitEntries_ok hemit
  refine ⟨out, new, old, hout, hdir ▸ hold, rfl, hfiles, ?_, ?_⟩
  · rw [refreshed, ← hdir, ← unlinkAll_ok hunlink]
    simp [World.packageDir, World.setRpms, World.record]
  · obtain ⟨d₁, es₁, rfl⟩ := (DirAndLog.fetches.emitEntries).ok hemit
    have hfetches : Fetches env package (DirAndLog package) := DirAndLog.fetches
    obtain ⟨d₂, es₂, rfl⟩ := hfetches.unlinkAll.ok hunlink
    exact ⟨es₂ ++ es₁, by simp [World.setRpms, World.record]⟩

end

/-! ## Spec files and uploads -/

/-- What a `sources` file parses to depends on nothing but its content. -/
theorem parseSourcesFile_congr [UnicodeTables] {t t' : Tree} {p : Path} {entries : List SourceEntry}
    (hread : t'.read p = t.read p) (h : parseSourcesFile t' p = .ok entries) :
    entries = [] ∨ parseSourcesFile t p = .ok entries := by
  unfold parseSourcesFile at h ⊢
  split at h
  · right
    obtain ⟨text, htext, h⟩ := except_bind_ok_iff.mp h
    rw [readText_congr hread] at htext
    have hpresent : t.present p = true := by
      unfold readText at htext
      cases hf : t.read p with
      | none => simp [hf] at htext
      | some f => cases f <;> simp [Tree.present, Tree.isFile, Tree.isDir, hf, File.isFile]
    rw [if_pos hpresent, htext]
    exact h
  · exact Or.inl (Except.ok.inj h).symm

/-- No entry names a spec file, or a file below a directory named like one. -/
def NoSpecs (entries : List SourceEntry) : Prop :=
  ∀ e ∈ entries, Tree.Outside ".spec" e.filename

theorem sameTop_copied {outputDir dir : Tree} {entries : List SourceEntry} (h : NoSpecs entries) :
    Tree.SameTop ".spec" dir (copied outputDir entries dir) := by
  induction entries generalizing dir with
  | nil => exact Tree.SameTop.refl
  | cons e es ih =>
      obtain ⟨he, hes⟩ := List.forall_mem_cons.mp h
      exact (Tree.SameTop.write he).trans (ih hes)

theorem sameTop_foldl_unlink {names : List Path} {dir : Tree}
    (h : ∀ n ∈ names, Tree.Outside ".spec" n) :
    Tree.SameTop ".spec" dir (names.foldl Tree.unlink dir) := by
  induction names generalizing dir with
  | nil => exact Tree.SameTop.refl
  | cons n ns ih =>
      obtain ⟨hn, hns⟩ := List.forall_mem_cons.mp h
      exact (Tree.SameTop.unlink hn).trans (ih hns)

/-- A run whose entries, old and new, name no spec file leaves the spec files as they are. -/
theorem sameTop_refreshed {outputDir dir : Tree} {newEntries oldEntries : List SourceEntry}
    (hnew : NoSpecs newEntries) (hold : NoSpecs oldEntries) :
    Tree.SameTop ".spec" dir (refreshed outputDir newEntries oldEntries dir) := by
  refine ((sameTop_copied hnew).trans (sameTop_foldl_unlink fun n hn => ?_)).trans
    (Tree.SameTop.write (by decide))
  obtain ⟨e, he, rfl⟩ := List.mem_map.mp (mem_superseded.mp hn).1
  exact hold e he

/-- What is emitted, and what the package's `sources` lists, are archives and not spec files. -/
structure ArchivesOnly [UnicodeTables] (env : Env) (packageDir : Tree) : Prop where
  emitted : ∀ cmd entries,
    parseSourcesFile (env.gorget cmd).outputDir sourcesName = .ok entries → NoSpecs entries
  listed : ∀ entries, parseSourcesFile packageDir sourcesName = .ok entries → NoSpecs entries

/-! ## How a run can raise -/

theorem unhandled_gorgetFailure {package : Str} {outputDir : Tree} {result : Completed} :
    Unhandled (gorgetFailure package outputDir result) ↔
      ∃ b, outputDir.read reportName = some (.bytes b) := by
  simp only [gorgetFailure, unhandled_bind, except_pure, not_unhandled_ok, and_false, exists_false,
    or_false]
  unfold gorgetReport
  split
  · simp [unhandled_bind, unhandled_readText]
  · rename_i hfile
    refine iff_of_false (not_unhandled_ok _) ?_
    rintro ⟨b, hb⟩
    exact hfile (Tree.isFile_of_read hb rfl)

section

variable [UnicodeTables] {env : Env} {w : World} {package oldVersion newVersion : Str}
  {pipelineFile : File} {outputDir : Tree} {entries : List SourceEntry}

theorem unhandled_parseSourcesFile {t : Tree} {p : Path} :
    Unhandled (parseSourcesFile t p) ↔ ∃ b, t.read p = some (.bytes b) := by
  unfold parseSourcesFile
  split
  · simp [unhandled_bind, unhandled_readText]
  · rename_i h
    refine iff_of_false (not_unhandled_ok _) ?_
    rintro ⟨b, hb⟩
    exact h (by simp [Tree.present, Tree.isFile, hb, File.isFile])

theorem unhandled_emittedEntries :
    Unhandled (emittedEntries package outputDir) ↔
      ∃ b, outputDir.read sourcesName = some (.bytes b) := by
  have hraise : ∀ m, (Exn.raised .runtimeError m).isRuntimeOrOsError = true := fun _ => rfl
  unfold emittedEntries
  simp only [unhandled_bind, failIf_ok_iff, not_unhandled_failIf (hraise _), false_or,
    unhandled_parseSourcesFile, except_pure, not_unhandled_ok, and_false, exists_false, or_false]
  constructor
  · rintro ⟨_, _, h⟩
    exact h
  · rintro ⟨b, hb⟩
    exact ⟨⟨⟩, by simp [Tree.isFile_of_read hb rfl], b, hb⟩

/-- The ways the part of a run before its first write raises what is not handled. -/
inductive OutputUnhandled (env : Env) (w : World) (package oldVersion newVersion : Str)
    (pipelineFile : File) : Prop
  /-- The upstream repository is private and its token is not set. -/
  | token (keys : env.gpgKeysDirOk = true)
      (h : PrivateWithoutToken env.environ (upstreamRepoOnDisk w package))
  /-- gorget printed what is not text. -/
  | stdout {environ : Str → Option Str} (keys : env.gpgKeysDirOk = true)
      (clone : gitCloneEnvForUpstreamRepo env.environ (upstreamRepoOnDisk w package) = .ok environ)
      (h : (gorgetRun env w package oldVersion newVersion pipelineFile environ).proc = .undecodable)
  /-- gorget ended, and the file that is read next, its report or the `sources` it emitted, is not
  text. -/
  | unreadable {environ : Str → Option Str} {code : Int} {stdout stderr : Str} {b : List UInt8}
      (keys : env.gpgKeysDirOk = true)
      (clone : gitCloneEnvForUpstreamRepo env.environ (upstreamRepoOnDisk w package) = .ok environ)
      (ended : (gorgetRun env w package oldVersion newVersion pipelineFile environ).proc =
        .exited code stdout stderr)
      (h : (gorgetRun env w package oldVersion newVersion pipelineFile environ).outputDir.read
        (if code = 0 then sourcesName else reportName) = some (.bytes b))

theorem unhandled_gorgetOutput :
    Unhandled (gorgetOutput env w package oldVersion newVersion pipelineFile) ↔
      OutputUnhandled env w package oldVersion newVersion pipelineFile := by
  have hkeys : ¬ Unhandled (failIf (env.gpgKeysDirOk = false)
      (.raised .osError "metadata/gpg-keys" : Exn)) := not_unhandled_failIf rfl
  -- after the run has ended, what can still go wrong is one file that is not text
  have hended : ∀ (run : GorgetRun) (c : Completed),
      Unhandled (if c.returncode = 0 then do
          return (run.outputDir, ← emittedEntries package run.outputDir)
        else do throw (.raised .runtimeError (← gorgetFailure package run.outputDir c))) ↔
        ∃ b, run.outputDir.read (if c.returncode = 0 then sourcesName else reportName) =
          some (.bytes b) := by
    intro run c
    split
    · simp [unhandled_bind, unhandled_emittedEntries]
    · simp only [unhandled_bind, unhandled_gorgetFailure]
      refine or_iff_left ?_
      rintro ⟨m, _, hm⟩
      exact absurd hm (by simp [throw, throwThe, MonadExceptOf.throw, unhandled_error, Exn.isRuntimeOrOsError])
  unfold gorgetOutput
  simp only [unhandled_bind, hkeys, false_or, failIf_ok_iff, unhandled_gitCloneEnv,
    Proc.unhandled_run, Proc.run_ok_iff, hended]
  constructor
  · rintro ⟨_, hk, h | ⟨environ, hclone, h | ⟨c, hend, b, hb⟩⟩⟩
    · exact .token (by simpa using hk) h
    · exact .stdout (by simpa using hk) hclone h
    · exact .unreadable (by simpa using hk) hclone hend hb
  · rintro (⟨hk, h⟩ | ⟨hk, hclone, h⟩ | ⟨hk, hclone, hend, hb⟩)
    · exact ⟨⟨⟩, by simp [hk], Or.inl h⟩
    · exact ⟨⟨⟩, by simp [hk], Or.inr ⟨_, hclone, Or.inl h⟩⟩
    · exact ⟨⟨⟩, by simp [hk], Or.inr ⟨_, hclone, Or.inr ⟨⟨_, _, _⟩, hend, _, hb⟩⟩⟩

/-- gorget ended well and emitted these entries. -/
structure GorgetEmits (env : Env) (w : World) (package oldVersion newVersion : Str)
    (pipelineFile : File) (outputDir : Tree) (entries : List SourceEntry) : Prop where
  keys : env.gpgKeysDirOk = true
  ended : ∃ environ, gitCloneEnvForUpstreamRepo env.environ (upstreamRepoOnDisk w package) = .ok environ ∧
    ∃ stdout stderr, gorgetRun env w package oldVersion newVersion pipelineFile environ =
      ⟨.exited 0 stdout stderr, outputDir⟩
  emitted : outputDir.isFile sourcesName = true
  parsed : parseSourcesFile outputDir sourcesName = .ok entries
  nonempty : entries ≠ []

theorem emittedEntries_ok_iff :
    emittedEntries package outputDir = .ok entries ↔
      outputDir.isFile sourcesName = true ∧ parseSourcesFile outputDir sourcesName = .ok entries ∧
        entries ≠ [] := by
  unfold emittedEntries
  simp only [except_bind_ok_iff, failIf_ok_iff, except_pure]
  constructor
  · rintro ⟨_, hfile, es, hes, _, hne, hret⟩
    obtain rfl := Except.ok.inj hret
    exact ⟨by simpa using hfile, hes, hne⟩
  · rintro ⟨hfile, hes, hne⟩
    exact ⟨⟨⟩, by simp [hfile], entries, hes, ⟨⟩, hne, rfl⟩

theorem gorgetOutput_ok_iff :
    gorgetOutput env w package oldVersion newVersion pipelineFile = .ok (outputDir, entries) ↔
      GorgetEmits env w package oldVersion newVersion pipelineFile outputDir entries := by
  unfold gorgetOutput
  simp only [except_bind_ok_iff, failIf_ok_iff, Proc.run_ok_iff]
  constructor
  · rintro ⟨_, hkeys, environ, hclone, c, hended, h⟩
    split at h
    · rename_i hzero
      obtain ⟨es, hes, hret⟩ := except_bind_ok_iff.mp h
      obtain ⟨rfl, rfl⟩ := Prod.mk.inj (Except.ok.inj hret)
      obtain ⟨hfile, hparse, hne⟩ := emittedEntries_ok_iff.mp hes
      refine ⟨by simpa using hkeys, ⟨environ, hclone, c.stdout, c.stderr, ?_⟩, hfile, hparse, hne⟩
      rw [← hzero, ← hended]
    · obtain ⟨_, _, hret⟩ := except_bind_ok_iff.mp h
      exact absurd hret (by simp [throw, throwThe, MonadExceptOf.throw])
  · rintro ⟨hkeys, ⟨environ, hclone, stdout, stderr, hended⟩, hfile, hparse, hne⟩
    refine ⟨⟨⟩, by simp [hkeys], environ, hclone, ⟨0, stdout, stderr⟩, by rw [hended], ?_⟩
    rw [if_pos rfl, hended]
    exact except_bind_ok_iff.mpr ⟨entries, emittedEntries_ok_iff.mpr ⟨hfile, hparse, hne⟩, rfl⟩

end

/-- An emitted file is there and can be copied into the directory. -/
def Copies (outputDir dir : Tree) (entry : SourceEntry) : Prop :=
  outputDir.isFile entry.filename = true ∧ dir.writable entry.filename = true

section

variable (env : Env) (overrides : Option File) (package : Str) (outputDir : Tree)

/-- Every entry is copied and its upload goes through. -/
def Emits : List SourceEntry → Tree → Prop
  | [], _ => True
  | entry :: entries, dir =>
      (Copies outputDir dir entry ∧
        Uploads env overrides (packagePath package entry.filename) package entry.algo) ∧
      Emits entries (copied outputDir [entry] dir)

/-- Some entry is copied, with every entry before it emitted, and its upload raises what is not
handled. -/
def EmitUnhandled : List SourceEntry → Tree → Prop
  | [], _ => False
  | entry :: entries, dir =>
      Copies outputDir dir entry ∧
          UploadUnhandled env overrides (packagePath package entry.filename) package entry.algo ∨
        (Copies outputDir dir entry ∧
          Uploads env overrides (packagePath package entry.filename) package entry.algo) ∧
        EmitUnhandled entries (copied outputDir [entry] dir)

end

section

variable {env : Env} {package : Str} {outputDir : Tree} {w w' : World} {entry : SourceEntry}
  {entries : List SourceEntry}

theorem DirAndLog.overrides (h : DirAndLog package w w') : w'.overrides = w.overrides := by
  obtain ⟨dir, es, rfl⟩ := h
  rfl

theorem emitEntry_ok_iff :
    (∃ w', emitEntry env package outputDir entry w = .ok () w') ↔
      Copies outputDir (w.packageDir package) entry ∧
        Uploads env w.overrides (packagePath package entry.filename) package entry.algo := by
  constructor
  · rintro ⟨w', h⟩
    simp only [emitEntry, bind_ok_iff, raiseIf_ok_iff] at h
    obtain ⟨_, _, ⟨hfile, rfl⟩, _, _, hget, _, _, ⟨hwrite, rfl⟩, _, _, hmod, hup⟩ := h
    obtain ⟨rfl, rfl⟩ := EStateM.Result.ok.inj hget
    obtain ⟨_, rfl⟩ := EStateM.Result.ok.inj hmod
    have hup := uploadToLookaside_ok_iff.mp ⟨w', hup⟩
    exact ⟨⟨by simpa using hfile, by simpa using hwrite⟩, hup⟩
  · rintro ⟨⟨hfile, hwrite⟩, hup⟩
    let dir := copied outputDir [entry] (w.packageDir package)
    obtain ⟨w', hw'⟩ := uploadToLookaside_ok_iff (w := w.setRpms package dir).mpr hup
    refine ⟨w', ?_⟩
    rw [emitEntry, run_raiseIf_bind (by simp [hfile]), run_bind_of_ok (run_get w),
      run_raiseIf_bind (by simp [hwrite])]
    exact hw'

theorem unhandled_emitEntry :
    UnhandledIn (emitEntry env package outputDir entry) w ↔
      Copies outputDir (w.packageDir package) entry ∧
        UploadUnhandled env w.overrides (packagePath package entry.filename) package entry.algo := by
  rw [emitEntry, unhandledIn_raiseIf_bind rfl, unhandledIn_get_bind, unhandledIn_raiseIf_bind rfl,
    unhandledIn_modify_bind, unhandled_uploadToLookaside]
  simp [Copies, World.setRpms, and_assoc]

theorem emitEntries_ok_iff :
    (∃ w', emitEntries env package outputDir entries w = .ok () w') ↔
      Emits env w.overrides package outputDir entries (w.packageDir package) := by
  induction entries generalizing w with
  | nil => exact iff_of_true ⟨w, rfl⟩ trivial
  | cons e es ih =>
      rw [Emits, ← emitEntry_ok_iff]
      simp only [emitEntries, bind_ok_iff]
      constructor
      · rintro ⟨w', _, w₁, he, hes⟩
        rw [← (emitEntry_ok he).1, ← (steps_emitEntry.ok he).overrides]
        exact ⟨⟨w₁, he⟩, ih.mp ⟨w', hes⟩⟩
      · rintro ⟨⟨w₁, he⟩, hes⟩
        rw [← (emitEntry_ok he).1, ← (steps_emitEntry.ok he).overrides] at hes
        obtain ⟨w', hes⟩ := ih.mpr hes
        exact ⟨w', ⟨⟩, w₁, he, hes⟩

theorem unhandled_emitEntries :
    UnhandledIn (emitEntries env package outputDir entries) w ↔
      EmitUnhandled env w.overrides package outputDir entries (w.packageDir package) := by
  induction entries generalizing w with
  | nil => exact iff_of_false not_unhandledIn_pure id
  | cons e es ih =>
      rw [emitEntries, unhandledIn_bind, unhandled_emitEntry, EmitUnhandled, ← emitEntry_ok_iff]
      refine or_congr_right ⟨?_, ?_⟩
      · rintro ⟨_, w₁, he, hes⟩
        rw [ih, (emitEntry_ok he).1, (steps_emitEntry.ok he).overrides] at hes
        exact ⟨⟨w₁, he⟩, hes⟩
      · rintro ⟨⟨w₁, he⟩, hes⟩
        rw [← (emitEntry_ok he).1, ← (steps_emitEntry.ok he).overrides] at hes
        exact ⟨⟨⟩, w₁, he, ih.mpr hes⟩

theorem not_unhandledIn_unlinkAll {names : List Path} : ¬ UnhandledIn (unlinkAll package names) w := by
  induction names generalizing w with
  | nil => exact not_unhandledIn_pure
  | cons n ns ih =>
      rw [unlinkAll, unhandledIn_get_bind, unhandledIn_raiseIf_bind rfl, unhandledIn_modify_bind]
      exact fun h => ih h.2

variable [UnicodeTables] {oldVersion newVersion : Str} {pipelineFile : File}

/-- The ways a run raises what is neither a `RuntimeError` nor an `OSError`. -/
inductive GorgetUnhandled (env : Env) (w : World) (package oldVersion newVersion : Str)
    (pipelineFile : File) : Prop
  | output (h : OutputUnhandled env w package oldVersion newVersion pipelineFile)
  /-- An upload: the bucket, or the output of the upload script. -/
  | upload {outputDir : Tree} {entries : List SourceEntry}
      (emits : GorgetEmits env w package oldVersion newVersion pipelineFile outputDir entries)
      (h : EmitUnhandled env w.overrides package outputDir entries (w.packageDir package))
  /-- The `sources` file that is about to be replaced is not text. -/
  | oldSources {outputDir : Tree} {entries : List SourceEntry} {b : List UInt8}
      (emits : GorgetEmits env w package oldVersion newVersion pipelineFile outputDir entries)
      (uploaded : Emits env w.overrides package outputDir entries (w.packageDir package))
      (h : (copied outputDir entries (w.packageDir package)).read sourcesName = some (.bytes b))

/-- **`runGorgetPipeline_unhandled_iff`** — a run raises what its callers do not handle in these ways,
and no other. -/
theorem runGorgetPipeline_unhandled_iff :
    UnhandledIn (runGorgetPipeline env package oldVersion newVersion pipelineFile) w ↔
      GorgetUnhandled env w package oldVersion newVersion pipelineFile := by
  have htail : ∀ (entries : List SourceEntry) (w₁ : World),
      UnhandledIn (do
        let oldEntries ← lift (parseSourcesFile ((← get).packageDir package) sourcesName)
        unlinkAll package (superseded oldEntries entries)
        modify fun w => (w.setRpms package
          ((w.packageDir package).write sourcesName (.text (renderSources entries)))).record
            (.gorget package pipelineFile (renderSources entries))
        return entries.map (·.filename)) w₁ ↔
        ∃ b, (w₁.packageDir package).read sourcesName = some (.bytes b) := by
    intro entries w₁
    rw [unhandledIn_get_bind, unhandledIn_lift_bind, unhandled_parseSourcesFile]
    refine or_iff_left ?_
    rintro ⟨_, _, h⟩
    rw [unhandledIn_bind] at h
    rcases h with h | ⟨_, _, _, h⟩
    · exact not_unhandledIn_unlinkAll h
    · exact not_unhandledIn_pure h
  rw [runGorgetPipeline, unhandledIn_get_bind, unhandledIn_lift_bind, unhandled_gorgetOutput]
  constructor
  · rintro (h | ⟨⟨out, new⟩, hout, h⟩)
    · exact .output h
    · have hemits := gorgetOutput_ok_iff.mp hout
      rcases unhandledIn_bind.mp h with h | ⟨_, w₁, hemit, h⟩
      · exact .upload hemits (unhandled_emitEntries.mp h)
      · obtain ⟨b, hb⟩ := (htail new w₁).mp h
        rw [(emitEntries_ok hemit).1] at hb
        exact .oldSources hemits (emitEntries_ok_iff.mp ⟨w₁, hemit⟩) hb
  · rintro (h | ⟨hemits, h⟩ | ⟨hemits, huploaded, hb⟩)
    · exact Or.inl h
    · refine Or.inr ⟨_, gorgetOutput_ok_iff.mpr hemits, unhandledIn_bind.mpr (Or.inl ?_)⟩
      exact unhandled_emitEntries.mpr h
    · obtain ⟨w₁, hemit⟩ := emitEntries_ok_iff.mpr huploaded
      refine Or.inr ⟨_, gorgetOutput_ok_iff.mpr hemits,
        unhandledIn_bind.mpr (Or.inr ⟨_, w₁, hemit, (htail _ w₁).mpr ?_⟩)⟩
      rw [(emitEntries_ok hemit).1]
      exact ⟨_, hb⟩

/-- A run that returned leaves the spec files as they are. -/
theorem runGorgetPipeline_sameTop {names : List Str}
    (ha : ArchivesOnly env (w.packageDir package))
    (h : runGorgetPipeline env package oldVersion newVersion pipelineFile w = .ok names w') :
    Tree.SameTop ".spec" (w.packageDir package) (w'.packageDir package) := by
  obtain ⟨out, new, old, hrun⟩ := runGorgetPipeline_ok h
  obtain ⟨-, ⟨environ, -, stdout, stderr, hended⟩, -, hparsed, -⟩ := gorgetOutput_ok_iff.mp hrun.output
  have hout : NoSpecs new := by
    apply ha.emitted _ new
    show parseSourcesFile
      (gorgetRun env w package oldVersion newVersion pipelineFile environ).outputDir _ = _
    rw [hended]
    exact hparsed
  have hold : NoSpecs old := by
    -- the old entries are read after the copies: from the emitted `sources` if it is one of them
    by_cases hmem : sourcesName ∈ new.map (·.filename)
    · have hread : (copied out new (w.packageDir package)).read sourcesName = out.read sourcesName := by
        obtain ⟨e, he, heq⟩ := List.mem_map.mp hmem
        have hfile := hrun.emitted e he
        rw [heq, Tree.isFile] at hfile
        rw [read_copied, if_pos hmem]
        cases hf : out.read sourcesName with
        | none => simp [hf] at hfile
        | some f => rfl
      rcases parseSourcesFile_congr hread hrun.old with rfl | hpar
      · exact fun _ he => absurd he List.not_mem_nil
      · obtain rfl := Except.ok.inj (hparsed.symm.trans hpar)
        exact hout
    · have hread : (copied out new (w.packageDir package)).read sourcesName =
          (w.packageDir package).read sourcesName := by
        rw [read_copied, if_neg hmem]
      rcases parseSourcesFile_congr hread hrun.old with rfl | hpar
      · exact fun _ he => absurd he List.not_mem_nil
      · exact ha.listed old hpar
  rw [hrun.dir]
  exact sameTop_refreshed hout hold

end

end HummingbirdRpms
