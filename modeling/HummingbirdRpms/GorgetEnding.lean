/-
# HummingbirdRpms.GorgetEnding — when a gorget run changes all of a package's sources or none.

`_run_gorget_pipeline` copies and uploads the emitted files one by one, then removes what the old
`sources` listed and the new one does not, then writes `sources`.  It rolls nothing back: a run that
raises half-way leaves what it has copied, and the caller discards the changes that git knows of.  The
archives themselves git does not know of.

**`allOrNothing_iff`** — a run that raises leaves `sources` and the files named in it as they were
exactly when none of the files it had copied was one of these with another content, and it had removed
nothing; a run that returns has replaced them exactly when neither `sources` file names itself, or the
new one does to no effect.  **`sharedName_overwritten`** is an upload that fails after a file with a name
from the old `sources` has been copied over.
-/
import HummingbirdRpms.TrueHashes

namespace HummingbirdRpms

open Lib Lib.Text Lib.Regex Lib.Exec

/-! ## How far the copying comes -/

section

variable {env : Env} {overrides : Option File} {package : Str} {outputDir dir : Tree}
  {entries copies : List SourceEntry} {through : Bool} {w : World}

/-- `Emission env overrides package outputDir dir entries copies through`: copying and uploading the
entries in turn comes as far as `copies`, the last of them perhaps not uploaded, or comes through. -/
inductive Emission (env : Env) (overrides : Option File) (package : Str) (outputDir : Tree) :
    Tree → List SourceEntry → List SourceEntry → Bool → Prop
  | through (dir : Tree) : Emission env overrides package outputDir dir [] [] true
  /-- The file is not there, or cannot be written. -/
  | missing {dir : Tree} {e : SourceEntry} {entries : List SourceEntry}
      (h : ¬ (outputDir.isFile e.filename = true ∧ dir.writable e.filename = true)) :
      Emission env overrides package outputDir dir (e :: entries) [] false
  /-- The upload fails when the file has been copied. -/
  | rejected {dir : Tree} {e : SourceEntry} {entries : List SourceEntry}
      (file : outputDir.isFile e.filename = true) (writable : dir.writable e.filename = true)
      (h : ¬ Uploads env overrides (packagePath package e.filename) package e.algo) :
      Emission env overrides package outputDir dir (e :: entries) [e] false
  | next {dir : Tree} {e : SourceEntry} {entries copies : List SourceEntry} {through : Bool}
      (file : outputDir.isFile e.filename = true) (writable : dir.writable e.filename = true)
      (upload : Uploads env overrides (packagePath package e.filename) package e.algo)
      (rest : Emission env overrides package outputDir
        (dir.write e.filename ((outputDir.read e.filename).getD .dir)) entries copies through) :
      Emission env overrides package outputDir dir (e :: entries) (e :: copies) through

/-- The copying comes to one end or the other. -/
theorem Emission.exists (dir : Tree) (entries : List SourceEntry) :
    ∃ copies through, Emission env overrides package outputDir dir entries copies through := by
  induction entries generalizing dir with
  | nil => exact ⟨[], true, .through dir⟩
  | cons e entries ih =>
      by_cases hfile : outputDir.isFile e.filename = true ∧ dir.writable e.filename = true
      · by_cases hup : Uploads env overrides (packagePath package e.filename) package e.algo
        · obtain ⟨copies, through, hrest⟩ := ih (dir.write e.filename ((outputDir.read e.filename).getD .dir))
          exact ⟨e :: copies, through, .next hfile.1 hfile.2 hup hrest⟩
        · exact ⟨[e], false, .rejected hfile.1 hfile.2 hup⟩
      · exact ⟨[], false, .missing hfile⟩

theorem Emission.isFile (h : Emission env overrides package outputDir dir entries copies through) :
    ∀ e ∈ copies, outputDir.isFile e.filename = true := by
  induction h with
  | through => simp
  | missing => simp
  | rejected file => simpa using file
  | next file _ _ _ ih => exact List.forall_mem_cons.mpr ⟨file, ih⟩

theorem Emission.copies_eq (h : Emission env overrides package outputDir dir entries copies true) :
    copies = entries := by
  generalize hthrough : true = through at h
  induction h with
  | through => rfl
  | missing => exact absurd hthrough (by simp)
  | rejected => exact absurd hthrough (by simp)
  | next _ _ _ _ ih => rw [ih hthrough]

/-- What an upload that fails leaves is as it was, the log aside. -/
theorem uploadToLookaside_error {filepath hashtype : Str}
    (h : ¬ Uploads env w.overrides filepath package hashtype) :
    ∃ exn w', uploadToLookaside env filepath package hashtype w = .error exn w' ∧
      w'.packageDir package = w.packageDir package := by
  cases hrun : uploadToLookaside env filepath package hashtype w with
  | ok u w' => exact absurd (uploadToLookaside_ok_iff.mp ⟨w', hrun⟩) h
  | error exn w' =>
      obtain ⟨es, rfl⟩ := steps_upload_log.error hrun
      exact ⟨exn, _, rfl, rfl⟩

/-- An emitted file that can be written is written, and its upload decides. -/
theorem run_emitEntry {e : SourceEntry} (hfile : outputDir.isFile e.filename = true)
    (hwritable : (w.packageDir package).writable e.filename = true) :
    emitEntry env package outputDir e w =
      uploadToLookaside env (packagePath package e.filename) package e.algo
        (w.setRpms package ((w.packageDir package).write e.filename ((outputDir.read e.filename).getD .dir))) := by
  simp [emitEntry, run_bind, raiseIf, hfile, hwritable]

/-- The loop ends as the emission says, with the copies in the directory. -/
theorem Emission.run (h : Emission env w.overrides package outputDir dir entries copies through)
    (hdir : w.packageDir package = dir) :
    if through then
      ∃ w', emitEntries env package outputDir entries w = .ok () w' ∧
        w'.packageDir package = copied outputDir copies dir
    else
      ∃ exn w', emitEntries env package outputDir entries w = .error exn w' ∧
        w'.packageDir package = copied outputDir copies dir := by
  generalize hoverrides : w.overrides = overrides at h
  induction h generalizing w with
  | through dir => exact ⟨w, rfl, hdir⟩
  | @missing dir e entries h =>
      subst hdir
      by_cases hfile : outputDir.isFile e.filename = true
      · have hwritable : (w.packageDir package).writable e.filename = false := by
          by_contra hw
          exact h ⟨hfile, by simpa using hw⟩
        refine ⟨.raised .osError e.filename, w, ?_, rfl⟩
        simp [emitEntries, emitEntry, run_bind, raiseIf, hfile, hwritable]
      · refine ⟨_, w, run_bind_of_error (run_bind_of_error (raiseIf_error_iff.mpr ⟨?_, rfl, rfl⟩)), rfl⟩
        simpa using hfile
  | @rejected dir e entries file writable h =>
      subst hdir
      subst hoverrides
      obtain ⟨exn, w', hrun, hsame⟩ := uploadToLookaside_error
        (w := w.setRpms package
          ((w.packageDir package).write e.filename ((outputDir.read e.filename).getD .dir))) h
      refine ⟨exn, w', run_bind_of_error ((run_emitEntry file writable).trans hrun), ?_⟩
      rw [hsame, packageDir_setRpms]
      rfl
  | @next dir e entries copies through file writable upload rest ih =>
      subst hdir
      subst hoverrides
      obtain ⟨w₁, hrun⟩ := uploadToLookaside_ok_iff
        (w := w.setRpms package
          ((w.packageDir package).write e.filename ((outputDir.read e.filename).getD .dir))) |>.mpr upload
      have hloop : emitEntries env package outputDir (e :: entries) w =
          emitEntries env package outputDir entries w₁ :=
        run_bind_of_ok ((run_emitEntry file writable).trans hrun)
      obtain ⟨bucket, rfl⟩ := uploadToLookaside_ok hrun
      rw [hloop]
      exact ih (packageDir_record.trans packageDir_setRpms) rfl

/-! ## How far the removal comes -/

/-- `Removal dir names removed through`: unlinking the names in turn comes as far as `removed`, which a
directory follows, or comes through. -/
inductive Removal : Tree → List Path → List Path → Bool → Prop
  | through (dir : Tree) : Removal dir [] [] true
  | directory {dir : Tree} {name : Path} {names : List Path} (h : dir.isDir name = true) :
      Removal dir (name :: names) [] false
  | next {dir : Tree} {name : Path} {names removed : List Path} {through : Bool} (h : dir.isDir name = false)
      (rest : Removal (dir.unlink name) names removed through) :
      Removal dir (name :: names) (name :: removed) through

variable {names removed : List Path}

theorem Removal.exists (dir : Tree) (names : List Path) :
    ∃ removed through, Removal dir names removed through := by
  induction names generalizing dir with
  | nil => exact ⟨[], true, .through dir⟩
  | cons name names ih =>
      cases hdir : dir.isDir name with
      | true => exact ⟨[], false, .directory hdir⟩
      | false =>
          obtain ⟨removed, through, hrest⟩ := ih (dir.unlink name)
          exact ⟨name :: removed, through, .next hdir hrest⟩

theorem Removal.subset (h : Removal dir names removed through) : removed ⊆ names := by
  induction h with
  | through => exact List.Subset.refl _
  | directory => exact List.nil_subset _
  | next _ _ ih => exact List.cons_subset_cons _ ih

theorem Removal.removed_eq (h : Removal dir names removed true) : removed = names := by
  generalize hthrough : true = through at h
  induction h with
  | through => rfl
  | directory => exact absurd hthrough (by simp)
  | next _ _ ih => rw [ih hthrough]

theorem Removal.run (h : Removal dir names removed through) (hdir : w.packageDir package = dir) :
    if through then
      ∃ w', unlinkAll package names w = .ok () w' ∧ w'.packageDir package = removed.foldl Tree.unlink dir
    else
      ∃ exn w', unlinkAll package names w = .error exn w' ∧
        w'.packageDir package = removed.foldl Tree.unlink dir := by
  induction h generalizing w with
  | through dir => exact ⟨w, rfl, hdir⟩
  | @directory dir name names h =>
      subst hdir
      exact ⟨.raised .osError name, w, by simp [unlinkAll, run_bind, raiseIf, h], rfl⟩
  | @next dir name names removed through h rest ih =>
      subst hdir
      have hloop : unlinkAll package (name :: names) w =
          unlinkAll package names (w.setRpms package ((w.packageDir package).unlink name)) := by
        simp [unlinkAll, run_bind, raiseIf, h]
      rw [hloop]
      exact ih packageDir_setRpms

end

/-! ## All or nothing -/

section

variable [UnicodeTables] {env : Env} {package oldVersion newVersion : Str} {pipelineFile : File}
  {outputDir dir dir' : Tree} {newEntries oldEntries copies : List SourceEntry} {removed : List Path}
  {es : List Event} {w : World} {q : Path}

/-- `sources`, and what it lists. -/
def Sourced (dir : Tree) (q : Path) : Prop :=
  q = sourcesName ∨ ∃ old, parseSourcesFile dir sourcesName = .ok old ∧ q ∈ fileNames old

/-- `sources` and every file it lists have the content they had. -/
def SourcesAsBefore (dir dir' : Tree) : Prop := ∀ q, Sourced dir q → dir'.read q = dir.read q

/-- `sources` lists what gorget emitted; each of these files is there and was uploaded; and the files that
only the old `sources` lists are gone. -/
structure SourcesReplaced (package : Str) (outputDir : Tree) (newEntries : List SourceEntry) (es : List Event)
    (dir dir' : Tree) : Prop where
  entries : parseSourcesFile dir' sourcesName = .ok newEntries
  content : ∀ e ∈ newEntries, dir'.read e.filename = outputDir.read e.filename
  uploaded : ∀ e ∈ newEntries, ∃ f, outputDir.read e.filename = some f ∧ UploadedAs package es e f
  gone : ∀ old, parseSourcesFile dir sourcesName = .ok old →
    ∀ n ∈ fileNames old, n ∉ fileNames newEntries → dir'.isFile n = false

/-- A gorget run that raises changes none of the sources, and one that returns all. -/
def AllOrNothing (env : Env) (package oldVersion newVersion : Str) (pipelineFile : File) (w : World) : Prop :=
  (∀ exn w', runGorgetPipeline env package oldVersion newVersion pipelineFile w = .error exn w' →
    SourcesAsBefore (w.packageDir package) (w'.packageDir package)) ∧
  ∀ out w', runGorgetPipeline env package oldVersion newVersion pipelineFile w = .ok out w' →
    ∃ outputDir newEntries es,
      gorgetOutput env w package oldVersion newVersion pipelineFile = .ok (outputDir, newEntries) ∧
        w'.log = es ++ w.log ∧
        SourcesReplaced package outputDir newEntries es (w.packageDir package) (w'.packageDir package)

/-- Of the copied files, those that belong to the old sources are copies of what was there. -/
def SameCopies (outputDir dir : Tree) (copies : List SourceEntry) : Prop :=
  ∀ e ∈ copies, Sourced dir e.filename → dir.read e.filename = outputDir.read e.filename

/-- Neither `sources` file lists itself; or the new one does, as it is written, and there is nothing to
remove. -/
def SelfListing (outputDir dir : Tree) (newEntries : List SourceEntry) : Prop :=
  (sourcesName ∈ fileNames newEntries →
    outputDir.read sourcesName = some (.text (renderSources newEntries)) ∧
      ∀ old, parseSourcesFile dir sourcesName = .ok old →
        ∀ n ∈ fileNames old, n ∉ fileNames newEntries → dir.isFile n = false) ∧
  (sourcesName ∉ fileNames newEntries →
    ∀ old, parseSourcesFile dir sourcesName = .ok old → sourcesName ∉ fileNames old)

omit [UnicodeTables] in
theorem read_copied_of_isFile (hfiles : ∀ e ∈ copies, outputDir.isFile e.filename = true) :
    (copied outputDir copies dir).read q =
      if q ∈ fileNames copies then outputDir.read q else dir.read q := by
  rw [read_copied]
  split
  · rename_i hq
    obtain ⟨e, he, rfl⟩ := List.mem_map.mp hq
    have hthere := hfiles e he
    rw [Tree.isFile, Option.any_eq_true] at hthere
    obtain ⟨f, hread, -⟩ := hthere
    rw [hread, Option.getD_some]
  · rfl

/-- Copies change none of the old sources exactly when they are the same files. -/
theorem kept_copied_iff (hfiles : ∀ e ∈ copies, outputDir.isFile e.filename = true) :
    SourcesAsBefore dir (copied outputDir copies dir) ↔ SameCopies outputDir dir copies := by
  constructor
  · intro hkept e he hsourced
    have hread := hkept e.filename hsourced
    rw [read_copied_of_isFile hfiles, if_pos (List.mem_map_of_mem he)] at hread
    exact hread.symm
  · intro hsame q hsourced
    rw [read_copied_of_isFile hfiles]
    split
    · rename_i hq
      obtain ⟨e, he, rfl⟩ := List.mem_map.mp hq
      exact (hsame e he hsourced).symm
    · rfl

/-- What the old `sources` is found to list, when the files have been copied: what gorget's lists, where
that lists itself, and otherwise what it listed before. -/
theorem parse_copied (hfiles : ∀ e ∈ newEntries, outputDir.isFile e.filename = true)
    (hparsed : parseSourcesFile outputDir sourcesName = .ok newEntries)
    (hold : parseSourcesFile (copied outputDir newEntries dir) sourcesName = .ok oldEntries) :
    oldEntries = [] ∨
      if sourcesName ∈ fileNames newEntries then oldEntries = newEntries
      else parseSourcesFile dir sourcesName = .ok oldEntries := by
  have hread := @read_copied_of_isFile outputDir dir newEntries sourcesName hfiles
  split
  · rename_i hself
    rw [if_pos hself] at hread
    refine (parseSourcesFile_congr hread hold).imp_right fun h => ?_
    exact (Except.ok.inj (hparsed.symm.trans h)).symm
  · rename_i hself
    rw [if_neg hself] at hread
    exact parseSourcesFile_congr hread hold

/-- What is removed was listed by the old `sources` only. -/
theorem sourced_of_superseded (hfiles : ∀ e ∈ newEntries, outputDir.isFile e.filename = true)
    (hparsed : parseSourcesFile outputDir sourcesName = .ok newEntries)
    (hold : parseSourcesFile (copied outputDir newEntries dir) sourcesName = .ok oldEntries)
    (hq : q ∈ superseded oldEntries newEntries) : Sourced dir q ∧ q ∉ fileNames newEntries := by
  obtain ⟨hlisted, hnew⟩ := mem_superseded.mp hq
  refine ⟨?_, hnew⟩
  rcases parse_copied hfiles hparsed hold with rfl | hparse
  · exact absurd hlisted List.not_mem_nil
  · split at hparse
    · rw [hparse] at hlisted
      exact absurd hlisted hnew
    · exact Or.inr ⟨oldEntries, hparse, hlisted⟩

omit [UnicodeTables] in
theorem foldl_unlink_of_not_isFile {names : List Path} (h : ∀ n ∈ names, dir.isFile n = false) :
    names.foldl Tree.unlink dir = dir := by
  induction names with
  | nil => rfl
  | cons n names ih =>
      obtain ⟨hn, hnames⟩ := List.forall_mem_cons.mp h
      have hsame : dir.unlink n = dir := by rw [Tree.unlink, if_pos hn]
      rw [List.foldl_cons, hsame, ih hnames]

/-- Copies and removals change none of the old sources exactly when the copies are the same files and
nothing was there to be removed. -/
theorem kept_removed_iff (hfiles : ∀ e ∈ newEntries, outputDir.isFile e.filename = true)
    (hparsed : parseSourcesFile outputDir sourcesName = .ok newEntries)
    (hold : parseSourcesFile (copied outputDir newEntries dir) sourcesName = .ok oldEntries)
    (hsub : removed ⊆ superseded oldEntries newEntries) :
    SourcesAsBefore dir (removed.foldl Tree.unlink (copied outputDir newEntries dir)) ↔
      SameCopies outputDir dir newEntries ∧ ∀ n ∈ removed, dir.isFile n = false := by
  have hstale : ∀ n ∈ removed, Sourced dir n ∧ n ∉ fileNames newEntries := fun n hn =>
    sourced_of_superseded hfiles hparsed hold (hsub hn)
  have hcopied : ∀ n ∈ removed, (copied outputDir newEntries dir).isFile n = dir.isFile n := by
    intro n hn
    rw [isFile_copied hfiles, decide_eq_false (hstale n hn).2, Bool.false_or]
  constructor
  · intro hkept
    refine ⟨?_, ?_⟩
    · intro e he hsourced
      have hmem : e.filename ∈ fileNames newEntries := List.mem_map_of_mem he
      have hfile : (copied outputDir newEntries dir).isFile e.filename = true := by
        rw [isFile_copied hfiles, decide_eq_true hmem, Bool.true_or]
      have hread := hkept e.filename hsourced
      rw [read_foldl_unlink hfile fun hn => (hstale _ hn).2 hmem, read_copied_of_isFile hfiles, if_pos hmem]
        at hread
      exact hread.symm
    · intro n hn
      have hgone : (removed.foldl Tree.unlink (copied outputDir newEntries dir)).isFile n = false := by
        rw [isFile_foldl_unlink]
        simp [hn]
      rwa [Tree.isFile, hkept n (hstale n hn).1] at hgone
  · rintro ⟨hsame, hnone⟩
    rw [foldl_unlink_of_not_isFile fun n hn => (hcopied n hn).trans (hnone n hn)]
    exact (kept_copied_iff hfiles).mpr hsame

/-- An old `sources` file that is not text lists nothing, and is not written either. -/
theorem kept_of_unreadable {exn : Exn} (hfiles : ∀ e ∈ newEntries, outputDir.isFile e.filename = true)
    (hparsed : parseSourcesFile outputDir sourcesName = .ok newEntries)
    (hold : parseSourcesFile (copied outputDir newEntries dir) sourcesName = .error exn) :
    SourcesAsBefore dir (copied outputDir newEntries dir) := by
  have hread := @read_copied_of_isFile outputDir dir newEntries sourcesName hfiles
  by_cases hself : sourcesName ∈ fileNames newEntries
  · rw [if_pos hself] at hread
    rcases parseSourcesFile_congr hread.symm hparsed with rfl | h
    · exact absurd hself List.not_mem_nil
    · exact absurd (hold.symm.trans h) (by simp)
  · rw [if_neg hself] at hread
    rintro q (rfl | ⟨old, hparse, hq⟩)
    · exact hread
    · rcases parseSourcesFile_congr hread.symm hparse with rfl | h
      · exact absurd hq List.not_mem_nil
      · exact absurd (hold.symm.trans h) (by simp)

/-- What a run that returned has left replaces the sources exactly under `SelfListing`. -/
theorem replaced_iff (hfiles : ∀ e ∈ newEntries, outputDir.isFile e.filename = true)
    (hparsed : parseSourcesFile outputDir sourcesName = .ok newEntries)
    (hold : parseSourcesFile (copied outputDir newEntries dir) sourcesName = .ok oldEntries)
    (hups : ∀ e ∈ newEntries, ∃ f, outputDir.read e.filename = some f ∧ UploadedAs package es e f) :
    SourcesReplaced package outputDir newEntries es dir (refreshed outputDir newEntries oldEntries dir) ↔
      SelfListing outputDir dir newEntries := by
  have hwf := wellFormed_of_parseSourcesFile hparsed
  have hentries : parseSourcesFile (refreshed outputDir newEntries oldEntries dir) sourcesName =
      .ok newEntries := by
    rw [refreshed, parseSourcesFile_render, readEntries_of_wellFormed hwf]
  have hwritten : (refreshed outputDir newEntries oldEntries dir).isFile sourcesName = true := by
    rw [refreshed]
    exact Tree.isFile_of_read Tree.read_write_self rfl
  have hcases := parse_copied hfiles hparsed hold
  constructor
  · intro h
    refine ⟨?_, ?_⟩
    · intro hself
      rw [if_pos hself] at hcases
      obtain ⟨e, he, hname⟩ := mem_fileNames.mp hself
      refine ⟨?_, ?_⟩
      · have hread := h.content e he
        rw [read_refreshed he hfiles, if_pos hname, hname] at hread
        exact hread.symm
      · intro old hparse n hn hnew
        have hgone := h.gone old hparse n hn hnew
        have hother : n ≠ sourcesName := fun heq => hnew (heq ▸ hself)
        have hkept : n ∉ fileNames oldEntries := by
          rcases hcases with rfl | rfl
          · exact List.not_mem_nil
          · exact hnew
        rwa [isFile_refreshed hfiles hother, decide_eq_false hnew, decide_eq_true hkept, Bool.false_or,
          Bool.true_and] at hgone
    · intro hself old hparse hn
      exact absurd (h.gone old hparse sourcesName hn hself) (by rw [hwritten]; simp)
  · rintro ⟨hself, hother⟩
    refine ⟨hentries, ?_, hups, ?_⟩
    · intro e he
      rw [read_refreshed he hfiles]
      split
      · rename_i hname
        rw [hname]
        exact (hself (hname ▸ List.mem_map_of_mem he)).1.symm
      · rfl
    · intro old hparse n hn hnew
      by_cases hin : sourcesName ∈ fileNames newEntries
      · have hne : n ≠ sourcesName := fun heq => hnew (heq ▸ hin)
        rw [isFile_refreshed hfiles hne, (hself hin).2 old hparse n hn hnew, Bool.and_false, Bool.or_false,
          decide_eq_false hnew]
      · have hne : n ≠ sourcesName := fun heq => hother hin old hparse (heq ▸ hn)
        have hread : (copied outputDir newEntries dir).read sourcesName = dir.read sourcesName := by
          rw [read_copied_of_isFile hfiles, if_neg hin]
        have hlisted : n ∈ fileNames oldEntries := by
          rcases parseSourcesFile_congr hread.symm hparse with rfl | h
          · exact absurd hn List.not_mem_nil
          · exact Except.ok.inj (h.symm.trans hold) ▸ hn
        rw [isFile_refreshed hfiles hne, decide_eq_false hnew]
        simp [hlisted]

/-! ## How a run ends -/

section

variable (hout : gorgetOutput env w package oldVersion newVersion pipelineFile = .ok (outputDir, newEntries))
include hout

theorem run_of_stopped
    (h : Emission env w.overrides package outputDir (w.packageDir package) newEntries copies false) :
    ∃ exn w', runGorgetPipeline env package oldVersion newVersion pipelineFile w = .error exn w' ∧
      w'.packageDir package = copied outputDir copies (w.packageDir package) := by
  obtain ⟨exn, w', hrun, hdir⟩ := h.run rfl
  exact ⟨exn, w', by simp [runGorgetPipeline, run_bind, hout, hrun], hdir⟩

variable (hthrough : Emission env w.overrides package outputDir (w.packageDir package) newEntries newEntries true)
include hthrough

theorem run_of_unreadable {exn : Exn}
    (hold : parseSourcesFile (copied outputDir newEntries (w.packageDir package)) sourcesName = .error exn) :
    ∃ w', runGorgetPipeline env package oldVersion newVersion pipelineFile w = .error exn w' ∧
      w'.packageDir package = copied outputDir newEntries (w.packageDir package) := by
  obtain ⟨w', hrun, hdir⟩ := hthrough.run rfl
  rw [← hdir] at hold
  exact ⟨w', by simp [runGorgetPipeline, run_bind, hout, hrun, hold], hdir⟩

variable (hold : parseSourcesFile (copied outputDir newEntries (w.packageDir package)) sourcesName =
  .ok oldEntries)
include hold

theorem run_of_blocked
    (h : Removal (copied outputDir newEntries (w.packageDir package)) (superseded oldEntries newEntries) removed
      false) :
    ∃ exn w', runGorgetPipeline env package oldVersion newVersion pipelineFile w = .error exn w' ∧
      w'.packageDir package = removed.foldl Tree.unlink (copied outputDir newEntries (w.packageDir package)) := by
  obtain ⟨w₁, hrun, hdir⟩ := hthrough.run rfl
  obtain ⟨exn, w', hunlink, hdir'⟩ := h.run hdir
  rw [← hdir] at hold
  exact ⟨exn, w', by simp [runGorgetPipeline, run_bind, hout, hrun, hold, hunlink], hdir'⟩

theorem run_of_through
    (h : Removal (copied outputDir newEntries (w.packageDir package)) (superseded oldEntries newEntries) removed
      true) :
    ∃ out w', runGorgetPipeline env package oldVersion newVersion pipelineFile w = .ok out w' := by
  obtain ⟨w₁, hrun, hdir⟩ := hthrough.run rfl
  obtain ⟨w₂, hunlink, -⟩ := h.run hdir
  rw [← hdir] at hold
  simp only [runGorgetPipeline, run_bind, run_get, hout, lift_ok, hrun, hold, hunlink]
  exact ⟨_, _, rfl⟩

end

/-- When a run with this output leaves either all of the sources or none changed. -/
structure Harmless (env : Env) (overrides : Option File) (package : Str) (outputDir dir : Tree)
    (newEntries : List SourceEntry) : Prop where
  stopped : ∀ copies, Emission env overrides package outputDir dir newEntries copies false →
    SameCopies outputDir dir copies
  blocked : Emission env overrides package outputDir dir newEntries newEntries true →
    ∀ oldEntries removed, parseSourcesFile (copied outputDir newEntries dir) sourcesName = .ok oldEntries →
      Removal (copied outputDir newEntries dir) (superseded oldEntries newEntries) removed false →
      SameCopies outputDir dir newEntries ∧ ∀ n ∈ removed, dir.isFile n = false
  through : Emission env overrides package outputDir dir newEntries newEntries true →
    ∀ oldEntries removed, parseSourcesFile (copied outputDir newEntries dir) sourcesName = .ok oldEntries →
      Removal (copied outputDir newEntries dir) (superseded oldEntries newEntries) removed true →
      SelfListing outputDir dir newEntries

/-- A run that raised is all or nothing exactly when it has kept the sources. -/
theorem allOrNothing_of_error {exn : Exn} {w' : World}
    (hrun : runGorgetPipeline env package oldVersion newVersion pipelineFile w = .error exn w') :
    AllOrNothing env package oldVersion newVersion pipelineFile w ↔
      SourcesAsBefore (w.packageDir package) (w'.packageDir package) := by
  constructor
  · rintro ⟨hraises, -⟩
    exact hraises exn w' hrun
  · intro hkept
    refine ⟨?_, ?_⟩
    · intro exn' w₁ hrun₁
      obtain ⟨-, rfl⟩ := EStateM.Result.error.inj (hrun.symm.trans hrun₁)
      exact hkept
    · intro out w₁ hrun₁
      exact absurd (hrun.symm.trans hrun₁) (by simp)

/-- A run that returned is exactly under `SelfListing`. -/
theorem allOrNothing_of_ok {out : List Str} {w' : World}
    (hout : gorgetOutput env w package oldVersion newVersion pipelineFile = .ok (outputDir, newEntries))
    (hrun : runGorgetPipeline env package oldVersion newVersion pipelineFile w = .ok out w') :
    AllOrNothing env package oldVersion newVersion pipelineFile w ↔
      SelfListing outputDir (w.packageDir package) newEntries := by
  obtain ⟨outputDir₁, newEntries₁, es, hout₁, hlog, hups, -⟩ := runGorgetPipeline_log hrun
  obtain ⟨rfl, rfl⟩ := Prod.mk.inj (Except.ok.inj (hout.symm.trans hout₁))
  obtain ⟨outputDir₂, newEntries₂, oldEntries, hdone⟩ := runGorgetPipeline_ok hrun
  obtain ⟨rfl, rfl⟩ := Prod.mk.inj (Except.ok.inj (hout.symm.trans hdone.output))
  have hparsed := (gorgetOutput_ok_iff.mp hout).parsed
  have huploaded : ∀ e ∈ newEntries, ∃ f, outputDir.read e.filename = some f ∧ UploadedAs package es e f := by
    intro e he
    have hthere := hdone.emitted e he
    rw [Tree.isFile, Option.any_eq_true] at hthere
    obtain ⟨f, hread, -⟩ := hthere
    exact ⟨f, hread, hups e he f hread⟩
  rw [← replaced_iff hdone.emitted hparsed hdone.old huploaded, ← hdone.dir]
  constructor
  · rintro ⟨-, hreturns⟩
    obtain ⟨outputDir', newEntries', es', hout', hlog', hreplaced⟩ := hreturns out w' hrun
    obtain ⟨rfl, rfl⟩ := Prod.mk.inj (Except.ok.inj (hout.symm.trans hout'))
    obtain rfl := List.append_cancel_right (hlog.symm.trans hlog')
    exact hreplaced
  · intro hreplaced
    refine ⟨?_, ?_⟩
    · intro exn w₁ hrun₁
      exact absurd (hrun.symm.trans hrun₁) (by simp)
    · intro out₁ w₁ hrun₁
      obtain ⟨-, rfl⟩ := EStateM.Result.ok.inj (hrun.symm.trans hrun₁)
      exact ⟨outputDir, newEntries, es, hout, hlog, hreplaced⟩

/-- With output, a run is all or nothing exactly when the output is `Harmless`. -/
theorem allOrNothing_iff_harmless
    (hout : gorgetOutput env w package oldVersion newVersion pipelineFile = .ok (outputDir, newEntries)) :
    AllOrNothing env package oldVersion newVersion pipelineFile w ↔
      Harmless env w.overrides package outputDir (w.packageDir package) newEntries := by
  have hparsed := (gorgetOutput_ok_iff.mp hout).parsed
  constructor
  · intro h
    refine ⟨?_, ?_, ?_⟩
    · intro copies hstopped
      obtain ⟨exn, w', hrun, hdir⟩ := run_of_stopped hout hstopped
      rw [← kept_copied_iff hstopped.isFile, ← hdir]
      exact (allOrNothing_of_error hrun).mp h
    · intro hthrough oldEntries removed hold hblocked
      obtain ⟨exn, w', hrun, hdir⟩ := run_of_blocked hout hthrough hold hblocked
      rw [← kept_removed_iff hthrough.isFile hparsed hold hblocked.subset, ← hdir]
      exact (allOrNothing_of_error hrun).mp h
    · intro hthrough oldEntries removed hold hremoved
      obtain ⟨out, w', hrun⟩ := run_of_through hout hthrough hold hremoved
      exact (allOrNothing_of_ok hout hrun).mp h
  · intro h
    obtain ⟨copies, through, hemission⟩ := @Emission.exists env w.overrides package outputDir
      (w.packageDir package) newEntries
    cases through with
    | false =>
        obtain ⟨exn, w', hrun, hdir⟩ := run_of_stopped hout hemission
        rw [allOrNothing_of_error hrun, hdir, kept_copied_iff hemission.isFile]
        exact h.stopped copies hemission
    | true =>
        obtain rfl := hemission.copies_eq
        cases hold : parseSourcesFile (copied outputDir copies (w.packageDir package)) sourcesName with
        | error exn =>
            obtain ⟨w', hrun, hdir⟩ := run_of_unreadable hout hemission hold
            rw [allOrNothing_of_error hrun, hdir]
            exact kept_of_unreadable hemission.isFile hparsed hold
        | ok oldEntries =>
            obtain ⟨removed, through, hremoval⟩ := Removal.exists
              (copied outputDir copies (w.packageDir package)) (superseded oldEntries copies)
            cases through with
            | false =>
                obtain ⟨exn, w', hrun, hdir⟩ := run_of_blocked hout hemission hold hremoval
                rw [allOrNothing_of_error hrun, hdir,
                  kept_removed_iff hemission.isFile hparsed hold hremoval.subset]
                exact h.blocked hemission oldEntries removed hold hremoval
            | true =>
                obtain ⟨out, w', hrun⟩ := run_of_through hout hemission hold hremoval
                rw [allOrNothing_of_ok hout hrun]
                exact h.through hemission oldEntries removed hold hremoval

/-- **`allOrNothing_iff`** — exactly when a gorget run is all or nothing: gorget failed or emitted nothing
usable, or its output is `Harmless`. -/
theorem allOrNothing_iff :
    AllOrNothing env package oldVersion newVersion pipelineFile w ↔
      ∀ outputDir newEntries,
        gorgetOutput env w package oldVersion newVersion pipelineFile = .ok (outputDir, newEntries) →
        Harmless env w.overrides package outputDir (w.packageDir package) newEntries := by
  cases hout : gorgetOutput env w package oldVersion newVersion pipelineFile with
  | error exn =>
      -- nothing has been written
      have hrun : runGorgetPipeline env package oldVersion newVersion pipelineFile w = .error exn w := by
        simp [runGorgetPipeline, run_bind, hout]
      rw [allOrNothing_of_error hrun]
      refine iff_of_true (fun q _ => rfl) ?_
      intro outputDir newEntries h
      exact absurd h (by simp)
  | ok out =>
      rw [allOrNothing_iff_harmless (hout.trans rfl)]
      constructor
      · intro h outputDir newEntries heq
        obtain ⟨rfl, rfl⟩ := Prod.mk.inj (Except.ok.inj heq)
        exact h
      · intro h
        exact h out.1 out.2 rfl

end

/-! ## An upload that fails -/

/-- gorget renews a file the package has and adds the archive of the new version. -/
def renewedOutput : Tree :=
  Tree.ofList [("sources", .text "SHA512 (common.tar.gz) = 01\nSHA512 (pkg-2.0.tar.gz) = 02\n"),
    ("common.tar.gz", .text "new\n"), ("pkg-2.0.tar.gz", .text "archive\n")]

/-- The upload of the archive fails. -/
def stoppedEnv : Env :=
  { Env.offline with
    gorget := fun _ => ⟨.exited 0 [] [], renewedOutput⟩
    upload := fun cmd => if cmd.file = "rpms/pkg/common.tar.gz" then .exited 0 [] [] else .exited 1 [] [] }

def sharedWorld : World :=
  World.empty.setRpms "pkg" (Tree.ofList [("sources", .text "SHA512 (common.tar.gz) = 00\n"),
    ("common.tar.gz", .text "old\n")])

/-- **`sharedName_overwritten`** — the run raises, and the file that both `sources` list is gorget's. -/
theorem sharedName_overwritten :
    letI := asciiTables
    ¬ AllOrNothing stoppedEnv "pkg" "1.0" "2.0" (.text "fetch: []\n") sharedWorld := by
  let _ := asciiTables
  rintro ⟨hraises, -⟩
  have hrun : raises (runGorgetPipeline stoppedEnv "pkg" "1.0" "2.0" (.text "fetch: []\n")) sharedWorld
      (fun _ w' => (w'.packageDir "pkg").read "common.tar.gz" = some (.text "new\n")) = true := by
    decide +kernel
  obtain ⟨exn, w', hrun, hread⟩ := raises_iff.mp hrun
  have hlisted : (parseSourcesFile (sharedWorld.packageDir "pkg") sourcesName).toOption =
      some [⟨"SHA512", "common.tar.gz", "00"⟩] := by decide +kernel
  have hsourced : Sourced (sharedWorld.packageDir "pkg") "common.tar.gz" :=
    Or.inr ⟨_, except_toOption_iff.mp hlisted, List.mem_singleton_self _⟩
  have hkept := hraises exn w' hrun _ hsourced
  rw [of_decide_eq_true hread] at hkept
  exact absurd hkept (by decide)

end HummingbirdRpms
