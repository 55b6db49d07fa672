/-
# HummingbirdRpms.TrueHashes — whether what `sources` records is what was uploaded.

An entry of `sources` names a file, an algorithm and a hash, and a build fetches the file by all three: it
finds it only if the hash is the file's under that algorithm and the file was uploaded under it.  Four ways
add or change entries.  Gorget's copies what gorget emitted, a download records SHA512, the vendor archive
is hashed and uploaded under its entry's own algorithm; the `download_sources` hook keeps the algorithm of
the entry it renames and records a SHA512 hash.

**`trueHashes_of`** — when every entry that a run adds or changes is true: for gorget exactly when gorget
told the truth, for the vendor archive always, for downloads when no file is written twice, and for the
hook when each listed file finds an entry of algorithm SHA512 or none — and, where the old entries are
true to their algorithms, only then.  **`hook_keeps_algorithm`** is an MD5 entry after such a hook.
-/
import HummingbirdRpms.UniqueSources

namespace HummingbirdRpms

open Lib Lib.Text Lib.Regex Lib.Exec

section

variable {env : Env} {package oldVersion newVersion : Str} {entries entries' old : List SourceEntry}
  {es : List Event} {dir dir' : Tree} {w w₁ w₂ w' : World} {e : SourceEntry}

/-- An entry is true: the file of its name has its hash under its algorithm, and was uploaded under it. -/
def TrueEntry (env : Env) (package : Str) (dir : Tree) (es : List Event) (e : SourceEntry) : Prop :=
  ∃ f, dir.read e.filename = some f ∧ env.fileHash (lowerAscii e.algo) f = .ok e.hash ∧
    UploadedAs package es e f

/-- Every entry of `sources` that was not there before is true. -/
def TrueHashes [UnicodeTables] (env : Env) (package : Str) (old : List SourceEntry) (dir' : Tree)
    (es : List Event) : Prop :=
  ∀ entries', parseSourcesFile dir' sourcesName = .ok entries' →
    ∀ e ∈ entries', e ∉ old → TrueEntry env package dir' es e

/-- What the development relies on besides `SourceTools`: a directory has no digest. -/
structure HashTools (env : Env) : Prop where
  noDir : ∀ algo h, env.fileHash algo .dir ≠ .ok h

/-- What has a digest is a file. -/
theorem HashTools.isFile (ht : HashTools env) {q : Path} {f : File} {algo h : Str}
    (hread : dir.read q = some f) (hhash : env.fileHash algo f = .ok h) : dir.isFile q = true := by
  cases f with
  | dir => exact absurd hhash (ht.noDir algo h)
  | text s => exact Tree.isFile_of_read hread rfl
  | bytes b => exact Tree.isFile_of_read hread rfl

/-- An upload says nothing about the hash, and an algorithm in another case is the same. -/
theorem UploadedAs.congr {e' : SourceEntry} {f : File} (h : UploadedAs package es e f)
    (hname : e'.filename = e.filename) (halgo : lowerAscii e'.algo = lowerAscii e.algo) :
    UploadedAs package es e' f := by
  obtain ⟨bucket, h⟩ := h
  refine ⟨bucket, ?_⟩
  rw [uploadCommand, hname, halgo]
  exact h

/-! ## Gorget -/

/-- The uploads of a gorget run are of the emitted files. -/
theorem emitEntries_log {outputDir : Tree} {u : Unit}
    (h : emitEntries env package outputDir entries w = .ok u w') :
    ∃ es, w'.log = es ++ w.log ∧
      (∀ e ∈ entries, ∀ f, outputDir.read e.filename = some f → UploadedAs package es e f) ∧
      ∀ cmd file, .upload cmd file ∈ es → ∃ e ∈ entries,
        cmd.file = packagePath package e.filename ∧ file = outputDir.read e.filename := by
  induction entries generalizing w with
  | nil =>
      obtain ⟨_, rfl⟩ := EStateM.Result.ok.inj h
      exact ⟨[], rfl, by simp, by simp⟩
  | cons e entries ih =>
      obtain ⟨_, w₁, hemit, hrest⟩ := bind_ok_iff.mp h
      obtain ⟨es, hlog, hups, hfrom⟩ := ih hrest
      have hfile := (emitEntry_ok hemit).2
      simp only [emitEntry, bind_ok_iff, raiseIf_ok_iff] at hemit
      obtain ⟨_, _, ⟨_, rfl⟩, _, _, hget, _, _, ⟨_, rfl⟩, _, _, hmod, hup⟩ := hemit
      obtain ⟨rfl, rfl⟩ := EStateM.Result.ok.inj hget
      obtain ⟨_, rfl⟩ := EStateM.Result.ok.inj hmod
      obtain ⟨bucket, rfl⟩ := uploadToLookaside_ok hup
      obtain ⟨f, hread⟩ : ∃ f, outputDir.read e.filename = some f := by
        rw [Tree.isFile, Option.any_eq_true] at hfile
        exact hfile.imp fun f hf => hf.1
      rw [uploadedFile_packagePath, packageDir_setRpms, Tree.read_write_self, hread, Option.getD_some] at hlog
      refine ⟨es ++ [_], by rw [hlog, List.append_assoc]; rfl, ?_, ?_⟩
      · refine List.forall_mem_cons.mpr ⟨?_, fun e' he' f hf => (hups e' he' f hf).append_left _⟩
        intro f' hf'
        obtain rfl := Option.some.inj (hread.symm.trans hf')
        exact ⟨bucket, List.mem_append_right _ (List.mem_singleton_self _)⟩
      · intro cmd file hmem
        rcases List.mem_append.mp hmem with hmem | hmem
        · obtain ⟨e', he', hcmd, hfile'⟩ := hfrom cmd file hmem
          exact ⟨e', List.mem_cons_of_mem _ he', hcmd, hfile'⟩
        · obtain ⟨rfl, rfl⟩ := Event.upload.inj (List.mem_singleton.mp hmem)
          exact ⟨e, List.mem_cons_self, rfl, hread.symm⟩

theorem packagePath_inj {a b : Str} (h : packagePath package a = packagePath package b) : a = b :=
  List.append_cancel_left h

variable [UnicodeTables]

/-- What gorget emitted is true: of each new entry, the emitted file has the hash. -/
def EmittedTrue (env : Env) (old : List SourceEntry) (outputDir : Tree) (newEntries : List SourceEntry) : Prop :=
  ∀ e ∈ newEntries, e ∉ old → ∃ f, outputDir.read e.filename = some f ∧
    env.fileHash (lowerAscii e.algo) f = .ok e.hash ∧
    (e.filename = sourcesName → f = .text (renderSources newEntries))

/-- What a gorget run has uploaded. -/
theorem runGorgetPipeline_log {pipelineFile : File} {out : List Str}
    (h : runGorgetPipeline env package oldVersion newVersion pipelineFile w = .ok out w') :
    ∃ outputDir newEntries es, gorgetOutput env w package oldVersion newVersion pipelineFile =
        .ok (outputDir, newEntries) ∧ w'.log = es ++ w.log ∧
      (∀ e ∈ newEntries, ∀ f, outputDir.read e.filename = some f → UploadedAs package es e f) ∧
      ∀ cmd file, .upload cmd file ∈ es → ∃ e ∈ newEntries,
        cmd.file = packagePath package e.filename ∧ file = outputDir.read e.filename := by
  simp only [runGorgetPipeline, bind_ok_iff, lift_ok_iff] at h
  obtain ⟨_, _, hget, ⟨outputDir, newEntries⟩, _, ⟨hout, rfl⟩, _, w₁, hemit, _, _, hget', oldEntries, _,
    ⟨_, rfl⟩, _, w₂, hunlink, _, _, hmod, hret⟩ := h
  obtain ⟨rfl, rfl⟩ := EStateM.Result.ok.inj hget
  obtain ⟨rfl, rfl⟩ := EStateM.Result.ok.inj hget'
  obtain ⟨_, rfl⟩ := EStateM.Result.ok.inj hmod
  obtain ⟨_, rfl⟩ := EStateM.Result.ok.inj hret
  obtain ⟨es, hlog, hups, hfrom⟩ := emitEntries_log hemit
  refine ⟨outputDir, newEntries, .gorget package pipelineFile (renderSources newEntries) :: es, hout, ?_, ?_, ?_⟩
  · rw [List.cons_append, ← hlog, ← unlinkAll_log hunlink]
    rfl
  · intro e he f hf
    exact (hups e he f hf).append_right [_]
  · intro cmd file hmem
    rcases List.mem_cons.mp hmem with hmem | hmem
    · exact absurd hmem (by simp)
    · exact hfrom cmd file hmem

omit [UnicodeTables] in
/-- The content of an emitted file after the run. -/
theorem read_refreshed {outputDir : Tree} {newEntries oldEntries : List SourceEntry} (he : e ∈ newEntries)
    (hfiles : ∀ e ∈ newEntries, outputDir.isFile e.filename = true) :
    (refreshed outputDir newEntries oldEntries dir).read e.filename =
      if e.filename = sourcesName then some (.text (renderSources newEntries))
      else outputDir.read e.filename := by
  rw [refreshed, Tree.read_write]
  split
  · rfl
  · have hmem : e.filename ∈ newEntries.map (·.filename) := List.mem_map_of_mem he
    have hfile : (copied outputDir newEntries dir).isFile e.filename = true := by
      rw [isFile_copied hfiles, decide_eq_true hmem, Bool.true_or]
    have hkept : e.filename ∉ superseded oldEntries newEntries := fun h => (mem_superseded.mp h).2 hmem
    obtain ⟨f, hread⟩ : ∃ f, outputDir.read e.filename = some f := by
      have hthere := hfiles e he
      rw [Tree.isFile, Option.any_eq_true] at hthere
      exact hthere.imp fun f hf => hf.1
    rw [read_foldl_unlink hfile hkept, read_copied, if_pos hmem, hread, Option.getD_some]

/-- After a gorget run the new entries are true exactly when gorget's were. -/
theorem gorget_trueHashes_iff {pipelineFile : File} {out : List Str} {outputDir : Tree}
    {newEntries : List SourceEntry}
    (hout : gorgetOutput env w package oldVersion newVersion pipelineFile = .ok (outputDir, newEntries))
    (hrun : runGorgetPipeline env package oldVersion newVersion pipelineFile w = .ok out w')
    (hes : w'.log = es ++ w.log) :
    TrueHashes env package old (w'.packageDir package) es ↔ EmittedTrue env old outputDir newEntries := by
  obtain ⟨outputDir₁, newEntries₁, es₁, hout₁, hlog, hups, hfrom⟩ := runGorgetPipeline_log hrun
  obtain ⟨rfl, rfl⟩ := Prod.mk.inj (Except.ok.inj (hout.symm.trans hout₁))
  obtain rfl := List.append_cancel_right (hes.symm.trans hlog)
  obtain ⟨outputDir₂, newEntries₂, oldEntries, hdone⟩ := runGorgetPipeline_ok hrun
  obtain ⟨rfl, rfl⟩ := Prod.mk.inj (Except.ok.inj (hout.symm.trans hdone.output))
  have hwf := wellFormed_of_parseSourcesFile (gorgetOutput_ok_iff.mp hout).parsed
  have hparse : parseSourcesFile (w'.packageDir package) sourcesName = .ok newEntries := by
    rw [hdone.dir, refreshed, parseSourcesFile_render, readEntries_of_wellFormed hwf]
  rw [hdone.dir] at hparse ⊢
  constructor
  · intro htrue e he hnew
    obtain ⟨f, hread, hhash, bucket, hup⟩ := htrue newEntries hparse e he hnew
    obtain ⟨e', he', hfile, hcontent⟩ := hfrom _ _ hup
    have hsame : e.filename = e'.filename := packagePath_inj hfile
    refine ⟨f, by rw [hsame]; exact hcontent.symm, hhash, fun hname => ?_⟩
    rw [read_refreshed he hdone.emitted, if_pos hname] at hread
    exact (Option.some.inj hread).symm
  · intro htold entries' hentries' e he hnew
    obtain rfl := Except.ok.inj (hparse.symm.trans hentries')
    obtain ⟨f, hread, hhash, hsources⟩ := htold e he hnew
    refine ⟨f, ?_, hhash, hups e he f hread⟩
    rw [read_refreshed he hdone.emitted]
    split
    · rename_i hname
      rw [hsources hname]
    · exact hread

end

/-! ## Downloads and the vendor archive -/

section

variable {env : Env} {package oldVersion newVersion : Str} {entries entries' : List SourceEntry}
  {urls : List (Nat × Str)} {vendorFile : Option Str} {es : List Event} {dir : Tree} {w w₁ w₂ w' : World}
  {e : SourceEntry} {q : Path} {f : File}

/-- A file that is neither stale nor `sources` keeps its content when these are dealt with. -/
theorem read_written {stale : List Path} {text : Str} (hfile : dir.isFile q = true) (hstale : q ∉ stale)
    (hq : q ≠ sourcesName) :
    ((stale.foldl Tree.unlink dir).write sourcesName (.text text)).read q = dir.read q := by
  rw [Tree.read_write_ne hq, read_foldl_unlink hfile hstale]

/-- The last download of a name is what the directory has. -/
theorem read_withFetched (h : q ∈ urlNames urls) :
    ∃ u ∈ urls, basename u.2 = q ∧ (withFetched env urls dir).read q = some (fetchedContent env u.2) := by
  induction urls generalizing dir with
  | nil => exact absurd h (by simp)
  | cons u urls ih =>
      by_cases hq : q ∈ urlNames urls
      · obtain ⟨u', hu', hname, hread⟩ := @ih (dir.write (basename u.2) (fetchedContent env u.2)) hq
        exact ⟨u', List.mem_cons_of_mem _ hu', hname, hread⟩
      · rw [urlNames, List.map_cons, List.mem_cons] at h
        obtain rfl := h.resolve_right hq
        refine ⟨u, List.mem_cons_self, rfl, ?_⟩
        rw [withFetched, List.foldl_cons]
        refine (read_withFetched_of_notMem hq).trans ?_
        rw [Tree.read_write_self]

/-- What a fetch needs for its entries to be true: missing sources of one name are the same file, none is
called `sources`, and the renewal of a vendor archive leaves the other downloads as they came. -/
structure FetchTrue (env : Env) (oldVersion newVersion : Str) (dir : Tree) (listed : List Str)
    (urls : List (Nat × Str)) : Prop where
  same : ∀ u ∈ missingUrls listed urls, ∀ u' ∈ missingUrls listed urls, basename u.2 = basename u'.2 →
    fetchedContent env u.2 = fetchedContent env u'.2
  notSources : sourcesName ∉ missingNames listed urls
  vendor : ∀ v spec, renewedName dir (listed ++ missingNames listed urls) = some v → dir.glob ".spec" = [spec] →
    replace oldVersion newVersion v ≠ sourcesName ∧ (missingNames listed urls).count v ≤ 1 ∧
      ∀ u ∈ missingUrls listed urls, basename u.2 ≠ v →
        (env.goVendorArchive dir spec).dir.read (basename u.2) = some (fetchedContent env u.2)

/-- The entry of a renewed vendor archive is true. -/
theorem Renewed.true (ht : HashTools env) {v : SourceEntry} {spec newName : Path} {newHash : Str}
    (h : Renewed env package v spec newName f newHash w w') :
    (w'.packageDir package).read newName = some f ∧ (w'.packageDir package).isFile newName = true := by
  have hfile := ht.isFile h.made h.hashed
  have hnot : newName ∉ (if v.filename = newName then [] else [v.filename]) := by
    split
    · exact List.not_mem_nil
    · rename_i hne
      rw [List.mem_singleton]
      exact Ne.symm hne
  rw [h.dir]
  refine ⟨by rw [read_foldl_unlink hfile hnot, h.made], ?_⟩
  rw [isFile_foldl_unlink, hfile, decide_eq_true hnot]
  rfl

/-- Whatever renews a vendor archive leaves a true entry. -/
theorem VendorStep.trueHashes (ht : HashTools env)
    (h : VendorStep env package oldVersion newVersion entries w vendorFile entries' w')
    (hes : w'.log = es ++ w.log) :
    ∀ e ∈ entries', e ∉ entries → TrueEntry env package (w'.packageDir package) es e := by
  cases h with
  | kept => exact fun e he hnew => absurd he hnew
  | @renewed v spec content newHash _ hsource done =>
      obtain ⟨es', hlog, hup⟩ := done.log
      obtain rfl := List.append_cancel_right (hes.symm.trans hlog)
      obtain ⟨pre, post, hsplit, -, -, hreplace⟩ := replaceFirst_split (vendorSource_mem hsource)
      intro e he hnew
      rw [hsplit] at hnew
      rw [hreplace] at he
      rcases List.mem_append.mp he with he | he
      · exact absurd (List.mem_append_left _ he) hnew
      · rcases List.mem_cons.mp he with rfl | he
        · exact ⟨content, (done.true ht).1, done.hashed, hup⟩
        · exact absurd (List.mem_append_right _ (List.mem_cons_of_mem _ he)) hnew

namespace Fetched

variable (h : Fetched env package oldVersion newVersion entries urls entries' vendorFile w w₁ w₂ w')
include h

/-- The content of a downloaded file when the downloads are through. -/
theorem read_downloaded
    (hfetch : FetchTrue env oldVersion newVersion (vendorDir env (w.packageDir package) entries urls)
      (fileNames entries) urls) {u : Nat × Str} (hu : u ∈ missingUrls (fileNames entries) urls) :
    (w₁.packageDir package).read (basename u.2) = some (fetchedContent env u.2) := by
  have hmem : basename u.2 ∈ missingNames (fileNames entries) urls := List.mem_map_of_mem hu
  obtain ⟨u', hu', hname, hread⟩ := @read_withFetched env (missingUrls (fileNames entries) urls)
    (w.packageDir package) _ hmem
  rw [h.downloaded.dir, hread, hfetch.same u' hu' u hu hname]

/-- What a fetch has left among the entries: an old one, a download that is still there as it was uploaded,
or the renewed archive. -/
theorem cases_of_mem (ht : HashTools env)
    (hfetch : FetchTrue env oldVersion newVersion (vendorDir env (w.packageDir package) entries urls)
      (fileNames entries) urls) (he : e ∈ entries') :
    e ∈ entries ∨
      (∃ u ∈ missingUrls (fileNames entries) urls, e = fetchedEntry env u ∧
        (w₂.packageDir package).read (basename u.2) = some (fetchedContent env u.2)) ∨
      ∃ v spec f newHash, e = { v with filename := replace oldVersion newVersion v.filename, hash := newHash } ∧
        e.filename ≠ sourcesName ∧
        Renewed env package v spec (replace oldVersion newVersion v.filename) f newHash w₁ w₂ := by
  have hvendor := h.vendor
  cases hvendor with
  | kept hkept =>
      rcases List.mem_append.mp he with he | he
      · exact Or.inl he
      · obtain ⟨u, hu, rfl⟩ := List.mem_map.mp he
        exact Or.inr (Or.inl ⟨u, hu, rfl, h.read_downloaded hfetch hu⟩)
  | @renewed v spec content newHash _ hsource done =>
      have hdir : w₁.packageDir package = vendorDir env (w.packageDir package) entries urls := h.downloaded.dir
      have hname : renewedName (vendorDir env (w.packageDir package) entries urls)
          (fileNames entries ++ missingNames (fileNames entries) urls) = some v.filename := by
        rw [h.renewedName_eq, show vendorSource _ _ = _ from hsource]
        rfl
      have hglob : (vendorDir env (w.packageDir package) entries urls).glob ".spec" = [spec] := by
        rw [← hdir]
        exact glob_of_vendorSource hsource
      obtain ⟨hnotSources, honce, hleft⟩ := hfetch.vendor _ spec hname hglob
      obtain ⟨pre, post, hsplit, hvv, hpre, hreplace⟩ := replaceFirst_split (vendorSource_mem hsource)
      rw [hreplace] at he
      rcases List.mem_cons.mp (List.perm_middle.mem_iff.mp he) with rfl | he
      · exact Or.inr (Or.inr ⟨v, spec, content, newHash, rfl, hnotSources, done⟩)
      · have hmem : e ∈ entries ++ (missingUrls (fileNames entries) urls).map (fetchedEntry env) := by
          rw [show _ ++ _ = _ from hsplit]
          exact List.perm_middle.mem_iff.mpr (List.mem_cons_of_mem v he)
        rcases List.mem_append.mp hmem with hold | hadded
        · exact Or.inl hold
        · obtain ⟨u, hu, rfl⟩ := List.mem_map.mp hadded
          refine Or.inr (Or.inl ⟨u, hu, rfl, ?_⟩)
          have hother : basename u.2 ≠ v.filename := by
            -- of the only missing source with the archive's name the entry is the one renewed
            intro hsame
            have htwo : 2 ≤ (fileNames entries ++ missingNames (fileNames entries) urls).count v.filename := by
              have hsecond : v.filename ∈ fileNames (pre ++ post) := mem_fileNames.mpr ⟨_, he, hsame⟩
              have hperm : (fileNames (pre ++ v :: post)).Perm (v.filename :: fileNames (pre ++ post)) :=
                List.perm_middle.map _
              rw [← fileNames_added, hsplit, hperm.count_eq, List.count_cons_self]
              have hone := List.count_pos_iff.mpr hsecond
              omega
            have hzero : (fileNames entries).count v.filename = 0 :=
              List.count_eq_zero.mpr (hsame ▸ (mem_missingUrls.mp hu).2)
            rw [List.count_append] at htwo
            omega
          have hread := hleft u hu hother
          rw [← hdir] at hread
          have hkept : basename u.2 ∉
              (if v.filename = replace oldVersion newVersion v.filename then [] else [v.filename]) := by
            split
            · exact List.not_mem_nil
            · exact fun hin => hother (List.mem_singleton.mp hin)
          rw [done.dir, read_foldl_unlink (ht.isFile hread (h.downloaded.hashed u hu)) hkept, hread]

/-- The events of a fetch: those of the downloads, then those of the vendor archive. -/
theorem log_eq (hes : w'.log = es ++ w.log) :
    ∃ es₁ es₂, es = es₂ ++ es₁ ∧ w₂.log = es₂ ++ w₁.log ∧
      ∀ u ∈ missingUrls (fileNames entries) urls,
        UploadedAs package es₁ (fetchedEntry env u) (fetchedContent env u.2) := by
  obtain ⟨es₁, hlog₁, hups⟩ := h.downloaded.log
  have hsame : w'.log = w₂.log := by
    rcases h.written with ⟨-, -, -, rfl⟩ | ⟨-, hlog⟩
    · rfl
    · exact hlog
  obtain ⟨es₂, hlog₂⟩ : ∃ es₂, w₂.log = es₂ ++ w₁.log := by
    have hvendor := h.vendor
    cases hvendor with
    | kept => exact ⟨[], rfl⟩
    | renewed _ done => exact done.log.imp fun _ hlog => hlog.1
  refine ⟨es₁, es₂, ?_, hlog₂, hups⟩
  rw [hsame, hlog₂, hlog₁, ← List.append_assoc] at hes
  exact (List.append_cancel_right hes).symm

/-- Under `FetchTrue` every entry that a fetch adds or changes is true. -/
theorem trueHashes [UnicodeTables] (ht : SourceTools env) (hash : HashTools env)
    (hparse : parseSourcesFile (w.packageDir package) sourcesName = .ok entries)
    (hurls : ∀ u ∈ urls, Unbroken u.2) (hversion : Unbroken newVersion)
    (hfetch : FetchTrue env oldVersion newVersion (vendorDir env (w.packageDir package) entries urls)
      (fileNames entries) urls) (hes : w'.log = es ++ w.log) :
    TrueHashes env package entries (w'.packageDir package) es := by
  have hold := wellFormed_of_parseSourcesFile hparse
  intro written hwritten e he hnew
  rcases h.written with ⟨hmissing, hnone, -, rfl⟩ | ⟨hdir, -⟩
  · -- nothing was written
    rw [h.quiet hmissing hnone] at hwritten
    obtain rfl := Except.ok.inj (hparse.symm.trans hwritten)
    exact absurd he hnew
  · rw [hdir] at hwritten ⊢
    rw [parseSourcesFile_render] at hwritten
    obtain rfl := Except.ok.inj hwritten
    have hone := h.oneLine ht hold hurls hversion
    rw [readEntries_of_oneLine fun e he => hone e (List.mem_filter.mp he).1] at he
    obtain ⟨he, hstale⟩ := List.mem_filter.mp (List.mem_filter.mp he).1
    have hstale : e.filename ∉ staleAfter (fileNames entries) urls entries' := by simpa using hstale
    obtain ⟨es₁, es₂, rfl, hlog₂, hups⟩ := h.log_eq hes
    rcases h.cases_of_mem hash hfetch he with hlisted | ⟨u, hu, rfl, hread⟩ |
      ⟨v, spec, f, newHash, rfl, hname, done⟩
    · exact absurd hlisted hnew
    · have hhash := h.downloaded.hashed u hu
      have hname : basename u.2 ≠ sourcesName := by
        intro heq
        exact hfetch.notSources (heq ▸ List.mem_map_of_mem hu)
      refine ⟨fetchedContent env u.2, ?_, hhash, (hups u hu).append_right _⟩
      exact (read_written (hash.isFile hread hhash) hstale hname).trans hread
    · obtain ⟨hread, hfile⟩ := done.true hash
      obtain ⟨es', hlog, hup⟩ := done.log
      obtain rfl := List.append_cancel_right (hlog₂.symm.trans hlog)
      refine ⟨f, ?_, done.hashed, hup.append_left _⟩
      exact (read_written hfile hstale hname).trans hread

end Fetched

end

/-! ## The hook -/

section

variable {env : Env} {package oldVersion newVersion f hash : Str} {entries : List SourceEntry}
  {filenames : List Str} {es : List Event} {dir : Tree} {w w₁ w' : World} {e : SourceEntry}

/-- The first entry that a listed file may be recorded in. -/
def entryOf (oldVersion newVersion f : Str) (entries : List SourceEntry) : Option SourceEntry :=
  entries.find? fun e => isListedName oldVersion newVersion f e.filename

/-- Each listed file finds, in its turn, an entry of algorithm SHA512 or none. -/
def AlgoKept (env : Env) (dir : Tree) (oldVersion newVersion : Str) : List Str → List SourceEntry → Prop
  | [], _ => True
  | f :: filenames, entries =>
      (∀ a, entryOf oldVersion newVersion f entries = some a → lowerAscii a.algo = lowerAscii "SHA512") ∧
        AlgoKept env dir oldVersion newVersion filenames
          (recordHookFile oldVersion newVersion f (listedDigest env dir f) entries)

/-- What a listed file has been recorded as stays, or another listed file is recorded in its place under the
same algorithm. -/
theorem recordHookFile_keeps (he : e ∈ entries) :
    e ∈ recordHookFile oldVersion newVersion f hash entries ∨
      ⟨e.algo, f, hash⟩ ∈ recordHookFile oldVersion newVersion f hash entries := by
  unfold recordHookFile
  dsimp only
  split
  · rename_i hany
    obtain ⟨v, hfind⟩ := Option.isSome_iff_exists.mp (List.find?_isSome.mpr (List.any_eq_true.mp hany))
    obtain ⟨pre, post, rfl, -, -, hreplace⟩ := replaceFirst_split hfind
    rw [hreplace]
    rcases List.mem_cons.mp (List.perm_middle.mem_iff.mp he) with rfl | he
    · exact Or.inr (List.perm_middle.mem_iff.mpr List.mem_cons_self)
    · exact Or.inl (List.perm_middle.mem_iff.mpr (List.mem_cons_of_mem _ he))
  · exact Or.inl (List.mem_append_left _ he)

/-- The entry that a listed file takes over has its algorithm and its hash afterwards. -/
theorem entryOf_taken {a : SourceEntry} (h : entryOf oldVersion newVersion f entries = some a) :
    ⟨a.algo, f, hash⟩ ∈ recordHookFile oldVersion newVersion f hash entries := by
  have hany : (entries.any fun e => isListedName oldVersion newVersion f e.filename) = true :=
    List.any_eq_true.mpr ⟨a, List.mem_of_find?_eq_some h, (List.find?_eq_some_iff_append.mp h).1⟩
  have hrecord : recordHookFile oldVersion newVersion f hash entries =
      replaceFirst (fun e => isListedName oldVersion newVersion f e.filename)
        (fun e => { e with filename := f, hash }) entries := if_pos hany
  rw [hrecord]
  obtain ⟨pre, post, rfl, -, -, hreplace⟩ := replaceFirst_split h
  rw [hreplace]
  exact List.perm_middle.mem_iff.mpr List.mem_cons_self

/-- Under `AlgoKept` the loop records digests of its own algorithm only. -/
theorem recorded_cases (h : AlgoKept env dir oldVersion newVersion filenames entries)
    (he : e ∈ recorded env dir oldVersion newVersion filenames entries) :
    e ∈ entries ∨ lowerAscii e.algo = lowerAscii "SHA512" ∧ e.filename ∈ filenames ∧
      e.hash = listedDigest env dir e.filename := by
  induction filenames generalizing entries with
  | nil => exact Or.inl he
  | cons f filenames ih =>
      obtain ⟨hkept, hrest⟩ := h
      rcases ih hrest he with he | ⟨halgo, hlisted, hdigest⟩
      · rcases mem_recordHookFile he with he | rfl | ⟨a, ha, rfl⟩
        · exact Or.inl he
        · exact Or.inr ⟨rfl, List.mem_cons_self, rfl⟩
        · exact Or.inr ⟨hkept a ha, List.mem_cons_self, rfl⟩
      · exact Or.inr ⟨halgo, List.mem_cons_of_mem f hlisted, hdigest⟩

/-- An entry of another algorithm with the SHA512 digest of a listed file. -/
def Mislabelled (env : Env) (dir : Tree) (filenames : List Str) (e : SourceEntry) : Prop :=
  lowerAscii e.algo ≠ lowerAscii "SHA512" ∧ ∃ f ∈ filenames, e.hash = listedDigest env dir f

/-- A mislabelled entry never goes away: what takes it over is mislabelled in turn. -/
theorem Mislabelled.persists {listed : List Str} (hsub : ∀ f ∈ filenames, f ∈ listed)
    (h : ∃ e ∈ entries, Mislabelled env dir listed e) :
    ∃ e ∈ recorded env dir oldVersion newVersion filenames entries, Mislabelled env dir listed e := by
  induction filenames generalizing entries with
  | nil => exact h
  | cons f filenames ih =>
      obtain ⟨hf, hsub⟩ := List.forall_mem_cons.mp hsub
      obtain ⟨e, he, halgo, hhash⟩ := h
      refine ih hsub ?_
      rcases @recordHookFile_keeps oldVersion newVersion f (listedDigest env dir f) entries e he with hkept | htaken
      · exact ⟨e, hkept, halgo, hhash⟩
      · exact ⟨_, htaken, halgo, f, hf, rfl⟩

/-- Without `AlgoKept` the loop leaves a mislabelled entry. -/
theorem mislabelled_of_not_algoKept {listed : List Str} (hsub : ∀ f ∈ filenames, f ∈ listed)
    (h : ¬ AlgoKept env dir oldVersion newVersion filenames entries) :
    ∃ e ∈ recorded env dir oldVersion newVersion filenames entries, Mislabelled env dir listed e := by
  induction filenames generalizing entries with
  | nil => exact absurd trivial h
  | cons f filenames ih =>
      obtain ⟨hf, hrest⟩ := List.forall_mem_cons.mp hsub
      by_cases hfirst : ∀ a, entryOf oldVersion newVersion f entries = some a →
          lowerAscii a.algo = lowerAscii "SHA512"
      · exact ih hrest fun hkept => h ⟨hfirst, hkept⟩
      · push Not at hfirst
        obtain ⟨a, ha, halgo⟩ := hfirst
        have hmis : ∃ e ∈ recordHookFile oldVersion newVersion f (listedDigest env dir f) entries,
            Mislabelled env dir listed e := ⟨_, entryOf_taken ha, halgo, f, hf, rfl⟩
        have hlast : ∃ e ∈ recorded env dir oldVersion newVersion filenames
            (recordHookFile oldVersion newVersion f (listedDigest env dir f) entries),
            Mislabelled env dir listed e := Mislabelled.persists hrest hmis
        exact hlast

variable [UnicodeTables]

namespace HookDone

variable (h : HookDone env package oldVersion newVersion dir filenames entries w w₁ w')
include h

omit [UnicodeTables] in
theorem digest (hf : f ∈ filenames) :
    ∃ content, dir.read f = some content ∧
      env.fileHash (lowerAscii "SHA512") content = .ok (listedDigest env dir f) := by
  have hup := h.uploaded.files f hf
  rwa [packageDir_setRpms] at hup

/-- The entries of the `sources` file that a hook leaves. -/
theorem parse_recorded (ht : SourceTools env) (hfiles : ∀ f ∈ filenames, f ≠ [] ∧ Unbroken f)
    (hparse : parseSourcesFile dir sourcesName = .ok entries) :
    parseSourcesFile (w'.packageDir package) sourcesName =
      .ok (recorded env dir oldVersion newVersion filenames entries) := by
  rcases h.written with ⟨rfl, rfl⟩ | ⟨hdir, -⟩
  · rw [h.uploaded.dir, packageDir_setRpms, hparse]
    rfl
  · have hdigests : ∀ f ∈ filenames, ∃ content,
        env.fileHash (lowerAscii "SHA512") content = .ok (listedDigest env dir f) := by
      intro f hf
      obtain ⟨content, -, hdigest⟩ := h.digest hf
      exact ⟨content, hdigest⟩
    rw [hdir, parseSourcesFile_render, readEntries_of_wellFormed
      (wellFormed_recorded ht hfiles hdigests (wellFormed_of_parseSourcesFile hparse))]

omit [UnicodeTables] in
theorem log_eq : w'.log = w₁.log := by
  rcases h.written with ⟨-, rfl⟩ | ⟨-, hlog⟩
  · rfl
  · exact hlog

/-- A hook leaves true entries when each listed file finds an entry of algorithm SHA512 or none. -/
theorem trueHashes (ht : SourceTools env) (hfiles : ∀ f ∈ filenames, f ≠ [] ∧ Unbroken f)
    (hnot : sourcesName ∉ filenames) (hparse : parseSourcesFile dir sourcesName = .ok entries)
    (hes : w'.log = es ++ w.log) (hkept : AlgoKept env dir oldVersion newVersion filenames entries) :
    TrueHashes env package entries (w'.packageDir package) es := by
  intro entries' hentries' e he hnew
  obtain rfl := Except.ok.inj ((h.parse_recorded ht hfiles hparse).symm.trans hentries')
  obtain ⟨halgo, hlisted, hhash⟩ := (recorded_cases hkept he).resolve_left hnew
  obtain ⟨content, hread, hdigest⟩ := h.digest hlisted
  obtain ⟨es', hlog, hups, -⟩ := h.uploaded.log
  obtain rfl : es = es' := List.append_cancel_right (hes.symm.trans (h.log_eq.trans hlog))
  refine ⟨content, ?_, ?_, ?_⟩
  · rcases h.written with ⟨rfl, -⟩ | ⟨hdir, -⟩
    · exact absurd hlisted List.not_mem_nil
    · have hother : e.filename ≠ sourcesName := fun heq => hnot (heq ▸ hlisted)
      rw [hdir, Tree.read_write_ne hother, hread]
  · rw [halgo, hhash, hdigest]
  · have hread' : ((w.setRpms package dir).packageDir package).read e.filename = some content := by
      rw [packageDir_setRpms, hread]
    exact (hups _ hlisted content hread' e.hash).congr rfl halgo

/-- Where no old entry of another algorithm has a listed file's SHA512 digest, only then. -/
theorem algoKept (ht : SourceTools env) (hfiles : ∀ f ∈ filenames, f ≠ [] ∧ Unbroken f)
    (hparse : parseSourcesFile dir sourcesName = .ok entries)
    (htold : ∀ e ∈ entries, ¬ Mislabelled env dir filenames e) (hes : w'.log = es ++ w.log)
    (htrue : TrueHashes env package entries (w'.packageDir package) es) :
    AlgoKept env dir oldVersion newVersion filenames entries := by
  by_contra hkept
  obtain ⟨e, he, hmis⟩ := mislabelled_of_not_algoKept (fun f hf => hf) hkept
  obtain ⟨content, -, -, bucket, hup⟩ :=
    htrue _ (h.parse_recorded ht hfiles hparse) e he fun hold => htold e hold hmis
  -- all the uploads of the loop are of SHA512
  obtain ⟨es', hlog, -, htypes⟩ := h.uploaded.log
  obtain rfl : es = es' := List.append_cancel_right (hes.symm.trans (h.log_eq.trans hlog))
  exact hmis.1 (Option.some.inj (htypes _ _ hup))

end HookDone

end

/-! ## The four ways -/

section

variable [UnicodeTables] {env : Env} {package oldVersion newVersion : Str}

/-- A run of `download_new_sources` whose downloads do not overwrite each other. -/
theorem downloadNewSources_trueHashes {w w' : World} {out : List Str} {es : List Event}
    {entries : List SourceEntry} (ht : SourceTools env) (hash : HashTools env) (hversion : Unbroken newVersion)
    (hparse : parseSourcesFile (w.packageDir package) sourcesName = .ok entries)
    (hrun : downloadNewSources env package oldVersion newVersion w = .ok out w') (hes : w'.log = es ++ w.log)
    (hfetch : ∀ spec specSources, (w.packageDir package).glob ".spec" = [spec] →
      env.specSources (w.packageDir package) spec = .ok specSources →
      (entries ≠ [] ∧ specSourceUrls specSources = []) ∨
        FetchTrue env oldVersion newVersion
          (vendorDir env (w.packageDir package) entries (specSourceUrls specSources)) (fileNames entries)
          (specSourceUrls specSources)) :
    TrueHashes env package entries (w'.packageDir package) es := by
  have hquiet : w' = w → TrueHashes env package entries (w'.packageDir package) es := by
    rintro rfl entries' hentries' e he hnew
    obtain rfl := Except.ok.inj (hparse.symm.trans hentries')
    exact absurd he hnew
  by_cases hglob : ∃ spec, (w.packageDir package).glob ".spec" = [spec]
  · obtain ⟨spec, hglob⟩ := hglob
    obtain ⟨entries₁, specSources, hparse₁, hsources, hcases⟩ := downloadNewSources_ok hglob hrun
    obtain rfl := Except.ok.inj (hparse.symm.trans hparse₁)
    rcases hcases with ⟨hwhen, entries', vendorFile, w₁, w₂, hfetched⟩ | ⟨-, -, rfl⟩
    · have hurls : ∀ u ∈ specSourceUrls specSources, Unbroken u.2 := fun u hu =>
        ht.oneLine _ _ _ hsources u (List.mem_filter.mp hu).1
      rcases hfetch spec specSources hglob hsources with ⟨hlisted, hnourls⟩ | hfetch
      · exact absurd hwhen (by simp [hlisted, hnourls])
      · exact hfetched.trueHashes ht hash hparse hurls hversion hfetch hes
    · exact hquiet rfl
  · exact hquiet (downloadNewSources_of_no_spec hglob hrun)

/-- **`trueHashes_of`** — when each of the four ways to update `sources` leaves only true entries besides
the old ones. -/
theorem trueHashes_of (ht : SourceTools env) (hash : HashTools env) :
    (∀ pipelineFile out outputDir newEntries old es w w',
      gorgetOutput env w package oldVersion newVersion pipelineFile = .ok (outputDir, newEntries) →
      runGorgetPipeline env package oldVersion newVersion pipelineFile w = .ok out w' →
      w'.log = es ++ w.log →
      (TrueHashes env package old (w'.packageDir package) es ↔ EmittedTrue env old outputDir newEntries)) ∧
    (∀ out entries es w w', Unbroken newVersion →
      parseSourcesFile (w.packageDir package) sourcesName = .ok entries →
      downloadNewSources env package oldVersion newVersion w = .ok out w' →
      w'.log = es ++ w.log →
      (∀ spec specSources, (w.packageDir package).glob ".spec" = [spec] →
        env.specSources (w.packageDir package) spec = .ok specSources →
        (entries ≠ [] ∧ specSourceUrls specSources = []) ∨
          FetchTrue env oldVersion newVersion
            (vendorDir env (w.packageDir package) entries (specSourceUrls specSources)) (fileNames entries)
            (specSourceUrls specSources)) →
      TrueHashes env package entries (w'.packageDir package) es) ∧
    (∀ entries entries' vendorFile es w w',
      regenerateVendorArchive env package oldVersion newVersion entries w = .ok (vendorFile, entries') w' →
      w'.log = es ++ w.log →
      ∀ e ∈ entries', e ∉ entries → TrueEntry env package (w'.packageDir package) es e) ∧
    ∀ command stdout stderr entries out es w w',
      (hookRun env command package oldVersion newVersion (w.packageDir package)).proc =
        .exited 0 stdout stderr →
      parseSourcesFile (hookRun env command package oldVersion newVersion (w.packageDir package)).dir
        sourcesName = .ok entries →
      downloadSourcesHook env command package oldVersion newVersion w = .ok out w' →
      w'.log = es ++ w.log →
      (sourcesName ∉ listedFiles stdout →
          AlgoKept env (hookRun env command package oldVersion newVersion (w.packageDir package)).dir oldVersion
            newVersion (listedFiles stdout) entries →
          TrueHashes env package entries (w'.packageDir package) es) ∧
        ((∀ e ∈ entries, ¬ Mislabelled env
            (hookRun env command package oldVersion newVersion (w.packageDir package)).dir
            (listedFiles stdout) e) →
          TrueHashes env package entries (w'.packageDir package) es →
          AlgoKept env (hookRun env command package oldVersion newVersion (w.packageDir package)).dir oldVersion
            newVersion (listedFiles stdout) entries) := by
  refine ⟨?_, ?_, ?_, ?_⟩
  · intro pipelineFile out outputDir newEntries old es w w' hout hrun hes
    exact gorget_trueHashes_iff hout hrun hes
  · intro out entries es w w' hversion hparse hrun hes hfetch
    exact downloadNewSources_trueHashes ht hash hversion hparse hrun hes hfetch
  · intro entries entries' vendorFile es w w' hrun hes
    exact (regenerateVendorArchive_ok hrun).trueHashes hash hes
  · intro command stdout stderr entries out es w w' hproc hparse hrun hes
    obtain ⟨stdout', stderr', entries', w₁, hproc', hparse', hdone⟩ := downloadSourcesHook_ok hrun
    obtain ⟨-, rfl, -⟩ := Proc.exited.inj (hproc.symm.trans hproc')
    obtain rfl := Except.ok.inj (hparse.symm.trans hparse')
    constructor
    · intro hnot hkept
      exact hdone.trueHashes ht listedFiles_spec hnot hparse hes hkept
    · intro htold htrue
      exact hdone.algoKept ht listedFiles_spec hparse htold hes htrue

end

/-! ## A hook and an MD5 entry -/

/-- A hook that fetches the archive of the new version and lists it. -/
def archiveHook : HookCommand → Tree → DirRun := fun _ dir =>
  ⟨.exited 0 "pkg-2.0.tar.gz\n" "", dir.write "pkg-2.0.tar.gz" (.text "new\n")⟩

def md5Digest : Str := "9cd599a3523898e6a12e13ec787da50a"

/-- The archive has its digests under SHA512 and under MD5. -/
def hookEnv : Env :=
  { mixedEnv remoteSources with
    hook := archiveHook
    fileHash := fun algo f =>
      if algo = "md5" ∧ f = .text "new\n" then .ok md5Digest else (mixedEnv remoteSources).fileHash algo f }

/-- The package before the hook, its one source recorded under this algorithm. -/
def hookWorld (algo : Str) : World :=
  World.empty.setRpms "pkg" (Tree.ofList [("pkg.spec", .text "Name: pkg\n"),
    ("sources", .text (algo ++ " (pkg-1.0.tar.gz) = 0a\n".toList))])

theorem hookEnv_tools :
    letI := asciiTables
    SourceTools hookEnv := by
  let _ := asciiTables
  have htools := mixedEnv_tools _ unbroken_remoteSources
  refine ⟨fun dir spec q hq => htools.keeps dir spec q hq, ?_, htools.oneLine⟩
  intro algo f digest hdigest
  simp only [hookEnv] at hdigest
  split at hdigest
  · obtain rfl := Except.ok.inj hdigest
    have hne : md5Digest ≠ [] := by decide
    have hword : ∀ c ∈ md5Digest, isWord c = true := by decide
    exact ⟨hne, hword⟩
  · exact htools.hex _ _ _ hdigest

theorem hookEnv_hash : HashTools hookEnv := by
  refine ⟨fun algo h hhash => ?_⟩
  simp [hookEnv, mixedEnv] at hhash

theorem hookRun_hookWorld (algo : Str) :
    (hookRun hookEnv "update.sh" "pkg" "1.0" "2.0" ((hookWorld algo).packageDir "pkg")).proc =
      .exited 0 "pkg-2.0.tar.gz\n" "" := rfl

/-- Where the source was recorded under SHA512, the hook's entry is true. -/
theorem trueHashes_hook :
    letI := asciiTables
    ∃ out w' entries, downloadSourcesHook hookEnv "update.sh" "pkg" "1.0" "2.0" (hookWorld "SHA512") = .ok out w' ∧
      TrueHashes hookEnv "pkg" entries (w'.packageDir "pkg") w'.log := by
  let _ := asciiTables
  have hreturns : returns (downloadSourcesHook hookEnv "update.sh" "pkg" "1.0" "2.0") (hookWorld "SHA512")
      (fun _ _ => true) = true := by decide +kernel
  obtain ⟨out, w', hrun, -⟩ := returns_iff.mp hreturns
  have hparse : (parseSourcesFile (hookRun hookEnv "update.sh" "pkg" "1.0" "2.0"
      ((hookWorld "SHA512").packageDir "pkg")).dir sourcesName).toOption =
      some [⟨"SHA512", "pkg-1.0.tar.gz", "0a"⟩] := by decide +kernel
  refine ⟨out, w', [⟨"SHA512", "pkg-1.0.tar.gz", "0a"⟩], hrun, ?_⟩
  refine ((trueHashes_of hookEnv_tools hookEnv_hash).2.2.2 _ _ _ _ out w'.log _ w' (hookRun_hookWorld _)
    (except_toOption_iff.mp hparse) hrun (List.append_nil _).symm).1 (by decide +kernel) ?_
  have hlisted : listedFiles "pkg-2.0.tar.gz\n" = ["pkg-2.0.tar.gz".toList] := by decide +kernel
  rw [hlisted]
  refine ⟨?_, trivial⟩
  intro a ha
  obtain rfl := List.mem_singleton.mp (List.mem_of_find?_eq_some ha)
  rfl

/-- **`hook_keeps_algorithm`** — where it was recorded under MD5, the hook's entry has a SHA512 digest under
that name. -/
theorem hook_keeps_algorithm :
    letI := asciiTables
    SourceTools hookEnv ∧ HashTools hookEnv ∧
      ∃ out w', downloadSourcesHook hookEnv "update.sh" "pkg" "1.0" "2.0" (hookWorld "MD5") = .ok out w' ∧
        ¬ TrueHashes hookEnv "pkg" [⟨"MD5", "pkg-1.0.tar.gz", "0a"⟩] (w'.packageDir "pkg") w'.log := by
  let _ := asciiTables
  refine ⟨hookEnv_tools, hookEnv_hash, ?_⟩
  have hreturns : returns (downloadSourcesHook hookEnv "update.sh" "pkg" "1.0" "2.0") (hookWorld "MD5")
      (fun _ w' => (parseSourcesFile (w'.packageDir "pkg") sourcesName).toOption =
        some [⟨"MD5", "pkg-2.0.tar.gz", newDigest⟩]) = true := by decide +kernel
  obtain ⟨out, w', hrun, hwritten⟩ := returns_iff.mp hreturns
  refine ⟨out, w', hrun, fun htrue => ?_⟩
  have hwritten := except_toOption_iff.mp (of_decide_eq_true hwritten)
  obtain ⟨f, -, hhash, -⟩ := htrue _ hwritten _ (List.mem_singleton_self _) (by decide)
  -- the one file with an MD5 digest has another
  have hmd5 : hookEnv.fileHash "md5" f = .ok newDigest := hhash
  rw [show hookEnv.fileHash "md5" f = if "md5".toList = "md5".toList ∧ f = .text "new\n" then .ok md5Digest
    else (mixedEnv remoteSources).fileHash "md5" f from rfl] at hmd5
  split at hmd5
  · exact absurd (Except.ok.inj hmd5) (by decide)
  · exact absurd hmd5 (by simp [mixedEnv])

end HummingbirdRpms
