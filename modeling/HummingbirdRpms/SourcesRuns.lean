/-
# HummingbirdRpms.SourcesRuns — what a successful update of a package's sources has done.

Four parts of `ci/check_upstream_versions.py` write a `sources` file: gorget, `download_new_sources`,
the vendor archive it regenerates, and the `download_sources` hook.  This file says of the last three
what a run that returned has left: the entries, the directory and the uploads, as functions of the
entries and the directory it found and of what the programs it called answered
(**`downloadEach_ok`**, **`regenerateVendorArchive_ok`**, **`fetchSources_ok`**,
**`uploadHookFiles_ok`**).  Gorget's is `runGorgetPipeline_ok`.

Whether the result is what one would want of a `sources` file is the matter of the files after this one.
-/
import HummingbirdRpms.Sources
import HummingbirdRpms.SourcesFile

namespace HummingbirdRpms

open Lib Lib.Text Lib.Exec

/-! ## Downloads -/

/-- The remote sources that are not listed. -/
def missingUrls (listed : List Str) (urls : List (Nat × Str)) : List (Nat × Str) :=
  urls.filter fun u => !listed.contains (basename u.2)

/-- What a download brings. -/
def fetchedContent (env : Env) (url : Str) : File := (env.download url).response.toOption.getD .dir

/-- The digest of a file under an algorithm. -/
def hexDigest (env : Env) (algo : Str) (f : File) : Str :=
  (env.fileHash (lowerAscii algo) f).toOption.getD []

/-- The entry of a downloaded source. -/
def fetchedEntry (env : Env) (u : Nat × Str) : SourceEntry :=
  ⟨"SHA512", basename u.2, hexDigest env "SHA512" (fetchedContent env u.2)⟩

/-- A directory with downloads written into it. -/
def withFetched (env : Env) (urls : List (Nat × Str)) (dir : Tree) : Tree :=
  urls.foldl (fun dir u => dir.write (basename u.2) (fetchedContent env u.2)) dir

/-- Among the events is an upload of a file, with this content, under the name and the algorithm of an
entry. -/
def UploadedAs (package : Str) (es : List Event) (e : SourceEntry) (f : File) : Prop :=
  ∃ bucket, .upload (uploadCommand (packagePath package e.filename) package e.algo bucket) (some f) ∈ es

theorem UploadedAs.append_left {package : Str} {es : List Event} {e : SourceEntry} {f : File}
    (h : UploadedAs package es e f) (es' : List Event) : UploadedAs package (es ++ es') e f := by
  obtain ⟨bucket, h⟩ := h
  exact ⟨bucket, List.mem_append_left _ h⟩

theorem UploadedAs.append_right {package : Str} {es : List Event} {e : SourceEntry} {f : File}
    (h : UploadedAs package es e f) (es' : List Event) : UploadedAs package (es' ++ es) e f := by
  obtain ⟨bucket, h⟩ := h
  exact ⟨bucket, List.mem_append_right _ h⟩

theorem uploadedFile_packagePath {w : World} {package name : Str} :
    uploadedFile w package (packagePath package name) = (w.packageDir package).read name := by
  have hdrop : (packagePath package name).drop ("rpms/".toList ++ package ++ "/".toList).length = name :=
    List.drop_left
  exact congrArg (w.packageDir package).read hdrop

theorem packageDir_record {w : World} {package : Str} {e : Event} :
    (w.record e).packageDir package = w.packageDir package := rfl

section

variable {env : Env} {package : Str} {w w' : World} {listed : List Str} {urls : List (Nat × Str)}

theorem missingUrls_cons_of_mem {u : Nat × Str} (h : basename u.2 ∈ listed) :
    missingUrls listed (u :: urls) = missingUrls listed urls :=
  List.filter_cons_of_neg (by simpa using h)

theorem missingUrls_cons_of_notMem {u : Nat × Str} (h : basename u.2 ∉ listed) :
    missingUrls listed (u :: urls) = u :: missingUrls listed urls :=
  List.filter_cons_of_pos (by simpa using h)

theorem mem_missingUrls {u : Nat × Str} :
    u ∈ missingUrls listed urls ↔ u ∈ urls ∧ basename u.2 ∉ listed := by
  rw [missingUrls, List.mem_filter]
  simp

theorem map_filename_fetchedEntry :
    (urls.map (fetchedEntry env)).map (·.filename) = urls.map fun u => basename u.2 := by
  rw [List.map_map]
  rfl

theorem read_withFetched_of_notMem {dir : Tree} {q : Path} (h : q ∉ urls.map fun u => basename u.2) :
    (withFetched env urls dir).read q = dir.read q := by
  induction urls generalizing dir with
  | nil => rfl
  | cons u urls ih =>
      rw [List.map_cons, List.mem_cons, not_or] at h
      rw [withFetched, List.foldl_cons]
      refine (ih h.2).trans ?_
      rw [Tree.read_write_ne h.1]

/-- What downloads that went through have done. -/
structure Downloaded (env : Env) (package : Str) (urls : List (Nat × Str)) (w w' : World) : Prop where
  named : ∀ u ∈ urls, basename u.2 ≠ []
  hashed : ∀ u ∈ urls, env.fileHash (lowerAscii "SHA512") (fetchedContent env u.2) =
    .ok (fetchedEntry env u).hash
  dir : w'.packageDir package = withFetched env urls (w.packageDir package)
  log : ∃ es, w'.log = es ++ w.log ∧
    ∀ u ∈ urls, UploadedAs package es (fetchedEntry env u) (fetchedContent env u.2)

theorem downloadFile_ok {url : Str} {name : Path} {u : Unit}
    (h : downloadFile env package url name w = .ok u w') :
    w' = w.setRpms package ((w.packageDir package).write name (fetchedContent env url)) ∧ name ≠ [] := by
  simp only [downloadFile, bind_ok_iff, raiseIf_ok_iff, lift_ok_iff] at h
  obtain ⟨content, _, ⟨hcontent, rfl⟩, _, _, hget, _, _, ⟨hwritable, rfl⟩, _, _, hmod, -, hret⟩ := h
  obtain ⟨rfl, rfl⟩ := EStateM.Result.ok.inj hget
  obtain ⟨_, rfl⟩ := EStateM.Result.ok.inj hmod
  subst hret
  refine ⟨?_, ?_⟩
  · rw [fetchedContent, hcontent]
    rfl
  · rintro rfl
    simp [Tree.writable, Tree.isDir] at hwritable

/-- **`downloadEach_ok`** — a loop of downloads that went through has fetched what was missing, in the
order of the spec. -/
theorem downloadEach_ok {added : List SourceEntry} (h : downloadEach env package listed urls w = .ok added w') :
    added = (missingUrls listed urls).map (fetchedEntry env) ∧
      Downloaded env package (missingUrls listed urls) w w' := by
  induction urls generalizing w added with
  | nil =>
      obtain ⟨rfl, rfl⟩ := EStateM.Result.ok.inj h
      exact ⟨rfl, by simp [missingUrls], by simp [missingUrls], rfl, [], rfl, by simp [missingUrls]⟩
  | cons u urls ih =>
      obtain ⟨n, url⟩ := u
      rw [downloadEach] at h
      split at h
      · rename_i hlisted
        rw [missingUrls_cons_of_mem (by simpa using hlisted)]
        exact ih h
      · rename_i hlisted
        rw [missingUrls_cons_of_notMem (by simpa using hlisted)]
        obtain ⟨_, w₁, hdownload, h⟩ := bind_ok_iff.mp h
        obtain ⟨rfl, hname⟩ := downloadFile_ok hdownload
        obtain ⟨_, w₂, hupload, h⟩ := bind_ok_iff.mp h
        obtain ⟨bucket, rfl⟩ := uploadToLookaside_ok hupload
        simp only [bind_ok_iff, lift_ok_iff] at h
        obtain ⟨_, _, hget, hash, _, ⟨hhash, rfl⟩, rest, w₃, hrest, hret⟩ := h
        obtain ⟨rfl, rfl⟩ := EStateM.Result.ok.inj hget
        obtain ⟨rfl, rfl⟩ := EStateM.Result.ok.inj hret
        obtain ⟨rfl, hdone⟩ := ih hrest
        rw [computeFileHash, packageDir_record, packageDir_setRpms, Tree.read_write_self] at hhash
        have hdigest : hexDigest env "SHA512" (fetchedContent env url) = hash := by
          rw [hexDigest, show env.fileHash _ _ = _ from hhash]
          rfl
        have hentry : fetchedEntry env (n, url) = ⟨"SHA512", basename url, hash⟩ :=
          congrArg (SourceEntry.mk "SHA512" (basename url)) hdigest
        refine ⟨by rw [List.map_cons, hentry], ?_, ?_, ?_, ?_⟩
        · exact List.forall_mem_cons.mpr ⟨hname, hdone.named⟩
        · exact List.forall_mem_cons.mpr ⟨by rw [hentry]; exact hhash, hdone.hashed⟩
        · rw [hdone.dir, packageDir_record, packageDir_setRpms]
          rfl
        · obtain ⟨es, hlog, hups⟩ := hdone.log
          refine ⟨es ++ [_], by rw [hlog, List.append_assoc]; rfl, ?_⟩
          refine List.forall_mem_cons.mpr ⟨⟨bucket, ?_⟩, fun u hu => (hups u hu).append_left _⟩
          have hread : ∀ f, uploadedFile (w.setRpms package ((w.packageDir package).write (basename url) f))
              package (packagePath package (basename url)) = some f := by
            intro f
            rw [uploadedFile_packagePath, packageDir_setRpms, Tree.read_write_self]
          rw [hread, hentry, List.mem_append, List.mem_singleton]
          exact Or.inr rfl

/-! ## Unlinking -/

theorem unlinkAll_log {names : List Path} {u : Unit} (h : unlinkAll package names w = .ok u w') :
    w'.log = w.log := by
  induction names generalizing w with
  | nil =>
      obtain ⟨_, rfl⟩ := EStateM.Result.ok.inj h
      rfl
  | cons n names ih =>
      simp only [unlinkAll, bind_ok_iff, raiseIf_ok_iff] at h
      obtain ⟨_, _, hget, _, _, ⟨_, rfl⟩, _, _, hmod, hrest⟩ := h
      obtain ⟨rfl, rfl⟩ := EStateM.Result.ok.inj hget
      obtain ⟨_, rfl⟩ := EStateM.Result.ok.inj hmod
      rw [ih hrest]
      rfl

theorem read_foldl_unlink {names : List Path} {dir : Tree} {q : Path} (hq : dir.isFile q = true)
    (h : q ∉ names) : (names.foldl Tree.unlink dir).read q = dir.read q := by
  induction names generalizing dir with
  | nil => rfl
  | cons n names ih =>
      rw [List.mem_cons, not_or] at h
      have hfile : (dir.unlink n).isFile q = true := by
        rw [Tree.isFile_unlink, hq]
        simpa using h.1
      rw [List.foldl_cons, ih hfile h.2, Tree.read_unlink_of_isFile hq h.1]

/-! ## The vendor archive -/

/-- The vendor entry that is renewed and the spec file it is renewed from, when it is. -/
def vendorSource (dir : Tree) (entries : List SourceEntry) : Option (SourceEntry × Path) :=
  if dir.present "go-vendor-tools.toml" = false then none
  else
    match entries.find? isVendorEntry, dir.glob ".spec" with
    | some v, [specFile] => some (v, specFile)
    | _, _ => none

theorem vendorSource_mem {dir : Tree} {entries : List SourceEntry} {v : SourceEntry} {spec : Path}
    (h : vendorSource dir entries = some (v, spec)) : entries.find? isVendorEntry = some v := by
  unfold vendorSource at h
  split at h
  · exact absurd h (by simp)
  · split at h
    · rename_i hfind _
      obtain ⟨rfl, -⟩ := Prod.mk.inj (Option.some.inj h)
      exact hfind
    · exact absurd h (by simp)

theorem glob_of_vendorSource {dir : Tree} {entries : List SourceEntry} {v : SourceEntry} {spec : Path}
    (h : vendorSource dir entries = some (v, spec)) : dir.glob ".spec" = [spec] := by
  unfold vendorSource at h
  split at h
  · exact absurd h (by simp)
  · split at h
    · rename_i hglob
      obtain ⟨-, rfl⟩ := Prod.mk.inj (Option.some.inj h)
      exact hglob
    · exact absurd h (by simp)

/-- What the renewal of a vendor archive that went through has done: the directory is the one that
`go_vendor_archive` left, without the archive under its old name. -/
structure Renewed (env : Env) (package : Str) (v : SourceEntry) (spec : Path) (newName : Path)
    (content : File) (newHash : Str) (w w' : World) : Prop where
  made : (env.goVendorArchive (w.packageDir package) spec).dir.read newName = some content
  hashed : env.fileHash (lowerAscii v.algo) content = .ok newHash
  dir : w'.packageDir package =
    (if v.filename = newName then [] else [v.filename]).foldl Tree.unlink
      (env.goVendorArchive (w.packageDir package) spec).dir
  log : ∃ es, w'.log = es ++ w.log ∧ UploadedAs package es ⟨v.algo, newName, newHash⟩ content

theorem createVendorArchive_ok {v : SourceEntry} {spec newName : Path} {newHash : Str}
    (h : createVendorArchive env package spec v newName w = .ok newHash w') :
    ∃ content, Renewed env package v spec newName content newHash w w' := by
  simp only [createVendorArchive, bind_ok_iff, raiseIf_ok_iff, lift_ok_iff] at h
  obtain ⟨_, _, hget, _, w₁, hmod, result, _, ⟨_, rfl⟩, _, _, ⟨_, rfl⟩, _, _, ⟨_, rfl⟩, _, w₂, hup, hash, _,
    ⟨hhash, rfl⟩, _, w₃, hunlink, hret⟩ := h
  obtain ⟨rfl, rfl⟩ := EStateM.Result.ok.inj hget
  obtain ⟨_, rfl⟩ := EStateM.Result.ok.inj hmod
  obtain ⟨bucket, rfl⟩ := uploadToLookaside_ok hup
  obtain ⟨rfl, rfl⟩ := EStateM.Result.ok.inj hret
  have hdir := unlinkAll_ok hunlink
  have hlog := unlinkAll_log hunlink
  rw [computeFileHash] at hhash
  cases hread : (env.goVendorArchive (w.packageDir package) spec).dir.read newName with
  | none => exact absurd hhash (by rw [hread]; simp)
  | some content =>
      rw [hread] at hhash
      refine ⟨content, hread, hhash, ?_, ?_⟩
      · rw [hdir, packageDir_record, packageDir_setRpms]
      · refine ⟨[_], hlog, bucket, ?_⟩
        rw [uploadedFile_packagePath, packageDir_setRpms, hread]
        exact List.mem_singleton_self _

/-- The vendor archive is left as it is, or the first vendor entry is renewed. -/
inductive VendorStep (env : Env) (package oldVersion newVersion : Str) (entries : List SourceEntry)
    (w : World) : Option Str → List SourceEntry → World → Prop
  | kept (h : vendorSource (w.packageDir package) entries = none) :
      VendorStep env package oldVersion newVersion entries w none entries w
  | renewed {v : SourceEntry} {spec : Path} {content : File} {newHash : Str} {w' : World}
      (h : vendorSource (w.packageDir package) entries = some (v, spec))
      (done : Renewed env package v spec (replace oldVersion newVersion v.filename) content newHash w w') :
      VendorStep env package oldVersion newVersion entries w (some (replace oldVersion newVersion v.filename))
        (replaceFirst isVendorEntry (fun e =>
          { e with filename := replace oldVersion newVersion v.filename, hash := newHash }) entries) w'

variable {oldVersion newVersion : Str} {entries entries' : List SourceEntry} {vendorFile : Option Str}

/-- **`regenerateVendorArchive_ok`** — what `_regenerate_vendor_archive` does when it returns. -/
theorem regenerateVendorArchive_ok
    (h : regenerateVendorArchive env package oldVersion newVersion entries w = .ok (vendorFile, entries') w') :
    VendorStep env package oldVersion newVersion entries w vendorFile entries' w' := by
  have hkept : vendorSource (w.packageDir package) entries = none →
      (.ok (none, entries) w : EStateM.Result Exn World _) = .ok (vendorFile, entries') w' →
      VendorStep env package oldVersion newVersion entries w vendorFile entries' w' := by
    intro hnone heq
    obtain ⟨hpair, rfl⟩ := EStateM.Result.ok.inj heq
    obtain ⟨rfl, rfl⟩ := Prod.mk.inj hpair
    exact .kept hnone
  obtain ⟨_, _, hget, h⟩ := bind_ok_iff.mp h
  obtain ⟨rfl, rfl⟩ := EStateM.Result.ok.inj hget
  split at h
  · rename_i htoml
    exact hkept (by rw [vendorSource, if_pos htoml]) h
  · rename_i htoml
    have hsource : vendorSource (w.packageDir package) entries =
        match entries.find? isVendorEntry, (w.packageDir package).glob ".spec" with
        | some v, [specFile] => some (v, specFile)
        | _, _ => none := by rw [vendorSource, if_neg htoml]
    rcases hfind : entries.find? isVendorEntry with _ | v
    · rw [hfind] at h hsource
      exact hkept hsource h
    · rw [hfind] at h hsource
      rcases hglob : (w.packageDir package).glob ".spec" with _ | ⟨spec, _ | ⟨spec', specs⟩⟩
      · rw [hglob] at h hsource
        exact hkept hsource h
      · rw [hglob] at h hsource
        obtain ⟨newHash, w₁, hcreate, hret⟩ := bind_ok_iff.mp h
        obtain ⟨hpair, rfl⟩ := EStateM.Result.ok.inj hret
        obtain ⟨rfl, rfl⟩ := Prod.mk.inj hpair
        obtain ⟨content, hrenewed⟩ := createVendorArchive_ok hcreate
        exact .renewed hsource hrenewed
      · rw [hglob] at h hsource
        exact hkept hsource h

/-! ## `download_new_sources` -/

/-- The names that a fetch drops from `sources`. -/
abbrev staleAfter (listed : List Str) (urls : List (Nat × Str)) (entries : List SourceEntry) : List Str :=
  staleSources listed (urls.map fun u => basename u.2) entries

/-- What a fetch that went through has done, with `entries` in the `sources` file before. -/
structure Fetched (env : Env) (package oldVersion newVersion : Str) (entries : List SourceEntry)
    (urls : List (Nat × Str)) (entries' : List SourceEntry) (vendorFile : Option Str)
    (w w₁ w₂ w' : World) : Prop where
  downloaded : Downloaded env package (missingUrls (entries.map (·.filename)) urls) w w₁
  vendor : VendorStep env package oldVersion newVersion
    (entries ++ (missingUrls (entries.map (·.filename)) urls).map (fetchedEntry env)) w₁ vendorFile entries' w₂
  written : (missingUrls (entries.map (·.filename)) urls = [] ∧ vendorFile = none ∧
      staleAfter (entries.map (·.filename)) urls entries' = [] ∧ w' = w₂) ∨
    w'.packageDir package =
        ((staleAfter (entries.map (·.filename)) urls entries').foldl Tree.unlink (w₂.packageDir package)).write
          sourcesName (.text (renderSources
            (entries'.filter fun e => !(staleAfter (entries.map (·.filename)) urls entries').contains e.filename))) ∧
      w'.log = w₂.log

/-- **`fetchSources_ok`** — a fetch that returned has downloaded what was missing, renewed the vendor
archive, removed what is stale and, unless there was nothing to do, written `sources`. -/
theorem fetchSources_ok {out : List Str}
    (h : fetchSources env package oldVersion newVersion entries urls w = .ok out w') :
    ∃ entries' vendorFile w₁ w₂,
      Fetched env package oldVersion newVersion entries urls entries' vendorFile w w₁ w₂ w' := by
  obtain ⟨added, w₁, hadded, h⟩ := bind_ok_iff.mp h
  obtain ⟨rfl, hdownloaded⟩ := downloadEach_ok hadded
  obtain ⟨⟨vendorFile, entries'⟩, w₂, hvendor, h⟩ := bind_ok_iff.mp h
  have hvendor := regenerateVendorArchive_ok hvendor
  obtain ⟨_, w₃, hunlink, h⟩ := bind_ok_iff.mp h
  refine ⟨entries', vendorFile, w₁, w₂, hdownloaded, hvendor, ?_⟩
  have hdir := unlinkAll_ok hunlink
  have hlog := unlinkAll_log hunlink
  split at h
  · rename_i hquiet
    obtain ⟨hdown, hstale⟩ := hquiet
    obtain ⟨_, rfl⟩ := EStateM.Result.ok.inj h
    rw [List.append_eq_nil_iff, List.map_map, List.map_eq_nil_iff, Option.toList_eq_nil_iff] at hdown
    refine Or.inl ⟨hdown.1, hdown.2, hstale, ?_⟩
    rw [hstale] at hunlink
    exact (EStateM.Result.ok.inj hunlink).2.symm
  · obtain ⟨_, w₄, hwrite, hret⟩ := bind_ok_iff.mp h
    obtain ⟨_, rfl⟩ := EStateM.Result.ok.inj hret
    obtain ⟨_, rfl⟩ := EStateM.Result.ok.inj hwrite
    refine Or.inr ⟨?_, hlog⟩
    rw [packageDir_setRpms, hdir]

/-- **`downloadNewSources_ok`** — for a package with one spec file, either sources were fetched or
everything was left as it was. -/
theorem downloadNewSources_ok [UnicodeTables] {spec : Path} {out : List Str}
    (hglob : (w.packageDir package).glob ".spec" = [spec])
    (h : downloadNewSources env package oldVersion newVersion w = .ok out w') :
    ∃ entries specSources, parseSourcesFile (w.packageDir package) sourcesName = .ok entries ∧
      env.specSources (w.packageDir package) spec = .ok specSources ∧
      (((entries = [] ∨ specSourceUrls specSources ≠ []) ∧ ∃ entries' vendorFile w₁ w₂,
          Fetched env package oldVersion newVersion entries (specSourceUrls specSources) entries' vendorFile
            w w₁ w₂ w') ∨
        entries ≠ [] ∧ specSourceUrls specSources = [] ∧ w' = w) := by
  obtain ⟨_, _, hget, h⟩ := bind_ok_iff.mp h
  obtain ⟨rfl, rfl⟩ := EStateM.Result.ok.inj hget
  rw [hglob] at h
  simp only [bind_ok_iff, lift_ok_iff] at h
  obtain ⟨entries, _, ⟨hparse, rfl⟩, specSources, _, ⟨hsources, rfl⟩, hrun⟩ := h
  refine ⟨entries, specSources, hparse, hsources, ?_⟩
  split at hrun
  · rename_i hcond
    exact Or.inl ⟨hcond, fetchSources_ok hrun⟩
  · rename_i hcond
    rw [not_or, not_not] at hcond
    obtain ⟨_, _, hraise, hret⟩ := bind_ok_iff.mp hrun
    obtain ⟨-, rfl⟩ := raiseIf_ok_iff.mp hraise
    exact Or.inr ⟨hcond.1, hcond.2, (EStateM.Result.ok.inj hret).2.symm⟩

/-- Without exactly one spec file nothing is done. -/
theorem downloadNewSources_of_no_spec [UnicodeTables] {out : List Str}
    (hglob : ¬ ∃ spec, (w.packageDir package).glob ".spec" = [spec])
    (h : downloadNewSources env package oldVersion newVersion w = .ok out w') : w' = w := by
  obtain ⟨_, _, hget, h⟩ := bind_ok_iff.mp h
  obtain ⟨rfl, rfl⟩ := EStateM.Result.ok.inj hget
  rcases hspecs : (w.packageDir package).glob ".spec" with _ | ⟨spec, _ | ⟨spec', specs⟩⟩
  · rw [hspecs] at h
    exact (EStateM.Result.ok.inj h).2.symm
  · exact absurd ⟨spec, hspecs⟩ hglob
  · rw [hspecs] at h
    exact (EStateM.Result.ok.inj h).2.symm

/-! ## The hook -/

/-- The digest a listed file is recorded with. -/
def listedDigest (env : Env) (dir : Tree) (filename : Str) : Str :=
  hexDigest env "SHA512" ((dir.read filename).getD .dir)

/-- The entries after the listed files have been recorded. -/
def recorded (env : Env) (dir : Tree) (oldVersion newVersion : Str) (filenames : List Str)
    (entries : List SourceEntry) : List SourceEntry :=
  filenames.foldl
    (fun es filename => recordHookFile oldVersion newVersion filename (listedDigest env dir filename) es) entries

/-- What the uploads of the listed files that went through have done. -/
structure Uploaded (env : Env) (package : Str) (filenames : List Str) (w w' : World) : Prop where
  files : ∀ f ∈ filenames, ∃ content, (w.packageDir package).read f = some content ∧
    env.fileHash (lowerAscii "SHA512") content = .ok (listedDigest env (w.packageDir package) f)
  dir : w'.packageDir package = w.packageDir package
  log : ∃ es, w'.log = es ++ w.log ∧
    (∀ f ∈ filenames, ∀ content, (w.packageDir package).read f = some content →
      ∀ hash, UploadedAs package es ⟨"sha512", f, hash⟩ content) ∧
    ∀ cmd file, .upload cmd file ∈ es → cmd.hashtype = some (lowerAscii "SHA512")

/-- **`uploadHookFiles_ok`** — a loop over the listed files that went through has uploaded and recorded
each of them. -/
theorem uploadHookFiles_ok {filenames : List Str}
    (h : uploadHookFiles env package oldVersion newVersion filenames entries w = .ok entries' w') :
    entries' = recorded env (w.packageDir package) oldVersion newVersion filenames entries ∧
      Uploaded env package filenames w w' := by
  induction filenames generalizing w entries with
  | nil =>
      obtain ⟨rfl, rfl⟩ := EStateM.Result.ok.inj h
      exact ⟨rfl, by simp, rfl, [], rfl, by simp, by simp⟩
  | cons f filenames ih =>
      simp only [uploadHookFiles, bind_ok_iff, raiseIf_ok_iff, lift_ok_iff] at h
      obtain ⟨_, _, hget, _, _, ⟨_, rfl⟩, _, w₁, hup, hash, _, ⟨hhash, rfl⟩, hrest⟩ := h
      obtain ⟨rfl, rfl⟩ := EStateM.Result.ok.inj hget
      obtain ⟨bucket, rfl⟩ := uploadToLookaside_ok hup
      obtain ⟨rfl, hdone⟩ := ih hrest
      rw [computeFileHash] at hhash
      cases hread : (w.packageDir package).read f with
      | none => exact absurd hhash (by rw [hread]; simp)
      | some content =>
          rw [hread] at hhash
          have hdigest : listedDigest env (w.packageDir package) f = hash := by
            rw [listedDigest, hread, Option.getD_some, hexDigest, show env.fileHash _ _ = _ from hhash]
            rfl
          refine ⟨?_, ?_, hdone.dir, ?_⟩
          · rw [recorded, recorded, List.foldl_cons, hdigest]
            rfl
          · exact List.forall_mem_cons.mpr ⟨⟨content, hread, hdigest ▸ hhash⟩, hdone.files⟩
          · obtain ⟨es, hlog, hups, htypes⟩ := hdone.log
            refine ⟨es ++ [_], by rw [hlog, List.append_assoc]; rfl, ?_, ?_⟩
            · refine List.forall_mem_cons.mpr ⟨?_, fun g hg c hc hash' => (hups g hg c hc hash').append_left _⟩
              intro c hc hash'
              obtain rfl := Option.some.inj (hread.symm.trans hc)
              rw [uploadedFile_packagePath, hread]
              exact ⟨bucket, List.mem_append_right _ (List.mem_singleton_self _)⟩
            · intro cmd file hmem
              rcases List.mem_append.mp hmem with hmem | hmem
              · exact htypes cmd file hmem
              · obtain ⟨rfl, -⟩ := Event.upload.inj (List.mem_singleton.mp hmem)
                exact congrArg some (by decide)

/-- The run of a hook command in the directory of a package. -/
def hookRun (env : Env) (command package oldVersion newVersion : Str) (dir : Tree) : DirRun :=
  env.hook
    { command, package, oldVersion, newVersion, specFile := ((dir.glob ".spec").head?).getD [] } dir

/-- The files that a hook's output lists, one a line. -/
def listedFiles (stdout : Str) : List Str := ((splitlines stdout).map strip).filter (!·.isEmpty)

theorem runHook_ok {hookName command stdout : Str}
    (h : runHook env hookName command package oldVersion newVersion w = .ok stdout w') :
    w' = w.setRpms package (hookRun env command package oldVersion newVersion (w.packageDir package)).dir ∧
      ∃ stderr, (hookRun env command package oldVersion newVersion (w.packageDir package)).proc =
        .exited 0 stdout stderr := by
  simp only [runHook, bind_ok_iff, raiseIf_ok_iff, lift_ok_iff, Proc.run_ok_iff] at h
  obtain ⟨_, _, hget, _, _, hmod, result, _, ⟨hrun, rfl⟩, _, _, ⟨hcode, rfl⟩, hret⟩ := h
  obtain ⟨rfl, rfl⟩ := EStateM.Result.ok.inj hget
  obtain ⟨_, rfl⟩ := EStateM.Result.ok.inj hmod
  obtain ⟨rfl, rfl⟩ := EStateM.Result.ok.inj hret
  have hzero : result.returncode = 0 := by simpa using hcode
  exact ⟨rfl, result.stderr, hzero ▸ hrun⟩

/-- What a `download_sources` hook that went through has done: `dir` is the directory the hook left,
`entries` are those of its `sources` file. -/
structure HookDone (env : Env) (package oldVersion newVersion : Str) (dir : Tree) (filenames : List Str)
    (entries : List SourceEntry) (w w₁ w' : World) : Prop where
  uploaded : Uploaded env package filenames (w.setRpms package dir) w₁
  written : (filenames = [] ∧ w' = w₁) ∨
    w'.packageDir package = dir.write sourcesName
        (.text (renderSources (recorded env dir oldVersion newVersion filenames entries))) ∧
      w'.log = w₁.log

/-- **`downloadSourcesHook_ok`** — a hook that went through listed files, which have been uploaded and
recorded. -/
theorem downloadSourcesHook_ok [UnicodeTables] {command : Str} {out : List Str}
    (h : downloadSourcesHook env command package oldVersion newVersion w = .ok out w') :
    ∃ stdout stderr entries w₁,
      (hookRun env command package oldVersion newVersion (w.packageDir package)).proc = .exited 0 stdout stderr ∧
      parseSourcesFile (hookRun env command package oldVersion newVersion (w.packageDir package)).dir
        sourcesName = .ok entries ∧
      HookDone env package oldVersion newVersion
        (hookRun env command package oldVersion newVersion (w.packageDir package)).dir (listedFiles stdout)
        entries w w₁ w' := by
  obtain ⟨stdout, w₀, hhook, h⟩ := bind_ok_iff.mp h
  obtain ⟨rfl, stderr, hproc⟩ := runHook_ok hhook
  obtain ⟨_, _, hget, h⟩ := bind_ok_iff.mp h
  obtain ⟨rfl, rfl⟩ := EStateM.Result.ok.inj hget
  obtain ⟨entries, _, hlift, h⟩ := bind_ok_iff.mp h
  obtain ⟨hparse, rfl⟩ := lift_ok_iff.mp hlift
  rw [packageDir_setRpms] at hparse
  obtain ⟨entries', w₁, hloop, h⟩ := bind_ok_iff.mp h
  obtain ⟨rfl, huploaded⟩ := uploadHookFiles_ok hloop
  refine ⟨stdout, stderr, entries, w₁, hproc, hparse, huploaded, ?_⟩
  split at h
  · rename_i hnil
    exact Or.inl ⟨hnil, (EStateM.Result.ok.inj h).2.symm⟩
  · obtain ⟨_, w₂, hwrite, hret⟩ := bind_ok_iff.mp h
    obtain ⟨_, rfl⟩ := EStateM.Result.ok.inj hret
    obtain ⟨_, rfl⟩ := EStateM.Result.ok.inj hwrite
    refine Or.inr ⟨?_, rfl⟩
    rw [packageDir_setRpms, huploaded.dir, packageDir_setRpms]
    rfl

end

end HummingbirdRpms
