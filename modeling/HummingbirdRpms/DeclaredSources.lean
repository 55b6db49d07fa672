/-
# HummingbirdRpms.DeclaredSources — what `download_new_sources` removes that the spec still declares.

`download_new_sources` removes the entries of `sources` that are stale, and takes for current the names
of the spec's remote sources and of vendor archives.  A source that the spec declares by its bare name,
because it is in the lookaside cache and nowhere else, is neither; the branch that keeps such sources
runs only for a spec without any remote source.

**`declaredSurvive_iff`** — every declared entry and its file outlive a run exactly when the spec has no
remote source, or every declared entry is that of a remote source or of a vendor archive (and is not
the archive that the run renews under another name).  **`bareSource_removed`** is a spec with one source
of each kind.
-/
import HummingbirdRpms.SourcesRuns

namespace HummingbirdRpms

open Lib Lib.Text Lib.Regex Lib.Exec

/-! ## What is taken from the programs and libraries behind an update -/

/-- What the development relies on of `go_vendor_archive`, of hash digests and of the specfile library:
the program removes no file, a digest is a word, and a source location is one line. -/
structure SourceTools [UnicodeTables] (env : Env) : Prop where
  keeps : ∀ dir spec q, dir.isFile q = true → (env.goVendorArchive dir spec).dir.isFile q = true
  hex : ∀ algo f h, env.fileHash algo f = .ok h → WordOver isWord h
  oneLine : ∀ dir spec sources, env.specSources dir spec = .ok sources → ∀ s ∈ sources, Unbroken s.2

/-! ## Entries and their names -/

/-- The file names of some entries. -/
abbrev fileNames (entries : List SourceEntry) : List Str := entries.map (·.filename)

/-- The first entry of a kind, what stands before it and what stands after. -/
theorem replaceFirst_split {p : SourceEntry → Bool} {es : List SourceEntry} {v : SourceEntry}
    (h : es.find? p = some v) :
    ∃ pre post, es = pre ++ v :: post ∧ p v = true ∧ (∀ e ∈ pre, p e = false) ∧
      ∀ f, replaceFirst p f es = pre ++ f v :: post := by
  induction es with
  | nil => exact absurd h (by simp)
  | cons e es ih =>
      by_cases hp : p e = true
      · rw [List.find?_cons_of_pos hp] at h
        obtain rfl := Option.some.inj h
        exact ⟨[], es, rfl, hp, by simp, fun f => by rw [replaceFirst, if_pos hp]; rfl⟩
      · rw [List.find?_cons_of_neg hp] at h
        obtain ⟨pre, post, rfl, hv, hpre, hreplace⟩ := ih h
        refine ⟨e :: pre, post, rfl, hv, ?_, fun f => ?_⟩
        · exact List.forall_mem_cons.mpr ⟨by simpa using hp, hpre⟩
        · rw [replaceFirst, if_neg hp, hreplace]
          rfl

theorem isVendorEntry_iff {e : SourceEntry} :
    isVendorEntry e = true ↔ contains "-vendor.tar." e.filename = true := Iff.rfl

/-- A vendor entry that was listed already comes before all downloads. -/
theorem vendorSource_append {dir : Tree} {es added : List SourceEntry} {e : SourceEntry} (he : e ∈ es)
    (hvendor : isVendorEntry e = true) : vendorSource dir (es ++ added) = vendorSource dir es := by
  have hsome : (es.find? isVendorEntry).isSome = true := List.find?_isSome.mpr ⟨e, he, hvendor⟩
  have hfind : (es ++ added).find? isVendorEntry = es.find? isVendorEntry := by
    rw [List.find?_append, Option.or_of_isSome hsome]
  rw [vendorSource, hfind, vendorSource]

/-! ## Survival -/

section

variable [UnicodeTables]

/-- A declared entry of a name, and the file of that name if there was one, are still there. -/
def Survives (dir dir' : Tree) (n : Str) : Prop :=
  (∃ entries', parseSourcesFile dir' sourcesName = .ok entries' ∧ n ∈ fileNames entries') ∧
    (dir.isFile n = true → dir'.isFile n = true)

/-- Of every entry that the spec declares, by the last part of a source's location, an entry and the
file survive. -/
def DeclaredSurvive (entries : List SourceEntry) (specSources : List (Nat × Str)) (dir dir' : Tree) : Prop :=
  ∀ n ∈ fileNames entries, n ∈ specSources.map (fun s => basename s.2) → Survives dir dir' n

/-- The directory in which the vendor archive is renewed. -/
abbrev vendorDir (env : Env) (dir : Tree) (entries : List SourceEntry) (urls : List (Nat × Str)) : Tree :=
  withFetched env (missingUrls (fileNames entries) urls) dir

/-- The name of an entry that stays when sources are fetched: a remote source's or a vendor archive's,
and not the old name of the archive that is renewed, unless that has a second entry and no file. -/
structure Stays (env : Env) (oldVersion newVersion : Str) (dir : Tree) (entries : List SourceEntry)
    (urls : List (Nat × Str)) (n : Str) : Prop where
  current : n ∈ urls.map (fun u => basename u.2) ∨ contains "-vendor.tar." n = true
  renewed : ∀ v spec, vendorSource (vendorDir env dir entries urls) entries = some (v, spec) →
    v.filename = n → replace oldVersion newVersion n = n ∨
      1 < (fileNames entries).count n ∧ dir.isFile n = false

end

/-! ## The entries a fetch writes -/

section

variable {env : Env} {package oldVersion newVersion : Str} {entries entries' : List SourceEntry}
  {urls : List (Nat × Str)} {vendorFile : Option Str} {w w₁ w₂ w' : World} {dir : Tree} {n : Str}

theorem mem_fileNames {es : List SourceEntry} : n ∈ fileNames es ↔ ∃ e ∈ es, e.filename = n := List.mem_map

/-- A name is stale when it was listed and neither a remote source nor a vendor entry has it. -/
theorem mem_staleAfter : n ∈ staleAfter (fileNames entries) urls entries' ↔
    n ∈ fileNames entries ∧ n ∉ urls.map (fun u => basename u.2) ∧
      ∀ e ∈ entries', isVendorEntry e = true → e.filename ≠ n := by
  rw [staleAfter, staleSources, List.mem_insertionSort, List.mem_dedup, List.mem_filter, Bool.and_eq_true,
    Bool.not_eq_true', Bool.not_eq_true', List.contains_eq_mem, List.contains_eq_mem, decide_eq_false_iff_not,
    decide_eq_false_iff_not, @mem_fileNames n (entries'.filter isVendorEntry)]
  simp only [List.mem_filter, not_exists, not_and, and_assoc, ne_eq]

/-- The downloads are of files that were not listed. -/
theorem notMem_missing (hn : n ∈ fileNames entries) :
    n ∉ (missingUrls (fileNames entries) urls).map fun u => basename u.2 := by
  intro h
  obtain ⟨u, hu, rfl⟩ := List.mem_map.mp h
  exact (mem_missingUrls.mp hu).2 hn

/-- A file of a listed name is not touched by the downloads. -/
theorem isFile_vendorDir (hn : n ∈ fileNames entries) : (vendorDir env dir entries urls).isFile n = dir.isFile n := by
  rw [Tree.isFile, read_withFetched_of_notMem (notMem_missing hn), Tree.isFile]

/-- An entry of the list that the vendor step works on is an old one when its name was listed. -/
theorem mem_entries_of_listed {e : SourceEntry} (hn : e.filename ∈ fileNames entries)
    (he : e ∈ entries ++ (missingUrls (fileNames entries) urls).map (fetchedEntry env)) : e ∈ entries := by
  rcases List.mem_append.mp he with h | h
  · exact h
  · obtain ⟨u, hu, rfl⟩ := List.mem_map.mp h
    exact absurd hn (mem_missingUrls.mp hu).2

/-- What a vendor step leaves of the entry of a listed name. -/
theorem VendorStep.mem_of_ne {added : List SourceEntry} {e : SourceEntry}
    (h : VendorStep env package oldVersion newVersion (entries ++ added) w vendorFile entries' w')
    (he : e ∈ entries)
    (hne : ∀ v spec, vendorSource (w.packageDir package) (entries ++ added) = some (v, spec) →
      v.filename ≠ e.filename) : e ∈ entries' := by
  cases h with
  | kept h => exact List.mem_append_left _ he
  | @renewed v spec content newHash _ h done =>
      obtain ⟨pre, post, hsplit, -, -, hreplace⟩ := replaceFirst_split (vendorSource_mem h)
      have hmem : e ∈ pre ++ v :: post := hsplit ▸ List.mem_append_left _ he
      rw [hreplace]
      rcases List.mem_append.mp hmem with hpre | hpost
      · exact List.mem_append_left _ hpre
      · rcases List.mem_cons.mp hpost with rfl | hpost
        · exact absurd rfl (hne _ _ h)
        · exact List.mem_append_right _ (List.mem_cons_of_mem _ hpost)

variable [UnicodeTables]

theorem word_sha512 : WordOver isWord "SHA512".toList := by
  have hascii : ∀ c ∈ "SHA512".toList, isAsciiLetter c = true ∨ isAsciiDigit c = true := by decide
  refine ⟨by decide, fun c hc => ?_⟩
  rcases hascii c hc with h | h
  · simp [isWord, h]
  · simp [isWord, h]

theorem SourceTools.oneLine_fetchedEntry (ht : SourceTools env) {u : Nat × Str} (hu : Unbroken u.2)
    (hhash : env.fileHash (lowerAscii "SHA512") (fetchedContent env u.2) = .ok (fetchedEntry env u).hash) :
    (fetchedEntry env u).OneLine where
  algo := word_sha512
  unbroken c hc := hu c ((List.rtakeWhile_suffix _ _).subset hc)
  hash := ht.hex _ _ _ hhash

/-- What a fetch writes is one line an entry. -/
theorem Fetched.oneLine (ht : SourceTools env) (hold : ∀ e ∈ entries, e.WellFormed)
    (hurls : ∀ u ∈ urls, Unbroken u.2) (hversion : Unbroken newVersion)
    (h : Fetched env package oldVersion newVersion entries urls entries' vendorFile w w₁ w₂ w') :
    ∀ e ∈ entries', e.OneLine := by
  have hadded : ∀ e ∈ entries ++ (missingUrls (fileNames entries) urls).map (fetchedEntry env), e.OneLine := by
    intro e he
    rcases List.mem_append.mp he with he | he
    · exact (hold e he).oneLine
    · obtain ⟨u, hu, rfl⟩ := List.mem_map.mp he
      exact ht.oneLine_fetchedEntry (hurls u (mem_missingUrls.mp hu).1) (h.downloaded.hashed u hu)
  have hvendor := h.vendor
  cases hvendor with
  | kept => exact hadded
  | @renewed v spec content newHash _ hsource done =>
      obtain ⟨pre, post, hsplit, -, -, hreplace⟩ := replaceFirst_split (vendorSource_mem hsource)
      rw [hsplit] at hadded
      rw [hreplace]
      intro e he
      rcases List.mem_append.mp he with he | he
      · exact hadded e (List.mem_append_left _ he)
      · rcases List.mem_cons.mp he with rfl | he
        · have hv := hadded v (List.mem_append_right _ List.mem_cons_self)
          exact ⟨hv.algo, hversion.replace hv.unbroken, ht.hex _ _ _ done.hashed⟩
        · exact hadded e (List.mem_append_right _ (List.mem_cons_of_mem _ he))

/-- What a directory's `sources` file is read as after it has been written. -/
theorem parseSourcesFile_render {es : List SourceEntry} :
    parseSourcesFile (dir.write sourcesName (.text (renderSources es))) sourcesName =
      .ok (readEntries (renderSources es)) := by
  have hpresent : (dir.write sourcesName (.text (renderSources es))).present sourcesName = true := by
    rw [Tree.present, Tree.isFile_of_read Tree.read_write_self rfl, Bool.true_or]
  rw [parseSourcesFile, if_pos hpresent, readText, Tree.read_write_self]
  rfl

omit [UnicodeTables] in
/-- Whether a file is there after stale ones have been unlinked and `sources` written. -/
theorem isFile_written {stale : List Path} {text : Str} :
    ((stale.foldl Tree.unlink dir).write sourcesName (.text text)).isFile n =
      (decide (n = sourcesName) || decide (n ∉ stale) && dir.isFile n) := by
  by_cases hn : n = sourcesName
  · subst hn
    rw [Tree.isFile_of_read Tree.read_write_self rfl, decide_eq_true rfl, Bool.true_or]
  · rw [decide_eq_false hn, Bool.false_or, ← isFile_foldl_unlink, Tree.isFile, Tree.read_write_ne hn, Tree.isFile]

/-- The file of a listed name after the vendor step: it goes with the old name of an archive that is
renewed under another. -/
theorem VendorStep.isFile (ht : SourceTools env) {es : List SourceEntry}
    (h : VendorStep env package oldVersion newVersion es w vendorFile entries' w')
    (hn : (w.packageDir package).isFile n = true)
    (hkeep : ∀ v spec, vendorSource (w.packageDir package) es = some (v, spec) → v.filename = n →
      replace oldVersion newVersion n = n) : (w'.packageDir package).isFile n = true := by
  cases h with
  | kept => exact hn
  | @renewed v spec content newHash _ h done =>
      rw [done.dir, isFile_foldl_unlink, ht.keeps _ _ _ hn, Bool.and_true, decide_eq_true_eq]
      split
      · exact List.not_mem_nil
      · rename_i hne
        rw [List.mem_singleton]
        rintro rfl
        exact hne (hkeep v spec h rfl).symm

/-! ## What stays and what goes -/

omit [UnicodeTables] in
/-- The vendor entry that is renewed, when it was listed before, is the one the old entries give. -/
theorem vendorSource_iff {added : List SourceEntry} {v : SourceEntry} {spec : Path}
    (hv : v ∈ entries) :
    vendorSource dir (entries ++ added) = some (v, spec) ↔ vendorSource dir entries = some (v, spec) := by
  constructor
  · intro h
    rwa [vendorSource_append hv (List.find?_some (vendorSource_mem h))] at h
  · intro h
    rwa [vendorSource_append hv (List.find?_some (vendorSource_mem h))]

omit [UnicodeTables] in
/-- A name that was listed is listed more than once when it is that of the first entry of a kind and of a
later one. -/
theorem one_lt_count_iff {pre post : List SourceEntry} {v : SourceEntry} (hn : n ∈ fileNames entries)
    (hsplit : entries ++ (missingUrls (fileNames entries) urls).map (fetchedEntry env) = pre ++ v :: post)
    (hv : v.filename = n) (hpre : n ∉ fileNames pre) :
    1 < (fileNames entries).count n ↔ n ∈ fileNames post := by
  have hadded : ((missingUrls (fileNames entries) urls).map fun u => basename u.2).count n = 0 :=
    List.count_eq_zero_of_not_mem (notMem_missing hn)
  have hcount := congrArg (fun l => (fileNames l).count n) hsplit
  simp only [fileNames, List.map_append, List.count_append, List.map_cons, hv, List.count_cons_self,
    map_filename_fetchedEntry] at hcount
  rw [hadded, List.count_eq_zero_of_not_mem hpre] at hcount
  show 1 < (entries.map (·.filename)).count n ↔ n ∈ post.map (·.filename)
  rw [← List.count_pos_iff]
  omega

omit [UnicodeTables] in
theorem notMem_fileNames_of_vendor {pre : List SourceEntry} {v : SourceEntry} (hvv : isVendorEntry v = true)
    (hpre : ∀ e ∈ pre, isVendorEntry e = false) : v.filename ∉ fileNames pre := by
  intro hmem
  obtain ⟨e, he, hname⟩ := mem_fileNames.mp hmem
  have hnot := hpre e he
  rw [isVendorEntry, hname] at hnot
  exact absurd hvv (by rw [isVendorEntry, hnot]; simp)

namespace Fetched

variable (h : Fetched env package oldVersion newVersion entries urls entries' vendorFile w w₁ w₂ w')
include h

omit [UnicodeTables] in
/-- A fetch that wrote nothing left the directory as it was. -/
theorem quiet (hmissing : missingUrls (fileNames entries) urls = []) (hnone : vendorFile = none) :
    w₂.packageDir package = w.packageDir package := by
  have hvendor := h.vendor
  subst hnone
  cases hvendor with
  | kept =>
      rw [h.downloaded.dir, hmissing]
      rfl

/-- The entry of a name that stays is among those that are written. -/
theorem mem_of_stays (ht : SourceTools env) (hold : ∀ e ∈ entries, e.WellFormed) (hn : n ∈ fileNames entries)
    (hstays : Stays env oldVersion newVersion (w.packageDir package) entries urls n) :
    ∃ e ∈ entries', e.filename = n ∧ e.WellFormed := by
  obtain ⟨e, he, rfl⟩ := mem_fileNames.mp hn
  have hvendor := h.vendor
  cases hvendor with
  | kept => exact ⟨e, List.mem_append_left _ he, rfl, hold e he⟩
  | @renewed v spec content newHash _ hsource done =>
      by_cases hve : v.filename = e.filename
      · have hv : v ∈ entries := mem_entries_of_listed (hve ▸ hn) (List.mem_of_find?_eq_some (vendorSource_mem hsource))
        have hsource' := (vendorSource_iff hv).mp hsource
        rw [h.downloaded.dir] at hsource'
        obtain ⟨pre, post, hsplit, hvv, hpre, hreplace⟩ := replaceFirst_split (vendorSource_mem hsource)
        rw [hreplace]
        rcases hstays.renewed v spec hsource' hve with hsame | ⟨hcount, -⟩
        · -- the archive keeps its name
          refine ⟨_, List.mem_append_right _ List.mem_cons_self, ?_, ?_⟩
          · exact hve ▸ hsame
          · have hvw := hold v hv
            have hname : replace oldVersion newVersion v.filename = v.filename := by rw [hve, hsame]
            refine ⟨hvw.algo, ?_, ?_, ht.hex _ _ _ done.hashed⟩
            · exact hname.symm ▸ hvw.filename
            · exact hname.symm ▸ hvw.unbroken
        · -- a second entry of the name comes later in the list
          have hpre' : e.filename ∉ fileNames pre := hve ▸ notMem_fileNames_of_vendor hvv hpre
          obtain ⟨e', he', hname⟩ := mem_fileNames.mp ((one_lt_count_iff hn hsplit hve hpre').mp hcount)
          have hmem : e' ∈ pre ++ v :: post := List.mem_append_right _ (List.mem_cons_of_mem _ he')
          rw [← hsplit] at hmem
          refine ⟨e', List.mem_append_right _ (List.mem_cons_of_mem _ he'), hname, hold e' ?_⟩
          exact mem_entries_of_listed (hname ▸ hn) hmem
      · refine ⟨e, h.vendor.mem_of_ne he ?_, rfl, hold e he⟩
        intro v' spec' hsource'
        obtain ⟨rfl, -⟩ := Prod.mk.inj (Option.some.inj (hsource.symm.trans hsource'))
        exact hve

/-- What stays survives. -/
theorem survives (ht : SourceTools env)
    (hparse : parseSourcesFile (w.packageDir package) sourcesName = .ok entries) (hn : n ∈ fileNames entries)
    (hstays : Stays env oldVersion newVersion (w.packageDir package) entries urls n) :
    Survives (w.packageDir package) (w'.packageDir package) n := by
  obtain ⟨e, he, rfl, hwf⟩ := h.mem_of_stays ht (wellFormed_of_parseSourcesFile hparse) hn hstays
  rcases h.written with ⟨hmissing, hnone, -, rfl⟩ | ⟨hdir, -⟩
  · rw [h.quiet hmissing hnone]
    exact ⟨⟨entries, hparse, hn⟩, fun hfile => hfile⟩
  · have hstale : e.filename ∉ staleAfter (fileNames entries) urls entries' := by
      intro hmem
      obtain ⟨-, hurl, hvendor⟩ := mem_staleAfter.mp hmem
      rcases hstays.current with hcur | hcur
      · exact hurl hcur
      · exact hvendor e he hcur rfl
    rw [hdir]
    refine ⟨⟨_, parseSourcesFile_render, mem_fileNames.mpr ⟨e, mem_readEntries ?_ hwf, rfl⟩⟩, ?_⟩
    · rw [List.mem_filter]
      exact ⟨he, by simpa using hstale⟩
    · intro hfile
      rw [isFile_written, decide_eq_true hstale, Bool.true_and, Bool.or_eq_true]
      refine Or.inr (h.vendor.isFile ht ?_ ?_)
      · rw [h.downloaded.dir, isFile_vendorDir hn]
        exact hfile
      · intro v spec hsource hve
        have hv : v ∈ entries :=
          mem_entries_of_listed (hve ▸ hn) (List.mem_of_find?_eq_some (vendorSource_mem hsource))
        have hsource' := (vendorSource_iff hv).mp hsource
        rw [h.downloaded.dir] at hsource'
        rcases hstays.renewed v spec hsource' hve with hsame | ⟨-, hno⟩
        · exact hsame
        · exact absurd hfile (by rw [hno]; simp)

omit [UnicodeTables] h in
/-- A listed name that is not stale is current. -/
theorem current_of_notMem_stale (hn : n ∈ fileNames entries)
    (hstale : n ∉ staleAfter (fileNames entries) urls entries') :
    n ∈ urls.map (fun u => basename u.2) ∨ contains "-vendor.tar." n = true := by
  by_contra hcur
  rw [not_or] at hcur
  refine hstale (mem_staleAfter.mpr ⟨hn, hcur.1, ?_⟩)
  rintro e - hvendor rfl
  exact hcur.2 hvendor

omit [UnicodeTables] in
/-- An archive that is renewed under another name leaves a second entry of its old name behind, or none,
and no file. -/
theorem renewed_of_written {v : SourceEntry} {spec : Path} (hn : n ∈ fileNames entries) (hmem : n ∈ fileNames entries')
    (hsource : vendorSource (vendorDir env (w.packageDir package) entries urls) entries = some (v, spec))
    (hve : v.filename = n) (hne : replace oldVersion newVersion n ≠ n) :
    1 < (fileNames entries).count n ∧ (w₂.packageDir package).isFile n = false := by
  have hv : v ∈ entries := List.mem_of_find?_eq_some (vendorSource_mem hsource)
  have hsource' : vendorSource (w₁.packageDir package)
      (entries ++ (missingUrls (fileNames entries) urls).map (fetchedEntry env)) = some (v, spec) := by
    rw [h.downloaded.dir, vendorSource_iff hv]
    exact hsource
  have hvendor := h.vendor
  cases hvendor with
  | kept hnone => exact absurd (hsource'.symm.trans hnone) (by simp)
  | @renewed v' spec' content newHash _ hfound done =>
      obtain ⟨rfl, rfl⟩ := Prod.mk.inj (Option.some.inj (hsource'.symm.trans hfound))
      obtain ⟨pre, post, hsplit, hvv, hpre, hreplace⟩ := replaceFirst_split (vendorSource_mem hfound)
      subst hve
      have hpre' := notMem_fileNames_of_vendor hvv hpre
      refine ⟨(one_lt_count_iff hn hsplit rfl hpre').mpr ?_, ?_⟩
      · rw [hreplace, fileNames, List.map_append, List.map_cons, List.mem_append, List.mem_cons] at hmem
        rcases hmem with hmem | hmem | hmem
        · exact absurd hmem hpre'
        · exact absurd hmem.symm hne
        · exact hmem
      · rw [done.dir, if_neg (Ne.symm hne), isFile_foldl_unlink]
        simp

/-- And what survives stays, when a version is one line. -/
theorem stays (ht : SourceTools env)
    (hparse : parseSourcesFile (w.packageDir package) sourcesName = .ok entries) (hn : n ∈ fileNames entries)
    (hurls : ∀ u ∈ urls, Unbroken u.2) (hversion : Unbroken newVersion)
    (hsurvives : Survives (w.packageDir package) (w'.packageDir package) n) :
    Stays env oldVersion newVersion (w.packageDir package) entries urls n := by
  have hold := wellFormed_of_parseSourcesFile hparse
  obtain ⟨⟨read, hread, hmem⟩, hfile⟩ := hsurvives
  rcases h.written with ⟨hmissing, rfl, hstale, rfl⟩ | ⟨hdir, -⟩
  · -- nothing was written because nothing was stale
    refine ⟨current_of_notMem_stale hn (by rw [hstale]; exact List.not_mem_nil), ?_⟩
    intro v spec hsource _
    have hv : v ∈ entries := List.mem_of_find?_eq_some (vendorSource_mem hsource)
    have hvendor := h.vendor
    cases hvendor with
    | kept hnone =>
        rw [h.downloaded.dir, (vendorSource_iff hv).mpr hsource] at hnone
        exact absurd hnone (by simp)
  · rw [hdir, parseSourcesFile_render] at hread
    obtain rfl := Except.ok.inj hread
    have hone := h.oneLine ht hold hurls hversion
    rw [readEntries_of_oneLine fun e he => hone e (List.mem_filter.mp he).1] at hmem
    obtain ⟨e, he, rfl⟩ := mem_fileNames.mp hmem
    obtain ⟨he, hstale⟩ := List.mem_filter.mp (List.mem_filter.mp he).1
    have hstale : e.filename ∉ staleAfter (fileNames entries) urls entries' := by simpa using hstale
    refine ⟨current_of_notMem_stale hn hstale, ?_⟩
    intro v spec hsource hve
    rw [or_iff_not_imp_left]
    intro hne
    obtain ⟨hcount, hgone⟩ := h.renewed_of_written hn (mem_fileNames.mpr ⟨e, he, rfl⟩) hsource hve hne
    refine ⟨hcount, ?_⟩
    by_contra hthere
    -- the file would have to come back when `sources` is written
    have hback := hfile (by simpa using hthere)
    have hvendor : isVendorEntry v = true := List.find?_some (vendorSource_mem hsource)
    have hname : e.filename ≠ sourcesName := by
      intro heq
      rw [isVendorEntry, hve, heq] at hvendor
      exact absurd hvendor (by decide)
    rw [hdir, isFile_written, decide_eq_false hname, hgone] at hback
    simp at hback

end Fetched

/-- **`declaredSurvive_iff`** — in a run that returns, every declared entry and its file survive when the
spec has no remote source, or every declared entry is one that stays; and, the new version being one
line, only then. -/
theorem declaredSurvive_iff {spec : Path} {specSources : List (Nat × Str)} {out : List Str}
    (ht : SourceTools env) (hglob : (w.packageDir package).glob ".spec" = [spec])
    (hparse : parseSourcesFile (w.packageDir package) sourcesName = .ok entries)
    (hsources : env.specSources (w.packageDir package) spec = .ok specSources)
    (hrun : downloadNewSources env package oldVersion newVersion w = .ok out w') :
    ((specSourceUrls specSources = [] ∨ ∀ n ∈ fileNames entries, n ∈ specSources.map (fun s => basename s.2) →
        Stays env oldVersion newVersion (w.packageDir package) entries (specSourceUrls specSources) n) →
      DeclaredSurvive entries specSources (w.packageDir package) (w'.packageDir package)) ∧
    (Unbroken newVersion → DeclaredSurvive entries specSources (w.packageDir package) (w'.packageDir package) →
      specSourceUrls specSources = [] ∨ ∀ n ∈ fileNames entries, n ∈ specSources.map (fun s => basename s.2) →
        Stays env oldVersion newVersion (w.packageDir package) entries (specSourceUrls specSources) n) := by
  obtain ⟨entries₀, specSources₀, hparse₀, hsources₀, hcases⟩ := downloadNewSources_ok hglob hrun
  obtain rfl := Except.ok.inj (hparse.symm.trans hparse₀)
  obtain rfl := Except.ok.inj (hsources.symm.trans hsources₀)
  rcases hcases with ⟨hwhen, entries', vendorFile, w₁, w₂, hfetched⟩ | ⟨-, hnourls, rfl⟩
  · constructor
    · rintro (hnourls | hstays) n hn hdeclared
      · -- without remote sources there is a fetch only when nothing was listed
        rcases hwhen with rfl | hurls
        · exact absurd hn (by simp)
        · exact absurd hnourls hurls
      · exact hfetched.survives ht hparse hn (hstays n hn hdeclared)
    · intro hversion hsurvive
      refine Or.inr fun n hn hdeclared => ?_
      refine hfetched.stays ht hparse hn ?_ hversion (hsurvive n hn hdeclared)
      intro u hu
      exact ht.oneLine _ _ _ hsources u (List.mem_filter.mp hu).1
  · -- nothing was done
    refine ⟨fun _ n hn _ => ⟨⟨entries, hparse, hn⟩, fun hfile => hfile⟩, fun _ _ => Or.inl hnourls⟩

end

/-! ## A source of each kind -/

/-- The digest of the text that the host sends. -/
def newDigest : Str :=
  "89a7486a4b6ae7142af0e6643ae428f8fa8395516a488c03c134c5b3fbc0d26f" ++
    "4bb40e757a41894a4171a2afa5eb418bbf2db1c67a04b07f205007cb9d829dfe"

/-- A package whose `sources` lists an archive of the old version and one that only the lookaside cache
has. -/
def mixedDir : Tree :=
  Tree.ofList [("pkg.spec", .text "Source0: https://host/pkg-%{version}.tar.gz\nSource1: helper.tar.gz\n"),
    ("sources", .text "SHA512 (pkg-1.0.tar.gz) = 0a\nSHA512 (helper.tar.gz) = 0b\n"),
    ("helper.tar.gz", .text "helper\n")]

def mixedWorld : World := World.empty.setRpms "pkg" mixedDir

/-- The host sends the archive of the new version, uploads go through, and the spec declares these
sources. -/
def mixedEnv (specSources : List (Nat × Str)) : Env :=
  { Env.offline with
    upload := fun _ => .exited 0 [] []
    specSources := fun _ _ => .ok specSources
    download := fun _ => { response := .ok (.text "new\n") }
    fileHash := fun algo f =>
      if algo = "sha512" ∧ f = .text "new\n" then .ok newDigest else .error (.raised .valueError "") }

def mixedSources : List (Nat × Str) := [(0, "https://host/pkg-2.0.tar.gz"), (1, "helper.tar.gz")]

/-- The same sources, both of them remote. -/
def remoteSources : List (Nat × Str) :=
  [(0, "https://host/pkg-2.0.tar.gz"), (1, "https://host/helper.tar.gz")]

def mixedEntries : List SourceEntry := [⟨"SHA512", "pkg-1.0.tar.gz", "0a"⟩, ⟨"SHA512", "helper.tar.gz", "0b"⟩]

theorem word_newDigest :
    letI := asciiTables
    WordOver isWord newDigest := by
  let _ := asciiTables
  have hne : newDigest ≠ [] := by decide +kernel
  have hword : ∀ c ∈ newDigest, isWord c = true := by decide +kernel
  exact ⟨hne, hword⟩

theorem mixedEnv_tools (specSources : List (Nat × Str)) (h : ∀ s ∈ specSources, Unbroken s.2) :
    letI := asciiTables
    SourceTools (mixedEnv specSources) := by
  let _ := asciiTables
  refine ⟨fun dir spec q hq => hq, ?_, ?_⟩
  · intro algo f digest hdigest
    simp only [mixedEnv] at hdigest
    split at hdigest
    · obtain rfl := Except.ok.inj hdigest
      exact word_newDigest
    · exact absurd hdigest (by simp)
  · intro dir spec sources hsources
    obtain rfl := Except.ok.inj hsources
    exact h

theorem glob_mixedWorld : (mixedWorld.packageDir "pkg").glob ".spec" = ["pkg.spec"] := by decide

theorem parse_mixedWorld :
    letI := asciiTables
    parseSourcesFile (mixedWorld.packageDir "pkg") sourcesName = .ok mixedEntries := by
  let _ := asciiTables
  have hparse : (parseSourcesFile (mixedWorld.packageDir "pkg") sourcesName).toOption = some mixedEntries := by
    decide +kernel
  exact except_toOption_iff.mp hparse

theorem unbroken_mixedSources : ∀ s ∈ mixedSources, Unbroken s.2 := by
  have h : ∀ s ∈ mixedSources, ∀ c ∈ s.2, isLineBreak c = false := by decide
  exact h

theorem unbroken_remoteSources : ∀ s ∈ remoteSources, Unbroken s.2 := by
  have h : ∀ s ∈ remoteSources, ∀ c ∈ s.2, isLineBreak c = false := by decide
  exact h

/-- With both sources remote, the one that was listed and declared survives. -/
theorem declaredSurvive_remote :
    letI := asciiTables
    ∃ out w', downloadNewSources (mixedEnv remoteSources) "pkg" "1.0" "2.0" mixedWorld = .ok out w' ∧
      DeclaredSurvive mixedEntries remoteSources (mixedWorld.packageDir "pkg") (w'.packageDir "pkg") := by
  let _ := asciiTables
  have hreturns : returns (downloadNewSources (mixedEnv remoteSources) "pkg" "1.0" "2.0") mixedWorld
      (fun _ _ => true) = true := by decide +kernel
  obtain ⟨out, w', hrun, -⟩ := returns_iff.mp hreturns
  refine ⟨out, w', hrun, ?_⟩
  refine (declaredSurvive_iff (mixedEnv_tools _ unbroken_remoteSources) glob_mixedWorld parse_mixedWorld rfl
    hrun).1 (Or.inr ?_)
  intro n hn hdeclared
  refine ⟨Or.inl ?_, ?_⟩
  · revert n
    decide
  · -- there is no vendor archive to renew
    have hnone : vendorSource (vendorDir (mixedEnv remoteSources) (mixedWorld.packageDir "pkg") mixedEntries
        (specSourceUrls remoteSources)) mixedEntries = none := by decide +kernel
    intro v spec hsource
    exact absurd (hnone.symm.trans hsource) (by simp)

/-- **`bareSource_removed`** — a run removes the entry and the file of a source that the spec declares by
its bare name beside a remote one. -/
theorem bareSource_removed :
    letI := asciiTables
    ∃ out w', downloadNewSources (mixedEnv mixedSources) "pkg" "1.0" "2.0" mixedWorld = .ok out w' ∧
      ¬ DeclaredSurvive mixedEntries mixedSources (mixedWorld.packageDir "pkg") (w'.packageDir "pkg") := by
  let _ := asciiTables
  have hreturns : returns (downloadNewSources (mixedEnv mixedSources) "pkg" "1.0" "2.0") mixedWorld
      (fun _ w' => !(w'.packageDir "pkg").isFile "helper.tar.gz") = true := by decide +kernel
  obtain ⟨out, w', hrun, hgone⟩ := returns_iff.mp hreturns
  refine ⟨out, w', hrun, fun hsurvive => ?_⟩
  have hback := (hsurvive "helper.tar.gz" (by decide) (by decide)).2 (by decide +kernel)
  rw [Bool.not_eq_true'] at hgone
  exact absurd hback (by rw [hgone]; simp)

end HummingbirdRpms
