/-
# HummingbirdRpms.UniqueSources — whether an update leaves a file name twice in `sources`.

Three of the four ways to write `sources` change the list of entries that was there, each by its own
rule: `download_new_sources` appends an entry for every remote source that was not listed BEFORE the
loop, the vendor archive renames its entry, and the `download_sources` hook renames the first entry that
has either the listed name or its old-version form.  None of them looks whether the name is taken.

**`uniqueSources_iff`** — when each way, from a `sources` file without repeated names, leaves one: for
gorget, that gorget emitted one; for a fetch, that no two missing sources share a last path component and
the renewed vendor archive's new name is free; for a hook, that no listed file takes over the entry of
its old name while it has one of its own.  **`twoUrls_oneName`** has two URLs with one basename.
-/
import HummingbirdRpms.DeclaredSources

namespace HummingbirdRpms

open Lib Lib.Text Lib.Regex Lib.Exec

/-! ## Lists of names -/

section

variable {A B P Q : List Str} {v n : Str} {q : Str → Bool}

/-- Names added to others that they do not repeat are all that can repeat. -/
theorem nodup_filter_append (hA : A.Nodup) (hdisjoint : ∀ a ∈ A, a ∉ B) (hB : ∀ b ∈ B, q b = true) :
    ((A ++ B).filter q).Nodup ↔ B.Nodup := by
  rw [List.filter_append, List.filter_eq_self.mpr hB]
  constructor
  · intro h
    exact h.of_append_right
  · intro h
    refine List.nodup_append'.mpr ⟨hA.filter q, h, ?_⟩
    intro a ha hb
    exact hdisjoint a (List.mem_filter.mp ha).1 hb

/-- One name changed into another. -/
theorem nodup_filter_middle :
    ((P ++ n :: Q).filter q).Nodup ↔ ((P ++ Q).filter q).Nodup ∧ (q n = true → n ∉ P ++ Q) := by
  by_cases hn : q n = true
  · rw [List.filter_append, List.filter_cons_of_pos hn, List.nodup_middle, ← List.filter_append,
      List.nodup_cons, List.mem_filter, and_comm]
    simp only [hn, and_true, forall_const]
  · rw [List.filter_append, List.filter_cons_of_neg hn, ← List.filter_append]
    simp only [hn, false_implies, and_true, Bool.false_eq_true]

/-- What is left of two lists without a name, when the lists have nothing in common. -/
theorem erase_append_disjoint (hdisjoint : ∀ a ∈ A, a ∉ B) :
    ∃ A', (A ++ B).erase v = A' ++ B.erase v ∧ A'.Sublist A := by
  by_cases hv : v ∈ A
  · refine ⟨A.erase v, ?_, List.erase_sublist⟩
    rw [List.erase_append_left _ hv, List.erase_of_not_mem (hdisjoint v hv)]
  · exact ⟨A, List.erase_append_right _ hv, List.Sublist.refl A⟩

end

/-! ## The vendor archive -/

/-- The name of the vendor archive that is renewed, when one is. -/
def renewedName (dir : Tree) (listed : List Str) : Option Str :=
  if dir.present "go-vendor-tools.toml" = false then none
  else
    match listed.find? (contains "-vendor.tar."), dir.glob ".spec" with
    | some n, [_] => some n
    | _, _ => none

theorem renewedName_eq {dir : Tree} {es : List SourceEntry} :
    renewedName dir (fileNames es) = (vendorSource dir es).map (·.1.filename) := by
  have hfind : (fileNames es).find? (contains "-vendor.tar.") = (es.find? isVendorEntry).map (·.filename) := by
    rw [fileNames, List.find?_map]
    rfl
  rw [renewedName, vendorSource, hfind]
  split
  · rfl
  · rcases es.find? isVendorEntry with _ | v
    · rfl
    · rcases dir.glob ".spec" with _ | ⟨spec, _ | ⟨spec', specs⟩⟩
      · rfl
      · rfl
      · rfl

/-- The renewed archive's new name is another entry's already. -/
def VendorClash (oldVersion newVersion : Str) (dir : Tree) (listed : List Str) : Prop :=
  ∃ v, renewedName dir listed = some v ∧ replace oldVersion newVersion v ∈ listed.erase v

section

variable {env : Env} {package oldVersion newVersion : Str} {entries entries' : List SourceEntry}
  {urls : List (Nat × Str)} {vendorFile : Option Str} {w w₁ w₂ w' : World} {dir : Tree} {n : Str}

/-- The names after a vendor step: as they were, or with the first vendor archive's changed. -/
theorem VendorStep.fileNames_eq
    (h : VendorStep env package oldVersion newVersion entries w vendorFile entries' w') :
    (renewedName (w.packageDir package) (fileNames entries) = none ∧ entries' = entries) ∨
      ∃ v P Q, renewedName (w.packageDir package) (fileNames entries) = some v ∧
        fileNames entries = P ++ v :: Q ∧ v ∉ P ∧
        fileNames entries' = P ++ replace oldVersion newVersion v :: Q ∧
        ∃ e ∈ entries', e.filename = replace oldVersion newVersion v := by
  rw [renewedName_eq]
  cases h with
  | kept h => exact Or.inl ⟨by rw [h]; rfl, rfl⟩
  | @renewed v spec content newHash _ h done =>
      obtain ⟨pre, post, hsplit, hvv, hpre, hreplace⟩ := replaceFirst_split (vendorSource_mem h)
      refine Or.inr ⟨v.filename, fileNames pre, fileNames post, by rw [h]; rfl, ?_,
        notMem_fileNames_of_vendor hvv hpre, ?_, ?_⟩
      · rw [hsplit, fileNames, List.map_append, List.map_cons]
      · rw [hreplace, fileNames, List.map_append, List.map_cons]
      · exact ⟨_, by rw [hreplace]; exact List.mem_append_right _ List.mem_cons_self, rfl⟩

/-- A vendor step repeats no name exactly when the new name is free. -/
theorem VendorStep.nodup_iff
    (h : VendorStep env package oldVersion newVersion entries w vendorFile entries' w')
    (hnodup : (fileNames entries).Nodup) :
    (fileNames entries').Nodup ↔
      ¬ VendorClash oldVersion newVersion (w.packageDir package) (fileNames entries) := by
  rcases h.fileNames_eq with ⟨hnone, rfl⟩ | ⟨v, P, Q, hsome, hsplit, hv, hnames, -⟩
  · refine iff_of_true hnodup ?_
    rintro ⟨v, hv, -⟩
    exact absurd (hnone.symm.trans hv) (by simp)
  · have herase : (fileNames entries).erase v = P ++ Q := by
      rw [hsplit, List.erase_append_right _ hv, List.erase_cons_head]
    have hrest : (P ++ Q).Nodup := by
      rw [hsplit, List.nodup_middle] at hnodup
      exact hnodup.of_cons
    rw [hnames, List.nodup_middle, List.nodup_cons]
    constructor
    · rintro ⟨hfree, -⟩ ⟨v', hv', hmem⟩
      obtain rfl := Option.some.inj (hsome.symm.trans hv')
      exact hfree (herase ▸ hmem)
    · intro hclash
      exact ⟨fun hmem => hclash ⟨v, hsome, herase ▸ hmem⟩, hrest⟩

/-! ## A fetch -/

/-- The last path components of the remote sources. -/
abbrev urlNames (urls : List (Nat × Str)) : List Str := urls.map fun u => basename u.2

/-- The names of the missing sources. -/
abbrev missingNames (listed : List Str) (urls : List (Nat × Str)) : List Str :=
  urlNames (missingUrls listed urls)

/-- What a fetch needs for its names to be different: the missing sources have different names, apart from
the one whose archive is renewed, and the new name of that archive is free, or stale. -/
structure FetchUnique (oldVersion newVersion : Str) (dir : Tree) (listed : List Str) (urls : List (Nat × Str)) :
    Prop where
  missing : renewedName dir (listed ++ missingNames listed urls) = none → (missingNames listed urls).Nodup
  others : ∀ v, renewedName dir (listed ++ missingNames listed urls) = some v →
    ((missingNames listed urls).erase v).Nodup
  free : ∀ v, renewedName dir (listed ++ missingNames listed urls) = some v →
    replace oldVersion newVersion v ∈ (listed ++ missingNames listed urls).erase v →
      replace oldVersion newVersion v ∉ urlNames urls ∧
        contains "-vendor.tar." (replace oldVersion newVersion v) = false

theorem fileNames_added :
    fileNames (entries ++ (missingUrls (fileNames entries) urls).map (fetchedEntry env)) =
      fileNames entries ++ missingNames (fileNames entries) urls := by
  rw [fileNames, List.map_append, map_filename_fetchedEntry]

namespace Fetched

variable (h : Fetched env package oldVersion newVersion entries urls entries' vendorFile w w₁ w₂ w')
include h

/-- Which archive is renewed is a matter of names. -/
theorem renewedName_eq :
    renewedName (vendorDir env (w.packageDir package) entries urls)
        (fileNames entries ++ missingNames (fileNames entries) urls) =
      (vendorSource (w₁.packageDir package)
        (entries ++ (missingUrls (fileNames entries) urls).map (fetchedEntry env))).map (·.1.filename) := by
  rw [h.downloaded.dir, ← HummingbirdRpms.renewedName_eq, fileNames_added]

/-- Of the names that a fetch writes, those that are not stale differ exactly under `FetchUnique`. -/
theorem nodup_iff (hold : ∀ e ∈ entries, e.filename ≠ []) (hnodup : (fileNames entries).Nodup) :
    ((fileNames entries').filter fun n =>
        !(staleAfter (fileNames entries) urls entries').contains n && decide (n ≠ [])).Nodup ↔
      FetchUnique oldVersion newVersion (vendorDir env (w.packageDir package) entries urls) (fileNames entries)
        urls := by
  have hmissing : ∀ b ∈ missingNames (fileNames entries) urls,
      (!(staleAfter (fileNames entries) urls entries').contains b && decide (b ≠ [])) = true := by
    intro b hb
    have hstale : b ∉ staleAfter (fileNames entries) urls entries' := by
      intro hmem
      exact notMem_missing (mem_staleAfter.mp hmem).1 hb
    obtain ⟨u, hu, rfl⟩ := List.mem_map.mp hb
    simpa [hstale] using h.downloaded.named u hu
  have hdisjoint : ∀ a ∈ fileNames entries, a ∉ missingNames (fileNames entries) urls := fun a => notMem_missing
  have hdir := h.downloaded.dir
  rcases h.vendor.fileNames_eq with ⟨hnone, rfl⟩ | ⟨v, P, Q, hsome, hsplit, hv, hnames, e, he, hename⟩
  · rw [fileNames_added, hdir] at hnone
    rw [fileNames_added, nodup_filter_append hnodup hdisjoint hmissing]
    constructor
    · intro hfresh
      exact ⟨fun _ => hfresh, fun v hv => absurd (hnone.symm.trans hv) (by simp),
        fun v hv => absurd (hnone.symm.trans hv) (by simp)⟩
    · intro hunique
      exact hunique.missing hnone
  · rw [fileNames_added, hdir] at hsome
    rw [fileNames_added] at hsplit
    have herase : (fileNames entries ++ missingNames (fileNames entries) urls).erase v = P ++ Q := by
      rw [hsplit, List.erase_append_right _ hv, List.erase_cons_head]
    obtain ⟨A, hA, hsub⟩ := @erase_append_disjoint _ _ v hdisjoint
    have hothers : (((fileNames entries ++ missingNames (fileNames entries) urls).erase v).filter fun n =>
        !(staleAfter (fileNames entries) urls entries').contains n && decide (n ≠ [])).Nodup ↔
        ((missingNames (fileNames entries) urls).erase v).Nodup := by
      rw [hA]
      refine nodup_filter_append (hnodup.sublist hsub) ?_ fun b hb => hmissing b (List.mem_of_mem_erase hb)
      intro a ha hmem
      exact hdisjoint a (hsub.subset ha) (List.mem_of_mem_erase hmem)
    have hrest : ∀ m ∈ P ++ Q, m ∈ fileNames entries ∨ m ∈ missingNames (fileNames entries) urls := by
      intro m hm
      rw [← herase] at hm
      exact List.mem_append.mp (List.mem_of_mem_erase hm)
    have hfree : (((!(staleAfter (fileNames entries) urls entries').contains (replace oldVersion newVersion v) &&
        decide (replace oldVersion newVersion v ≠ [])) = true → replace oldVersion newVersion v ∉ P ++ Q)) ↔
        (replace oldVersion newVersion v ∈ P ++ Q → replace oldVersion newVersion v ∉ urlNames urls ∧
          contains "-vendor.tar." (replace oldVersion newVersion v) = false) := by
      rw [Bool.and_eq_true, Bool.not_eq_true', List.contains_eq_mem, decide_eq_false_iff_not, decide_eq_true_eq]
      constructor
      · intro himp hmem
        have hne : replace oldVersion newVersion v ≠ [] := by
          rcases hrest _ hmem with hl | hm
          · obtain ⟨e, he, hname⟩ := mem_fileNames.mp hl
            exact hname ▸ hold e he
          · obtain ⟨u, hu, hname⟩ := List.mem_map.mp hm
            exact hname ▸ h.downloaded.named u hu
        have hstale : replace oldVersion newVersion v ∈ staleAfter (fileNames entries) urls entries' := by
          by_contra hstale
          exact himp ⟨hstale, hne⟩ hmem
        obtain ⟨-, hurl, hvendor⟩ := mem_staleAfter.mp hstale
        refine ⟨hurl, ?_⟩
        by_contra hcontains
        exact hvendor e he (by rw [isVendorEntry, hename]; simpa using hcontains) hename
      · rintro himp ⟨hstale, -⟩ hmem
        obtain ⟨hurl, hcontains⟩ := himp hmem
        refine hstale (mem_staleAfter.mpr ⟨?_, hurl, ?_⟩)
        · rcases hrest _ hmem with hl | hm
          · exact hl
          · obtain ⟨u, hu, hname⟩ := List.mem_map.mp hm
            exact absurd (List.mem_map.mpr ⟨u, (mem_missingUrls.mp hu).1, hname⟩) hurl
        · intro e' _ hvendor hname
          rw [isVendorEntry, hname, hcontains] at hvendor
          exact absurd hvendor (by simp)
    rw [hnames, nodup_filter_middle, ← herase, hothers, herase, hfree, ← herase]
    constructor
    · rintro ⟨hmiss, hnew⟩
      refine ⟨fun hnone => absurd (hnone.symm.trans hsome) (by simp), ?_, ?_⟩
      · intro v' hv'
        obtain rfl := Option.some.inj (hsome.symm.trans hv')
        exact hmiss
      · intro v' hv'
        obtain rfl := Option.some.inj (hsome.symm.trans hv')
        exact hnew
    · intro hunique
      exact ⟨hunique.others v hsome, hunique.free v hsome⟩

end Fetched

variable [UnicodeTables]

/-- No file name occurs twice in the `sources` file of a directory. -/
def UniqueNames (dir : Tree) : Prop :=
  ∀ es, parseSourcesFile dir sourcesName = .ok es → (fileNames es).Nodup

theorem uniqueNames_iff {es : List SourceEntry} (h : parseSourcesFile dir sourcesName = .ok es) :
    UniqueNames dir ↔ (fileNames es).Nodup := by
  constructor
  · intro hunique
    exact hunique es h
  · intro hnodup es' h'
    obtain rfl := Except.ok.inj (h.symm.trans h')
    exact hnodup

omit [UnicodeTables] in
theorem fileNames_filter {es : List SourceEntry} {q : Str → Bool} :
    fileNames (es.filter fun e => q e.filename) = (fileNames es).filter q := by
  rw [fileNames, fileNames, List.filter_map]
  rfl

/-- A fetch leaves a `sources` file without repeated names exactly under `FetchUnique`. -/
theorem Fetched.unique_iff (ht : SourceTools env)
    (h : Fetched env package oldVersion newVersion entries urls entries' vendorFile w w₁ w₂ w')
    (hparse : parseSourcesFile (w.packageDir package) sourcesName = .ok entries)
    (hnodup : (fileNames entries).Nodup) (hurls : ∀ u ∈ urls, Unbroken u.2) (hversion : Unbroken newVersion) :
    UniqueNames (w'.packageDir package) ↔
      FetchUnique oldVersion newVersion (vendorDir env (w.packageDir package) entries urls) (fileNames entries)
        urls := by
  have hold := wellFormed_of_parseSourcesFile hparse
  rcases h.written with ⟨hmissing, rfl, hstale, rfl⟩ | ⟨hdir, -⟩
  · -- nothing was written, and there was nothing to add or to rename
    rw [h.quiet hmissing rfl, uniqueNames_iff hparse]
    refine iff_of_true hnodup ?_
    have hnone : renewedName (vendorDir env (w.packageDir package) entries urls)
        (fileNames entries ++ missingNames (fileNames entries) urls) = none := by
      rw [h.renewedName_eq]
      have hvendor := h.vendor
      cases hvendor with
      | kept hkept =>
          rw [show vendorSource _ _ = _ from hkept]
          rfl
    refine ⟨fun _ => ?_, fun v hv => absurd (hnone.symm.trans hv) (by simp),
      fun v hv => absurd (hnone.symm.trans hv) (by simp)⟩
    rw [missingNames, hmissing]
    exact List.nodup_nil
  · have hone := h.oneLine ht hold hurls hversion
    rw [hdir, uniqueNames_iff parseSourcesFile_render,
      readEntries_of_oneLine fun e he => hone e (List.mem_filter.mp he).1, List.filter_filter,
      ← h.nodup_iff (fun e he => (hold e he).filename) hnodup, ← fileNames_filter]
    refine iff_of_eq (congrArg (fun l => (fileNames l).Nodup) (List.filter_congr fun e _ => ?_))
    rw [Bool.and_comm]

end

/-! ## The hook -/

section

variable {oldVersion newVersion f g : Str} {filenames listed : List Str} {entries : List SourceEntry}

/-- The names an entry may have to be that of a listed file. -/
def isListedName (oldVersion newVersion f : Str) (n : Str) : Bool :=
  n = f || n = replace newVersion oldVersion f

/-- The first name of a kind, replaced. -/
def renameFirst (p : Str → Bool) (f : Str) : List Str → List Str
  | [] => []
  | n :: ns => if p n then f :: ns else n :: renameFirst p f ns

/-- The names after a listed file has been recorded. -/
def recordName (oldVersion newVersion f : Str) (listed : List Str) : List Str :=
  if listed.any (isListedName oldVersion newVersion f) then
    renameFirst (isListedName oldVersion newVersion f) f listed
  else listed ++ [f]

theorem fileNames_replaceFirst {p : Str → Bool} {k : SourceEntry → SourceEntry} {es : List SourceEntry}
    (hk : ∀ e, (k e).filename = f) :
    fileNames (replaceFirst (fun e => p e.filename) k es) = renameFirst p f (fileNames es) := by
  induction es with
  | nil => rfl
  | cons e es ih =>
      show fileNames (if p e.filename then k e :: es else e :: replaceFirst (fun e => p e.filename) k es) =
        if p e.filename then f :: fileNames es else e.filename :: renameFirst p f (fileNames es)
      split
      · rw [fileNames, List.map_cons, hk]
      · rw [fileNames, List.map_cons, show List.map _ _ = _ from ih]

theorem fileNames_recordHookFile {hash : Str} :
    fileNames (recordHookFile oldVersion newVersion f hash entries) =
      recordName oldVersion newVersion f (fileNames entries) := by
  have hany : (fileNames entries).any (isListedName oldVersion newVersion f) =
      entries.any fun e => isListedName oldVersion newVersion f e.filename := by
    rw [fileNames, List.any_map]
    rfl
  rw [recordName, hany]
  show fileNames (if (entries.any fun e => isListedName oldVersion newVersion f e.filename) then _ else _) = _
  split
  · exact @fileNames_replaceFirst f (isListedName oldVersion newVersion f)
      (fun e => { e with filename := f, hash }) entries fun _ => rfl
  · rw [fileNames, List.map_append]
    rfl

/-- A listed file takes over the entry of its old-version name, though an entry has its own name. -/
def TakesOver (oldVersion newVersion f : Str) (listed : List Str) : Prop :=
  listed.find? (isListedName oldVersion newVersion f) = some (replace newVersion oldVersion f) ∧
    replace newVersion oldVersion f ≠ f ∧ f ∈ listed

/-- No listed file takes over another's entry in its turn. -/
def HookUnique (oldVersion newVersion : Str) : List Str → List Str → Prop
  | [], _ => True
  | f :: filenames, listed =>
      ¬ TakesOver oldVersion newVersion f listed ∧
        HookUnique oldVersion newVersion filenames (recordName oldVersion newVersion f listed)

theorem isListedName_iff {n : Str} :
    isListedName oldVersion newVersion f n = true ↔ n = f ∨ n = replace newVersion oldVersion f := by
  simp [isListedName]

/-- Recording a file changes the first entry that may be its, or adds one. -/
theorem recordName_cases :
    (listed.find? (isListedName oldVersion newVersion f) = none ∧ f ∉ listed ∧
        recordName oldVersion newVersion f listed = listed ++ [f]) ∨
      ∃ P m Q, listed = P ++ m :: Q ∧ listed.find? (isListedName oldVersion newVersion f) = some m ∧ f ∉ P ∧
        (m = f ∨ m = replace newVersion oldVersion f) ∧
        recordName oldVersion newVersion f listed = P ++ f :: Q := by
  have hself : isListedName oldVersion newVersion f f = true := isListedName_iff.mpr (Or.inl rfl)
  cases hfind : listed.find? (isListedName oldVersion newVersion f) with
  | none =>
      have hnone := List.find?_eq_none.mp hfind
      have hany : listed.any (isListedName oldVersion newVersion f) = false := by
        simpa using hnone
      exact Or.inl ⟨rfl, fun hmem => hnone f hmem hself, by rw [recordName, hany]; rfl⟩
  | some m =>
      have hany : listed.any (isListedName oldVersion newVersion f) = true := by
        rw [List.any_eq_true]
        exact ⟨m, List.mem_of_find?_eq_some hfind, List.find?_some hfind⟩
      obtain ⟨hm, P, Q, hsplit, hP⟩ := List.find?_eq_some_iff_append.mp hfind
      have hrename : ∀ P : List Str, (∀ a ∈ P, (!isListedName oldVersion newVersion f a) = true) →
          renameFirst (isListedName oldVersion newVersion f) f (P ++ m :: Q) = P ++ f :: Q := by
        intro P hP
        induction P with
        | nil => rw [List.nil_append, renameFirst, if_pos hm]; rfl
        | cons a P ih =>
            obtain ⟨ha, hP⟩ := List.forall_mem_cons.mp hP
            rw [List.cons_append, renameFirst, if_neg (by simpa using ha), ih hP]
            rfl
      refine Or.inr ⟨P, m, Q, hsplit, rfl, ?_, isListedName_iff.mp hm, ?_⟩
      · intro hmem
        exact absurd (hP f hmem) (by simp [hself])
      · rw [recordName, hany, if_pos rfl, hsplit, hrename P hP]

/-- Recording a file repeats no name unless it takes over another's entry. -/
theorem nodup_recordName_iff (h : listed.Nodup) :
    (recordName oldVersion newVersion f listed).Nodup ↔ ¬ TakesOver oldVersion newVersion f listed := by
  rcases @recordName_cases oldVersion newVersion f listed with
    ⟨hnone, hf, hrecord⟩ | ⟨P, m, Q, hsplit, hfind, hP, hm, hrecord⟩
  · rw [hrecord]
    refine iff_of_true ?_ ?_
    · exact List.nodup_append'.mpr ⟨h, List.nodup_singleton f, by simpa using hf⟩
    · rintro ⟨hfind, -⟩
      exact absurd (hnone.symm.trans hfind) (by simp)
  · have hrest : m ∉ P ++ Q ∧ (P ++ Q).Nodup := by rwa [hsplit, List.nodup_middle, List.nodup_cons] at h
    rw [hrecord, List.nodup_middle, List.nodup_cons, TakesOver, hfind]
    constructor
    · rintro ⟨hf, -⟩ ⟨hold, hne, hmem⟩
      obtain rfl := Option.some.inj hold
      rw [hsplit, List.mem_append, List.mem_cons] at hmem
      rcases hmem with hmem | hmem | hmem
      · exact hf (List.mem_append_left _ hmem)
      · exact hne hmem.symm
      · exact hf (List.mem_append_right _ hmem)
    · intro hno
      refine ⟨fun hmem => ?_, hrest.2⟩
      by_cases hmf : m = f
      · exact hrest.1 (hmf ▸ hmem)
      · obtain rfl := hm.resolve_left hmf
        refine hno ⟨rfl, hmf, ?_⟩
        rw [hsplit]
        rcases List.mem_append.mp hmem with hmem | hmem
        · exact List.mem_append_left _ hmem
        · exact List.mem_append_right _ (List.mem_cons_of_mem _ hmem)

/-- A listed file that takes over another's entry is listed twice afterwards. -/
theorem TakesOver.count (h : TakesOver oldVersion newVersion f listed) :
    1 < (recordName oldVersion newVersion f listed).count f := by
  obtain ⟨hfound, hne, hmem⟩ := h
  rcases @recordName_cases oldVersion newVersion f listed with
    ⟨hnone, -, -⟩ | ⟨P, m, Q, hsplit, hfind, hP, -, hrecord⟩
  · exact absurd (hnone.symm.trans hfound) (by simp)
  · obtain rfl := Option.some.inj (hfind.symm.trans hfound)
    rw [hsplit, List.mem_append, List.mem_cons] at hmem
    have hQ : 0 < Q.count f := by
      rw [List.count_pos_iff]
      rcases hmem with hmem | hmem | hmem
      · exact absurd hmem hP
      · exact absurd hmem.symm hne
      · exact hmem
    rw [hrecord, List.count_append, List.count_cons_self]
    omega

/-- Recording another file takes no entry away from a name that is not its old one. -/
theorem count_le_recordName (h : replace newVersion oldVersion g = f → g = f) :
    listed.count f ≤ (recordName oldVersion newVersion g listed).count f := by
  rcases @recordName_cases oldVersion newVersion g listed with
    ⟨-, -, hrecord⟩ | ⟨P, m, Q, hsplit, -, -, hm, hrecord⟩
  · rw [hrecord, List.count_append]
    omega
  · rw [hrecord, hsplit, List.count_append, List.count_append]
    by_cases hmf : m = f
    · have hgf : g = f := by
        rcases hm with rfl | rfl
        · exact hmf
        · exact h hmf
      rw [hmf, hgf]
    · rw [List.count_cons_of_ne hmf]
      have hle : Q.count f ≤ (g :: Q).count f := List.count_le_count_cons
      omega

/-- Names that differ differ after a run of the loop in which no file takes over another's entry. -/
theorem nodup_of_hookUnique (h : listed.Nodup) (hunique : HookUnique oldVersion newVersion filenames listed) :
    (filenames.foldl (fun ns f => recordName oldVersion newVersion f ns) listed).Nodup := by
  induction filenames generalizing listed with
  | nil => exact h
  | cons f filenames ih =>
      obtain ⟨hno, hrest⟩ := hunique
      exact ih ((nodup_recordName_iff h).mpr hno) hrest

theorem count_le_foldl (h : ∀ g ∈ filenames, replace newVersion oldVersion g = f → g = f) :
    listed.count f ≤ (filenames.foldl (fun ns f => recordName oldVersion newVersion f ns) listed).count f := by
  induction filenames generalizing listed with
  | nil => exact le_rfl
  | cons g filenames ih =>
      obtain ⟨hg, hrest⟩ := List.forall_mem_cons.mp h
      exact (count_le_recordName hg).trans (ih hrest)

/-- And a name that is taken over stays repeated, when no listed file has another's name for its old
one. -/
theorem hookUnique_of_nodup (h : listed.Nodup)
    (hchain : ∀ f ∈ filenames, ∀ g ∈ filenames, replace newVersion oldVersion g = f → g = f)
    (hfinal : (filenames.foldl (fun ns f => recordName oldVersion newVersion f ns) listed).Nodup) :
    HookUnique oldVersion newVersion filenames listed := by
  induction filenames generalizing listed with
  | nil => trivial
  | cons f filenames ih =>
      have hno : ¬ TakesOver oldVersion newVersion f listed := by
        intro htakes
        have hle := @count_le_foldl oldVersion newVersion f filenames (recordName oldVersion newVersion f listed)
          fun g hg => hchain f List.mem_cons_self g (List.mem_cons_of_mem f hg)
        have hone := List.nodup_iff_count_le_one.mp hfinal f
        have htwo := htakes.count
        rw [List.foldl_cons] at hone
        omega
      refine ⟨hno, ih ((nodup_recordName_iff h).mpr hno) ?_ hfinal⟩
      intro f' hf' g hg
      exact hchain f' (List.mem_cons_of_mem f hf') g (List.mem_cons_of_mem f hg)

theorem fileNames_recorded {env : Env} {dir : Tree} :
    fileNames (recorded env dir oldVersion newVersion filenames entries) =
      filenames.foldl (fun ns f => recordName oldVersion newVersion f ns) (fileNames entries) := by
  induction filenames generalizing entries with
  | nil => rfl
  | cons f filenames ih =>
      rw [recorded, List.foldl_cons, List.foldl_cons, ← fileNames_recordHookFile]
      exact ih

theorem replaceFirst_of_none {p : SourceEntry → Bool} {k : SourceEntry → SourceEntry} {es : List SourceEntry}
    (h : es.find? p = none) : replaceFirst p k es = es := by
  induction es with
  | nil => rfl
  | cons a es ih =>
      have ha : ¬ p a = true := List.find?_eq_none.mp h a List.mem_cons_self
      rw [List.find?_cons_of_neg ha] at h
      rw [replaceFirst, if_neg ha, ih h]

theorem mem_replaceFirst {p : SourceEntry → Bool} {k : SourceEntry → SourceEntry} {es : List SourceEntry}
    {e : SourceEntry} (h : e ∈ replaceFirst p k es) : e ∈ es ∨ ∃ a, es.find? p = some a ∧ e = k a := by
  cases hfind : es.find? p with
  | none =>
      rw [replaceFirst_of_none hfind] at h
      exact Or.inl h
  | some v =>
      obtain ⟨pre, post, rfl, -, -, hreplace⟩ := replaceFirst_split hfind
      rw [hreplace] at h
      rcases List.mem_cons.mp (List.perm_middle.mem_iff.mp h) with rfl | h
      · exact Or.inr ⟨v, rfl, rfl⟩
      · exact Or.inl (List.perm_middle.mem_iff.mpr (List.mem_cons_of_mem v h))

/-- An entry after a file has been recorded is an old one, or the file's with the algorithm of the entry
taken over, or of a new one. -/
theorem mem_recordHookFile {hash : Str} {e : SourceEntry}
    (h : e ∈ recordHookFile oldVersion newVersion f hash entries) :
    e ∈ entries ∨ e = ⟨"SHA512", f, hash⟩ ∨
      ∃ a, entries.find? (fun e => isListedName oldVersion newVersion f e.filename) = some a ∧
        e = ⟨a.algo, f, hash⟩ := by
  unfold recordHookFile at h
  dsimp only at h
  split at h
  · rcases mem_replaceFirst h with h | ⟨a, ha, rfl⟩
    · exact Or.inl h
    · exact Or.inr (Or.inr ⟨a, ha, rfl⟩)
  · rcases List.mem_append.mp h with h | h
    · exact Or.inl h
    · exact Or.inr (Or.inl (List.mem_singleton.mp h))

/-- What a hook lists are names on one line. -/
theorem listedFiles_spec {stdout : Str} : ∀ f ∈ listedFiles stdout, f ≠ [] ∧ Unbroken f := by
  intro f hf
  obtain ⟨hf, hne⟩ := List.mem_filter.mp hf
  obtain ⟨line, hline, rfl⟩ := List.mem_map.mp hf
  refine ⟨by simpa using hne, fun c hc => isLineBreak_of_mem_splitlines hline c ?_⟩
  exact List.dropWhile_subset _ (List.rdropWhile_prefix _ _ |>.subset hc)

variable [UnicodeTables]

/-- The entries after the loop are well formed. -/
theorem wellFormed_recorded {env : Env} {dir : Tree} (ht : SourceTools env)
    (hfiles : ∀ f ∈ filenames, f ≠ [] ∧ Unbroken f)
    (hdigests : ∀ f ∈ filenames, ∃ content,
      env.fileHash (lowerAscii "SHA512") content = .ok (listedDigest env dir f))
    (hold : ∀ e ∈ entries, e.WellFormed) :
    ∀ e ∈ recorded env dir oldVersion newVersion filenames entries, e.WellFormed := by
  induction filenames generalizing entries with
  | nil => exact hold
  | cons f filenames ih =>
      obtain ⟨⟨hne, hunbroken⟩, hfiles⟩ := List.forall_mem_cons.mp hfiles
      obtain ⟨⟨content, hdigest⟩, hdigests⟩ := List.forall_mem_cons.mp hdigests
      refine ih hfiles hdigests ?_
      have hword := ht.hex _ _ _ hdigest
      intro e he
      rcases mem_recordHookFile he with he | rfl | ⟨a, ha, rfl⟩
      · exact hold e he
      · exact ⟨word_sha512, hne, hunbroken, hword⟩
      · exact ⟨(hold a (List.mem_of_find?_eq_some ha)).algo, hne, hunbroken, hword⟩

/-- A hook leaves a `sources` file without repeated names when no listed file takes over another's entry,
and, where no listed file has another's name for its old one, only then. -/
theorem HookDone.unique_iff {env : Env} {package : Str} {dir : Tree} {w w₁ w' : World} (ht : SourceTools env)
    (h : HookDone env package oldVersion newVersion dir filenames entries w w₁ w')
    (hfiles : ∀ f ∈ filenames, f ≠ [] ∧ Unbroken f)
    (hparse : parseSourcesFile dir sourcesName = .ok entries) (hnodup : (fileNames entries).Nodup) :
    (HookUnique oldVersion newVersion filenames (fileNames entries) → UniqueNames (w'.packageDir package)) ∧
      ((∀ f ∈ filenames, ∀ g ∈ filenames, replace newVersion oldVersion g = f → g = f) →
        UniqueNames (w'.packageDir package) → HookUnique oldVersion newVersion filenames (fileNames entries)) := by
  rcases h.written with ⟨rfl, rfl⟩ | ⟨hdir, -⟩
  · rw [h.uploaded.dir, packageDir_setRpms, uniqueNames_iff hparse]
    exact ⟨fun _ => hnodup, fun _ _ => trivial⟩
  · have hdigests : ∀ f ∈ filenames, ∃ content,
        env.fileHash (lowerAscii "SHA512") content = .ok (listedDigest env dir f) := by
      intro f hf
      obtain ⟨content, -, hdigest⟩ := h.uploaded.files f hf
      rw [packageDir_setRpms] at hdigest
      exact ⟨content, hdigest⟩
    have hwf : ∀ e ∈ recorded env dir oldVersion newVersion filenames entries, e.WellFormed :=
      wellFormed_recorded ht hfiles hdigests (wellFormed_of_parseSourcesFile hparse)
    rw [hdir, uniqueNames_iff parseSourcesFile_render, readEntries_of_wellFormed hwf, fileNames_recorded]
    exact ⟨nodup_of_hookUnique hnodup, hookUnique_of_nodup hnodup⟩

end

/-! ## The four ways -/

section

variable [UnicodeTables] {env : Env} {package oldVersion newVersion : Str}

/-- A gorget run leaves a `sources` file without repeated names exactly when gorget emitted one. -/
theorem Refreshed.unique_iff {pipelineFile : File} {out : List Str} {outputDir : Tree}
    {newEntries oldEntries : List SourceEntry} {w w' : World}
    (h : Refreshed env package oldVersion newVersion pipelineFile out w w' outputDir newEntries oldEntries) :
    UniqueNames (w'.packageDir package) ↔ UniqueNames outputDir := by
  have hparsed := (gorgetOutput_ok_iff.mp h.output).parsed
  rw [uniqueNames_iff hparsed, h.dir, refreshed, uniqueNames_iff parseSourcesFile_render,
    readEntries_of_wellFormed (wellFormed_of_parseSourcesFile hparsed)]

/-- A run of `download_new_sources` that starts from different names. -/
theorem downloadNewSources_unique_iff {w w' : World} {out : List Str} (ht : SourceTools env)
    (hversion : Unbroken newVersion) (hunique : UniqueNames (w.packageDir package))
    (hrun : downloadNewSources env package oldVersion newVersion w = .ok out w') :
    UniqueNames (w'.packageDir package) ↔
      ∀ spec entries specSources, (w.packageDir package).glob ".spec" = [spec] →
        parseSourcesFile (w.packageDir package) sourcesName = .ok entries →
        env.specSources (w.packageDir package) spec = .ok specSources →
        (entries ≠ [] ∧ specSourceUrls specSources = []) ∨
          FetchUnique oldVersion newVersion
            (vendorDir env (w.packageDir package) entries (specSourceUrls specSources)) (fileNames entries)
            (specSourceUrls specSources) := by
  by_cases hglob : ∃ spec, (w.packageDir package).glob ".spec" = [spec]
  · obtain ⟨spec, hglob⟩ := hglob
    obtain ⟨entries, specSources, hparse, hsources, hcases⟩ := downloadNewSources_ok hglob hrun
    have hstate : ∀ P : List SourceEntry → List (Nat × Str) → Prop,
        (∀ spec' es ss, (w.packageDir package).glob ".spec" = [spec'] →
          parseSourcesFile (w.packageDir package) sourcesName = .ok es →
          env.specSources (w.packageDir package) spec' = .ok ss → P es ss) ↔ P entries specSources := by
      intro P
      constructor
      · intro h
        exact h spec entries specSources hglob hparse hsources
      · intro h spec' es ss hglob' hparse' hsources'
        obtain ⟨rfl, -⟩ := List.cons.inj (hglob.symm.trans hglob')
        obtain rfl := Except.ok.inj (hparse.symm.trans hparse')
        obtain rfl := Except.ok.inj (hsources.symm.trans hsources')
        exact h
    rw [hstate fun es ss => (es ≠ [] ∧ specSourceUrls ss = []) ∨ FetchUnique oldVersion newVersion
      (vendorDir env (w.packageDir package) es (specSourceUrls ss)) (fileNames es) (specSourceUrls ss)]
    rcases hcases with ⟨hwhen, entries', vendorFile, w₁, w₂, hfetched⟩ | ⟨hlisted, hnourls, rfl⟩
    · have hurls : ∀ u ∈ specSourceUrls specSources, Unbroken u.2 := fun u hu =>
        ht.oneLine _ _ _ hsources u (List.mem_filter.mp hu).1
      rw [hfetched.unique_iff ht hparse (hunique entries hparse) hurls hversion]
      constructor
      · exact Or.inr
      · rintro (⟨hlisted, hnourls⟩ | h)
        · exact absurd hwhen (by simp [hlisted, hnourls])
        · exact h
    · exact iff_of_true hunique (Or.inl ⟨hlisted, hnourls⟩)
  · obtain rfl := downloadNewSources_of_no_spec hglob hrun
    exact iff_of_true hunique fun spec _ _ hspec => absurd ⟨spec, hspec⟩ hglob

/-- **`uniqueSources_iff`** — when each of the four ways to update `sources`, from a file without repeated
names, leaves one. -/
theorem uniqueSources_iff (ht : SourceTools env) :
    (∀ pipelineFile out outputDir newEntries w w',
      gorgetOutput env w package oldVersion newVersion pipelineFile = .ok (outputDir, newEntries) →
      runGorgetPipeline env package oldVersion newVersion pipelineFile w = .ok out w' →
      (UniqueNames (w'.packageDir package) ↔ UniqueNames outputDir)) ∧
    (∀ out w w', Unbroken newVersion → UniqueNames (w.packageDir package) →
      downloadNewSources env package oldVersion newVersion w = .ok out w' →
      (UniqueNames (w'.packageDir package) ↔
        ∀ spec entries specSources, (w.packageDir package).glob ".spec" = [spec] →
          parseSourcesFile (w.packageDir package) sourcesName = .ok entries →
          env.specSources (w.packageDir package) spec = .ok specSources →
          (entries ≠ [] ∧ specSourceUrls specSources = []) ∨
            FetchUnique oldVersion newVersion
              (vendorDir env (w.packageDir package) entries (specSourceUrls specSources)) (fileNames entries)
              (specSourceUrls specSources))) ∧
    (∀ entries entries' vendorFile w w', (fileNames entries).Nodup →
      regenerateVendorArchive env package oldVersion newVersion entries w = .ok (vendorFile, entries') w' →
      ((fileNames entries').Nodup ↔
        ¬ VendorClash oldVersion newVersion (w.packageDir package) (fileNames entries))) ∧
    ∀ command stdout stderr entries out w w',
      (hookRun env command package oldVersion newVersion (w.packageDir package)).proc =
        .exited 0 stdout stderr →
      parseSourcesFile (hookRun env command package oldVersion newVersion (w.packageDir package)).dir
        sourcesName = .ok entries →
      (fileNames entries).Nodup →
      downloadSourcesHook env command package oldVersion newVersion w = .ok out w' →
      (HookUnique oldVersion newVersion (listedFiles stdout) (fileNames entries) →
          UniqueNames (w'.packageDir package)) ∧
        ((∀ f ∈ listedFiles stdout, ∀ g ∈ listedFiles stdout, replace newVersion oldVersion g = f → g = f) →
          UniqueNames (w'.packageDir package) →
          HookUnique oldVersion newVersion (listedFiles stdout) (fileNames entries)) := by
  refine ⟨?_, ?_, ?_, ?_⟩
  · intro pipelineFile out outputDir newEntries w w' hout hrun
    obtain ⟨outputDir', newEntries', oldEntries, hdone⟩ := runGorgetPipeline_ok hrun
    obtain ⟨rfl, rfl⟩ := Prod.mk.inj (Except.ok.inj (hout.symm.trans hdone.output))
    exact hdone.unique_iff
  · intro out w w' hversion hunique hrun
    exact downloadNewSources_unique_iff ht hversion hunique hrun
  · intro entries entries' vendorFile w w' hnodup hrun
    exact (regenerateVendorArchive_ok hrun).nodup_iff hnodup
  · intro command stdout stderr entries out w w' hproc hparse hnodup hrun
    obtain ⟨stdout', stderr', entries', w₁, hproc', hparse', hdone⟩ := downloadSourcesHook_ok hrun
    obtain ⟨-, rfl, -⟩ := Proc.exited.inj (hproc.symm.trans hproc')
    obtain rfl := Except.ok.inj (hparse.symm.trans hparse')
    exact hdone.unique_iff ht listedFiles_spec hparse hnodup

end

/-! ## Two sources of one name -/

/-- Two remote sources with one last path component. -/
def twoUrls : List (Nat × Str) := [(0, "https://host/a/src.tar.gz"), (1, "https://host/b/src.tar.gz")]

theorem unbroken_twoUrls : ∀ s ∈ twoUrls, Unbroken s.2 := by
  have h : ∀ s ∈ twoUrls, ∀ c ∈ s.2, isLineBreak c = false := by decide
  exact h

theorem uniqueNames_mixedWorld :
    letI := asciiTables
    UniqueNames (mixedWorld.packageDir "pkg") := by
  let _ := asciiTables
  rw [uniqueNames_iff parse_mixedWorld]
  decide

/-- With remote sources of different names, `sources` has different names afterwards. -/
theorem uniqueSources_remote :
    letI := asciiTables
    ∃ out w', downloadNewSources (mixedEnv remoteSources) "pkg" "1.0" "2.0" mixedWorld = .ok out w' ∧
      UniqueNames (w'.packageDir "pkg") := by
  let _ := asciiTables
  have hreturns : returns (downloadNewSources (mixedEnv remoteSources) "pkg" "1.0" "2.0") mixedWorld
      (fun _ _ => true) = true := by decide +kernel
  obtain ⟨out, w', hrun, -⟩ := returns_iff.mp hreturns
  have hversion : ∀ c ∈ "2.0".toList, isLineBreak c = false := by decide
  refine ⟨out, w', hrun, ?_⟩
  refine ((uniqueSources_iff (mixedEnv_tools _ unbroken_remoteSources)).2.1 out mixedWorld w' hversion
    uniqueNames_mixedWorld hrun).mpr ?_
  intro spec entries specSources hglob hparse hsources
  obtain rfl := Except.ok.inj (parse_mixedWorld.symm.trans hparse)
  obtain rfl := Except.ok.inj hsources
  have hnone : renewedName (vendorDir (mixedEnv remoteSources) (mixedWorld.packageDir "pkg") mixedEntries
      (specSourceUrls remoteSources))
      (fileNames mixedEntries ++ missingNames (fileNames mixedEntries) (specSourceUrls remoteSources)) = none := by
    decide +kernel
  refine Or.inr ⟨fun _ => by decide +kernel, ?_, ?_⟩
  · intro v hv
    exact absurd (hnone.symm.trans hv) (by simp)
  · intro v hv
    exact absurd (hnone.symm.trans hv) (by simp)

/-- **`twoUrls_oneName`** — two URLs with one basename give `sources` that name twice. -/
theorem twoUrls_oneName :
    letI := asciiTables
    SourceTools (mixedEnv twoUrls) ∧ UniqueNames (mixedWorld.packageDir "pkg") ∧
      ∃ out w', downloadNewSources (mixedEnv twoUrls) "pkg" "1.0" "2.0" mixedWorld = .ok out w' ∧
        ¬ UniqueNames (w'.packageDir "pkg") := by
  let _ := asciiTables
  refine ⟨mixedEnv_tools _ unbroken_twoUrls, uniqueNames_mixedWorld, ?_⟩
  have hreturns : returns (downloadNewSources (mixedEnv twoUrls) "pkg" "1.0" "2.0") mixedWorld
      (fun _ w' => (parseSourcesFile (w'.packageDir "pkg") sourcesName).toOption.map fileNames =
        some ["src.tar.gz".toList, "src.tar.gz".toList]) = true := by decide +kernel
  obtain ⟨out, w', hrun, hnames⟩ := returns_iff.mp hreturns
  refine ⟨out, w', hrun, fun hunique => ?_⟩
  cases hparse : parseSourcesFile (w'.packageDir "pkg") sourcesName with
  | error exn => rw [hparse] at hnames; exact absurd hnames (by simp [Except.toOption])
  | ok es =>
      rw [hparse] at hnames
      have hes : fileNames es = ["src.tar.gz".toList, "src.tar.gz".toList] := by
        simpa [Except.toOption] using hnames
      have hnodup := hunique es hparse
      rw [hes] at hnodup
      exact absurd hnodup (by decide)

end HummingbirdRpms
