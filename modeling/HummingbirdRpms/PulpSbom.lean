/-
# HummingbirdRpms.PulpSbom — which SBOM of a package the CVE helper examines.

`fetch_sbom` (`.cursor/skills/cve/lib/sbom.py`) takes the SBOM that is attached to the ticket, or else the
latest one that Pulp publishes for the package.  It derives Pulp's directory from the name of the package,
which `ci/generate_resources.py` does in another way, and takes the file of the directory whose name, the
hash of its content, sorts last.

**`examines_newest_iff`** — for a package and the listing of a directory, every fetch from Pulp examines
the newest SBOM of the package's component exactly if the listing names no SBOM at all, or the name of the
package has no underscore, no plus sign and no capital letter and the name of a newest SBOM sorts last.
-/
import HummingbirdRpms.Components
import HummingbirdRpms.History
import HummingbirdRpms.Lib.RegexSplit

namespace HummingbirdRpms

open Lib Lib.Text Lib.Regex
open Resources (sanitizeComponentName sanitizeComponentName_eq foldChar)

/-! ## Fetching -/

/-- `PULP_SBOM_BASE` -/
def pulpSbomBase : Str :=
  "https://packages.redhat.com/api/pulp-content/public-hummingbird/metadata/sboms".toList

/-- `SBOM_FILE_RE` -/
def sbomFileRe : Re := Re.seq [.lit "sha256-", Re.some1 isHex, .lit ".sbom"]

/-- `SBOM_FILE_RE.findall` -/
def sbomFiles (text : Str) : List Str := (finditer sbomFileRe text).map fun m => m.whole text

/-- `pulp_sbom_package_dir` -/
def pulpSbomPackageDir (package : Str) : Str := replace "." "-" package ++ "-main".toList

/-- The directory of Pulp that is listed for a package. -/
def pulpDirectory (package : Str) : Str := pulpSbomBase ++ '/' :: (pulpSbomPackageDir package ++ ['/'])

/-- What the helper asks: the pages and files of Pulp, the attachments of a ticket by their names, and the
home directory. -/
structure SbomServices where
  httpGetText : Str → Except Exn Str
  httpDownload : Str → Except Exn (List UInt8)
  attachment : (ticket name : Str) → Option (List UInt8)
  expanduser : Str → Str

/-- `latest_pulp_sbom_filename` -/
def latestPulpSbomFilename (s : SbomServices) (package : Str) : Except Exn (Str × Str) := do
  let directory := pulpDirectory package
  let listing ← s.httpGetText directory
  match ((sbomFiles listing).dedup.insertionSort (· ≤ ·)).getLast? with
  | none => throw (.raised .runtimeError ("No SBOM files found under ".toList ++ directory))
  | some filename => return (directory, filename)

/-- `s.upper()` on ASCII text. -/
def upperAscii (s : Str) : Str := s.map fun c => if isAsciiLower c then Char.ofNat (c.toNat - 32) else c

/-- What `fetch_sbom` reports. -/
structure FetchedSbom where
  package : Str
  nvr : Str
  ticket : Str
  source : Str
  url : Str
  path : Str
  bytes : Nat

section

variable [UnicodeTables]

/-- `normalize_hum_key` -/
def normalizeHumKey (value : Str) : Except Exn Str :=
  let trimmed := upperAscii (strip value)
  if startsWith "HUM-" trimmed then .ok trimmed
  else if trimmed ≠ [] ∧ ∀ c ∈ trimmed, isDigit c = true then .ok ("HUM-".toList ++ trimmed)
  else .error (.raised .valueError ("Invalid ticket key: ".toList ++ value))

/-- The URL and the content of the SBOM attached to the ticket, if it can be had. -/
def jiraSbom (s : SbomServices) (ticket nvr : Str) : Except Exn (Option (Str × List UInt8)) :=
  if ticket = [] ∨ nvr = [] then .ok none
  else (normalizeHumKey ticket).map fun key =>
    (s.attachment key (nvr ++ ".sbom.json".toList)).map fun content =>
      ("jira:".toList ++ key ++ '/' :: (nvr ++ ".sbom.json".toList), content)

/-- The URL and the content of the SBOM that Pulp has. -/
def pulpSbom (s : SbomServices) (package : Str) : Except Exn (Str × List UInt8) := do
  let (directory, filename) ← latestPulpSbomFilename s package
  let content ← s.httpDownload (directory ++ filename)
  return (directory ++ filename, content)

/-- `fetch_sbom` -/
def fetchSbom (s : SbomServices) (package nvr ticket : Str) (dest : Option Str) :
    Except Exn FetchedSbom := do
  let out := s.expanduser (dest.getD ("/tmp/".toList ++ package ++ ".sbom.json".toList))
  let fetched source (sbom : Str × List UInt8) : FetchedSbom :=
    { package, nvr, ticket, source, url := sbom.1, path := out, bytes := sbom.2.length }
  match ← jiraSbom s ticket nvr with
  | some sbom => return fetched "jira".toList sbom
  | none => (pulpSbom s package).map (fetched "pulp".toList)

end

/-! ## What it should examine -/

/-- A file in a directory of Pulp, and when it was published. -/
structure Published where
  name : Str
  time : Nat

/-- The name of an SBOM. -/
def IsSbomName (name : Str) : Prop :=
  ∃ hash, WordOver isHex hash ∧ name = "sha256-".toList ++ hash ++ ".sbom".toList

/-- The page lists the files: the pattern finds in it what it finds in their names. -/
def Lists (listing : Str) (files : List Published) : Prop :=
  ∀ name, name ∈ sbomFiles listing ↔ ∃ f ∈ files, name ∈ sbomFiles f.name

/-- An SBOM of the directory such that none was published later. -/
def Newest (files : List Published) (f : Published) : Prop :=
  f ∈ files ∧ IsSbomName f.name ∧ ∀ g ∈ files, IsSbomName g.name → g.time ≤ f.time

/-- The URL is that of a newest SBOM in the directory of the package's component. -/
def ExaminesNewest (package : Str) (files : List Published) (url : Str) : Prop :=
  ∃ f, Newest files f ∧
    url = pulpSbomBase ++ '/' :: (sanitizeComponentName package ++ "-main".toList ++ ['/']) ++ f.name

/-- Neither an underscore nor a plus sign nor a capital letter. -/
def PlainName (package : Str) : Prop := ∀ c ∈ package, c ≠ '_' ∧ c ≠ '+' ∧ isAsciiUpper c = false

/-- The name of a newest SBOM sorts behind everything that the pattern finds. -/
def NewestSortsLast (files : List Published) : Prop :=
  ∃ f, Newest files f ∧ ∀ g ∈ files, ∀ name ∈ sbomFiles g.name, name ≤ f.name

variable {s : SbomServices} {package nvr ticket listing : Str} {files : List Published}

/-! ## The directory -/

theorem pulpSbomPackageDir_eq (package : Str) :
    pulpSbomPackageDir package = (package.map fun c => if c = '.' then '-' else c) ++ "-main".toList := by
  rw [pulpSbomPackageDir, show replace "." "-" package = _ from replace_single (a := '.') (b := '-')]

/-- A capital letter is not its own lower case. -/
theorem lowerChar_eq_self_iff (c : Char) : lowerChar c = c ↔ isAsciiUpper c = false := by
  rw [lowerChar]
  split
  · rename_i hupper
    have hrange : 65 ≤ c.toNat ∧ c.toNat ≤ 90 := by simpa [isAsciiUpper] using hupper
    have hval : (Char.ofNat (c.toNat + 32)).toNat = c.toNat + 32 := toNat_ofNat (Or.inl (by omega))
    constructor
    · intro h
      have := congrArg Char.toNat h
      omega
    · intro h
      rw [h] at hupper
      cases hupper
  · rename_i hupper
    simpa using hupper

/-- The two derivations of a directory agree exactly on plain names. -/
theorem pulpSbomPackageDir_eq_iff :
    pulpSbomPackageDir package = sanitizeComponentName package ++ "-main".toList ↔ PlainName package := by
  rw [pulpSbomPackageDir_eq, sanitizeComponentName_eq, List.append_cancel_right_eq, List.map_inj_left]
  refine forall₂_congr fun c _ => ?_
  rw [foldChar]
  by_cases hdot : c = '.'
  · subst hdot
    decide
  by_cases hunder : c = '_'
  · subst hunder
    decide
  by_cases hplus : c = '+'
  · subst hplus
    decide
  simp only [hdot, hunder, hplus, if_false, or_self, not_false_eq_true, true_and, ne_eq]
  rw [eq_comm]
  exact lowerChar_eq_self_iff c

theorem length_pulpSbomPackageDir :
    (pulpSbomPackageDir package).length = (sanitizeComponentName package ++ "-main".toList).length := by
  rw [pulpSbomPackageDir_eq, sanitizeComponentName_eq, List.length_append, List.length_append, List.length_map,
    List.length_map]

/-- A URL that was put together is in the component's directory exactly if the name is plain. -/
theorem url_eq_iff {filename name : Str} :
    pulpDirectory package ++ filename =
        pulpSbomBase ++ '/' :: (sanitizeComponentName package ++ "-main".toList ++ ['/']) ++ name ↔
      PlainName package ∧ filename = name := by
  rw [pulpDirectory, List.append_assoc, List.append_assoc, List.append_cancel_left_eq, List.cons_append,
    List.cons_append, List.cons.injEq, and_iff_right rfl, ← pulpSbomPackageDir_eq_iff]
  constructor
  · intro h
    have hlen : (pulpSbomPackageDir package ++ ['/']).length =
        (sanitizeComponentName package ++ "-main".toList ++ ['/']).length := by
      rw [List.length_append, List.length_append, length_pulpSbomPackageDir]
    obtain ⟨hdir, hname⟩ := List.append_inj h hlen
    exact ⟨List.append_cancel_right hdir, hname⟩
  · rintro ⟨hdir, rfl⟩
    rw [hdir]

/-! ## The file -/

/-- The last of the sorted names is the greatest. -/
theorem getLast?_sorted_iff {l : List Str} {x : Str} :
    (l.insertionSort (· ≤ ·)).getLast? = some x ↔ x ∈ l ∧ ∀ y ∈ l, y ≤ x := by
  have hgreatest : ∀ {z}, (l.insertionSort (· ≤ ·)).getLast? = some z → z ∈ l ∧ ∀ y ∈ l, y ≤ z := by
    intro z hz
    obtain ⟨front, hfront⟩ := List.getLast?_eq_some_iff.mp hz
    have hmem : ∀ y, y ∈ l ↔ y ∈ front ++ [z] := by
      intro y
      rw [← hfront, List.mem_insertionSort]
    have hsorted := List.pairwise_insertionSort (· ≤ ·) l
    rw [hfront, List.pairwise_append] at hsorted
    refine ⟨(hmem z).mpr (by simp), fun y hy => ?_⟩
    rcases List.mem_append.mp ((hmem y).mp hy) with hy | hy
    · exact hsorted.2.2 y hy z List.mem_cons_self
    · exact le_of_eq (List.mem_singleton.mp hy)
  constructor
  · exact hgreatest
  · rintro ⟨hx, hmax⟩
    have hne : l.insertionSort (· ≤ ·) ≠ [] := List.ne_nil_of_mem ((List.mem_insertionSort _).mpr hx)
    obtain ⟨z, hz⟩ := Option.isSome_iff_exists.mp (List.getLast?_isSome.mpr hne)
    obtain ⟨hzl, hzmax⟩ := hgreatest hz
    rw [hz, le_antisymm (hmax z hzl) (hzmax x hx)]

/-- The pattern finds the name of an SBOM in it. -/
theorem mem_sbomFiles_self {name : Str} (h : IsSbomName name) : name ∈ sbomFiles name := by
  obtain ⟨hash, ⟨hne, hhex⟩, hname⟩ := h
  have hstart : name.drop 0 = "sha256-".toList ++ (hash ++ ".sbom".toList) := by
    rw [List.drop_zero, hname, List.append_assoc]
  have hdrop : name.drop (0 + "sha256-".toList.length) = hash ++ ".sbom".toList := drop_add_length hstart
  have hend : name.drop (0 + "sha256-".toList.length + hash.length) = ".sbom".toList ++ [] := by
    rw [drop_add_length hdrop, List.append_nil]
  have hlongest : Longest name (Re.some1 isHex) ⟨0 + "sha256-".toList.length, []⟩ hash.length :=
    longest_some1 hdrop hne hhex (by decide)
  have hrun : run name sbomFileRe ⟨0, []⟩ = [⟨name.length, []⟩] := by
    rw [sbomFileRe, Re.seq, run_cat, run_lit_of_drop hstart, List.flatMap_singleton, Re.seq, hlongest.run_cat]
    · rw [Re.seq, run_lit_of_drop hend]
      simp only [hname, List.length_append, Nat.zero_add]
    · -- the ending does not begin inside the hash
      intro k _ hk
      apply run_lit_nil
      intro hprefix
      have hchar := inClass_of_drop hdrop hk hhex
      have hdot := getElem?_of_prefix_drop (i := 0) hprefix (by decide)
      rw [Nat.add_zero] at hdot
      rw [hdot] at hchar
      exact absurd hchar (by decide)
  obtain ⟨m, hm, hle, -⟩ := finditer_covers (r := sbomFileRe) (t := name) (Nat.zero_le _)
    (matchAt_isSome_iff.mpr (by rw [hrun]; exact List.cons_ne_nil _ _))
  have hmatch := matchAt_of_mem_finditer hm
  rw [Nat.le_zero.mp hle, matchAt_of_head? (by rw [hrun]; rfl)] at hmatch
  refine List.mem_map.mpr ⟨m, hm, ?_⟩
  cases hmatch
  rw [Match.whole, List.drop_zero, Nat.sub_zero, List.take_length]

theorem latestPulpSbomFilename_ok_iff {directory filename : Str}
    (hpage : s.httpGetText (pulpDirectory package) = .ok listing) :
    latestPulpSbomFilename s package = .ok (directory, filename) ↔
      directory = pulpDirectory package ∧ filename ∈ sbomFiles listing ∧
        ∀ name ∈ sbomFiles listing, name ≤ filename := by
  have hlast := getLast?_sorted_iff (l := (sbomFiles listing).dedup) (x := filename)
  simp only [List.mem_dedup] at hlast
  rw [← hlast]
  simp only [latestPulpSbomFilename, hpage, Exec.except_bind_ok]
  cases ((sbomFiles listing).dedup.insertionSort (· ≤ ·)).getLast? with
  | none =>
      constructor
      · intro h
        cases h
      · rintro ⟨-, h⟩
        cases h
  | some last =>
      constructor
      · intro h
        cases h
        exact ⟨rfl, rfl⟩
      · rintro ⟨rfl, h⟩
        cases h
        rfl

/-! ## The fetch -/

section

variable [UnicodeTables] {dest : Option Str} {r : FetchedSbom}

/-- A fetch from Pulp uses the directory and the file that were found. -/
theorem fetchSbom_pulp (h : fetchSbom s package nvr ticket dest = .ok r) (hpulp : r.source = "pulp".toList) :
    ∃ directory filename, latestPulpSbomFilename s package = .ok (directory, filename) ∧
      r.url = directory ++ filename := by
  unfold fetchSbom at h
  obtain ⟨attached, -, h⟩ := Exec.except_bind_ok_iff.mp h
  cases attached with
  | some sbom =>
      cases h
      exact absurd hpulp (show "jira".toList ≠ "pulp".toList by decide)
  | none =>
      cases hsbom : pulpSbom s package with
      | error e =>
          simp only [hsbom] at h
          cases h
      | ok sbom =>
          simp only [hsbom] at h
          cases h
          obtain ⟨⟨directory, filename⟩, hlatest, hrest⟩ := Exec.except_bind_ok_iff.mp hsbom
          obtain ⟨content, -, hrest⟩ := Exec.except_bind_ok_iff.mp hrest
          cases hrest
          exact ⟨directory, filename, hlatest, rfl⟩

/-- Without a ticket, and where all that is asked for is served, the fetch is from Pulp. -/
theorem fetchSbom_served {directory filename : Str} {content : List UInt8}
    (hlatest : latestPulpSbomFilename s package = .ok (directory, filename))
    (hcontent : s.httpDownload (directory ++ filename) = .ok content) :
    ∃ r, fetchSbom s package nvr [] dest = .ok r ∧ r.source = "pulp".toList ∧
      r.url = directory ++ filename := by
  have hsbom : pulpSbom s package = .ok (directory ++ filename, content) := by
    simp only [pulpSbom, hlatest, hcontent, Exec.except_bind_ok]
    rfl
  let fetched : FetchedSbom :=
    { package, nvr, ticket := [], source := "pulp".toList, url := directory ++ filename
      path := s.expanduser (dest.getD ("/tmp/".toList ++ package ++ ".sbom.json".toList))
      bytes := content.length }
  refine ⟨fetched, ?_, rfl, rfl⟩
  simp only [fetchSbom, jiraSbom, true_or, if_true, Exec.except_bind_ok, hsbom]
  rfl

/-- **`examines_newest_iff`** — every fetch of a package from Pulp examines the newest SBOM of its component
exactly if there is none to be found, or the name is plain and the name of a newest one sorts last. -/
theorem examines_newest_iff (p : PackageName) (hlist : Lists listing files) :
    (∀ s nvr ticket dest r, s.httpGetText (pulpDirectory p.name) = .ok listing →
        fetchSbom s p.name nvr ticket dest = .ok r → r.source = "pulp".toList →
          ExaminesNewest p.name files r.url) ↔
      (∀ f ∈ files, sbomFiles f.name = []) ∨ PlainName p.name ∧ NewestSortsLast files := by
  constructor
  · intro hexamines
    rcases List.eq_nil_or_concat (sbomFiles listing) with hnone | ⟨_, found, hfound⟩
    · left
      intro f hf
      apply List.eq_nil_iff_forall_not_mem.mpr
      intro name hname
      have hmem := (hlist name).mpr ⟨f, hf, hname⟩
      rw [hnone] at hmem
      cases hmem
    · right
      -- the services that serve this listing, and every file
      let s : SbomServices := ⟨fun _ => .ok listing, fun _ => .ok [], fun _ _ => none, id⟩
      have hne : (sbomFiles listing).dedup.insertionSort (· ≤ ·) ≠ [] := by
        apply List.ne_nil_of_mem (a := found)
        rw [List.mem_insertionSort, List.mem_dedup, hfound]
        simp
      obtain ⟨filename, hlast⟩ := Option.isSome_iff_exists.mp (List.getLast?_isSome.mpr hne)
      obtain ⟨hmem, hmax⟩ := getLast?_sorted_iff.mp hlast
      simp only [List.mem_dedup] at hmem hmax
      have hlatest : latestPulpSbomFilename s p.name = _ := (latestPulpSbomFilename_ok_iff rfl).mpr ⟨rfl, hmem, hmax⟩
      obtain ⟨r, hr, hsource, hurl⟩ : ∃ r, fetchSbom s p.name [] [] none = .ok r ∧ _ := fetchSbom_served hlatest rfl
      obtain ⟨f, hnewest, hf⟩ := hexamines s [] [] none r rfl hr hsource
      rw [hurl] at hf
      obtain ⟨hplain, rfl⟩ := url_eq_iff.mp hf
      refine ⟨hplain, f, hnewest, fun g hg name hname => ?_⟩
      exact hmax name ((hlist name).mpr ⟨g, hg, hname⟩)
  · rintro hcond s nvr ticket dest r hpage hfetch hpulp
    obtain ⟨directory, filename, hlatest, hurl⟩ := fetchSbom_pulp hfetch hpulp
    obtain ⟨rfl, hmem, hmax⟩ := (latestPulpSbomFilename_ok_iff hpage).mp hlatest
    rcases hcond with hnone | ⟨hplain, f, hnewest, hlast⟩
    · obtain ⟨g, hg, hname⟩ := (hlist filename).mp hmem
      rw [hnone g hg] at hname
      cases hname
    · have hself := (hlist f.name).mpr ⟨f, hnewest.1, mem_sbomFiles_self hnewest.2.1⟩
      obtain ⟨g, hg, hname⟩ := (hlist filename).mp hmem
      have hsame : filename = f.name := le_antisymm (hlast g hg filename hname) (hmax f.name hself)
      exact ⟨f, hnewest, by rw [hurl]; exact url_eq_iff.mpr ⟨hplain, hsame⟩⟩

end

/-! ## A directory with two SBOMs -/

def earlierSbom : Published := ⟨"sha256-ff.sbom".toList, 1⟩

def laterSbom : Published := ⟨"sha256-0a.sbom".toList, 2⟩

/-- The page that lists them. -/
def twoSboms : Str :=
  ("<a href=\"sha256-0a.sbom\">sha256-0a.sbom</a> 02-Jul-2026\n" ++
    "<a href=\"sha256-ff.sbom\">sha256-ff.sbom</a> 01-Jul-2026\n").toList

theorem lists_twoSboms {laterTime earlierTime : Nat} :
    Lists twoSboms [{ laterSbom with time := laterTime }, { earlierSbom with time := earlierTime }] := by
  intro name
  have hpage : sbomFiles twoSboms = [laterSbom.name, laterSbom.name, earlierSbom.name, earlierSbom.name] := by
    decide +kernel
  have hlater : sbomFiles laterSbom.name = [laterSbom.name] := by decide +kernel
  have hearlier : sbomFiles earlierSbom.name = [earlierSbom.name] := by decide +kernel
  rw [hpage]
  simp [hlater, hearlier]

theorem isSbomName_later : IsSbomName laterSbom.name := ⟨"0a".toList, ⟨by decide, by decide⟩, by decide⟩

theorem isSbomName_earlier : IsSbomName earlierSbom.name := ⟨"ff".toList, ⟨by decide, by decide⟩, by decide⟩

/-- Published the other way round, the newest SBOM is examined. -/
theorem examines_newest_sorted : letI := asciiTables
    Lists twoSboms [{ laterSbom with time := 1 }, { earlierSbom with time := 2 }] ∧
      ∀ s nvr ticket dest r, s.httpGetText (pulpDirectory "boost".toList) = .ok twoSboms →
        fetchSbom s "boost".toList nvr ticket dest = .ok r → r.source = "pulp".toList →
          ExaminesNewest "boost".toList [{ laterSbom with time := 1 }, { earlierSbom with time := 2 }] r.url := by
  let _ := asciiTables
  refine ⟨lists_twoSboms, ?_⟩
  refine (examines_newest_iff ⟨"boost".toList, by decide, by decide⟩ lists_twoSboms).mpr (Or.inr ⟨?_, ?_⟩)
  · intro c hc
    revert c
    decide
  · refine ⟨{ earlierSbom with time := 2 }, ⟨by simp, isSbomName_earlier, ?_⟩, ?_⟩
    · intro g hg _
      rcases List.mem_pair.mp hg with rfl | rfl <;> decide
    · intro g hg name hname
      have hmem := (lists_twoSboms name).mpr ⟨g, hg, hname⟩
      have hall : ∀ name ∈ sbomFiles twoSboms, name ≤ earlierSbom.name := by decide +kernel
      exact hall name hmem

/-- The SBOM that was published first is examined, since its hash sorts last. -/
theorem earlier_sbom_examined : letI := asciiTables
    ∃ (p : PackageName) (s : SbomServices) (r : FetchedSbom), Lists twoSboms [laterSbom, earlierSbom] ∧
      s.httpGetText (pulpDirectory p.name) = .ok twoSboms ∧ fetchSbom s p.name [] [] none = .ok r ∧
      r.source = "pulp".toList ∧ r.url = pulpDirectory p.name ++ earlierSbom.name ∧
      ¬ ExaminesNewest p.name [laterSbom, earlierSbom] r.url := by
  let _ := asciiTables
  let s : SbomServices := ⟨fun _ => .ok twoSboms, fun _ => .ok [], fun _ _ => none, id⟩
  have hlatest : latestPulpSbomFilename s "boost".toList = .ok (pulpDirectory "boost".toList, earlierSbom.name) :=
    (latestPulpSbomFilename_ok_iff rfl).mpr ⟨rfl, by decide +kernel, by decide +kernel⟩
  obtain ⟨r, hr, hsource, hurl⟩ : ∃ r, fetchSbom s "boost".toList [] [] none = .ok r ∧ _ := fetchSbom_served hlatest rfl
  refine ⟨⟨"boost".toList, by decide, by decide⟩, s, r, lists_twoSboms, rfl, hr, hsource, hurl, ?_⟩
  rintro ⟨f, ⟨hf, -, hnewest⟩, hsame⟩
  rw [hurl] at hsame
  obtain ⟨-, hname⟩ := url_eq_iff.mp hsame
  have htime := hnewest laterSbom List.mem_cons_self isSbomName_later
  rcases List.mem_pair.mp hf with rfl | rfl
  · exact absurd hname (by decide)
  · exact absurd htime (by decide)

end HummingbirdRpms
