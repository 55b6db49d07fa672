/-
# HummingbirdRpms.PublishedRpms — which packages are published (`ci/verify_rpms_in_pulp.sh`).

The script asks rpmspec for the binary packages of every spec file, and the repository of every required
arch for one of them.  It runs with `errexit` and `pipefail`: a pipeline that ends in a failure ends the
run where its output is assigned to a variable.

**`published_report_iff`** says for which specs, repositories and settings the report is right: rpmspec
must name a package of every spec that is no debug package, the list of `--only` must name a package of
every spec, and what is published must be published under the lower-case names that are on the list.
-/
import Mathlib.Data.List.Dedup
import Mathlib.Data.List.Sort
import HummingbirdRpms.Runtime

namespace HummingbirdRpms.PublishedRpms

open Lib Lib.Text Lib.Exec

/-! ## What the script asks -/

/-- How a run of rpmspec ends, and the lines it has written. -/
structure RpmspecRun where
  status : Nat
  lines : List Str

/-- A spec file: the directory it is in, and what rpmspec says of its packages and of its SRPM. -/
structure SpecFile where
  directory : Str
  packages : RpmspecRun
  srpm : RpmspecRun

/-- A package of a repository. -/
structure Rpm where
  name : Str
  versionRelease : Str
  arch : Str
  location : Str

/-- The settings of a run, and the repositories by their URLs. -/
structure Check where
  baseUrl : Str
  baseUrlAarch64 : Str
  onlyFilter : Str
  arches : Str
  repository : Str → List Rpm

/-- A field of a line that is split at white space, from 1 on; empty where there is none. -/
def field (n : Nat) (text : Str) : Str :=
  (((text.splitOnP fun c => c = ' ' || c = '\t').filter (· ≠ [])).drop (n - 1)).head?.getD []

/-- `IFS=',' read -r -a items <<< text` -/
def readItems (text : Str) : List Str :=
  let items := (text.takeWhile (· ≠ '\n')).splitOn ','
  if items.getLast? = some [] then items.dropLast else items

/-- `base_url_for_arch` -/
def baseUrlForArch (check : Check) (arch : Str) : Str :=
  if arch = "x86_64".toList then check.baseUrl
  else if arch = "aarch64".toList then check.baseUrlAarch64
  else []

/-- `find_rpm_location`: the line of a package, empty where there is none. -/
def findRpmLocation (check : Check) (name baseUrl arch : Str) : Str :=
  match (check.repository baseUrl).find? fun r => r.name = name && r.arch = arch with
  | some r => r.name ++ '-' :: r.versionRelease ++ '.' :: r.arch ++ '\t' :: r.location
  | none => []

/-- `grep -Ev '(-debuginfo|-debugsource)$'`, of one line -/
def isDebugName (name : Str) : Bool := endsWith "-debuginfo".toList name || endsWith "-debugsource".toList name

/-- The lines that are no source package. -/
def packageLines (run : RpmspecRun) : List Str :=
  run.lines.filter fun text => field 2 text ≠ [] && lowerAscii (field 2 text) ≠ "src".toList

/-- `list_binary_names`; the error is the status of the pipeline, which is that of the last command that
fails: grep does where it selects nothing. -/
def listBinaryNames (spec : SpecFile) : Except Nat (List Str) :=
  let names := ((packageLines spec.packages).map fun text => lowerAscii (field 1 text)).filter
    fun name => !isDebugName name
  if names = [] then .error 1
  else if spec.packages.status ≠ 0 then .error spec.packages.status
  else .ok (names.dedup.insertionSort (· ≤ ·))

/-- `spec_name` -/
def specName (spec : SpecFile) : Except Nat Str :=
  if spec.srpm.status ≠ 0 then .error spec.srpm.status else .ok (lowerAscii (spec.srpm.lines.head?.getD []))

/-- `filter_includes` -/
def filterIncludes (check : Check) (name : Str) : Bool :=
  check.onlyFilter = [] || (readItems check.onlyFilter).contains name

/-! ## The loop -/

/-- A line of the report. -/
inductive Line where
  | ok (directory : Str)
  | missing (directory details : Str)
  | unparsed (directory : Str)
  deriving DecidableEq

/-- The variables of the loop, and what is printed. -/
structure State where
  total : Nat := 0
  found : Nat := 0
  missing : Nat := 0
  missingList : List Str := []
  printed : List Line := []

/-- `mapfile -t names <<< text`: a text without lines is one empty line. -/
def mapfile (names : List Str) : List Str := if names = [] then [[]] else names

/-- The packages the script looks for, of one spec.  An assignment of a failed pipeline ends the run. -/
def binNames (spec : SpecFile) : Except Nat (List Str) := do
  let names := mapfile (← listBinaryNames spec)
  if names.length = 0 then
    let name ← specName spec
    return if name ≠ [] then [name] else []
  return names

/-- A package is published for an arch, or without one. -/
def satisfies (check : Check) (arch pkg : Str) : Bool :=
  findRpmLocation check pkg (baseUrlForArch check arch) arch ≠ [] ||
    findRpmLocation check pkg (baseUrlForArch check arch) "noarch".toList ≠ []

/-- `miss_arches`; an arch without a URL is passed over. -/
def missArches (check : Check) (names : List Str) : List Str :=
  (readItems check.arches).filter fun arch =>
    baseUrlForArch check arch ≠ [] && !(names.any fun pkg => filterIncludes check pkg && satisfies check arch pkg)

/-- What is printed of a spec with missing arches. -/
def missingDetails (check : Check) (names arches : List Str) : Str :=
  let details := (names.filter (filterIncludes check)).filterMap fun pkg =>
    let pkgMiss := arches.filter fun arch => !satisfies check arch pkg
    if pkgMiss = [] then none else some (pkg ++ ":[".toList ++ join [' '] pkgMiss ++ [']'])
  if details = [] then "missing_arches:[".toList ++ join [' '] arches ++ [']'] else join [' '] details

/-- One round of the loop. -/
def checkSpec (check : Check) (st : State) (spec : SpecFile) : Except Nat State := do
  let names ← binNames spec
  if names.length = 0 then return { st with printed := st.printed ++ [.unparsed spec.directory] }
  let st := { st with total := st.total + 1 }
  let arches := missArches check names
  if arches.length = 0 then
    return { st with found := st.found + 1, printed := st.printed ++ [.ok spec.directory] }
  return { st with
    missing := st.missing + 1
    missingList := st.missingList ++ [spec.directory]
    printed := st.printed ++ [.missing spec.directory (missingDetails check names arches)] }

/-- The loop over the spec files. -/
def checkSpecs (check : Check) (specs : List SpecFile) : Except Nat State := specs.foldlM (checkSpec check) {}

/-- `exit`: with the status of what failed, or after the summary. -/
def exitStatus (check : Check) (specs : List SpecFile) : Nat :=
  match checkSpecs check specs with
  | .error status => status
  | .ok st => if st.missing > 0 then 1 else 0

/-! ## What a report should say -/

/-- The binary packages of a spec, in their own case. -/
def binaryPackages (spec : SpecFile) : List Str :=
  ((packageLines spec.packages).map (field 1)).filter fun name => !isDebugName (lowerAscii name)

/-- The packages a spec stands for: its binary packages, or the one that has the name of the SRPM. -/
def specPackages (spec : SpecFile) : List Str :=
  if spec.packages.status = 0 ∧ binaryPackages spec ≠ [] then binaryPackages spec
  else if spec.srpm.status = 0 then (spec.srpm.lines.head?.toList).filter (· ≠ [])
  else []

/-- `--only` names a package of the spec, or is not given. -/
def isSelected (check : Check) (spec : SpecFile) : Bool :=
  specPackages spec ≠ [] &&
    (check.onlyFilter = [] || (specPackages spec).any fun pkg => (readItems check.onlyFilter).contains pkg)

/-- The arches that are asked for. -/
def requiredArches (check : Check) : List Str :=
  (readItems check.arches).filter fun arch => baseUrlForArch check arch ≠ []

/-- A package is in the repository of an arch, for the arch or without one. -/
def isPublished (check : Check) (arch pkg : Str) : Bool :=
  (check.repository (baseUrlForArch check arch)).any fun r =>
    r.name = pkg && (r.arch = arch || r.arch = "noarch".toList)

/-- For some arch no package of the spec is published. -/
def isMissing (check : Check) (spec : SpecFile) : Bool :=
  (requiredArches check).any fun arch => !((specPackages spec).any (isPublished check arch))

/-- What a line of the report says of a directory. -/
def Line.verdict : Line → Option (Str × Bool)
  | .ok directory => some (directory, false)
  | .missing directory _ => some (directory, true)
  | .unparsed _ => none

/-- The run gets to its summary, has counted the selected specs and said of each of them whether it is
missing, and its status is 1 exactly when one is. -/
structure Reports (check : Check) (specs : List SpecFile) (st : State) : Prop where
  summary : checkSpecs check specs = .ok st
  counts : st.total = (specs.filter (isSelected check)).length
  verdicts : st.printed.filterMap Line.verdict =
    (specs.filter (isSelected check)).map fun spec => (spec.directory, isMissing check spec)
  status : exitStatus check specs = 1 ↔ ∃ spec ∈ specs, isSelected check spec = true ∧ isMissing check spec = true

/-- rpmspec names a package of the spec that is no debug package. -/
def Named (spec : SpecFile) : Prop := spec.packages.status = 0 ∧ binaryPackages spec ≠ []

/-- For some arch no package of the spec is published under its lower-case name, of those that are on the
list under that name. -/
def MissingInLowerCase (check : Check) (spec : SpecFile) : Prop :=
  ∃ arch ∈ requiredArches check, ∀ pkg ∈ binaryPackages spec,
    (check.onlyFilter = [] ∨ lowerAscii pkg ∈ readItems check.onlyFilter) →
      isPublished check arch (lowerAscii pkg) = false

/-! ## The packages of a spec -/

section

variable {check : Check} {spec : SpecFile} {specs : List SpecFile} {st st' : State} {arch pkg : Str}
  {names : List Str}

theorem findRpmLocation_ne_nil {name baseUrl : Str} :
    findRpmLocation check name baseUrl arch ≠ [] ↔
      ∃ r ∈ check.repository baseUrl, r.name = name ∧ r.arch = arch := by
  unfold findRpmLocation
  cases h : (check.repository baseUrl).find? fun r => r.name = name && r.arch = arch with
  | none =>
      have hnone := List.find?_eq_none.mp h
      constructor
      · intro hne
        exact absurd rfl hne
      · rintro ⟨r, hr, rfl, rfl⟩
        exact absurd (hnone r hr) (by simp)
  | some r =>
      have hmem := List.mem_of_find?_eq_some h
      have hsame := List.find?_some h
      rw [Bool.and_eq_true, decide_eq_true_iff, decide_eq_true_iff] at hsame
      exact ⟨fun _ => ⟨r, hmem, hsame⟩, fun _ => by simp⟩

theorem satisfies_eq : satisfies check arch pkg = isPublished check arch pkg := by
  rw [Bool.eq_iff_iff, satisfies, Bool.or_eq_true, decide_eq_true_iff, decide_eq_true_iff,
    findRpmLocation_ne_nil, findRpmLocation_ne_nil, isPublished, List.any_eq_true]
  constructor
  · rintro (⟨r, hr, hname, harch⟩ | ⟨r, hr, hname, harch⟩)
    · exact ⟨r, hr, by simp [hname, harch]⟩
    · exact ⟨r, hr, by simp [hname, harch]⟩
  · rintro ⟨r, hr, h⟩
    rw [Bool.and_eq_true, Bool.or_eq_true, decide_eq_true_iff, decide_eq_true_iff, decide_eq_true_iff] at h
    rcases h with ⟨hname, harch | harch⟩
    · exact Or.inl ⟨r, hr, hname, harch⟩
    · exact Or.inr ⟨r, hr, hname, harch⟩

/-- The names the script looks for. -/
def lookedFor (spec : SpecFile) : List Str :=
  ((binaryPackages spec).map lowerAscii).dedup.insertionSort (· ≤ ·)

theorem mem_lookedFor : pkg ∈ lookedFor spec ↔ ∃ name ∈ binaryPackages spec, lowerAscii name = pkg := by
  rw [lookedFor, List.mem_insertionSort, List.mem_dedup, List.mem_map]

theorem listBinaryNames_ok_iff :
    listBinaryNames spec = .ok names ↔ Named spec ∧ names = lookedFor spec := by
  have hnames : (((packageLines spec.packages).map fun text => lowerAscii (field 1 text)).filter
      fun name => !isDebugName name) = (binaryPackages spec).map lowerAscii := by
    rw [binaryPackages, List.filter_map, List.filter_map, List.map_map]
    rfl
  unfold listBinaryNames
  rw [hnames]
  dsimp only
  by_cases hempty : binaryPackages spec = []
  · rw [if_pos (List.map_eq_nil_iff.mpr hempty)]
    constructor
    · intro h
      cases h
    · rintro ⟨⟨-, hne⟩, -⟩
      exact absurd hempty hne
  · rw [if_neg (by rwa [List.map_eq_nil_iff])]
    by_cases hstatus : spec.packages.status = 0
    · rw [if_neg (not_not_intro hstatus)]
      constructor
      · intro h
        exact ⟨⟨hstatus, hempty⟩, (Except.ok.inj h).symm⟩
      · rintro ⟨-, rfl⟩
        rfl
    · rw [if_pos hstatus]
      constructor
      · intro h
        cases h
      · rintro ⟨⟨hzero, -⟩, -⟩
        exact absurd hzero hstatus

theorem lookedFor_ne_nil (h : Named spec) : lookedFor spec ≠ [] := by
  obtain ⟨name, hname⟩ := List.exists_mem_of_ne_nil _ h.2
  exact List.ne_nil_of_mem (mem_lookedFor.mpr ⟨name, hname, rfl⟩)

/-- The name of the SRPM is never looked for. -/
theorem binNames_ok_iff : binNames spec = .ok names ↔ Named spec ∧ names = lookedFor spec := by
  unfold binNames
  rw [except_bind_ok_iff]
  constructor
  · rintro ⟨listed, hlisted, h⟩
    obtain ⟨hnamed, rfl⟩ := listBinaryNames_ok_iff.mp hlisted
    have hne := lookedFor_ne_nil hnamed
    rw [mapfile, if_neg hne, if_neg (by rwa [List.length_eq_zero_iff])] at h
    exact ⟨hnamed, (Except.ok.inj h).symm⟩
  · rintro ⟨hnamed, rfl⟩
    have hne := lookedFor_ne_nil hnamed
    refine ⟨lookedFor spec, listBinaryNames_ok_iff.mpr ⟨hnamed, rfl⟩, ?_⟩
    rw [mapfile, if_neg hne, if_neg (by rwa [List.length_eq_zero_iff])]
    rfl

/-! ## The rounds -/

/-- What a round adds for a spec whose packages are named. -/
def State.add (check : Check) (st : State) (spec : SpecFile) : State :=
  let arches := missArches check (lookedFor spec)
  if arches = [] then
    { st with total := st.total + 1, found := st.found + 1, printed := st.printed ++ [.ok spec.directory] }
  else
    { st with
      total := st.total + 1
      missing := st.missing + 1
      missingList := st.missingList ++ [spec.directory]
      printed := st.printed ++ [.missing spec.directory (missingDetails check (lookedFor spec) arches)] }

theorem checkSpec_ok_iff : checkSpec check st spec = .ok st' ↔ Named spec ∧ st' = st.add check spec := by
  unfold checkSpec
  rw [except_bind_ok_iff]
  have hround : Named spec → (if (lookedFor spec).length = 0 then
        (pure { st with printed := st.printed ++ [.unparsed spec.directory] } : Except Nat State)
      else
        if (missArches check (lookedFor spec)).length = 0 then
          pure { { st with total := st.total + 1 } with
            found := st.found + 1, printed := st.printed ++ [.ok spec.directory] }
        else pure { { st with total := st.total + 1 } with
          missing := st.missing + 1
          missingList := st.missingList ++ [spec.directory]
          printed := st.printed ++
            [.missing spec.directory (missingDetails check (lookedFor spec) (missArches check (lookedFor spec)))] })
        = .ok (st.add check spec) := by
    intro hnamed
    rw [if_neg (by rw [List.length_eq_zero_iff]; exact lookedFor_ne_nil hnamed), State.add]
    by_cases harches : missArches check (lookedFor spec) = []
    · rw [if_pos harches, if_pos (List.length_eq_zero_iff.mpr harches)]
      rfl
    · rw [if_neg harches, if_neg (by rwa [List.length_eq_zero_iff])]
      rfl
  constructor
  · rintro ⟨names, hnames, h⟩
    obtain ⟨hnamed, rfl⟩ := binNames_ok_iff.mp hnames
    exact ⟨hnamed, (Except.ok.inj ((hround hnamed).symm.trans h)).symm⟩
  · rintro ⟨hnamed, rfl⟩
    exact ⟨lookedFor spec, binNames_ok_iff.mpr ⟨hnamed, rfl⟩, hround hnamed⟩

/-- The loop gets to its end exactly when the packages of every spec are named. -/
theorem foldlM_checkSpec_ok_iff :
    specs.foldlM (checkSpec check) st = .ok st' ↔
      (∀ spec ∈ specs, Named spec) ∧ st' = specs.foldl (State.add check) st := by
  induction specs generalizing st with
  | nil =>
      constructor
      · intro h
        exact ⟨fun spec hspec => absurd hspec List.not_mem_nil, (Except.ok.inj h).symm⟩
      · rintro ⟨-, rfl⟩
        rfl
  | cons spec specs ih =>
      rw [List.foldlM_cons, except_bind_ok_iff, List.forall_mem_cons, List.foldl_cons]
      constructor
      · rintro ⟨mid, hmid, h⟩
        obtain ⟨hnamed, rfl⟩ := checkSpec_ok_iff.mp hmid
        obtain ⟨hall, hst⟩ := ih.mp h
        exact ⟨⟨hnamed, hall⟩, hst⟩
      · rintro ⟨⟨hnamed, hall⟩, hst⟩
        exact ⟨_, checkSpec_ok_iff.mpr ⟨hnamed, rfl⟩, ih.mpr ⟨hall, hst⟩⟩

/-- Whether the script calls a spec missing. -/
def calledMissing (check : Check) (spec : SpecFile) : Bool := missArches check (lookedFor spec) ≠ []

/-- What the loop has counted and printed. -/
theorem foldl_add_facts :
    (specs.foldl (State.add check) st).total = st.total + specs.length ∧
      (specs.foldl (State.add check) st).missing = st.missing + specs.countP (calledMissing check) ∧
      (specs.foldl (State.add check) st).printed.filterMap Line.verdict =
        st.printed.filterMap Line.verdict ++
          specs.map fun spec => (spec.directory, calledMissing check spec) := by
  induction specs generalizing st with
  | nil => simp
  | cons spec specs ih =>
      obtain ⟨htotal, hmissing, hprinted⟩ := @ih (st.add check spec)
      rw [List.foldl_cons, htotal, hmissing, hprinted, List.countP_cons]
      unfold State.add
      by_cases harches : missArches check (lookedFor spec) = []
      · simp [harches, calledMissing, Line.verdict]
        omega
      · simp [harches, calledMissing, Line.verdict]
        omega

/-! ## The main result -/

theorem filterIncludes_iff :
    filterIncludes check pkg = true ↔ check.onlyFilter = [] ∨ pkg ∈ readItems check.onlyFilter := by
  rw [filterIncludes, Bool.or_eq_true, decide_eq_true_iff, List.contains_iff_mem]

theorem calledMissing_iff : calledMissing check spec = true ↔ MissingInLowerCase check spec := by
  have hnone : ∀ arch, ((lookedFor spec).any fun pkg => filterIncludes check pkg && satisfies check arch pkg) =
      false ↔ ∀ pkg ∈ binaryPackages spec,
        (check.onlyFilter = [] ∨ lowerAscii pkg ∈ readItems check.onlyFilter) →
          isPublished check arch (lowerAscii pkg) = false := by
    intro arch
    rw [List.any_eq_false]
    constructor
    · intro h pkg hpkg honly
      have hpkg' := h (lowerAscii pkg) (mem_lookedFor.mpr ⟨pkg, hpkg, rfl⟩)
      rw [filterIncludes_iff.mpr honly, Bool.true_and, satisfies_eq] at hpkg'
      exact Bool.eq_false_iff.mpr hpkg'
    · intro h name hname htrue
      obtain ⟨pkg, hpkg, rfl⟩ := mem_lookedFor.mp hname
      rw [Bool.and_eq_true, filterIncludes_iff, satisfies_eq] at htrue
      rw [h pkg hpkg htrue.1] at htrue
      exact Bool.false_ne_true htrue.2
  rw [calledMissing, decide_eq_true_iff, missArches, Ne, List.filter_eq_nil_iff, MissingInLowerCase]
  push Not
  constructor
  · rintro ⟨arch, harch, h⟩
    rw [Bool.and_eq_true, decide_eq_true_iff, Bool.not_eq_true', hnone] at h
    exact ⟨arch, List.mem_filter.mpr ⟨harch, decide_eq_true h.1⟩, h.2⟩
  · rintro ⟨arch, harch, h⟩
    obtain ⟨harch, hurl⟩ := List.mem_filter.mp harch
    refine ⟨arch, harch, ?_⟩
    rw [Bool.and_eq_true, Bool.not_eq_true', hnone]
    exact ⟨hurl, h⟩

/-- **`published_report_iff`** — for every list of spec files, every output of rpmspec, every repository and
all settings, there is a right report exactly when rpmspec names a package of every spec that is no debug
package, every spec is selected, and a spec has for some arch no package at all in the repository exactly
when it has none there under the lower-case names that are on the list. -/
theorem published_report_iff (check : Check) (specs : List SpecFile) :
    (∃ st, Reports check specs st) ↔
      (∀ spec ∈ specs, Named spec) ∧ (∀ spec ∈ specs, isSelected check spec = true) ∧
        ∀ spec ∈ specs, (MissingInLowerCase check spec ↔ isMissing check spec = true) := by
  obtain ⟨htotal, hmissing, hprinted⟩ := @foldl_add_facts check specs {}
  constructor
  · rintro ⟨st, hsummary, hcounts, hverdicts, -⟩
    obtain ⟨hnamed, rfl⟩ := foldlM_checkSpec_ok_iff.mp hsummary
    rw [htotal, Nat.zero_add] at hcounts
    -- every spec is counted, so none may be passed over
    have hselected : ∀ spec ∈ specs, isSelected check spec = true := by
      rw [← List.length_filter_eq_length_iff]
      exact hcounts.symm
    rw [hprinted, List.filter_eq_self.mpr hselected] at hverdicts
    refine ⟨hnamed, hselected, fun spec hspec => ?_⟩
    have hsame := List.map_inj_left.mp hverdicts spec hspec
    rw [← calledMissing_iff, (Prod.mk.inj hsame).2]
  · rintro ⟨hnamed, hselected, hsame⟩
    have hsummary : checkSpecs check specs = .ok (specs.foldl (State.add check) {}) :=
      foldlM_checkSpec_ok_iff.mpr ⟨hnamed, rfl⟩
    have hcalled : ∀ spec ∈ specs, calledMissing check spec = isMissing check spec := by
      intro spec hspec
      rw [Bool.eq_iff_iff, calledMissing_iff, hsame spec hspec]
    have hall := List.filter_eq_self.mpr hselected
    refine ⟨_, hsummary, ?_, ?_, ?_⟩
    · rw [htotal, hall]
      exact Nat.zero_add _
    · rw [hprinted, hall]
      exact List.map_congr_left fun spec hspec => by rw [hcalled spec hspec]
    · show (match checkSpecs check specs with
        | .error status => status
        | .ok st => if st.missing > 0 then 1 else 0) = 1 ↔ _
      rw [hsummary]
      show (if (specs.foldl (State.add check) {}).missing > 0 then 1 else 0) = 1 ↔ _
      rw [hmissing]
      show (if 0 + specs.countP (calledMissing check) > 0 then 1 else 0) = 1 ↔ _
      rw [Nat.zero_add]
      constructor
      · intro h
        have hpos : 0 < specs.countP (calledMissing check) := by
          by_contra hzero
          rw [if_neg hzero] at h
          cases h
        obtain ⟨spec, hspec, hmiss⟩ := List.countP_pos_iff.mp hpos
        exact ⟨spec, hspec, hselected spec hspec, by rwa [hcalled spec hspec] at hmiss⟩
      · rintro ⟨spec, hspec, -, hmiss⟩
        exact if_pos (List.countP_pos_iff.mpr ⟨spec, hspec, by rwa [hcalled spec hspec]⟩)

end

/-! ### A spec with debug packages only -/

/-- A spec whose binary packages are for debugging only. -/
def debugOnly : SpecFile where
  directory := "foo"
  packages := ⟨0, ["foo-debuginfo\tx86_64".toList]⟩
  srpm := ⟨0, ["foo".toList]⟩

/-- The repositories have everything by the name of `foo`. -/
def fooPublished : Check where
  baseUrl := "https://example/x86_64/"
  baseUrlAarch64 := "https://example/aarch64/"
  onlyFilter := []
  arches := "x86_64,aarch64"
  repository := fun _ => [⟨"foo", "1-1", "noarch", "Packages/foo-1-1.noarch.rpm"⟩]

/-- The name of the SRPM is published, but grep selects nothing, and the run ends before it gets to the
name. -/
theorem debug_only_ends_run :
    isSelected fooPublished debugOnly = true ∧ isMissing fooPublished debugOnly = false ∧
      checkSpecs fooPublished [debugOnly] = .error 1 ∧ ¬ ∃ st, Reports fooPublished [debugOnly] st := by
  have hended : checkSpecs fooPublished [debugOnly] = .error 1 := by rfl
  refine ⟨by decide +kernel, by decide +kernel, hended, ?_⟩
  rintro ⟨st, hsummary, -⟩
  rw [hended] at hsummary
  cases hsummary

end HummingbirdRpms.PublishedRpms
