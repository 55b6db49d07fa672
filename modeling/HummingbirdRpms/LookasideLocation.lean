/-
# HummingbirdRpms.LookasideLocation — where the sources of a package come from (`ci/build_rpms.sh`,
`ci/generate_resources.py`).

A local build and a Konflux build both fetch the sources with dist-git-client, from a place that is made
of the `forked_from` value of a package and a package name.  `build_pac_variables` parses the overrides
file and takes the name from the metadata; `build_rpms.sh` looks for lines of the file with awk, and
takes the name from the spec file.

**`same_location_iff`** says when the two places are the same: the file must show the value on the first
line of the package's block that has the key, in the way awk cuts it out, and the name of the spec file
must be the one the metadata gives.

The awk program and the rendering of values by the template engine are parameters.
-/
import HummingbirdRpms.Lib.BlockScan
import HummingbirdRpms.Components

namespace HummingbirdRpms.LookasideLocation

open Lib Lib.Text Lib.Exec Lib.BlockScan Resources
open Value (Entries entry find setEntry)

/-! ## The local build -/

/-- An awk: how it matches a regular expression that is put together at run time, and the characters of
`[[:space:]]`. -/
structure Awk where
  /-- `$0 ~ pattern` -/
  dynamicMatch : (pattern line : Str) → Bool
  isSpace : Char → Bool

/-- `["']` -/
def isQuote (c : Char) : Bool := c = Char.ofNat 34 || c = Char.ofNat 39

/-- What comes after the last `pat`. -/
def afterLast (pat : Str) : Str → Option Str
  | [] => none
  | c :: cs =>
      match afterLast pat cs with
      | some rest => some rest
      | none => if startsWith pat (c :: cs) then some ((c :: cs).drop pat.length) else none

/-- The key the script looks for. -/
def forkedFromKey : Str := "forked_from:".toList

/-- `gsub(/.*forked_from:[[:space:]]*["']?/, "")` -/
def cutFront (awk : Awk) (line : Str) : Str :=
  match afterLast forkedFromKey line with
  | none => line
  | some rest =>
      match rest.dropWhile awk.isSpace with
      | c :: cs => if isQuote c then cs else c :: cs
      | [] => []

/-- `gsub(/["']?[[:space:]]*$/, "")` -/
def cutEnd (awk : Awk) (value : Str) : Str :=
  let value := rstripBy awk.isSpace value
  if value.getLast?.any isQuote then value.dropLast else value

/-- What is printed of a line. -/
def shownValue (awk : Awk) (line : Str) : Str := cutEnd awk (cutFront awk line)

/-- The patterns of the awk program. -/
def overrideRules (awk : Awk) (package : Str) : Rules Str where
  opens := awk.dynamicMatch ('^' :: package ++ ":$".toList)
  stays := fun line => line.head?.all (· = ' ')
  answers := contains forkedFromKey

/-- The records awk reads.  An empty one at the end changes nothing. -/
def overrideLines (overrides : Option File) : List Str :=
  match overrides with
  | some (.text s) => newlineSplit s
  | _ => []

/-- `forked_from`, from the overrides file.  A file that is no text is not looked at here: the other
side does not read it. -/
def forkedFrom (awk : Awk) (package : Str) (overrides : Option File) : Str :=
  ((scan (overrideRules awk package) false (overrideLines overrides)).map (shownValue awk)).getD []

/-- `find … -maxdepth 1 -name "*.spec" -type f` -/
def specFiles (c : Checkout) (package : Str) : List Str :=
  (c.children (rpmDir package)).filter fun name =>
    endsWith ".spec" name && (c.file (joinPath (rpmDir package) name)).any (· ≠ .dir)

/-- `${spec_file_name%.spec}` -/
def specStem (spec : Str) : Str := spec.take (spec.length - 5)

/-- `forked_from`, and the name that is put into `upstream_repo_url`; nothing without a spec file. -/
def localPair (awk : Awk) (c : Checkout) (package : Str) : Option (Str × Str) :=
  let forked := forkedFrom awk package (c.file "ci/package-overrides.yaml")
  (specFiles c package).head?.map fun spec =>
    if forked ≠ [] then (forked, package) else ([], specStem spec)

/-! ## The Konflux build -/

/-- The template engine: the text it makes of a value. -/
structure Jinja where
  textOf : Value → Str
  textOf_str : ∀ s, textOf (.str s) = s

/-- `forked-from`, which is left out where the value is false -/
def forkedText (jinja : Jinja) (config : Entries) : Str :=
  match find "forked_from" config with
  | some v => if v.truthy then jinja.textOf v else []
  | none => []

/-- The parameters `forked-from` and `package-name` of a pipeline. -/
def konfluxPair (jinja : Jinja) (data : Entries) : Str × Str :=
  (forkedText jinja data, jinja.textOf (entry "package_name" data))

/-- Both builds fetch from one place. -/
def SamePair (awk : Awk) (jinja : Jinja) (c : Checkout) (package : Str) (data : Entries) : Prop :=
  localPair awk c package = some (konfluxPair jinja data)

/-! ## When they are the same -/

/-- The overrides file shows a value: it is what the first line of the package's block with the key is
cut down to, or there is no such line and the value is empty. -/
def Shows (awk : Awk) (package : Str) (lines : List Str) (value : Str) : Prop :=
  (∃ line, FirstAnswer (overrideRules awk package) [] lines line ∧ shownValue awk line = value) ∨
    (NoAnswer (overrideRules awk package) [] lines ∧ value = [])

/-- The metadata of a package, empty where there is none. -/
def metadataEntries : Value → Entries
  | .dict entries => entries
  | _ => []

/-- The package goes by the name of its directory: it is independent, is a fork within the project, or
has no source. -/
def NamedByDirectory (config : Entries) (metadata : Value) : Prop :=
  (entry "modification_status" (metadataEntries metadata)).isStr "independent" = true ∨
    ((find "forked_from" config).getD (.str [])).contains "hummingbird" = .ok true ∨
    find "source" (metadataEntries metadata) = none

/-- The condition for one place. -/
structure SameLocation (awk : Awk) (jinja : Jinja) (lines : List Str) (package spec : Str) (config : Entries)
    (metadata : Value) : Prop where
  forked : Shows awk package lines (forkedText jinja config)
  directory : forkedText jinja config = [] → NamedByDirectory config metadata → specStem spec = package
  source : ∀ source, ¬ NamedByDirectory config metadata →
    find "source" (metadataEntries metadata) = some (.str source) →
      pathStem source = if forkedText jinja config = [] then specStem spec else package

section

variable {awk : Awk} {jinja : Jinja} {c : Checkout} {package : Str} {lines : List Str}

theorem scan_shows_iff {value : Str} :
    ((scan (overrideRules awk package) false lines).map (shownValue awk)).getD [] = value ↔
      Shows awk package lines value := by
  constructor
  · intro h
    cases hscan : scan (overrideRules awk package) false lines with
    | none =>
        rw [hscan] at h
        exact Or.inr ⟨scan_eq_none_iff.mp hscan, h.symm⟩
    | some line =>
        rw [hscan] at h
        exact Or.inl ⟨line, scan_eq_some_iff.mp hscan, h⟩
  · rintro (⟨line, hfirst, hvalue⟩ | ⟨hnone, rfl⟩)
    · rw [scan_eq_some_iff.mpr hfirst]
      exact hvalue
    · rw [scan_eq_none_iff.mpr hnone]
      rfl

theorem find_of_index {key : Str} {md : Entries} {v : Value} (h : Value.index key (.dict md) = .ok v) :
    find key md = some v := by
  have hindex : (match md.lookup key with
      | some w => Except.ok w
      | none => .error (.raised .keyError key)) = Except.ok (ε := Exn) v := h
  cases hw : md.lookup key with
  | none => rw [hw] at hindex; cases hindex
  | some w => rw [hw] at hindex; rw [find, hw, Except.ok.inj hindex]

theorem find_of_not_contains {key : Str} {md : Entries} (h : Value.contains key (.dict md) = .ok false) :
    find key md = none := by
  have hany : md.any (fun e => decide (e.1 = key)) = false := Except.ok.inj h
  rw [find, List.lookup_eq_none_iff]
  intro e he
  have hne : ¬ e.1 = key := by simpa using List.any_eq_false.mp hany e he
  exact bne_iff_ne.mpr (Ne.symm hne)

/-- A false value has no entries. -/
theorem metadataEntries_of_not_truthy {metadata : Value} (h : metadata.truthy = false) :
    metadataEntries metadata = [] := by
  cases metadata with
  | dict md => cases md with
    | nil => rfl
    | cons e md => cases h
  | _ => rfl

/-- The name of a package whose metadata is read. -/
theorem upstreamName_cases {isHummingbird : Bool} {metadata : Value} {n : Str}
    (h : upstreamName package isHummingbird metadata = .ok n) :
    (((entry "modification_status" (metadataEntries metadata)).isStr "independent" = true ∨
        isHummingbird = true ∨ find "source" (metadataEntries metadata) = none) ∧ n = package) ∨
      ((entry "modification_status" (metadataEntries metadata)).isStr "independent" = false ∧
        isHummingbird = false ∧
        ∃ source, find "source" (metadataEntries metadata) = some (.str source) ∧ n = pathStem source) := by
  unfold upstreamName at h
  cases htruthy : metadata.truthy with
  | false =>
      rw [htruthy, Bool.not_false, if_pos rfl] at h
      rw [metadataEntries_of_not_truthy htruthy]
      exact Or.inl ⟨Or.inr (Or.inr rfl), (Except.ok.inj h).symm⟩
  | true =>
      rw [htruthy, Bool.not_true, if_neg Bool.false_ne_true] at h
      obtain ⟨status, hstatus, h⟩ := except_bind_ok_iff.mp h
      cases metadata with
      | dict md =>
          obtain rfl := Except.ok.inj hstatus
          show ((entry "modification_status" md).isStr "independent" = true ∨ _) ∧ _ ∨ _
          cases hindependent : (entry "modification_status" md).isStr "independent" with
          | true =>
              rw [hindependent, if_pos rfl] at h
              exact Or.inl ⟨Or.inl rfl, (Except.ok.inj h).symm⟩
          | false =>
              rw [hindependent, if_neg Bool.false_ne_true] at h
              cases isHummingbird with
              | true => exact Or.inl ⟨Or.inr (Or.inl rfl), (Except.ok.inj h).symm⟩
              | false =>
                  rw [if_neg Bool.false_ne_true] at h
                  obtain ⟨listed, hlisted, h⟩ := except_bind_ok_iff.mp h
                  cases listed with
                  | false => exact Or.inl ⟨Or.inr (Or.inr (find_of_not_contains hlisted)), (Except.ok.inj h).symm⟩
                  | true =>
                      obtain ⟨v, hv, h⟩ := except_bind_ok_iff.mp h
                      obtain ⟨source, hstr, h⟩ := except_bind_ok_iff.mp h
                      obtain rfl := Value.asStr_ok hstr
                      exact Or.inr ⟨hindependent, rfl, source, find_of_index hv, (Except.ok.inj h).symm⟩
      | _ => cases hstatus

/-- What the entry of an imported package has of the two parameters. -/
theorem find_pacImported {overrides : Value} {branch : Str} {resourceType : ResourceType} {data out : Entries}
    (hdata : find "forked_from" data = none)
    (h : pacImported c overrides branch resourceType package data = .ok out) :
    ∃ config metadata isHummingbird n, packageConfig overrides package = .ok (.dict config) ∧
      c.loadYamlFile ("metadata/".toList ++ package ++ ".json".toList) = .ok metadata ∧
      ((find "forked_from" config).getD (.str [])).contains "hummingbird" = .ok isHummingbird ∧
      upstreamName package isHummingbird metadata = .ok n ∧
      find "package_name" out = some (.str n) ∧ find "forked_from" out = find "forked_from" config := by
  obtain ⟨cfg, hcfg, h⟩ := except_bind_ok_iff.mp h
  obtain ⟨metadata, hmetadata, h⟩ := except_bind_ok_iff.mp h
  obtain ⟨config, hconfig, h⟩ := except_bind_ok_iff.mp h
  obtain ⟨isHummingbird, hfork, h⟩ := except_bind_ok_iff.mp h
  obtain ⟨n, hname, h⟩ := except_bind_ok_iff.mp h
  obtain ⟨specs, -, h⟩ := except_bind_ok_iff.mp h
  obtain ⟨params, -, h⟩ := except_bind_ok_iff.mp h
  obtain rfl := Except.ok.inj h
  have hdict : cfg = .dict config := by
    cases cfg with
    | dict config' => rw [Except.ok.inj hconfig]
    | _ => cases hconfig
  rw [hdict] at hcfg
  -- the entry is built by a chain of updates under other keys
  have hpaths : ∀ (key : Str) (paths : List Value) (d : Entries), key ≠ "extra_path_changes" → find key
      (if paths = [] then d else setEntry "extra_path_changes" (.list paths) d) = find key d := by
    intro key paths d hkey
    split
    · rfl
    · exact find_setEntry_ne hkey
  have hspecs : ∀ (key : Str) (d : Entries), key ≠ "task_run_specs" → find key
      ((specs.map fun s => setEntry "task_run_specs" s d).getD d) = find key d := by
    intro key d hkey
    cases specs with
    | none => rfl
    | some s => exact find_setEntry_ne hkey
  refine ⟨config, metadata, isHummingbird, n, hcfg, hmetadata, hfork, hname, ?_, ?_⟩
  · rw [hpaths _ _ _ (by decide), find_copyEntry_ne (by decide), find_setEntry_ne (by decide),
      find_setApplication (by decide), find_copyEntry_ne (by decide), hspecs _ _ (by decide),
      find_setEntry_ne (by decide), find_copyEntry_ne (by decide), find, Value.lookup_setEntry, if_pos rfl]
  · rw [hpaths _ _ _ (by decide), find_copyEntry_ne (by decide), find_setEntry_ne (by decide),
      find_setApplication (by decide)]
    cases hforked : find "forked_from" config with
    | some v => rw [copyEntry, hforked, find, Value.lookup_setEntry, if_pos rfl]
    | none =>
        rw [copyEntry, hforked, hspecs _ _ (by decide), find_setEntry_ne (by decide),
          find_copyEntry_ne (by decide), find_setEntry_ne (by decide), find_setEntry_ne (by decide), hdata]

/-- The pair of a local build. -/
theorem localPair_eq {spec : Str} (hspec : specFiles c package = [spec]) :
    localPair awk c package =
      some (forkedFrom awk package (c.file "ci/package-overrides.yaml"),
        if forkedFrom awk package (c.file "ci/package-overrides.yaml") = [] then specStem spec
        else package) := by
  rw [localPair, hspec]
  show some _ = _
  generalize forkedFrom awk package (c.file "ci/package-overrides.yaml") = forked
  by_cases h : forked = []
  · simp [h]
  · simp [h]

theorem namedByDirectory_iff {config : Entries} {metadata : Value} {isHummingbird : Bool}
    (h : ((find "forked_from" config).getD (.str [])).contains "hummingbird" = .ok isHummingbird) :
    NamedByDirectory config metadata ↔
      (entry "modification_status" (metadataEntries metadata)).isStr "independent" = true ∨
        isHummingbird = true ∨ find "source" (metadataEntries metadata) = none := by
  rw [NamedByDirectory, h, Except.ok.injEq]

/-- **`same_location_iff`** — for every checkout, package directory with one spec file, overrides and
metadata of which variables are built, the local build and the Konflux build fetch from one place exactly
when the overrides file shows the `forked_from` value and the spec file has the name of the metadata. -/
theorem same_location_iff (awk : Awk) (jinja : Jinja) {branch tenant spec : Str} {resourceType : ResourceType}
    {pac : PacVariables} {data config : Entries} {overrides metadata : Value}
    (hpac : buildPacVariables c branch tenant resourceType = .ok pac) (hdata : (package, data) ∈ pac.rpms)
    (hdir : c.isDir (rpmDir package) = true) (hspec : specFiles c package = [spec])
    (hoverrides : Resources.loadOverrides c = .ok overrides)
    (hconfig : packageConfig overrides package = .ok (.dict config))
    (hmetadata : c.loadYamlFile ("metadata/".toList ++ package ++ ".json".toList) = .ok metadata) :
    SamePair awk jinja c package data ↔
      SameLocation awk jinja (overrideLines (c.file "ci/package-overrides.yaml")) package spec config
        metadata := by
  obtain ⟨packages, -, hpac⟩ := except_bind_ok_iff.mp hpac
  rw [hoverrides, except_bind_ok] at hpac
  obtain ⟨rpms, hrpms, hpac⟩ := except_bind_ok_iff.mp hpac
  obtain rfl := Except.ok.inj hpac
  obtain ⟨p, -, hpackage⟩ := mem_of_mapM_ok hrpms hdata
  obtain ⟨out, hout, heq⟩ := except_bind_ok_iff.mp hpackage
  obtain ⟨rfl, rfl⟩ := Prod.mk.inj (Except.ok.inj heq)
  rw [pacPackage, if_pos hdir] at hout
  obtain ⟨config', metadata', isHummingbird, n, hconfig', hmetadata', hfork, hname, hfindName, hfindFork⟩ :=
    find_pacImported rfl hout
  obtain rfl : config' = config := by
    rw [hconfig] at hconfig'
    exact (Value.dict.inj (Except.ok.inj hconfig')).symm
  obtain rfl : metadata' = metadata := by
    rw [hmetadata] at hmetadata'
    exact (Except.ok.inj hmetadata').symm
  have hpair : konfluxPair jinja out = (forkedText jinja config', n) := by
    have hentry : entry "package_name" out = .str n := by
      show (find "package_name" out).getD .none = .str n
      rw [hfindName]
      rfl
    rw [konfluxPair, hentry, jinja.textOf_str, forkedText, hfindFork]
    rfl
  rw [SamePair, localPair_eq hspec, hpair, Option.some.injEq, Prod.mk.injEq, forkedFrom, scan_shows_iff]
  -- the first components agree; what is left is about the names
  constructor
  · rintro ⟨hshows, hn⟩
    rw [scan_shows_iff.mpr hshows] at hn
    refine ⟨hshows, fun hempty hnamed => ?_, fun source hnot hsource => ?_⟩
    · rw [if_pos hempty] at hn
      rw [namedByDirectory_iff hfork] at hnamed
      rcases upstreamName_cases hname with ⟨-, rfl⟩ | ⟨hind, hhum, source, hsource, -⟩
      · exact hn
      · rw [hind, hhum, hsource] at hnamed
        simp at hnamed
    · rw [namedByDirectory_iff hfork] at hnot
      rcases upstreamName_cases hname with ⟨hnamed, -⟩ | ⟨-, -, source', hsource', rfl⟩
      · exact absurd hnamed hnot
      · rw [hsource] at hsource'
        obtain rfl := Value.str.inj (Option.some.inj hsource')
        exact hn.symm
  · rintro ⟨hshows, hdirectory, hsource⟩
    refine ⟨hshows, ?_⟩
    rw [scan_shows_iff.mpr hshows]
    rcases upstreamName_cases hname with ⟨hnamed, rfl⟩ | ⟨hind, hhum, source, hfind, rfl⟩
    · split
      · exact hdirectory ‹_› ((namedByDirectory_iff hfork).mpr hnamed)
      · rfl
    · refine (hsource source (fun hnamed => ?_) hfind).symm
      rw [namedByDirectory_iff hfork, hind, hhum, hfind] at hnamed
      simp at hnamed

end

/-! ### A comment behind the value -/

/-- The characters of a regular expression without brackets, each with whether it is repeated. -/
def repeatedChars : Str → List (Char × Bool)
  | [] => []
  | c :: rest =>
      match repeatedChars rest with
      | ('+', _) :: items => (c, true) :: items
      | items => (c, false) :: items

/-- A match of the whole line. -/
def matchesAll : List (Char × Bool) → Str → Bool
  | [], line => line.isEmpty
  | _ :: _, [] => false
  | (p, repeated) :: items, c :: line =>
      (p = '.' || p = c) && (matchesAll items line || repeated && matchesAll ((p, repeated) :: items) line)

/-- An awk for patterns that are a package name of letters, digits and `-_.+`, between `^` and `$`. -/
def nameAwk : Awk where
  dynamicMatch := fun pattern line => matchesAll (repeatedChars (pattern.tail.dropLast)) line
  isSpace := fun c => c ∈ [' ', '\t', '\n', '\r']

/-- The name `libstdc++` does not match itself, and `golang1.25` matches more than itself. -/
example : nameAwk.dynamicMatch "^libstdc++:$".toList "libstdc++:".toList = false ∧
    nameAwk.dynamicMatch "^golang1.25:$".toList "golang1-25:".toList = true := by decide

/-- A template engine, which is asked for strings only. -/
def plainJinja : Jinja where
  textOf := Value.format
  textOf_str := fun _ => rfl

/-- The package `curl`, whose overrides are a text that is read as an entry with the project's fork. -/
def forkedCurl (overrides : Str) : Checkout where
  file := fun p =>
    if p = "rpms" then some .dir
    else if p = "rpms/curl" then some .dir
    else if p = "rpms/curl/curl.spec" then some (.text "Name: curl\n")
    else if p = "ci/package-overrides.yaml" then some (.text overrides)
    else none
  children := fun p =>
    if p = "rpms" then ["curl"] else if p = "rpms/curl" then ["curl.spec"] else []
  safeLoad := fun _ =>
    .ok (.dict [("curl", .dict [("forked_from", .str "https://gitlab.com/redhat/hummingbird/rpms")])])

/-- The variables of `curl`. -/
def curlEntry : Entries :=
  [("name", .str "curl-main"), ("dname", .str "curl"), ("imported", .bool true),
    ("timeout_hours", .num false "4"), ("specfile", .str "curl.spec"), ("package_name", .str "curl"),
    ("build_platforms", .list [.str "linux/x86_64", .str "linux/arm64"]),
    ("forked_from", .str "https://gitlab.com/redhat/hummingbird/rpms"),
    ("extra_params", .dict [("purl-rpm-namespace", .str "redhat")])]

theorem buildPacVariables_forkedCurl (overrides : Str) :
    buildPacVariables (forkedCurl overrides) "main" "hummingbird" .push =
      .ok ⟨"main", defaultApplication "main", pipelineBundle, "hummingbird", [("curl", curlEntry)]⟩ := rfl

/-- The overrides with a comment behind the value. -/
def commentedOverrides : Str :=
  ("curl:\n  forked_from: https://gitlab.com/redhat/hummingbird/rpms # our lookaside\n").toList

/-- The overrides as they are written in the repository. -/
def quotedOverrides : Str :=
  ("curl:\n  forked_from: \"https://gitlab.com/redhat/hummingbird/rpms\"\n").toList

/-- The local build takes the comment for a part of the place. -/
theorem comment_in_location :
    let c := forkedCurl commentedOverrides
    ∃ pac, buildPacVariables c "main" "hummingbird" .push = .ok pac ∧ ("curl".toList, curlEntry) ∈ pac.rpms ∧
      c.isDir (rpmDir "curl") = true ∧ specFiles c "curl" = ["curl.spec".toList] ∧
      find "lookaside_cache_url" curlEntry = none ∧
      localPair nameAwk c "curl" =
        some ("https://gitlab.com/redhat/hummingbird/rpms # our lookaside".toList, "curl".toList) ∧
      konfluxPair plainJinja curlEntry =
        ("https://gitlab.com/redhat/hummingbird/rpms".toList, "curl".toList) ∧
      ¬ SamePair nameAwk plainJinja c "curl" curlEntry := by
  intro c
  have hlocal : localPair nameAwk c "curl" =
      some ("https://gitlab.com/redhat/hummingbird/rpms # our lookaside".toList, "curl".toList) := by
    decide +kernel
  have hkonflux : konfluxPair plainJinja curlEntry =
      ("https://gitlab.com/redhat/hummingbird/rpms".toList, "curl".toList) := rfl
  refine ⟨_, buildPacVariables_forkedCurl _, List.mem_singleton_self _, rfl, rfl, rfl, hlocal, hkonflux, ?_⟩
  rw [SamePair, hlocal, hkonflux]
  decide

/-- As the overrides are written, both builds fetch from one place. -/
theorem same_location_quoted :
    let c := forkedCurl quotedOverrides
    ∃ pac, buildPacVariables c "main" "hummingbird" .push = .ok pac ∧ ("curl".toList, curlEntry) ∈ pac.rpms ∧
      SamePair nameAwk plainJinja c "curl" curlEntry := by
  intro c
  have hshown : Shows nameAwk "curl" (overrideLines (c.file "ci/package-overrides.yaml"))
      "https://gitlab.com/redhat/hummingbird/rpms" := scan_shows_iff.mp (by decide +kernel)
  refine ⟨_, buildPacVariables_forkedCurl _, List.mem_singleton_self _,
    (same_location_iff nameAwk plainJinja (buildPacVariables_forkedCurl _) (List.mem_singleton_self _) rfl rfl
      rfl rfl rfl).mpr ⟨hshown, fun _ _ => rfl, ?_⟩⟩
  intro source _ hsource
  cases hsource

end HummingbirdRpms.LookasideLocation
