/-
# HummingbirdRpms.DiffCache — the cache of analysed diffs (`ci/upstream_diff.py`).

`cmd_save` loads the whole cache file, changes the entry of one package and saves the whole file again.
The file is replaced by a rename, so a reader never sees half of it, but nothing keeps a second run from
loading it in between.

**`cache_keepsBoth_iff`** says for which interleavings of two runs on different packages the final cache
has what both of them saved.
-/
import HummingbirdRpms.Lib.Register
import HummingbirdRpms.Runtime

namespace HummingbirdRpms.DiffCache

open Lib Lib.Text Lib.Exec Lib.Register
open Value (Entries entry find setEntry)

/-- The content of `.cache/upstream-diff-analysis.json`. -/
structure Cache where
  packages : Str → Option Entries
  lastUpdated : Option Str

/-- `{'packages': {}}` -/
def Cache.empty : Cache := ⟨fun _ => none, none⟩

/-- `cache['packages'][pkg] = entry` -/
def Cache.put (cache : Cache) (pkg : Str) (e : Entries) : Cache :=
  { cache with packages := Function.update cache.packages pkg (some e) }

/-- The cache file: none where it is missing or is no JSON. -/
abbrev CacheFile := Option Cache

/-- `load_cache` -/
def loadCache (file : CacheFile) : Cache := file.getD .empty

/-- The file `save_cache` writes. -/
def saveCache (now : Str) (cache : Cache) : CacheFile := some { cache with lastUpdated := some now }

/-- What a run asks the outside. -/
structure SaveTools where
  /-- `load_package_metadata`, of which the run uses `sha` and `source`. -/
  loadPackageMetadata : Str → Except Exn (Option (Str × Str))
  /-- `get_upstream_prs`: each request with its id. -/
  getUpstreamPrs : (package source : Str) → Except Exn (List (Int × Value))
  /-- `datetime.now(timezone.utc)` -/
  now : Str

/-- The arguments of `save`. -/
inductive SaveArgs where
  | setJira (pkg key : Str)
  | setUpstreamPrs (pkg : Str) (ids : List Str)
  | full (package category changesSummary reasoning recommendation : Str) (hummingbirdMacros : Bool)
      (jiraIssue fedoraBug : Option Str) (upstreamPrs : List Str)

/-- The package a run is about. -/
def SaveArgs.package : SaveArgs → Str
  | .setJira pkg _ => pkg
  | .setUpstreamPrs pkg _ => pkg
  | .full package .. => package

/-- `int(x)` -/
def toInt (x : Str) : Except Exn Int :=
  match parseInt x with
  | some n => .ok n
  | none => .error (.raised .valueError ("invalid literal for int() with base 10: ".toList ++ reprStr x))

/-- `_resolve_upstream_prs` -/
def resolveUpstreamPrs (t : SaveTools) (package : Str) (prIds : List Int) : Except Exn (List Value) := do
  match ← t.loadPackageMetadata package with
  | none => return []
  | some (_, source) =>
      if source = [] then return []
      return ((← t.getUpstreamPrs package source).filter fun p => prIds.contains p.1).map (·.2)

/-- The requests of a run, resolved where there are any. -/
def relatedPrs (t : SaveTools) (package : Str) (prIds : List Int) : Except Exn (List Value) :=
  if prIds = [] then .ok [] else resolveUpstreamPrs t package prIds

/-- `HUMMINGBIRD_RECOMMENDATION_SUFFIX` -/
def recommendationSuffix : Str :=
  (" Revisit if Fedora packaging guidelines for derivative " ++
    "macros change, or refactor to avoid the hummingbird macro.").toList

/-- The recommendation that is saved. -/
def savedRecommendation (category recommendation : Str) (hummingbirdMacros : Bool) : Str :=
  let recommendation :=
    if category = "hummingbird-specific" ∧ hummingbirdMacros = true ∧
        contains (strip recommendationSuffix) recommendation = false then
      rstripBy (· = '.') recommendation ++ '.' :: recommendationSuffix
    else recommendation
  if category = "no-diff" ∧ recommendation = [] then "Consider unmarking as modified"
  else recommendation

/-- `entry[key]`, or what the entry before has under the key where it is `None` -/
def keepNone (value : Option Str) (existing : Entries) (key : Str) : Value :=
  match value with
  | some s => .str s
  | none => entry key existing

/-- The entry a run saves, for the one it has loaded of its package. -/
def savedEntry (t : SaveTools) (args : SaveArgs) (old : Option Entries) : Except Exn Entries :=
  match args with
  | .setJira _ key =>
      match old with
      | none => .error (.systemExit (.code 1))
      | some e => .ok (setEntry "jira_issue" (.str key) e)
  | .setUpstreamPrs pkg ids =>
      match old with
      | none => .error (.systemExit (.code 1))
      | some e => do
          let related ← relatedPrs t pkg (← ids.mapM toInt)
          return setEntry "upstream_prs" (.list related) e
  | .full package category changesSummary reasoning recommendation hummingbirdMacros jiraIssue fedoraBug
      upstreamPrs => do
      match ← t.loadPackageMetadata package with
      | none => .error (.systemExit (.code 1))
      | some (sha, _) => do
          let prIds ← ((upstreamPrs.map strip).filter (· ≠ [])).mapM toInt
          let related ← relatedPrs t package prIds
          let existing := old.getD []
          return [("analyzed_at", .str t.now), ("metadata_sha", .str sha), ("category", .str category),
            ("changes_summary", .str changesSummary), ("reasoning", .str reasoning),
            ("recommendation", .str (savedRecommendation category recommendation hummingbirdMacros)),
            ("hummingbird_macros", .bool hummingbirdMacros),
            ("jira_issue", keepNone jiraIssue existing "jira_issue"),
            ("fedora_bug", keepNone fedoraBug existing "fedora_bug"),
            ("upstream_prs", .list related)]

/-- `cmd_save`: the cache a run saves, for the one it has loaded. -/
def cmdSave (t : SaveTools) (args : SaveArgs) (cache : Cache) : Except Exn Cache := do
  return cache.put args.package (← savedEntry t args (cache.packages args.package))

/-- What a run replaces the file with, for the file it has loaded; nothing where it raises. -/
def savedFile (t : SaveTools) (args : SaveArgs) (file : CacheFile) : Option CacheFile :=
  (cmdSave t args (loadCache file)).toOption.map (saveCache t.now)

/-- The entry of a package in a cache file. -/
def entryOf (file : CacheFile) (pkg : Str) : Option Entries := (loadCache file).packages pkg

/-! ## A run is about one package -/

section

variable {cache : Cache}

theorem put_packages {pkg p : Str} {e : Entries} :
    (cache.put pkg e).packages p = if p = pkg then some e else cache.packages p := by
  unfold Cache.put
  by_cases h : p = pkg
  · subst h
    simp
  · simp [h]

/-- A run reads and changes no entry but that of its package. -/
theorem savedFile_localAt (t : SaveTools) (args : SaveArgs) :
    LocalAt entryOf args.package (savedFile t args) := by
  have hsaved : ∀ file, savedFile t args file =
      (savedEntry t args (entryOf file args.package)).toOption.map fun e =>
        saveCache t.now ((loadCache file).put args.package e) := by
    intro file
    rw [savedFile, cmdSave, entryOf]
    cases savedEntry t args ((loadCache file).packages args.package) <;> rfl
  constructor
  · intro file file' h p hp
    rw [hsaved] at h
    obtain ⟨new, -, rfl⟩ := Option.map_eq_some_iff.mp h
    show ((loadCache file).put args.package new).packages p = _
    rw [put_packages, if_neg hp]
    rfl
  · intro file file' h
    rw [hsaved, hsaved, h, Option.map_map, Option.map_map]
    congr 1
    funext new
    show ((loadCache file).put args.package new).packages args.package =
      ((loadCache file').put args.package new).packages args.package
    rw [put_packages, put_packages, if_pos rfl, if_pos rfl]

end

/-! ## Two runs -/

section

variable {t t' : SaveTools} {args args' : SaveArgs} {file : CacheFile} {schedule : List Bool}

/-- Two runs, the first of them under `true`. -/
def twoRuns (t t' : SaveTools) (args args' : SaveArgs) : Bool → CacheFile → Option CacheFile
  | true => savedFile t args
  | false => savedFile t' args'

/-- Their packages. -/
def packageOf (args args' : SaveArgs) : Bool → Str
  | true => args.package
  | false => args'.package

/-- The cache after an interleaving has what each run saves. -/
def NoUpdateLost (t t' : SaveTools) (args args' : SaveArgs) (file : CacheFile) (schedule : List Bool) :
    Prop :=
  KeepsBoth entryOf (packageOf args args') (twoRuns t t' args args') file
    (run (twoRuns t t' args args') schedule file)

/-- A run of the two saves nothing new: it fails, or the entry it saves is there. -/
def SavesNothingNew (t t' : SaveTools) (args args' : SaveArgs) (file : CacheFile) (i : Bool) : Prop :=
  AddsNothing entryOf (packageOf args args' i) (twoRuns t t' args args' i) file

/-- **`cache_keepsBoth_iff`** — two interleaved runs on different packages lose no update exactly when
one of them loads after the other has saved, or the one that saves last fails before it saves, or the
other one saves nothing new. -/
theorem cache_keepsBoth_iff (hpackages : args.package ≠ args'.package) (h : Interleaves schedule) :
    NoUpdateLost t t' args args' file schedule ↔
      Serial schedule ∨ twoRuns t t' args args' (savesLast schedule) file = none ∨
        SavesNothingNew t t' args args' file (!savesLast schedule) := by
  apply keepsBoth_iff ?_ hpackages h
  intro i
  cases i with
  | true => exact savedFile_localAt t args
  | false => exact savedFile_localAt t' args'

end

/-! ### Two issue keys -/

/-- A cache with the packages `curl` and `gcc`. -/
def analysedFile : CacheFile :=
  some ((Cache.empty.put "curl" [("category", .str "complex")]).put "gcc" [("category", .str "mixed")])

/-- Nothing outside is asked for an issue key. -/
def quietTools : SaveTools where
  loadPackageMetadata := fun _ => .ok none
  getUpstreamPrs := fun _ _ => .ok []
  now := "2026-01-01T00:00:00Z"

/-- Both runs load the cache before one of them saves it: the first key is lost. -/
theorem issue_key_lost :
    Interleaves [true, false, true, false] ∧
      ¬ NoUpdateLost quietTools quietTools (.setJira "curl" "HUM-1") (.setJira "gcc" "HUM-2") analysedFile
        [true, false, true, false] := by
  refine ⟨by decide, fun h => ?_⟩
  have hcurl := h true _ rfl
  have hkey := congrArg (Option.map fun e => (find "jira_issue" e).isSome) hcurl
  exact absurd hkey (by decide)

/-- One run after the other. -/
theorem cache_keepsBoth_iff_serial :
    NoUpdateLost quietTools quietTools (.setJira "curl" "HUM-1") (.setJira "gcc" "HUM-2") analysedFile
        [true, true, false, false] ↔
      Serial [true, true, false, false] ∨
        twoRuns quietTools quietTools (.setJira "curl" "HUM-1") (.setJira "gcc" "HUM-2")
          (savesLast [true, true, false, false]) analysedFile = none ∨
        SavesNothingNew quietTools quietTools (.setJira "curl" "HUM-1") (.setJira "gcc" "HUM-2") analysedFile
          (!savesLast [true, true, false, false]) :=
  cache_keepsBoth_iff (by decide) (List.Perm.refl _)

end HummingbirdRpms.DiffCache
