/-
# HummingbirdRpms.Gates — what an update asks before it changes anything.

The functions of `ci/dist_git.py` that read a spec file, a branch name, a version string or a Koji
build, and on which `update` decides whether an upstream version is taken: the dist tag of a branch,
which branch moves go forward, what a pre-release looks like, the version and release of a spec file
with `%autorelease` resolved, and the build that Koji has for it.

* **`callKojiWithRetry_ok`** — a value the retry loop returns comes from one of its first attempts, and
  every attempt before it failed in a way that is retried;
* **`checkKojiBuild_true`** — an accepted build is complete and was made from the expected commit.
-/
import Mathlib.Data.List.Sort
import HummingbirdRpms.Env
import HummingbirdRpms.Lib.Regex

namespace HummingbirdRpms

open Lib Lib.Text Lib.Regex Lib.Exec

/-! ## Branches and dist tags -/

section

variable [UnicodeTables]

/-- `^f(\d+)$` -/
def fedoraTagRe : Re := Re.seq [.lit "f", .group 1 (Re.some1 isDigit), .eot]

/-- The number of a dist tag of the form `fNN`. -/
def fedoraNumber (tag : Str) : Option Nat :=
  (matchAt fedoraTagRe tag 0).map fun m => intOfDigits (m.group 1)

/-- `get_highest_fedora_release` -/
def getHighestFedoraRelease (env : Env) : Option Str :=
  match env.fedoraReleases.filterMap fun r => fedoraNumber r.2 with
  | [] => none
  | n :: ns => some ("f".toList ++ ofNat (ns.foldl max n))

/-- `^c(\d+)s$` -/
def centosBranchRe : Re := Re.seq [.lit "c", .group 1 (Re.some1 isDigit), .lit "s", .eot]

/-- `get_dist_tag`, for a branch other than rawhide or when there is no numbered release. -/
def lookupDistTag (env : Env) (branch : Str) : Except Exn Str :=
  match env.fedoraReleases.lookup branch with
  | some tag => .ok tag
  | none =>
      match matchAt centosBranchRe branch 0 with
      | some m => .ok ("el".toList ++ m.group 1)
      | none => exit ("ERROR: Unknown branch '".toList ++ branch ++
          "'. Run 'update-releases' to refresh.".toList)

/-- `get_dist_tag` -/
def getDistTag (env : Env) (branch : Str) : Except Exn Str :=
  if branch = "rawhide".toList then
    match getHighestFedoraRelease env with
    | some highest => .ok highest
    | none => lookupDistTag env branch
  else lookupDistTag env branch

/-- `_is_forward_branch_move` -/
def isForwardBranchMove (env : Env) (branchChanged : Bool) (oldBranch newBranch : Str) :
    Except Exn Bool :=
  if !branchChanged then .ok false
  else if oldBranch = "rawhide".toList then .ok true
  else do
    let oldTag ← getDistTag env oldBranch
    let newTag ← getDistTag env newBranch
    match fedoraNumber oldTag, fedoraNumber newTag with
    | some old, some new => return decide (new > old)
    | _, _ => return false

/-! ## Pre-releases -/

/-- The alternatives of a list of lower-case words, under `re.IGNORECASE`. -/
def iwords (words : List String) : Re := Re.oneOf (words.map fun w => Re.ilit w)

/-- `PRERELEASE_PATTERNS` -/
def prereleasePatterns : List (Re × Str) :=
  [(Re.seq [.lit "~", iwords ["rc", "alpha", "beta", "pre", "dev", "snapshot", "git"],
      .many true isDigit], "tilde pre-release marker"),
    (Re.seq [.chr fun c => c = '-' || c = '.', iwords ["rc", "alpha", "beta", "pre", "dev", "snapshot"],
      .many true isDigit, .wordB isWord], "pre-release suffix"),
    (Re.seq [.wordB isWord, iwords ["git", "snapshot"], Re.times 6 (.chr isDigit),
      .many true isDigit], "development snapshot"),
    (Re.seq [iwords ["dev", "pre"], .wordB isWord], "development marker")]

/-- The description of the first pattern found in a text, with what it matched. -/
def prereleaseIn (text : Str) : Option Str :=
  prereleasePatterns.findSome? fun p =>
    (search p.1 text).map fun m => p.2 ++ " (".toList ++ m.whole text ++ ")".toList

/-- `is_prerelease`: the pattern that matched, if the version or the release has a marker. -/
def isPrerelease (version release : Str) : Option Str :=
  (prereleaseIn version).or ((prereleaseIn release).map (· ++ " in release".toList))

/-! ## Reading and resolving a spec file -/

/-- `parse_spec_version` -/
def parseSpecVersion (env : Env) (packageDir : Tree) : Except Exn (Str × Str) :=
  match packageDir.glob ".spec" with
  | [specFile] => do
      let rpmspec ← (env.rpmspec packageDir specFile).run
      failIf (rpmspec.returncode ≠ 0) (.raised .calledProcessError "rpmspec")
      match splitlines (strip rpmspec.stdout) with
      | version :: release :: _ => return (version, release)
      | _ => .error (.raised .valueError
          ("Unexpected rpmspec output for ".toList ++ specFile ++ ": ".toList ++ rpmspec.stdout))
  | _ => exit "ERROR: Expected exactly one .spec file"

/-- `AUTORELEASE_PATTERN`: `%\{?\??autorelease.*` -/
def autoreleaseRe : Re :=
  Re.seq [.lit "%", Re.opt (.lit "\x7b"), Re.opt (.lit "?"), .lit "autorelease",
    .many true (· != '\n')]

/-- `uses_autorelease` -/
def usesAutorelease (packageDir : Tree) : Except Exn Bool :=
  match packageDir.glob ".spec" with
  | [specFile] => do return (search autoreleaseRe (← readText packageDir specFile)).isSome
  | _ => .ok false

/-- `\.(fc|el)\d+$` -/
def distSuffixRe : Re :=
  Re.seq [.lit ".", .alt (.lit "fc") (.lit "el"), Re.some1 isDigit, .eot]

/-- `query_autorelease_from_mdapi` -/
def queryAutoreleaseFromMdapi (env : Env) (package branch : Str) : Except Exn (Option Str) := do
  return (← env.mdapi package branch).map (sub distSuffixRe fun _ => [])

/-- `%{?dist}` -/
def distMacro : Str := "%\x7b?dist\x7d"

/-- `replace_autorelease_in_spec`: the directory with `%autorelease` replaced in its first spec
file. -/
def replaceAutoreleaseInSpec (packageDir : Tree) (release : Str) (required : Bool) :
    Except Exn Tree :=
  match packageDir.glob ".spec" with
  | [] => .ok packageDir
  | specFile :: _ => do
      let specContent ← readText packageDir specFile
      let newContent := sub autoreleaseRe (fun _ => release ++ distMacro) specContent
      if newContent = specContent then
        failIf (required = true) (.raised .valueError
          ("Failed to replace %autorelease in ".toList ++ specFile))
        return packageDir
      else return packageDir.write specFile (.text newContent)

/-! ## Koji -/

/-- Whether `call_koji_with_retry` tries again after an exception, attempts permitting. -/
def shouldRetry : Exn → Bool
  | .raised cls msg =>
      (match cls with
        | .osError => true
        | .httpException =>
            ["502", "503", "504", "408"].any (contains ·.toList msg) ||
              contains "5" msg &&
                ["server", "gateway", "timeout"].any (contains ·.toList (lowerAscii msg))
        | _ => false) &&
      !(["401", "403", "404"].any (contains ·.toList msg))
  | .systemExit _ => false

/-- The attempts of `call_koji_with_retry` from one on, with `retries` left after it. -/
def callKojiFrom (method : Nat → KojiReply) : (retries attempt : Nat) → Except Exn Value
  | retries, attempt =>
      match method attempt with
      | .value result => .ok result
      | .raises e =>
          match retries with
          | 0 => .error e
          | retries + 1 =>
              if shouldRetry e then callKojiFrom method retries (attempt + 1) else .error e

/-- `call_koji_with_retry` -/
def callKojiWithRetry (method : Nat → KojiReply) : Except Exn Value := callKojiFrom method 2 0

/-- `_get_fallback_dist_tags` -/
def getFallbackDistTags (env : Env) (distTag : Str) : List Str :=
  match fedoraNumber distTag with
  | none => []
  | some current =>
      (((env.fedoraReleases.filterMap fun r => fedoraNumber r.2).filter (· ≠ current)).insertionSort
        (· ≥ ·)).map fun n => "f".toList ++ ofNat n

/-- The dist tag as Koji spells it: `f41` is `fc41`. -/
def kojiDistTag (distTag : Str) : Str :=
  match matchAt fedoraTagRe distTag 0 with
  | some m => "fc".toList ++ m.group 1
  | none => distTag

/-- The name, version and release of a build. -/
def kojiNvr (package version release distTag : Str) : Str :=
  package ++ "-".toList ++ version ++ "-".toList ++ release ++ ".".toList ++ kojiDistTag distTag

/-- The first build Koji has under one of the tags, `None` when it has none. -/
def findKojiBuild (env : Env) (package version release : Str) : List Str → Except Exn Value
  | [] => .ok .none
  | tag :: tags => do
      let build ← callKojiWithRetry (env.getBuild (kojiNvr package version release tag))
      if build.truthy then return build else findKojiBuild env package version release tags

/-- `source.split('#')[1]` -/
def commitOfSource : Value → Except Exn Str
  | .str source => .ok (partitionChar '#' ((partitionChar '#' source).2.getD [])).1
  | _ => .error (.raised .attributeError "split")

/-- `v == 1` -/
def isOne : Value → Bool
  | .num _ repr => repr = "1".toList || repr = "1.0".toList
  | .bool b => b
  | _ => false

/-- Whether a build is the complete one of the expected commit. -/
def kojiBuildMatches (build : Value) (expectedCommit : Str) : Except Exn Bool :=
  match build with
  | .dict entries => do
      let source := (entries.lookup "source".toList).getD (.str [])
      if !(← source.contains "#") then return false
      else
        let commit ← commitOfSource source
        return decide (commit = expectedCommit) && isOne (Value.entry "state" entries)
  | _ => .error (.raised .attributeError "get")

/-- `check_koji_build` -/
def checkKojiBuild (env : Env) (package version release expectedCommit distTag : Str) :
    Except Exn Bool := do
  let build ← findKojiBuild env package version release
    (distTag :: getFallbackDistTags env distTag)
  if build.truthy then kojiBuildMatches build expectedCommit else return false

end

/-! ## What the retry loop and the build check guarantee -/

theorem callKojiFrom_ok {method : Nat → KojiReply} {retries attempt : Nat} {v : Value}
    (h : callKojiFrom method retries attempt = .ok v) :
    ∃ k ≤ retries, method (attempt + k) = .value v ∧
      ∀ j < k, ∃ e, method (attempt + j) = .raises e ∧ shouldRetry e = true := by
  induction retries generalizing attempt with
  | zero =>
      unfold callKojiFrom at h
      cases hm : method attempt with
      | value result =>
          rw [hm] at h
          obtain rfl := Except.ok.inj h
          exact ⟨0, le_rfl, hm, fun j hj => absurd hj (Nat.not_lt_zero j)⟩
      | raises e => simp [hm] at h
  | succ retries ih =>
      unfold callKojiFrom at h
      cases hm : method attempt with
      | value result =>
          rw [hm] at h
          obtain rfl := Except.ok.inj h
          exact ⟨0, Nat.zero_le _, hm, fun j hj => absurd hj (Nat.not_lt_zero j)⟩
      | raises e =>
          simp only [hm] at h
          split at h
          · rename_i hretry
            obtain ⟨k, hk, hv, hbefore⟩ := ih h
            refine ⟨k + 1, Nat.succ_le_succ hk, ?_, ?_⟩
            · rw [← hv, Nat.add_right_comm, Nat.add_assoc]
            · intro j hj
              cases j with
              | zero => exact ⟨e, hm, hretry⟩
              | succ j =>
                  obtain ⟨e', he', hr'⟩ := hbefore j (by omega)
                  refine ⟨e', ?_, hr'⟩
                  rw [← he', Nat.add_right_comm, Nat.add_assoc]
          · exact absurd h (by simp)

/-- **`callKojiWithRetry_ok`** — a returned value comes from one of three attempts, and the ones before
it raised what is retried. -/
theorem callKojiWithRetry_ok {method : Nat → KojiReply} {v : Value}
    (h : callKojiWithRetry method = .ok v) :
    ∃ k < 3, method k = .value v ∧
      ∀ j < k, ∃ e, method j = .raises e ∧ shouldRetry e = true := by
  obtain ⟨k, hk, hv, hbefore⟩ := callKojiFrom_ok h
  simp only [Nat.zero_add] at hv hbefore
  exact ⟨k, by omega, hv, hbefore⟩

/-- A build that matches is complete, and its source names the expected commit. -/
theorem kojiBuildMatches_true {build : Value} {expectedCommit : Str}
    (h : kojiBuildMatches build expectedCommit = .ok true) :
    ∃ entries source, build = .dict entries ∧
      (entries.lookup "source".toList).getD (.str []) = source ∧
      commitOfSource source = .ok expectedCommit ∧ isOne (Value.entry "state" entries) = true := by
  cases build with
  | dict entries =>
      obtain ⟨hash, -, h⟩ := except_bind_ok_iff.mp h
      split at h
      · exact absurd h (by simp)
      · obtain ⟨commit, hcommit, h⟩ := except_bind_ok_iff.mp h
        have hboth := Except.ok.inj h
        simp only [Bool.and_eq_true, decide_eq_true_eq] at hboth
        obtain ⟨rfl, hstate⟩ := hboth
        exact ⟨entries, _, rfl, rfl, hcommit, hstate⟩
  | _ => exact absurd h (by simp [kojiBuildMatches])

section

variable [UnicodeTables] {env : Env} {package version release expectedCommit distTag : Str}

theorem findKojiBuild_ok {tags : List Str} {build : Value}
    (h : findKojiBuild env package version release tags = .ok build) (ht : build.truthy = true) :
    ∃ tag ∈ tags, callKojiWithRetry (env.getBuild (kojiNvr package version release tag)) = .ok build := by
  induction tags with
  | nil =>
      obtain rfl := Except.ok.inj h
      exact absurd ht (by simp [Value.truthy])
  | cons tag tags ih =>
      obtain ⟨b, hcall, h⟩ := except_bind_ok_iff.mp h
      split at h
      · obtain rfl := Except.ok.inj h
        exact ⟨tag, List.mem_cons_self, hcall⟩
      · obtain ⟨tag', hmem, hcall'⟩ := ih h
        exact ⟨tag', List.mem_cons_of_mem _ hmem, hcall'⟩

/-- **`checkKojiBuild_true`** — an accepted build exists under the dist tag or a fallback of it, is
complete, and its source names the expected commit. -/
theorem checkKojiBuild_true
    (h : checkKojiBuild env package version release expectedCommit distTag = .ok true) :
    ∃ tag ∈ distTag :: getFallbackDistTags env distTag, ∃ entries source,
      callKojiWithRetry (env.getBuild (kojiNvr package version release tag)) = .ok (.dict entries) ∧
        findKojiBuild env package version release (distTag :: getFallbackDistTags env distTag) =
          .ok (.dict entries) ∧
        (entries.lookup "source".toList).getD (.str []) = source ∧
        commitOfSource source = .ok expectedCommit ∧ isOne (Value.entry "state" entries) = true := by
  obtain ⟨build, hfind, h⟩ := except_bind_ok_iff.mp h
  split at h
  · rename_i htruthy
    obtain ⟨tag, htag, hcall⟩ := findKojiBuild_ok hfind htruthy
    obtain ⟨entries, source, rfl, hsource, hcommit, hstate⟩ := kojiBuildMatches_true h
    exact ⟨tag, htag, entries, source, hcall, hfind, hsource, hcommit, hstate⟩
  · exact absurd h (by simp)

end

end HummingbirdRpms
