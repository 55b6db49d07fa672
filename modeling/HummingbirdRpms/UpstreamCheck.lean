/-
# HummingbirdRpms.UpstreamCheck — which upstream version a package is told to move to.

`check_package_version` of `ci/check_upstream_versions.py` asks release-monitoring.org or GitLab for the
versions of an upstream project and compares one of them with the package's own.  The response is a list
of stable versions and one version besides, and goes through four steps: a suffix is stripped, leading
versions without a published source are dropped, the rest is transformed to RPM's scheme, and a version
prefix is tracked.  What the list has left at its head is the verdict; where it has nothing left, the one
version besides is.

The response and the metadata are JSON values, and a program that takes them for what they are not raises
an exception; the model raises with it.

**`soundVerdict_iff`** — a version reported as an update is always newer and always within the tracked
prefix, and it is the image of a version that was not found unpublished exactly under `NoneReturns`: no
version that was dropped comes back as the version besides, or as a second entry of the list.
**`unpublished_reported`** is one that does.
-/
import HummingbirdRpms.Lib.RpmVersion
import HummingbirdRpms.UpstreamVersion
import HummingbirdRpms.TagPages

namespace HummingbirdRpms

open Lib Lib.Text Lib.Regex Lib.Exec

/-! ## What the check is told -/

/-- How a query for versions ends. -/
inductive QueryReply where
  | answers (data : Value)
  /-- A `ValueError`, a `ConnectionError` or a `URLError`, with its message. -/
  | refused (msg : Str)
  | raises (e : Exn)

/-- How a HEAD request ends. -/
inductive HeadReply where
  | found
  | httpError (code : Nat)
  | urlError
  /-- Any other exception. -/
  | raises (e : Exn)

/-- The programs and servers behind a check. -/
structure UpstreamTools where
  /-- `rpm.labelCompare` on two versions, where rpm's Python bindings are installed. -/
  labelCompare : Option (Str → Str → Ordering)
  /-- Two versions compared as `packaging.version.Version`; `none` when one of them is not a version. -/
  packaging : Str → Str → Option Ordering
  /-- release-monitoring.org on a distribution's package. -/
  anitya : (distro name : Str) → QueryReply
  anityaById : (projectId : Value) → QueryReply
  netlocOk : Str → Bool
  /-- GitLab's answers, in turn. -/
  replies : Nat → TagsReply
  /-- The answer to the n-th HEAD request of a check. -/
  head : Nat → (url : Str) → HeadReply

/-- `compare_versions` -/
def compareVersions (tools : UpstreamTools) (current upstream : Str) : Int :=
  let sign : Ordering → Int
    | .lt => 1
    | .eq => 0
    | .gt => -1
  match tools.labelCompare with
  | some labelCompare => sign (labelCompare current upstream)
  | none =>
      match tools.packaging current upstream with
      | some ordering => sign ordering
      | none => if current < upstream then 1 else if upstream = current then 0 else -1

/-- `VersionCheckResult`, as a check fills it in. -/
structure UpstreamCheckResult where
  package : Str
  currentVersion : Value
  upstreamVersion : Value
  hasUpdate : Bool
  error : Option Str := none
  anityaProjectId : Value := .none
  versionSource : Value := .none

/-- What a check reads off the metadata of a package. -/
structure CheckSettings where
  /-- `track_upstream`, unless it is `latest`. -/
  trackVersion : Option Value := none
  projectId : Value := .none
  versionSuffixStrip : Value := .none
  versionTransform : Value := .none
  sourceChecker : Value := .none
  versionSource : Value := .none
  tagStripPrefix : Value := .str "v"
  upstreamRepo : Value := .none
  /-- `metadata.get("track_upstream", "")`, as the source checker reads it. -/
  feature : Value := .str ""

def checkSettings (metadata : Option Value) : Except Exn CheckSettings :=
  match metadata.filter Value.truthy with
  | none => .ok {}
  | some metadata => do
      let entries ← metadata.asDict
      let trackUpstream := Value.entry "track_upstream" entries
      return {
        trackVersion := if trackUpstream.truthy && !trackUpstream.isStr "latest" then some trackUpstream else none
        projectId := Value.entry "release_monitoring_project_id" entries
        versionSuffixStrip := Value.entry "version_suffix_strip" entries
        versionTransform := Value.entry "upstream_version_transform" entries
        sourceChecker := Value.entry "source_availability_check" entries
        versionSource := Value.entry "version_source" entries
        tagStripPrefix := (Value.find "tag_strip_prefix" entries).getD (.str "v")
        upstreamRepo := Value.entry "upstream_repo" entries
        feature := (Value.find "track_upstream" entries).getD (.str "") }

/-! ## The query -/

/-- The normalized response to a query by project id. -/
def normalized : QueryReply → QueryReply
  | .answers data =>
      match data.asDict with
      | .ok entries => .answers (.dict
          [("stable_versions", (Value.find "stable_versions" entries).getD (.list [])),
            ("version", Value.entry "latest_version" entries)])
      | .error e => .raises e
  | reply => reply

/-- `isinstance(v, int)` -/
def Value.isInt : Value → Bool
  | .bool _ => true
  | .num _ r => (parseInt r).isSome
  | _ => false

section

variable [UnicodeTables]

/-- What a query for tags answers, as a response. -/
def tagsResponse : Except Exn VersionInfo → QueryReply
  | .ok info => .answers (.dict [("version", (info.version.map Value.str).getD .none),
      ("stable_versions", .list (info.stableVersions.map Value.str))])
  | .error e =>
      if e.isA .valueError || e.isA .unicodeDecodeError || e.isA .jsonDecodeError || e.isA .osError then
        .refused e.str
      else .raises e

/-- The GitLab branch of the query, cut after `fuel` rounds of its loop. -/
def gitlabVersions (env : Env) (tools : UpstreamTools) (package : Str) (s : CheckSettings) (fuel : Nat) :
    Option QueryReply :=
  if !s.upstreamRepo.truthy then
    some (.refused (package ++ ": version_source is 'gitlab_tags' but upstream_repo is not set in metadata".toList))
  else
    match s.upstreamRepo, s.tagStripPrefix with
    | .str repo, .str tagPrefix =>
        (queryTagPages env.environ tools.netlocOk tools.replies repo tagPrefix
          (s.trackVersion.map Value.format) fuel).2.map tagsResponse
    | .str _, _ => some (.raises (.raised .typeError "startswith"))
    | _, _ => some (.raises (.raised .attributeError "rstrip"))

/-- The query for upstream versions; `none` while GitLab keeps it going. -/
def queryVersions (env : Env) (tools : UpstreamTools) (package distro : Str) (s : CheckSettings) (fuel : Nat) :
    Option QueryReply :=
  if s.versionSource.isStr "gitlab_tags" then gitlabVersions env tools package s fuel
  else if s.projectId.isInt then some (normalized (tools.anityaById s.projectId))
  else
    match s.projectId with
    | .str name => some (tools.anitya distro name)
    | _ => some (tools.anitya distro package)

end

/-! ## The steps -/

/-- The versions of a response, as the steps change them: `anitya_data["stable_versions"]`, if it is
there, and `anitya_data["version"]`. -/
structure UpstreamVersions where
  stable : Option Value
  version : Value

/-- `anitya_data.get("stable_versions")` -/
def UpstreamVersions.stableOrNone (u : UpstreamVersions) : Value := u.stable.getD .none

/-- `v.removesuffix(suffix) if v else v`, where a suffix is configured -/
def stripSuffix (suffix v : Value) : Except Exn Value :=
  if !suffix.truthy || !v.truthy then .ok v
  else
    match v, suffix with
    | .str v, .str suffix => .ok (.str (if endsWith suffix v then v.take (v.length - suffix.length) else v))
    | .str _, _ => .error (.raised .typeError "removesuffix")
    | _, _ => .error (.raised .attributeError "removesuffix")

/-- The stable versions without the suffix. -/
def strippedStable (suffix : Value) (u : UpstreamVersions) : Except Exn (Option Value) :=
  if u.stableOrNone.truthy then do
    return some (.list (← (← u.stableOrNone.items).mapM (stripSuffix suffix)))
  else .ok u.stable

/-- The first step. -/
def stripSuffixes (suffix : Value) (u : UpstreamVersions) : Except Exn UpstreamVersions :=
  if !suffix.truthy then .ok u
  else do return ⟨← strippedStable suffix u, ← stripSuffix suffix u.version⟩

/-- What a probe for a version's source finds. -/
inductive Probe where
  | published
  | unpublished
  /-- A `URLError` other than status 404. -/
  | unreachable
  deriving DecidableEq

/-- `_openjdk_source_check`'s URL -/
def openjdkSourceUrl (feature version : Value) : Str :=
  "https://openjdk-sources.osci.io/openjdk".toList ++
    (if feature.isStr "latest" then [] else feature.format) ++ "/openjdk-".toList ++ version.format ++
    ".tar.xz".toList

/-- `check_source_available`, as the n-th probe of a check. -/
def checkSourceAvailable (tools : UpstreamTools) (s : CheckSettings) (n : Nat) (version : Value) :
    Except Exn Probe :=
  if !s.sourceChecker.hashable then .error (.raised .typeError "unhashable type")
  else if !s.sourceChecker.isStr "openjdk_osci" then
    .error (.raised .valueError ("unknown source_availability_check ".toList ++ s.sourceChecker.repr))
  else
    match tools.head n (openjdkSourceUrl s.feature version) with
    | .found => .ok .published
    | .httpError code => .ok (if code = 404 then .unpublished else .unreachable)
    | .urlError => .ok .unreachable
    | .raises e => .error e

/-- The probing loop: the leading versions that are found unpublished. -/
def leadingUnpublished (tools : UpstreamTools) (s : CheckSettings) : Nat → List Value → Except Exn (List Value)
  | _, [] => .ok []
  | n, v :: vs => do
      match ← checkSourceAvailable tools s n v with
      | .unpublished => return v :: (← leadingUnpublished tools s (n + 1) vs)
      | _ => return []

/-- `v[n:]` -/
def Value.sliceFrom (n : Nat) : Value → Except Exn Value
  | .list items => .ok (.list (items.drop n))
  | .str s => .ok (.str (s.drop n))
  | _ => .error (.raised .typeError "slice")

/-- The second step. -/
def dropUnpublished (tools : UpstreamTools) (s : CheckSettings) (u : UpstreamVersions) :
    Except Exn UpstreamVersions :=
  if !s.sourceChecker.truthy then .ok u
  else do
    let rawStable := u.stable.getD (.list [])
    let skipped ← leadingUnpublished tools s 0 (← rawStable.items)
    if skipped = [] then return u
    else
      let rest ← rawStable.sliceFrom skipped.length
      return ⟨some rest, if rest.truthy then u.version else .none⟩

/-- `v[0]` -/
def Value.first : Value → Except Exn Value
  | .list (v :: _) => .ok v
  | .str (c :: _) => .ok (.str [c])
  | .list [] => .error (.raised .valueError "index out of range")
  | .str [] => .error (.raised .valueError "index out of range")
  | .dict _ => .error (.raised .keyError "0")
  | _ => .error (.raised .typeError "not subscriptable")

/-- `_matches_track_version` -/
def matchesTrackVersion (trackVersion version : Value) : Except Exn Bool :=
  if version.same trackVersion then .ok true
  else
    match version, trackVersion with
    | .str version, .str trackVersion => .ok (startsWith (trackVersion ++ ".".toList) version)
    | .str _, _ => .error (.raised .typeError "unsupported operand")
    | _, _ => .error (.raised .attributeError "startswith")

/-- Whether a version is within the tracked prefix, where one is set. -/
def inTrack (s : CheckSettings) (version : Value) : Except Exn Bool :=
  match s.trackVersion with
  | none => .ok true
  | some trackVersion => matchesTrackVersion trackVersion version

/-- The stable versions within the tracked prefix. -/
def trackedStable (s : CheckSettings) (u : UpstreamVersions) : Except Exn Value :=
  let stable := u.stable.getD (.list [])
  if s.trackVersion.isSome && stable.truthy then do
    return .list (← filterE (inTrack s) (← stable.items))
  else .ok stable

/-- The fourth step, and the choice. -/
def chosenVersion (s : CheckSettings) (u : UpstreamVersions) : Except Exn Value := do
  let stable ← trackedStable s u
  if stable.truthy then stable.first
  else if u.version.truthy then do
    let tracked ← inTrack s u.version
    return if tracked then u.version else .none
  else return u.version

section

variable [UnicodeTables]

/-- `(\d+\.\d+\.\d+)(?:\.(\d+))?\+(\d+)`, to be matched in full -/
def openjdkRe : Re :=
  Re.seq [.group 1 (Re.seq [Re.some1 isDigit, .lit ".", Re.some1 isDigit, .lit ".", Re.some1 isDigit]),
    Re.opt (.cat (.lit ".") (.group 2 (Re.some1 isDigit))), .lit "+", .group 3 (Re.some1 isDigit), .eos]

/-- `_openjdk_to_rpm`; `none` for a `ValueError` -/
def openjdkToRpm (version : Str) : Option Str :=
  (matchAt openjdkRe version 0).map fun m =>
    let patch := if m.group 2 = [] then "0".toList else m.group 2
    m.group 1 ++ ".".toList ++ patch ++ ".".toList ++ ofNat (intOfDigits (m.group 3))

/-- `_apply_transform`, where a transform is configured -/
def applyTransform (transform version : Value) : Except Exn (Option Value) :=
  if !transform.truthy then .ok (some version)
  else if !transform.hashable then .error (.raised .typeError "unhashable type")
  else if !transform.isStr "openjdk_to_rpm" then .ok none
  else
    match version with
    | .str version => .ok ((openjdkToRpm version).map Value.str)
    | _ => .error (.raised .typeError "expected string")

/-- The images of a list of versions, those without one left out. -/
def transformEach (transform : Value) : List Value → Except Exn (List Value)
  | [] => .ok []
  | v :: vs => do
      let image ← applyTransform transform v
      let images ← transformEach transform vs
      return image.toList ++ images

/-- The images of the stable versions. -/
def transformedStable (transform : Value) (u : UpstreamVersions) : Except Exn (Option Value) :=
  if u.stableOrNone.truthy then do
    return some (.list (← transformEach transform (← u.stableOrNone.items)))
  else .ok u.stable

/-- The image of the version besides. -/
def transformedVersion (transform : Value) (u : UpstreamVersions) : Except Exn Value :=
  if u.version.truthy then do return (← applyTransform transform u.version).getD .none
  else .ok u.version

/-- The third step. -/
def transformVersions (transform : Value) (u : UpstreamVersions) : Except Exn UpstreamVersions :=
  if !transform.truthy then .ok u
  else do return ⟨← transformedStable transform u, ← transformedVersion transform u⟩

/-- `upstream_version`, from a response: what is not truthy is no version. -/
def upstreamVersion (tools : UpstreamTools) (s : CheckSettings) (data : Value.Entries) : Except Exn Value := do
  let u ← stripSuffixes s.versionSuffixStrip
    ⟨Value.find "stable_versions" data, Value.entry "version" data⟩
  let u ← dropUnpublished tools s u
  let u ← transformVersions s.versionTransform u
  chosenVersion s u

/-- The version of a package: its spec file's, or its metadata's. -/
def currentVersion (env : Env) (packageDir : Option Tree) (metadata : Option Value) : Except Exn Value := do
  let version ←
    match packageDir with
    | some dir => (parseSpecVersionRelease env dir).map fun parsed => (parsed.map (·.1)).getD []
    | none => .ok []
  if version ≠ [] then return .str version
  else
    match metadata with
    | none => .ok .none
    | some metadata => metadata.get "version"

/-- `check_package_version`, on the directory of a package and what its metadata file holds; `none` while
GitLab keeps the query going. -/
def checkPackageVersion (env : Env) (tools : UpstreamTools) (packageDir : Option Tree)
    (metadata : Option Value) (package distro : Str) (fuel : Nat) :
    Option (Except Exn UpstreamCheckResult) :=
  match currentVersion env packageDir metadata, checkSettings metadata with
  | .error e, _ => some (.error e)
  | .ok current, settings =>
      if !current.truthy then
        some (.ok ⟨package, .str "unknown", .none, false, some "Could not determine current version", .none,
          .none⟩)
      else
        match settings with
        | .error e => some (.error e)
        | .ok s =>
            (queryVersions env tools package distro s fuel).map fun reply =>
              match reply with
              | .raises e => .error e
              | .refused msg => .ok ⟨package, current, .none, false, some msg, .none, .none⟩
              | .answers data => do
                  let data ← data.asDict
                  let upstream ← upstreamVersion tools s data
                  if !upstream.truthy then
                    return ⟨package, current, .none, false,
                      some ("No upstream version reported by ".toList ++
                        (if s.versionSource.isStr "gitlab_tags" then "GitLab tags".toList else "Anitya".toList)),
                      Value.entry "id" data, s.versionSource⟩
                  else
                    let comparison := compareVersions tools (← current.asStr) (← upstream.asStr)
                    return ⟨package, current, upstream, 0 < comparison, none, Value.entry "id" data,
                      s.versionSource⟩

end

/-! ## What the steps do to the versions -/

/-- The versions that a response lists as stable. -/
def versionsIn (stable : Option Value) : List Value :=
  if (stable.getD .none).truthy then ((stable.getD .none).items.toOption).getD [] else []

/-- The leading versions that a check finds unpublished, once a suffix has been stripped. -/
def foundUnpublished (tools : UpstreamTools) (s : CheckSettings) (u : UpstreamVersions) : List Value :=
  if s.sourceChecker.truthy then ((leadingUnpublished tools s 0 (versionsIn u.stable)).toOption).getD [] else []

section

variable {tools : UpstreamTools} {s : CheckSettings} {u u' : UpstreamVersions} {vs ws : List Value}
  {v w suffix transform : Value}

@[simp] theorem versionsIn_list : versionsIn (some (.list vs)) = vs := by
  cases vs with
  | nil => rfl
  | cons v vs => rfl

theorem versionsIn_of_not_truthy (h : u.stableOrNone.truthy = false) : versionsIn u.stable = [] := by
  rw [versionsIn, show (u.stable.getD .none).truthy = false from h]
  rfl

theorem versionsIn_of_items (htruthy : u.stableOrNone.truthy = true) (h : u.stableOrNone.items = .ok vs) :
    versionsIn u.stable = vs := by
  rw [versionsIn, show (u.stable.getD .none).truthy = true from htruthy,
    show (u.stable.getD .none).items = .ok vs from h]
  rfl

/-- Running over the list of a response runs over its stable versions. -/
theorem items_getD (h : (u.stable.getD (.list [])).items = .ok vs) : versionsIn u.stable = vs := by
  cases hstable : u.stable with
  | none =>
      rw [hstable] at h
      exact Except.ok.inj h
  | some v =>
      rw [hstable] at h
      cases htruthy : v.truthy with
      | true =>
          rw [versionsIn, show (Option.getD (some v) Value.none).truthy = true from htruthy]
          rw [show (Option.getD (some v) Value.none).items = .ok vs from h]
          rfl
      | false =>
          rw [versionsIn, show (Option.getD (some v) Value.none).truthy = false from htruthy]
          cases v with
          | list items =>
              cases items with
              | nil => exact Except.ok.inj h
              | cons v items => exact absurd htruthy (by simp [Value.truthy])
          | str s =>
              cases s with
              | nil => exact Except.ok.inj h
              | cons c s => exact absurd htruthy (by simp [Value.truthy])
          | dict entries =>
              cases entries with
              | nil => exact Except.ok.inj h
              | cons e entries => exact absurd htruthy (by simp [Value.truthy])
          | none => exact absurd h (by simp [Value.items])
          | bool b => exact absurd h (by simp [Value.items])
          | num zero r => exact absurd h (by simp [Value.items])

theorem mapM_stripSuffix_of_not_truthy (h : suffix.truthy = false) :
    vs.mapM (stripSuffix suffix) = .ok vs := by
  induction vs with
  | nil => rfl
  | cons v vs ih =>
      have hv : stripSuffix suffix v = .ok v := by simp [stripSuffix, h]
      rw [List.mapM_cons, hv, ih]
      rfl

/-- The first step strips each version. -/
theorem stripSuffixes_ok (h : stripSuffixes suffix u = .ok u') :
    (versionsIn u.stable).mapM (stripSuffix suffix) = .ok (versionsIn u'.stable) ∧
      stripSuffix suffix u.version = .ok u'.version := by
  unfold stripSuffixes at h
  split at h
  · rename_i hsuffix
    obtain rfl := Except.ok.inj h
    have hfalse : suffix.truthy = false := by simpa using hsuffix
    exact ⟨mapM_stripSuffix_of_not_truthy hfalse, by simp [stripSuffix, hfalse]⟩
  · obtain ⟨stable, hstable, h⟩ := except_bind_ok_iff.mp h
    obtain ⟨version, hversion, h⟩ := except_bind_ok_iff.mp h
    obtain rfl := Except.ok.inj h
    refine ⟨?_, hversion⟩
    unfold strippedStable at hstable
    split at hstable
    · rename_i htruthy
      obtain ⟨items, hitems, hstable⟩ := except_bind_ok_iff.mp hstable
      obtain ⟨stripped, hstripped, hret⟩ := except_bind_ok_iff.mp hstable
      obtain rfl := Except.ok.inj hret
      rw [versionsIn_of_items htruthy hitems, versionsIn_list]
      exact hstripped
    · rename_i htruthy
      have hfalse : u.stableOrNone.truthy = false := by simpa using htruthy
      obtain rfl := Except.ok.inj hstable
      rw [versionsIn_of_not_truthy hfalse]
      rfl

/-- What is found unpublished comes first. -/
theorem leadingUnpublished_prefix {n : Nat} (h : leadingUnpublished tools s n vs = .ok ws) : ws <+: vs := by
  induction vs generalizing n ws with
  | nil =>
      obtain rfl := Except.ok.inj h
      exact List.prefix_refl _
  | cons v vs ih =>
      obtain ⟨probe, -, h⟩ := except_bind_ok_iff.mp h
      cases probe with
      | unpublished =>
          obtain ⟨rest, hrest, hret⟩ := except_bind_ok_iff.mp h
          obtain rfl := Except.ok.inj hret
          exact List.cons_prefix_cons.mpr ⟨rfl, ih hrest⟩
      | published =>
          obtain rfl := Except.ok.inj h
          exact List.nil_prefix
      | unreachable =>
          obtain rfl := Except.ok.inj h
          exact List.nil_prefix

theorem versionsIn_sliceFrom {n : Nat} (h : v.sliceFrom n = .ok w) (hitems : v.items = .ok vs) :
    versionsIn (some w) = vs.drop n ∧ (w.truthy = true ↔ vs.drop n ≠ []) := by
  cases v with
  | list items =>
      obtain rfl := Except.ok.inj h
      obtain rfl := Except.ok.inj hitems
      refine ⟨versionsIn_list, ?_⟩
      simp [Value.truthy]
  | str s =>
      obtain rfl := Except.ok.inj h
      obtain rfl := Except.ok.inj hitems
      rw [← List.map_drop]
      refine ⟨?_, by simp [Value.truthy]⟩
      cases s.drop n with
      | nil => rfl
      | cons c s => rfl
  | none => exact absurd h (by simp [Value.sliceFrom])
  | bool b => exact absurd h (by simp [Value.sliceFrom])
  | num zero r => exact absurd h (by simp [Value.sliceFrom])
  | dict entries => exact absurd h (by simp [Value.sliceFrom])

/-- The second step drops what was found unpublished, and the version besides when nothing is left. -/
theorem dropUnpublished_ok (h : dropUnpublished tools s u = .ok u') :
    versionsIn u.stable = foundUnpublished tools s u ++ versionsIn u'.stable ∧
      u'.version = if foundUnpublished tools s u ≠ [] ∧ versionsIn u'.stable = [] then .none else u.version := by
  unfold dropUnpublished at h
  split at h
  · rename_i hchecker
    have hfalse : s.sourceChecker.truthy = false := by simpa using hchecker
    obtain rfl := Except.ok.inj h
    have hnone : foundUnpublished tools s u = [] := by rw [foundUnpublished, hfalse]; rfl
    rw [hnone]
    exact ⟨rfl, by simp⟩
  · rename_i hchecker
    have htrue : s.sourceChecker.truthy = true := by simpa using hchecker
    obtain ⟨vs, hitems, h⟩ := except_bind_ok_iff.mp h
    obtain ⟨skipped, hskipped, h⟩ := except_bind_ok_iff.mp h
    have hvs := items_getD hitems
    have hfound : foundUnpublished tools s u = skipped := by
      rw [foundUnpublished, htrue, hvs, hskipped]
      rfl
    rw [hfound, hvs]
    split at h
    · rename_i hnone
      obtain rfl := Except.ok.inj h
      rw [hnone, hvs]
      exact ⟨rfl, by simp⟩
    · rename_i hsome
      obtain ⟨rest, hrest, h⟩ := except_bind_ok_iff.mp h
      obtain rfl := Except.ok.inj h
      obtain ⟨hversions, htruthy⟩ := versionsIn_sliceFrom hrest hitems
      rw [hversions]
      refine ⟨?_, ?_⟩
      · obtain ⟨rest', rfl⟩ := leadingUnpublished_prefix hskipped
        rw [List.drop_left]
      · by_cases hleft : vs.drop skipped.length = []
        · have hfalse : rest.truthy = false := by
            cases hrt : rest.truthy with
            | false => rfl
            | true => exact absurd hleft (htruthy.mp hrt)
          simp [hleft, hfalse, hsome]
        · have htrue' : rest.truthy = true := htruthy.mpr hleft
          simp [hleft, htrue']

theorem filterE_inTrack_of_none (h : s.trackVersion = none) : filterE (inTrack s) vs = .ok vs := by
  induction vs with
  | nil => rfl
  | cons v vs ih =>
      have hv : inTrack s v = .ok true := by rw [inTrack, h]
      rw [filterE, hv, ih]
      rfl

theorem versionsIn_of_first (htruthy : v.truthy = true) (h : v.first = .ok w) :
    ∃ rest, versionsIn (some v) = w :: rest := by
  cases v with
  | list items =>
      cases items with
      | nil => exact absurd htruthy (by simp [Value.truthy])
      | cons v items =>
          obtain rfl := Except.ok.inj h
          exact ⟨items, rfl⟩
  | str s =>
      cases s with
      | nil => exact absurd htruthy (by simp [Value.truthy])
      | cons c s =>
          obtain rfl := Except.ok.inj h
          exact ⟨_, rfl⟩
  | none => exact absurd h (by simp [Value.first])
  | bool b => exact absurd h (by simp [Value.first])
  | num zero r => exact absurd h (by simp [Value.first])
  | dict entries => exact absurd h (by simp [Value.first])

/-- The fourth step: the versions within the tracked prefix, of which the first is chosen; without one, the
version besides, if it is within the prefix. -/
theorem chosenVersion_ok (h : chosenVersion s u = .ok w) :
    ∃ tracked, filterE (inTrack s) (versionsIn u.stable) = .ok tracked ∧
      ((∃ rest, tracked = w :: rest) ∨
        tracked = [] ∧ ((u.version.truthy = false ∧ w = u.version) ∨
          u.version.truthy = true ∧ ∃ b, inTrack s u.version = .ok b ∧ w = if b then u.version else .none)) := by
  obtain ⟨stable, hstable, h⟩ := except_bind_ok_iff.mp h
  have hfallback : stable.truthy = false → (u.version.truthy = false ∧ w = u.version) ∨
      u.version.truthy = true ∧ ∃ b, inTrack s u.version = .ok b ∧ w = if b then u.version else .none := by
    intro hfalse
    rw [hfalse, if_neg (by simp)] at h
    split at h
    · rename_i htruthy
      obtain ⟨b, hb, hret⟩ := except_bind_ok_iff.mp h
      exact Or.inr ⟨htruthy, b, hb, (Except.ok.inj hret).symm⟩
    · rename_i htruthy
      exact Or.inl ⟨by simpa using htruthy, (Except.ok.inj h).symm⟩
  unfold trackedStable at hstable
  dsimp only at hstable
  split at hstable
  · -- the list is filtered
    obtain ⟨items, hitems, hstable⟩ := except_bind_ok_iff.mp hstable
    obtain ⟨tracked, htracked, hret⟩ := except_bind_ok_iff.mp hstable
    obtain rfl := Except.ok.inj hret
    refine ⟨tracked, by rw [items_getD hitems]; exact htracked, ?_⟩
    cases tracked with
    | nil => exact Or.inr ⟨rfl, hfallback rfl⟩
    | cons v rest =>
        obtain rfl := Except.ok.inj h
        exact Or.inl ⟨rest, rfl⟩
  · rename_i hcond
    obtain rfl := Except.ok.inj hstable
    cases htruthy : (u.stable.getD (.list [])).truthy with
    | false =>
        have hnone : versionsIn u.stable = [] := by
          cases hstable : u.stable with
          | none => rfl
          | some v =>
              rw [hstable] at htruthy
              rw [versionsIn, show (Option.getD (some v) Value.none).truthy = false from htruthy]
              rfl
        rw [hnone]
        exact ⟨[], rfl, Or.inr ⟨rfl, hfallback htruthy⟩⟩
    | true =>
        -- no prefix is tracked
        have htrack : s.trackVersion = none := by simpa [htruthy] using hcond
        rw [htruthy, if_pos rfl] at h
        refine ⟨versionsIn u.stable, filterE_inTrack_of_none htrack, Or.inl ?_⟩
        cases hstable : u.stable with
        | none =>
            rw [hstable] at htruthy
            exact absurd htruthy (by simp [Value.truthy])
        | some v =>
            rw [hstable] at htruthy h
            exact versionsIn_of_first htruthy h

variable [UnicodeTables]

theorem applyTransform_of_not_truthy (h : transform.truthy = false) : applyTransform transform v = .ok (some v) := by
  simp [applyTransform, h]

theorem transformEach_of_not_truthy (h : transform.truthy = false) : transformEach transform vs = .ok vs := by
  induction vs with
  | nil => rfl
  | cons v vs ih =>
      rw [transformEach, applyTransform_of_not_truthy h, ih]
      rfl

/-- The third step takes each version to its image, if it has one. -/
theorem transformVersions_ok (h : transformVersions transform u = .ok u') :
    transformEach transform (versionsIn u.stable) = .ok (versionsIn u'.stable) ∧
      ((u.version.truthy = false ∧ u'.version = u.version) ∨
        u.version.truthy = true ∧
          ∃ image, applyTransform transform u.version = .ok image ∧ u'.version = image.getD .none) := by
  unfold transformVersions at h
  split at h
  · rename_i htransform
    have hfalse : transform.truthy = false := by simpa using htransform
    obtain rfl := Except.ok.inj h
    refine ⟨transformEach_of_not_truthy hfalse, ?_⟩
    cases htruthy : u.version.truthy with
    | false => exact Or.inl ⟨rfl, rfl⟩
    | true => exact Or.inr ⟨rfl, _, applyTransform_of_not_truthy hfalse, rfl⟩
  · obtain ⟨stable, hstable, h⟩ := except_bind_ok_iff.mp h
    obtain ⟨version, hversion, h⟩ := except_bind_ok_iff.mp h
    obtain rfl := Except.ok.inj h
    refine ⟨?_, ?_⟩
    · unfold transformedStable at hstable
      split at hstable
      · rename_i htruthy
        obtain ⟨items, hitems, hstable⟩ := except_bind_ok_iff.mp hstable
        obtain ⟨images, himages, hret⟩ := except_bind_ok_iff.mp hstable
        obtain rfl := Except.ok.inj hret
        rw [versionsIn_of_items htruthy hitems, versionsIn_list]
        exact himages
      · rename_i htruthy
        have hfalse : u.stableOrNone.truthy = false := by simpa using htruthy
        obtain rfl := Except.ok.inj hstable
        rw [versionsIn_of_not_truthy hfalse]
        rfl
    · unfold transformedVersion at hversion
      split at hversion
      · rename_i htruthy
        obtain ⟨image, himage, hret⟩ := except_bind_ok_iff.mp hversion
        exact Or.inr ⟨htruthy, image, himage, (Except.ok.inj hret).symm⟩
      · rename_i htruthy
        exact Or.inl ⟨by simpa using htruthy, (Except.ok.inj hversion).symm⟩

/-- What has an image that is not empty is not empty. -/
theorem truthy_of_applyTransform {t : Str} (h : applyTransform transform v = .ok (some (.str t))) (ht : t ≠ []) :
    v.truthy = true := by
  unfold applyTransform at h
  split at h
  · obtain rfl := Option.some.inj (Except.ok.inj h)
    simpa [Value.truthy] using ht
  · split at h
    · exact absurd h (by simp)
    · split at h
      · exact absurd h (by simp)
      · cases v with
        | str version =>
            cases version with
            | nil => exact absurd (Except.ok.inj h) (by simp [openjdkToRpm, show matchAt openjdkRe [] 0 = none from rfl])
            | cons c version => rfl
        | none => exact absurd h (by simp)
        | bool b => exact absurd h (by simp)
        | num zero r => exact absurd h (by simp)
        | list items => exact absurd h (by simp)
        | dict entries => exact absurd h (by simp)

/-! ## The first version that passes -/

/-- `w` is the image of `v`, and within the tracked prefix. -/
def Passes (s : CheckSettings) (v w : Value) : Prop :=
  applyTransform s.versionTransform v = .ok (some w) ∧ inTrack s w = .ok true

/-- `w` is the image of the first version of a list that passes. -/
def FirstPassing (s : CheckSettings) : List Value → Value → Prop
  | [], _ => False
  | v :: vs, w => Passes s v w ∨ (∀ w', ¬ Passes s v w') ∧ FirstPassing s vs w

theorem exists_firstPassing (hv : v ∈ vs) (h : Passes s v w) : ∃ w', FirstPassing s vs w' := by
  induction vs with
  | nil => exact absurd hv List.not_mem_nil
  | cons v' vs ih =>
      by_cases hfirst : ∃ w', Passes s v' w'
      · exact hfirst.imp fun w' h => Or.inl h
      · push Not at hfirst
        rcases List.mem_cons.mp hv with rfl | hv
        · exact absurd h (hfirst w)
        · exact (ih hv).imp fun w' h => Or.inr ⟨hfirst, h⟩

theorem exists_of_firstPassing (h : FirstPassing s vs w) : ∃ v ∈ vs, Passes s v w := by
  induction vs with
  | nil => exact absurd h id
  | cons v vs ih =>
      rcases h with h | ⟨-, h⟩
      · exact ⟨v, List.mem_cons_self, h⟩
      · exact (ih h).imp fun v' h => ⟨List.mem_cons_of_mem v h.1, h.2⟩

/-- The head of the list after the third and the fourth step. -/
theorem head?_tracked_iff {images tracked : List Value}
    (himages : transformEach s.versionTransform vs = .ok images)
    (htracked : filterE (inTrack s) images = .ok tracked) :
    tracked.head? = some w ↔ FirstPassing s vs w := by
  induction vs generalizing images tracked with
  | nil =>
      obtain rfl := Except.ok.inj himages
      obtain rfl := Except.ok.inj htracked
      exact iff_of_false (by simp) id
  | cons v vs ih =>
      obtain ⟨image, himage, himages⟩ := except_bind_ok_iff.mp himages
      obtain ⟨images', himages', hret⟩ := except_bind_ok_iff.mp himages
      obtain rfl := Except.ok.inj hret
      rw [FirstPassing]
      cases image with
      | none =>
          have hnone : ∀ w', ¬ Passes s v w' := by
            rintro w' ⟨h, -⟩
            exact absurd (himage.symm.trans h) (by simp)
          rw [ih himages' htracked]
          exact ⟨fun h => Or.inr ⟨hnone, h⟩, fun h => (h.resolve_left (hnone w)).2⟩
      | some x =>
          have hpasses : ∀ w', Passes s v w' ↔ w' = x ∧ inTrack s x = .ok true := by
            intro w'
            rw [Passes, himage]
            constructor
            · rintro ⟨h, htrack⟩
              obtain rfl := Option.some.inj (Except.ok.inj h)
              exact ⟨rfl, htrack⟩
            · rintro ⟨rfl, htrack⟩
              exact ⟨rfl, htrack⟩
          obtain ⟨keep, hkeep, htracked⟩ := except_bind_ok_iff.mp htracked
          obtain ⟨kept, hkept, hret⟩ := except_bind_ok_iff.mp htracked
          obtain rfl := Except.ok.inj hret
          simp only [hpasses, hkeep]
          cases keep with
          | true =>
              rw [if_pos rfl, List.head?_cons]
              constructor
              · intro h
                exact Or.inl ⟨(Option.some.inj h).symm, rfl⟩
              · rintro (⟨rfl, -⟩ | ⟨hnot, -⟩)
                · rfl
                · exact absurd ⟨rfl, rfl⟩ (hnot x)
          | false =>
              rw [if_neg (by simp), ih himages' hkept]
              simp

end

/-! ## The verdict -/

section

variable [UnicodeTables] {env : Env} {tools : UpstreamTools} {packageDir : Option Tree} {metadata : Option Value}
  {package distro : Str} {fuel : Nat} {s : CheckSettings} {data : Value.Entries} {current upstream : Value}
  {result : UpstreamCheckResult} {u u₁ u₂ u₃ : UpstreamVersions} {v w x : Value} {t : Str}

/-- The versions of a response, before the first step. -/
def responseVersions (data : Value.Entries) : UpstreamVersions :=
  ⟨Value.find "stable_versions" data, Value.entry "version" data⟩

/-- The upstream versions that a response reports. -/
def upstreamVersions (data : Value.Entries) : List Value :=
  versionsIn (responseVersions data).stable ++ [(responseVersions data).version]

/-- The image of an upstream version under suffix and transform. -/
def imageOf (s : CheckSettings) (v : Value) : Except Exn (Option Value) := do
  applyTransform s.versionTransform (← stripSuffix s.versionSuffixStrip v)

/-- A check has probed for an upstream version and found it unpublished. -/
def ReportedUnpublished (tools : UpstreamTools) (s : CheckSettings) (data : Value.Entries) (v : Value) : Prop :=
  ∃ u x, stripSuffixes s.versionSuffixStrip (responseVersions data) = .ok u ∧
    stripSuffix s.versionSuffixStrip v = .ok x ∧ x ∈ foundUnpublished tools s u

/-- What a version reported as an update should be. -/
structure SoundVerdict (tools : UpstreamTools) (s : CheckSettings) (data : Value.Entries)
    (result : UpstreamCheckResult) : Prop where
  newer : ∃ current upstream, result.currentVersion = .str current ∧ result.upstreamVersion = .str upstream ∧
    0 < compareVersions tools current upstream
  tracked : ∀ trackVersion, s.trackVersion = some trackVersion →
    ∃ tracked upstream, trackVersion = .str tracked ∧ result.upstreamVersion = .str upstream ∧
      (upstream = tracked ∨ tracked ++ ".".toList <+: upstream)
  published : ∃ v ∈ upstreamVersions data, imageOf s v = .ok (some result.upstreamVersion) ∧
    ¬ ReportedUnpublished tools s data v

/-- A check that reports an update has had a response, and its verdict is sound. -/
def SoundUpdate (env : Env) (tools : UpstreamTools) (metadata : Option Value) (package distro : Str)
    (fuel : Nat) (result : UpstreamCheckResult) : Prop :=
  result.hasUpdate = true → ∃ s data, checkSettings metadata = .ok s ∧
    queryVersions env tools package distro s fuel = some (.answers (.dict data)) ∧
    SoundVerdict tools s data result

/-- What the steps have left after those found unpublished. -/
def remainingVersions (tools : UpstreamTools) (s : CheckSettings) (u : UpstreamVersions) : List Value :=
  (versionsIn u.stable).drop (foundUnpublished tools s u).length

/-- No version that was found unpublished comes back: not as a second entry that is the first of the rest to
pass, unless another version has the same image; and not as the version besides, when something is left
and nothing of it passes. -/
structure NoneReturns (tools : UpstreamTools) (s : CheckSettings) (u : UpstreamVersions) (current : Str) :
    Prop where
  listed : ∀ t, FirstPassing s (remainingVersions tools s u) (.str t) → t ≠ [] →
    0 < compareVersions tools current t →
    ∃ x, (x ∈ remainingVersions tools s u ∨ x = u.version) ∧ x ∉ foundUnpublished tools s u ∧
      applyTransform s.versionTransform x = .ok (some (.str t))
  besides : ∀ t, remainingVersions tools s u ≠ [] →
    (∀ w, ¬ FirstPassing s (remainingVersions tools s u) w) → Passes s u.version (.str t) → t ≠ [] →
    0 < compareVersions tools current t → u.version ∉ foundUnpublished tools s u

/-- The steps, as they are taken. -/
structure Steps4 (tools : UpstreamTools) (s : CheckSettings) (data : Value.Entries) (upstream : Value)
    (u₁ u₂ u₃ : UpstreamVersions) : Prop where
  strip : stripSuffixes s.versionSuffixStrip (responseVersions data) = .ok u₁
  drop : dropUnpublished tools s u₁ = .ok u₂
  transform : transformVersions s.versionTransform u₂ = .ok u₃
  chosen : chosenVersion s u₃ = .ok upstream

theorem upstreamVersion_ok (h : upstreamVersion tools s data = .ok upstream) :
    ∃ u₁ u₂ u₃, Steps4 tools s data upstream u₁ u₂ u₃ := by
  obtain ⟨u₁, h₁, h⟩ := except_bind_ok_iff.mp h
  obtain ⟨u₂, h₂, h⟩ := except_bind_ok_iff.mp h
  obtain ⟨u₃, h₃, h₄⟩ := except_bind_ok_iff.mp h
  exact ⟨u₁, u₂, u₃, h₁, h₂, h₃, h₄⟩

namespace Steps4

variable (h : Steps4 tools s data upstream u₁ u₂ u₃)
include h

theorem remaining_eq : remainingVersions tools s u₁ = versionsIn u₂.stable := by
  rw [remainingVersions, (dropUnpublished_ok h.drop).1, List.drop_left]

/-- The verdict is the image of the first version of the rest that passes; without one it is that of the
version besides, if it passes and something is left or nothing was dropped. -/
theorem upstream_iff (ht : t ≠ []) :
    upstream = .str t ↔ FirstPassing s (remainingVersions tools s u₁) (.str t) ∨
      (∀ w, ¬ FirstPassing s (remainingVersions tools s u₁) w) ∧
        (foundUnpublished tools s u₁ = [] ∨ remainingVersions tools s u₁ ≠ []) ∧ Passes s u₁.version (.str t) := by
  rw [h.remaining_eq]
  obtain ⟨-, hversion⟩ := dropUnpublished_ok h.drop
  obtain ⟨himages, himage⟩ := transformVersions_ok h.transform
  obtain ⟨tracked, htracked, hchosen⟩ := chosenVersion_ok h.chosen
  have hhead : ∀ w, tracked.head? = some w ↔ FirstPassing s (versionsIn u₂.stable) w := fun w =>
    head?_tracked_iff himages htracked
  rcases hchosen with ⟨rest, rfl⟩ | ⟨rfl, hchosen⟩
  · have hfirst := (hhead upstream).mp rfl
    constructor
    · rintro rfl
      exact Or.inl hfirst
    · rintro (h' | ⟨hnone, -⟩)
      · exact Option.some.inj ((hhead (.str t)).mpr h')
      · exact absurd hfirst (hnone upstream)
  · have hnone : ∀ w, ¬ FirstPassing s (versionsIn u₂.stable) w := by
      intro w hw
      exact absurd ((hhead w).mpr hw) (by simp)
    have hkept : (foundUnpublished tools s u₁ = [] ∨ versionsIn u₂.stable ≠ []) ↔
        ¬ (foundUnpublished tools s u₁ ≠ [] ∧ versionsIn u₂.stable = []) := by
      rw [not_and_or, not_not]
    rw [hkept]
    constructor
    · rintro rfl
      refine Or.inr ⟨hnone, ?_⟩
      by_cases hdropped : foundUnpublished tools s u₁ ≠ [] ∧ versionsIn u₂.stable = []
      · -- the version besides was dropped as well, and nothing was chosen
        exfalso
        rw [if_pos hdropped] at hversion
        rw [hversion] at himage
        rcases himage with ⟨-, hsame⟩ | ⟨htruthy, -⟩
        · rw [hsame] at hchosen
          rcases hchosen with ⟨-, heq⟩ | ⟨htruthy, -⟩
          · exact absurd heq (by simp)
          · exact absurd htruthy (by simp [Value.truthy])
        · exact absurd htruthy (by simp [Value.truthy])
      · refine ⟨hdropped, ?_⟩
        rw [if_neg hdropped] at hversion
        have htext : (Value.str t).truthy = true := by simpa [Value.truthy] using ht
        rcases hchosen with ⟨hfalse, heq⟩ | ⟨-, b, hb, heq⟩
        · rw [← heq, htext] at hfalse
          exact absurd hfalse (by simp)
        · cases b with
          | false => exact absurd heq (by simp)
          | true =>
              rw [if_pos rfl] at heq
              rw [← heq] at hb
              refine ⟨?_, hb⟩
              rcases himage with ⟨hfalse, hsame⟩ | ⟨-, image, himage, hsame⟩
              · rw [hsame] at heq
                rw [← heq, htext] at hfalse
                exact absurd hfalse (by simp)
              · rw [hsame] at heq
                cases image with
                | none => exact absurd heq (by simp)
                | some x => rw [← hversion, himage, heq]; rfl
    · rintro (h' | ⟨-, hdropped, hpasses, htrack⟩)
      · exact absurd h' (hnone _)
      · rw [if_neg hdropped] at hversion
        rw [← hversion] at hpasses
        have htruthy := truthy_of_applyTransform hpasses ht
        rcases himage with ⟨hfalse, -⟩ | ⟨-, image, himage, hsame⟩
        · exact absurd htruthy (by rw [hfalse]; simp)
        · obtain rfl := Except.ok.inj (himage.symm.trans hpasses)
          rw [hsame, Option.getD_some] at hchosen
          rcases hchosen with ⟨hfalse, -⟩ | ⟨-, b, hb, heq⟩
          · exact absurd hfalse (by simpa [Value.truthy] using ht)
          · obtain rfl := Except.ok.inj (hb.symm.trans htrack)
            exact heq

/-- In terms of the versions after the first step: one with the image was not found unpublished. -/
theorem published_iff :
    (∃ v ∈ upstreamVersions data, imageOf s v = .ok (some w) ∧ ¬ ReportedUnpublished tools s data v) ↔
      ∃ x, (x ∈ remainingVersions tools s u₁ ∨ x = u₁.version) ∧ x ∉ foundUnpublished tools s u₁ ∧
        applyTransform s.versionTransform x = .ok (some w) := by
  obtain ⟨hstrip, hbesides⟩ := stripSuffixes_ok h.strip
  obtain ⟨hsplit, -⟩ := dropUnpublished_ok h.drop
  rw [← h.remaining_eq] at hsplit
  have hreported : ∀ v x, stripSuffix s.versionSuffixStrip v = .ok x →
      (ReportedUnpublished tools s data v ↔ x ∈ foundUnpublished tools s u₁) := by
    intro v x hx
    constructor
    · rintro ⟨u, x', hu, hx', hmem⟩
      obtain rfl := Except.ok.inj (h.strip.symm.trans hu)
      obtain rfl := Except.ok.inj (hx.symm.trans hx')
      exact hmem
    · intro hmem
      exact ⟨u₁, x, h.strip, hx, hmem⟩
  have himage : ∀ v x, stripSuffix s.versionSuffixStrip v = .ok x →
      imageOf s v = applyTransform s.versionTransform x := by
    intro v x hx
    rw [imageOf, hx]
    rfl
  constructor
  · rintro ⟨v, hv, hw, hnot⟩
    obtain ⟨x, hx, hwhere⟩ : ∃ x, stripSuffix s.versionSuffixStrip v = .ok x ∧
        (x ∈ versionsIn u₁.stable ∨ x = u₁.version) := by
      rcases List.mem_append.mp hv with hv | hv
      · obtain ⟨x, hmem, hx⟩ := mapM_ok_mem hstrip hv
        exact ⟨x, hx, Or.inl hmem⟩
      · obtain rfl := List.mem_singleton.mp hv
        exact ⟨u₁.version, hbesides, Or.inr rfl⟩
    rw [hreported v x hx] at hnot
    rw [himage v x hx] at hw
    refine ⟨x, ?_, hnot, hw⟩
    rcases hwhere with hmem | hbesides
    · rw [hsplit] at hmem
      exact Or.inl ((List.mem_append.mp hmem).resolve_left hnot)
    · exact Or.inr hbesides
  · rintro ⟨x, hwhere, hnot, hw⟩
    obtain ⟨v, hv, hx⟩ : ∃ v ∈ upstreamVersions data, stripSuffix s.versionSuffixStrip v = .ok x := by
      rcases hwhere with hmem | rfl
      · have hlisted : x ∈ versionsIn u₁.stable := by
          rw [hsplit]
          exact List.mem_append_right _ hmem
        obtain ⟨v, hv, hx⟩ := mem_of_mapM_ok hstrip hlisted
        exact ⟨v, List.mem_append_left _ hv, hx⟩
      · exact ⟨_, List.mem_append_right _ (List.mem_singleton_self _), hbesides⟩
    refine ⟨v, hv, (himage v x hx).trans hw, ?_⟩
    rw [hreported v x hx]
    exact hnot

end Steps4

omit [UnicodeTables] in
theorem value_cases {v : Value} (h : v.asStr = .ok t) (htruthy : v.truthy = true) : v = .str t ∧ t ≠ [] := by
  obtain rfl := Value.asStr_ok h
  refine ⟨rfl, ?_⟩
  simpa [Value.truthy] using htruthy

/-- A check that returns on a response has gone through the steps; it reports an update when they chose a
newer version. -/
theorem checkPackageVersion_ok {cur : Str}
    (hcurrent : currentVersion env packageDir metadata = .ok (.str cur)) (hcur : cur ≠ [])
    (hsettings : checkSettings metadata = .ok s)
    (hquery : queryVersions env tools package distro s fuel = some (.answers (.dict data)))
    (hrun : checkPackageVersion env tools packageDir metadata package distro fuel = some (.ok result)) :
    ∃ upstream u₁ u₂ u₃, Steps4 tools s data upstream u₁ u₂ u₃ ∧ result.currentVersion = .str cur ∧
      ∀ t, (result.hasUpdate = true ∧ result.upstreamVersion = .str t ↔
        upstream = .str t ∧ t ≠ [] ∧ 0 < compareVersions tools cur t) := by
  have htruthy : (Value.str cur).truthy = true := by simpa [Value.truthy] using hcur
  unfold checkPackageVersion at hrun
  simp only [hcurrent, hsettings, htruthy, hquery, Bool.not_true, Bool.false_eq_true, if_false,
    Option.map_some, Value.asDict, except_bind_ok] at hrun
  obtain ⟨upstream, hsteps, hrun⟩ := except_bind_ok_iff.mp (Option.some.inj hrun)
  obtain ⟨u₁, u₂, u₃, hsteps⟩ := upstreamVersion_ok hsteps
  refine ⟨upstream, u₁, u₂, u₃, hsteps, ?_⟩
  split at hrun
  · rename_i hfalse
    obtain rfl := Except.ok.inj hrun
    refine ⟨rfl, fun t => iff_of_false (by simp) ?_⟩
    rintro ⟨rfl, ht, -⟩
    exact absurd hfalse (by simpa [Value.truthy] using ht)
  · rename_i hupstream
    obtain ⟨_, hasStr, hrun⟩ := except_bind_ok_iff.mp hrun
    obtain rfl := Except.ok.inj hasStr
    obtain ⟨t, ht, hret⟩ := except_bind_ok_iff.mp hrun
    obtain ⟨rfl, hne⟩ := value_cases ht (by simpa using hupstream)
    obtain rfl := Except.ok.inj hret
    refine ⟨rfl, fun t' => ?_⟩
    constructor
    · rintro ⟨hupdate, heq⟩
      obtain rfl := Value.str.inj heq
      exact ⟨rfl, hne, by simpa using hupdate⟩
    · rintro ⟨heq, -, hnewer⟩
      obtain rfl := Value.str.inj heq
      exact ⟨by simpa using hnewer, rfl⟩

/-- An update is reported on a response only, for a package whose version is known. -/
theorem update_cases (hupdate : result.hasUpdate = true)
    (hrun : checkPackageVersion env tools packageDir metadata package distro fuel = some (.ok result)) :
    ∃ cur s data t, currentVersion env packageDir metadata = .ok (.str cur) ∧ cur ≠ [] ∧
      checkSettings metadata = .ok s ∧
      queryVersions env tools package distro s fuel = some (.answers (.dict data)) ∧
      result.upstreamVersion = .str t := by
  unfold checkPackageVersion at hrun
  split at hrun
  · exact absurd (Option.some.inj hrun) (by simp)
  · rename_i current settings hcurrent
    split at hrun
    · obtain rfl := Except.ok.inj (Option.some.inj hrun)
      exact absurd hupdate (by simp)
    · rename_i htruthy
      split at hrun
      · exact absurd (Option.some.inj hrun) (by simp)
      · rename_i s hsettings
        obtain ⟨reply, hreply, hrun⟩ := Option.map_eq_some_iff.mp hrun
        cases reply with
        | raises e => exact absurd hrun (by simp)
        | refused msg =>
            obtain rfl := Except.ok.inj hrun
            exact absurd hupdate (by simp)
        | answers data =>
            obtain ⟨entries, hdict, hrun⟩ := except_bind_ok_iff.mp hrun
            obtain ⟨upstream, -, hrun⟩ := except_bind_ok_iff.mp hrun
            split at hrun
            · obtain rfl := Except.ok.inj hrun
              exact absurd hupdate (by simp)
            · rename_i hupstream
              obtain ⟨cur, hcur, hrun⟩ := except_bind_ok_iff.mp hrun
              obtain ⟨t, ht, hret⟩ := except_bind_ok_iff.mp hrun
              obtain rfl := Except.ok.inj hret
              obtain ⟨rfl, hne⟩ := value_cases hcur (by simpa using htruthy)
              obtain rfl := Value.asStr_ok ht
              cases data with
              | dict data =>
                  obtain rfl := Except.ok.inj hdict
                  exact ⟨cur, s, data, t, hcurrent, hne, hsettings, hreply, rfl⟩
              | _ => exact absurd hdict (by simp [Value.asDict])

omit [UnicodeTables] in
/-- What is in track is the prefix itself, or continues it after a dot. -/
theorem inTrack_str {trackVersion : Value} (htrack : s.trackVersion = some trackVersion)
    (h : inTrack s (.str t) = .ok true) :
    ∃ tracked, trackVersion = .str tracked ∧ (t = tracked ∨ tracked ++ ".".toList <+: t) := by
  rw [inTrack, htrack] at h
  have h : matchesTrackVersion trackVersion (.str t) = .ok true := h
  unfold matchesTrackVersion at h
  cases trackVersion with
  | str tracked =>
      refine ⟨tracked, rfl, ?_⟩
      by_cases hsame : t = tracked
      · exact Or.inl hsame
      · rw [if_neg (by simpa [Value.same] using hsame)] at h
        exact Or.inr (by simpa [startsWith] using Except.ok.inj h)
  | none => exact absurd h (by simp [Value.same])
  | bool b => exact absurd h (by simp [Value.same])
  | num zero r => exact absurd h (by simp [Value.same])
  | list items => exact absurd h (by simp [Value.same])
  | dict entries => exact absurd h (by simp [Value.same])

/-- Where nothing was found unpublished, nothing can come back. -/
theorem noneReturns_of_nothing_found {current : Str} (h : foundUnpublished tools s u = []) :
    NoneReturns tools s u current := by
  refine ⟨?_, ?_⟩
  · intro t hfirst _ _
    obtain ⟨x, hmem, hpasses⟩ := exists_of_firstPassing hfirst
    exact ⟨x, Or.inl hmem, by rw [h]; exact List.not_mem_nil, hpasses.1⟩
  · intro t _ _ _ _ _
    rw [h]
    exact List.not_mem_nil

/-- **`soundVerdict_iff`** — the verdict of a check that returns is sound exactly under `NoneReturns`. -/
theorem soundVerdict_iff
    (hrun : checkPackageVersion env tools packageDir metadata package distro fuel = some (.ok result)) :
    SoundUpdate env tools metadata package distro fuel result ↔
      ∀ cur s data u, currentVersion env packageDir metadata = .ok (.str cur) → cur ≠ [] →
        checkSettings metadata = .ok s →
        queryVersions env tools package distro s fuel = some (.answers (.dict data)) →
        stripSuffixes s.versionSuffixStrip (responseVersions data) = .ok u →
        NoneReturns tools s u cur := by
  constructor
  · intro hsound cur s data u hcurrent hcur hsettings hquery hstrip
    obtain ⟨upstream, u₁, u₂, u₃, hsteps, hcurrent', hreport⟩ :=
      checkPackageVersion_ok hcurrent hcur hsettings hquery hrun
    obtain rfl := Except.ok.inj (hsteps.strip.symm.trans hstrip)
    have hpublished : ∀ t, upstream = .str t → t ≠ [] → 0 < compareVersions tools cur t →
        ∃ x, (x ∈ remainingVersions tools s u₁ ∨ x = u₁.version) ∧ x ∉ foundUnpublished tools s u₁ ∧
          applyTransform s.versionTransform x = .ok (some (.str t)) := by
      intro t heq ht hnewer
      obtain ⟨hupdate, hversion⟩ := (hreport t).mpr ⟨heq, ht, hnewer⟩
      obtain ⟨s', data', hsettings', hquery', hverdict⟩ := hsound hupdate
      obtain rfl := Except.ok.inj (hsettings.symm.trans hsettings')
      obtain rfl := Value.dict.inj (QueryReply.answers.inj (Option.some.inj (hquery.symm.trans hquery')))
      have hthere := hverdict.published
      rw [hversion] at hthere
      exact hsteps.published_iff.mp hthere
    refine ⟨?_, ?_⟩
    · intro t hfirst ht hnewer
      exact hpublished t ((hsteps.upstream_iff ht).mpr (Or.inl hfirst)) ht hnewer
    · intro t hleft hnone hpasses ht hnewer
      have heq := (hsteps.upstream_iff ht).mpr (Or.inr ⟨hnone, Or.inr hleft, hpasses⟩)
      obtain ⟨x, hwhere, hnot, himage⟩ := hpublished t heq ht hnewer
      rcases hwhere with hmem | rfl
      · -- a version of the rest with this image would pass
        obtain ⟨w, hw⟩ := exists_firstPassing hmem ⟨himage, hpasses.2⟩
        exact absurd hw (hnone w)
      · exact hnot
  · intro hcond hupdate
    obtain ⟨cur, s, data, t, hcurrent, hcur, hsettings, hquery, hversion⟩ := update_cases hupdate hrun
    obtain ⟨upstream, u₁, u₂, u₃, hsteps, hcurrent', hreport⟩ :=
      checkPackageVersion_ok hcurrent hcur hsettings hquery hrun
    obtain ⟨rfl, ht, hnewer⟩ := (hreport t).mp ⟨hupdate, hversion⟩
    have hreturns := hcond cur s data u₁ hcurrent hcur hsettings hquery hsteps.strip
    have hchosen := (hsteps.upstream_iff ht).mp rfl
    have htrack : inTrack s (.str t) = .ok true := by
      rcases hchosen with hfirst | ⟨-, -, hpasses⟩
      · obtain ⟨v, -, hpasses⟩ := exists_of_firstPassing hfirst
        exact hpasses.2
      · exact hpasses.2
    refine ⟨s, data, hsettings, hquery, ⟨cur, t, hcurrent', hversion, hnewer⟩, ?_, ?_⟩
    · intro trackVersion htracked
      obtain ⟨tracked, heq, hprefix⟩ := inTrack_str htracked htrack
      exact ⟨tracked, t, heq, hversion, hprefix⟩
    · rw [hversion, hsteps.published_iff]
      rcases hchosen with hfirst | ⟨hnone, hkept, hpasses⟩
      · exact hreturns.listed t hfirst ht hnewer
      · refine ⟨u₁.version, Or.inr rfl, ?_, hpasses.1⟩
        by_cases hleft : remainingVersions tools s u₁ = []
        · rw [hkept.resolve_right (not_not.mpr hleft)]
          exact List.not_mem_nil
        · exact hreturns.besides t hleft hnone hpasses ht hnewer

end

/-! ## A version without a source -/

/-- An OpenJDK package: versions are transformed, tracked and probed for. -/
def openjdkMetadata : Value :=
  .dict [("version", .str "21.0.11.0.10"), ("track_upstream", .str "21"),
    ("release_monitoring_project_id", .num false "369281"),
    ("upstream_version_transform", .str "openjdk_to_rpm"),
    ("source_availability_check", .str "openjdk_osci")]

/-- A response with these stable versions, of which the sources of one are not published. -/
def openjdkTools (stable : List Str) (missing : Str) : UpstreamTools where
  labelCompare := some RpmVersion.vercmp
  packaging _ _ := none
  anitya _ _ := .refused []
  anityaById _ := .answers (.dict
    [("stable_versions", .list (stable.map Value.str)), ("latest_version", (stable.head?.map Value.str).getD .none)])
  netlocOk _ := true
  replies _ := .urlError []
  head _ url := if url = openjdkSourceUrl (.str "21") (.str missing) then .httpError 404 else .found

def openjdkCheck (stable : List Str) (missing : Str) : Option (Except Exn UpstreamCheckResult) :=
  letI := asciiTables
  checkPackageVersion Env.offline (openjdkTools stable missing) none (some openjdkMetadata) "java-21-openjdk" "Fedora" 0

def openjdkSettings : CheckSettings where
  trackVersion := some (.str "21")
  projectId := .num false "369281"
  versionTransform := .str "openjdk_to_rpm"
  sourceChecker := .str "openjdk_osci"
  feature := .str "21"

/-- The response, normalized. -/
def openjdkResponse (stable : List Str) : Value.Entries :=
  [("stable_versions", .list (stable.map Value.str)), ("version", (stable.head?.map Value.str).getD .none)]

theorem checkSettings_openjdk : checkSettings (some openjdkMetadata) = .ok openjdkSettings := rfl

theorem queryVersions_openjdk (stable : List Str) (missing : Str) :
    letI := asciiTables
    queryVersions Env.offline (openjdkTools stable missing) "java-21-openjdk" "Fedora" openjdkSettings 0 =
      some (.answers (.dict (openjdkResponse stable))) := rfl

theorem upstreamVersions_openjdk (stable : List Str) :
    upstreamVersions (openjdkResponse stable) =
      stable.map Value.str ++ [(stable.head?.map Value.str).getD .none] := by
  show versionsIn (some (.list (stable.map Value.str))) ++ _ = _
  rw [versionsIn_list]
  rfl

/-- The version that a check reports as an update, if it does. -/
def reportedUpdate (check : Option (Except Exn UpstreamCheckResult)) : Option Str :=
  match check with
  | some (.ok result) => if result.hasUpdate then result.upstreamVersion.asStr.toOption else none
  | _ => none

theorem reportedUpdate_eq_some {check : Option (Except Exn UpstreamCheckResult)} {t : Str}
    (h : reportedUpdate check = some t) :
    ∃ result, check = some (.ok result) ∧ result.hasUpdate = true ∧ result.upstreamVersion = .str t := by
  unfold reportedUpdate at h
  split at h
  · rename_i result
    split at h
    · rename_i hupdate
      exact ⟨result, rfl, hupdate, Value.asStr_ok (except_toOption_iff.mp h)⟩
    · exact absurd h (by simp)
  · exact absurd h (by simp)

/-- The text of an image. -/
def imageText (s : CheckSettings) (v : Value) : Option Str :=
  letI := asciiTables
  match imageOf s v with
  | .ok (some (.str t)) => some t
  | _ => none

/-- Where the source of the latest version is published, the update to it is sound. -/
theorem published_sound :
    letI := asciiTables
    ∃ result, openjdkCheck ["21.0.12+8"] "none" = some (.ok result) ∧
      result.upstreamVersion = .str "21.0.12.0.8" ∧
      SoundUpdate Env.offline (openjdkTools ["21.0.12+8"] "none") (some openjdkMetadata) "java-21-openjdk" "Fedora"
        0 result := by
  let _ := asciiTables
  obtain ⟨result, hrun, -, hversion⟩ := reportedUpdate_eq_some
    (show reportedUpdate (openjdkCheck ["21.0.12+8"] "none") = some "21.0.12.0.8".toList by decide +kernel)
  refine ⟨result, hrun, hversion, ?_⟩
  apply (soundVerdict_iff hrun).mpr
  intro cur s data u _ _ hsettings hquery hstrip
  obtain rfl := Except.ok.inj (checkSettings_openjdk.symm.trans hsettings)
  obtain rfl := Value.dict.inj (QueryReply.answers.inj (Option.some.inj
    ((queryVersions_openjdk _ _).symm.trans hquery)))
  apply noneReturns_of_nothing_found
  obtain rfl := Except.ok.inj hstrip
  rfl

/-- **`unpublished_reported`** — the check drops 21.0.12.1+0, whose source is not published, is left with
a version of another track, falls back to the version besides, and reports 21.0.12.1+0 as the update. -/
theorem unpublished_reported :
    letI := asciiTables
    ∃ result, openjdkCheck ["21.0.12.1+0", "20.0.2+9"] "21.0.12.1+0" = some (.ok result) ∧
      ¬ SoundUpdate Env.offline (openjdkTools ["21.0.12.1+0", "20.0.2+9"] "21.0.12.1+0") (some openjdkMetadata)
        "java-21-openjdk" "Fedora" 0 result := by
  let _ := asciiTables
  obtain ⟨result, hrun, hupdate, hversion⟩ := reportedUpdate_eq_some
    (show reportedUpdate (openjdkCheck ["21.0.12.1+0", "20.0.2+9"] "21.0.12.1+0") = some "21.0.12.1.0".toList by
      decide +kernel)
  refine ⟨result, hrun, ?_⟩
  intro hsound
  obtain ⟨s, data, hsettings, hquery, hverdict⟩ := hsound hupdate
  obtain rfl := Except.ok.inj (checkSettings_openjdk.symm.trans hsettings)
  obtain rfl := Value.dict.inj (QueryReply.answers.inj (Option.some.inj
    ((queryVersions_openjdk _ _).symm.trans hquery)))
  obtain ⟨v, hv, himage, hpublished⟩ := hverdict.published
  rw [hversion] at himage
  -- the response lists 21.0.12.1+0 twice, and 20.0.2+9, which has another image
  have hmissing : ReportedUnpublished (openjdkTools ["21.0.12.1+0", "20.0.2+9"] "21.0.12.1+0") openjdkSettings
      (openjdkResponse ["21.0.12.1+0", "20.0.2+9"]) (.str "21.0.12.1+0") :=
    ⟨_, .str "21.0.12.1+0", rfl, rfl, List.mem_singleton_self _⟩
  have hother : imageText openjdkSettings (.str "20.0.2+9") = some "20.0.2.0.9".toList := by decide +kernel
  have hcases : v = .str "21.0.12.1+0" ∨ v = .str "20.0.2+9" ∨ v = .str "21.0.12.1+0" := by
    rw [upstreamVersions_openjdk] at hv
    simpa using hv
  rcases hcases with rfl | rfl | rfl
  · exact hpublished hmissing
  · rw [imageText, himage] at hother
    exact absurd hother (by decide)
  · exact hpublished hmissing

end HummingbirdRpms
