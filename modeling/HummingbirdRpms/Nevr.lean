/-
# HummingbirdRpms.Nevr — packages that would be published a second time.

`ci/check_nevr_conflicts.py` predicts the packages a spec file builds, or reads them off built RPM
files, and looks each of them up in the repositories it would be published to.  The repositories are
asked once each, for the names of all candidates together; a query that fails is kept apart from one
that finds nothing.

**`checkCandidates_spec`** — against repositories that each answer or fail, a candidate is judged by
what those it goes to have published, in order, and as if it had been checked alone.
-/
import Mathlib.Data.List.Sort
import Mathlib.Data.List.Dedup
import HummingbirdRpms.Env
import HummingbirdRpms.Lib.Regex

namespace HummingbirdRpms

open Lib Lib.Text Lib.Regex Lib.Exec

/-! ## The tools it runs -/

/-- How a program run with a timeout ends. -/
inductive TimedRun where
  | timedOut
  /-- The program is not there. -/
  | missing
  /-- It wrote output that is not valid text. -/
  | undecodable
  | exited (code : Int) (stdout stderr : Str)

/-- What the check raises: its own error, or any other exception. -/
inductive NevrError where
  /-- `NevrCheckError` -/
  | check (msg : Str)
  | other (e : Exn)
  deriving DecidableEq

/-- The repositories on Pulp, by the key they are configured under. -/
inductive RepoKey where
  | x86_64
  | aarch64
  | source
  deriving DecidableEq

def RepoKey.name : RepoKey → Str
  | x86_64 => "x86_64"
  | aarch64 => "aarch64"
  | source => "source"

/-- `BINARY_ARCHES` -/
def binaryArches : List Str := ["x86_64", "aarch64"]

/-- What `rpmspec -q` is asked for. -/
inductive SpecQuery where
  | srpm
  | binaries (targetArch : Str)

/-- What the check finds on disk and runs. -/
structure NevrTools where
  /-- `ci/package-overrides.yaml` -/
  overrides : Option File
  safeLoad : Str → Except Exn Value
  environ : Str → Option Str
  /-- The directories under `rpms/`, with their spec files. -/
  packages : List (Str × List Path)
  /-- `rpmspec -P` on `hummingbird-release.spec`; `none` when there is no such file. -/
  releaseSpec : Option TimedRun
  /-- `rpmspec -q` with the macros of a `~/.rpmmacros` file. -/
  rpmspec : (macros package specFile : Str) → SpecQuery → TimedRun
  /-- The `.rpm` files below a directory; `none` when it does not exist. -/
  rpmFiles : Str → Option (List Path)
  rpm : Path → TimedRun
  dnf : (baseUrl : Str) → (names : List Str) → (timeout : Nat) → TimedRun
  gitFetch : (commit : Str) → TimedRun
  gitDiff : (revisions : List Str) → TimedRun

/-! ## Candidates -/

/-- `Candidate` -/
@[ext] structure Candidate where
  package : Str
  name : Str
  evr : Str
  arch : Str
  deriving DecidableEq

/-- `subprocess.run` of `rpmspec`, with its failures as errors of the check. -/
def runRpmspec (run : TimedRun) (timedOut failed : Str) : Except NevrError Str :=
  match run with
  | .timedOut => .error (.check timedOut)
  | .missing => .error (.check "rpmspec is required but not found in PATH")
  | .undecodable => .error (.other (.raised .unicodeDecodeError "output"))
  | .exited code stdout stderr =>
      if code ≠ 0 then .error (.check (failed ++ strip stderr)) else .ok stdout

/-- `MACROS_DIST_PATTERN` -/
def macrosDistPattern : Re :=
  Re.seq [.bol, .lit "cat > ", .many true fun c => !isSpace c, .lit "/macros.dist << EOF\n",
    .group 1 (.many false fun _ => true), .bol, .lit "EOF", .many true isSpace, .eol]

/-- `get_distro_macros` -/
def getDistroMacros (tools : NevrTools) : Except NevrError Str :=
  match tools.releaseSpec with
  | none => .error (.check
      ("Cannot find rpms/hummingbird-release/hummingbird-release.spec to determine " ++
        "dist macros").toList)
  | some run => do
      let stdout ← runRpmspec run "Timed out parsing hummingbird-release.spec"
        "Failed to parse hummingbird-release.spec: "
      match search macrosDistPattern stdout with
      | some m => return m.group 1
      | none => .error (.check
          ("Could not locate the macros.dist heredoc in hummingbird-release.spec output; " ++
            "has its %install section changed shape?").toList)

/-- `_run_rpmspec` -/
def runSpecQuery (tools : NevrTools) (macros package specFile : Str) (query : SpecQuery) :
    Except NevrError Str :=
  runRpmspec (tools.rpmspec macros package specFile query) "rpmspec timed out: "
    ("rpmspec failed for ".toList ++ specFile ++ ": ".toList)

/-- The lines of an output that are not blank. -/
def outputLines (out : Str) : List Str := (splitlines (strip out)).filter fun l => strip l ≠ []

/-- `_spec_srpm` -/
def specSrpm (tools : NevrTools) (macros package specFile : Str) :
    Except NevrError (Option Candidate) := do
  let out ← runSpecQuery tools macros package specFile .srpm
  match (outputLines out).head? with
  | none => return none
  | some line =>
      match partitionChar '\t' line with
      | (name, some evr) => return some ⟨package, name, evr, "src"⟩
      | (_, none) => return none

/-- `DEBUGINFO_SUFFIXES` -/
def debuginfoSuffixes : List Str := ["-debuginfo", "-debugsource"]

/-- `name.lower().endswith(DEBUGINFO_SUFFIXES)` -/
def isDebuginfo (name : Str) : Bool := debuginfoSuffixes.any (endsWith · (lowerAscii name))

/-- What a line of `%{NAME}\t%{EVR}\t%{ARCH}` says, if it has these three fields. -/
def candidateOfLine (package line : Str) : Option Candidate :=
  match line.splitOn '\t' with
  | [name, evr, arch] => some ⟨package, name, evr, arch⟩
  | _ => none

/-- Whether a line of `rpmspec -q` counts: neither a source package nor debug information. -/
def isBinary (c : Candidate) : Bool := lowerAscii c.arch ≠ "src" && !isDebuginfo c.name

/-- `_spec_binaries` -/
def specBinaries (tools : NevrTools) (macros package specFile targetArch : Str) :
    Except NevrError (List Candidate) := do
  let out ← runSpecQuery tools macros package specFile (.binaries targetArch)
  return ((outputLines out).filterMap (candidateOfLine package)).filter isBinary

/-- The dictionary of candidates: one for each name and architecture. -/
abbrev CandidateDict := AList (fun _ : Str × Str => Candidate)

/-- `candidates[(candidate.name, candidate.arch)] = candidate` -/
def putCandidate (candidates : CandidateDict) (c : Candidate) : CandidateDict :=
  candidates.insert (c.name, c.arch) c

/-- The order of `sorted(…, key=lambda c: (c.name, c.arch))`. -/
def nameArchLe (c d : Candidate) : Bool :=
  decide (c.name < d.name) || (decide (c.name = d.name) && decide (c.arch ≤ d.arch))

/-- `get_spec_candidates` -/
def getSpecCandidates (tools : NevrTools) (macros package : Str) :
    Except NevrError (List Candidate) :=
  match (tools.packages.lookup package).getD [] with
  | [specFile] => do
      let srpm ← specSrpm tools macros package specFile
      let x86_64 ← specBinaries tools macros package specFile "x86_64"
      let aarch64 ← specBinaries tools macros package specFile "aarch64"
      let candidates := (srpm.toList ++ x86_64 ++ aarch64).foldl putCandidate ∅
      if candidates.entries = [] then .error (.check
        (package ++ ": rpmspec produced no binary or source packages".toList))
      else return (candidates.entries.map (·.2)).insertionSort fun c d => nameArchLe c d
  | specs => .error (.check (package ++ ": expected exactly one .spec file in rpms/".toList ++ package ++
      ", found ".toList ++ ofNat specs.length))

/-- The directory above the innermost `RPMS` or `SRPMS`, from the inside out. -/
def abovePackages : List Str → Option Str
  | [] => none
  | d :: ds => if d = "RPMS" ∨ d = "SRPMS" then some (ds.headD []) else abovePackages ds

/-- `_infer_package_name` -/
def inferPackageName (rpmPath : Path) : Str :=
  (abovePackages (pathParts rpmPath).dropLast.reverse).getD (pathStem rpmPath)

/-- What one RPM file adds to the candidates. -/
def builtCandidate (tools : NevrTools) (rpmPath : Path) : Except NevrError (Option Candidate) :=
  match tools.rpm rpmPath with
  | .timedOut => .error (.check ("rpm timed out reading ".toList ++ rpmPath))
  | .missing => .error (.check "rpm is required but not found in PATH")
  | .undecodable => .error (.other (.raised .unicodeDecodeError "output"))
  | .exited code stdout _ =>
      if code ≠ 0 then .ok none
      else .ok ((candidateOfLine (inferPackageName rpmPath) (strip stdout)).filter
        fun c => !isDebuginfo c.name)

/-- `get_built_rpm_candidates` -/
def getBuiltRpmCandidates (tools : NevrTools) (rpmsDir : Str) : Except NevrError (List Candidate) :=
  match tools.rpmFiles rpmsDir with
  | none => .error (.check ("--rpms-dir path does not exist: ".toList ++ rpmsDir))
  | some [] => .error (.check ("No .rpm files found under ".toList ++ rpmsDir))
  | some files => do
      let found ← files.mapM (builtCandidate tools)
      return found.filterMap id

/-! ## Comparing with the repositories -/

/-- `CheckResult.status` -/
inductive CheckStatus where
  | ok
  | conflict
  | cannotDetermine
  deriving DecidableEq

/-- `CheckResult` -/
structure CheckResult where
  candidate : Candidate
  status : CheckStatus
  note : Str := []
  deriving DecidableEq

/-- `repo_keys_for_candidate` -/
def repoKeysForCandidate (c : Candidate) : List RepoKey :=
  if c.arch = "noarch" then [.x86_64, .aarch64]
  else if c.arch = "x86_64" then [.x86_64]
  else if c.arch = "aarch64" then [.aarch64]
  else if c.arch = "src" then [.source]
  else []

/-- The published EVRs of each name. -/
abbrev Evrs := AList (fun _ : Str => List Str)

/-- `evrs.get(name, set())` -/
def Evrs.of (evrs : Evrs) (name : Str) : List Str := (AList.lookup name evrs).getD []

/-- `evrs.setdefault(name, set()).add(evr)` -/
def addEvr (evrs : Evrs) (entry : Str × Str) : Evrs :=
  AList.insert entry.1 ((Evrs.of evrs entry.1).insert entry.2) evrs

/-- What a line of `%{name}\t%{evr}` says, if it has a tab. -/
def evrOfLine (line : Str) : Option (Str × Str) :=
  match partitionChar '\t' line with
  | (name, some evr) => some (name, evr)
  | (_, none) => none

/-- `query_pulp_evrs` -/
def queryPulpEvrs (tools : NevrTools) (baseUrl : Str) (names : List Str) (timeout : Nat) :
    Except NevrError (Option Evrs) :=
  if names = [] then .ok (some ∅)
  else
    match tools.dnf baseUrl (names.insertionSort (· ≤ ·)) timeout with
    | .timedOut => .ok none
    | .missing => .error (.check "dnf is required but not found in PATH")
    | .undecodable => .error (.other (.raised .unicodeDecodeError "output"))
    | .exited code stdout _ =>
        -- a partial output is not trusted
        if code ≠ 0 then .ok none
        else .ok (some (((outputLines stdout).filterMap evrOfLine).foldl addEvr ∅))

/-- The names looked up in a repository. -/
def namesByRepo (candidates : List Candidate) (key : RepoKey) : List Str :=
  ((candidates.filter fun c => repoKeysForCandidate c |>.contains key).map (·.name)).dedup

/-- The loop over the repositories of a candidate: the first that has it, and whether one before that
is unknown. -/
def searchRepos (evrs : RepoKey → Option Evrs) (c : Candidate) :
    List RepoKey → Bool → Option RepoKey × Bool
  | [], anyUnknown => (none, anyUnknown)
  | key :: keys, anyUnknown =>
      match evrs key with
      | none => searchRepos evrs c keys true
      | some published =>
          if c.evr ∈ published.of c.name then (some key, anyUnknown)
          else searchRepos evrs c keys anyUnknown

/-- The result of one candidate. -/
def checkCandidate (evrs : RepoKey → Option Evrs) (c : Candidate) : CheckResult :=
  match repoKeysForCandidate c with
  | [] => ⟨c, .cannotDetermine, "unrecognized arch ".toList ++ reprStr c.arch⟩
  | keys =>
      match searchRepos evrs c keys false with
      | (some key, _) => ⟨c, .conflict, "already published in ".toList ++ key.name⟩
      | (none, true) => ⟨c, .cannotDetermine, "Pulp query failed"⟩
      | (none, false) => ⟨c, .ok, []⟩

/-- `check_candidates` -/
def checkCandidates (tools : NevrTools) (candidates : List Candidate) (baseUrls : RepoKey → Str)
    (timeout : Nat) : Except NevrError (List CheckResult) := do
  let query (key : RepoKey) : Except NevrError (Option Evrs) :=
    queryPulpEvrs tools (baseUrls key) (namesByRepo candidates key) timeout
  let x86_64 ← query .x86_64
  let aarch64 ← query .aarch64
  let source ← query .source
  let evrs : RepoKey → Option Evrs
    | .x86_64 => x86_64
    | .aarch64 => aarch64
    | .source => source
  return candidates.map (checkCandidate evrs)

/-! ## The command -/

/-- The arguments of the command. -/
structure NevrArgs where
  mr : Bool := false
  all : Bool := false
  packages : List Str := []
  rpmsDir : List Str := []
  baseUrls : RepoKey → Str
  timeout : Nat := 30

/-- `load_private_products`: the packages of a private product. -/
def loadPrivateProducts (tools : NevrTools) : Except Exn (List Str) :=
  match tools.overrides with
  | none => .ok []
  | some file => do
      let overrides ← tools.safeLoad (← decodeText "package-overrides.yaml" file)
      match overrides.orDict with
      | .dict entries =>
          return (entries.filter fun e =>
            match e.2 with
            | .dict cfg => (Value.entry "private_product" cfg).truthy
            | _ => false).map (·.1)
      | _ => .error (.raised .attributeError "items")

/-- `subprocess.run(['git', …], check=True)` -/
def runGitChecked (run : TimedRun) (failed : Str) : Except NevrError Str :=
  match run with
  | .missing => .error (.check "git is required but not found in PATH")
  | .undecodable => .error (.other (.raised .unicodeDecodeError "output"))
  | .timedOut => .error (.other (.raised .timeoutExpired "git"))
  | .exited code stdout stderr =>
      if code ≠ 0 then .error (.check (failed ++ strip stderr)) else .ok stdout

/-- The package of a changed path, if it lies under `rpms/`. -/
def changedPackage (line : Str) : Option Str :=
  if startsWith "rpms/" line then (line.splitOn '/')[1]? else none

/-- `get_changed_rpm_packages` -/
def getChangedRpmPackages (tools : NevrTools) : Except NevrError (List Str) := do
  let stdout ← match (tools.environ "CI_MERGE_REQUEST_DIFF_BASE_SHA").filter (!·.isEmpty) with
    | some diffBase => do
        let _ ← runGitChecked (tools.gitFetch diffBase)
          ("git fetch of MR diff base ".toList ++ diffBase ++ " failed: ".toList)
        runGitChecked (tools.gitDiff [diffBase, "HEAD"])
          ("git diff against ".toList ++ diffBase ++ " failed: ".toList)
    | none =>
        let base := "origin/".toList ++
          (tools.environ "CI_MERGE_REQUEST_TARGET_BRANCH_NAME").getD "main"
        runGitChecked (tools.gitDiff [base ++ "...HEAD".toList])
          ("git diff against ".toList ++ base ++ " failed: ".toList)
  return ((splitlines (strip stdout)).filterMap changedPackage).dedup.insertionSort (· ≤ ·)

/-- `has_spec` -/
def hasSpec (tools : NevrTools) (package : Str) : Bool :=
  ((tools.packages.lookup package).getD []) ≠ []

/-- `get_all_packages` -/
def getAllPackages (tools : NevrTools) : List Str :=
  ((tools.packages.map (·.1)).filter (hasSpec tools)).insertionSort (· ≤ ·)

/-- How the command ends. -/
inductive NevrRun where
  /-- Before anything is checked, with an exit status: 0 when there is nothing to check, 2 when a tool
  that every check needs fails or the usage is wrong. -/
  | stopped (code : Nat)
  /-- With the results and the errors of the packages that could not be read. -/
  | checked (results : List CheckResult) (errors : List Str) (code : Nat)

/-- One round of the loop that collects candidates: an error of the check is kept, any other leaves. -/
def collect (found : Except NevrError (List Candidate)) (acc : List Candidate × List Str) :
    Except Exn (List Candidate × List Str) :=
  match found with
  | .ok cs => .ok (acc.1 ++ cs, acc.2)
  | .error (.check msg) => .ok (acc.1, acc.2 ++ [msg])
  | .error (.other e) => .error e

/-- The loop over packages or directories. -/
def collectAll (find : Str → Except NevrError (List Candidate)) :
    List Str → List Candidate × List Str → Except Exn (List Candidate × List Str)
  | [], acc => .ok acc
  | x :: xs, acc => do collectAll find xs (← collect (find x) acc)

/-- The exit status of the results and errors. -/
def exitCode (results : List CheckResult) (errors : List Str) : Nat :=
  let conflicts := results.filter fun r => r.status = .conflict
  let unknown := results.filter fun r => r.status = .cannotDetermine
  if conflicts ≠ [] then 1 else if unknown ≠ [] ∨ errors ≠ [] then 2 else 0

/-- The second half of `main`: the candidates checked. -/
def checkAndReport (tools : NevrTools) (args : NevrArgs) (candidates : List Candidate)
    (errors : List Str) : Except Exn NevrRun :=
  if candidates = [] ∧ errors = [] then .ok (.stopped 0)
  else
    match if candidates = [] then .ok [] else
        checkCandidates tools candidates args.baseUrls args.timeout with
    | .error (.check _) => .ok (.stopped 2)
    | .error (.other e) => .error e
    | .ok results => do
        let _ ← loadPrivateProducts tools
        return .checked results errors (exitCode results errors)

/-- The packages that spec mode checks, or the exit status when there are none to read. -/
def selectPackages (tools : NevrTools) (args : NevrArgs) : Except Exn (List Str ⊕ Nat) :=
  if args.mr then
    match getChangedRpmPackages tools with
    | .ok packages => .ok (.inl (packages.filter (hasSpec tools)))
    | .error (.check _) => .ok (.inr 2)
    | .error (.other e) => .error e
  else if args.all then .ok (.inl (getAllPackages tools))
  else if args.packages ≠ [] then .ok (.inl args.packages)
  else .ok (.inr 2)

/-- `main` -/
def nevrMain (tools : NevrTools) (args : NevrArgs) : Except Exn NevrRun :=
  if args.rpmsDir ≠ [] then do
    let (candidates, errors) ← collectAll (getBuiltRpmCandidates tools) args.rpmsDir ([], [])
    checkAndReport tools args candidates errors
  else do
    match ← selectPackages tools args with
    | .inr code => return .stopped code
    | .inl [] => return .stopped 0
    | .inl packages =>
        match getDistroMacros tools with
        | .error (.check _) => return .stopped 2
        | .error (.other e) => .error e
        | .ok macros => do
            let (candidates, errors) ← collectAll (getSpecCandidates tools macros) packages ([], [])
            checkAndReport tools args candidates errors

/-! ## What a query returns -/

theorem Evrs.of_insert {evrs : Evrs} {name name' : Str} {vs : List Str} :
    Evrs.of (AList.insert name vs evrs) name' = if name' = name then vs else evrs.of name' := by
  unfold Evrs.of
  by_cases h : name' = name
  · rw [h, AList.lookup_insert, if_pos rfl, Option.getD_some]
  · rw [AList.lookup_insert_ne h, if_neg h]

theorem mem_addEvr {evrs : Evrs} {entry : Str × Str} {name evr : Str} :
    evr ∈ (addEvr evrs entry).of name ↔ evr ∈ evrs.of name ∨ entry = (name, evr) := by
  unfold addEvr
  rw [Evrs.of_insert]
  split
  · rename_i h
    subst h
    rw [List.mem_insert_iff, or_comm, Prod.ext_iff]
    simp [eq_comm]
  · rename_i h
    rw [or_iff_left]
    rintro rfl
    exact h rfl

theorem mem_foldl_addEvr {entries : List (Str × Str)} {evrs : Evrs} {name evr : Str} :
    evr ∈ (entries.foldl addEvr evrs).of name ↔ evr ∈ evrs.of name ∨ (name, evr) ∈ entries := by
  induction entries generalizing evrs with
  | nil => simp
  | cons entry entries ih =>
      rw [List.foldl_cons, ih, mem_addEvr, List.mem_cons, or_assoc, eq_comm (a := entry)]

/-- What each repository has published, or that it does not answer. -/
abbrev Repositories := RepoKey → Option (Str → Str → Prop)

/-- `dnf repoquery` lists what a repository has published under the names it is given, or fails. -/
def Answers (tools : NevrTools) (baseUrls : RepoKey → Str) (timeout : Nat) (repos : Repositories) :
    Prop :=
  ∀ key names, names ≠ [] →
    match repos key with
    | none => tools.dnf (baseUrls key) names timeout = .timedOut ∨
        ∃ code stdout stderr, code ≠ 0 ∧
          tools.dnf (baseUrls key) names timeout = .exited code stdout stderr
    | some published => ∃ stdout stderr,
        tools.dnf (baseUrls key) names timeout = .exited 0 stdout stderr ∧
          ∀ name ∈ names, ∀ evr, published name evr ↔
            ∃ line ∈ outputLines stdout, evrOfLine line = some (name, evr)

/-- The candidate is published in a repository it goes to. -/
def Conflicts (repos : Repositories) (c : Candidate) : Prop :=
  ∃ key ∈ repoKeysForCandidate c, ∃ published, repos key = some published ∧ published c.name c.evr

/-- All repositories the candidate goes to, and there is one, answer that they do not have it. -/
def Clear (repos : Repositories) (c : Candidate) : Prop :=
  repoKeysForCandidate c ≠ [] ∧ ∀ key ∈ repoKeysForCandidate c,
    ∃ published, repos key = some published ∧ ¬ published c.name c.evr

/-- What was looked up is what the repositories say about a candidate. -/
def Shows (repos : Repositories) (evrs : RepoKey → Option Evrs) (c : Candidate) : Prop :=
  ∀ key ∈ repoKeysForCandidate c,
    (repos key = none ∧ evrs key = none) ∨
      ∃ published found, repos key = some published ∧ evrs key = some found ∧
        (c.evr ∈ found.of c.name ↔ published c.name c.evr)

section

variable {tools : NevrTools} {baseUrls : RepoKey → Str} {timeout : Nat} {repos : Repositories}
  {names : List Str} {key : RepoKey}

theorem sorted_ne_nil (h : names ≠ []) : names.insertionSort (· ≤ ·) ≠ [] := by
  intro hnil
  apply h
  have hperm := List.perm_insertionSort (· ≤ ·) names
  rw [hnil] at hperm
  exact hperm.symm.eq_nil

theorem query_of_silent (h : Answers tools baseUrls timeout repos) (hrepo : repos key = none)
    (hnames : names ≠ []) : queryPulpEvrs tools (baseUrls key) names timeout = .ok none := by
  have hdnf := h key (names.insertionSort (· ≤ ·)) (sorted_ne_nil hnames)
  rw [hrepo] at hdnf
  rw [queryPulpEvrs, if_neg hnames]
  rcases hdnf with hrun | ⟨code, stdout, stderr, hcode, hrun⟩
  · rw [hrun]
  · rw [hrun]
    exact if_pos hcode

theorem query_of_answer {published : Str → Str → Prop} (h : Answers tools baseUrls timeout repos)
    (hrepo : repos key = some published) (hnames : names ≠ []) :
    ∃ found, queryPulpEvrs tools (baseUrls key) names timeout = .ok (some found) ∧
      ∀ name ∈ names, ∀ evr, evr ∈ found.of name ↔ published name evr := by
  have hdnf := h key (names.insertionSort (· ≤ ·)) (sorted_ne_nil hnames)
  rw [hrepo] at hdnf
  obtain ⟨stdout, stderr, hrun, hlists⟩ := hdnf
  refine ⟨((outputLines stdout).filterMap evrOfLine).foldl addEvr ∅, ?_, fun name hname evr => ?_⟩
  · rw [queryPulpEvrs, if_neg hnames, hrun]
    exact if_neg (by simp)
  · rw [mem_foldl_addEvr, hlists name ((List.mem_insertionSort _).mpr hname) evr, List.mem_filterMap]
    exact or_iff_right (List.not_mem_nil)

/-! ## How a candidate is judged -/

variable {candidates : List Candidate} {c : Candidate}

theorem mem_namesByRepo (hc : c ∈ candidates) (hkey : key ∈ repoKeysForCandidate c) :
    c.name ∈ namesByRepo candidates key := by
  rw [namesByRepo, List.mem_dedup]
  refine List.mem_map_of_mem (List.mem_filter.mpr ⟨hc, ?_⟩)
  simpa using hkey

/-- The queries that check some candidates succeed as calls, and show each of them what it asks. -/
theorem checkCandidates_of_answers (h : Answers tools baseUrls timeout repos)
    (candidates : List Candidate) :
    ∃ evrs, checkCandidates tools candidates baseUrls timeout =
        .ok (candidates.map (checkCandidate evrs)) ∧
      ∀ c ∈ candidates, Shows repos evrs c := by
  have hquery : ∀ key, ∃ found,
      queryPulpEvrs tools (baseUrls key) (namesByRepo candidates key) timeout = .ok found ∧
        ∀ c ∈ candidates, key ∈ repoKeysForCandidate c →
          (repos key = none ∧ found = none) ∨ ∃ published evrs, repos key = some published ∧
            found = some evrs ∧ (c.evr ∈ evrs.of c.name ↔ published c.name c.evr) := by
    intro key
    by_cases hnames : namesByRepo candidates key = []
    · refine ⟨some ∅, by rw [queryPulpEvrs, if_pos hnames], fun c hc hkey => ?_⟩
      exact absurd (mem_namesByRepo hc hkey) (hnames ▸ List.not_mem_nil)
    · cases hrepo : repos key with
      | none => exact ⟨none, query_of_silent h hrepo hnames, fun _ _ _ => Or.inl ⟨rfl, rfl⟩⟩
      | some published =>
          obtain ⟨evrs, hok, hlists⟩ := query_of_answer h hrepo hnames
          refine ⟨some evrs, hok, fun c hc hkey => Or.inr ⟨published, evrs, rfl, rfl, ?_⟩⟩
          exact hlists c.name (mem_namesByRepo hc hkey) c.evr
  obtain ⟨x, hx, hshowsx⟩ := hquery .x86_64
  obtain ⟨a, ha, hshowsa⟩ := hquery .aarch64
  obtain ⟨s, hs, hshowss⟩ := hquery .source
  refine ⟨fun | .x86_64 => x | .aarch64 => a | .source => s, ?_, fun c hc key hkey => ?_⟩
  · simp only [checkCandidates, hx, ha, hs, except_bind_ok, except_pure]
  · cases key with
    | x86_64 => exact hshowsx c hc hkey
    | aarch64 => exact hshowsa c hc hkey
    | source => exact hshowss c hc hkey

/-- The loop over the repositories of a candidate finds one that has it, if there is one, and else
notices those that did not answer. -/
theorem searchRepos_spec {evrs : RepoKey → Option Evrs} {keys : List RepoKey} {anyUnknown : Bool}
    (hshows : ∀ key ∈ keys, (repos key = none ∧ evrs key = none) ∨
      ∃ published found, repos key = some published ∧ evrs key = some found ∧
        (c.evr ∈ found.of c.name ↔ published c.name c.evr)) :
    (∃ key ∈ keys, ∃ published, repos key = some published ∧ published c.name c.evr ∧
        (searchRepos evrs c keys anyUnknown).1 = some key) ∨
      ((∀ key ∈ keys, ∀ published, repos key = some published → ¬ published c.name c.evr) ∧
        (searchRepos evrs c keys anyUnknown).1 = none ∧
        ((searchRepos evrs c keys anyUnknown).2 = true ↔
          anyUnknown = true ∨ ∃ key ∈ keys, repos key = none)) := by
  induction keys generalizing anyUnknown with
  | nil => exact Or.inr ⟨by simp, rfl, by simp [searchRepos]⟩
  | cons key keys ih =>
      have htail := fun k hk => hshows k (List.mem_cons_of_mem _ hk)
      rcases hshows key List.mem_cons_self with ⟨hrepo, hevrs⟩ | ⟨published, found, hrepo, hevrs, hiff⟩
      · -- an unknown repository is passed over, and remembered
        have hloop : searchRepos evrs c (key :: keys) anyUnknown = searchRepos evrs c keys true := by
          rw [searchRepos, hevrs]
        rw [hloop]
        rcases @ih true htail with ⟨k, hk, hfound⟩ | ⟨hnone, hfst, hsnd⟩
        · exact Or.inl ⟨k, List.mem_cons_of_mem _ hk, hfound⟩
        · refine Or.inr ⟨?_, hfst, ?_⟩
          · intro k hk published hpub
            rcases List.mem_cons.mp hk with rfl | hk
            · exact absurd (hrepo.symm.trans hpub) (by simp)
            · exact hnone k hk published hpub
          · exact iff_of_true (hsnd.mpr (Or.inl rfl)) (Or.inr ⟨key, List.mem_cons_self, hrepo⟩)
      · by_cases hmem : c.evr ∈ found.of c.name
        · refine Or.inl ⟨key, List.mem_cons_self, published, hrepo, hiff.mp hmem, ?_⟩
          rw [searchRepos, hevrs]
          simp only [if_pos hmem]
        · have hloop : searchRepos evrs c (key :: keys) anyUnknown =
              searchRepos evrs c keys anyUnknown := by
            rw [searchRepos, hevrs]
            simp only [if_neg hmem]
          rw [hloop]
          rcases @ih anyUnknown htail with ⟨k, hk, hfound⟩ | ⟨hnone, hfst, hsnd⟩
          · exact Or.inl ⟨k, List.mem_cons_of_mem _ hk, hfound⟩
          · refine Or.inr ⟨?_, hfst, ?_⟩
            · intro k hk published' hpub
              rcases List.mem_cons.mp hk with rfl | hk
              · obtain rfl := Option.some.inj (hrepo.symm.trans hpub)
                exact mt hiff.mpr hmem
              · exact hnone k hk published' hpub
            · rw [hsnd]
              refine or_congr_right ⟨?_, ?_⟩
              · rintro ⟨k, hk, hsilent⟩
                exact ⟨k, List.mem_cons_of_mem _ hk, hsilent⟩
              · rintro ⟨k, hk, hsilent⟩
                rcases List.mem_cons.mp hk with rfl | hk
                · exact absurd (hrepo.symm.trans hsilent) (by simp)
                · exact ⟨k, hk, hsilent⟩

/-- What a candidate's result says, for what the repositories show. -/
theorem checkCandidate_spec {evrs : RepoKey → Option Evrs} (hshows : Shows repos evrs c) :
    (checkCandidate evrs c).candidate = c ∧
      ((checkCandidate evrs c).status = .conflict ↔ Conflicts repos c) ∧
      ((checkCandidate evrs c).status = .ok ↔ Clear repos c) ∧
      ((checkCandidate evrs c).status = .cannotDetermine ↔ ¬ Conflicts repos c ∧ ¬ Clear repos c) := by
  have hspec := @searchRepos_spec _ _ _ _ false hshows
  unfold checkCandidate
  split
  · rename_i hkeys
    have hnot : ¬ Conflicts repos c := by
      rintro ⟨key, hkey, -⟩
      rw [hkeys] at hkey
      exact absurd hkey List.not_mem_nil
    have hunclear : ¬ Clear repos c := fun hclear => hclear.1 hkeys
    simp [hnot, hunclear]
  · rename_i hne
    rcases hspec with ⟨key, hkey, published, hrepo, hpub, hfst⟩ | ⟨hnone, hfst, hsnd⟩
    · have hconflict : Conflicts repos c := ⟨key, hkey, published, hrepo, hpub⟩
      have hunclear : ¬ Clear repos c := by
        rintro ⟨-, hclear⟩
        obtain ⟨published', hrepo', hnot⟩ := hclear key hkey
        obtain rfl := Option.some.inj (hrepo.symm.trans hrepo')
        exact hnot hpub
      split
      · simp [hconflict, hunclear]
      · rename_i heq
        exact absurd (hfst.symm.trans (congrArg Prod.fst heq)) (by simp)
      · rename_i heq
        exact absurd (hfst.symm.trans (congrArg Prod.fst heq)) (by simp)
    · have hno : ¬ Conflicts repos c := by
        rintro ⟨key, hkey, published, hrepo, hpub⟩
        exact hnone key hkey published hrepo hpub
      split
      · rename_i heq
        exact absurd (hfst.symm.trans (congrArg Prod.fst heq)) (by simp)
      · rename_i heq
        obtain ⟨key, hkey, hsilent⟩ := (hsnd.mp (congrArg Prod.snd heq)).resolve_left (by simp)
        have hunclear : ¬ Clear repos c := by
          rintro ⟨-, hclear⟩
          obtain ⟨published, hrepo, -⟩ := hclear key hkey
          exact absurd (hsilent.symm.trans hrepo) (by simp)
        simp [hno, hunclear]
      · rename_i heq
        have hknown : ∀ key ∈ repoKeysForCandidate c, repos key ≠ none := by
          intro key hkey hsilent
          have htrue := hsnd.mpr (Or.inr ⟨key, hkey, hsilent⟩)
          rw [heq] at htrue
          exact absurd htrue (by simp)
        have hclear : Clear repos c := by
          refine ⟨hne, fun key hkey => ?_⟩
          obtain ⟨published, hrepo⟩ := Option.ne_none_iff_exists'.mp (hknown key hkey)
          exact ⟨published, hrepo, hnone key hkey published hrepo⟩
        simp [hno, hclear]

/-- A candidate's result depends only on what the repositories show of it. -/
theorem searchRepos_congr {evrs evrs' : RepoKey → Option Evrs} {keys : List RepoKey}
    {anyUnknown : Bool}
    (h : ∀ key ∈ keys, (evrs key = none ∧ evrs' key = none) ∨
      ∃ found found', evrs key = some found ∧ evrs' key = some found' ∧
        (c.evr ∈ found.of c.name ↔ c.evr ∈ found'.of c.name)) :
    searchRepos evrs c keys anyUnknown = searchRepos evrs' c keys anyUnknown := by
  induction keys generalizing anyUnknown with
  | nil => rfl
  | cons key keys ih =>
      have htail := fun k hk => h k (List.mem_cons_of_mem _ hk)
      unfold searchRepos
      rcases h key List.mem_cons_self with ⟨hnone, hnone'⟩ | ⟨found, found', hfound, hfound', hiff⟩
      · rw [hnone, hnone']
        exact ih htail
      · rw [hfound, hfound']
        dsimp only
        by_cases hmem : c.evr ∈ found.of c.name
        · rw [if_pos hmem, if_pos (hiff.mp hmem)]
        · rw [if_neg hmem, if_neg (mt hiff.mpr hmem)]
          exact ih htail

theorem checkCandidate_congr {evrs evrs' : RepoKey → Option Evrs} (h : Shows repos evrs c)
    (h' : Shows repos evrs' c) : checkCandidate evrs c = checkCandidate evrs' c := by
  have hsearch : ∀ anyUnknown, searchRepos evrs c (repoKeysForCandidate c) anyUnknown =
      searchRepos evrs' c (repoKeysForCandidate c) anyUnknown := by
    intro anyUnknown
    refine searchRepos_congr fun key hkey => ?_
    rcases h key hkey with ⟨hrepo, hnone⟩ | ⟨published, found, hrepo, hfound, hiff⟩
    · rcases h' key hkey with ⟨-, hnone'⟩ | ⟨_, _, hrepo', -⟩
      · exact Or.inl ⟨hnone, hnone'⟩
      · exact absurd (hrepo.symm.trans hrepo') (by simp)
    · rcases h' key hkey with ⟨hrepo', -⟩ | ⟨published', found', hrepo', hfound', hiff'⟩
      · exact absurd (hrepo'.symm.trans hrepo) (by simp)
      · obtain rfl := Option.some.inj (hrepo.symm.trans hrepo')
        exact Or.inr ⟨found, found', hfound, hfound', hiff.trans hiff'.symm⟩
  unfold checkCandidate
  split
  · rfl
  · rw [hsearch]

/-- What `checkCandidates_spec` says of the function that judges each candidate. -/
structure Judges (tools : NevrTools) (baseUrls : RepoKey → Str) (timeout : Nat)
    (repos : Repositories) (c : Candidate) (r : CheckResult) : Prop where
  candidate : r.candidate = c
  conflict : r.status = .conflict ↔ Conflicts repos c
  ok : r.status = .ok ↔ Clear repos c
  cannotDetermine : r.status = .cannotDetermine ↔ ¬ Conflicts repos c ∧ ¬ Clear repos c
  alone : checkCandidates tools [c] baseUrls timeout = .ok [r]

/-- **`checkCandidates_spec`** — each candidate gets one result, in order: the one it gets alone, by what
the repositories have published. -/
theorem checkCandidates_spec (h : Answers tools baseUrls timeout repos) (candidates : List Candidate) :
    ∃ judge, checkCandidates tools candidates baseUrls timeout = .ok (candidates.map judge) ∧
      ∀ c ∈ candidates, Judges tools baseUrls timeout repos c (judge c) := by
  obtain ⟨evrs, hok, hshows⟩ := checkCandidates_of_answers h candidates
  refine ⟨checkCandidate evrs, hok, fun c hc => ?_⟩
  obtain ⟨hcandidate, hconflict, hclear, hunknown⟩ := checkCandidate_spec (hshows c hc)
  refine ⟨hcandidate, hconflict, hclear, hunknown, ?_⟩
  obtain ⟨evrs', hok', hshows'⟩ := checkCandidates_of_answers h [c]
  rw [hok', List.map_singleton]
  rw [checkCandidate_congr (hshows' c (List.mem_singleton_self c)) (hshows c hc)]

/-! ## How the command ends -/

theorem checkAndReport_checked {args : NevrArgs} {errors errors' : List Str}
    {results : List CheckResult} {code : Nat}
    (h : checkAndReport tools args candidates errors = .ok (.checked results errors' code)) :
    checkCandidates tools candidates args.baseUrls args.timeout = .ok results ∧
      code = exitCode results errors' := by
  unfold checkAndReport at h
  split at h
  · exact absurd h (by simp)
  · split at h
    · exact absurd h (by simp)
    · exact absurd h (by simp)
    · rename_i found hfound
      obtain ⟨_, -, h⟩ := except_bind_ok_iff.mp h
      obtain ⟨rfl, rfl, rfl⟩ := NevrRun.checked.inj (Except.ok.inj h)
      refine ⟨?_, rfl⟩
      split at hfound
      · rename_i hnil
        rw [hnil, ← hfound]
        rfl
      · exact hfound

/-- A run that checks anything reports the results of its candidates. -/
theorem nevrMain_checked {args : NevrArgs} {errors : List Str} {results : List CheckResult}
    {code : Nat} (h : nevrMain tools args = .ok (.checked results errors code)) :
    ∃ candidates, checkCandidates tools candidates args.baseUrls args.timeout = .ok results ∧
      code = exitCode results errors := by
  unfold nevrMain at h
  split at h
  · obtain ⟨⟨candidates, _⟩, -, h⟩ := except_bind_ok_iff.mp h
    exact ⟨candidates, checkAndReport_checked h⟩
  · obtain ⟨selected, -, h⟩ := except_bind_ok_iff.mp h
    split at h
    · exact absurd h (by simp)
    · exact absurd h (by simp)
    · split at h
      · exact absurd h (by simp)
      · exact absurd h (by simp)
      · obtain ⟨⟨candidates, _⟩, -, h⟩ := except_bind_ok_iff.mp h
        exact ⟨candidates, checkAndReport_checked h⟩

theorem filter_status_ne_nil {results : List CheckResult} {status : CheckStatus} :
    (results.filter fun r => r.status = status) ≠ [] ↔ ∃ r ∈ results, r.status = status := by
  simp [List.filter_eq_nil_iff]

theorem exitCode_spec {results : List CheckResult} {errors : List Str} :
    (exitCode results errors = 1 ↔ ∃ r ∈ results, r.status = .conflict) ∧
      (exitCode results errors = 2 ↔ (¬ ∃ r ∈ results, r.status = .conflict) ∧
        ((∃ r ∈ results, r.status = .cannotDetermine) ∨ errors ≠ [])) ∧
      (exitCode results errors = 0 ↔ ¬ (∃ r ∈ results, r.status = .conflict) ∧
        ¬ ((∃ r ∈ results, r.status = .cannotDetermine) ∨ errors ≠ [])) := by
  unfold exitCode
  dsimp only
  by_cases hconflict : ∃ r ∈ results, r.status = .conflict
  · rw [if_pos (filter_status_ne_nil.mpr hconflict)]
    simp [hconflict]
  · rw [if_neg (mt filter_status_ne_nil.mp hconflict)]
    by_cases hrest : (∃ r ∈ results, r.status = .cannotDetermine) ∨ errors ≠ []
    · rw [if_pos (hrest.imp_left filter_status_ne_nil.mpr)]
      simp [hconflict, hrest]
    · rw [if_neg (mt (Or.imp_left filter_status_ne_nil.mp) hrest)]
      simp [hconflict, hrest]

end

/-- A repository server on which only the x86_64 repository can be reached, with one build of gcc; the
package `gcc` builds for both architectures. -/
def halfReachable : NevrTools where
  overrides := none
  safeLoad _ := .error (.raised .yamlError "")
  environ _ := none
  packages := [("gcc".toList, ["gcc.spec".toList])]
  releaseSpec := some (.exited 0 "cat > /m/macros.dist << EOF\n%dist .hum1\nEOF\n" [])
  rpmspec _ _ _ query :=
    match query with
    | .srpm => .exited 0 "gcc\t1-1\n" []
    | .binaries arch => .exited 0 ("gcc\t1-1\t".toList ++ arch ++ "\n".toList) []
  rpmFiles _ := none
  rpm _ := .missing
  dnf url _ _ := if url = "x86_64" then .exited 0 "gcc\t1-1\n" [] else .timedOut
  gitFetch _ := .missing
  gitDiff _ := .missing

/-- What those repositories have published. -/
def halfPublished : Repositories := fun key =>
  if key = .x86_64 then some fun name evr => name = "gcc" ∧ evr = "1-1" else none

/-- A build of gcc for an architecture. -/
def gccBuild (arch : Str) : Candidate := ⟨"gcc", "gcc", "1-1", arch⟩

theorem halfReachable_answers : Answers halfReachable RepoKey.name 30 halfPublished := by
  intro key names _
  cases key with
  | x86_64 =>
      refine ⟨"gcc\t1-1\n", [], rfl, fun name _ evr => ?_⟩
      have hlines : (outputLines "gcc\t1-1\n").filterMap evrOfLine = [("gcc".toList, "1-1".toList)] := by
        decide
      rw [← List.mem_filterMap, hlines, List.mem_singleton, Prod.mk.injEq]
  | aarch64 => exact Or.inl rfl
  | source => exact Or.inl rfl

/-- The key a candidate is kept under. -/
def Candidate.key (c : Candidate) : Str × Str := (c.name, c.arch)

theorem lookup_putCandidate {d : CandidateDict} {c : Candidate} {k : Str × Str} :
    AList.lookup k (putCandidate d c) = if k = c.key then some c else AList.lookup k d := by
  unfold putCandidate Candidate.key
  by_cases h : k = (c.name, c.arch)
  · rw [h, AList.lookup_insert, if_pos rfl]
  · rw [AList.lookup_insert_ne h, if_neg h]

/-- What is kept under a key is one of the candidates with that key. -/
theorem mem_of_lookup_foldl {cs : List Candidate} {d : CandidateDict} {k : Str × Str} {c : Candidate}
    (h : AList.lookup k (cs.foldl putCandidate d) = some c) :
    (c ∈ cs ∧ c.key = k) ∨ AList.lookup k d = some c := by
  induction cs generalizing d with
  | nil => exact Or.inr h
  | cons c' cs ih =>
      rcases ih h with ⟨hmem, hkey⟩ | hlookup
      · exact Or.inl ⟨List.mem_cons_of_mem _ hmem, hkey⟩
      · rw [lookup_putCandidate] at hlookup
        split at hlookup
        · rename_i hk
          obtain rfl := Option.some.inj hlookup
          exact Or.inl ⟨List.mem_cons_self, hk.symm⟩
        · exact Or.inr hlookup

/-- Some candidate is kept under the key of each. -/
theorem lookup_foldl_isSome {cs : List Candidate} {d : CandidateDict} {k : Str × Str}
    (h : (∃ c ∈ cs, c.key = k) ∨ (AList.lookup k d).isSome = true) :
    (AList.lookup k (cs.foldl putCandidate d)).isSome = true := by
  induction cs generalizing d with
  | nil =>
      rcases h with ⟨c, hc, -⟩ | h
      · exact absurd hc List.not_mem_nil
      · exact h
  | cons c' cs ih =>
      refine ih ?_
      rw [lookup_putCandidate]
      rcases h with ⟨c, hc, rfl⟩ | h
      · rcases List.mem_cons.mp hc with rfl | hc
        · exact Or.inr (by simp)
        · exact Or.inl ⟨c, hc, rfl⟩
      · right
        split
        · rfl
        · exact h

/-- The dictionary of some candidates. -/
def candidateDict (all : List Candidate) : CandidateDict := all.foldl putCandidate ∅

theorem mem_candidateDict {all : List Candidate} {c : Candidate} :
    c ∈ (candidateDict all).entries.map (·.2) ↔ AList.lookup c.key (candidateDict all) = some c := by
  rw [List.mem_map]
  constructor
  · rintro ⟨⟨k, c'⟩, hentry, rfl⟩
    have hlookup := AList.mem_lookup_iff.mpr hentry
    rcases mem_of_lookup_foldl hlookup with ⟨-, hkey⟩ | hempty
    · rw [hkey]
      exact hlookup
    · exact absurd hempty (by simp)
  · intro hlookup
    exact ⟨⟨c.key, c⟩, AList.mem_lookup_iff.mp hlookup, rfl⟩

theorem not_isBinary_of_src {c : Candidate} (h : c.arch = "src".toList) : ¬ isBinary c = true := by
  rw [isBinary, h, Bool.and_eq_true]
  rintro ⟨hne, -⟩
  exact absurd hne (by decide)

theorem candidateOfLine_package {package line : Str} {c : Candidate}
    (h : candidateOfLine package line = some c) : c.package = package := by
  unfold candidateOfLine at h
  split at h
  · rw [← Option.some.inj h]
  · exact absurd h (by simp)

section

variable {tools : NevrTools} {macros package specFile : Str} {cs : List Candidate}

theorem runSpecQuery_ok {query : SpecQuery} {out : Str} :
    runSpecQuery tools macros package specFile query = .ok out ↔
      ∃ stderr, tools.rpmspec macros package specFile query = .exited 0 out stderr := by
  unfold runSpecQuery runRpmspec
  cases tools.rpmspec macros package specFile query with
  | exited code stdout stderr =>
      dsimp only
      by_cases hcode : code = 0
      · simp [hcode]
      · simp [hcode]
  | _ => simp

/-- For one of the targets, `rpmspec -q` lists a package that is neither a source package nor debug
information. -/
def Listed (tools : NevrTools) (macros package : Str) (c : Candidate) : Prop :=
  ∃ specFile target out stderr, tools.packages.lookup package = some [specFile] ∧
    target ∈ binaryArches ∧
    tools.rpmspec macros package specFile (.binaries target) = .exited 0 out stderr ∧
    (∃ line ∈ outputLines out, candidateOfLine package line = some c) ∧ isBinary c = true

theorem Listed.package_eq {c : Candidate} (h : Listed tools macros package c) :
    c.package = package := by
  obtain ⟨_, _, _, _, _, _, _, ⟨line, _, hline⟩, _⟩ := h
  exact candidateOfLine_package hline

theorem specSrpm_arch {c : Candidate}
    (h : specSrpm tools macros package specFile = .ok (some c)) : c.arch = "src".toList := by
  obtain ⟨out, -, h⟩ := except_bind_ok_iff.mp h
  split at h
  · exact absurd h (by simp)
  · split at h
    · obtain rfl := Option.some.inj (Except.ok.inj h)
      rfl
    · exact absurd h (by simp)

theorem mem_specBinaries {target : Str} {found : List Candidate} {c : Candidate}
    (h : specBinaries tools macros package specFile target = .ok found) :
    c ∈ found ↔ ∃ out stderr,
      tools.rpmspec macros package specFile (.binaries target) = .exited 0 out stderr ∧
        (∃ line ∈ outputLines out, candidateOfLine package line = some c) ∧ isBinary c = true := by
  obtain ⟨out, hout, h⟩ := except_bind_ok_iff.mp h
  obtain ⟨stderr, hrun⟩ := runSpecQuery_ok.mp hout
  obtain rfl := Except.ok.inj h
  rw [List.mem_filter, List.mem_filterMap, hrun]
  constructor
  · rintro ⟨hline, hbinary⟩
    exact ⟨out, stderr, rfl, hline, hbinary⟩
  · rintro ⟨out', stderr', heq, hline, hbinary⟩
    obtain ⟨-, rfl, -⟩ := TimedRun.exited.inj heq
    exact ⟨hline, hbinary⟩

/-- The candidates of spec mode are what is kept of the source package and of what is listed. -/
theorem getSpecCandidates_ok (h : getSpecCandidates tools macros package = .ok cs) :
    ∃ all, (∀ c, isBinary c = true → (c ∈ all ↔ Listed tools macros package c)) ∧
      (∀ c ∈ all, isBinary c = true ∨ c.arch = "src".toList) ∧
      ∀ c, c ∈ cs ↔ AList.lookup c.key (candidateDict all) = some c := by
  unfold getSpecCandidates at h
  split at h
  · rename_i specFile hspecs
    have hpackage : tools.packages.lookup package = some [specFile] := by
      cases hlookup : tools.packages.lookup package with
      | none => simp [hlookup] at hspecs
      | some specs =>
          rw [hlookup] at hspecs
          exact congrArg some hspecs
    obtain ⟨srpm, hsrpm, h⟩ := except_bind_ok_iff.mp h
    obtain ⟨x86_64, hx, h⟩ := except_bind_ok_iff.mp h
    obtain ⟨aarch64, ha, h⟩ := except_bind_ok_iff.mp h
    have hsrc : ∀ c ∈ srpm.toList, c.arch = "src".toList := by
      intro c hc
      rw [Option.mem_toList.mp hc] at hsrpm
      exact specSrpm_arch hsrpm
    refine ⟨srpm.toList ++ x86_64 ++ aarch64, ?_, ?_, ?_⟩
    · intro c hbinary
      have hnot : c ∉ srpm.toList := by
        intro hc
        exact not_isBinary_of_src (hsrc c hc) hbinary
      rw [List.mem_append, List.mem_append, or_iff_right hnot, mem_specBinaries hx, mem_specBinaries ha]
      constructor
      · rintro (⟨out, stderr, hrun⟩ | ⟨out, stderr, hrun⟩)
        · exact ⟨specFile, "x86_64", out, stderr, hpackage, by simp [binaryArches], hrun⟩
        · exact ⟨specFile, "aarch64", out, stderr, hpackage, by simp [binaryArches], hrun⟩
      · rintro ⟨specFile', target, out, stderr, hpackage', htarget, hrun⟩
        obtain rfl : specFile = specFile' := by simpa [hpackage] using hpackage'
        simp only [binaryArches, List.mem_cons, List.not_mem_nil, or_false] at htarget
        rcases htarget with rfl | rfl
        · exact Or.inl ⟨out, stderr, hrun⟩
        · exact Or.inr ⟨out, stderr, hrun⟩
    · intro c hc
      rw [List.mem_append, List.mem_append] at hc
      rcases hc with (hc | hc) | hc
      · exact Or.inr (hsrc c hc)
      · obtain ⟨_, _, _, _, hbinary⟩ := (mem_specBinaries hx).mp hc
        exact Or.inl hbinary
      · obtain ⟨_, _, _, _, hbinary⟩ := (mem_specBinaries ha).mp hc
        exact Or.inl hbinary
    · intro c
      dsimp only at h
      split at h
      · exact absurd h (by simp)
      · obtain rfl := Except.ok.inj h
        rw [List.mem_insertionSort]
        exact mem_candidateDict
  · exact absurd h (by simp)

/-- No two listed packages share name and architecture and differ in their EVR. -/
def OneEvr (tools : NevrTools) (macros package : Str) : Prop :=
  ∀ c c', Listed tools macros package c → Listed tools macros package c' → c.key = c'.key →
    c.evr = c'.evr

/-- **`specComplete_iff`** — every listed package is a candidate exactly when the targets agree on the
EVRs of what they share. -/
theorem specComplete_iff (h : getSpecCandidates tools macros package = .ok cs) :
    (∀ c, Listed tools macros package c → c ∈ cs) ↔ OneEvr tools macros package := by
  obtain ⟨all, hlisted, hall, hmem⟩ := getSpecCandidates_ok h
  constructor
  · intro hcomplete c c' hc hc' hkey
    have hlookup := (hmem c).mp (hcomplete c hc)
    have hlookup' := (hmem c').mp (hcomplete c' hc')
    rw [hkey] at hlookup
    rw [Option.some.inj (hlookup.symm.trans hlookup')]
  · intro hone c hc
    have hbinary : isBinary c = true := by
      obtain ⟨_, _, _, _, _, _, _, _, hbinary⟩ := hc
      exact hbinary
    have hin : c ∈ all := (hlisted c hbinary).mpr hc
    obtain ⟨c', hc'⟩ := Option.isSome_iff_exists.mp
      (lookup_foldl_isSome (d := ∅) (Or.inl ⟨c, hin, rfl⟩))
    rcases mem_of_lookup_foldl hc' with ⟨hin', hkey⟩ | hempty
    · -- what is kept under the key is a listed package, since the source package has another key
      have hbinary' : isBinary c' = true := by
        refine (hall c' hin').resolve_right fun hsrc => ?_
        exact not_isBinary_of_src ((congrArg Prod.snd hkey).symm.trans hsrc) hbinary
      have hlisted' := (hlisted c' hbinary').mp hin'
      obtain ⟨hname, harch⟩ := Prod.mk.inj hkey
      have hsame : c' = c :=
        Candidate.ext (hlisted'.package_eq.trans hc.package_eq.symm) hname
          (hone c' c hlisted' hc hkey) harch
      rw [hmem, candidateDict, hc', hsame]
    · exact absurd hempty (by simp)

end

/-! ### A package whose targets disagree -/

/-- The outputs of `rpmspec -q` for a package with a subpackage that is the same for all architectures
but has another release on each. -/
def splitRelease (x86_64 aarch64 : Str) : NevrTools :=
  { halfReachable with
    rpmspec := fun _ _ _ query =>
      match query with
      | .srpm => .exited 0 "gcc\t1-1\n" []
      | .binaries arch =>
          .exited 0 ("gcc-doc\t1-".toList ++ (if arch = "x86_64" then x86_64 else aarch64) ++
            "\tnoarch\n".toList) [] }

/-- The documentation package, at a release. -/
def gccDoc (release : Str) : Candidate := ⟨"gcc", "gcc-doc", "1-".toList ++ release, "noarch"⟩

/-- The release of the first target is overwritten by that of the second. -/
theorem specCandidates_lose_release :
    Listed (splitRelease "1" "2") [] "gcc" (gccDoc "1") ∧
      ∃ cs, getSpecCandidates (splitRelease "1" "2") [] "gcc" = .ok cs ∧ gccDoc "1" ∉ cs := by
  constructor
  · exact ⟨"gcc.spec", "x86_64", "gcc-doc\t1-1\tnoarch\n", [], rfl, by decide, rfl,
      ⟨"gcc-doc\t1-1\tnoarch", by decide, by decide⟩, by decide⟩
  · exact ⟨[⟨"gcc", "gcc", "1-1", "src"⟩, gccDoc "2"], by decide, by decide⟩

/-- With one release, nothing is lost. -/
theorem specComplete_iff_one_release :
    ∃ cs, getSpecCandidates (splitRelease "1" "1") [] "gcc" = .ok cs ∧
      ((∀ c, Listed (splitRelease "1" "1") [] "gcc" c → c ∈ cs) ↔
        OneEvr (splitRelease "1" "1") [] "gcc") := by
  have hok : getSpecCandidates (splitRelease "1" "1") [] "gcc" =
      .ok [⟨"gcc", "gcc", "1-1", "src"⟩, gccDoc "1"] := by
    decide
  exact ⟨_, hok, specComplete_iff hok⟩

end HummingbirdRpms
