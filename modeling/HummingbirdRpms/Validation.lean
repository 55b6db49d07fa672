/-
# HummingbirdRpms.Validation — whether the record of a package fits its files and its history.

`ci/validate_package_modifications.py` goes through the packages of a checkout.  Of each it checks the
fields of the record, the policy for local changes and, in its fast mode, that the record says that the
package is modified exactly when its history says so: some commit since the last synchronisation touches
`rpms/<package>`, has no `Upstream:` line and changes more than releases.  In its thorough mode it clones
the upstream and compares files instead.

The commits are read off a linear history, the newest first; each has the commits that lead to it for its
parents (`Entry`).  **`validatePackage_fast_iff`** says what the fast mode accepts.  The packages are
validated in threads: **`validatePackages_orders`** — in whatever order they finish, the exit code is the
same, and so are the errors that are printed.
-/
import HummingbirdRpms.History
import HummingbirdRpms.LocalPolicy
import HummingbirdRpms.ReleaseOnly
import HummingbirdRpms.UpstreamCheck

namespace HummingbirdRpms.Validation

open Lib Lib.Text Lib.Exec

/-! ## The history -/

/-- A commit, with the commits that lead to it. -/
structure Entry where
  commit : Commit
  before : List Commit

namespace Entry

def history (e : Entry) : List Commit := e.commit :: e.before

/-- What the commit tracks in `rpms/<package>`. -/
def new (p : Str) (e : Entry) : Tree := (e.commit.content p).rpms

/-- What its parent tracks there. -/
def old (p : Str) (e : Entry) : Tree :=
  match e.before with
  | c :: _ => (c.content p).rpms
  | [] => ∅

/-- Whether `git log -- rpms/<package>` lists the commit. -/
def touches (p : Str) (e : Entry) : Bool :=
  ((e.old p).paths ++ (e.new p).paths).any fun q => (e.old p).read q != (e.new p).read q

/-- Whether `--grep ^Sync <package> ` or `--grep ^Import <package>-[0-9]` lists it. -/
def syncs (p : Str) (e : Entry) : Bool := reads p e.commit.message

end Entry

/-- The commits of a branch, each with those that lead to it. -/
def entries : List Commit → List Entry
  | [] => []
  | c :: before => ⟨c, before⟩ :: entries before

/-- `--grep=^Upstream:` -/
def hasUpstream (message : Str) : Bool := (newlineSplit message).any (startsWith "Upstream:")

/-- `%s`, the first paragraph on one line -/
def subject (message : Str) : Str :=
  join " " (((newlineSplit message).dropWhile fun l => strip l = []).takeWhile fun l => strip l ≠ [])

/-- What the validator learns from git besides the commits themselves. -/
structure Checks where
  /-- The hash of the newest of these commits. -/
  hash : List Commit → Str
  /-- Two commits of a branch have two hashes. -/
  distinct : ∀ commits, ((entries commits).map fun e => hash e.history).Nodup
  /-- Whether the newest was committed on or after 2026-03-05. -/
  recent : List Commit → Bool
  /-- `git show` of a package directory -/
  git : Git
  /-- `git show` of `rpms/<package>/<name>`, between two trees of the package. -/
  showSpec : Tree → Tree → Str → Option LocalPolicy.SpecChange

section

variable (k : Checks) (p : Str)

/-- `find_last_sync_commit` -/
def findLastSyncCommit (commits : List Commit) : Option Str :=
  ((entries commits).find? (·.syncs p)).map fun e => k.hash e.history

/-- The commits of `<sha>..HEAD`, or of `HEAD` without a hash. -/
def gitRange (lastSyncSha : Option Str) (commits : List Commit) : List Entry :=
  match lastSyncSha with
  | some sha => (entries commits).takeWhile fun e => k.hash e.history ≠ sha
  | none => entries commits

/-- The files of a package in a commit; modes are left out. -/
def packageTree (t : Tree) : PackageTree where
  tree := gitFiles t
  executable _ := false
  files q h := by
    rw [read_gitFiles] at h
    split at h
    · rename_i hfile
      rw [Tree.isFile, h] at hfile
      exact absurd hfile (by decide)
    · exact absurd h (by simp)

/-- `is_release_only_commit` -/
def releaseOnly (e : Entry) : Bool := isReleaseOnlyCommit k.git (packageTree (e.old p)) (packageTree (e.new p))

/-- The commits whose missing trailer is excused, each for a reason of its own. -/
def excusedCommits : List Str :=
  ["e5066a9dca178d5eeba0b1bfdacec5269314e99e", "fbd9bdab64f786daada3e54ae795936e8d822075",
    "1edd3cab10e1047d6374e2233ede46443776f3c9", "57730ec76cb2fb006c2d4f93550895e242309c38",
    "134c5f3502ca505092f7d000388821ea375a491d", "f0c23ce5ebcfd6a2b9bb0c4ff359e34059a7a724",
    "5c111d84c07cc9ca1e8ae714f19687f47a5d4051", "620ed1b9214113cb470f768fbb8f8e3e14a5db84",
    "9cdb789007c07689b1b5c74f27266819f1fa7d41", "2cf72f98ca36af5376b55db3f543fa3d434b98bd",
    "e2fb14572622cca265c32ec43ac40886fc0fd562", "f1c05ee76df178ca4df227e372670ee21e2828ec",
    "b5fb4f662c6474e14d6c6bec1c4239ab65cd572f", "4f575724f889c3e78cc12560d8991fa896f1b756",
    "9a82048c8aaf1f83607a5d74b3609bbbbfba21d3", "609bdcca277e9d2c0830ea8b6be39368ce78b810",
    "2bad62ba0ea82514ec430c7a0e4e141ca90589b8", "671a6d654e605e81b9d18e43295b925a392a8ff9",
    "15a348055110d0f7f136ab8959c70244d0500a7e", "93a1e70095f9a162ff8e4f08e8a6965f9c88bad5",
    "3ee7e596db5e6e0e85ba4132489838b736bb9683", "9f21e3a1599c908cb522361938f64440b6d59631",
    "ee7e5850c2e61218d5eb08c1c325dd3b342b6e5b", "ad6a072a59433f0b55c4a099529da9b3522b92df"]

/-- `--format=%H %s` -/
def logLine (e : Entry) : Str := k.hash e.history ++ ' ' :: subject e.commit.message

def excused (e : Entry) : Bool := excusedCommits.any fun sha => startsWith (sha ++ " ".toList) (logLine k e)

/-- The commits of a package, as the policy check reads them. -/
def localCommit (e : Entry) : LocalPolicy.Commit where
  sha := k.hash e.history
  subject := subject e.commit.message
  message := newlineSplit e.commit.message
  recent := k.recent e.history
  change := k.showSpec (e.old p) (e.new p)

/-- `check_git_history_state`: the message for a package that is not clean. -/
def checkGitHistoryState (lastSyncSha : Option Str) (commits : List Commit) : Option Str :=
  let badCommits := (gitRange k lastSyncSha commits).filter fun e =>
    e.touches p && !hasUpstream e.commit.message && !excused k e
  match badCommits.filter fun e => !releaseOnly k p e with
  | [] => none
  | e :: _ => some (LocalPolicy.commitLabel p (localCommit k p e) ++
      " is missing 'Upstream:' trailer. Package appears to be locally modified.".toList)

/-- What `check_local_modifications` looks at. -/
def localPackage (specs : List Str) (lastSyncSha : Option Str) (commits : List Commit) : LocalPolicy.Package where
  name := p
  specs := specs
  commits := ((gitRange k lastSyncSha commits).filter (·.touches p)).map (localCommit k p)

end

/-! ## The record -/

/-- The text of a status in a record. -/
def statusText : ModificationStatus → Str
  | .clean => "clean"
  | .modified => "modified"
  | .independent => "independent"

/-- The value of a project in a record. -/
def projectValue : ProjectId → Value
  | .id n => .num (n = 0) (ofInt n)
  | .name s => .str s

/-- The fields of a record, with their values where they are present. -/
def recordFields (m : PackageMetadata) : List (Str × Option Value) :=
  [("branch", m.branch.map .str),
    ("modification_reason", m.modificationReason.map .str),
    ("modification_status", m.modificationStatus.map fun s => .str (statusText s)),
    ("release", m.release.map .str),
    ("release_monitoring_project_id", m.releaseMonitoringProjectId.map projectValue),
    ("sha", m.sha.map .str),
    ("source", m.source.map .str),
    ("track_upstream", m.trackUpstream.map .str),
    ("upstream_repo", m.upstreamRepo.map .str),
    ("version", some (.str m.version)),
    ("version_from_ref", m.versionFromRef.map fun d => .dict (d.map fun e => (e.1, .str e.2)))]

/-- `metadata/<package>.json`, as `json.load` returns it. -/
def recordJson (m : PackageMetadata) : Value :=
  .dict ((recordFields m).filterMap fun f => f.2.map fun v => (f.1, v))

/-- How the validation of a package ends, unless it passes. -/
inductive Stop where
  | invalid (message : Str)
  /-- An exception; `none` is the `OverflowError` of `int(inf)`. -/
  | raised (e : Option Exn)
  deriving DecidableEq

/-- What raises in a check. -/
def orRaise {α : Type} : Except Exn α → Except Stop α
  | .ok a => .ok a
  | .error e => .error (.raised (some e))

/-- `return False, f'{package_name}: …'` under a condition -/
def reject (c : Prop) [Decidable c] (p : Str) (message : String) : Except Stop Unit :=
  failIf c (.invalid (p ++ ": ".toList ++ message.toList))

section

variable [UnicodeTables] (k : Checks) (env : Env) (w : World) (p : Str)

/-- Check 3: what an independent package has to satisfy. -/
def checkIndependent (data : Value) : Except Stop Unit := do
  let source ← orRaise (data.contains "source")
  let branch ← orRaise (data.contains "branch")
  let sha ← orRaise (data.contains "sha")
  reject (source || branch || sha) p "Independent package should not have source/branch/sha fields"
  let release ← orRaise (data.contains "release")
  reject release p "Independent package should not have release field"
  let dir := w.packageDir p
  if !dir.present sourcesName then return ()
  else if strip (← orRaise (readText dir sourcesName)) = [] then return ()
  else
    let overrides ← orRaise (loadOverrides env w.overrides)
    let pkgOverride := (← orRaise (overrides.get p)).orDict
    let forked ← orRaise (pkgOverride.get "forked_from")
    let cache ← orRaise (pkgOverride.get "lookaside_cache_url")
    reject (!forked.truthy && !cache.truthy) p
      ("Independent package is missing forked_from (or lookaside_cache_url) in " ++
        "ci/package-overrides.yaml -- without one of these, the build will try to fetch sources from " ++
        "Fedora's lookaside cache, where they don't exist.")

/-- Check 3.5: the policy for local changes. -/
def checkPolicy (lastSyncSha : Option Str) : Except Stop Unit :=
  match LocalPolicy.checkLocalModifications
      (localPackage k p ((w.packageDir p).glob ".spec") lastSyncSha w.commits) with
  | .valid => .ok ()
  | .invalid message => .error (.invalid message)
  | .raised => .error (.raised none)

/-- A check of a field that need not be there. -/
def checkField (key : Str) (data : Value) (check : Value → Except Stop Unit) : Except Stop Unit := do
  if ← orRaise (data.contains key) then check (← orRaise (data.index key))

/-- Checks 4 and 4.5: the settings that `check_upstream_versions.py` reads. -/
def checkSettings (data : Value) : Except Stop Unit := do
  checkField "track_upstream" data fun track =>
    failIf (track.typeName ≠ "str".toList) (.invalid (p ++ ": track_upstream must be a string, got ".toList ++
      track.typeName))
  checkField "release_monitoring_project_id" data fun project =>
    reject (project.isInt = false) p "release_monitoring_project_id must be an integer"

/-- Check 6: the status against the history. -/
def checkHistory (status : Str) (lastSyncSha : Option Str) : Except Stop Unit :=
  match checkGitHistoryState k p lastSyncSha w.commits with
  | some historyError => failIf (status = "clean".toList) (.invalid historyError)
  | none => reject (status = "modified".toList) p
      ("Marked as modified but git history shows only standard Import/Update/Sync commits. " ++
        "Consider marking as clean.")

/-- Check 7: the status against a clone of the upstream. -/
def checkState (status : Str) (data : Value) : Except Stop Unit := do
  let source ← orRaise ((← orRaise (data.index "source")).asStr)
  let branch ← orRaise ((← orRaise (data.index "branch")).asStr)
  match (env.clone source branch true).filter fun up => (up.tip branch).isSome with
  | none => .error (.raised (some (.raised .calledProcessError "git clone")))
  | some up => do
      let sha ← orRaise ((← orRaise (data.index "sha")).asStr)
      let actuallyUnmodified ← orRaise (isPackageUnmodified env up (w.packageDir p) sha)
      reject (status = "clean".toList ∧ actuallyUnmodified = false) p
        "Marked as clean but package has modifications"
      reject (status = "modified".toList ∧ actuallyUnmodified = true) p
        "Marked as modified but package is actually clean"

/-- `validate_package`, for a package that has a record and a directory. -/
def validateRecord (checkActualState : Bool) (data : Value) : Except Stop Unit := do
  let present ← orRaise (data.contains "modification_status")
  reject (present = false) p "Missing modification_status field"
  let status ← orRaise (data.index "modification_status")
  match status with
  | .str status => do
      failIf (status ∉ (["clean", "modified", "independent"].map String.toList))
        (.invalid (p ++ ": Invalid modification_status '".toList ++ status ++ "'".toList))
      if status = "independent".toList then checkIndependent env w p data
      else
        let source ← orRaise (data.contains "source")
        let release ← orRaise (data.contains "release")
        reject (source = false ∧ release = true) p "Package without Fedora source should not have release field"
        let lastSyncSha := findLastSyncCommit k p w.commits
        checkPolicy k w p lastSyncSha
        checkSettings p data
        let reason ← orRaise (data.get "modification_reason")
        reject (status = "modified".toList ∧ reason.truthy = false) p
          "Marked as modified but missing modification_reason"
        if checkActualState then checkState env w p status data
        else checkHistory k w p status lastSyncSha
  | other => .error (.invalid (p ++ ": Invalid modification_status '".toList ++ other.format ++ "'".toList))

/-- `validate_package` -/
def validatePackage (checkActualState : Bool) : Except Stop Unit :=
  match w.metadata p with
  | none => .error (.invalid (p ++ ": Missing metadata file".toList))
  | some m => do
      reject (w.rpms p = none) p "Missing package directory"
      validateRecord k env w p checkActualState (recordJson m)

end

/-! ## All packages -/

/-- The loop over the validations in the order in which they finish: the errors, or the exception that one
of them raised. -/
def collect : List (Except Stop Unit) → Except (Option Exn) (List Str)
  | [] => .ok []
  | .ok () :: rest => collect rest
  | .error (.invalid message) :: rest => (message :: ·) <$> collect rest
  | .error (.raised e) :: _ => .error e

section

variable [UnicodeTables] (k : Checks) (env : Env) (w : World)

/-- `validate_packages`, with the packages in the order in which their validations finish: the exit code
and the errors. -/
def validatePackages (shallow checkActualState : Bool) (order : List Str) :
    Except (Option Exn) (Nat × List Str) :=
  if !checkActualState && shallow then .ok (1, [])
  else do
    let errors ← collect (order.map fun p => validatePackage k env w p checkActualState)
    return (if errors = [] then 0 else 1, errors)

/-- What is listed under `rpms/` and `metadata/`. -/
structure Listing where
  directories : List Str
  records : List Str
  mem_directories : ∀ p, p ∈ directories ↔ w.rpms p ≠ none
  mem_records : ∀ p, p ∈ records ↔ w.metadata p ≠ none

/-- `find_packages_without_metadata` -/
def findPackagesWithoutMetadata {w : World} (l : Listing w) : List Str :=
  l.directories.filter fun p => !l.records.contains p

/-- `--all`, as `make check` runs it: with the order in which the validations finish. -/
def validateAll {w : World} (l : Listing w) (shallow checkActualState : Bool) (order : List Str) :
    Except (Option Exn) (Nat × List Str) :=
  if findPackagesWithoutMetadata l ≠ [] then .ok (1, [])
  else validatePackages k env w shallow checkActualState order

end

/-! ## What the record's fields are read as -/

section

variable {m : PackageMetadata} {key : Str} {v : Option Value}

/-- A field that is present has its value, and another one none. -/
theorem lookup_present {fields : List (Str × Option Value)} (hkeys : (fields.map Prod.fst).Nodup) :
    (fields.filterMap fun f => f.2.map fun x => (f.1, x)).lookup key = (fields.lookup key).join := by
  induction fields with
  | nil => rfl
  | cons f fields ih =>
      obtain ⟨name, x⟩ := f
      obtain ⟨hnot, hrest⟩ := List.nodup_cons.mp hkeys
      rw [List.lookup_cons]
      by_cases hname : key = name
      · subst hname
        rw [beq_self_eq_true]
        cases x with
        | some x => simp
        | none =>
            have hnone : fields.lookup key = none := by
              rw [List.lookup_eq_none_iff]
              rintro ⟨name, y⟩ hmem
              refine bne_iff_ne.mpr ?_
              rintro rfl
              exact hnot (List.mem_map.mpr ⟨_, hmem, rfl⟩)
            simpa [hnone] using ih hrest
      · have hne : (key == name) = false := beq_eq_false_iff_ne.mpr hname
        cases x with
        | some x => simpa [List.lookup_cons, hne] using ih hrest
        | none => simpa [hne] using ih hrest

theorem any_key {entries : List (Str × Value)} : (entries.any fun e => e.1 = key) = (entries.lookup key).isSome := by
  induction entries with
  | nil => rfl
  | cons e entries ih =>
      rw [List.any_cons, List.lookup_cons, ih]
      by_cases h : key = e.1
      · simp [h]
      · have h' : (key == e.1) = false := beq_eq_false_iff_ne.mpr h
        simp [h', Ne.symm h]

theorem lookup_record (h : (recordFields m).lookup key = some v) :
    ((recordFields m).filterMap fun f => f.2.map fun x => (f.1, x)).lookup key = v := by
  have hkeys : ((recordFields m).map Prod.fst).Nodup := by
    have hnames : (recordFields m).map Prod.fst = (["branch", "modification_reason", "modification_status",
        "release", "release_monitoring_project_id", "sha", "source", "track_upstream", "upstream_repo", "version",
        "version_from_ref"].map String.toList) := rfl
    rw [hnames]
    decide
  rw [lookup_present hkeys, h]
  rfl

theorem contains_record (h : (recordFields m).lookup key = some v) :
    (recordJson m).contains key = .ok v.isSome := by
  show Except.ok (List.any _ _) = _
  rw [any_key, lookup_record h]

theorem index_record {x : Value} (h : (recordFields m).lookup key = some (some x)) :
    (recordJson m).index key = .ok x := by
  unfold recordJson Value.index
  dsimp only
  rw [lookup_record h]

theorem get_record (h : (recordFields m).lookup key = some v) : (recordJson m).get key = .ok (v.getD .none) := by
  show Except.ok (Option.getD _ _) = _
  rw [lookup_record h]

end

/-! ## Numbers -/

theorem digitsValue_isSome {s : Str} (hs : ∀ c ∈ s, isAsciiDigit c = true) {seen : Option Nat} {acc : Nat}
    (hne : s ≠ [] ∨ seen.isSome = true) : (digitsValue seen acc s).isSome = true := by
  induction s generalizing seen acc with
  | nil =>
      have hseen : seen.isSome = true := hne.resolve_left fun h => h rfl
      rw [digitsValue, Option.isSome_map]
      exact hseen
  | cons c cs ih =>
      obtain ⟨hc, hcs⟩ := List.forall_mem_cons.mp hs
      rw [digitsValue, if_pos hc]
      exact ih hcs (Or.inr rfl)

theorem digitsValue_ofNat {n : Nat} : ∃ m, digitsValue none 0 (ofNat n) = some m :=
  Option.isSome_iff_exists.mp
    (digitsValue_isSome (fun _ => isAsciiDigit_of_mem_ofNat) (Or.inl (ofNat_ne_nil n)))

/-- A number that is written out is read as a number. -/
theorem parseInt_ofInt (n : Int) : (parseInt (ofInt n)).isSome = true := by
  have hdigits : ∀ m, Solid (ofNat m) := fun m =>
    Binary64.solid_digits (ofNat_ne_nil m) fun _ => isAsciiDigit_of_mem_ofNat
  unfold parseInt
  cases n with
  | ofNat n =>
      have hint : ofInt (Int.ofNat n) = ofNat n := rfl
      rw [hint, strip_solid (hdigits n)]
      -- No digit is a sign.
      split
      · rename_i heq
        exact absurd (isAsciiDigit_of_mem_ofNat (heq ▸ List.mem_cons_self)) (by decide)
      · rename_i heq
        exact absurd (isAsciiDigit_of_mem_ofNat (heq ▸ List.mem_cons_self)) (by decide)
      · obtain ⟨m, hm⟩ := digitsValue_ofNat (n := n)
        rw [hm]
        rfl
  | negSucc n =>
      have hint : ofInt (Int.negSucc n) = '-' :: ofNat (n + 1) := by
        show ("-" ++ Nat.repr (n + 1)).toList = _
        rw [String.toList_append]
        rfl
      have hsolid : Solid ('-' :: ofNat (n + 1)) := by
        obtain ⟨c, hc, hspace⟩ := (hdigits (n + 1)).last
        exact ⟨⟨'-', rfl, by decide⟩, c, by simp [List.getLast?_cons, Option.mem_def.mp hc], hspace⟩
      rw [hint, strip_solid hsolid]
      obtain ⟨m, hm⟩ := digitsValue_ofNat (n := n + 1)
      split
      · rename_i cs heq
        rw [← (List.cons.inj heq).2, hm]
        rfl
      · rename_i heq
        exact absurd (List.cons.inj heq).1 (by decide)
      · rename_i hnot _
        exact absurd rfl (hnot _)

/-! ## What the fast mode accepts -/

/-- The commits since the last synchronisation. -/
def since (p : Str) (commits : List Commit) : List Entry := (entries commits).takeWhile fun e => !e.syncs p

/-- A commit for which a package counts as locally modified. -/
def bad (k : Checks) (p : Str) (e : Entry) : Bool :=
  e.touches p && !hasUpstream e.commit.message && !excused k e && !releaseOnly k p e

/-- The history says that the package is clean. -/
def HistoryClean (k : Checks) (p : Str) (commits : List Commit) : Prop := ∀ e ∈ since p commits, bad k p e = false

section

variable {k : Checks} {p : Str} {commits : List Commit} {c : Commit}

@[simp] theorem entries_nil : entries [] = [] := rfl

@[simp] theorem entries_cons : entries (c :: commits) = ⟨c, commits⟩ :: entries commits := rfl

theorem since_cons : since p (c :: commits) =
    if reads p c.message = true then [] else ⟨c, commits⟩ :: since p commits := by
  unfold since
  rw [entries_cons, List.takeWhile_cons]
  show (if (!reads p c.message) = true then _ else _) = _
  cases reads p c.message <;> rfl

/-- What stands in front of the first element that passes a test, by a name that no two elements share. -/
theorem takeWhile_name {α β : Type} [DecidableEq β] {name : α → β} {test : α → Bool} {l : List α} {b : α}
    (hnames : (l.map name).Nodup) (hfind : l.find? test = some b) :
    (l.takeWhile fun a => name a ≠ name b) = l.takeWhile fun a => !test a := by
  induction l with
  | nil => rfl
  | cons a l ih =>
      obtain ⟨hnot, hrest⟩ := List.nodup_cons.mp hnames
      rw [List.find?_cons] at hfind
      cases htest : test a with
      | true =>
          rw [htest] at hfind
          obtain rfl := Option.some.inj hfind
          simp [htest]
      | false =>
          rw [htest] at hfind
          have hne : name a ≠ name b := by
            intro heq
            exact hnot (heq ▸ List.mem_map_of_mem (List.mem_of_find?_eq_some hfind))
          rw [List.takeWhile_cons_of_pos (by simpa using hne), List.takeWhile_cons_of_pos (by simp [htest]),
            ih hrest hfind]

theorem gitRange_lastSync : gitRange k (findLastSyncCommit k p commits) commits = since p commits := by
  unfold findLastSyncCommit since
  cases hfind : (entries commits).find? (·.syncs p) with
  | none =>
      refine (List.takeWhile_eq_self_iff.mpr fun e he => ?_).symm
      simpa using List.find?_eq_none.mp hfind e he
  | some e => exact takeWhile_name (k.distinct commits) hfind

/-- **`historyClean_iff`** — the history check finds nothing where no commit counts as a local change. -/
theorem historyClean_iff :
    checkGitHistoryState k p (findLastSyncCommit k p commits) commits = none ↔ HistoryClean k p commits := by
  unfold checkGitHistoryState
  rw [gitRange_lastSync]
  dsimp only
  rw [List.filter_filter]
  have hbad : (since p commits).filter (fun e => !releaseOnly k p e &&
      (e.touches p && !hasUpstream e.commit.message && !excused k e)) = (since p commits).filter (bad k p) :=
    List.filter_congr fun e _ => Bool.and_comm _ _
  rw [hbad]
  constructor
  · intro h
    split at h
    · rename_i hnil
      intro e he
      exact Bool.eq_false_iff.mpr (List.filter_eq_nil_iff.mp hnil e he)
    · exact absurd h (by simp)
  · intro h
    rw [List.filter_eq_nil_iff.mpr fun e he => Bool.eq_false_iff.mp (h e he)]

theorem historyClean_cons :
    HistoryClean k p (c :: commits) ↔
      reads p c.message = true ∨ bad k p ⟨c, commits⟩ = false ∧ HistoryClean k p commits := by
  unfold HistoryClean
  rw [since_cons]
  split
  · rename_i hreads
    simp [hreads]
  · rename_i hreads
    rw [or_iff_right hreads, List.forall_mem_cons]

end

/-- No local commit since the last synchronisation breaks the policy, in a spec file of whatever name. -/
def Compliant [UnicodeTables] (k : Checks) (p : Str) (commits : List Commit) : Prop :=
  ∀ e ∈ since p commits, e.touches p = true → k.recent e.history = true → hasUpstream e.commit.message = false →
    ∀ spec, (k.showSpec (e.old p) (e.new p) spec).bind LocalPolicy.checkChange = none

section

variable [UnicodeTables] {k : Checks} {env : Env} {p : Str} {commits : List Commit} {c : Commit} {w : World}
  {m : PackageMetadata} {specs : List Str}

theorem policy_valid (h : Compliant k p commits) :
    LocalPolicy.checkLocalModifications
      (localPackage k p specs (findLastSyncCommit k p commits) commits) = .valid := by
  unfold LocalPolicy.checkLocalModifications LocalPolicy.Package.localCommits localPackage
  rw [gitRange_lastSync]
  dsimp only
  have hnone : (specs.findSome? fun spec =>
      ((((since p commits).filter (·.touches p)).map (localCommit k p)).filter fun c =>
        c.recent && !c.message.any (startsWith "Upstream:")).findSome? fun c =>
          ((c.change spec).bind LocalPolicy.checkChange).map (LocalPolicy.verdict p spec c)) = none := by
    refine List.findSome?_eq_none_iff.mpr fun spec _ => List.findSome?_eq_none_iff.mpr fun c hc => ?_
    obtain ⟨hmem, hlocal⟩ := List.mem_filter.mp hc
    obtain ⟨e, he, rfl⟩ := List.mem_map.mp hmem
    obtain ⟨hsince, htouches⟩ := List.mem_filter.mp he
    obtain ⟨hrecent, hupstream⟩ := Bool.and_eq_true_iff.mp hlocal
    rw [Bool.not_eq_true'] at hupstream
    rw [show (localCommit k p e).change spec = k.showSpec (e.old p) (e.new p) spec from rfl,
      h e hsince htouches hrecent hupstream spec]
    rfl
  rw [hnone]
  rfl

theorem compliant_cons (h : Compliant k p commits)
    (hnew : reads p c.message = false → (Entry.mk c commits).touches p = true → k.recent (c :: commits) = true →
      hasUpstream c.message = false → ∀ spec, (k.showSpec ((Entry.mk c commits).old p)
        ((Entry.mk c commits).new p) spec).bind LocalPolicy.checkChange = none) :
    Compliant k p (c :: commits) := by
  unfold Compliant
  rw [since_cons]
  split
  · exact fun e he => nomatch he
  · rename_i hreads
    exact List.forall_mem_cons.mpr ⟨hnew (Bool.eq_false_iff.mpr hreads), h⟩

/-- The fields of a record of a package that is not independent, as the validator wants them. -/
structure FieldsOk (m : PackageMetadata) : Prop where
  release : m.source = none → m.release = none
  project : ∀ s, m.releaseMonitoringProjectId ≠ some (.name s)
  reason : m.modificationStatus = some .modified → given m.modificationReason ≠ none

theorem validateRecord_eq (hstatus : m.modificationStatus ≠ some .independent) {s : ModificationStatus}
    (hs : m.modificationStatus = some s) :
    validateRecord k env w p false (recordJson m) = (do
      reject (m.source.isSome = false ∧ m.release.isSome = true) p
        "Package without Fedora source should not have release field"
      checkPolicy k w p (findLastSyncCommit k p w.commits)
      checkSettings p (recordJson m)
      reject (statusText s = "modified".toList ∧ ((m.modificationReason.map Value.str).getD .none).truthy = false) p
        "Marked as modified but missing modification_reason"
      checkHistory k w p (statusText s) (findLastSyncCommit k p w.commits)) := by
  have hfield : m.modificationStatus.map (fun s => Value.str (statusText s)) = some (.str (statusText s)) := by
    rw [hs]
    rfl
  have hlookup : (recordFields m).lookup "modification_status".toList = some (some (.str (statusText s))) :=
    congrArg some hfield
  have hpresent : orRaise ((recordJson m).contains "modification_status") = .ok true :=
    congrArg orRaise (contains_record hlookup)
  have hindex : orRaise ((recordJson m).index "modification_status") = .ok (.str (statusText s)) :=
    congrArg orRaise (index_record hlookup)
  have hsource : orRaise ((recordJson m).contains "source") = .ok m.source.isSome := by
    rw [contains_record rfl, Option.isSome_map]
    rfl
  have hrelease : orRaise ((recordJson m).contains "release") = .ok m.release.isSome := by
    rw [contains_record rfl, Option.isSome_map]
    rfl
  have hreason : orRaise ((recordJson m).get "modification_reason") =
      .ok ((m.modificationReason.map Value.str).getD .none) := congrArg orRaise (get_record rfl)
  have hvalid : statusText s ∈ (["clean", "modified", "independent"].map String.toList) := by
    cases s <;> decide
  have hdependent : statusText s ≠ "independent".toList := by
    cases s with
    | clean => decide
    | modified => decide
    | independent => exact absurd hs hstatus
  -- The status is there, valid and not `independent`: the checks of it fall away one after the other.
  unfold validateRecord
  rw [hpresent, except_bind_ok, reject, failIf, if_neg (by decide), except_bind_ok, hindex, except_bind_ok]
  dsimp only
  rw [failIf, if_neg (not_not.mpr hvalid), except_bind_ok, if_neg hdependent, hsource, except_bind_ok, hrelease,
    except_bind_ok, hreason]
  rfl

omit [UnicodeTables] in
theorem checkField_record {key : Str} {v : Option Value} {check : Value → Except Stop Unit}
    (h : (recordFields m).lookup key = some v) :
    checkField key (recordJson m) check = .ok () ↔ ∀ x, v = some x → check x = .ok () := by
  unfold checkField
  rw [contains_record h]
  cases v with
  | none => exact ⟨fun _ _ hx => (nomatch hx), fun _ => rfl⟩
  | some x =>
      rw [index_record h]
      exact ⟨fun hcheck y hy => Option.some.inj hy ▸ hcheck, fun hcheck => hcheck x rfl⟩

omit [UnicodeTables] in
theorem isInt_projectValue {project : ProjectId} :
    (projectValue project).isInt = true ↔ ∀ s, project ≠ .name s := by
  cases project with
  | id n => exact ⟨fun _ s h => (nomatch h), fun _ => parseInt_ofInt n⟩
  | name s => exact ⟨fun h => (nomatch h), fun h => absurd rfl (h s)⟩

omit [UnicodeTables] in
/-- Of the settings only a project that is given by a name is rejected. -/
theorem checkSettings_ok_iff :
    checkSettings p (recordJson m) = .ok () ↔ ∀ s, m.releaseMonitoringProjectId ≠ some (.name s) := by
  have htrack : checkField "track_upstream" (recordJson m) (fun track =>
      failIf (track.typeName ≠ "str".toList) (.invalid (p ++ ": track_upstream must be a string, got ".toList ++
        track.typeName))) = .ok () := by
    refine (checkField_record rfl).mpr fun x hx => ?_
    obtain ⟨track, -, rfl⟩ := Option.map_eq_some_iff.mp hx
    rfl
  unfold checkSettings
  rw [htrack, except_bind_ok, checkField_record rfl]
  constructor
  · intro h s hs
    have hrejected := h (.str s) (by rw [hs]; rfl)
    exact absurd hrejected (by simp [reject, failIf, Value.isInt])
  · intro h x hx
    obtain ⟨project, hproject, rfl⟩ := Option.map_eq_some_iff.mp hx
    have hint := isInt_projectValue.mpr fun s hs => h s (hproject.trans (congrArg some hs))
    rw [reject, hint]
    rfl

omit [UnicodeTables] in
theorem reject_ok_iff {c : Prop} [Decidable c] {message : String} : reject c p message = .ok () ↔ ¬ c :=
  failIf_ok_iff

omit [UnicodeTables] in
theorem statusText_eq_modified {s : ModificationStatus} : statusText s = "modified".toList ↔ s = .modified := by
  cases s <;> decide

omit [UnicodeTables] in
theorem statusText_eq_clean {s : ModificationStatus} : statusText s = "clean".toList ↔ s = .clean := by
  cases s <;> decide

omit [UnicodeTables] in
theorem reason_truthy : ((m.modificationReason.map Value.str).getD .none).truthy = false ↔
    given m.modificationReason = none := by
  cases m.modificationReason with
  | none => exact ⟨fun _ => rfl, fun _ => rfl⟩
  | some reason =>
      show (!reason.isEmpty) = false ↔ Option.filter _ (some reason) = none
      rw [Option.filter_some]
      cases reason.isEmpty <;> simp

omit [UnicodeTables] in
theorem checkHistory_ok_iff {s : ModificationStatus} (hs : s ≠ .independent) :
    checkHistory k w p (statusText s) (findLastSyncCommit k p w.commits) = .ok () ↔
      (HistoryClean k p w.commits ↔ s = .clean) := by
  unfold checkHistory
  rw [← historyClean_iff]
  cases checkGitHistoryState k p (findLastSyncCommit k p w.commits) w.commits with
  | none =>
      show reject _ _ _ = _ ↔ _
      rw [reject_ok_iff, statusText_eq_modified]
      cases s with
      | clean => simp
      | modified => simp
      | independent => exact absurd rfl hs
  | some message =>
      show failIf _ _ = _ ↔ _
      rw [failIf_ok_iff, statusText_eq_clean]
      cases s with
      | clean => simp
      | modified => simp
      | independent => exact absurd rfl hs

/-- What the fast mode asks of a package with this record. -/
inductive Accepted (k : Checks) (env : Env) (w : World) (p : Str) (m : PackageMetadata) : Prop
  | independent (status : m.modificationStatus = some .independent)
      (checks : checkIndependent env w p (recordJson m) = .ok ())
  /-- The fields are as they should be, the policy is kept, and the history says what the record says. -/
  | dependent {s : ModificationStatus} (status : m.modificationStatus = some s) (dependent : s ≠ .independent)
      (fields : FieldsOk m) (policy : checkPolicy k w p (findLastSyncCommit k p w.commits) = .ok ())
      (history : HistoryClean k p w.commits ↔ s = .clean)

theorem validateRecord_none (hs : m.modificationStatus = none) :
    validateRecord k env w p false (recordJson m) =
      .error (.invalid (p ++ ": ".toList ++ "Missing modification_status field".toList)) := by
  have hlookup : (recordFields m).lookup "modification_status".toList = some none := by
    show some (m.modificationStatus.map _) = _
    rw [hs]
    rfl
  unfold validateRecord
  rw [contains_record hlookup]
  rfl

theorem validateRecord_independent (hs : m.modificationStatus = some .independent) :
    validateRecord k env w p false (recordJson m) = checkIndependent env w p (recordJson m) := by
  have hlookup : (recordFields m).lookup "modification_status".toList =
      some (some (.str (statusText .independent))) := by
    show some (m.modificationStatus.map _) = _
    rw [hs]
    rfl
  unfold validateRecord
  rw [contains_record hlookup, index_record hlookup]
  rfl

theorem validateRecord_ok_iff : validateRecord k env w p false (recordJson m) = .ok () ↔ Accepted k env w p m := by
  cases hs : m.modificationStatus with
  | none =>
      rw [validateRecord_none hs]
      refine ⟨fun h => absurd h (by simp), ?_⟩
      rintro (⟨status, -⟩ | ⟨status, -⟩)
      · exact absurd (hs.symm.trans status) (by simp)
      · exact absurd (hs.symm.trans status) (by simp)
  | some s =>
      by_cases hindependent : s = .independent
      · subst hindependent
        rw [validateRecord_independent hs]
        refine ⟨.independent hs, ?_⟩
        rintro (⟨-, checks⟩ | ⟨status, dependent, -⟩)
        · exact checks
        · exact absurd (Option.some.inj (hs.symm.trans status)).symm dependent
      · have hne : m.modificationStatus ≠ some .independent := by
          rw [hs]
          exact fun h => hindependent (Option.some.inj h)
        rw [validateRecord_eq hne hs]
        constructor
        -- A run that passes has passed each of its checks, in this order.
        · intro h
          obtain ⟨_, hrelease, h⟩ := except_bind_ok_iff.mp h
          obtain ⟨_, hpolicy, h⟩ := except_bind_ok_iff.mp h
          obtain ⟨_, hsettings, h⟩ := except_bind_ok_iff.mp h
          obtain ⟨_, hreason, h⟩ := except_bind_ok_iff.mp h
          refine .dependent hs hindependent ⟨?_, checkSettings_ok_iff.mp hsettings, ?_⟩ hpolicy
            ((checkHistory_ok_iff hindependent).mp h)
          · intro hsource
            have hnot := reject_ok_iff.mp hrelease
            simpa [hsource] using hnot
          · intro hmodified
            obtain rfl := Option.some.inj (hs.symm.trans hmodified)
            have hnot := reject_ok_iff.mp hreason
            rw [reason_truthy] at hnot
            exact fun hnone => hnot ⟨rfl, hnone⟩
        · rintro (⟨status, -⟩ | ⟨status, -, fields, policy, history⟩)
          · exact absurd status hne
          · obtain rfl := Option.some.inj (hs.symm.trans status)
            refine except_bind_ok_iff.mpr ⟨(), reject_ok_iff.mpr ?_, except_bind_ok_iff.mpr ⟨(), policy,
              except_bind_ok_iff.mpr ⟨(), checkSettings_ok_iff.mpr fields.project, except_bind_ok_iff.mpr
                ⟨(), reject_ok_iff.mpr ?_, (checkHistory_ok_iff hindependent).mpr history⟩⟩⟩⟩
            · rintro ⟨hsource, hrelease⟩
              rw [Option.isSome_eq_false_iff, Option.isNone_iff_eq_none] at hsource
              rw [fields.release hsource] at hrelease
              exact Bool.noConfusion hrelease
            · rintro ⟨hmodified, hreason⟩
              rw [statusText_eq_modified] at hmodified
              exact fields.reason (hs.trans (congrArg some hmodified)) (reason_truthy.mp hreason)

/-- **`validatePackage_fast_iff`** — the fast mode passes a package that has a record and a directory, where
the record is accepted: an independent package finds its sources, and any other one keeps the policy and is
recorded as clean exactly if its history is. -/
theorem validatePackage_fast_iff :
    validatePackage k env w p false = .ok () ↔
      ∃ m, w.metadata p = some m ∧ w.rpms p ≠ none ∧ Accepted k env w p m := by
  unfold validatePackage
  cases hm : w.metadata p with
  | none => simp
  | some m =>
      dsimp only
      constructor
      · intro h
        obtain ⟨_, hdir, h⟩ := except_bind_ok_iff.mp h
        exact ⟨m, rfl, reject_ok_iff.mp hdir, validateRecord_ok_iff.mp h⟩
      · rintro ⟨m', hm', hdir, haccepted⟩
        obtain rfl := Option.some.inj hm'
        exact except_bind_ok_iff.mpr ⟨(), reject_ok_iff.mpr hdir, validateRecord_ok_iff.mpr haccepted⟩

end

/-! ## All packages, in any order -/

/-- The error of a validation that fails. -/
def errorOf : Except Stop Unit → Option Str
  | .error (.invalid message) => some message
  | _ => none

/-- The exception of a validation that raises. -/
def raisedBy : Except Stop Unit → Option (Option Exn)
  | .error (.raised e) => some e
  | _ => none

theorem collect_ok_iff {results : List (Except Stop Unit)} {errors : List Str} :
    collect results = .ok errors ↔ (∀ r ∈ results, raisedBy r = none) ∧ errors = results.filterMap errorOf := by
  induction results generalizing errors with
  | nil => simp [collect, eq_comm]
  | cons r results ih =>
      rw [List.forall_mem_cons]
      cases r with
      | ok u =>
          show collect results = _ ↔ _
          rw [ih]
          simp [raisedBy, errorOf, List.filterMap_cons]
      | error stop =>
          cases stop with
          | invalid message =>
              have hmap : collect (.error (.invalid message) :: results) = .ok errors ↔
                  ∃ rest, collect results = .ok rest ∧ message :: rest = errors := by
                show (message :: ·) <$> collect results = _ ↔ _
                cases collect results <;> simp [Functor.map, Except.map]
              rw [hmap]
              simp [ih, raisedBy, errorOf, eq_comm, and_comm]
          | raised e => exact ⟨fun h => (nomatch h), fun h => (nomatch h.1.1)⟩

theorem collect_error {results : List (Except Stop Unit)} {e : Option Exn} (h : collect results = .error e) :
    ∃ r ∈ results, raisedBy r = some e := by
  induction results with
  | nil => exact nomatch h
  | cons r results ih =>
      have hrest : collect results = .error e → ∃ r' ∈ r :: results, raisedBy r' = some e := fun hrest =>
        let ⟨r', hmem, hr'⟩ := ih hrest
        ⟨r', List.mem_cons_of_mem _ hmem, hr'⟩
      cases r with
      | ok u => exact hrest h
      | error stop =>
          cases stop with
          | invalid message =>
              refine hrest ?_
              have hmap : (message :: ·) <$> collect results = Except.error e := h
              cases hcollect : collect results with
              | ok rest => rw [hcollect] at hmap; exact nomatch hmap
              | error e' => rw [hcollect] at hmap; exact congrArg Except.error (Except.error.inj hmap)
          | raised e' =>
              exact ⟨_, List.mem_cons_self, congrArg some (Except.error.inj h)⟩

section

variable [UnicodeTables] {k : Checks} {env : Env} {w : World} {packages : List Str} {shallow checkActualState : Bool}

/-- The errors of the packages, in the order of the packages. -/
def errorsOf (k : Checks) (env : Env) (w : World) (checkActualState : Bool) (packages : List Str) : List Str :=
  packages.filterMap fun p => errorOf (validatePackage k env w p checkActualState)

/-- The exceptions of the packages. -/
def raisesOf (k : Checks) (env : Env) (w : World) (checkActualState : Bool) (packages : List Str) :
    List (Option Exn) :=
  packages.filterMap fun p => raisedBy (validatePackage k env w p checkActualState)

theorem validatePackages_full (hfull : checkActualState = true ∨ shallow = false) {order : List Str} :
    validatePackages k env w shallow checkActualState order =
      (collect (order.map fun p => validatePackage k env w p checkActualState)).map
        fun errors => (if errors = [] then 0 else 1, errors) := by
  have hnot : ¬(!checkActualState && shallow) = true := by
    rcases hfull with rfl | rfl <;> simp
  unfold validatePackages
  rw [if_neg hnot]
  cases collect (order.map fun p => validatePackage k env w p checkActualState) <;> rfl

/-- **`validatePackages_orders`** — the order in which the validations finish matters only for the order in
which the errors are printed, and, if several raise, for which exception comes out.  Where none raises, the
exit code is 1 exactly if some package has an error, and the errors are printed, each once. -/
theorem validatePackages_orders {order : List Str} (horder : order.Perm packages)
    (hfull : checkActualState = true ∨ shallow = false) :
    (raisesOf k env w checkActualState packages = [] →
      ∃ errors, errors.Perm (errorsOf k env w checkActualState packages) ∧
        validatePackages k env w shallow checkActualState order =
          .ok (if errorsOf k env w checkActualState packages = [] then 0 else 1, errors)) ∧
      (raisesOf k env w checkActualState packages ≠ [] →
        ∃ e ∈ raisesOf k env w checkActualState packages,
          validatePackages k env w shallow checkActualState order = .error e) := by
  have hraises : (raisesOf k env w checkActualState order).Perm (raisesOf k env w checkActualState packages) :=
    horder.filterMap _
  have herrors : (errorsOf k env w checkActualState order).Perm (errorsOf k env w checkActualState packages) :=
    horder.filterMap _
  rw [validatePackages_full hfull]
  have hresults : (order.map fun p => validatePackage k env w p checkActualState).filterMap raisedBy =
      raisesOf k env w checkActualState order := List.filterMap_map
  have hlisted : (order.map fun p => validatePackage k env w p checkActualState).filterMap errorOf =
      errorsOf k env w checkActualState order := List.filterMap_map
  constructor
  · intro hnone
    have hcollect : collect (order.map fun p => validatePackage k env w p checkActualState) =
        .ok (errorsOf k env w checkActualState order) := by
      refine collect_ok_iff.mpr ⟨?_, ?_⟩
      · rw [hnone, List.perm_nil, ← hresults] at hraises
        exact List.filterMap_eq_nil_iff.mp hraises
      · exact hlisted.symm
    rw [hcollect]
    refine ⟨_, herrors, ?_⟩
    have hempty : errorsOf k env w checkActualState order = [] ↔
        errorsOf k env w checkActualState packages = [] :=
      ⟨fun h => List.nil_perm.mp (h ▸ herrors), fun h => List.perm_nil.mp (h ▸ herrors)⟩
    simp only [Except.map, hempty]
  -- The exception that comes out is the first in the order of finishing, not in that of the packages.
  · intro hsome
    cases hcollect : collect (order.map fun p => validatePackage k env w p checkActualState) with
    | ok errors =>
        refine absurd ?_ hsome
        have hnil : raisesOf k env w checkActualState order = [] := by
          rw [← hresults]
          exact List.filterMap_eq_nil_iff.mpr (collect_ok_iff.mp hcollect).1
        rw [hnil] at hraises
        exact List.nil_perm.mp hraises
    | error e =>
        obtain ⟨r, hmem, hr⟩ := collect_error hcollect
        refine ⟨e, hraises.mem_iff.mp ?_, rfl⟩
        rw [← hresults]
        exact List.mem_filterMap.mpr ⟨r, hmem, hr⟩

end

/-! ## Two packages without records -/

/-- What git shows of two versions of a file: all lines go, and all lines come. -/
def wholeChange (before after : List Str) : LocalPolicy.FileDiff where
  header := ⟨["diff --git"], by decide, by decide⟩
  parts := [([], ⟨" -1 +1 @@", [], before.map .removed ++ after.map .added, by decide⟩)]
  rest := []

/-- A commit has at most as many before it as the branch has. -/
theorem length_history {commits : List Commit} : ∀ e ∈ entries commits, e.history.length ≤ commits.length := by
  induction commits with
  | nil => exact fun e he => (nomatch he)
  | cons c commits ih =>
      rw [entries_cons]
      refine List.forall_mem_cons.mpr ⟨Nat.le_refl _, fun e he => ?_⟩
      exact (ih e he).trans (Nat.le_succ _)

/-- Commits are named by how many there are, and all of them are recent. -/
def numbered : Checks where
  hash commits := List.replicate commits.length 'a'
  distinct commits := by
    induction commits with
    | nil => exact List.nodup_nil
    | cons c commits ih =>
        rw [entries_cons, List.map_cons]
        refine List.nodup_cons.mpr ⟨fun hmem => ?_, ih⟩
        obtain ⟨e, he, heq⟩ := List.mem_map.mp hmem
        have hlength := congrArg List.length heq
        rw [List.length_replicate, List.length_replicate] at hlength
        have hle := length_history e he
        simp only [Entry.history, List.length_cons] at hlength hle
        omega
  recent _ := true
  git := plainDiff squeeze
  showSpec before after spec :=
    match before.read spec, after.read spec with
    | none, none => none
    | none, some g => some ⟨'A', wholeChange [] (fileLines g)⟩
    | some f, none => some ⟨'D', wholeChange (fileLines f) []⟩
    | some f, some g => if f = g then none else some ⟨'M', wholeChange (fileLines f) (fileLines g)⟩

theorem validatePackages_orders_missing :
    letI := asciiTables
    ∃ errors : List Str, errors.Perm ["gcc: Missing metadata file", "curl: Missing metadata file"] ∧
      validatePackages numbered Env.offline World.empty false false ["curl", "gcc"] = .ok (1, errors) := by
  let _ := asciiTables
  have hraises : raisesOf numbered Env.offline World.empty false ["gcc", "curl"] = [] := by decide +kernel
  exact (validatePackages_orders (List.Perm.swap _ _ _) (Or.inr rfl)).1 hraises

end HummingbirdRpms.Validation
