/-
# HummingbirdRpms.MultiMr — the three drivers that turn commits into merge requests.

`dist_git_update_multi_mr.sh`, `upstream_update_multi_mr.sh` and `rebuild_multi_mr.sh` each collect a
list of commits and put every one of them on a branch of its own (`deliver`), which `create_mr.sh`
pushes unless the remote has a branch of that name already.  The statuses of the commands they run are
part of the input, so every sequence of failures is covered: what a driver does with a status is in the
definitions, what the status is comes from `Answers`.

A run is to exit 0 only if no package failed and every commit collected is on the remote
(`Run.Delivers`).  `Run.NothingLost` is the condition under which it does: it is about the commits, the
statuses and the branches that are there before the run.
-/
import HummingbirdRpms.Metadata

namespace HummingbirdRpms.MultiMr

open Lib Lib.Text

/-! ## The remote and the answers of git -/

/-- What a branch of the remote holds. -/
inductive Branch where
  /-- What it held before the run. -/
  | found
  /-- What the run has pushed: the commits on top of the base. -/
  | pushed (commits : List Str)
  deriving DecidableEq

def Branch.isPushed : Branch → Bool
  | .found => false
  | .pushed _ => true

/-- The branches of the remote, by name. -/
abbrev Remote := Str → Option Branch

/-- How the commands end that a driver runs for one commit; `true` stands for status 0. -/
structure Answers where
  /-- `git log` and `git diff-tree` on the commit -/
  read : Bool := true
  /-- `git ls-remote`, where `--force` asks for a stale branch -/
  forceLsRemote : Bool := true
  /-- `git push origin --delete` -/
  deleteRemote : Bool := true
  /-- `git checkout` of the base -/
  checkout : Bool := true
  /-- `git checkout -b` -/
  newBranch : Bool := true
  cherryPick : Bool := true
  /-- What `git rev-list --count` says in `create_mr.sh`, unless it fails -/
  ahead : Option Nat := some 1
  /-- `git ls-remote` in `create_mr.sh` -/
  lsRemote : Bool := true
  /-- `git rev-parse --abbrev-ref HEAD` in `create_mr.sh` -/
  abbrevRef : Bool := true
  push : Bool := true
  /-- Whether the output of the push names a new merge request -/
  mergeRequest : Bool := true

/-- A commit on top of the base. -/
structure LocalCommit where
  sha : Str
  subject : Str
  /-- The paths it changes under `metadata/`. -/
  metadata : List Str
  answers : Answers

/-- The status with which `set -e` ends a script after a git command has failed. -/
def abortStatus : Nat := 128

/-! ## `create_mr.sh` -/

/-- `create_mr.sh --branch <branch>`, with that branch checked out: its status, and the remote
afterwards.  A branch that the run has pushed itself holds another commit, and git does not overwrite
it. -/
def createMr (remote : Remote) (branch sha : Str) (a : Answers) : Nat × Remote :=
  match a.ahead with
  | none => (abortStatus, remote)
  | some 0 => (0, remote)
  | some (_ + 1) =>
      if a.lsRemote && (remote branch).isSome then (2, remote)
      else if !a.abbrevRef then (abortStatus, remote)
      else if !a.push || (remote branch).any Branch.isPushed then (1, remote)
      else (if a.mergeRequest then 0 else 1, Function.update remote branch (some (.pushed [sha])))

/-! ## The commit loop -/

/-- What becomes of a commit. -/
inductive Outcome where
  | created
  | existing
  | failed
  deriving DecidableEq

/-- A branch at the base with the commit on it, and a merge request for it. -/
def attempt (remote : Remote) (branch sha : Str) (a : Answers) : Outcome × Remote :=
  if !(a.checkout && a.newBranch && a.cherryPick) then (.failed, remote)
  else
    match createMr remote branch sha a with
    | (0, remote) => (.created, remote)
    | (2, remote) => (.existing, remote)
    | (_, remote) => (.failed, remote)

/-- `attempt`, after `--force` has removed the branch from the remote; `none` when that fails. -/
def deliver (force : Bool) (remote : Remote) (branch sha : Str) (a : Answers) :
    Option (Outcome × Remote) :=
  if force && a.forceLsRemote && (remote branch).isSome then
    if a.deleteRemote then some (attempt (Function.update remote branch none) branch sha a) else none
  else some (attempt remote branch sha a)

/-- The three scripts, with the options of the last. -/
inductive Driver where
  | distGit
  | upstream
  | rebuild (force : Bool) (maxUpdates : Nat)

/-- A word up to one of the characters that end it, unless it is empty, and what follows it. -/
def wordUntil (stop : Char → Bool) (s : Str) : Option (Str × Str) :=
  let word := s.takeWhile fun c => !stop c
  if word = [] then none else some (word, s.drop word.length)

namespace Driver

/-- The package of a commit, as the script reads it off: from the first metadata file the commit
changes, or from its subject, which is to be `Update <package> to <version>` or
`Rebuild <package>: <reason>`. -/
def package (c : LocalCommit) : Driver → Option Str
  | .distGit => do
      let path ← c.metadata.head?
      let file := (HummingbirdRpms.afterPrefix "metadata/" path).getD path
      let name := if endsWith ".json" file then file.take (file.length - 5) else file
      if name = [] then none else some name
  | .upstream => do
      let (name, rest) ← wordUntil (· = ' ') (← HummingbirdRpms.afterPrefix "Update " c.subject)
      let version ← HummingbirdRpms.afterPrefix " to " rest
      if version = [] then none else some name
  | .rebuild _ _ => do
      let (name, rest) ← wordUntil (fun ch => ch = ' ' || ch = ':') (← HummingbirdRpms.afterPrefix "Rebuild " c.subject)
      let _ ← HummingbirdRpms.afterPrefix ": " rest
      some name

/-- The branch for a package. -/
def branch (package : Str) : Driver → Str
  | .distGit => "chore/dist-git-update-".toList ++ package
  | .upstream => "chore/upstream-update-".toList ++ package
  | .rebuild _ _ => "chore/rebuild-".toList ++ package

def force : Driver → Bool
  | .rebuild force _ => force
  | _ => false

/-- The number of merge requests after which the loop stops, 0 if it does not. -/
def maxUpdates : Driver → Nat
  | .rebuild _ n => n
  | _ => 0

end Driver

/-- The counters of the loop, and the remote. -/
structure Tally where
  remote : Remote
  created : Nat := 0
  existing : Nat := 0
  failures : Nat := 0
  skipped : Nat := 0

/-- A commit has been dealt with. -/
def Tally.add (t : Tally) (remote : Remote) : Outcome → Tally
  | .created => { t with remote, created := t.created + 1 }
  | .existing => { t with remote, existing := t.existing + 1 }
  | .failed => { t with remote, failures := t.failures + 1 }

/-- The loop over the commits; an error is the remote that a script leaves which `set -e` has ended.
The limit is also tested after a failure, where it cannot have been reached. -/
def commitLoop (d : Driver) : List LocalCommit → Tally → Except Remote Tally
  | [], t => .ok t
  | c :: cs, t =>
      if !c.answers.read then .error t.remote
      else
        match d.package c with
        | none => commitLoop d cs { t with skipped := t.skipped + 1 }
        | some p =>
            match deliver d.force t.remote (d.branch p) c.sha c.answers with
            | none => .error t.remote
            | some (outcome, remote) =>
                let t := t.add remote outcome
                if 0 < d.maxUpdates ∧ d.maxUpdates ≤ t.created + t.existing then .ok t
                else commitLoop d cs t

/-- How a script ends. -/
structure Ended where
  status : Nat
  remote : Remote

/-- The end of a script whose loop has run: failures of its own kind, and those of the loop. -/
def finish (failures : Nat) : Except Remote Tally → Ended
  | .error remote => ⟨abortStatus, remote⟩
  | .ok t => ⟨if 0 < failures + t.failures then 1 else 0, t.remote⟩

/-- The remote before the run, with the names of its branches. -/
def Remote.before (onRemote : Str → Bool) : Remote := fun b => if onRemote b then some .found else none

/-! ## `dist_git_update_multi_mr.sh` -/

/-- What `dist_git.py update` does with one package. -/
structure UpdateStep where
  package : Str
  /-- `git rev-parse HEAD`, before and after -/
  revParse : Bool := true
  exitCode : Nat
  /-- The commit it makes. -/
  commit : Option LocalCommit
  /-- Whether there is a state file afterwards. -/
  stateFile : Bool := false
  /-- The commit that the script makes of the saved state, if `jq` and git go through. -/
  conflict : Option LocalCommit := none

/-- Whether the update of the package failed. -/
def UpdateStep.failed (u : UpdateStep) : Bool :=
  if u.exitCode = 0 then false
  else if u.exitCode = 2 then u.commit.isNone && !u.stateFile
  else true

/-- The commits that an update can add. -/
def UpdateStep.commits (u : UpdateStep) : List LocalCommit := u.commit.toList ++ u.conflict.toList

/-- The counters of the update loop, with the packages it has taken up and the commits made since. -/
structure Updates where
  taken : List UpdateStep := []
  commits : List LocalCommit := []
  found : Nat := 0
  conflicts : Nat := 0
  failures : Nat := 0

/-- One package of the update loop; `none` where `set -e` ends the script. -/
def updateStep (u : UpdateStep) (s : Updates) : Option Updates :=
  let s := { s with taken := s.taken ++ [u] }
  if !u.revParse then none
  else if u.exitCode = 0 then
    some { s with
      commits := s.commits ++ u.commit.toList
      found := s.found + u.commit.toList.length }
  else if u.exitCode = 2 then
    if u.commit.isNone && u.stateFile then
      u.conflict.map fun c =>
        { s with commits := s.commits ++ [c], found := s.found + 1, conflicts := s.conflicts + 1 }
    else if u.commit.isSome then
      some { s with
        commits := s.commits ++ u.commit.toList
        found := s.found + 1
        conflicts := s.conflicts + 1 }
    else some { s with failures := s.failures + 1 }
  else some { s with commits := s.commits ++ u.commit.toList, failures := s.failures + 1 }

/-- The update loop, up to `--max-updates`. -/
def updateLoop (maxUpdates : Nat) : List UpdateStep → Updates → Option Updates
  | [], s => some s
  | u :: us, s => do
      let s ← updateStep u s
      if 0 < maxUpdates ∧ maxUpdates ≤ s.found then some s else updateLoop maxUpdates us s

/-- No two of the commits are the same. -/
def Distinct (commits : List LocalCommit) : Prop := (commits.map (·.sha)).Nodup

instance : DecidablePred Distinct := fun commits => inferInstanceAs (Decidable (commits.map (·.sha)).Nodup)

structure DistGitRun where
  maxUpdates : Nat
  steps : List UpdateStep
  onRemote : Str → Bool
  /-- `git rev-list --count` -/
  count : Bool := true
  /-- `git rev-list --reverse` -/
  list : Bool := true
  /-- `git reset --hard` -/
  reset : Bool := true
  distinct : Distinct (steps.flatMap UpdateStep.commits)

namespace DistGitRun

variable (r : DistGitRun)

/-- Where the update loop ends, unless `set -e` ends the script in it. -/
def updates : Option Updates := updateLoop r.maxUpdates r.steps {}

def collected : List LocalCommit := (r.updates.map (·.commits)).getD []

/-- The packages the run got to. -/
def taken : List UpdateStep := (r.updates.map (·.taken)).getD []

/-- The script, from the update loop on. -/
def run : Ended :=
  let before := Remote.before r.onRemote
  match r.updates with
  | none => ⟨abortStatus, before⟩
  | some u =>
      if !r.count || u.commits.isEmpty then ⟨0, before⟩
      else if !r.reset then ⟨abortStatus, before⟩
      else finish u.failures (commitLoop .distGit (if r.list then u.commits else []) { remote := before })

end DistGitRun

/-! ## `upstream_update_multi_mr.sh` -/

/-- What `check_upstream_versions.py check --update` does with one package. -/
inductive CheckOutcome where
  | upToDate
  /-- The upstream version could not be found out. -/
  | checkFailed
  | updated (c : LocalCommit)
  | updateFailed
  /-- An exception that `run_check` does not handle ends it with status 1. -/
  | crashed

namespace CheckOutcome

def failed : CheckOutcome → Bool
  | .upToDate => false
  | .updated _ => false
  | _ => true

def commit : CheckOutcome → Option LocalCommit
  | .updated c => some c
  | _ => none

def hasUpdate : CheckOutcome → Bool
  | .updated _ => true
  | .updateFailed => true
  | _ => false

def isError : CheckOutcome → Bool
  | .checkFailed => true
  | _ => false

def isCrash : CheckOutcome → Bool
  | .crashed => true
  | _ => false

end CheckOutcome

structure UpstreamRun where
  maxUpdates : Nat
  outcomes : List CheckOutcome
  onRemote : Str → Bool
  /-- `git rev-list --count` -/
  count : Bool := true
  /-- `git rev-list --reverse` -/
  list : Bool := true
  /-- `git reset --hard` -/
  reset : Bool := true
  distinct : Distinct (outcomes.filterMap CheckOutcome.commit)

namespace UpstreamRun

variable (r : UpstreamRun)

/-- The status of `check_upstream_versions.py check`. -/
def checkStatus : Nat :=
  if r.outcomes.any CheckOutcome.isCrash then 1
  else if r.outcomes.any CheckOutcome.isError && !r.outcomes.any CheckOutcome.hasUpdate then 2
  else if r.outcomes.any CheckOutcome.hasUpdate then 1
  else 0

/-- The commits it makes, until it crashes. -/
def commits : List LocalCommit :=
  (r.outcomes.takeWhile fun o => !o.isCrash).filterMap CheckOutcome.commit

/-- The commits within `--max-updates`. -/
def collected : List LocalCommit := if r.maxUpdates = 0 then r.commits else r.commits.take r.maxUpdates

/-- The script, from the check on. -/
def run : Ended :=
  let before := Remote.before r.onRemote
  if r.checkStatus = 0 then ⟨0, before⟩
  else if !r.count || r.commits.isEmpty then ⟨1, before⟩
  else if !r.reset then ⟨abortStatus, before⟩
  else finish 0 (commitLoop .upstream (if r.list then r.collected else []) { remote := before })

end UpstreamRun

/-! ## `rebuild_multi_mr.sh` -/

/-- The commits up to the `n`-th that belongs to a package. -/
def takePackages (d : Driver) : Nat → List LocalCommit → List LocalCommit
  | _, [] => []
  | n, c :: cs =>
      if (d.package c).isNone then c :: takePackages d n cs
      else if n ≤ 1 then [c]
      else c :: takePackages d (n - 1) cs

structure RebuildRun where
  force : Bool
  maxUpdates : Nat
  /-- The commits ahead of the base, the oldest first. -/
  commits : List LocalCommit
  onRemote : Str → Bool
  /-- `git rev-parse` of the base -/
  base : Bool := true
  /-- `git rev-list --reverse` -/
  list : Bool := true
  /-- `git rev-parse --abbrev-ref HEAD` -/
  abbrevRef : Bool := true
  distinct : Distinct commits

namespace RebuildRun

variable (r : RebuildRun)

def driver : Driver := .rebuild r.force r.maxUpdates

/-- The commits within `--max-updates`. -/
def collected : List LocalCommit :=
  if r.maxUpdates = 0 then r.commits else takePackages r.driver r.maxUpdates r.commits

/-- The script, without `--dry-run`. -/
def run : Ended :=
  let before := Remote.before r.onRemote
  if !r.base then ⟨1, before⟩
  else if !r.list || r.commits.isEmpty then ⟨0, before⟩
  else if !r.abbrevRef then ⟨abortStatus, before⟩
  else finish 0 (commitLoop r.driver r.commits { remote := before })

end RebuildRun

/-! ## What a run is to achieve -/

/-- A run of one of the drivers. -/
inductive Run where
  | distGit (r : DistGitRun)
  | upstream (r : UpstreamRun)
  | rebuild (r : RebuildRun)

namespace Run

def run : Run → Ended
  | .distGit r => r.run
  | .upstream r => r.run
  | .rebuild r => r.run

def driver : Run → Driver
  | .distGit _ => .distGit
  | .upstream _ => .upstream
  | .rebuild r => r.driver

/-- The commits collected within the limit. -/
def collected : Run → List LocalCommit
  | .distGit r => r.collected
  | .upstream r => r.collected
  | .rebuild r => r.collected

def onRemote : Run → Str → Bool
  | .distGit r => r.onRemote
  | .upstream r => r.onRemote
  | .rebuild r => r.onRemote

/-- Whether the update of a package failed. -/
def anyFailed : Run → Bool
  | .distGit r => r.taken.any UpdateStep.failed
  | .upstream r => r.outcomes.any CheckOutcome.failed
  | .rebuild _ => false

end Run

/-- A commit is on the remote: it is what the branch of its package holds on top of the base, or the
branch was there before the run and still is what it was. -/
def Delivered (d : Driver) (before after : Remote) (c : LocalCommit) : Prop :=
  ∃ p, d.package c = some p ∧
    (after (d.branch p) = some (.pushed [c.sha]) ∨
      before (d.branch p) = some .found ∧ after (d.branch p) = some .found)

/-- No package failed, and every commit collected is on the remote. -/
def Run.Delivers (r : Run) : Prop :=
  r.anyFailed = false ∧
    ∀ c ∈ r.collected, Delivered r.driver (Remote.before r.onRemote) r.run.remote c

/-- A commit whose delivery removes or overwrites a branch that the remote has. -/
def Replaces (d : Driver) (c : LocalCommit) : Bool :=
  (d.force && c.answers.forceLsRemote) || (!c.answers.lsRemote && c.answers.ahead ≠ some 0)

/-- A commit that is not lost.  Its branch is on the remote before the run, and no commit of the package
replaces it; or the script sees it (`listed`), it is the only commit of its package, and `create_mr.sh`
finds it ahead of the target branch. -/
def Reaches (d : Driver) (onRemote : Str → Bool) (listed : Bool) (commits : List LocalCommit)
    (c : LocalCommit) : Prop :=
  ∃ p, d.package c = some p ∧
    ((onRemote (d.branch p) = true ∧
        (listed = true → ∀ c' ∈ commits, d.package c' = some p → Replaces d c' = false)) ∨
      (listed = true ∧ c.answers.ahead ≠ some 0 ∧ ∀ c' ∈ commits, d.package c' = some p → c' = c))

/-- Whether the script lists the commits there are. -/
def Run.listed : Run → Bool
  | .distGit r => r.count && r.list
  | .upstream r => r.list
  | .rebuild r => r.list

/-- Whether the script looks at the packages that failed before it exits. -/
def Run.countsFailures : Run → Bool
  | .distGit r => r.count && !r.collected.isEmpty
  | .upstream _ => false
  | .rebuild _ => true

/-- The runs that lose nothing: no package failed, unless the script would tell, and every commit
reaches the remote. -/
def Run.NothingLost (r : Run) : Prop :=
  (r.countsFailures = false → r.anyFailed = false) ∧
    ∀ c ∈ r.collected, Reaches r.driver r.onRemote r.listed r.collected c

end HummingbirdRpms.MultiMr
