/-
# HummingbirdRpms.Batch — the update loop of `check --update`, package after package.

`run_check` of `ci/check_upstream_versions.py` updates every package it has found an update for, and
commits each by itself.  When an update raises, the loop catches some classes of exceptions, discards
what the package left behind and goes on with the next one; every other exception, and every failure to
discard, ends the loop.

Each package's update has an outside of its own: any of them may raise anything.

**`batchIsolated_iff`** is the exact condition under which the packages do not disturb one another:
every exception is one the loop catches, discarding goes through after it, and nothing of another
package is staged when one succeeds.
-/
import HummingbirdRpms.UpstreamVersion

namespace HummingbirdRpms

open Lib Lib.Text Lib.Exec

/-! ## Staging and discarding -/

/-- `git add rpms/<package> metadata/<package>.json`: a path that is neither there nor tracked is an
error, and ignored files are left out. -/
def gitAddUpdate (env : Env) (p : Str) : Tool Unit := do
  let w ← get
  raiseIf ((w.rpms p = none ∧ (w.index p).rpms.paths = []) ∨ (w.metadata p = none ∧ (w.index p).metadata = none))
    (.raised .calledProcessError "git add")
  modify fun w => w.setIndex p { w.index p with
    rpms := addAll env (w.index p).rpms (w.packageDir p), metadata := w.metadata p }

/-- Whether git knows both paths of a package, from the last commit or from the index. -/
def KnownToGit (w : World) (p : Str) : Prop :=
  ((w.head p).rpms.paths ≠ [] ∨ (w.index p).rpms.paths ≠ []) ∧
    ((w.head p).metadata ≠ none ∨ (w.index p).metadata ≠ none)

instance {w : World} {p : Str} : Decidable (KnownToGit w p) := by
  unfold KnownToGit
  exact inferInstanceAs (Decidable (_ ∧ _))

/-- A package as the last commit has it: what that tracks comes back, and what only the index has
goes. -/
def World.restored (w : World) (p : Str) : World :=
  { w with
    rpms := Function.update w.rpms p (some (Tree.overlay (w.head p).rpms
      ((w.packageDir p).restrict fun q => !(w.index p).rpms.isFile q)))
    metadata := Function.update w.metadata p (w.head p).metadata
    index := Function.update w.index p
      { w.index p with rpms := (w.head p).rpms, metadata := (w.head p).metadata } }

/-- `git restore --staged --worktree -- rpms/<package> metadata/<package>.json` -/
def gitRestore (ok : Bool) (p : Str) : Tool Unit := do
  raiseIf (ok = false ∨ ¬ KnownToGit (← get) p) (.raised .calledProcessError "git restore")
  modify fun w => w.restored p

/-- A package directory without what is neither tracked nor ignored. -/
def World.cleaned (env : Env) (w : World) (p : Str) : World :=
  w.setRpms p ((w.packageDir p).restrict fun q =>
    (w.index p).rpms.isFile q || env.ignored (w.packageDir p) q)

/-- `git clean -fd -- rpms/<package>` -/
def gitClean (env : Env) (ok : Bool) (p : Str) : Tool Unit := do
  raiseIf (ok = false) (.raised .calledProcessError "git clean")
  modify fun w => w.cleaned env p

/-! ## The loop -/

/-- What `check_package_version` has found out. -/
structure Checked where
  package : Str
  upstreamVersion : Option Str
  hasUpdate : Bool
  versionSource : Option Str

/-- A result with what the loop makes of it. -/
structure VersionCheckResult extends Checked where
  updated : Bool := false
  updateError : Option Str := none

/-- The update of one package: what the check found, and the outside it meets. -/
structure UpdateAttempt where
  checked : Checked
  env : Env
  specLibrary : SpecLibrary
  /-- What `metadata/<package>.update-hooks.yaml` holds. -/
  hooksFile : Option File
  /-- Whether `git restore` and `git clean` go through, on paths that git knows. -/
  restoreOk : Bool
  cleanOk : Bool

/-- The classes the loop catches, with their subclasses. -/
def Exn.isCaught : Exn → Bool
  | .raised .osError _ => true
  | .raised .runtimeError _ => true
  | .raised .valueError _ => true
  | .raised .unicodeDecodeError _ => true
  | .raised .jsonDecodeError _ => true
  | .raised .calledProcessError _ => true
  | _ => false

namespace UpdateAttempt

variable (a : UpdateAttempt)

def package : Str := a.checked.package

/-- The version to update to, where there is an update. -/
def due : Option Str := if a.checked.hasUpdate then given a.checked.upstreamVersion else none

/-- `discard_package_changes` -/
def discard : Tool Unit := do
  gitRestore a.restoreOk a.package
  gitClean a.env a.cleanOk a.package

/-- The message of the commit. -/
def message (newVersion : Str) : Str :=
  "Update ".toList ++ a.package ++ " to ".toList ++ newVersion ++
    "\n\nUpstream version detected via ".toList ++
    (if a.checked.versionSource = some "gitlab_tags".toList then "GitLab tags API".toList
      else "release-monitoring.org".toList)

variable [UnicodeTables]

/-- The body of `try`: the package updated, staged and committed. -/
def apply (skipPipeline : Bool) (newVersion : Str) : Tool Unit := do
  let downloaded ← updateSpecVersion a.env a.specLibrary a.hooksFile skipPipeline a.package newVersion
  ignoreUploaded a.package downloaded
  gitAddUpdate a.env a.package
  gitCommit a.env.commitOk (a.message newVersion)

/-- One round of the loop. -/
def run (skipPipeline : Bool) : Tool VersionCheckResult :=
  match a.due with
  | none => pure { a.checked with }
  | some newVersion =>
      tryCatch
        (do
          a.apply skipPipeline newVersion
          return { a.checked with updated := true })
        fun e =>
          if e.isCaught then do
            a.discard
            return { a.checked with updateError := some e.str }
          else throw e

end UpdateAttempt

section

variable [UnicodeTables]

/-- The update loop of `run_check`. -/
def updateLoop (skipPipeline : Bool) : List UpdateAttempt → Tool (List VersionCheckResult)
  | [] => pure []
  | a :: rest => do
      let result ← a.run skipPipeline
      let results ← updateLoop skipPipeline rest
      return result :: results

/-! ## Isolation -/

/-- A commit changes nothing, from what its parent tracks, but `rpms/<package>` and
`metadata/<package>.json`. -/
def Commit.TouchesOnly (parent : Str → Tracked) (p : Str) (c : Commit) : Prop :=
  (∀ q, q ≠ p → c.content q = parent q) ∧ (c.content p).pipeline = (parent p).pipeline

/-- One commit for each of the packages, in their order, that touches only it. -/
def OneCommitEach (parent : Str → Tracked) : List Str → List Commit → Prop
  | [], [] => True
  | p :: ps, c :: cs => c.TouchesOnly parent p ∧ OneCommitEach c.content ps cs
  | _, _ => False

/-- The tracked files of a package are those of the last commit, in the index and in the working tree. -/
structure TrackedClean (w : World) (p : Str) : Prop where
  staged : (∀ q, (w.index p).rpms.read q = (w.head p).rpms.read q) ∧
    (w.index p).metadata = (w.head p).metadata
  files : ∀ q, (w.head p).rpms.isFile q = true → (w.packageDir p).read q = (w.head p).rpms.read q
  metadata : w.metadata p = (w.head p).metadata

/-- What a result says of a package that was due. -/
def UpdateAttempt.Attempted (a : UpdateAttempt) (r : VersionCheckResult) : Prop :=
  r.toChecked = a.checked ∧ (a.due ≠ none → (r.updated = true ↔ r.updateError = none))

/-- The packages of the updates that succeeded. -/
def updatedPackages (results : List VersionCheckResult) : List Str :=
  (results.filter (·.updated)).map (·.package)

/-- The loop has attempted every package; each that succeeded has one new commit, which touches only
it; and each that failed is as the last commit has it. -/
def BatchIsolated (skipPipeline : Bool) (attempts : List UpdateAttempt) (w : World) : Prop :=
  ∃ results w', updateLoop skipPipeline attempts w = .ok results w' ∧
    List.Forall₂ UpdateAttempt.Attempted attempts results ∧
    (∃ commits, w'.commits = commits.reverse ++ w.commits ∧
      OneCommitEach w.head (updatedPackages results) commits) ∧
    ∀ r ∈ results, r.updateError ≠ none → TrackedClean w' r.package

/-- Nothing is staged outside the two paths of a package. -/
def OthersUnstaged (w : World) (p : Str) : Prop :=
  (∀ q, q ≠ p → w.index q = w.head q) ∧ (w.index p).pipeline = (w.head p).pipeline

/-- The loop gets over an update: where it succeeds, nothing else is staged; where it raises, the
exception is caught and discarding goes through. -/
def UpdateAttempt.Tolerated (skipPipeline : Bool) (a : UpdateAttempt) (w : World) : Prop :=
  ∀ newVersion, a.due = some newVersion →
    match a.apply skipPipeline newVersion w with
    | .ok _ _ => OthersUnstaged w a.package
    | .error e w₁ => e.isCaught = true ∧ a.restoreOk = true ∧ a.cleanOk = true ∧ KnownToGit w₁ a.package

/-- The loop gets over every update, in the world it meets. -/
def AllTolerated (skipPipeline : Bool) : List UpdateAttempt → World → Prop
  | [], _ => True
  | a :: rest, w => a.Tolerated skipPipeline w ∧ AllTolerated skipPipeline rest (final (a.run skipPipeline) w)

end

/-! ## What one round does -/

section

variable {w w' : World} {p : Str}

theorem WorksOn.commits (h : WorksOn p w w') : w'.commits = w.commits := by
  obtain ⟨dir, metadata, rpms, recorded, es, rfl⟩ := h
  rfl

theorem head_congr {q : Str} (h : w'.commits = w.commits) : w'.head q = w.head q := by
  unfold World.head
  rw [h]

theorem WorksOn.head (h : WorksOn p w w') (q : Str) : w'.head q = w.head q := head_congr h.commits

theorem WorksOn.pipeline (h : WorksOn p w w') : (w'.index p).pipeline = (w.index p).pipeline := by
  obtain ⟨dir, metadata, rpms, recorded, es, rfl⟩ := h
  dsimp only
  rw [Function.update_self]

/-- What stays of another package. -/
structure SameAt (q : Str) (w w' : World) : Prop where
  index : w'.index q = w.index q
  packageDir : w'.packageDir q = w.packageDir q
  metadata : w'.metadata q = w.metadata q

theorem WorksOn.sameAt (h : WorksOn p w w') {q : Str} (hq : q ≠ p) : SameAt q w w' := by
  obtain ⟨dir, metadata, rpms, recorded, es, rfl⟩ := h
  refine ⟨Function.update_of_ne hq _ _, ?_, Function.update_of_ne hq _ _⟩
  unfold World.packageDir
  dsimp only
  rw [Function.update_of_ne hq]

theorem steps_ignoreUploaded {names : List Str} : Steps (WorksOn p) (ignoreUploaded p names) := by
  refine steps_ite (steps_pure _) (steps_bind steps_get fun w => steps_bind (steps_lift _) fun dir => ?_)
  exact steps_modify fun w => WorksOn.of_dirAndLog (DirAndLog.setRpms _)

theorem steps_gitAddUpdate {env : Env} : Steps (WorksOn p) (gitAddUpdate env p) := by
  refine steps_bind steps_get fun w => steps_bind steps_raiseIf fun _ => ?_
  exact steps_modify fun w => WorksOn.setIndex rfl

/-- After staging, the index has of a package what the working tree has of it. -/
theorem gitAddUpdate_ok {env : Env} {u : Unit} (h : gitAddUpdate env p w = .ok u w') :
    (∀ q, (w'.index p).rpms.isFile q = true → (w'.packageDir p).read q = (w'.index p).rpms.read q) ∧
      w'.metadata p = (w'.index p).metadata := by
  unfold gitAddUpdate at h
  rw [run_bind_of_ok (run_get w)] at h
  obtain ⟨-, h⟩ := raiseIf_bind_ok_iff.mp h
  obtain ⟨-, rfl⟩ := EStateM.Result.ok.inj h
  have hindex : (w.setIndex p { w.index p with
      rpms := addAll env (w.index p).rpms (w.packageDir p), metadata := w.metadata p }).index p =
        { w.index p with rpms := addAll env (w.index p).rpms (w.packageDir p), metadata := w.metadata p } :=
    Function.update_self ..
  refine ⟨fun q hq => ?_, by rw [hindex]; rfl⟩
  rw [hindex] at hq ⊢
  show (w.packageDir p).read q = _
  unfold Tree.isFile at hq
  rw [read_addAll] at hq ⊢
  split
  · rfl
  · rename_i hnot
    rw [if_neg hnot] at hq
    exact absurd hq (by simp)

end

section

variable [UnicodeTables] {a : UpdateAttempt} {skipPipeline : Bool} {w w' : World} {newVersion : Str}

/-- An update that succeeded: what it staged, and the commit of it. -/
structure Succeeded (a : UpdateAttempt) (w w' : World) (c : Commit) : Prop where
  works : ∃ w₁, WorksOn a.package w w₁ ∧ c.content = w₁.index ∧ w' = { w₁ with commits := c :: w₁.commits }
  files : ∀ q, (c.content a.package).rpms.isFile q = true →
    (w'.packageDir a.package).read q = (c.content a.package).rpms.read q
  metadata : w'.metadata a.package = (c.content a.package).metadata

theorem UpdateAttempt.apply_ok {u : Unit} (h : a.apply skipPipeline newVersion w = .ok u w') :
    ∃ c, Succeeded a w w' c := by
  obtain ⟨downloaded, w₁, hupdate, h⟩ := bind_ok_iff.mp h
  obtain ⟨_, w₂, hignore, h⟩ := bind_ok_iff.mp h
  obtain ⟨_, w₃, hadd, h⟩ := bind_ok_iff.mp h
  have hworks : WorksOn a.package w w₃ := IsTrans.trans _ _ _ (steps_updateSpecVersion.ok hupdate)
    (IsTrans.trans _ _ _ (steps_ignoreUploaded.ok hignore) (steps_gitAddUpdate.ok hadd))
  obtain ⟨hfiles, hmetadata⟩ := gitAddUpdate_ok hadd
  have hcommit := gitCommit_ok h
  exact ⟨⟨a.message newVersion, w₃.index⟩, ⟨w₃, hworks, rfl, hcommit⟩, hcommit ▸ hfiles, hcommit ▸ hmetadata⟩

theorem UpdateAttempt.apply_error {e : Exn} (h : a.apply skipPipeline newVersion w = .error e w') :
    WorksOn a.package w w' := by
  rcases bind_error_iff.mp h with h | ⟨downloaded, w₁, hupdate, h⟩
  · exact steps_updateSpecVersion.error h
  · have h₁ := steps_updateSpecVersion.ok hupdate
    rcases bind_error_iff.mp h with h | ⟨_, w₂, hignore, h⟩
    · exact IsTrans.trans _ _ _ h₁ (steps_ignoreUploaded.error h)
    · have h₂ : WorksOn a.package w w₂ := IsTrans.trans _ _ _ h₁ (steps_ignoreUploaded.ok hignore)
      rcases bind_error_iff.mp h with h | ⟨_, w₃, hadd, h⟩
      · exact IsTrans.trans _ _ _ h₂ (steps_gitAddUpdate.error h)
      · rw [gitCommit_error h]
        exact IsTrans.trans _ _ _ h₂ (steps_gitAddUpdate.ok hadd)

omit [UnicodeTables] in
/-- A package that is restored and cleaned has its tracked files as the last commit has them. -/
theorem trackedClean_restored {env : Env} {p : Str} : TrackedClean ((w.restored p).cleaned env p) p := by
  have hindex : (w.restored p).index p =
      { w.index p with rpms := (w.head p).rpms, metadata := (w.head p).metadata } :=
    Function.update_self ..
  refine ⟨⟨fun q => ?_, ?_⟩, fun q hq => ?_, ?_⟩
  · show ((w.restored p).index p).rpms.read q = (w.head p).rpms.read q
    rw [hindex]
  · show ((w.restored p).index p).metadata = (w.head p).metadata
    rw [hindex]
  · have hfile : (w.head p).rpms.isFile q = true := hq
    obtain ⟨f, hf⟩ : ∃ f, (w.head p).rpms.read q = some f := by
      cases hread : (w.head p).rpms.read q with
      | none => simp [Tree.isFile, hread] at hfile
      | some f => exact ⟨f, rfl⟩
    show (((w.restored p).cleaned env p).packageDir p).read q = (w.head p).rpms.read q
    rw [World.cleaned, packageDir_setRpms, Tree.read_restrict, hindex]
    dsimp only
    rw [hfile, Bool.true_or, if_pos rfl]
    show ((Function.update w.rpms p _ p).getD ∅).read q = _
    rw [Function.update_self, Option.getD_some, Tree.read_overlay, hf]
    rfl
  · show Function.update w.metadata p _ p = (w.head p).metadata
    rw [Function.update_self]

omit [UnicodeTables] in
theorem worksOn_restored {p : Str} : WorksOn p w (w.restored p) := ⟨_, _, _, _, [], rfl⟩

omit [UnicodeTables] in
/-- Discarding goes through exactly on paths that git knows. -/
theorem UpdateAttempt.discard_ok_iff {u : Unit} : a.discard w = .ok u w' ↔
    (a.restoreOk = true ∧ a.cleanOk = true ∧ KnownToGit w a.package) ∧
      w' = (w.restored a.package).cleaned a.env a.package := by
  have hrestore : ∀ {u w₁}, gitRestore a.restoreOk a.package w = .ok u w₁ ↔
      (a.restoreOk = true ∧ KnownToGit w a.package) ∧ w₁ = w.restored a.package := by
    intro u w₁
    unfold gitRestore
    rw [run_bind_of_ok (run_get w), raiseIf_bind_ok_iff, not_or, Bool.not_eq_false, not_not]
    refine and_congr_right fun _ => ⟨fun h => (EStateM.Result.ok.inj h).2.symm, ?_⟩
    rintro rfl
    rfl
  unfold UpdateAttempt.discard
  rw [bind_ok_iff]
  constructor
  · rintro ⟨_, w₁, hrun, hclean⟩
    obtain ⟨⟨hrestoreOk, hknown⟩, rfl⟩ := hrestore.mp hrun
    obtain ⟨hcleanOk, hclean⟩ := raiseIf_bind_ok_iff.mp hclean
    obtain ⟨-, rfl⟩ := EStateM.Result.ok.inj hclean
    exact ⟨⟨hrestoreOk, by simpa using hcleanOk, hknown⟩, rfl⟩
  · rintro ⟨⟨hrestoreOk, hcleanOk, hknown⟩, rfl⟩
    refine ⟨⟨⟩, _, hrestore.mpr ⟨⟨hrestoreOk, hknown⟩, rfl⟩, raiseIf_bind_ok_iff.mpr ⟨?_, rfl⟩⟩
    rw [hcleanOk]
    exact Bool.noConfusion

/-- The ways a round of the loop that goes on can end. -/
inductive Round (a : UpdateAttempt) (w : World) : VersionCheckResult → World → Prop
  | skipped (due : a.due = none) : Round a w { a.checked with } w
  | updated {w' : World} {c : Commit} (due : a.due ≠ none) (succeeded : Succeeded a w w' c) :
      Round a w { a.checked with updated := true } w'
  | failed {w' : World} (message : Str) (due : a.due ≠ none) (works : WorksOn a.package w w')
      (clean : TrackedClean w' a.package) : Round a w { a.checked with updateError := some message } w'

theorem UpdateAttempt.run_of_due (hdue : a.due = some newVersion) : a.run skipPipeline w =
    match a.apply skipPipeline newVersion w with
    | .ok _ w₁ => .ok { a.checked with updated := true } w₁
    | .error e w₁ =>
        if e.isCaught then
          match a.discard w₁ with
          | .ok _ w₂ => .ok { a.checked with updateError := some e.str } w₂
          | .error e' w₂ => .error e' w₂
        else .error e w₁ := by
  unfold UpdateAttempt.run
  rw [hdue]
  dsimp only
  rw [run_tryCatch, run_bind]
  cases happly : a.apply skipPipeline newVersion w with
  | ok u w₁ => rfl
  | error e w₁ =>
      dsimp only
      split
      · rw [run_bind]
        cases a.discard w₁ with
        | ok u w₂ => rfl
        | error e' w₂ => rfl
      · rfl

/-- Step lemma: a round that lets the loop go on ends in one of three ways. -/
theorem round_of_ok {r : VersionCheckResult} (h : a.run skipPipeline w = .ok r w') : Round a w r w' := by
  cases hdue : a.due with
  | none =>
      unfold UpdateAttempt.run at h
      rw [hdue] at h
      obtain ⟨rfl, rfl⟩ := EStateM.Result.ok.inj h
      exact .skipped hdue
  | some newVersion =>
      have hne : a.due ≠ none := by simp [hdue]
      rw [UpdateAttempt.run_of_due hdue] at h
      cases happly : a.apply skipPipeline newVersion w with
      | ok u w₁ =>
          rw [happly] at h
          obtain ⟨rfl, rfl⟩ := EStateM.Result.ok.inj h
          obtain ⟨c, hc⟩ := UpdateAttempt.apply_ok happly
          exact .updated hne hc
      | error e w₁ =>
          rw [happly] at h
          dsimp only at h
          split at h
          · cases hdiscard : a.discard w₁ with
            | ok u w₂ =>
                rw [hdiscard] at h
                obtain ⟨rfl, rfl⟩ := EStateM.Result.ok.inj h
                obtain ⟨-, rfl⟩ := UpdateAttempt.discard_ok_iff.mp hdiscard
                refine .failed _ hne ?_ trackedClean_restored
                refine IsTrans.trans _ _ _ (UpdateAttempt.apply_error happly) ?_
                exact IsTrans.trans _ _ _ worksOn_restored (WorksOn.of_dirAndLog (DirAndLog.setRpms _))
            | error e' w₂ =>
                rw [hdiscard] at h
                exact absurd h (by simp)
          · exact absurd h (by simp)

/-- A round is isolated: it lets the loop go on, and if it has committed, nothing but its package. -/
def RoundIsolated (skipPipeline : Bool) (a : UpdateAttempt) (w : World) : Prop :=
  ∃ r w', a.run skipPipeline w = .ok r w' ∧ (r.updated = true →
    ∃ c, w'.commits = c :: w.commits ∧ c.TouchesOnly w.head a.package)

omit [UnicodeTables] in
/-- The commit of a success touches only its package exactly when nothing else was staged. -/
theorem Succeeded.touchesOnly_iff {c : Commit} (h : Succeeded a w w' c) :
    c.TouchesOnly w.head a.package ↔ OthersUnstaged w a.package := by
  obtain ⟨w₁, hworks, hcontent, -⟩ := h.works
  unfold Commit.TouchesOnly OthersUnstaged
  rw [hcontent, hworks.pipeline]
  refine and_congr_left fun _ => forall₂_congr fun q hq => ?_
  rw [(hworks.sameAt hq).index]

omit [UnicodeTables] in
theorem Succeeded.commits {c : Commit} (h : Succeeded a w w' c) : w'.commits = c :: w.commits := by
  obtain ⟨w₁, hworks, -, rfl⟩ := h.works
  show c :: w₁.commits = _
  rw [hworks.commits]

/-- The loop gets over a round exactly when it is isolated. -/
theorem tolerated_iff : a.Tolerated skipPipeline w ↔ RoundIsolated skipPipeline a w := by
  cases hdue : a.due with
  | none =>
      refine iff_of_true (fun v hv => absurd (hdue.symm.trans hv) (by simp)) ?_
      refine ⟨{ a.checked with }, w, ?_, Bool.noConfusion⟩
      unfold UpdateAttempt.run
      rw [hdue]
      rfl
  | some newVersion =>
      unfold UpdateAttempt.Tolerated RoundIsolated
      rw [UpdateAttempt.run_of_due hdue]
      have hone : (∀ v, a.due = some v → match a.apply skipPipeline v w with
          | .ok _ _ => OthersUnstaged w a.package
          | .error e w₁ => e.isCaught = true ∧ a.restoreOk = true ∧ a.cleanOk = true ∧
              KnownToGit w₁ a.package) ↔
          match a.apply skipPipeline newVersion w with
          | .ok _ _ => OthersUnstaged w a.package
          | .error e w₁ => e.isCaught = true ∧ a.restoreOk = true ∧ a.cleanOk = true ∧
              KnownToGit w₁ a.package := by
        constructor
        · intro h
          exact h newVersion hdue
        · intro h v hv
          obtain rfl := Option.some.inj (hdue.symm.trans hv)
          exact h
      rw [hone]
      cases happly : a.apply skipPipeline newVersion w with
      | ok u w₁ =>
          obtain ⟨c, hc⟩ := UpdateAttempt.apply_ok happly
          dsimp only
          rw [← hc.touchesOnly_iff]
          constructor
          · intro h
            exact ⟨_, w₁, rfl, fun _ => ⟨c, hc.commits, h⟩⟩
          · rintro ⟨r, w₂, hrun, h⟩
            obtain ⟨rfl, rfl⟩ := EStateM.Result.ok.inj hrun
            obtain ⟨c', hc', h⟩ := h rfl
            obtain ⟨rfl, -⟩ := List.cons.inj (hc.commits.symm.trans hc')
            exact h
      | error e w₁ =>
          dsimp only
          cases hcaught : e.isCaught with
          | false =>
              refine iff_of_false (fun h => Bool.noConfusion h.1) ?_
              rintro ⟨r, w₂, hrun, -⟩
              exact absurd hrun (by simp)
          | true =>
              rw [if_pos rfl, and_iff_right rfl]
              constructor
              · intro h
                have hdiscard : a.discard w₁ = .ok ⟨⟩ _ := UpdateAttempt.discard_ok_iff.mpr ⟨h, rfl⟩
                rw [hdiscard]
                exact ⟨_, _, rfl, Bool.noConfusion⟩
              · rintro ⟨r, w₂, hrun, -⟩
                cases hdiscard : a.discard w₁ with
                | ok u w₃ => exact (UpdateAttempt.discard_ok_iff.mp hdiscard).1
                | error e' w₃ =>
                    rw [hdiscard] at hrun
                    exact absurd hrun (by simp)

/-! ## The whole loop -/

omit [UnicodeTables] in
theorem TrackedClean.congr {q : Str} (h : TrackedClean w q) (hsame : SameAt q w w')
    (hstaged : (∀ f, (w'.index q).rpms.read f = (w'.head q).rpms.read f) ∧
      (w'.index q).metadata = (w'.head q).metadata) : TrackedClean w' q := by
  have hread : ∀ f, (w'.head q).rpms.read f = (w.head q).rpms.read f := by
    intro f
    rw [← hstaged.1 f, hsame.index, h.staged.1 f]
  refine ⟨hstaged, fun f hf => ?_, ?_⟩
  · rw [hsame.packageDir, hread f]
    refine h.files f ?_
    rwa [Tree.isFile, ← hread f]
  · rw [hsame.metadata, h.metadata, ← h.staged.2, ← hsame.index, hstaged.2]

omit [UnicodeTables] in
/-- A round leaves the packages clean that were, and its own one as well if it was due. -/
theorem Round.trackedClean {r : VersionCheckResult} {q : Str} (h : Round a w r w')
    (hq : TrackedClean w q) : TrackedClean w' q := by
  cases h with
  | skipped => exact hq
  | failed message due works clean =>
      by_cases hqp : q = a.package
      · exact hqp ▸ clean
      · have hsame := works.sameAt hqp
        refine hq.congr hsame ?_
        rw [works.head, hsame.index]
        exact hq.staged
  | @updated w' c due succeeded =>
      obtain ⟨w₁, works, hcontent, rfl⟩ := succeeded.works
      have hstaged : ∀ q, w₁.index q = c.content q := fun q => congrFun hcontent.symm q
      by_cases hqp : q = a.package
      · subst hqp
        exact ⟨⟨fun f => congrArg (fun t : Tracked => t.rpms.read f) (hstaged _),
          congrArg Tracked.metadata (hstaged _)⟩, succeeded.files, succeeded.metadata⟩
      · obtain ⟨hindex, hdir, hmetadata⟩ := works.sameAt hqp
        refine hq.congr ⟨hindex, hdir, hmetadata⟩ ⟨fun f => ?_, ?_⟩
        · exact congrArg (fun t : Tracked => t.rpms.read f) (hstaged q)
        · exact congrArg Tracked.metadata (hstaged q)

omit [UnicodeTables] in
theorem Round.attempted {r : VersionCheckResult} (h : Round a w r w') : a.Attempted r := by
  cases h with
  | skipped due => exact ⟨rfl, fun hne => absurd due hne⟩
  | updated due _ => exact ⟨rfl, fun _ => by simp⟩
  | failed message due _ _ => exact ⟨rfl, fun _ => by simp⟩

omit [UnicodeTables] in
/-- A round has added a commit exactly when its result says updated. -/
theorem Round.commits {r : VersionCheckResult} (h : Round a w r w') :
    if r.updated then ∃ c, Succeeded a w w' c else w'.commits = w.commits := by
  cases h with
  | skipped => exact rfl
  | updated due succeeded => exact ⟨_, succeeded⟩
  | failed message due works clean => exact works.commits

/-- What every run of the loop keeps: the clean packages, and a commit for each success. -/
theorem updateLoop_ok {attempts : List UpdateAttempt} {results : List VersionCheckResult}
    (h : updateLoop skipPipeline attempts w = .ok results w') :
    (∀ q, TrackedClean w q → TrackedClean w' q) ∧
      ∃ cs : List Commit, w'.commits = cs.reverse ++ w.commits ∧
        cs.length = (updatedPackages results).length := by
  induction attempts generalizing w results with
  | nil =>
      obtain ⟨rfl, rfl⟩ := EStateM.Result.ok.inj h
      exact ⟨fun _ hq => hq, [], rfl, rfl⟩
  | cons a attempts ih =>
      obtain ⟨r, w₁, hrun, h⟩ := bind_ok_iff.mp h
      obtain ⟨rs, w₂, hloop, h⟩ := bind_ok_iff.mp h
      obtain ⟨rfl, rfl⟩ := EStateM.Result.ok.inj h
      have hround := round_of_ok hrun
      obtain ⟨hclean, cs, hcs, hlength⟩ := ih hloop
      refine ⟨fun q hq => hclean q (hround.trackedClean hq), ?_⟩
      have hcommits := hround.commits
      unfold updatedPackages at hlength ⊢
      rw [List.filter_cons]
      split at hcommits
      · rename_i hupdated
        obtain ⟨c, hc⟩ := hcommits
        refine ⟨c :: cs, by rw [hcs, hc.commits]; simp, ?_⟩
        rw [if_pos hupdated, List.map_cons, List.length_cons, List.length_cons, hlength]
      · rename_i hupdated
        rw [if_neg hupdated]
        exact ⟨cs, by rw [hcs, hcommits], hlength⟩

omit [UnicodeTables] in
theorem head_eq_content {c : Commit} (h : w'.commits = c :: w.commits) : w'.head = c.content := by
  funext q
  unfold World.head
  rw [h]

/-- Run lemma: a batch is isolated when its first round is and the rest, in the world that leaves. -/
theorem batchIsolated_cons {rest : List UpdateAttempt} :
    BatchIsolated skipPipeline (a :: rest) w ↔
      RoundIsolated skipPipeline a w ∧ BatchIsolated skipPipeline rest (final (a.run skipPipeline) w) := by
  constructor
  · rintro ⟨results, w', hrun, hattempted, ⟨commits, hcommits, heach⟩, hclean⟩
    obtain ⟨r, w₁, hround, hrun⟩ := bind_ok_iff.mp hrun
    obtain ⟨rs, w₂, hloop, hrun⟩ := bind_ok_iff.mp hrun
    obtain ⟨rfl, rfl⟩ := EStateM.Result.ok.inj hrun
    obtain ⟨-, cs, hcs, hlength⟩ := updateLoop_ok hloop
    have hadded := (round_of_ok hround).commits
    have hpackage : r.package = a.package := congrArg Checked.package (round_of_ok hround).attempted.1
    have hrest : (List.Forall₂ UpdateAttempt.Attempted rest rs) ∧
        ∀ r' ∈ rs, r'.updateError ≠ none → TrackedClean w₂ r'.package :=
      ⟨(List.forall₂_cons.mp hattempted).2, fun r' hr' => hclean r' (List.mem_cons_of_mem _ hr')⟩
    rw [final_of_ok hround]
    unfold updatedPackages at heach hlength
    rw [List.filter_cons] at heach
    split at hadded
    · rename_i hupdated
      obtain ⟨c, hc⟩ := hadded
      rw [if_pos hupdated, List.map_cons] at heach
      cases commits with
      | nil => exact heach.elim
      | cons c' cs' =>
          obtain ⟨hfirst, heach⟩ := heach
          -- the commits that the rest of the loop adds are the ones after the first
          have hsplit : cs.reverse ++ [c] = cs'.reverse ++ [c'] := by
            apply (List.append_left_inj w.commits).mp
            rw [List.append_assoc, List.append_assoc, List.singleton_append, ← hc.commits, ← hcs, hcommits]
            simp
          obtain ⟨hrev, hlast⟩ := List.append_inj' hsplit rfl
          obtain rfl := List.reverse_injective hrev
          obtain rfl := List.singleton_inj.mp hlast
          refine ⟨⟨r, w₁, hround, fun _ => ⟨c, hc.commits, hpackage ▸ hfirst⟩⟩, rs, w₂, hloop, hrest.1,
            ⟨cs, hcs, ?_⟩, hrest.2⟩
          rw [head_eq_content hc.commits]
          exact heach
    · rename_i hupdated
      rw [if_neg hupdated] at heach
      have hhead : w₁.head = w.head := funext fun q => head_congr hadded
      refine ⟨⟨r, w₁, hround, fun h => absurd h hupdated⟩, rs, w₂, hloop, hrest.1,
        ⟨commits, hadded ▸ hcommits, ?_⟩, hrest.2⟩
      rw [hhead]
      exact heach
  · rintro ⟨⟨r, w₁, hround, htouches⟩, rs, w₂, hloop, hattempted, ⟨cs, hcs, heach⟩, hclean⟩
    rw [final_of_ok hround] at hloop hcs heach
    have hstep := round_of_ok hround
    have hadded := hstep.commits
    have hrun : updateLoop skipPipeline (a :: rest) w = .ok (r :: rs) w₂ := by
      unfold updateLoop
      rw [run_bind_of_ok hround, run_bind_of_ok hloop]
      rfl
    refine ⟨r :: rs, w₂, hrun, List.forall₂_cons.mpr ⟨hstep.attempted, hattempted⟩, ?_, ?_⟩
    · unfold updatedPackages at heach ⊢
      rw [List.filter_cons]
      split at hadded
      · rename_i hupdated
        obtain ⟨c, hc⟩ := hadded
        obtain ⟨c', hc', hfirst⟩ := htouches hupdated
        obtain ⟨rfl, -⟩ := List.cons.inj (hc.commits.symm.trans hc')
        rw [head_eq_content hc.commits] at heach
        refine ⟨c :: cs, by rw [hcs, hc.commits]; simp, ?_⟩
        rw [if_pos hupdated, List.map_cons]
        have hpackage : r.package = a.package := congrArg Checked.package hstep.attempted.1
        exact ⟨hpackage ▸ hfirst, heach⟩
      · rename_i hupdated
        have hhead : w₁.head = w.head := funext fun q => head_congr hadded
        rw [if_neg hupdated]
        exact ⟨cs, by rw [hcs, hadded], hhead ▸ heach⟩
    · intro r' hr' herror
      rcases List.mem_cons.mp hr' with rfl | hr'
      · refine (updateLoop_ok hloop).1 _ ?_
        cases hstep with
        | skipped => exact absurd rfl herror
        | updated => exact absurd rfl herror
        | failed message due works clean => exact clean
      · exact hclean r' hr' herror

theorem batchIsolated_nil : BatchIsolated skipPipeline [] w := by
  refine ⟨[], w, rfl, .nil, ⟨[], rfl, trivial⟩, fun r hr => ?_⟩
  exact absurd hr (by simp)

/-- **`batchIsolated_iff`** — the packages of a batch do not disturb one another exactly when the loop
gets over every update, in the world it meets: where an update succeeds nothing of another package is
staged, and where it raises, the exception is one the loop catches, git knows the two paths of the
package, and restoring and cleaning them goes through. -/
theorem batchIsolated_iff (skipPipeline : Bool) (attempts : List UpdateAttempt) (w : World) :
    BatchIsolated skipPipeline attempts w ↔ AllTolerated skipPipeline attempts w := by
  induction attempts generalizing w with
  | nil => exact iff_of_true batchIsolated_nil trivial
  | cons a rest ih =>
      rw [batchIsolated_cons, ih, ← tolerated_iff]
      rfl

end

/-! ### An example batch -/

/-- The update of a package to version 2, with what its hooks hold. -/
def exampleUpdate (package : Str) (hooksFile : Option File) : UpdateAttempt where
  checked := { package, upstreamVersion := some "2", hasUpdate := true, versionSource := none }
  env :=
    { Env.offline with
      safeLoad := fun s =>
        if s = "update_spec: [\n".toList then .error (.raised .yamlError "did not find the expected node content")
        else .ok (.dict [])
      rpmspec := fun _ _ => .exited 0 "2\n1\n" []
      specSources := fun _ _ => .ok []
      commitOk := true }
  specLibrary :=
    { load := fun dir path => readText dir path
      expandedVersion := fun _ _ => .ok "1"
      versionTag := fun _ => .ok "1"
      hasAutorelease := fun _ => .ok false
      updateTag := fun tag value spec => .ok (spec ++ tag ++ ": ".toList ++ value ++ "\n".toList)
      updateVersion := fun _ _ spec => .ok spec }
  hooksFile
  restoreOk := true
  cleanOk := true

def exampleTracked : Tracked where
  rpms := Tree.ofList [("package.spec", .text "Name: package\n")]
  metadata := some { version := "1", modificationStatus := some .clean }
  pipeline := none

/-- A repository in which everything is committed. -/
def exampleCommitted : World :=
  { World.empty with
    rpms := fun _ => some exampleTracked.rpms
    metadata := fun _ => exampleTracked.metadata
    index := fun _ => exampleTracked
    commits := [⟨"Import", fun _ => exampleTracked⟩] }

/-- Hooks that are not valid YAML end the loop; without them the same batch is isolated. -/
theorem broken_hooks_end_batch :
    letI := asciiTables
    ¬ BatchIsolated false
      [exampleUpdate "bash" (some (.text "update_spec: [\n")), exampleUpdate "curl" none] exampleCommitted ∧
    BatchIsolated false [exampleUpdate "curl" none] exampleCommitted := by
  let _ := asciiTables
  constructor
  · rintro ⟨results, w', hrun, -⟩
    have hraises : raises (updateLoop false
        [exampleUpdate "bash" (some (.text "update_spec: [\n")), exampleUpdate "curl" none])
        exampleCommitted (fun e _ => e.isA .yamlError) = true := by decide +kernel
    obtain ⟨e, w₁, herror, -⟩ := raises_iff.mp hraises
    exact absurd (herror.symm.trans hrun) (by simp)
  · refine batchIsolated_cons.mpr ⟨tolerated_iff.mp fun newVersion hdue => ?_, batchIsolated_nil⟩
    obtain rfl : "2".toList = newVersion := Option.some.inj hdue
    have hreturns : returns ((exampleUpdate "curl" none).apply false "2") exampleCommitted
        (fun _ _ => true) = true := by decide +kernel
    obtain ⟨u, w₁, hrun, -⟩ := returns_iff.mp hreturns
    rw [hrun]
    exact ⟨fun _ _ => rfl, rfl⟩

end HummingbirdRpms
