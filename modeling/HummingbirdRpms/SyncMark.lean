/-
# HummingbirdRpms.SyncMark — `sync --mark` on a package with local changes.

`sync --mark` of `ci/dist_git.py` marks a package as synced, and its help says that it fails if the
package has actual modifications.  `update` looks for modifications where upstream is at the recorded
commit; where upstream has moved on, or another commit or branch is asked for, it goes on as a sync that
discards them.

**`syncMark_refuses_iff`** says when the promised refusal happens: at the recorded commit, where
upstream cannot be read, and where what comes after the directory has been replaced fails and leaves
things as they were before.
-/
import HummingbirdRpms.LocalChanges

namespace HummingbirdRpms

open Lib Lib.Text Lib.Exec

section

variable [UnicodeTables]

/-! ## Refusals -/

/-- A run that ends with an error and leaves the directory, the metadata file and the commits alone. -/
def Refused (x : Tool Unit) (package : Str) (w : World) : Prop :=
  ∃ e w', x w = .error e w' ∧ w'.rpms package = w.rpms package ∧ w'.metadata package = w.metadata package ∧
    w'.commits = w.commits

/-- A package with an upstream whose directory `is_package_unmodified` finds modified. -/
structure HasModifications (env : Env) (w : World) (package : Str) (args : UpdateArgs) : Prop where
  upstream : updateTarget env w package args ≠ .ok none
  modified (t : Target) (up : Upstream) : updateTarget env w package args = .ok (some t) →
    env.clone t.source t.effectiveBranch (!t.branchChanged) = some up →
      isPackageUnmodified env up (w.packageDir package) t.oldSha = .ok false

/-- Upstream is at the recorded commit, on the recorded branch. -/
def Target.Recorded (t : Target) : Prop := t.latestSha = t.oldSha ∧ t.branchChanged = false

/-- The commit to sync to cannot be checked out, or the spec file in it cannot be evaluated. -/
inductive UpstreamFails (env : Env) (t : Target) (args : UpdateArgs) : Prop
  | checkout {e : Exn} (failed : checkoutUpdate env t args = .error e)
  | spec {up : Upstream} {upstreamDir : Tree} {sha : Str} {e : Exn}
      (checkout : checkoutUpdate env t args = .ok (up, upstreamDir, sha))
      (exists_spec : upstreamDir.glob ".spec" ≠ []) (failed : parseSpecVersion env upstreamDir = .error e)
  | autorelease {up : Upstream} {upstreamDir : Tree} {sha : Str} {e : Exn}
      (checkout : checkoutUpdate env t args = .ok (up, upstreamDir, sha))
      (exists_spec : upstreamDir.glob ".spec" ≠ []) (failed : usesAutorelease upstreamDir = .error e)
  | release {up : Upstream} {upstreamDir : Tree} {sha version release : Str} {auto : Bool} {e : Exn}
      (checkout : checkoutUpdate env t args = .ok (up, upstreamDir, sha))
      (exists_spec : upstreamDir.glob ".spec" ≠ [])
      (spec : parseSpecVersion env upstreamDir = .ok (version, release))
      (uses : usesAutorelease upstreamDir = .ok auto)
      (failed : resolveRelease env t auto release = .error e)
  | distTag {up : Upstream} {upstreamDir : Tree} {sha : Str} {e : Exn}
      (checkout : checkoutUpdate env t args = .ok (up, upstreamDir, sha))
      (exists_spec : upstreamDir.glob ".spec" ≠ [])
      (failed : getDistTag env t.effectiveBranch = .error e)

/-- A sync that fails after it has replaced the directory, where what it leaves is what was there: the
spec file cannot be read, the gorget step fails or asks for manual work, or the commit fails. -/
def FailsInPlace (env : Env) (w : World) (package : Str) (args : UpdateArgs) (t : Target)
    (plan : UpdatePlan) : Prop :=
  match plan.placed with
  | .error _ => w.rpms package = some plan.merge.tree
  | .ok dir => args.dryRun = false ∧
      match runGorgetForUpdatedPackage env package t.metadata.version plan.version t.metadata
          (w.setRpms package dir) with
      | .error _ w₂ => w₂.rpms package = w.rpms package
      | .ok (some _, _) w₂ => w₂.rpms package = w.rpms package
      | .ok (none, names) w₂ =>
          match commitPackage env package (some (updatedMetadata t plan args.sync)) names
              (updateMessage package t plan args.sync)
              (w₂.setImports package (updatedMetadata t plan args.sync)) with
          | .ok _ _ => False
          | .error _ w' => w'.rpms package = w.rpms package ∧
              w.metadata package = some (updatedMetadata t plan args.sync)

/-- When a sync that marks refuses a package with local changes. -/
inductive RefusesMark (env : Env) (w : World) (package : Str) (args : UpdateArgs) : Prop
  | target {e : Exn} (failed : updateTarget env w package args = .error e)
  | recorded {t : Target} (target : updateTarget env w package args = .ok (some t)) (same : t.Recorded)
  | upstream {t : Target} (target : updateTarget env w package args = .ok (some t))
      (failed : UpstreamFails env t args)
  | inPlace {t : Target} {plan : UpdatePlan}
      (decision : updateDecision env w package args = .ok (.apply t plan))
      (fails : FailsInPlace env w package args t plan)

variable {env : Env} {w : World} {package : Str} {args : UpdateArgs} {t : Target} {plan : UpdatePlan}

theorem refused_of_decision {e : Exn} (h : updateDecision env w package args = .error e) :
    Refused (update env package args) package w := ⟨e, w, update_of_error h, rfl, rfl, rfl⟩

/-! ## At the recorded commit -/

/-- Mark mode does not get past the comparison. -/
theorem markDecision_error (hmod : HasModifications env w package args)
    (htarget : updateTarget env w package args = .ok (some t)) :
    ∃ e, markDecision env w package t = .error e := by
  unfold markDecision
  cases hclone : cloneUpstream env t with
  | error e => exact ⟨e, rfl⟩
  | ok r =>
      obtain ⟨up, upstreamDir⟩ := r
      rw [except_bind_ok]
      dsimp only
      rw [hmod.modified t up htarget (cloneUpstream_ok hclone).1, except_bind_ok]
      exact ⟨_, rfl⟩

theorem updateDecision_recorded (hsync : args.sync = true) (hmark : args.mark = true)
    (htarget : updateTarget env w package args = .ok (some t)) (hsame : t.Recorded) :
    updateDecision env w package args = markDecision env w package t := by
  unfold updateDecision
  rw [htarget, except_bind_ok]
  dsimp only
  rw [if_pos (by rw [hsame.1, hsame.2]; simp), hsync, hmark]
  rfl

theorem updateDecision_moved (htarget : updateTarget env w package args = .ok (some t))
    (hmoved : ¬ t.Recorded) : updateDecision env w package args = planUpdate env w package t args := by
  unfold updateDecision
  rw [htarget, except_bind_ok]
  dsimp only
  rw [if_neg]
  simpa [Target.Recorded] using hmoved

/-! ## Anywhere else -/

theorem versionAdmitted_sync (hsync : args.sync = true) {version release : Str} :
    versionAdmitted env t args version release = .ok true := by
  rw [versionAdmitted, hsync]
  rfl

theorem buildAdmitted_sync (hsync : args.sync = true) {version release sha : Str} :
    buildAdmitted env t args version release sha =
      (getDistTag env t.effectiveBranch >>= fun _ => .ok true) := by
  rw [buildAdmitted, hsync, Bool.or_true]
  rfl

/-- A sync to another commit fails while it reads upstream, finds no spec file there, or replaces the
directory with the upstream tree. -/
theorem planUpdate_sync (hsync : args.sync = true) (hmod : HasModifications env w package args)
    (htarget : updateTarget env w package args = .ok (some t)) :
    (UpstreamFails env t args ∧ ∃ e, planUpdate env w package t args = .error e) ∨
      (¬ UpstreamFails env t args ∧ (planUpdate env w package t args = .ok .skip ∨
        ∃ plan, plan.merge.failed = false ∧ planUpdate env w package t args = .ok (.apply t plan))) := by
  unfold planUpdate
  cases hcheckout : checkoutUpdate env t args with
  | error e => exact Or.inl ⟨.checkout hcheckout, e, rfl⟩
  | ok r =>
      obtain ⟨up, upstreamDir, sha⟩ := r
      rw [except_bind_ok]
      dsimp only
      by_cases hspec : upstreamDir.glob ".spec" = []
      · rw [if_pos hspec]
        refine Or.inr ⟨?_, Or.inl rfl⟩
        intro hfails
        cases hfails with
        | checkout h => exact absurd (h.symm.trans hcheckout) (by simp)
        | spec h hne | autorelease h hne | release h hne | distTag h hne =>
            obtain ⟨-, rfl, -⟩ : _ ∧ _ ∧ _ := by simpa using Except.ok.inj (h.symm.trans hcheckout)
            exact hne hspec
      · rw [if_neg hspec]
        cases hparse : parseSpecVersion env upstreamDir with
        | error e => exact Or.inl ⟨.spec hcheckout hspec hparse, e, rfl⟩
        | ok printed =>
            obtain ⟨version, specRelease⟩ := printed
            rw [except_bind_ok]
            dsimp only
            cases hauto : usesAutorelease upstreamDir with
            | error e => exact Or.inl ⟨.autorelease hcheckout hspec hauto, e, rfl⟩
            | ok auto =>
                rw [except_bind_ok]
                cases hrelease : resolveRelease env t auto specRelease with
                | error e => exact Or.inl ⟨.release hcheckout hspec hparse hauto hrelease, e, rfl⟩
                | ok release =>
                    rw [except_bind_ok, versionAdmitted_sync hsync, except_bind_ok, if_neg (by simp),
                      buildAdmitted_sync hsync]
                    cases htag : getDistTag env t.effectiveBranch with
                    | error e => exact Or.inl ⟨.distTag hcheckout hspec htag, e, rfl⟩
                    | ok tag =>
                        rw [except_bind_ok, except_bind_ok, if_neg (by simp),
                          hmod.modified t up htarget (checkoutUpdate_ok hcheckout).1, except_bind_ok,
                          mergeOrReplace, hsync, if_neg (by simp), except_bind_ok]
                        refine Or.inr ⟨?_, Or.inr ⟨_, rfl, rfl⟩⟩
                        intro hfails
                        cases hfails with
                        | checkout h => exact absurd (h.symm.trans hcheckout) (by simp)
                        | spec h _ hfailed =>
                            obtain ⟨-, rfl, -⟩ : _ ∧ _ ∧ _ := by
                              simpa using Except.ok.inj (h.symm.trans hcheckout)
                            exact absurd (hfailed.symm.trans hparse) (by simp)
                        | autorelease h _ hfailed =>
                            obtain ⟨-, rfl, -⟩ : _ ∧ _ ∧ _ := by
                              simpa using Except.ok.inj (h.symm.trans hcheckout)
                            exact absurd (hfailed.symm.trans hauto) (by simp)
                        | release h _ hprinted huses hfailed =>
                            obtain ⟨-, rfl, -⟩ : _ ∧ _ ∧ _ := by
                              simpa using Except.ok.inj (h.symm.trans hcheckout)
                            obtain ⟨-, rfl⟩ : _ ∧ _ := by
                              simpa using Except.ok.inj (hprinted.symm.trans hparse)
                            obtain rfl := Except.ok.inj (huses.symm.trans hauto)
                            exact absurd (hfailed.symm.trans hrelease) (by simp)
                        | distTag _ _ hfailed => exact absurd (hfailed.symm.trans htag) (by simp)

/-! ## After the directory has been replaced -/

omit [UnicodeTables] in
/-- A run that returns does not refuse. -/
theorem not_refused_of_ok {x : Tool Unit} {u : Unit} {w' : World} (h : x w = .ok u w') :
    ¬ Refused x package w := by
  rintro ⟨e, w'', herror, -⟩
  exact absurd (h.symm.trans herror) (by simp)

omit [UnicodeTables] in
/-- A run that ends with an error refuses when it leaves the three as they were. -/
theorem refused_of_error_iff {x : Tool Unit} {e : Exn} {w' : World} (h : x w = .error e w') :
    Refused x package w ↔ w'.rpms package = w.rpms package ∧ w'.metadata package = w.metadata package ∧
      w'.commits = w.commits := by
  constructor
  · rintro ⟨e', w'', herror, hsame⟩
    obtain ⟨-, rfl⟩ := EStateM.Result.error.inj (h.symm.trans herror)
    exact hsame
  · intro hsame
    exact ⟨e, w', h, hsame⟩

omit [UnicodeTables] in
theorem TouchesPackage.metadata_commits {w₁ w₂ : World} (h : TouchesPackage package w₁ w₂) :
    w₂.metadata = w₁.metadata ∧ w₂.commits = w₁.commits := by
  obtain ⟨_, _, _, rfl⟩ := h
  exact ⟨rfl, rfl⟩

omit [UnicodeTables] in
theorem DirAndIndex.metadata_commits {w₁ w₂ : World} (h : DirAndIndex package w₁ w₂) :
    w₂.metadata = w₁.metadata ∧ w₂.commits = w₁.commits := by
  obtain ⟨_, _, rfl⟩ := h
  exact ⟨rfl, rfl⟩

/-- A dry run of a plan whose directory can be put in place ends well. -/
theorem applyUpdate_dry {dir : Tree} (hdry : args.dryRun = true) (hplaced : plan.placed = .ok dir) :
    applyUpdate env package args t plan w =
      .ok () ((w.setRpms package dir).setImports package (updatedMetadata t plan args.sync)) := by
  unfold applyUpdate
  rw [run_bind, run_placeUpdate, hplaced]
  dsimp only
  rw [hdry, Bool.or_true]
  rfl

theorem applyUpdate_refused_iff (hclean : plan.merge.failed = false) :
    Refused (applyUpdate env package args t plan) package w ↔ FailsInPlace env w package args t plan := by
  unfold FailsInPlace
  cases hplaced : plan.placed with
  | error e =>
      have hrun : applyUpdate env package args t plan w = .error e (w.setRpms package plan.merge.tree) := by
        unfold applyUpdate
        rw [run_bind, run_placeUpdate, hplaced]
      have hrpms : (w.setRpms package plan.merge.tree).rpms package = some plan.merge.tree := by
        simp [World.setRpms]
      rw [refused_of_error_iff hrun, hrpms]
      constructor
      · rintro ⟨hsame, -⟩
        exact hsame.symm
      · intro hsame
        exact ⟨hsame.symm, rfl, rfl⟩
  | ok dir =>
      cases hdry : args.dryRun with
      | true =>
          refine iff_of_false (not_refused_of_ok (applyUpdate_dry hdry hplaced)) ?_
          rintro ⟨hwet, -⟩
          exact absurd hwet (by simp)
      | false =>
          have hrun := @applyUpdate_eq _ env package args t plan w dir hdry hclean hplaced
          have hsteps : Steps (TouchesPackage package) (runGorgetForUpdatedPackage env package
              t.metadata.version plan.version t.metadata) := steps_runGorgetForUpdatedPackage
          -- the gorget step leaves the metadata file and the commits alone
          have hframe : ∀ w₂ : World, TouchesPackage package (w.setRpms package dir) w₂ →
              w₂.metadata package = w.metadata package ∧ w₂.commits = w.commits := by
            intro w₂ h
            exact ⟨congrFun h.metadata_commits.1 package, h.metadata_commits.2⟩
          simp only [true_and]
          cases hgorget : runGorgetForUpdatedPackage env package t.metadata.version plan.version t.metadata
              (w.setRpms package dir) with
          | error e w₂ =>
              rw [hgorget] at hrun
              rw [refused_of_error_iff hrun]
              exact ⟨And.left, fun hsame => ⟨hsame, hframe w₂ (hsteps.error hgorget)⟩⟩
          | ok r w₂ =>
              have hkept := hframe w₂ (hsteps.ok hgorget)
              obtain ⟨_ | reason, names⟩ := r
              · rw [hgorget] at hrun
                dsimp only at hrun ⊢
                cases hcommit : commitPackage env package (some (updatedMetadata t plan args.sync)) names
                    (updateMessage package t plan args.sync)
                    (w₂.setImports package (updatedMetadata t plan args.sync)) with
                | ok u w' => exact iff_of_false (not_refused_of_ok (hrun.trans hcommit)) id
                | error e w' =>
                    obtain ⟨hmetadata, hcommits⟩ := (commitPackage_error hcommit).metadata_commits
                    have hrecord : w'.metadata package = some (updatedMetadata t plan args.sync) := by
                      rw [hmetadata]
                      simp [World.saved, World.setMetadata]
                    rw [refused_of_error_iff (hrun.trans hcommit), hrecord]
                    constructor
                    · rintro ⟨hsame, hrecord, -⟩
                      exact ⟨hsame, hrecord.symm⟩
                    · rintro ⟨hsame, hrecord⟩
                      exact ⟨hsame, hrecord.symm, hcommits.trans hkept.2⟩
              · rw [hgorget] at hrun
                rw [refused_of_error_iff hrun]
                exact ⟨And.left, fun hsame => ⟨hsame, hkept⟩⟩

/-- **`syncMark_refuses_iff`** — a sync that marks refuses a package with local changes exactly when
upstream is at the recorded commit of the recorded branch, when the package or its upstream cannot be
read, or when it fails later and leaves what was there. -/
theorem syncMark_refuses_iff (hsync : args.sync = true) (hmark : args.mark = true)
    (hmod : HasModifications env w package args) :
    Refused (update env package args) package w ↔ RefusesMark env w package args := by
  cases htarget : updateTarget env w package args with
  | error e =>
      have hdecision : updateDecision env w package args = .error e := by
        unfold updateDecision
        rw [htarget, except_bind_error]
      exact iff_of_true (refused_of_decision hdecision) (.target htarget)
  | ok target =>
      cases target with
      | none => exact absurd htarget hmod.upstream
      | some t =>
          by_cases hsame : t.Recorded
          · obtain ⟨e, herror⟩ := markDecision_error hmod htarget
            have hdecision := updateDecision_recorded hsync hmark htarget hsame
            exact iff_of_true (refused_of_decision (hdecision.trans herror)) (.recorded htarget hsame)
          · have hdecision := updateDecision_moved htarget hsame
            rcases planUpdate_sync hsync hmod htarget with ⟨hfails, e, herror⟩ | ⟨hreads, hplan⟩
            · exact iff_of_true (refused_of_decision (hdecision.trans herror)) (.upstream htarget hfails)
            · -- what is left of the condition is the last case
              have hother : ∀ P : Prop, (∀ t' plan, updateDecision env w package args = .ok (.apply t' plan) →
                  FailsInPlace env w package args t' plan → P) → RefusesMark env w package args → P := by
                intro P hP h
                cases h with
                | target hfailed => exact absurd (htarget.symm.trans hfailed) (by simp)
                | recorded htarget' hsame' =>
                    obtain rfl : t = _ := by simpa using htarget.symm.trans htarget'
                    exact absurd hsame' hsame
                | upstream htarget' hfailed =>
                    obtain rfl : t = _ := by simpa using htarget.symm.trans htarget'
                    exact absurd hfailed hreads
                | inPlace happly hfails => exact hP _ _ happly hfails
              rcases hplan with hskip | ⟨plan, hclean, happly⟩
              · refine iff_of_false (not_refused_of_ok (update_of_skip (hdecision.trans hskip))) ?_
                refine hother False fun t' plan happly _ => ?_
                exact absurd ((hdecision.trans hskip).symm.trans happly) (by simp)
              · have happly := hdecision.trans happly
                have hrun : Refused (update env package args) package w ↔
                    Refused (applyUpdate env package args t plan) package w := by
                  unfold Refused
                  rw [update_of_apply happly]
                rw [hrun, applyUpdate_refused_iff hclean]
                constructor
                · intro hfails
                  exact .inPlace happly hfails
                · refine hother _ fun t' plan' happly' hfails => ?_
                  obtain ⟨rfl, rfl⟩ := Decision.apply.inj (Except.ok.inj (happly.symm.trans happly'))
                  exact hfails

end

/-! ## Upstream has moved on -/

/-- `sync --mark` -/
def syncMark : UpdateArgs := { sync := true, mark := true }

/-- The package has a local patch, and upstream has another commit than the recorded one. -/
theorem patchedGcc_modified :
    letI := asciiTables
    HasModifications (gccEnv oldGcc respunGcc "2") (gccWorld .modified patchedGcc) "gcc" syncMark := by
  let _ := asciiTables
  have htarget : updateTarget (gccEnv oldGcc respunGcc "2") (gccWorld .modified patchedGcc) "gcc" syncMark =
      .ok (some ⟨gccMetadata .modified, "https://src.fedoraproject.org/rpms/gcc.git", "f42", "old", "f42",
        false, "new"⟩) := by
    decide +kernel
  refine ⟨?_, fun t up ht hclone => ?_⟩
  · rw [htarget]
    simp
  · obtain rfl := Option.some.inj (Except.ok.inj (ht.symm.trans htarget))
    obtain rfl := Option.some.inj hclone
    rfl

theorem syncMark_refuses_iff_gcc :
    letI := asciiTables
    Refused (update (gccEnv oldGcc respunGcc "2") "gcc" syncMark) "gcc" (gccWorld .modified patchedGcc) ↔
      RefusesMark (gccEnv oldGcc respunGcc "2") (gccWorld .modified patchedGcc) "gcc" syncMark := by
  let _ := asciiTables
  exact syncMark_refuses_iff rfl rfl patchedGcc_modified

/-- The patch is dropped, and the package committed as synced. -/
theorem syncMark_discards :
    letI := asciiTables
    HasModifications (gccEnv oldGcc respunGcc "2") (gccWorld .modified patchedGcc) "gcc" syncMark ∧
      returns (update (gccEnv oldGcc respunGcc "2") "gcc" syncMark) (gccWorld .modified patchedGcc)
        (fun _ w' => (w'.packageDir "gcc").read "fix.patch" = none && w'.commits.length = 2) = true ∧
      ¬ Refused (update (gccEnv oldGcc respunGcc "2") "gcc" syncMark) "gcc" (gccWorld .modified patchedGcc) := by
  let _ := asciiTables
  have hrun : returns (update (gccEnv oldGcc respunGcc "2") "gcc" syncMark) (gccWorld .modified patchedGcc)
      (fun _ w' => (w'.packageDir "gcc").read "fix.patch" = none && w'.commits.length = 2) = true := by
    decide +kernel
  obtain ⟨u, w', hok, -⟩ := returns_iff.mp hrun
  exact ⟨patchedGcc_modified, hrun, not_refused_of_ok hok⟩

end HummingbirdRpms
