/-
# HummingbirdRpms.Reruns — updates that are run again.

An update that has returned leaves nothing to do: **`update_again`** — where `update`, of one package or of
all, has returned, the same command in a new process decides to skip every package, and changes nothing.

An update that gorget has interrupted is taken up again by `update --continue`.  **`continue_completes`** — as
long as what the update has put in place is still there, a continued update ends as the update would have
ended with what gorget does now: it commits exactly when the update would have, and the same, under a message
that says that gorget was to be run.
-/
import HummingbirdRpms.Independence
import HummingbirdRpms.Provenance

namespace HummingbirdRpms

open Lib Lib.Text Lib.Exec Lib.TwoRuns

/-! ## An update that has returned -/

section

variable [UnicodeTables] {env : Env} {args : UpdateArgs} {p : Str} {w w' : World} {t : Target} {plan : UpdatePlan}

/-- The branch that an update has taken is the package's own afterwards. -/
theorem effectiveBranch_again {old branch : Str} {changed : Bool}
    (h : effectiveBranch env args old = .ok (branch, changed)) :
    effectiveBranch env args branch = .ok (branch, false) := by
  unfold effectiveBranch at h ⊢
  cases hb : given args.branch with
  | none => rfl
  | some b =>
      rw [hb] at h
      dsimp only at h ⊢
      split at h
      · rename_i heq
        obtain ⟨rfl, -⟩ := Prod.mk.inj (Except.ok.inj h)
        rw [if_pos heq]
      · obtain ⟨_, -, h⟩ := except_bind_ok_iff.mp h
        obtain ⟨rfl, -⟩ := Prod.mk.inj (Except.ok.inj h)
        rw [if_pos rfl]

theorem updateTarget_branch (h : updateTarget env w p args = .ok (some t)) :
    w.rpms p ≠ none ∧ effectiveBranch env args t.oldBranch = .ok (t.effectiveBranch, t.branchChanged) := by
  unfold updateTarget at h
  cases hm : w.imports p with
  | none =>
      rw [hm] at h
      exact absurd h (by simp [exit])
  | some metadata =>
      rw [hm] at h
      obtain ⟨_, hdir, h⟩ := except_bind_ok_iff.mp h
      obtain ⟨_, -, h⟩ := except_bind_ok_iff.mp h
      split at h
      · obtain ⟨⟨branch, changed⟩, hbranch, h⟩ := except_bind_ok_iff.mp h
        dsimp only at h
        split at h
        all_goals
          obtain ⟨_, -, h⟩ := except_bind_ok_iff.mp h
          obtain rfl := Option.some.inj (Except.ok.inj h)
          exact ⟨failIf_ok_iff.mp hdir, hbranch⟩
      · exact absurd (Except.ok.inj h) (by simp)

/-- A package whose record names the commit that `git ls-remote` names is skipped. -/
theorem skip_of_recorded {m : PackageMetadata} {source branch sha : Str} (hsync : args.sync = false)
    (hmark : args.mark = false) (href : given args.ref = none) (himports : w.imports p = some m)
    (hrpms : w.rpms p ≠ none) (hstatus : m.modificationStatus ≠ some .independent)
    (hsource : m.source = some source) (hbranch : m.branch = some branch) (hsha : m.sha = some sha)
    (heffective : effectiveBranch env args branch = .ok (branch, false))
    (hlatest : lsRemoteSha env p source branch = .ok sha) : updateDecision env w p args = .ok .skip := by
  have htarget : updateTarget env w p args = .ok (some ⟨m, source, branch, sha, branch, false, sha⟩) := by
    unfold updateTarget
    rw [himports]
    dsimp only
    rw [failIf, if_neg hrpms, except_bind_ok, failIf, if_neg hstatus, except_bind_ok, hsource, hbranch, hsha]
    dsimp only
    rw [heffective, except_bind_ok, href]
    dsimp only
    rw [hlatest, except_bind_ok]
    rfl
  unfold updateDecision
  rw [htarget, except_bind_ok]
  simp [hsync, hmark, failIf]

/-- A package that has a directory keeps one. -/
def KeepsDir (p : Str) (w w' : World) : Prop := w.rpms p ≠ none → w'.rpms p ≠ none

instance : Std.Refl (KeepsDir p) := ⟨fun _ h => h⟩

instance : IsTrans World (KeepsDir p) := ⟨fun _ _ _ h h' hdir => h' (h hdir)⟩

omit [UnicodeTables] in
theorem KeepsDir.moves : PackageMoves env p (KeepsDir p) where
  setRpms w dir _ := by simp [World.setRpms]
  imports _ _ h := h
  metadata _ _ h := h
  pipeline _ _ h := h
  upload _ _ _ _ h := h
  gorget _ _ _ h := h
  state _ _ _ h := h
  commit _ _ _ _ h := h
  refused _ _ _ h := h
  restored w _ := by simp [World.restored]

theorem metadata_of_commits {c : Commit} {dir : Tree} {names : List Str} {w₂ : World}
    (h : UpdateCommits env p args t plan w w' c dir names w₂) :
    w'.metadata p = some (updatedMetadata t plan args.sync) := by
  obtain ⟨_, rfl⟩ := h.commit.frame
  simp [World.setMetadata]

/-- A package that an update has returned from is skipped by the same update in a new process. -/
theorem skip_again {u : Unit} (hsync : args.sync = false) (hmark : args.mark = false) (hdry : args.dryRun = false)
    (href : given args.ref = none) (hstarted : w.imports p = w.metadata p)
    (h : update env p args w = .ok u w') : updateDecision env w'.started p args = .ok .skip := by
  cases hdecision : updateDecision env w p args with
  | error e => exact absurd ((update_of_error hdecision).symm.trans h) (by simp)
  | ok decision =>
      cases decision with
      | skip =>
          obtain ⟨-, rfl⟩ := EStateM.Result.ok.inj ((update_of_skip hdecision).symm.trans h)
          rw [← hdecision]
          exact updateDecision_congr ⟨⟨rfl, rfl, rfl, rfl, rfl, rfl⟩, hstarted.symm⟩
      | mark t version release => exact absurd (mark_of_decision hdecision).1 (by simp [hmark])
      | apply t plan =>
          obtain ⟨up, upstreamDir, specRelease, hplanned⟩ := planned_of_apply hdecision
          obtain ⟨-, hstatus, hsource, hbranch, -⟩ := updateTarget_ok hplanned.target
          obtain ⟨hdir, heffective⟩ := updateTarget_branch hplanned.target
          obtain ⟨hsame, hlatest⟩ := updateTarget_latest hplanned.target
          have hkeeps : KeepsDir p w (final (update env p args) w) := KeepsDir.moves.update w
          rw [final_of_ok h] at hkeeps
          rw [update_of_apply hdecision] at h
          have hends : UpdateEnds env p args t plan w (applyUpdate env p args t plan w) := applyUpdate_cases
          rw [h] at hends
          cases hends with
          | dry dry => exact absurd (hdry.symm.trans dry) (by simp)
          -- It has committed the record of what it updated to, and reads that record the next time.
          | committed commits =>
              have hsha : plan.latestSha = t.latestSha := by
                obtain ⟨-, ⟨-, hsha, -⟩ | ⟨_, hsome, -⟩⟩ := checkoutUpdate_ok hplanned.checkout
                · exact hsha
                · exact absurd (href.symm.trans hsome) (by simp)
              have hrecorded : (updatedMetadata t plan args.sync).branch = some t.effectiveBranch := by
                show (if t.branchChanged then some t.effectiveBranch else t.metadata.branch) = _
                cases hchanged : t.branchChanged with
                | true => rfl
                | false => rw [hbranch, hsame hchanged, if_neg Bool.false_ne_true]
              refine skip_of_recorded hsync hmark href (metadata_of_commits commits) (hkeeps hdir) ?_ hsource
                hrecorded (congrArg some hsha) (effectiveBranch_again heffective) (hlatest href)
              show (if _ then _ else _) ≠ _
              split
              · simp
              · exact hstatus

/-- An update that returns, and is no mark, leaves the state file as it is. -/
theorem state_of_update {u : Unit} (hmark : args.mark = false) (h : update env p args w = .ok u w') :
    w'.state = w.state := by
  cases hdecision : updateDecision env w p args with
  | error e => exact absurd ((update_of_error hdecision).symm.trans h) (by simp)
  | ok decision =>
      cases decision with
      | skip =>
          obtain ⟨-, rfl⟩ := EStateM.Result.ok.inj ((update_of_skip hdecision).symm.trans h)
          rfl
      | mark t version release => exact absurd (mark_of_decision hdecision).1 (by simp [hmark])
      | apply t plan =>
          rw [update_of_apply hdecision] at h
          have hends : UpdateEnds env p args t plan w (applyUpdate env p args t plan w) := applyUpdate_cases
          rw [h] at hends
          cases hends with
          | dry => rfl
          | committed commits =>
              have hgorget : TouchesPackage p _ _ := steps_runGorgetForUpdatedPackage.ok commits.gorget
              obtain ⟨_, _, _, hw₂⟩ := hgorget
              obtain ⟨_, rfl⟩ := commits.commit.frame
              rw [hw₂]
              rfl

theorem updateEach_returned {packages : List Str} {u : Unit} (hsync : args.sync = false)
    (hmark : args.mark = false) (hdry : args.dryRun = false) (href : given args.ref = none)
    (hnodup : packages.Nodup) (hclean : ∀ p ∈ packages, w.index p = w.head p)
    (hstarted : ∀ p ∈ packages, w.imports p = w.metadata p) (h : updateEach env args packages w = .ok u w') :
    (∀ p ∈ packages, updateDecision env w'.started p args = .ok .skip) ∧ w'.state = w.state := by
  induction packages generalizing w with
  | nil =>
      obtain ⟨-, rfl⟩ := EStateM.Result.ok.inj h
      exact ⟨fun _ hp => (nomatch hp), rfl⟩
  | cons p packages ih =>
      obtain ⟨hp, hrest⟩ := List.nodup_cons.mp hnodup
      obtain ⟨hcleanp, hcleanrest⟩ := List.forall_mem_cons.mp hclean
      obtain ⟨hstartedp, hstartedrest⟩ := List.forall_mem_cons.mp hstarted
      have hne : ∀ q ∈ packages, q ≠ p := fun q hq hqp => hp (hqp ▸ hq)
      have hspares : ∀ q ∈ packages, SameFor q w (final (update env p args) w) :=
        fun q hq => update_spares (hne q hq) (hcleanrest q hq)
      rw [updateEach] at h
      obtain ⟨_, v, hrun, hloop⟩ := bind_ok_iff.mp h
      rw [final_of_ok hrun] at hspares
      have hkept : SameFor p v (final (updateEach env args packages) v) :=
        updateEach_spares hp (update_returns hrun hcleanp)
      rw [final_of_ok hloop] at hkept
      have hunstaged : ∀ q ∈ packages, v.index q = v.head q :=
        fun q hq => (hspares q hq).unstaged (hcleanrest q hq)
      have hread : ∀ q ∈ packages, v.imports q = v.metadata q := by
        intro q hq
        rw [(hspares q hq).imports, (hspares q hq).metadata]
        exact hstartedrest q hq
      -- The updates behind it leave the first package as its own has left it.
      obtain ⟨hskips, hstate⟩ := ih hrest hunstaged hread hloop
      refine ⟨List.forall_mem_cons.mpr ⟨?_, hskips⟩, hstate.trans (state_of_update hmark hrun)⟩
      rw [updateDecision_congr hkept.started]
      exact skip_again hsync hmark hdry href hstartedp hrun

theorem updateEach_of_skip {packages : List Str} (h : ∀ p ∈ packages, updateDecision env w p args = .ok .skip) :
    updateEach env args packages w = .ok () w := by
  induction packages with
  | nil => rfl
  | cons p packages ih =>
      obtain ⟨hp, hrest⟩ := List.forall_mem_cons.mp h
      rw [updateEach, run_bind_of_ok (update_of_skip hp)]
      exact ih hrest

/-- **`update_again`** — where `update`, of a package or of all, has returned, the same command in a new
process takes up none of the packages and leaves everything as it is. -/
theorem update_again {package : Option Str} {order : List Str} {skipBuildCheck allowPrerelease : Bool}
    {ref branch : Option Str} {u : Unit} (href : given ref = none)
    (hnodup : (packagesToUpdate package order).Nodup)
    (hclean : ∀ p ∈ packagesToUpdate package order, w.index p = w.head p)
    (h : (RecordCommand.update package order skipBuildCheck false allowPrerelease ref branch).main env w.started =
      .ok u w') :
    (RecordCommand.update package order skipBuildCheck false allowPrerelease ref branch).main env w'.started =
      .ok u w'.started := by
  obtain ⟨_, _, hstate, h⟩ := bind_ok_iff.mp h
  obtain ⟨-, rfl⟩ := EStateM.Result.ok.inj hstate
  obtain ⟨_, _, hbranch, h⟩ := bind_ok_iff.mp h
  obtain ⟨hgiven, rfl⟩ := raiseIf_ok_iff.mp hbranch
  have hunstaged : ∀ p ∈ packagesToUpdate package order,
      ({ w.started with state := none } : World).index p = ({ w.started with state := none } : World).head p := hclean
  obtain ⟨hskips, hnone⟩ := updateEach_returned rfl rfl rfl href hnodup hunstaged (fun _ _ => rfl) h
  -- the loop has left no state file, so there is none to remove
  have hsame : { w'.started with state := none } = w'.started := by
    rw [show (none : Option UpdateState) = w'.started.state from hnone.symm]
  have hmodify : (modify fun w => { w with state := none } : Tool PUnit) w'.started = .ok ⟨⟩ w'.started :=
    (run_modify _ _).trans (congrArg (EStateM.Result.ok _) hsame)
  refine bind_ok_iff.mpr ⟨_, _, hmodify, bind_ok_iff.mpr ⟨(), _, raiseIf_ok_iff.mpr ⟨hgiven, rfl⟩, ?_⟩⟩
  exact updateEach_of_skip hskips

end

/-- An update of a package whose upstream sources have been respun. -/
def respunUpdate : RecordCommand := .update (some "gcc") [] true false false none none

theorem update_again_gcc :
    letI := asciiTables
    ∃ w', respunUpdate.main (gccEnv oldGcc respunGcc "1") (gccWorld .clean oldGcc).started = .ok () w' ∧
      w'.commits.length = 2 ∧ respunUpdate.main (gccEnv oldGcc respunGcc "1") w'.started = .ok () w'.started := by
  let _ := asciiTables
  have hreturns : returns (respunUpdate.main (gccEnv oldGcc respunGcc "1")) (gccWorld .clean oldGcc).started
      (fun _ w' => w'.commits.length = 2) = true := by decide +kernel
  obtain ⟨u, w', h, hcommits⟩ := returns_iff.mp hreturns
  exact ⟨w', h, of_decide_eq_true hcommits, update_again rfl (by decide) (fun _ _ => rfl) h⟩

/-! ## An update that is continued -/

/-- The plan of an update whose conflicts have been resolved: the directory is what has been made of it. -/
def UpdatePlan.resolved (plan : UpdatePlan) (dir : Tree) : UpdatePlan :=
  { plan with hasAutorelease := false, merge := { failed := false, tree := dir } }

section

variable [UnicodeTables] {env : Env} {args : UpdateArgs} {p : Str} {w w' : World} {t : Target} {plan : UpdatePlan}

/-- The gorget step looks at no more of a record than an update keeps. -/
theorem runGorgetForUpdatedPackage_congr {oldVersion newVersion : Str} {m m' : PackageMetadata}
    (href : m'.versionFromRef = m.versionFromRef) (hrepo : m'.upstreamRepo = m.upstreamRepo) :
    runGorgetForUpdatedPackage env p oldVersion newVersion m' =
      runGorgetForUpdatedPackage env p oldVersion newVersion m := by
  unfold runGorgetForUpdatedPackage gorgetPlan
  rw [href, hrepo]

omit [UnicodeTables] in
theorem TouchesPackage.state (h : TouchesPackage p w w') : w'.state = w.state := by
  obtain ⟨_, _, _, rfl⟩ := h
  rfl

omit [UnicodeTables] in
theorem DirAndIndex.state (h : DirAndIndex p w w') : w'.state = w.state := by
  obtain ⟨_, _, rfl⟩ := h
  rfl

/-- How a continued update ends beside an update that puts the resolved directory in place. -/
inductive Completes (p : Str) (args : UpdateArgs) (t : Target) (plan : UpdatePlan) (state : UpdateState) :
    EStateM.Result Exn World Unit → EStateM.Result Exn World Unit → Prop
  /-- Both commit the same; the state file is gone. -/
  | committed {v v' : World} (same : SameOnDisk p v v') (done : v'.state = none) :
      Completes p args t plan state (.ok () v) (.ok () v')
  /-- Both ask for a manual gorget run, for the same reason; the state file of the continued update stays. -/
  | manual {reason : Str} {v v' : World} (same : SameOnDisk p v v')
      (saved : v.state = some (interrupted p args t plan (some reason))) (kept : v'.state = some state) :
      Completes p args t plan state (.error (.systemExit (.code 2)) v)
        (.error (.systemExit (.message (statePreserved reason))) v')
  /-- Both end with the same error, with the state file still there. -/
  | fails {e : Exn} {v v' : World} (same : SameOnDisk p v v') (kept : v'.state = some state) :
      Completes p args t plan state (.error e v) (.error e v')

omit [UnicodeTables] in
/-- Where the gorget step gives no reason, both stage and commit the package. -/
theorem completes_commit {state : UpdateState} {m : PackageMetadata} {names : List Str} {message message' : Str}
    (hstate : w.state = some state) :
    Completes p args t plan state
      (commitPackage env p (some m) names message (w.setImports p m))
      ((do
        commitPackage env p (some m) names message'
        modify fun w => { w with state := none } : Tool Unit) w) := by
  have hboth : Both (SameOnDisk p) (commitPackage env p (some m) names message)
      (commitPackage env p (some m) names message') := SameOnDisk.agreement.commitPackage
  have hsame : SameOnDisk p (w.setImports p m) w := ⟨rfl, rfl, rfl, rfl, rfl, rfl⟩
  cases hleft : commitPackage env p (some m) names message (w.setImports p m) with
  | ok u v =>
      obtain ⟨v', hright, hv⟩ := hboth.ok hsame hleft
      rw [run_bind_of_ok hright]
      exact .committed ⟨hv.metadata, hv.rpms, hv.pipelines, hv.overrides, hv.index, hv.head⟩ rfl
  | error e v =>
      obtain ⟨v', hright, hv⟩ := hboth.error hsame hleft
      rw [run_bind_of_error hright]
      exact .fails hv ((commitPackage_error hright).state.trans hstate)

/-- **`continue_completes`** — a continued update ends as the update would have ended whose merge had given
the directory as it has been resolved: it commits exactly when that update does, and the same, under the
message of the state file; else it stops for the same reason, and keeps the state file. -/
theorem continue_completes {reason : Option Str} {dir : Tree} (hwet : args.dryRun = false)
    (hstate : w.state = some (interrupted p args t plan reason)) (hdir : w.rpms p = some dir)
    (hresolved : conflictFile dir = none) :
    Completes p args t (plan.resolved dir) (interrupted p args t plan reason)
      (applyUpdate env p args t (plan.resolved dir) w.started) (continueUpdate env false w.started) := by
  have hplaced : w.started.setRpms p dir = w.started := by
    unfold World.setRpms
    rw [← show w.started.rpms p = some dir from hdir, Function.update_eq_self]
  have hpackage : w.started.packageDir p = dir := by
    unfold World.packageDir
    rw [show w.started.rpms p = some dir from hdir]
    rfl
  have hexists : w.started.rpms p ≠ none := by
    rw [show w.started.rpms p = some dir from hdir]
    exact Option.some_ne_none dir
  have hupdate : applyUpdate env p args t (plan.resolved dir) w.started = _ :=
    applyUpdate_eq hwet rfl (show (plan.resolved dir).placed = .ok dir from rfl)
  have hcontinue : continueUpdate env false w.started = _ :=
    continueUpdate_eq hstate hexists (hpackage.symm ▸ hresolved)
  have hstep : continueGorget env false (interrupted p args t plan reason) w.started =
      runGorgetForUpdatedPackage env p t.metadata.version (plan.resolved dir).version t.metadata w.started :=
    congrFun (runGorgetForUpdatedPackage_congr rfl rfl) _
  -- Both run gorget on the same directory, and end by what it comes to.
  rw [hplaced] at hupdate
  rw [hstep] at hcontinue
  cases hrun : runGorgetForUpdatedPackage env p t.metadata.version (plan.resolved dir).version t.metadata
    w.started with
  | error e v =>
      rw [hrun] at hupdate hcontinue
      rw [hupdate, hcontinue]
      have htouches : TouchesPackage p w.started v := steps_runGorgetForUpdatedPackage.error hrun
      exact .fails .refl (htouches.state.trans hstate)
  | ok r v =>
      have htouches : TouchesPackage p w.started v := steps_runGorgetForUpdatedPackage.ok hrun
      have hkept := htouches.state.trans hstate
      obtain ⟨_ | reason', names⟩ := r
      · rw [hrun] at hupdate hcontinue
        rw [hupdate, hcontinue]
        exact completes_commit hkept
      · rw [hrun] at hupdate hcontinue
        rw [hupdate, hcontinue]
        exact .manual ⟨rfl, rfl, rfl, rfl, rfl, rfl⟩ rfl hkept

end

def gccTarget : Target where
  metadata := gccMetadata .clean
  source := "https://src.fedoraproject.org/rpms/gcc.git"
  oldBranch := "f42"
  oldSha := "old"
  effectiveBranch := "f42"
  branchChanged := false
  latestSha := "new"

/-- A new version that cannot be merged. -/
def unmergedPlan : UpdatePlan where
  latestSha := "new"
  version := "2"
  release := "2"
  hasAutorelease := false
  hasModifications := true
  merge := { failed := true, tree := respunGcc }

/-- The interrupted update, with the upstream directory taken as it is. -/
def resolvedGcc : World :=
  { gccWorld .clean respunGcc with state := some (interrupted "gcc" {} gccTarget unmergedPlan none) }

theorem continue_completes_gcc :
    letI := asciiTables
    (final (continueUpdate (gccEnv oldGcc respunGcc "2") false) resolvedGcc.started).commits.length = 2 ∧
      Completes "gcc" {} gccTarget (unmergedPlan.resolved respunGcc) (interrupted "gcc" {} gccTarget unmergedPlan none)
        (applyUpdate (gccEnv oldGcc respunGcc "2") "gcc" {} gccTarget (unmergedPlan.resolved respunGcc)
          resolvedGcc.started)
        (continueUpdate (gccEnv oldGcc respunGcc "2") false resolvedGcc.started) := by
  let _ := asciiTables
  exact ⟨by decide +kernel, continue_completes rfl rfl rfl (by decide)⟩

end HummingbirdRpms
