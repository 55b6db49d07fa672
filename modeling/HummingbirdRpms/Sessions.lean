/-
# HummingbirdRpms.Sessions — sessions of commands, and what they leave alone.

A session is any sequence of the commands that work on the repository: imports, updates of one package or of
all, syncs, `update --continue`, rebuilds, the edits of records, the new version of a spec, and the commit that
a driver makes of an interrupted update.  Each is a process of its own, and may end in any way.

What such a command can do to the world is a handful of moves on one package (`PackageMoves`), and a relation that
they respect is respected by the commands (`PackageMoves.update` and the theorems behind it).

**`session_within`** — a session about some packages leaves all that there is of the others alone: their files,
what is staged and committed of them, and the lookaside cache.  **`session_singles`** — while git takes the
commits, nothing is left staged, and every commit changes one package.
-/
import HummingbirdRpms.Baseline
import HummingbirdRpms.Batch
import HummingbirdRpms.RebuildBatch

namespace HummingbirdRpms

open Lib Lib.Text Lib.Exec Lib.Trace RebuildBatch

/-! ## Commands -/

/-- A command of a session. -/
inductive SessionCommand where
  | command (cmd : PackageCommand)
  /-- The commit of an interrupted update. -/
  | conflict (package : Str)
  /-- `update_spec_version` -/
  | newVersion (lib : SpecLibrary) (hooksFile : Option File) (skipPipeline : Bool) (package newVersion : Str)
  /-- The update loop of `run_check`. -/
  | updates (skipPipeline : Bool) (attempts : List UpdateAttempt)
  /-- `rebuild` of several packages, and `rebuild_reverse_dependencies`. -/
  | rebuilds (reason : Str) (attempts : List RebuildAttempt)

/-- The packages that `update` goes through. -/
def packagesToUpdate (package : Option Str) (order : List Str) : List Str :=
  match given package with
  | some package => [package]
  | none => order

namespace SessionCommand

/-- The packages that a command of `main` names. -/
def recordPackages : RecordCommand → List Str
  | .import_ url _ _ directory _ => [importDirName url directory]
  | .update package order _ _ _ _ _ => packagesToUpdate package order
  | .sync package _ _ _ _ => [package]
  | .markModified package _ _ _ => [package]
  | .setUpstream package _ => [package]
  | .markPackageModified package _ _ => [package]

/-- The packages that a command names; a continued update names none, it is about that of the state file. -/
def packages : SessionCommand → List Str
  | .command (.record cmd) => recordPackages cmd
  | .command (.continueUpdate _) => []
  | .command (.rebuild package _ _) => [package]
  | .conflict package => [package]
  | .newVersion _ _ _ package _ => [package]
  | .updates _ attempts => attempts.map (·.package)
  | .rebuilds _ attempts => attempts.map (·.package)

/-- What a command meets outside: a batch meets something of its own for each package. -/
def outsides (env : Env) : SessionCommand → List Env
  | .updates _ attempts => attempts.map (·.env)
  | .rebuilds _ attempts => attempts.map (·.env)
  | _ => [env]

variable [UnicodeTables]

/-- The world that a command leaves behind, in a process of its own. -/
def after (c : Env × SessionCommand) (w : World) : World :=
  match c.2 with
  | .command cmd => PackageCommand.after (c.1, cmd) w
  | .conflict package => final (conflictCommit c.1 package) w.started
  | .newVersion lib hooksFile skipPipeline package version =>
      final (updateSpecVersion c.1 lib hooksFile skipPipeline package version) w.started
  | .updates skipPipeline attempts => final (updateLoop skipPipeline attempts) w.started
  | .rebuilds reason attempts => (rebuildLoop reason attempts w.started).final

end SessionCommand

/-! ## PackageMoves -/

/-- A relation that respects whatever a command does to one package. -/
structure PackageMoves (env : Env) (p : Str) (R : World → World → Prop) : Prop where
  setRpms : ∀ w dir, R w (w.setRpms p dir)
  imports : ∀ w m, R w (w.setImports p m)
  metadata : ∀ w m, R w { w with metadata := Function.update w.metadata p m }
  pipeline : ∀ w f, R w (w.setPipeline p f)
  upload : ∀ w cmd file, cmd.package = p → R w (w.record (.upload cmd file))
  gorget : ∀ w f sources, R w (w.record (.gorget p f sources))
  state : ∀ w st, (∀ s, st = some s → s.package = p) → R w { w with state := st }
  /-- The package is staged, and committed with all that is staged. -/
  commit : ∀ w t message, env.commitOk = true →
    R w { w.setIndex p t with commits := ⟨message, (w.setIndex p t).index⟩ :: w.commits }
  /-- The package is staged, and git refuses to commit. -/
  refused : ∀ w t, env.commitOk = false → R w (w.setIndex p t)
  /-- The package is set back to the last commit. -/
  restored : ∀ w, R w (w.restored p)

namespace PackageMoves

section

variable {env : Env} {p : Str} {R : World → World → Prop} [Std.Refl R] [IsTrans World R]

omit [Std.Refl R] [IsTrans World R] in
theorem setMetadata (h : PackageMoves env p R) (w : World) (m : PackageMetadata) : R w (w.setMetadata p m) :=
  h.metadata w (some m)

theorem uploadToLookaside (h : PackageMoves env p R) {filepath hashtype : Str} :
    Steps R (uploadToLookaside env filepath p hashtype) := by
  refine steps_bind steps_raiseIf fun _ => steps_bind steps_get fun w => ?_
  refine steps_bind (steps_lift _) fun bucket => steps_bind ?_ fun _ => ?_
  · exact steps_modify fun w => h.upload w _ _ rfl
  · exact steps_bind (steps_lift _) fun _ => steps_raiseIf

theorem fetches (h : PackageMoves env p R) : Fetches env p R where
  setRpms := h.setRpms
  upload _ _ := h.uploadToLookaside
  gorget := h.gorget

omit [Std.Refl R] [IsTrans World R] in
/-- What is staged of the package is committed, or not. -/
theorem gitCommit (h : PackageMoves env p R) (w : World) (t : Tracked) (message : Str) :
    R w (final (HummingbirdRpms.gitCommit env.commitOk message) (w.setIndex p t)) := by
  unfold HummingbirdRpms.gitCommit
  cases hok : env.commitOk with
  | true => exact h.commit w t message hok
  | false => exact h.refused w t hok

omit [Std.Refl R] [IsTrans World R] in
theorem addAndCommit (h : PackageMoves env p R) {withMetadata withPipeline : Bool} {message : Str} :
    Steps R (do gitAddPackage p withMetadata withPipeline; HummingbirdRpms.gitCommit env.commitOk message) :=
  fun w => h.gitCommit w _ message

theorem ignoreUploaded (h : PackageMoves env p R) {names : List Str} : Steps R (ignoreUploaded p names) := by
  refine steps_ite (steps_pure _) ?_
  refine steps_bind steps_get fun w => steps_bind (steps_lift _) fun dir => ?_
  exact steps_modify fun w => h.setRpms w dir

/-- The package is staged and committed, if it can be staged. -/
theorem stageAndCommit (h : PackageMoves env p R) {names : List Str} {message : Str} :
    Steps R (do stagePackageForCommit p names; HummingbirdRpms.gitCommit env.commitOk message) := by
  intro w
  rw [stagePackageForCommit, bind_assoc]
  refine step_bind (h.ignoreUploaded w) fun _ t _ => ?_
  rw [addPackage, bind_assoc, bind_assoc, final_bind_of_ok (run_get t), bind_assoc, final_raiseIf_bind]
  split
  · exact Std.Refl.refl t
  · rw [final_bind_of_ok run_gitAddPackage]
    split
    · exact h.gitCommit t _ message
    · rw [gitReset, final_bind_of_ok (run_modify _ _), World.setIndex, World.setIndex, Function.update_idem]
      exact h.gitCommit t _ message

theorem commitPackage (h : PackageMoves env p R) {metadata : Option PackageMetadata} {names : List Str}
    {message : Str} : Steps R (commitPackage env p metadata names message) := by
  refine steps_bind ?_ fun _ => h.stageAndCommit
  cases metadata with
  | none => exact steps_pure _
  | some m => exact steps_modify fun w => h.setMetadata w m

omit [Std.Refl R] in
theorem saveRecord (h : PackageMoves env p R) (m : PackageMetadata) : Steps R (saveRecord p m) :=
  steps_modify fun w => IsTrans.trans _ _ _ (h.setMetadata w m) (h.imports _ m)

end

section

variable [UnicodeTables] {env : Env} {p : Str} {R : World → World → Prop} [Std.Refl R] [IsTrans World R]

/-! ## Updates -/

theorem runGorgetForUpdatedPackage (h : PackageMoves env p R) {oldVersion newVersion : Str}
    {metadata : PackageMetadata} :
    Steps R (runGorgetForUpdatedPackage env p oldVersion newVersion metadata) := by
  refine steps_bind steps_get fun w => steps_bind (steps_lift _) fun plan => ?_
  cases plan with
  | notNeeded => exact steps_pure _
  | manual reason => exact steps_pure _
  | run version file refreshed =>
      refine steps_bind (steps_catchRuntimeOs h.fetches.runGorgetPipeline) fun r => ?_
      cases r with
      | error e => exact steps_pure _
      | ok uploaded =>
          refine steps_bind (steps_ite ?_ (steps_pure _)) fun _ => steps_pure _
          exact steps_bind (steps_lift _) fun text => steps_modify fun w => h.pipeline w _

theorem gorgetStep (h : PackageMoves env p R) {skip : Bool} {oldVersion newVersion : Str}
    {metadata : PackageMetadata} : Steps R (gorgetStep env skip p oldVersion newVersion metadata) :=
  steps_ite (steps_pure _) h.runGorgetForUpdatedPackage

theorem applyUpdate (h : PackageMoves env p R) {args : UpdateArgs} {t : Target} {plan : UpdatePlan} :
    Steps R (applyUpdate env p args t plan) := by
  refine steps_bind ?_ fun _ => steps_bind h.gorgetStep fun r => ?_
  · refine steps_bind (steps_modify fun w => h.setRpms w _) fun _ => steps_ite ?_ (steps_pure _)
    exact steps_bind (steps_lift _) fun dir => steps_modify fun w => h.setRpms w dir
  · refine steps_bind (steps_modify fun w => h.imports w _) fun _ => steps_ite (steps_pure _) ?_
    refine steps_ite ?_ h.commitPackage
    refine steps_bind (steps_modify fun w => h.state w _ ?_) fun _ => steps_throw _
    rintro s hs
    rw [← Option.some.inj hs]
    rfl

omit [UnicodeTables] in
theorem applyMark (h : PackageMoves env p R) {args : UpdateArgs} {t : Target} {version release : Str} :
    Steps R (applyMark env p args t version release) := by
  refine steps_bind (steps_modify fun w => h.imports w _) fun _ => steps_ite (steps_pure _) ?_
  exact steps_bind (steps_modify fun w => h.setMetadata w _) fun _ w => h.gitCommit w _ _

/-- **`PackageMoves.update`** — an update does nothing but moves on its package. -/
theorem update (h : PackageMoves env p R) {args : UpdateArgs} : Steps R (update env p args) := by
  refine steps_bind steps_get fun w => steps_bind (steps_lift _) fun decision => ?_
  cases decision with
  | skip => exact steps_pure _
  | mark t version release => exact h.applyMark
  | apply t plan => exact h.applyUpdate

theorem continueFrom {s : UpdateState} (h : PackageMoves env s.package R) {dryRun : Bool} :
    Steps R (continueFrom env dryRun s) := by
  have hclear : ∀ w : World, R w { w with state := none } := fun w => h.state w none fun _ hs => nomatch hs
  refine steps_bind steps_get fun w => steps_ite ?_ ?_
  · exact steps_bind (steps_modify hclear) fun _ w => Std.Refl.refl w
  · split
    · exact steps_throw _
    · refine steps_bind ?_ fun r => ?_
      · unfold continueGorget
        split
        · exact h.gorgetStep
        · exact steps_pure _
      · split
        · exact steps_throw _
        · exact steps_ite (steps_pure _) (steps_bind h.commitPackage fun _ => steps_modify hclear)

/-! ## The other commands -/

theorem rebuildPackage (h : PackageMoves env p R) {reason : Str} {dryRun : Bool} :
    Steps R (rebuildPackage env p reason dryRun) := by
  refine steps_bind steps_get fun w => ?_
  split
  · exact steps_throw _
  · refine steps_bind steps_get fun w => steps_bind steps_raiseIf fun _ => steps_bind steps_get fun w =>
      steps_bind (steps_lift _) fun resolved => ?_
    refine steps_bind (steps_modify fun w => h.setRpms w _) fun _ =>
      steps_bind (steps_lift _) fun rebuilt => ?_
    exact steps_bind (steps_modify fun w => h.setRpms w _) fun _ => steps_ite (steps_pure _) h.addAndCommit

omit [UnicodeTables] in
theorem conflictCommit (h : PackageMoves env p R) : Steps R (conflictCommit env p) := by
  have hclear : ∀ w : World, R w { w with state := none } := fun w => h.state w none fun _ hs => nomatch hs
  refine steps_bind steps_get fun w => ?_
  split
  · exact steps_pure _
  · rename_i state hstate
    refine steps_bind (steps_modify fun w => h.metadata w _) fun _ => ?_
    have hcommit : Steps R (do
        gitAddPackage p true false
        HummingbirdRpms.gitCommit env.commitOk state.commitMsg) := h.addAndCommit
    rw [← bind_assoc]
    exact steps_bind hcommit fun _ => steps_modify hclear

theorem importInto (h : PackageMoves env p R) {url packageName branch : Str} {ref : Option Str} {dryRun : Bool} :
    Steps R (importInto env p url packageName branch ref dryRun) := by
  refine steps_bind ?_ fun sha => steps_bind steps_get fun w => steps_bind (steps_lift _) fun r =>
    steps_bind ?_ fun release => steps_bind (steps_lift _) fun anityaId =>
      steps_bind (h.saveRecord _) fun _ => ?_
  · refine steps_bind (steps_lift _) fun r => steps_bind (steps_lift _) fun dir =>
      steps_bind (steps_modify fun w => h.setRpms w _) fun _ => ?_
    split
    · exact steps_pure _
    · refine steps_bind (steps_lift _) fun sha => steps_bind (steps_lift _) fun dir => ?_
      exact steps_bind (steps_modify fun w => h.setRpms w _) fun _ => steps_pure _
  · refine steps_bind steps_get fun w => steps_bind (steps_lift _) fun auto => ?_
    refine steps_ite (steps_bind (steps_lift _) fun resolved => ?_) (steps_pure _)
    split
    · exact steps_pure _
    · refine steps_bind (steps_lift _) fun dir => ?_
      exact steps_bind (steps_modify fun w => h.setRpms w _) fun _ => steps_pure _
  · refine steps_bind steps_raiseIf fun _ => steps_bind steps_raiseIf fun _ => ?_
    exact steps_ite (steps_pure _) h.addAndCommit

omit [UnicodeTables] in
theorem markModified (h : PackageMoves env p R) {modified : Bool} {reason answer : Option Str} :
    Steps R (markModified p modified reason answer) := by
  refine steps_bind steps_get fun w => ?_
  split
  · exact steps_throw _
  · refine steps_ite ?_ (h.saveRecord _)
    refine steps_bind (steps_modify fun w => h.imports w _) fun _ => ?_
    exact steps_bind (steps_lift _) fun reason => h.saveRecord _

omit [UnicodeTables] in
theorem setUpstream (h : PackageMoves env p R) {trackVersion : Setting Str} {projectId : Setting ProjectId} :
    Steps R (setUpstream p trackVersion projectId) := by
  refine steps_bind steps_get fun w => ?_
  split
  · exact steps_throw _
  · exact h.saveRecord _

omit [UnicodeTables] in
theorem markPackageModified (h : PackageMoves env p R) {reason : Str} {version : Option Str} :
    Steps R (markPackageModified p reason version) := by
  refine steps_bind steps_get fun w => ?_
  split
  · exact steps_pure _
  · exact steps_modify fun w => h.setMetadata w _

theorem updateSpecVersion (h : PackageMoves env p R) {lib : SpecLibrary} {hooksFile : Option File}
    {skipPipeline : Bool} {newVersion : Str} :
    Steps R (updateSpecVersion env lib hooksFile skipPipeline p newVersion) := by
  refine steps_bind steps_get fun w => ?_
  split
  · refine steps_bind (steps_lift _) fun hooks => steps_bind ?_ fun old => steps_bind ?_ fun downloaded =>
      steps_bind ?_ fun _ => steps_bind ?_ fun _ => steps_pure _
    · refine steps_bind steps_get fun w => steps_ite ?_ ?_
      · refine steps_bind (steps_lift _) fun old => steps_bind (steps_lift _) fun command => ?_
        exact steps_bind h.fetches.runHook fun _ => steps_pure _
      · refine steps_bind (steps_lift _) fun r => ?_
        exact steps_bind (steps_modify fun w => h.setRpms w _) fun _ => steps_pure _
    · refine steps_bind steps_get fun w => ?_
      split
      · exact h.fetches.runGorgetPipeline
      · refine steps_bind (steps_lift _) fun command => ?_
        split
        · exact h.fetches.downloadSourcesHook
        · exact h.fetches.downloadNewSources
    · refine steps_bind (steps_lift _) fun command => ?_
      split
      · exact steps_bind h.fetches.runHook fun _ => steps_pure _
      · exact steps_pure _
    · exact steps_bind steps_get fun w => steps_bind (steps_lift _) fun resolved => h.markPackageModified
  · exact steps_throw _

/-! ## Batches -/

omit [UnicodeTables] in
theorem discard {a : UpdateAttempt} (h : PackageMoves a.env a.package R) : Steps R a.discard := by
  refine steps_bind ?_ fun _ => ?_
  · exact steps_bind steps_get fun w => steps_bind steps_raiseIf fun _ => steps_modify h.restored
  · exact steps_bind steps_raiseIf fun _ => steps_modify fun w => h.setRpms w _

omit [UnicodeTables] [IsTrans World R] in
theorem addUpdateAndCommit (h : PackageMoves env p R) {message : Str} :
    Steps R (do gitAddUpdate env p; HummingbirdRpms.gitCommit env.commitOk message) := by
  intro w
  rw [gitAddUpdate, bind_assoc, final_bind_of_ok (run_get w), bind_assoc, final_raiseIf_bind]
  split
  · exact Std.Refl.refl w
  · exact h.gitCommit w _ message

theorem run {a : UpdateAttempt} (h : PackageMoves a.env a.package R) {skipPipeline : Bool} :
    Steps R (a.run skipPipeline) := by
  unfold UpdateAttempt.run
  split
  · exact steps_pure _
  · refine steps_tryCatch (steps_bind ?_ fun _ => steps_pure _) fun e => ?_
    · exact steps_bind h.updateSpecVersion fun _ => steps_bind h.ignoreUploaded fun _ => h.addUpdateAndCommit
    · exact steps_ite (steps_bind h.discard fun _ => steps_pure _) (steps_throw _)

end

end PackageMoves

section

variable [UnicodeTables] {env : Env} {R : World → World → Prop} [Std.Refl R] [IsTrans World R]

theorem steps_updateEach {args : UpdateArgs} {packages : List Str} (h : ∀ p ∈ packages, PackageMoves env p R) :
    Steps R (updateEach env args packages) := by
  induction packages with
  | nil => exact steps_pure _
  | cons p packages ih =>
      obtain ⟨hp, hpackages⟩ := List.forall_mem_cons.mp h
      exact steps_bind hp.update fun _ => ih hpackages

theorem steps_updateLoop {skipPipeline : Bool} {attempts : List UpdateAttempt}
    (h : ∀ a ∈ attempts, PackageMoves a.env a.package R) : Steps R (updateLoop skipPipeline attempts) := by
  induction attempts with
  | nil => exact steps_pure _
  | cons a rest ih =>
      obtain ⟨ha, hrest⟩ := List.forall_mem_cons.mp h
      exact steps_bind ha.run fun _ => steps_bind (ih hrest) fun _ => steps_pure _

theorem steps_rebuildLoop {reason : Str} {attempts : List RebuildAttempt}
    (h : ∀ a ∈ attempts, PackageMoves a.env a.package R) (w : World) :
    R w (rebuildLoop reason attempts w).final := by
  induction attempts generalizing w with
  | nil => exact Std.Refl.refl w
  | cons a rest ih =>
      obtain ⟨ha, hrest⟩ := List.forall_mem_cons.mp h
      have hrun : R w (a.run reason w).2 := by
        have hfinal : R w (final (HummingbirdRpms.rebuildPackage a.env a.package reason false) w) :=
          ha.rebuildPackage w
        unfold RebuildAttempt.run
        cases hend : HummingbirdRpms.rebuildPackage a.env a.package reason false w with
        | ok u w' => rwa [final_of_ok hend] at hfinal
        | error e w' => rwa [final_of_error hend] at hfinal
      rw [run_snd] at hrun
      cases hend : (a.course w).ending with
      | escaped e => rwa [loop_escaped hend]
      | rebuilt | exited =>
          rw [loop_next (by simp [hend])]
          exact IsTrans.trans _ _ _ hrun (ih hrest _)

theorem steps_recordMain {cmd : RecordCommand}
    (h : ∀ p ∈ SessionCommand.recordPackages cmd, PackageMoves env p R)
    (hclear : ∀ w : World, R w { w with state := none }) : Steps R (cmd.main env) := by
  cases cmd with
  | import_ url branch ref directory dryRun =>
      exact steps_bind steps_get fun w => steps_bind steps_raiseIf fun _ =>
        (h _ (List.mem_singleton_self _)).importInto
  | update package order skipBuildCheck dryRun allowPrerelease ref branch =>
      refine steps_bind (steps_modify hclear) fun _ => steps_bind steps_raiseIf fun _ => ?_
      exact steps_updateEach h
  | sync package dryRun mark ref branch => exact (h _ (List.mem_singleton_self _)).update
  | markModified package modified reason answer => exact (h _ (List.mem_singleton_self _)).markModified
  | setUpstream package args =>
      exact steps_bind steps_raiseIf fun _ => (h _ (List.mem_singleton_self _)).setUpstream
  | markPackageModified package newVersion version =>
      exact (h _ (List.mem_singleton_self _)).markPackageModified

/-- A command keeps to a relation that respects the moves on the packages it names, and on the one of the
state file there is. -/
theorem after_moves {c : Env × SessionCommand} {w : World}
    (h : ∀ env ∈ c.2.outsides c.1, ∀ p ∈ c.2.packages, PackageMoves env p R) (hstarted : R w w.started)
    (hclear : ∀ w : World, R w { w with state := none })
    (hstate : ∀ dryRun s, c.2 = .command (.continueUpdate dryRun) → w.state = some s →
      PackageMoves c.1 s.package R) : R w (SessionCommand.after c w) := by
  obtain ⟨env, cmd⟩ := c
  refine IsTrans.trans _ _ _ hstarted ?_
  cases cmd with
  | command cmd =>
      have hown : env ∈ (SessionCommand.command cmd).outsides env := List.mem_singleton_self env
      cases cmd with
      | record cmd => exact steps_recordMain (h env hown) hclear w.started
      | continueUpdate dryRun =>
          show R w.started (final (continueUpdate env dryRun) w.started)
          rw [continueUpdate, final_bind_of_ok (run_get _)]
          cases hs : w.started.state with
          | none => exact steps_throw _ w.started
          | some s => exact (hstate dryRun s rfl hs).continueFrom w.started
      | rebuild package reason dryRun =>
          exact (h env hown _ (List.mem_singleton_self _)).rebuildPackage w.started
  | conflict package =>
      exact (h env (List.mem_singleton_self _) _ (List.mem_singleton_self _)).conflictCommit w.started
  | newVersion lib hooksFile skipPipeline package version =>
      exact (h env (List.mem_singleton_self _) _ (List.mem_singleton_self _)).updateSpecVersion w.started
  | updates skipPipeline attempts =>
      refine steps_updateLoop (fun a ha => ?_) w.started
      exact h _ (List.mem_map_of_mem ha) _ (List.mem_map_of_mem ha)
  | rebuilds reason attempts =>
      refine steps_rebuildLoop (fun a ha => ?_) w.started
      exact h _ (List.mem_map_of_mem ha) _ (List.mem_map_of_mem ha)

end

/-! ## What a session leaves alone -/

/-- The package that an event is about. -/
def Event.package : Event → Str
  | .upload cmd _ => cmd.package
  | .gorget package _ _ => package

/-- From `w` to `w'` nothing has changed but what there is of some packages: of the others the files are
the same, the index is, and each new commit has of them what was staged; the overrides are the same, and
the log has grown by events on these packages. -/
structure StaysWithin (S : Str → Prop) (w w' : World) : Prop where
  rpms : ∀ q, ¬ S q → w'.rpms q = w.rpms q
  metadata : ∀ q, ¬ S q → w'.metadata q = w.metadata q
  pipelines : ∀ q, ¬ S q → w'.pipelines q = w.pipelines q
  index : ∀ q, ¬ S q → w'.index q = w.index q
  overrides : w'.overrides = w.overrides
  commits : ∃ new, w'.commits = new ++ w.commits ∧ ∀ c ∈ new, ∀ q, ¬ S q → c.content q = w.index q
  log : ∃ new, w'.log = new ++ w.log ∧ ∀ e ∈ new, S e.package
  state : w'.state = w.state ∨ ∀ s, w'.state = some s → S s.package

namespace StaysWithin

variable {S : Str → Prop} {w w' : World} {p : Str}

/-- Files and staged files of the packages may have changed, and the state file. -/
theorem of_files (hrpms : ∀ q, ¬ S q → w'.rpms q = w.rpms q)
    (hmetadata : ∀ q, ¬ S q → w'.metadata q = w.metadata q)
    (hpipelines : ∀ q, ¬ S q → w'.pipelines q = w.pipelines q)
    (hindex : ∀ q, ¬ S q → w'.index q = w.index q) (hoverrides : w'.overrides = w.overrides)
    (hcommits : w'.commits = w.commits) (hlog : w'.log = w.log)
    (hstate : w'.state = w.state ∨ ∀ s, w'.state = some s → S s.package) : StaysWithin S w w' where
  rpms := hrpms
  metadata := hmetadata
  pipelines := hpipelines
  index := hindex
  overrides := hoverrides
  commits := ⟨[], hcommits, fun _ hc => nomatch hc⟩
  log := ⟨[], hlog, fun _ he => nomatch he⟩
  state := hstate

theorem of_log {e : Event} (he : S e.package) : StaysWithin S w (w.record e) where
  rpms _ _ := rfl
  metadata _ _ := rfl
  pipelines _ _ := rfl
  index _ _ := rfl
  overrides := rfl
  commits := ⟨[], rfl, fun _ hc => nomatch hc⟩
  log := ⟨[e], rfl, fun e' he' => by rwa [List.mem_singleton.mp he']⟩
  state := Or.inl rfl

theorem of_state {st : Option UpdateState} (h : ∀ s, st = some s → S s.package) :
    StaysWithin S w { w with state := st } :=
  of_files (fun _ _ => rfl) (fun _ _ => rfl) (fun _ _ => rfl) (fun _ _ => rfl) rfl rfl rfl (Or.inr h)

instance : Std.Refl (StaysWithin S) :=
  ⟨fun _ => of_files (fun _ _ => rfl) (fun _ _ => rfl) (fun _ _ => rfl) (fun _ _ => rfl) rfl rfl rfl (Or.inl rfl)⟩

instance : IsTrans World (StaysWithin S) where
  trans := by
    intro w₁ w₂ w₃ h h'
    refine ⟨fun q hq => ?_, fun q hq => ?_, fun q hq => ?_, fun q hq => ?_, ?_, ?_, ?_, ?_⟩
    · rw [h'.rpms q hq, h.rpms q hq]
    · rw [h'.metadata q hq, h.metadata q hq]
    · rw [h'.pipelines q hq, h.pipelines q hq]
    · rw [h'.index q hq, h.index q hq]
    · rw [h'.overrides, h.overrides]
    · obtain ⟨new, hnew, hcontent⟩ := h.commits
      obtain ⟨new', hnew', hcontent'⟩ := h'.commits
      refine ⟨new' ++ new, by rw [hnew', hnew, List.append_assoc], fun c hc q hq => ?_⟩
      rcases List.mem_append.mp hc with hc | hc
      · rw [hcontent' c hc q hq, h.index q hq]
      · exact hcontent c hc q hq
    · obtain ⟨new, hnew, habout⟩ := h.log
      obtain ⟨new', hnew', habout'⟩ := h'.log
      refine ⟨new' ++ new, by rw [hnew', hnew, List.append_assoc], fun e he => ?_⟩
      rcases List.mem_append.mp he with he | he
      · exact habout' e he
      · exact habout e he
    · rcases h'.state with hsame | hs
      · rw [hsame]
        exact h.state
      · exact Or.inr hs

theorem update_other {α : Type} {f : Str → α} {x : α} (hp : S p) {q : Str} (hq : ¬ S q) :
    Function.update f p x q = f q := by
  have hne : q ≠ p := by
    rintro rfl
    exact hq hp
  exact Function.update_of_ne hne x f

/-- The package is staged. -/
theorem setIndex (hp : S p) {t : Tracked} : StaysWithin S w (w.setIndex p t) :=
  of_files (fun _ _ => rfl) (fun _ _ => rfl) (fun _ _ => rfl) (fun _ hq => update_other hp hq) rfl rfl rfl
    (Or.inl rfl)

/-- All that is staged is committed. -/
theorem committed {message : Str} : StaysWithin S w { w with commits := ⟨message, w.index⟩ :: w.commits } where
  rpms _ _ := rfl
  metadata _ _ := rfl
  pipelines _ _ := rfl
  index _ _ := rfl
  overrides := rfl
  commits := ⟨[⟨message, w.index⟩], rfl, fun c hc q _ => by rw [List.mem_singleton.mp hc]⟩
  log := ⟨[], rfl, fun _ he => nomatch he⟩
  state := Or.inl rfl

/-- The moves on one of the packages keep to them. -/
theorem moves {env : Env} (hp : S p) : PackageMoves env p (StaysWithin S) where
  setRpms w dir :=
    of_files (fun _ hq => update_other hp hq) (fun _ _ => rfl) (fun _ _ => rfl) (fun _ _ => rfl) rfl rfl rfl
      (Or.inl rfl)
  imports w m :=
    of_files (fun _ _ => rfl) (fun _ _ => rfl) (fun _ _ => rfl) (fun _ _ => rfl) rfl rfl rfl (Or.inl rfl)
  metadata w m :=
    of_files (fun _ _ => rfl) (fun _ hq => update_other hp hq) (fun _ _ => rfl) (fun _ _ => rfl) rfl rfl rfl
      (Or.inl rfl)
  pipeline w f :=
    of_files (fun _ _ => rfl) (fun _ _ => rfl) (fun _ hq => update_other hp hq) (fun _ _ => rfl) rfl rfl rfl
      (Or.inl rfl)
  upload w cmd file hcmd := of_log (e := .upload cmd file) (by rwa [← hcmd] at hp)
  gorget w f sources := of_log (e := .gorget p f sources) hp
  state w st hst := of_state fun s hs => by rwa [hst s hs]
  commit w t message _ := IsTrans.trans _ _ _ (setIndex hp) committed
  refused w t _ := setIndex hp
  restored w :=
    of_files (fun _ hq => update_other hp hq) (fun _ hq => update_other hp hq) (fun _ _ => rfl)
      (fun _ hq => update_other hp hq) rfl rfl rfl (Or.inl rfl)

end StaysWithin

section

variable [UnicodeTables] {S : Str → Prop} {w : World} {session : List (Env × SessionCommand)}

/-- **`session_within`** — a session changes nothing but what there is of the packages it names and of the
one of the state file. -/
theorem session_within (hnamed : ∀ c ∈ session, ∀ p ∈ c.2.packages, S p)
    (hstate : ∀ s, w.state = some s → S s.package) : StaysWithin S w (runAll SessionCommand.after session w) := by
  induction session generalizing w with
  | nil => exact Std.Refl.refl w
  | cons c session ih =>
      obtain ⟨hc, hsession⟩ := List.forall_mem_cons.mp hnamed
      have hafter : StaysWithin S w (SessionCommand.after c w) := by
        refine after_moves (fun _ _ p hp => StaysWithin.moves (hc p hp)) ?_ (fun _ => ?_) fun _ s _ hs => ?_
        · exact StaysWithin.of_files (fun _ _ => rfl) (fun _ _ => rfl) (fun _ _ => rfl) (fun _ _ => rfl)
            rfl rfl rfl (Or.inl rfl)
        · exact StaysWithin.of_state fun _ hs => nomatch hs
        · exact StaysWithin.moves (hstate s hs)
      rw [runAll_cons]
      refine IsTrans.trans _ _ _ hafter (ih hsession fun s hs => ?_)
      rcases hafter.state with hsame | habout
      · exact hstate s (hsame ▸ hs)
      · exact habout s hs

end

/-- An update that stumbles over its hooks, and a continued one, among committed packages. -/
def exampleSession : List (Env × SessionCommand) :=
  [({ Env.offline with commitOk := true },
      .updates false [exampleUpdate "curl" none, exampleUpdate "bash" (some (.text "update_spec: [\n"))]),
    ({ Env.offline with commitOk := true }, .command (.continueUpdate false))]

theorem session_within_named :
    letI := asciiTables
    StaysWithin (fun q => q = "curl".toList ∨ q = "bash".toList) exampleCommitted
      (runAll SessionCommand.after exampleSession exampleCommitted) := by
  let _ := asciiTables
  refine session_within (fun c hc p hp => ?_) fun s hs => nomatch hs
  rcases List.mem_pair.mp hc with rfl | rfl
  · exact List.mem_pair.mp hp
  · exact nomatch hp

/-! ## One package a commit -/

/-- What the newest of some commits on top of another tracks. -/
def tip (base : Str → Tracked) : List Commit → Str → Tracked
  | [] => base
  | c :: _ => c.content

/-- Each of some commits on top of another changes one package at most. -/
def SinglePackages (base : Str → Tracked) : List Commit → Prop
  | [] => True
  | c :: cs => SinglePackages base cs ∧ ∃ p, ∀ q, q ≠ p → c.content q = tip base cs q

theorem tip_append {base : Str → Tracked} {new : List Commit} :
    ∀ new', tip base (new' ++ new) = tip (tip base new) new'
  | [] => rfl
  | _ :: _ => rfl

theorem singlePackages_append {base : Str → Tracked} {new new' : List Commit} (h : SinglePackages base new)
    (h' : SinglePackages (tip base new) new') : SinglePackages base (new' ++ new) := by
  induction new' with
  | nil => exact h
  | cons c new' ih =>
      obtain ⟨hrest, p, hp⟩ := h'
      refine ⟨ih hrest, p, fun q hq => ?_⟩
      show c.content q = tip base (new' ++ new) q
      rw [tip_append]
      exact hp q hq

theorem head_eq_tip {w w' : World} {new : List Commit} (h : w'.commits = new ++ w.commits) :
    w'.head = tip w.head new := by
  funext q
  unfold World.head
  rw [h]
  cases new <;> rfl

/-- From a world in which nothing is staged to another one, by commits that change one package each. -/
def CommitsSingly (w w' : World) : Prop :=
  w.index = w.head → w'.index = w'.head ∧
    ∃ new, w'.commits = new ++ w.commits ∧ SinglePackages w.head new

namespace CommitsSingly

variable {w w' : World} {p : Str}

theorem of_same (hindex : w'.index = w.index) (hcommits : w'.commits = w.commits) : CommitsSingly w w' := by
  intro h
  have hhead : w'.head = w.head := by
    funext q
    unfold World.head
    rw [hcommits]
  rw [hhead, hindex]
  exact ⟨h, [], hcommits, trivial⟩

instance : Std.Refl CommitsSingly := ⟨fun _ => of_same rfl rfl⟩

instance : IsTrans World CommitsSingly where
  trans := by
    intro w₁ w₂ w₃ h h' hclean
    obtain ⟨hclean₂, new, hnew, hsingle⟩ := h hclean
    obtain ⟨hclean₃, new', hnew', hsingle'⟩ := h' hclean₂
    rw [head_eq_tip hnew] at hsingle'
    refine ⟨hclean₃, new' ++ new, ?_, singlePackages_append hsingle hsingle'⟩
    rw [hnew', hnew, List.append_assoc]

/-- What there is of a package is staged and committed. -/
theorem commit (t : Tracked) (message : Str) : CommitsSingly w
    { w.setIndex p t with commits := ⟨message, (w.setIndex p t).index⟩ :: w.commits } := by
  intro h
  refine ⟨rfl, [⟨message, (w.setIndex p t).index⟩], rfl, trivial, p, fun q hq => ?_⟩
  show Function.update w.index p t q = w.head q
  rw [Function.update_of_ne hq, h]

/-- A package without staged changes has nothing to be unstaged. -/
theorem restored : CommitsSingly w (w.restored p) := by
  intro h
  have hindex : (w.restored p).index = w.index := by
    show Function.update w.index p { w.index p with rpms := (w.head p).rpms, metadata := (w.head p).metadata } =
      w.index
    rw [h, Function.update_eq_self]
  exact of_same hindex rfl h

theorem moves {env : Env} (hok : env.commitOk = true) : PackageMoves env p CommitsSingly where
  setRpms _ _ := of_same rfl rfl
  imports _ _ := of_same rfl rfl
  metadata _ _ := of_same rfl rfl
  pipeline _ _ := of_same rfl rfl
  upload _ _ _ _ := of_same rfl rfl
  gorget _ _ _ := of_same rfl rfl
  state _ _ _ := of_same rfl rfl
  commit _ t message _ := commit t message
  refused _ _ hrefused := absurd (hok.symm.trans hrefused) (by simp)
  restored _ := restored

end CommitsSingly

section

variable [UnicodeTables] {w : World} {session : List (Env × SessionCommand)}

/-- **`session_singles`** — where nothing is staged and git takes every commit, a session leaves nothing
staged, and every commit it has made changes one package. -/
theorem session_singles (hclean : w.index = w.head)
    (hcommit : ∀ c ∈ session, ∀ env ∈ c.2.outsides c.1, env.commitOk = true) :
    (runAll SessionCommand.after session w).index = (runAll SessionCommand.after session w).head ∧
      ∃ new, (runAll SessionCommand.after session w).commits = new ++ w.commits ∧
        SinglePackages w.head new := by
  have hsession : CommitsSingly w (runAll SessionCommand.after session w) := by
    clear hclean
    induction session generalizing w with
    | nil => exact Std.Refl.refl w
    | cons c session ih =>
        obtain ⟨hc, hrest⟩ := List.forall_mem_cons.mp hcommit
        have hmoves : ∀ env ∈ c.2.outsides c.1, ∀ p, PackageMoves env p CommitsSingly :=
          fun env henv _ => CommitsSingly.moves (hc env henv)
        have hafter : CommitsSingly w (SessionCommand.after c w) := by
          refine after_moves (fun env henv p _ => hmoves env henv p) (CommitsSingly.of_same rfl rfl) (fun _ => ?_)
            fun _ s hcmd _ => hmoves c.1 (by rw [hcmd]; exact List.mem_singleton_self _) s.package
          exact CommitsSingly.of_same rfl rfl
        rw [runAll_cons]
        exact IsTrans.trans _ _ _ hafter (ih hrest)
  exact hsession hclean

end

theorem session_singles_committed :
    letI := asciiTables
    (runAll SessionCommand.after exampleSession exampleCommitted).index =
        (runAll SessionCommand.after exampleSession exampleCommitted).head ∧
      ∃ new, (runAll SessionCommand.after exampleSession exampleCommitted).commits =
          new ++ exampleCommitted.commits ∧ SinglePackages exampleCommitted.head new := by
  let _ := asciiTables
  refine session_singles rfl fun c hc env henv => ?_
  rcases List.mem_pair.mp hc with rfl | rfl
  · rcases List.mem_pair.mp henv with rfl | rfl <;> rfl
  · rw [List.mem_singleton.mp henv]

end HummingbirdRpms
