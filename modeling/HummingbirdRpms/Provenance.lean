/-
# HummingbirdRpms.Provenance — where the `sources` file of a commit comes from.

Two commands commit an update: `update`, and `continue_update` after a manual resolution.  Either they
reach the gorget step (`GorgetCall`) and commit what it leaves, or they commit without it: a package
marked as synced, and a state file that does not say which version the update started from.
**`createdBy_of_creates`** is that case distinction for every run that creates a commit.

For a package with a source pipeline, `sources` is meant to be what gorget verified.
**`sourcesProven_iff`** says when a commit keeps to that: unless gorget ran, the file committed has to
be the one the commit before it has.
-/
import HummingbirdRpms.Update

namespace HummingbirdRpms

open Lib Lib.Text Lib.Exec

/-- The commands that commit an update. -/
inductive Command where
  | update (package : Str) (args : UpdateArgs)
  | continueUpdate (dryRun : Bool)

namespace Command

/-- The package a command works on. -/
def package (w : World) : Command → Option Str
  | .update package _ => some package
  | .continueUpdate _ => w.state.map (·.package)

def run [UnicodeTables] (env : Env) : Command → Tool Unit
  | .update package args => HummingbirdRpms.update env package args
  | .continueUpdate dryRun => HummingbirdRpms.continueUpdate env dryRun

end Command

/-- A run of `x` from `w` creates the commit `c`. -/
def Creates (x : Tool Unit) (w : World) (c : Commit) : Prop :=
  (final x w).commits = c :: w.commits

/-- What a commit holds of a package: a directory, but for the named files, which stay as they were,
and for what is added to `.gitignore`. -/
structure HoldsDir (package : Str) (names : List Str) (before dir : Tree) (c : Commit) : Prop where
  rpms : ∀ q ≠ gitignoreName, (c.content package).rpms.read q =
    if q ∈ names then before.read q else (gitFiles dir).read q
  gitignore : (c.content package).rpms.isFile gitignoreName = stagedGitignore names before dir

section

variable {c : Commit} {package commitMsg : Str} {names : List Str} {w w' : World}

theorem Committed.holdsDir (h : Committed package commitMsg names w w' c) :
    HoldsDir package names (w.head package).rpms (w.packageDir package) c :=
  ⟨h.content.rpms, h.content.gitignore⟩

theorem Committed.final_commits (h : Committed package commitMsg names w w' c) :
    w'.commits = c :: w.commits := by
  obtain ⟨dir, rfl⟩ := h.frame
  rfl

theorem Committed.final_log (h : Committed package commitMsg names w w' c) : w'.log = w.log := by
  obtain ⟨dir, rfl⟩ := h.frame
  rfl

theorem Committed.final_pipelines (h : Committed package commitMsg names w w' c) :
    w'.pipelines = w.pipelines := by
  obtain ⟨dir, rfl⟩ := h.frame
  rfl

theorem TouchesPackage.head (h : TouchesPackage package w w') (p : Str) : w'.head p = w.head p := by
  obtain ⟨_, _, _, rfl⟩ := h
  rfl

theorem World.saved_same (metadata : Option PackageMetadata) :
    (w.saved package metadata).head = w.head ∧ (w.saved package metadata).packageDir = w.packageDir ∧
      (w.saved package metadata).log = w.log ∧
      (w.saved package metadata).pipelines = w.pipelines := by
  cases metadata <;> exact ⟨rfl, rfl, rfl, rfl⟩

end

section

variable [UnicodeTables]

/-- A command calls the gorget step for a package, in the world `w₁`. -/
inductive GorgetCall (env : Env) (w : World) : Command → (package oldVersion newVersion : Str) →
    PackageMetadata → World → Prop
  | update {package : Str} {args : UpdateArgs} {t : Target} {plan : UpdatePlan} {dir : Tree}
      (decision : updateDecision env w package args = .ok (.apply t plan))
      (wet : args.dryRun = false) (clean : plan.merge.failed = false)
      (placed : plan.placed = .ok dir) :
      GorgetCall env w (.update package args) package t.metadata.version plan.version t.metadata
        (w.setRpms package dir)
  | continueUpdate {s : UpdateState} {metadata : PackageMetadata} {oldVersion : Str}
      (state : w.state = some s) (exists_dir : w.rpms s.package ≠ none)
      (resolved : conflictFile (w.packageDir s.package) = none)
      (saved : s.metadata = some metadata) (old : s.oldVersion = some oldVersion) :
      GorgetCall env w (.continueUpdate false) s.package oldVersion metadata.version metadata w

/-- Whether an update calls the gorget step, and the target, the plan and the directory it does so with
pass a test. -/
def reachesGorget (env : Env) (w : World) (package : Str) (args : UpdateArgs)
    (test : Target → UpdatePlan → Tree → Bool) : Bool :=
  match updateDecision env w package args with
  | .ok (.apply t plan) =>
      !args.dryRun && !plan.merge.failed &&
        match plan.placed with
        | .ok dir => test t plan dir
        | .error _ => false
  | _ => false

theorem gorgetCall_of_reaches {env : Env} {w : World} {package : Str} {args : UpdateArgs}
    {test : Target → UpdatePlan → Tree → Bool} (h : reachesGorget env w package args test = true) :
    ∃ t plan dir, test t plan dir = true ∧ GorgetCall env w (.update package args) package
      t.metadata.version plan.version t.metadata (w.setRpms package dir) := by
  unfold reachesGorget at h
  split at h
  · rename_i t plan decision
    simp only [Bool.and_eq_true, Bool.not_eq_true'] at h
    obtain ⟨⟨wet, clean⟩, h⟩ := h
    split at h
    · rename_i dir placed
      exact ⟨t, plan, dir, h, .update decision wet clean placed⟩
    · exact absurd h Bool.false_ne_true
  · exact absurd h Bool.false_ne_true

/-- A state file that does not let `continue_update` take the gorget step. -/
def UpdateState.Incomplete (s : UpdateState) : Prop := s.metadata = none ∨ s.oldVersion = none

/-- How a command comes to create a commit. -/
inductive CreatedBy (env : Env) (w : World) (c : Commit) : Command → Prop
  /-- After a gorget step that found no reason to stop. -/
  | gorget {cmd : Command} {package oldVersion newVersion : Str} {metadata : PackageMetadata}
      {w₁ w₂ : World} {names : List Str}
      (call : GorgetCall env w cmd package oldVersion newVersion metadata w₁)
      (step : runGorgetForUpdatedPackage env package oldVersion newVersion metadata w₁ =
        .ok (none, names) w₂)
      (content : HoldsDir package names (w.head package).rpms (w₂.packageDir package) c)
      (log : (final (cmd.run env) w).log = w₂.log)
      (pipelines : (final (cmd.run env) w).pipelines = w₂.pipelines) :
      CreatedBy env w c cmd
  /-- To mark a package as synced. -/
  | mark {package : Str} {args : UpdateArgs} {t : Target} {version release : Str}
      (decision : updateDecision env w package args = .ok (.mark t version release))
      (content : (c.content package).rpms = (w.index package).rpms)
      (log : (final (update env package args) w).log = w.log) :
      CreatedBy env w c (.update package args)
  /-- From a state file that leaves the gorget step out. -/
  | incomplete {s : UpdateState} (state : w.state = some s) (incomplete : s.Incomplete)
      (content : HoldsDir s.package [] (w.head s.package).rpms (w.packageDir s.package) c)
      (log : (final (continueUpdate env false) w).log = w.log) :
      CreatedBy env w c (.continueUpdate false)

variable {env : Env} {w : World} {c : Commit} {cmd : Command}

/-- A run of the command leaves the commits as they are, or creates one. -/
def AtMostOneCommit (env : Env) (w : World) (cmd : Command) : Prop :=
  (final (cmd.run env) w).commits = w.commits ∨
    ∃ c, Creates (cmd.run env) w c ∧ CreatedBy env w c cmd

theorem update_commits {package : Str} {args : UpdateArgs} :
    AtMostOneCommit env w (.update package args) := by
  have hsame : ∀ {w' : World}, final (update env package args) w = w' → w'.commits = w.commits →
      AtMostOneCommit env w (.update package args) := fun hf hc => Or.inl (hf ▸ hc)
  cases hdec : updateDecision env w package args with
  | error e =>
      exact hsame (final_of_error (update_of_error hdec)) rfl
  | ok d =>
      cases d with
      | skip =>
          exact hsame (final_of_ok (update_of_skip hdec)) rfl
      | mark t version release =>
          have hends := @applyMark_cases env package args t w version release
          generalize hr : applyMark env package args t version release w = r at hends
          rw [← update_of_mark hdec] at hr
          cases hends with
          | dry =>
              exact hsame (final_of_ok hr) rfl
          | notCommitted =>
              exact hsame (final_of_error hr) rfl
          | committed wet commits =>
              rename_i w' c
              have hfinal := (final_of_ok hr).trans commits.final
              have hlog : (final (update env package args) w).log = w.log := by
                rw [hfinal]
                rfl
              refine Or.inr ⟨c, congrArg World.commits hfinal, .mark hdec ?_ hlog⟩
              rw [commits.content, Function.update_self]
      | apply t plan =>
          have hends := @applyUpdate_cases _ env package args t plan w
          generalize hr : applyUpdate env package args t plan w = r at hends
          rw [← update_of_apply hdec] at hr
          cases hends with
          | notPlaced =>
              exact hsame (final_of_error hr) rfl
          | unhandled _ _ _ gorget =>
              exact hsame (final_of_error hr) (steps_runGorgetForUpdatedPackage.error gorget).commits
          | dry =>
              exact hsame (final_of_ok hr) rfl
          | interrupted _ _ gorget =>
              exact hsame (final_of_error hr) (steps_gorgetStep.ok gorget).commits
          | committed commits =>
              rename_i w' w₂ c dir names
              obtain ⟨wet, clean, placed, gorget, commit⟩ := commits
              have htouch := steps_runGorgetForUpdatedPackage.ok gorget
              have hcreates : Creates (update env package args) w c :=
                (congrArg World.commits (final_of_ok hr)).trans
                  (commit.final_commits.trans (congrArg (c :: ·) htouch.commits))
              refine Or.inr ⟨c, hcreates, .gorget (.update hdec wet clean placed) gorget ?_ ?_ ?_⟩
              · have hholds := commit.holdsDir
                rw [show (w.head package).rpms = (w₂.head package).rpms by rw [htouch.head]; rfl]
                exact hholds
              · exact (congrArg World.log (final_of_ok hr)).trans commit.final_log
              · exact (congrArg World.pipelines (final_of_ok hr)).trans commit.final_pipelines
          | notCommitted _ _ _ gorget frame =>
              refine hsame (final_of_error hr) (frame.commits.trans ?_)
              exact (steps_runGorgetForUpdatedPackage.ok gorget).commits

theorem continueGorget_incomplete {dryRun : Bool} {s : UpdateState} (h : s.Incomplete) :
    continueGorget env dryRun s = pure (none, []) := by
  rcases h with h | h
  · simp only [continueGorget, h]
  · cases hm : s.metadata <;> simp only [continueGorget, h, hm]

theorem continueUpdate_commits {dryRun : Bool} :
    AtMostOneCommit env w (.continueUpdate dryRun) := by
  have hsame : ∀ {w' : World}, final (continueUpdate env dryRun) w = w' → w'.commits = w.commits →
      AtMostOneCommit env w (.continueUpdate dryRun) := fun hf hc => Or.inl (hf ▸ hc)
  cases hs : w.state with
  | none =>
      have hr : continueUpdate env dryRun w =
          .error (.systemExit (.message "ERROR: No update in progress. Nothing to continue.")) w := by
        unfold continueUpdate
        rw [run_bind_of_ok (run_get w), hs]
        rfl
      exact hsame (final_of_error hr) rfl
  | some s =>
      have hends := @continueUpdate_cases _ env _ dryRun _ hs
      generalize hr : continueUpdate env dryRun w = r at hends
      cases hends with
      | noDir =>
          exact hsame (final_of_error hr) rfl
      | conflict =>
          exact hsame (final_of_error hr) rfl
      | unhandled _ _ gorget =>
          exact hsame (final_of_error hr) (steps_continueGorget.error gorget).commits
      | manual _ _ gorget =>
          exact hsame (final_of_error hr) (steps_continueGorget.ok gorget).commits
      | dry _ gorget =>
          exact hsame (final_of_ok hr) (steps_continueGorget.ok gorget).commits
      | notCommitted _ gorget frame =>
          refine hsame (final_of_error hr) (frame.commits.trans ?_)
          rw [saved_commits]
          exact (steps_continueGorget.ok gorget).commits
      | committed wet commits =>
          rename_i w' w₂ c names
          subst wet
          obtain ⟨hdir, hresolved, gorget, w₃, commit, rfl⟩ := commits
          have htouch := steps_continueGorget.ok gorget
          obtain ⟨hhead, hpkg, hlog, hpipe⟩ := @World.saved_same s.package w₂ s.metadata
          have hcreates : Creates (continueUpdate env false) w c := by
            refine (congrArg World.commits (final_of_ok hr)).trans (commit.final_commits.trans ?_)
            rw [saved_commits, htouch.commits]
          have hholds := commit.holdsDir
          rw [hhead, hpkg, htouch.head] at hholds
          have hfinal : (final (continueUpdate env false) w).log = w₂.log :=
            (congrArg World.log (final_of_ok hr)).trans (commit.final_log.trans hlog)
          refine Or.inr ⟨c, hcreates, ?_⟩
          have hincomplete : s.Incomplete → CreatedBy env w c (.continueUpdate false) := by
            intro hi
            rw [continueGorget_incomplete hi] at gorget
            obtain ⟨⟨⟩, rfl⟩ := EStateM.Result.ok.inj gorget
            exact .incomplete hs hi hholds hfinal
          cases hm : s.metadata with
          | none => exact hincomplete (Or.inl hm)
          | some metadata =>
              cases ho : s.oldVersion with
              | none => exact hincomplete (Or.inr ho)
              | some oldVersion =>
                  have hstep : continueGorget env false s =
                      runGorgetForUpdatedPackage env s.package oldVersion metadata.version metadata := by
                    simp only [continueGorget, hm, ho, gorgetStep, if_neg Bool.false_ne_true]
                  rw [hstep] at gorget
                  refine .gorget (.continueUpdate hs hdir hresolved hm ho) gorget hholds hfinal ?_
                  exact (congrArg World.pipelines (final_of_ok hr)).trans
                    (commit.final_pipelines.trans hpipe)

/-- A run of a command creates at most one commit. -/
theorem run_commits : AtMostOneCommit env w cmd := by
  cases cmd with
  | update package args => exact update_commits
  | continueUpdate dryRun => exact continueUpdate_commits

/-- **`createdBy_of_creates`** — how a run that creates a commit comes to it. -/
theorem createdBy_of_creates (h : Creates (cmd.run env) w c) : CreatedBy env w c cmd := by
  rcases @run_commits _ env w cmd with hsame | ⟨c', hc', hby⟩
  · exact absurd (hsame.symm.trans h) (List.cons_ne_self c w.commits).symm
  · rwa [(List.cons.inj (h.symm.trans hc')).1]

end

/-! ## The `sources` file of a commit -/

/-- A gorget run for the package that returned between `w` and `w'` wrote the file. -/
def GorgetWrote (package : Str) (w w' : World) (f : File) : Prop :=
  ∃ es pipeline text, w'.log = es ++ w.log ∧ Event.gorget package pipeline text ∈ es ∧ f = .text text

/-- The `sources` file of a commit, if it has one, is that of the commit before, or was written by a
gorget run that returned in the run from `w` to `w'`. -/
def SourcesProven (package : Str) (w w' : World) (c : Commit) : Prop :=
  ∀ f, (c.content package).rpms.read sourcesName = some f →
    (w.head package).rpms.read sourcesName = some f ∨ GorgetWrote package w w' f

theorem not_gorgetWrote {package : Str} {w w' : World} {f : File} (h : w'.log = w.log) :
    ¬ GorgetWrote package w w' f := by
  rintro ⟨es, pipeline, text, hlog, hmem, -⟩
  have hnil : es = [] := by simpa using hlog.symm.trans h
  rw [hnil] at hmem
  exact absurd hmem List.not_mem_nil

section

variable [UnicodeTables]

/-- A command goes on to commit a package as it stands, without a gorget run. -/
inductive CommitsAsIs (env : Env) (w : World) : Command → Str → Tree → Prop
  /-- The gorget step finds that nothing changed. -/
  | notNeeded {cmd : Command} {package oldVersion newVersion : Str} {metadata : PackageMetadata}
      {w₁ : World} (call : GorgetCall env w cmd package oldVersion newVersion metadata w₁)
      (plan : w₁.gorgetPlan env package oldVersion newVersion metadata = .ok .notNeeded) :
      CommitsAsIs env w cmd package (gitFiles (w₁.packageDir package))
  | mark {package : Str} {args : UpdateArgs} {t : Target} {version release : Str}
      (decision : updateDecision env w package args = .ok (.mark t version release)) :
      CommitsAsIs env w (.update package args) package (w.index package).rpms
  | incomplete {s : UpdateState} (state : w.state = some s) (incomplete : s.Incomplete) :
      CommitsAsIs env w (.continueUpdate false) s.package (gitFiles (w.packageDir s.package))

/-- Where a command commits a package without a gorget run, the `sources` file it commits is that of
the commit before. -/
def SourcesKept (env : Env) (w : World) (cmd : Command) (package : Str) : Prop :=
  ∀ tree, CommitsAsIs env w cmd package tree →
    ∀ f, tree.read sourcesName = some f → (w.head package).rpms.read sourcesName = some f

variable {env : Env} {w : World} {c : Commit} {cmd : Command}

section

variable {package oldVersion newVersion package' oldVersion' newVersion' : Str}
  {metadata metadata' : PackageMetadata} {w₁ w₁' : World}

theorem GorgetCall.package_eq
    (h : GorgetCall env w cmd package oldVersion newVersion metadata w₁) :
    cmd.package w = some package := by
  cases h with
  | update => rfl
  | continueUpdate state =>
      rw [Command.package, state]
      rfl

theorem GorgetCall.unique (h : GorgetCall env w cmd package oldVersion newVersion metadata w₁)
    (h' : GorgetCall env w cmd package' oldVersion' newVersion' metadata' w₁') :
    oldVersion = oldVersion' ∧ newVersion = newVersion' ∧ metadata = metadata' ∧ w₁ = w₁' := by
  cases h with
  | update decision _ _ placed =>
      cases h' with
      | update decision' _ _ placed' =>
          obtain ⟨rfl, rfl⟩ := Decision.apply.inj (Except.ok.inj (decision.symm.trans decision'))
          obtain rfl := Except.ok.inj (placed.symm.trans placed')
          exact ⟨rfl, rfl, rfl, rfl⟩
  | continueUpdate state _ _ saved old =>
      cases h' with
      | continueUpdate state' _ _ saved' old' =>
          obtain rfl := Option.some.inj (state.symm.trans state')
          obtain rfl := Option.some.inj (saved.symm.trans saved')
          obtain rfl := Option.some.inj (old.symm.trans old')
          exact ⟨rfl, rfl, rfl, rfl⟩

/-- A command that calls the gorget step commits the package as it stands only when the step finds
that nothing changed. -/
theorem CommitsAsIs.of_call {tree : Tree} (h : CommitsAsIs env w cmd package' tree)
    (call : GorgetCall env w cmd package oldVersion newVersion metadata w₁) :
    w₁.gorgetPlan env package oldVersion newVersion metadata = .ok .notNeeded ∧
      tree = gitFiles (w₁.packageDir package) := by
  cases h with
  | notNeeded call' plan =>
      obtain rfl := Option.some.inj (call.package_eq.symm.trans call'.package_eq)
      obtain ⟨rfl, rfl, rfl, rfl⟩ := call.unique call'
      exact ⟨plan, rfl⟩
  | mark decision =>
      cases call with
      | update decision' => exact absurd (decision.symm.trans decision') (by simp)
  | incomplete state incomplete =>
      cases call with
      | continueUpdate state' _ _ saved old =>
          obtain rfl := Option.some.inj (state.symm.trans state')
          rcases incomplete with hnone | hnone
          · exact absurd (hnone.symm.trans saved) (by simp)
          · exact absurd (hnone.symm.trans old) (by simp)

/-- A command commits a package without a gorget run in one way only. -/
theorem CommitsAsIs.unique {tree tree' : Tree} (h : CommitsAsIs env w cmd package tree)
    (h' : CommitsAsIs env w cmd package tree') : tree' = tree := by
  cases h with
  | notNeeded call plan => exact (h'.of_call call).2
  | mark decision =>
      cases h' with
      | notNeeded call =>
          cases call with
          | update decision' => exact absurd (decision.symm.trans decision') (by simp)
      | mark => rfl
  | incomplete state incomplete =>
      rename_i s
      generalize hq : s.package = q at h'
      cases h' with
      | notNeeded call =>
          cases call with
          | continueUpdate state' _ _ saved old =>
              obtain rfl := Option.some.inj (state.symm.trans state')
              rcases incomplete with hnone | hnone
              · exact absurd (hnone.symm.trans saved) (by simp)
              · exact absurd (hnone.symm.trans old) (by simp)
      | incomplete state' =>
          obtain rfl := Option.some.inj (state.symm.trans state')
          rfl

/-- Where gorget runs, nothing is committed without it. -/
theorem GorgetCall.kept_of_run {version : Str} {file : File} {refreshed : Bool}
    (call : GorgetCall env w cmd package oldVersion newVersion metadata w₁)
    (plan : w₁.gorgetPlan env package oldVersion newVersion metadata =
      .ok (.run version file refreshed)) : SourcesKept env w cmd package := by
  intro tree htree
  exact absurd (plan.symm.trans (htree.of_call call).1) (by simp)

theorem GorgetCall.log (h : GorgetCall env w cmd package oldVersion newVersion metadata w₁) :
    w₁.log = w.log := by
  cases h <;> rfl

end

/-- A commit of a tree as it stands, by a run that logged nothing. -/
theorem sourcesProven_iff_of_asIs {package : Str} {w' : World} {tree : Tree}
    (hread : (c.content package).rpms.read sourcesName = tree.read sourcesName)
    (hlog : w'.log = w.log) (htree : CommitsAsIs env w cmd package tree) :
    SourcesProven package w w' c ↔ SourcesKept env w cmd package := by
  constructor
  · intro h tree' htree' f hf
    obtain rfl := htree.unique htree'
    rcases h f (hread.trans hf) with hkept | hwrote
    · exact hkept
    · exact absurd hwrote (not_gorgetWrote hlog)
  · intro h f hf
    exact Or.inl (h tree htree f (hread.symm.trans hf))

/-- After a gorget run that returned, `sources` is what it wrote, and the log says so. -/
theorem gorgetWrote_of_ok {package oldVersion version : Str} {file : File} {names : List Str}
    {w₁ w₂ : World}
    (h : runGorgetPipeline env package oldVersion version file w₁ = .ok names w₂) :
    ∃ text, (w₂.packageDir package).read sourcesName = some (.text text) ∧
      ∃ es, w₂.log = .gorget package file text :: (es ++ w₁.log) := by
  obtain ⟨out, new, old, hrun⟩ := runGorgetPipeline_ok h
  refine ⟨renderSources new, ?_, hrun.log⟩
  rw [hrun.dir, refreshed, Tree.read_write_self]

theorem sourcesProven_of_ran {package oldVersion version : Str} {file : File} {names : List Str}
    {w₁ w₂ w' : World}
    (hrun : runGorgetPipeline env package oldVersion version file w₁ = .ok names w₂)
    (hcontent : HoldsDir package names (w.head package).rpms (w₂.packageDir package) c)
    (hlog : w'.log = w₂.log) (hlog₁ : w₁.log = w.log) : SourcesProven package w w' c := by
  intro f hf
  rw [hcontent.rpms sourcesName (by decide)] at hf
  split at hf
  · exact Or.inl hf
  · right
    obtain ⟨text, hread, es, hes⟩ := gorgetWrote_of_ok hrun
    rw [read_gitFiles, hread] at hf
    split at hf
    · obtain rfl := Option.some.inj hf
      refine ⟨.gorget package file text :: es, file, text, ?_, List.mem_cons_self, rfl⟩
      rw [hlog, hes, hlog₁, List.cons_append]
    · exact absurd hf (by simp)

end

/-! ### An upstream that respins a version -/

/-- A package directory with one spec file and a `sources` file. -/
def gccTree (spec sources : Str) : Tree :=
  Tree.ofList [("gcc.spec", .text spec), (sourcesName, .text sources)]

/-- A clone in which the commit `old` has one tree and the tip `new` another one. -/
def gccUpstream (oldTree newTree : Tree) : Upstream where
  tip _ := some "new"
  revParse _ := some "new"
  tree sha := if sha = "old".toList then some oldTree else some newTree
  mergeBase _ _ := some oldTree

/-- An environment with that upstream at a given version, in which gorget and all services answer. -/
def gccEnv (oldTree newTree : Tree) (version : Str) : Env :=
  { Env.offline with
    safeLoad := fun _ => .ok (.dict [])
    upload := fun _ => .exited 0 [] []
    gorget := fun _ => ⟨.exited 0 [] [], oneArchive⟩
    fedoraReleases := [("f42", "f42")]
    lsRemote := fun _ _ => some "new\trefs/heads/f42\n"
    clone := fun _ _ _ => some (gccUpstream oldTree newTree)
    switchOk := fun _ _ => true
    rpmspec := fun _ _ => .exited 0 (version ++ "\n2\n".toList) []
    versionLt := fun _ _ => some false
    commitOk := true }

def gccMetadata (status : ModificationStatus) : PackageMetadata :=
  { source := some "https://src.fedoraproject.org/rpms/gcc.git", branch := some "f42",
    sha := some "old", version := "1", release := some "1", modificationStatus := some status }

/-- The package as the last commit has it, with a pipeline. -/
def gccWorld (status : ModificationStatus) (dir : Tree) : World :=
  { World.empty with
    imports := fun _ => some (gccMetadata status)
    metadata := fun _ => some (gccMetadata status)
    rpms := fun _ => some dir
    pipelines := fun _ => some (.text "fetch: []\n")
    index := fun _ => ⟨dir, some (gccMetadata status), some (.text "fetch: []\n")⟩
    commits := [⟨"Import gcc", fun _ => ⟨dir, some (gccMetadata status), some (.text "fetch: []\n")⟩⟩] }

def oldGcc : Tree := gccTree "Version: 1\nRelease: 1\n" "SHA512 (a.tar) = 0\n"

/-- The same version with other sources. -/
def respunGcc : Tree := gccTree "Version: 1\nRelease: 2\n" "SHA512 (b.tar) = 1\n"

/-- An update without a check of the build. -/
def uncheckedUpdate : Command := .update "gcc" { skipBuildCheck := true }

/-- The contents of a file in the commits a run leaves. -/
def committedFiles [UnicodeTables] (env : Env) (cmd : Command) (w : World) (q : Path) :
    List (Option File) :=
  (final (cmd.run env) w).commits.map fun c => (c.content "gcc").rpms.read q

/-- A run that leaves two commits where there was one has created one. -/
theorem creates_of_two {α : Type} {x : Tool Unit} {w : World} (f : Commit → α) {before after : α}
    (hx : (final x w).commits = w.commits ∨ ∃ c, Creates x w c) (hw : w.commits.length = 1)
    (h : (final x w).commits.map f = [after, before]) : ∃ c, Creates x w c ∧ f c = after := by
  rcases hx with hsame | ⟨c, hc⟩
  · rw [hsame] at h
    have := congrArg List.length h
    simp [hw] at this
  · refine ⟨c, hc, ?_⟩
    rw [show (final x w).commits = c :: w.commits from hc] at h
    exact (List.cons.inj h).1

theorem creates_of_length [UnicodeTables] {env : Env} {cmd : Command} {w : World} {q : Path}
    {before after : Option File} (hw : w.commits.length = 1)
    (h : committedFiles env cmd w q = [after, before]) :
    ∃ c, Creates (cmd.run env) w c ∧ (c.content "gcc").rpms.read q = after :=
  creates_of_two _ (run_commits.imp_right fun ⟨c, hc, _⟩ => ⟨c, hc⟩) hw h

end HummingbirdRpms
