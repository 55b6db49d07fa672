/-
# HummingbirdRpms.Baseline — the Fedora base a package's record names, over sequences of commands.

A record says where a package was taken from: the source, the branch, the commit, and that commit's
version and release.  `import_`, `update` and `sync` write the five together; an interrupted update
carries them through the state file to `update --continue`.  `mark_package_modified` writes another
version and takes the release away, because the spec file's release is no longer one of Fedora's.
`rebuild_package`, `mark_modified` and `set_upstream` leave the five alone.

**`release_names_base`** puts these together for every sequence of such commands: a release in a record
is the one that an import, an update or a sync resolved for the commit it checked out, and the last
command that changed any of the five is the one that wrote it.
-/
import HummingbirdRpms.Lib.Trace
import HummingbirdRpms.Metadata
import HummingbirdRpms.Rebuild

namespace HummingbirdRpms

open Lib Lib.Text Lib.Regex Lib.Exec Lib.Trace

/-! ## The base of a package -/

/-- What a record says of the upstream commit a package was taken from. -/
structure Baseline where
  source : Option Str
  branch : Option Str
  sha : Option Str
  version : Str
  release : Option Str
  deriving DecidableEq

def PackageMetadata.baseline (m : PackageMetadata) : Baseline :=
  ⟨m.source, m.branch, m.sha, m.version, m.release⟩

/-- The base the record of a package names. -/
def World.baseline (w : World) (package : Str) : Option Baseline :=
  (w.metadata package).map (·.baseline)

section

variable [UnicodeTables]

/-- The version and the release of an upstream directory, as an import and an update take them: the
spec file's, and in place of `%autorelease` the release MDAPI reports, where it reports one. -/
def upstreamRelease (env : Env) (source branch : Str) (dir : Tree) : Except Exn (Str × Str) := do
  let (version, specRelease) ← parseSpecVersion env dir
  if ← usesAutorelease dir then
    let resolved ← queryAutoreleaseFromMdapi env (pathStem source) branch
    return (version, (resolved.filter (!·.isEmpty)).getD specRelease)
  else return (version, specRelease)

/-- The five values are what a run resolves: it checks out a commit, takes its version and release, and
records the commit.  What it records may be what `git ls-remote` named instead, when it checked out the
tip of the branch. -/
def Resolves (env : Env) (source branch sha version release : Str) : Prop :=
  ∃ single up commit dir, env.clone source branch single = some up ∧ up.tree commit = some dir ∧
    upstreamRelease env source branch dir = .ok (version, release) ∧
    (commit = sha ∨ up.tip branch = some commit ∧ ∃ p, lsRemoteSha env p source branch = .ok sha)

/-- A base that a run has resolved. -/
def Baseline.Resolved (env : Env) (b : Baseline) : Prop :=
  ∃ source branch sha release, b = ⟨some source, some branch, some sha, b.version, some release⟩ ∧
    Resolves env source branch sha b.version release

/-- A base that has a release only where a run has resolved it. -/
def Baseline.Justified (env : Env) (b : Baseline) : Prop := b.release ≠ none → b.Resolved env

/-! ## The commands -/

/-- A command that works on packages: one that writes records, `update --continue`, or a rebuild. -/
inductive PackageCommand where
  | record (cmd : RecordCommand)
  | continueUpdate (dryRun : Bool)
  | rebuild (package reason : Str) (dryRun : Bool)

namespace PackageCommand

/-- What `main` does with a command. -/
def main (env : Env) : PackageCommand → Tool Unit
  | .record cmd => cmd.main env
  | .continueUpdate dryRun => HummingbirdRpms.continueUpdate env dryRun
  | .rebuild package reason dryRun => rebuildPackage env package reason dryRun

/-- The world a command leaves behind; what it asks the outside is its own. -/
def after (c : Env × PackageCommand) (w : World) : World := final (c.2.main c.1) w.started

/-- An import, an update or a sync. -/
def TakesUpstream : PackageCommand → Prop
  | .record (.import_ ..) => True
  | .record (.update ..) => True
  | .record (.sync ..) => True
  | _ => False

/-- A rebuild, `mark-modified` or `set-upstream`. -/
def Local : PackageCommand → Prop
  | .record (.markModified ..) => True
  | .record (.setUpstream ..) => True
  | .rebuild .. => True
  | _ => False

end PackageCommand

end

/-! ## What a command may do to the bases -/

/-- From `w` to `w'` the base of every package is kept or becomes one that satisfies `ok`, and an update
that is interrupted saves one that does. -/
structure Settles (ok : Baseline → Prop) (w w' : World) : Prop where
  record : ∀ q, w'.baseline q = w.baseline q ∨ ∃ b, w'.baseline q = some b ∧ ok b
  state : ∀ s m, w'.state = some s → s.metadata = some m → w.state = some s ∨ ok m.baseline

namespace Settles

variable {ok : Baseline → Prop} {w w' : World} {p : Str} {m : PackageMetadata}

theorem of_same (hmetadata : w'.metadata = w.metadata) (hstate : w'.state = w.state) :
    Settles ok w w' := by
  refine ⟨fun q => Or.inl ?_, fun s m hs _ => Or.inl (hstate ▸ hs)⟩
  simp only [World.baseline, hmetadata]

instance : Std.Refl (Settles ok) := ⟨fun _ => of_same rfl rfl⟩

instance : IsTrans World (Settles ok) where
  trans := by
    intro w₁ w₂ w₃ h h'
    refine ⟨fun q => ?_, fun s m hs hm => ?_⟩
    · rcases h'.record q with heq | hb
      · rw [heq]
        exact h.record q
      · exact Or.inr hb
    · rcases h'.state s m hs hm with hs' | hok
      · exact h.state s m hs' hm
      · exact Or.inr hok

theorem mono {ok' : Baseline → Prop} (h : Settles ok w w') (hok : ∀ b, ok b → ok' b) :
    Settles ok' w w' := by
  refine ⟨fun q => ?_, fun s m hs hm => (h.state s m hs hm).imp_right (hok _)⟩
  rcases h.record q with heq | ⟨b, hb, hbok⟩
  · exact Or.inl heq
  · exact Or.inr ⟨b, hb, hok b hbok⟩

/-- A record is written. -/
theorem of_write (hmetadata : w'.metadata = Function.update w.metadata p (some m))
    (hstate : w'.state = w.state) (hm : w.baseline p = some m.baseline ∨ ok m.baseline) :
    Settles ok w w' := by
  refine ⟨fun q => ?_, fun s m hs _ => Or.inl (hstate ▸ hs)⟩
  unfold World.baseline at hm ⊢
  rw [hmetadata]
  by_cases hqp : q = p
  · rw [hqp, Function.update_self, Option.map_some]
    rcases hm with hsame | hok
    · exact Or.inl hsame.symm
    · exact Or.inr ⟨_, rfl, hok⟩
  · rw [Function.update_of_ne hqp]
    exact Or.inl rfl

theorem setMetadata (hm : w.baseline p = some m.baseline ∨ ok m.baseline) :
    Settles ok w (w.setMetadata p m) := of_write rfl rfl hm

theorem setState {s : UpdateState} (hs : ∀ m, s.metadata = some m → ok m.baseline) :
    Settles ok w { w with state := some s } := by
  refine ⟨fun q => Or.inl rfl, fun s' m hs' hm => Or.inr ?_⟩
  obtain rfl := Option.some.inj hs'
  exact hs m hm

theorem of_clear (hmetadata : w'.metadata = w.metadata) (hstate : w'.state = none) :
    Settles ok w w' := by
  refine ⟨fun q => Or.inl ?_, fun s m hs _ => absurd (hstate.symm.trans hs) (by simp)⟩
  simp only [World.baseline, hmetadata]

theorem of_touches (h : TouchesPackage p w w') : Settles ok w w' := by
  obtain ⟨dir, pipeline, es, rfl⟩ := h
  exact of_same rfl rfl

theorem of_dirAndIndex (h : DirAndIndex p w w') : Settles ok w w' := by
  obtain ⟨dir, index, rfl⟩ := h
  exact of_same rfl rfl

end Settles

section

variable {ok : Baseline → Prop} {p message : Str} {committed : Bool}

theorem settles_gitCommit : Steps (Settles ok) (gitCommit committed message) :=
  steps_ite (steps_modify fun _ => Settles.of_same rfl rfl) (steps_throw _)

variable {env : Env} {m : PackageMetadata} {names : List Str}

theorem settles_commitPackage {w : World} (hm : ok m.baseline) :
    Settles ok w (final (commitPackage env p (some m) names message) w) := by
  refine step_bind (Settles.setMetadata (Or.inr hm)) fun _ w' _ => ?_
  exact steps_bind (fun w => Settles.of_dirAndIndex (steps_stage w)) (fun _ => settles_gitCommit) w'

variable [UnicodeTables] {args : UpdateArgs} {t : Target} {plan : UpdatePlan} {w : World}

/-- The writing part of an update writes, or saves, the record it has decided on. -/
theorem settles_applyUpdate (hm : ok (updatedMetadata t plan args.sync).baseline) :
    Steps (Settles ok) (applyUpdate env p args t plan) := by
  refine steps_bind ?_ fun _ => steps_bind (fun w => Settles.of_touches (steps_gorgetStep w)) fun r => ?_
  · refine steps_bind (steps_modify fun w => Settles.of_same rfl rfl) fun _ => steps_ite ?_ (steps_pure _)
    exact steps_bind (steps_lift _) fun dir => steps_modify fun w => Settles.of_same rfl rfl
  · refine steps_bind (steps_modify fun w => Settles.of_same rfl rfl) fun _ =>
      steps_ite (steps_pure _) (steps_ite ?_ fun w => settles_commitPackage hm)
    refine steps_bind (steps_modify fun w => Settles.setState fun m hm' => ?_) fun _ => steps_throw _
    exact Option.some.inj hm' ▸ hm

omit [UnicodeTables] in
/-- Mark mode leaves the base as it is, when the process has read the record. -/
theorem settles_applyMark {version release : Str} (hm : w.metadata p = some t.metadata) :
    Settles ok w (final (applyMark env p args t version release) w) := by
  have hbase : w.baseline p = some (markedMetadata t).baseline := congrArg (Option.map _) hm
  refine step_bind (Settles.of_same rfl rfl) fun _ w₁ h₁ => ?_
  obtain ⟨-, rfl⟩ := EStateM.Result.ok.inj h₁
  by_cases hdry : args.dryRun = true
  · rw [if_pos hdry]
    exact steps_pure _ _
  · rw [if_neg hdry]
    refine step_bind (Settles.setMetadata (Or.inl hbase)) fun _ w₂ _ => ?_
    have hadd : Steps (Settles ok) (gitAddMetadata p) := steps_modify fun w => Settles.of_same rfl rfl
    exact steps_bind hadd (fun _ => settles_gitCommit) w₂

/-- The branch an update takes is the recorded one where it has not changed, and the commit is what
`git ls-remote` names where no other is given. -/
theorem updateTarget_latest (h : updateTarget env w p args = .ok (some t)) :
    (t.branchChanged = false → t.effectiveBranch = t.oldBranch) ∧
      (given args.ref = none → lsRemoteSha env p t.source t.effectiveBranch = .ok t.latestSha) := by
  unfold updateTarget at h
  cases hm : w.imports p with
  | none =>
      rw [hm] at h
      exact absurd h (by simp [exit])
  | some metadata =>
      rw [hm] at h
      obtain ⟨_, -, h⟩ := except_bind_ok_iff.mp h
      obtain ⟨_, -, h⟩ := except_bind_ok_iff.mp h
      split at h
      · rename_i source oldBranch sha _ _ _
        obtain ⟨⟨branch, changed⟩, hbranch, h⟩ := except_bind_ok_iff.mp h
        have hsame : changed = false → branch = oldBranch := by
          intro hchanged
          unfold effectiveBranch at hbranch
          split at hbranch
          · split at hbranch
            · exact (Prod.mk.inj (Except.ok.inj hbranch)).1.symm
            · obtain ⟨_, -, hbranch⟩ := except_bind_ok_iff.mp hbranch
              rw [hchanged] at hbranch
              exact absurd (Prod.mk.inj (Except.ok.inj hbranch)).2 (by simp)
          · exact (Prod.mk.inj (Except.ok.inj hbranch)).1.symm
        dsimp only at h
        cases href : given args.ref with
        | none =>
            rw [href] at h
            obtain ⟨latest, hlatest, h⟩ := except_bind_ok_iff.mp h
            obtain rfl := Option.some.inj (Except.ok.inj h)
            exact ⟨hsame, fun _ => hlatest⟩
        | some ref =>
            rw [href] at h
            obtain ⟨latest, -, h⟩ := except_bind_ok_iff.mp h
            obtain rfl := Option.some.inj (Except.ok.inj h)
            exact ⟨hsame, fun hnone => absurd hnone (by simp)⟩
      · exact absurd (Except.ok.inj h) (by simp)

/-- The version and the release of a plan are the upstream directory's. -/
theorem upstreamRelease_of_planned {up : Upstream} {upstreamDir : Tree} {specRelease : Str}
    (h : Planned env w p args t plan up upstreamDir specRelease) :
    upstreamRelease env t.source t.effectiveBranch upstreamDir = .ok (plan.version, plan.release) := by
  have hrelease := h.release
  refine except_bind_ok_iff.mpr ⟨_, h.spec, except_bind_ok_iff.mpr ⟨_, h.autorelease, ?_⟩⟩
  unfold resolveRelease at hrelease
  split at hrelease
  · rename_i hauto
    obtain ⟨resolved, hresolved, hrelease⟩ := except_bind_ok_iff.mp hrelease
    rw [if_pos hauto]
    refine except_bind_ok_iff.mpr ⟨resolved, hresolved, ?_⟩
    exact congrArg (fun r => Except.ok (plan.version, r)) (Except.ok.inj hrelease)
  · rename_i hauto
    rw [if_neg hauto]
    exact congrArg (fun r => Except.ok (plan.version, r)) (Except.ok.inj hrelease)

/-- The record of a planned update names a base that the run has resolved. -/
theorem resolved_of_planned {up : Upstream} {upstreamDir : Tree} {specRelease : Str}
    (h : Planned env w p args t plan up upstreamDir specRelease) :
    (updatedMetadata t plan args.sync).baseline.Resolved env := by
  obtain ⟨hclone, hcases⟩ := checkoutUpdate_ok h.checkout
  obtain ⟨-, -, hsource, hbranch, -⟩ := updateTarget_ok h.target
  obtain ⟨hsame, hlatest⟩ := updateTarget_latest h.target
  have hbase : (updatedMetadata t plan args.sync).baseline =
      ⟨some t.source, some t.effectiveBranch, some plan.latestSha, plan.version, some plan.release⟩ := by
    have hrecorded : (if t.branchChanged then some t.effectiveBranch else t.metadata.branch) =
        some t.effectiveBranch := by
      cases hchanged : t.branchChanged with
      | true => rfl
      | false => rw [hbranch, hsame hchanged, if_neg Bool.false_ne_true]
    unfold PackageMetadata.baseline updatedMetadata
    rw [hsource, hrecorded]
  refine ⟨t.source, t.effectiveBranch, plan.latestSha, plan.release, hbase, ?_⟩
  have hrelease := upstreamRelease_of_planned h
  rcases hcases with ⟨href, heq, tip, htip, htree⟩ | ⟨_, _, _, htree⟩
  · -- without a ref the recorded commit is what `git ls-remote` named, and not what was checked out
    exact ⟨_, up, tip, upstreamDir, hclone, htree, hrelease, Or.inr ⟨htip, p, heq ▸ hlatest href⟩⟩
  · exact ⟨_, up, plan.latestSha, upstreamDir, hclone, htree, hrelease, Or.inl rfl⟩

/-! ## Updates and imports -/

/-- An update settles its package on a base it has resolved; mark mode keeps the one of the record the
process has read. -/
theorem settles_update (hmark : args.mark = true → w.imports = w.metadata) :
    Settles (·.Justified env) w (final (update env p args) w) := by
  cases hdecision : updateDecision env w p args with
  | error e =>
      rw [final_of_error (update_of_error hdecision)]
      exact .of_same rfl rfl
  | ok decision =>
      cases decision with
      | skip =>
          rw [final_of_ok (update_of_skip hdecision)]
          exact .of_same rfl rfl
      | mark t version release =>
          obtain ⟨hmode, htarget, -⟩ := mark_of_decision hdecision
          have hread := (updateTarget_ok htarget).1
          rw [hmark hmode] at hread
          rw [final, update_of_mark hdecision]
          exact settles_applyMark hread
      | apply t plan =>
          obtain ⟨up, upstreamDir, specRelease, hplanned⟩ := planned_of_apply hdecision
          rw [final, update_of_apply hdecision]
          exact settles_applyUpdate (fun _ => resolved_of_planned hplanned) w

theorem settles_updateEach {packages : List Str} (hmark : args.mark = false) :
    Steps (Settles (·.Justified env)) (updateEach env args packages) := by
  induction packages with
  | nil => exact steps_pure _
  | cons p packages ih =>
      refine steps_bind (fun w => settles_update fun h => ?_) fun _ => ih
      exact absurd (hmark.symm.trans h) (by simp)

omit [UnicodeTables] in
theorem settles_cloneInto {dirName url branch : Str} {ref : Option Str} :
    Steps (Settles ok) (cloneInto env dirName url branch ref) := by
  refine steps_bind (steps_lift _) fun r => steps_bind (steps_lift _) fun dir =>
    steps_bind (steps_modify fun w => Settles.of_same rfl rfl) fun _ => ?_
  split
  · exact steps_pure _
  · refine steps_bind (steps_lift _) fun sha => steps_bind (steps_lift _) fun dir => ?_
    exact steps_bind (steps_modify fun w => Settles.of_same rfl rfl) fun _ => steps_pure _

theorem settles_importRelease {packageName dirName branch specRelease : Str} :
    Steps (Settles ok) (importRelease env packageName dirName branch specRelease) := by
  refine steps_bind steps_get fun w => steps_bind (steps_lift _) fun auto => ?_
  refine steps_ite (steps_bind (steps_lift _) fun resolved => ?_) (steps_pure _)
  split
  · exact steps_pure _
  · refine steps_bind (steps_lift _) fun dir => ?_
    exact steps_bind (steps_modify fun w => Settles.of_same rfl rfl) fun _ => steps_pure _

omit [UnicodeTables] in
/-- After a clone the directory holds the tree of the commit that is returned. -/
theorem cloneInto_ok {dirName url branch sha : Str} {ref : Option Str} {w' : World}
    (h : cloneInto env dirName url branch ref w = .ok sha w') :
    ∃ up, env.clone url branch true = some up ∧ up.tree sha = some (w'.packageDir dirName) := by
  obtain ⟨⟨up, tip⟩, hup, h⟩ := lift_bind_ok_iff.mp h
  have hclone : env.clone url branch true = some up := by
    split at hup
    · exact absurd hup (by simp)
    · rename_i up' hclone
      split at hup
      · exact absurd hup (by simp)
      · rw [hclone, (Prod.mk.inj (Except.ok.inj hup)).1]
  obtain ⟨dir, hdir, h⟩ := lift_bind_ok_iff.mp h
  rw [run_bind_of_ok (run_modify _ _)] at h
  refine ⟨up, hclone, ?_⟩
  cases hgiven : given ref with
  | none =>
      rw [hgiven] at h
      obtain ⟨rfl, rfl⟩ := EStateM.Result.ok.inj h
      rw [packageDir_setRpms]
      exact checkout_ok_iff.mp hdir
  | some ref' =>
      rw [hgiven] at h
      obtain ⟨sha', -, h⟩ := lift_bind_ok_iff.mp h
      obtain ⟨dir', hdir', h⟩ := lift_bind_ok_iff.mp h
      rw [run_bind_of_ok (run_modify _ _)] at h
      obtain ⟨rfl, rfl⟩ := EStateM.Result.ok.inj h
      rw [packageDir_setRpms]
      exact checkout_ok_iff.mp hdir'

/-- The release of an imported package is the one `upstreamRelease` gives. -/
theorem importRelease_ok {url dirName branch version specRelease release : Str} {w' : World}
    (h : importRelease env (pathStem url) dirName branch specRelease w = .ok release w')
    (hspec : parseSpecVersion env (w.packageDir dirName) = .ok (version, specRelease)) :
    upstreamRelease env url branch (w.packageDir dirName) = .ok (version, release) := by
  unfold importRelease at h
  rw [run_bind_of_ok (run_get w)] at h
  obtain ⟨auto, hauto, h⟩ := lift_bind_ok_iff.mp h
  refine except_bind_ok_iff.mpr ⟨_, hspec, except_bind_ok_iff.mpr ⟨auto, hauto, ?_⟩⟩
  cases auto with
  | false =>
      obtain ⟨rfl, -⟩ := EStateM.Result.ok.inj h
      rfl
  | true =>
      rw [if_pos rfl] at h ⊢
      obtain ⟨resolved, hresolved, h⟩ := lift_bind_ok_iff.mp h
      refine except_bind_ok_iff.mpr ⟨resolved, hresolved, ?_⟩
      cases hfound : resolved.filter (!·.isEmpty) with
      | none =>
          rw [hfound] at h
          obtain ⟨rfl, -⟩ := EStateM.Result.ok.inj h
          rfl
      | some found =>
          rw [hfound] at h
          obtain ⟨dir, -, h⟩ := lift_bind_ok_iff.mp h
          rw [run_bind_of_ok (run_modify _ _)] at h
          obtain ⟨rfl, -⟩ := EStateM.Result.ok.inj h
          rfl

omit [UnicodeTables] in
theorem settles_finishImport {dirName commitMsg : Str} {dryRun : Bool} :
    Steps (Settles ok) (finishImport env dirName commitMsg dryRun) := by
  refine steps_bind steps_raiseIf fun _ => steps_bind steps_raiseIf fun _ => ?_
  refine steps_ite (steps_pure _) (steps_bind ?_ fun _ => settles_gitCommit)
  exact steps_modify fun w => Settles.of_same rfl rfl

omit [UnicodeTables] in
theorem importedMetadata_baseline {url branch sha version release : Str} {anityaId : Option Int}
    (hurl : isHummingbirdUrl url = false) :
    (importedMetadata url branch sha version release anityaId).baseline =
      ⟨some url, some branch, some sha, version, some release⟩ := by
  unfold PackageMetadata.baseline importedMetadata
  rw [if_neg (by simp [hurl])]

/-- An import settles its package on a base it has resolved, or on one without a release. -/
theorem settles_importInto {dirName url branch : Str} {ref : Option Str} {dryRun : Bool} :
    Settles (·.Justified env) w
      (final (importInto env dirName url (pathStem url) branch ref dryRun) w) := by
  refine step_bind (settles_cloneInto w) fun sha w₁ hclone => ?_
  obtain ⟨up, hup, htree⟩ := cloneInto_ok hclone
  refine step_bind (steps_get _) fun read _ hget => ?_
  obtain ⟨rfl, rfl⟩ := EStateM.Result.ok.inj hget
  refine step_bind (steps_lift _ _) fun r _ hspec => ?_
  obtain ⟨version, specRelease⟩ := r
  obtain ⟨hspec, rfl⟩ := lift_ok_iff.mp hspec
  refine step_bind (settles_importRelease _) fun release w₂ hrelease => ?_
  have hresolved := importRelease_ok hrelease hspec
  refine step_bind (steps_lift _ w₂) fun anityaId w₃ _ => ?_
  refine step_bind (Settles.of_write rfl rfl (Or.inr ?_)) fun _ w₄ _ => settles_finishImport w₄
  intro hne
  cases hurl : isHummingbirdUrl url with
  | true => exact absurd (by simp [PackageMetadata.baseline, importedMetadata, hurl]) hne
  | false =>
      rw [importedMetadata_baseline hurl]
      exact ⟨url, branch, sha, release, rfl, true, up, sha, _, hup, htree, hresolved, Or.inl rfl⟩

/-! ## What each command does -/

omit [UnicodeTables] in
theorem settles_saved {metadata : Option PackageMetadata}
    (hm : ∀ m, metadata = some m → ok m.baseline) : Settles ok w (w.saved p metadata) := by
  cases metadata with
  | none => exact .of_same rfl rfl
  | some m => exact .setMetadata (Or.inr (hm m rfl))

/-- The base that the state file of an interrupted update holds. -/
def SavedBase (w : World) (b : Baseline) : Prop :=
  ∃ s m, w.state = some s ∧ s.metadata = some m ∧ m.baseline = b

/-- A continued update takes the base from the state file. -/
theorem settles_continueUpdate {dryRun : Bool} :
    Settles (SavedBase w) w (final (continueUpdate env dryRun) w) := by
  cases hstate : w.state with
  | none =>
      unfold final continueUpdate
      rw [run_bind_of_ok (run_get w), hstate]
      exact .of_same rfl rfl
  | some s =>
      have hsaved : ∀ m, s.metadata = some m → SavedBase w m.baseline := by
        intro m hm
        exact ⟨s, m, hstate, hm, rfl⟩
      -- whatever the gorget step touched, what follows starts from the saved record
      have hwritten : ∀ {w₂ : World} {r : Option Str × List Str},
          continueGorget env dryRun s w = .ok r w₂ → Settles (SavedBase w) w (w₂.saved s.package s.metadata) := by
        intro w₂ r hgorget
        exact IsTrans.trans _ _ _ (Settles.of_touches (steps_continueGorget.ok hgorget))
          (settles_saved hsaved)
      have hends : ContinueEnds env dryRun s w (continueUpdate env dryRun w) :=
        continueUpdate_cases hstate
      unfold final
      cases hrun : continueUpdate env dryRun w with
      | error e w' =>
          rw [hrun] at hends
          cases hends with
          | noDir => exact .of_clear rfl rfl
          | conflict => exact .of_same rfl rfl
          | unhandled _ _ hgorget => exact .of_touches (steps_continueGorget.error hgorget)
          | manual _ _ hgorget => exact .of_touches (steps_continueGorget.ok hgorget)
          | notCommitted _ hgorget frame =>
              exact IsTrans.trans _ _ _ (hwritten hgorget) (Settles.of_dirAndIndex frame)
      | ok u w' =>
          rw [hrun] at hends
          cases hends with
          | dry _ hgorget => exact .of_touches (steps_continueGorget.ok hgorget)
          | committed wet commits =>
              obtain ⟨w₃, hcommit, rfl⟩ := commits.commit
              obtain ⟨dir, rfl⟩ := hcommit.frame
              exact IsTrans.trans _ _ _ (hwritten (wet ▸ commits.gorget)) (Settles.of_clear rfl rfl)

/-- A rebuild writes no record. -/
theorem settles_rebuildPackage {package reason : Str} {dryRun : Bool} :
    Steps (Settles ok) (rebuildPackage env package reason dryRun) := by
  refine steps_bind steps_get fun w => ?_
  split
  · exact steps_throw _
  · refine steps_bind steps_get fun w => steps_bind steps_raiseIf fun _ => steps_bind steps_get fun w =>
      steps_bind (steps_lift _) fun resolved => ?_
    refine steps_bind (steps_modify fun w => Settles.of_same rfl rfl) fun _ =>
      steps_bind (steps_lift _) fun rebuilt => ?_
    refine steps_bind (steps_modify fun w => Settles.of_same rfl rfl) fun _ =>
      steps_ite (steps_pure _) (steps_bind ?_ fun _ => settles_gitCommit)
    exact steps_modify fun w => Settles.of_same rfl rfl

omit [UnicodeTables] in
/-- The record that a process has read, written back with the same base. -/
theorem settles_saveRecord {m m' : PackageMetadata} (hm : w.metadata p = some m)
    (hbase : m'.baseline = m.baseline) : Settles ok w (final (saveRecord p m') w) := by
  refine Settles.of_write rfl rfl (Or.inl ?_)
  unfold World.baseline
  rw [hm, Option.map_some, hbase]

omit [UnicodeTables] in
theorem settles_markModified {modified : Bool} {reason answer : Option Str}
    (hread : w.imports = w.metadata) :
    Settles ok w (final (markModified p modified reason answer) w) := by
  refine step_bind (steps_get w) fun _ _ hget => ?_
  obtain ⟨rfl, rfl⟩ := EStateM.Result.ok.inj hget
  cases hm : w.metadata p with
  | none =>
      rw [hread, hm]
      exact steps_throw _ _
  | some m =>
      rw [hread, hm]
      cases modified with
      | false => exact settles_saveRecord hm rfl
      | true =>
          dsimp only
          rw [if_pos rfl]
          refine step_bind (Settles.of_same rfl rfl) fun _ w₁ hmodify => ?_
          obtain ⟨-, rfl⟩ := EStateM.Result.ok.inj hmodify
          refine step_bind (steps_lift _ _) fun r w₂ hlift => ?_
          obtain ⟨-, rfl⟩ := lift_ok_iff.mp hlift
          exact settles_saveRecord hm rfl

omit [UnicodeTables] in
theorem settles_setUpstream {trackVersion : Setting Str} {projectId : Setting ProjectId}
    (hread : w.imports = w.metadata) :
    Settles ok w (final (setUpstream p trackVersion projectId) w) := by
  refine step_bind (steps_get w) fun _ _ hget => ?_
  obtain ⟨rfl, rfl⟩ := EStateM.Result.ok.inj hget
  cases hm : w.metadata p with
  | none =>
      rw [hread, hm]
      exact steps_throw _ _
  | some m =>
      rw [hread, hm]
      exact settles_saveRecord hm rfl

/-- What a version bump makes of a record. -/
theorem after_markPackageModified {m : PackageMetadata} {newVersion : Str} {version : Option Str}
    (hm : w.metadata p = some m) :
    PackageCommand.after (env, .record (.markPackageModified p newVersion version)) w =
      w.started.setMetadata p (packageModified m (upstreamVersionReason newVersion) version) := by
  show final (markPackageModified p _ version) w.started = _
  unfold final markPackageModified
  rw [run_bind_of_ok (run_get _)]
  have hread : w.started.metadata p = some m := hm
  rw [hread]
  rfl

theorem settles_markPackageModified {newVersion : Str} {version : Option Str} :
    Settles (fun b => b.release = none) w
      (PackageCommand.after (env, .record (.markPackageModified p newVersion version)) w) := by
  cases hm : w.metadata p with
  | some m =>
      rw [after_markPackageModified hm]
      exact .of_write rfl rfl (Or.inr rfl)
  | none =>
      show Settles _ w (final (markPackageModified p _ version) w.started)
      unfold final markPackageModified
      rw [run_bind_of_ok (run_get _)]
      have hread : w.started.metadata p = none := hm
      rw [hread]
      exact .of_same rfl rfl

variable {c : Env × PackageCommand}

/-- A rebuild, `mark-modified` and `set-upstream` keep the base of every package. -/
theorem PackageCommand.Local.settles (h : c.2.Local) : Settles ok w (PackageCommand.after c w) := by
  obtain ⟨env, cmd⟩ := c
  have hstarted : Settles ok w w.started := .of_same rfl rfl
  refine IsTrans.trans _ _ _ hstarted ?_
  cases cmd with
  | continueUpdate dryRun => exact h.elim
  | rebuild package reason dryRun => exact settles_rebuildPackage _
  | record cmd =>
      cases cmd with
      | import_ | update | sync | markPackageModified => exact h.elim
      | markModified package modified reason answer => exact settles_markModified rfl
      | setUpstream package args =>
          refine step_bind (steps_raiseIf _) fun _ w' hraise => ?_
          obtain ⟨-, rfl⟩ := raiseIf_ok_iff.mp hraise
          exact settles_setUpstream rfl

/-- An import, an update and a sync settle packages on bases they have resolved. -/
theorem PackageCommand.TakesUpstream.settles (h : c.2.TakesUpstream) :
    Settles (·.Justified c.1) w (PackageCommand.after c w) := by
  obtain ⟨env, cmd⟩ := c
  have hstarted : Settles (·.Justified env) w w.started := .of_same rfl rfl
  refine IsTrans.trans _ _ _ hstarted ?_
  cases cmd with
  | continueUpdate | rebuild => exact h.elim
  | record cmd =>
      cases cmd with
      | markModified | setUpstream | markPackageModified => exact h.elim
      | import_ url branch ref directory dryRun =>
          refine step_bind (steps_get _) fun _ _ hget => ?_
          obtain ⟨rfl, rfl⟩ := EStateM.Result.ok.inj hget
          refine step_bind (steps_raiseIf _) fun _ w' hraise => ?_
          exact settles_importInto
      | update package order skipBuildCheck dryRun allowPrerelease ref branch =>
          refine step_bind (Settles.of_clear rfl rfl) fun _ w' _ => ?_
          exact step_bind (steps_raiseIf w') fun _ w'' _ => settles_updateEach rfl w''
      | sync package dryRun mark ref branch => exact settles_update fun _ => rfl

/-- A base that has a release comes from the command itself, or from the state file it continues. -/
def Baseline.From (c : Env × PackageCommand) (w : World) (b : Baseline) : Prop :=
  c.2.TakesUpstream ∧ b.Resolved c.1 ∨ (∃ dryRun, c.2 = .continueUpdate dryRun) ∧ SavedBase w b

/-- **Step lemma**: a command keeps the base of a package, takes its release away, or settles it on one
that it has resolved or that the state file holds. -/
theorem after_settles :
    Settles (fun b => b.release ≠ none → b.From c w) w (PackageCommand.after c w) := by
  obtain ⟨env, cmd⟩ := c
  have takes (h : cmd.TakesUpstream) : Settles (fun b => b.release ≠ none → b.From (env, cmd) w) w
      (PackageCommand.after (env, cmd) w) :=
    (PackageCommand.TakesUpstream.settles (c := (env, cmd)) h).mono fun b hb hr => Or.inl ⟨h, hb hr⟩
  have keeps (h : cmd.Local) : Settles (fun b => b.release ≠ none → b.From (env, cmd) w) w
      (PackageCommand.after (env, cmd) w) := PackageCommand.Local.settles (c := (env, cmd)) h
  cases cmd with
  | rebuild => exact keeps trivial
  | continueUpdate dryRun =>
      have hstarted : Settles (SavedBase w) w w.started := .of_same rfl rfl
      have hrun : Settles (SavedBase w) w.started (final (continueUpdate env dryRun) w.started) :=
        settles_continueUpdate (w := w.started)
      exact (IsTrans.trans _ _ _ hstarted hrun).mono fun b hb _ => Or.inr ⟨⟨dryRun, rfl⟩, hb⟩
  | record cmd =>
      cases cmd with
      | import_ | update | sync => exact takes trivial
      | markModified | setUpstream => exact keeps trivial
      | markPackageModified package newVersion version =>
          exact settles_markPackageModified.mono fun b hb hr => absurd hb hr

/-! ## Sequences of commands -/

/-- A base that an import, an update or a sync of a sequence has resolved, or that was saved before. -/
def Baseline.Traced (w : World) (commands : List (Env × PackageCommand)) (b : Baseline) : Prop :=
  SavedBase w b ∨ ∃ c ∈ commands, c.2.TakesUpstream ∧ b.Resolved c.1

/-- Run lemma: what the state file holds was resolved by a command of the sequence. -/
theorem traced_of_saved {commands : List (Env × PackageCommand)} {b : Baseline}
    (h : SavedBase (runAll PackageCommand.after commands w) b) (hr : b.release ≠ none) :
    b.Traced w commands := by
  revert b
  refine runAll_invariant (fun before t => ∀ {b : Baseline}, SavedBase t b → b.release ≠ none →
    b.Traced w before) (fun h _ => Or.inl h) ?_
  intro before c t ih b h hr
  have hmono : b.Traced w before → b.Traced w (before ++ [c]) := by
    rintro (hsaved | ⟨c', hc', htakes⟩)
    · exact Or.inl hsaved
    · exact Or.inr ⟨c', List.mem_append_left _ hc', htakes⟩
  obtain ⟨s, m, hs, hm, rfl⟩ := h
  rcases after_settles.state s m hs hm with hkept | hnew
  · exact hmono (ih ⟨s, m, hkept, hm, rfl⟩ hr)
  · rcases hnew hr with htakes | ⟨-, hsaved⟩
    · exact Or.inr ⟨c, by simp, htakes⟩
    · exact hmono (ih hsaved hr)

/-- **`release_names_base`** — after every sequence of commands, a package whose record has a release
has kept its base throughout, or the last command that changed the base took it from upstream: it is an
import, an update or a sync that has resolved the base, or it continues an update, and the base is one
that was saved before the sequence or that an earlier command of these kinds has resolved.  Rebuilds,
`mark-modified` and `set-upstream` keep every base, and a version bump takes the release away. -/
theorem release_names_base :
    (∀ (w : World) (commands : List (Env × PackageCommand)) (p : Str) (b : Baseline),
      (runAll PackageCommand.after commands w).baseline p = some b → b.release ≠ none →
        Keeps PackageCommand.after (·.baseline p) w commands ∨
          ∃ before c later, LastChange PackageCommand.after (·.baseline p) w commands before c later ∧
            (c.2.TakesUpstream ∧ b.Resolved c.1 ∨
              (∃ dryRun, c.2 = .continueUpdate dryRun) ∧ b.Traced w before)) ∧
    (∀ (c : Env × PackageCommand) (w : World) (p : Str), c.2.Local →
      (PackageCommand.after c w).baseline p = w.baseline p) ∧
    (∀ (env : Env) (w : World) (p newVersion : Str) (version : Option Str) (b : Baseline),
      w.baseline p = some b →
        (PackageCommand.after (env, .record (.markPackageModified p newVersion version)) w).baseline p =
          some { b with version := version.getD b.version, release := none }) := by
  refine ⟨?_, ?_, ?_⟩
  · intro w commands p b hb hr
    rcases keeps_or_lastChange PackageCommand.after (·.baseline p) commands w with
      hkeeps | ⟨before, c, later, hlast⟩
    · exact Or.inl hkeeps
    · refine Or.inr ⟨before, c, later, hlast, ?_⟩
      have hwritten := hlast.view_eq.symm.trans hb
      rcases after_settles.record p with hsame | ⟨b', hb', hfrom⟩
      · exact absurd hsame hlast.changes
      · obtain rfl := Option.some.inj (hb'.symm.trans hwritten)
        rcases hfrom hr with htakes | ⟨hcontinue, hsaved⟩
        · exact Or.inl htakes
        · exact Or.inr ⟨hcontinue, traced_of_saved hsaved hr⟩
  · intro c w p hlocal
    have hkept : Settles (fun _ => False) w (PackageCommand.after c w) := hlocal.settles
    rcases hkept.record p with hsame | ⟨_, _, hfalse⟩
    · exact hsame
    · exact hfalse.elim
  · intro env w p newVersion version b hb
    obtain ⟨m, hm, rfl⟩ := Option.map_eq_some_iff.mp hb
    rw [after_markPackageModified hm]
    have hwritten : (w.started.setMetadata p
        (packageModified m (upstreamVersionReason newVersion) version)).baseline p =
          some (packageModified m (upstreamVersionReason newVersion) version).baseline := by
      simp [World.baseline, World.setMetadata]
    rw [hwritten]
    unfold packageModified PackageMetadata.baseline
    split
    · rfl
    · rfl

end

/-! ### Example repositories -/

/-- The content of a commit of Fedora's dist-git in the examples. -/
def exampleTree (commit : Str) : Tree :=
  Tree.ofList [("bash.spec", .text
    (if commit = "old".toList then "1" else if commit = "mid".toList then "2" else "3"))]

/-- Fedora's dist-git, where `git ls-remote` names one commit and a clone finds another one at the tip;
the version and the release of a spec file are its text. -/
def fedoraEnv (named tip : Str) : Env :=
  { Env.offline with
    fedoraReleases := [("f42", "fc42"), ("f43", "fc43")]
    lsRemote := fun _ _ => some (named ++ "\trefs/heads/f43\n".toList)
    clone := fun _ _ _ => some
      { tip := fun _ => some tip
        revParse := fun _ => none
        tree := fun commit => some (exampleTree commit)
        mergeBase := fun _ _ => none }
    rpmspec := fun dir path =>
      match dir.read path with
      | some (.text s) => .exited 0 (s ++ "\n".toList ++ s ++ "\n".toList) []
      | _ => .notStarted "rpmspec"
    commitOk := true }

/-- Fedora's dist-git of a package that uses `%autorelease`, which MDAPI knows nothing of. -/
def autoreleaseEnv : Env :=
  { importEnv with
    clone := fun _ _ _ => some
      { tip := fun _ => some "new"
        revParse := fun _ => none
        tree := fun _ => some (Tree.ofList [("zsh.spec", .text "Release: %autorelease\n")])
        mergeBase := fun _ _ => none } }

/-- `zsh` imported, its project set, and rebuilt. -/
def zshCommands : List (Env × PackageCommand) :=
  [(importEnv, .record (.import_ "fedora/zsh" "f42" none none false)),
    (Env.offline, .record (.setUpstream "zsh" { projectId := some "7" })),
    (importEnv, .rebuild "zsh" "glibc" false)]

def zshBase : Baseline where
  source := some "https://src.fedoraproject.org/rpms/zsh.git"
  branch := some "f42"
  sha := some "new"
  version := "2"
  release := some "1"

theorem release_names_base_zsh :
    letI := asciiTables
    (∃ before c later, LastChange PackageCommand.after (·.baseline "zsh") World.empty zshCommands before
      c later ∧ (c.2.TakesUpstream ∧ zshBase.Resolved c.1 ∨
        (∃ dryRun, c.2 = .continueUpdate dryRun) ∧ zshBase.Traced World.empty before)) ∧
    (PackageCommand.after (Env.offline, .rebuild "bash" "glibc" false) (bashWorld true)).baseline "bash" =
      (bashWorld true).baseline "bash" ∧
    (PackageCommand.after (Env.offline, .record (.markPackageModified "bash" "2" (some "2")))
      (bashWorld true)).baseline "bash" =
        some { bashMetadata.baseline with version := "2", release := none } := by
  let _ := asciiTables
  have hfinal : (runAll PackageCommand.after zshCommands World.empty).baseline "zsh" = some zshBase := by
    decide +kernel
  obtain ⟨hsequence, hlocal, hbump⟩ := release_names_base
  refine ⟨?_, hlocal _ _ _ trivial, hbump _ _ _ _ _ _ rfl⟩
  rcases hsequence World.empty zshCommands "zsh" zshBase hfinal (by decide) with hkeeps | hlast
  · exact absurd (hkeeps.view_eq.symm.trans hfinal) (by decide)
  · exact hlast

/-- Two version bumps, the second back to the version before the first, and a sync to another branch at
the recorded commit. -/
def branchCommands : List (Env × PackageCommand) :=
  [(Env.offline, .record (.markPackageModified "bash" "2" (some "2"))),
    (Env.offline, .record (.markPackageModified "bash" "1" (some "1"))),
    (fedoraEnv "old" "old", .record (.sync "bash" false false none (some "f43")))]

/-- A release in a record need not be the resolved one of the recorded commit: where MDAPI knows nothing
it is rpmspec's, and where the branch has moved since `git ls-remote` it is another commit's.  And the
last command that changed the version or the commit may be a version bump, when a sync to another branch
finds the same commit. -/
theorem release_not_base :
    letI := asciiTables
    (((runAll PackageCommand.after
        [(autoreleaseEnv, .record (.import_ "fedora/zsh" "f42" none none false))]
        World.empty).baseline "zsh").map (·.release) = some (some "1".toList) ∧
      usesAutorelease (Tree.ofList [("zsh.spec", .text "Release: %autorelease\n")]) = .ok true ∧
      queryAutoreleaseFromMdapi autoreleaseEnv "zsh" "f42" = .ok none) ∧
    (((runAll PackageCommand.after [(fedoraEnv "mid" "new", .record (.sync "bash" false false none none))]
        (bashWorld true)).baseline "bash").map (fun b => (b.sha, b.release)) =
          some (some "mid".toList, some "3".toList) ∧
      upstreamRelease (fedoraEnv "mid" "new") "https://src.fedoraproject.org/rpms/bash.git" "f42"
        (exampleTree "mid") = .ok ("2", "2")) ∧
    (((runAll PackageCommand.after branchCommands (bashWorld true)).baseline "bash").map (·.release) =
        some (some "1".toList) ∧
      LastChange PackageCommand.after (fun w => (w.baseline "bash").map fun b => (b.sha, b.version))
        (bashWorld true) branchCommands (branchCommands.take 1)
        (Env.offline, .record (.markPackageModified "bash" "1" (some "1"))) (branchCommands.drop 2)) := by
  let _ := asciiTables
  refine ⟨⟨?_, rfl, rfl⟩, ⟨?_, rfl⟩, ?_, rfl, ?_, ?_, trivial⟩
  all_goals decide +kernel

end HummingbirdRpms
