/-
# HummingbirdRpms.Manual — a gorget run that raises, and the manual resolution it should lead to.

The gorget step catches `RuntimeError` and `OSError`: a run that raises one of them becomes a reason for
manual resolution, for which `update` writes its state file and exits with status 2, and
`continue_update` keeps the state file and exits with a message.  Whatever else the run raises goes
through both commands as it is.

**`endsManually_iff`** says for which runs that is, over every way `_run_gorget_pipeline` can raise.
-/
import HummingbirdRpms.Provenance

namespace HummingbirdRpms

open Lib Lib.Text Lib.Exec

theorem interrupted_complete {package : Str} {args : UpdateArgs} {t : Target} {plan : UpdatePlan}
    {reason : Option Str} : ¬ (interrupted package args t plan reason).Incomplete := by
  rintro (h | h)
  · exact absurd h (by simp [interrupted])
  · exact absurd h (by simp [interrupted])

section

variable [UnicodeTables] {env : Env} {w w₁ w₂ : World} {cmd : Command}
  {package oldVersion newVersion : Str} {metadata : PackageMetadata}

/-! ## How a command ends after the gorget step -/

/-- A command ends in manual resolution: an update by its state file and status 2, a continued update
by its message, with the state file as it was. -/
inductive EndsManually (env : Env) (w : World) : Command → Prop
  | update {package : Str} {args : UpdateArgs} {w' : World} {s : UpdateState}
      (exit : update env package args w = .error (.systemExit (.code 2)) w')
      (state : w'.state = some s) (same : s.package = package) (complete : ¬ s.Incomplete)
      (marked : manualGorgetPrefix <+: s.commitMsg) : EndsManually env w (.update package args)
  | continueUpdate {dryRun : Bool} {w' : World} {reason : Str}
      (exit : continueUpdate env dryRun w = .error (.systemExit (.message (statePreserved reason))) w')
      (state : w'.state = w.state) : EndsManually env w (.continueUpdate dryRun)

theorem continueGorget_eq {s : UpdateState} (saved : s.metadata = some metadata)
    (old : s.oldVersion = some oldVersion) :
    continueGorget env false s =
      runGorgetForUpdatedPackage env s.package oldVersion metadata.version metadata := by
  simp only [continueGorget, saved, old, gorgetStep, if_neg Bool.false_ne_true]

/-- A gorget step that gives a reason ends the command in manual resolution. -/
theorem endsManually_of_reason {reason : Str} {names : List Str}
    (call : GorgetCall env w cmd package oldVersion newVersion metadata w₁)
    (step : runGorgetForUpdatedPackage env package oldVersion newVersion metadata w₁ =
      .ok (some reason, names) w₂) : EndsManually env w cmd := by
  cases call with
  | update decision wet clean placed =>
      have hrun := (update_of_apply decision).trans (applyUpdate_eq wet clean placed)
      rw [step] at hrun
      refine .update hrun rfl rfl interrupted_complete ?_
      exact (List.prefix_append _ _).trans (List.prefix_append _ _)
  | continueUpdate state exists_dir resolved saved old =>
      have hrun := @continueUpdate_eq _ env _ _ state exists_dir resolved
      rw [continueGorget_eq saved old, step] at hrun
      obtain ⟨_, _, _, rfl⟩ := steps_runGorgetForUpdatedPackage.ok step
      exact .continueUpdate hrun rfl

/-- What the gorget step raises goes through the command. -/
theorem run_of_raise {e : Exn}
    (call : GorgetCall env w cmd package oldVersion newVersion metadata w₁)
    (step : runGorgetForUpdatedPackage env package oldVersion newVersion metadata w₁ = .error e w₂) :
    cmd.run env w = .error e w₂ := by
  cases call with
  | update decision wet clean placed =>
      have hrun := (update_of_apply decision).trans (applyUpdate_eq wet clean placed)
      rwa [step] at hrun
  | continueUpdate state exists_dir resolved saved old =>
      have hrun := @continueUpdate_eq _ env _ _ state exists_dir resolved
      rwa [continueGorget_eq saved old, step] at hrun

/-- A command that raises an exception does not end in manual resolution. -/
theorem not_endsManually_of_raise {cls : ExnClass} {m : Str}
    (h : cmd.run env w = .error (.raised cls m) w₂) : ¬ EndsManually env w cmd := by
  rintro (⟨hexit, -⟩ | ⟨hexit, -⟩)
  · exact absurd (h.symm.trans hexit) (by simp)
  · exact absurd (h.symm.trans hexit) (by simp)

/-! ## A gorget run that raises -/

variable {version : Str} {file : File} {refreshed : Bool}

/-- The gorget step on a run that raises: handled, it gives a reason, else it raises the same. -/
theorem gorgetStep_of_raise {e : Exn}
    (plan : w₁.gorgetPlan env package oldVersion newVersion metadata =
      .ok (.run version file refreshed))
    (raised : runGorgetPipeline env package oldVersion version file w₁ = .error e w₂) :
    runGorgetForUpdatedPackage env package oldVersion newVersion metadata w₁ =
      if e.isRuntimeOrOsError then .ok (some (gorgetFailed package refreshed e), []) w₂
      else .error e w₂ := by
  unfold runGorgetForUpdatedPackage
  rw [run_bind_of_ok (run_get w₁), run_bind,
    show gorgetPlan env package (w₁.packageDir package) (loadSourcePipeline w₁ package) oldVersion
      newVersion metadata = .ok (.run version file refreshed) from plan, lift_ok]
  dsimp only
  rw [run_bind, catchRuntimeOs_of_error raised]
  cases e.isRuntimeOrOsError with
  | true => rfl
  | false => rfl

/-- **`endsManually_iff`** — a gorget run that raises an exception ends its command in manual
resolution exactly when it did not raise in one of the ways that nothing handles. -/
theorem endsManually_iff {cls : ExnClass} {m : Str}
    (call : GorgetCall env w cmd package oldVersion newVersion metadata w₁)
    (plan : w₁.gorgetPlan env package oldVersion newVersion metadata =
      .ok (.run version file refreshed))
    (raised : runGorgetPipeline env package oldVersion version file w₁ = .error (.raised cls m) w₂) :
    EndsManually env w cmd ↔ ¬ GorgetUnhandled env w₁ package oldVersion version file := by
  rw [← runGorgetPipeline_unhandled_iff]
  have hstep := gorgetStep_of_raise plan raised
  cases he : (Exn.raised cls m).isRuntimeOrOsError with
  | true =>
      rw [if_pos he] at hstep
      refine iff_of_true (endsManually_of_reason call hstep) ?_
      rintro ⟨e', w', hrun, he'⟩
      obtain ⟨rfl, -⟩ := EStateM.Result.error.inj (raised.symm.trans hrun)
      exact absurd (he.symm.trans he') (by simp)
  | false =>
      rw [if_neg (by simp [he])] at hstep
      refine iff_of_false (not_endsManually_of_raise (run_of_raise call hstep)) ?_
      exact fun h => h ⟨_, _, raised, he⟩

/-- What goes through an update leaves the new directory in place, with the old record and no state
file of its own. -/
theorem update_of_unhandled {args : UpdateArgs} {e : Exn}
    (call : GorgetCall env w (.update package args) package oldVersion newVersion metadata w₁)
    (plan : w₁.gorgetPlan env package oldVersion newVersion metadata =
      .ok (.run version file refreshed))
    (raised : runGorgetPipeline env package oldVersion version file w₁ = .error e w₂)
    (he : e.isRuntimeOrOsError = false) :
    update env package args w = .error e w₂ ∧ w₂.metadata = w.metadata ∧ w₂.state = w.state := by
  have hstep := gorgetStep_of_raise plan raised
  rw [if_neg (by simp [he])] at hstep
  refine ⟨run_of_raise call hstep, ?_⟩
  obtain ⟨dir, es, rfl⟩ := steps_runGorgetPipeline.error raised
  cases call with
  | update => exact ⟨rfl, rfl⟩

end

/-! ### A private upstream repository without a token -/

/-- The package with an upstream repository under the private prefix. -/
def privateGccWorld : World :=
  let metadata := { gccMetadata .clean with
    upstreamRepo := some (hummingbirdSrcPrefix ++ "gcc.git".toList) }
  { gccWorld .clean oldGcc with imports := fun _ => some metadata, metadata := fun _ => some metadata }

/-- The pipeline file of the package. -/
def gccPipeline : File := .text "fetch: []\n"

/-- The gorget run of an update from version 1 to 2, up to the call. -/
def newVersionCall [UnicodeTables] (env : Env) (w : World) (package : Str) (t : Target)
    (plan : UpdatePlan) (dir : Tree) : Bool :=
  t.metadata.version = "1".toList && plan.version = "2".toList &&
    match (w.setRpms package dir).gorgetPlan env package t.metadata.version plan.version t.metadata with
    | .ok (.run version file refreshed) => version = "2".toList && file = gccPipeline && !refreshed &&
        dir.entries = respunGcc.entries
    | _ => false

theorem gorgetCall_of_newVersion [UnicodeTables] {env : Env} {w : World} {package : Str}
    {args : UpdateArgs} (h : reachesGorget env w package args (newVersionCall env w package) = true) :
    ∃ metadata, GorgetCall env w (.update package args) package "1" "2" metadata
        (w.setRpms package respunGcc) ∧
      (w.setRpms package respunGcc).gorgetPlan env package "1" "2" metadata =
        .ok (.run "2" gccPipeline false) := by
  obtain ⟨t, plan, dir, htest, hcall⟩ := gorgetCall_of_reaches h
  unfold newVersionCall at htest
  simp only [Bool.and_eq_true, decide_eq_true_eq] at htest
  obtain ⟨⟨hold, hnew⟩, htest⟩ := htest
  split at htest
  · rename_i version file refreshed hplan
    simp only [Bool.and_eq_true, decide_eq_true_eq, Bool.not_eq_true'] at htest
    obtain ⟨⟨⟨rfl, rfl⟩, rfl⟩, hdir⟩ := htest
    obtain rfl := AList.ext hdir
    rw [hold, hnew] at hcall hplan
    exact ⟨_, hcall, hplan⟩
  · exact absurd htest Bool.false_ne_true

set_option maxRecDepth 4000 in
/-- The clone environment raises a `ValueError`, and so does the update: the upstream's directory is in
place, and there is no state file. -/
theorem update_raises_without_token :
    letI := asciiTables
    ∃ metadata m w₂, GorgetCall (gccEnv oldGcc respunGcc "2") privateGccWorld uncheckedUpdate "gcc" "1" "2"
        metadata (privateGccWorld.setRpms "gcc" respunGcc) ∧
      runGorgetPipeline (gccEnv oldGcc respunGcc "2") "gcc" "1" "2" gccPipeline
        (privateGccWorld.setRpms "gcc" respunGcc) = .error (.raised .valueError m) w₂ ∧
      ¬ EndsManually (gccEnv oldGcc respunGcc "2") privateGccWorld uncheckedUpdate ∧
      final (uncheckedUpdate.run (gccEnv oldGcc respunGcc "2")) privateGccWorld = w₂ ∧
      w₂.packageDir "gcc" = respunGcc ∧ w₂.state = none := by
  let _ := asciiTables
  have hreach : reachesGorget (gccEnv oldGcc respunGcc "2") privateGccWorld "gcc" { skipBuildCheck := true }
      (newVersionCall (gccEnv oldGcc respunGcc "2") privateGccWorld "gcc") = true := by
    decide +kernel
  have hraise : raises (runGorgetPipeline (gccEnv oldGcc respunGcc "2") "gcc" "1" "2" gccPipeline)
      (privateGccWorld.setRpms "gcc" respunGcc) (fun e w₂ =>
        e.isA .valueError &&
          (w₂.packageDir "gcc").entries = respunGcc.entries && w₂.state = none) = true := by
    decide +kernel
  obtain ⟨metadata, hcall, hplan⟩ := gorgetCall_of_newVersion hreach
  obtain ⟨e, w₂, hrun, htest⟩ := raises_iff.mp hraise
  simp only [Bool.and_eq_true, decide_eq_true_eq] at htest
  obtain ⟨⟨hcls, hdir⟩, hstate⟩ := htest
  obtain ⟨m, rfl⟩ := Exn.isA_iff.mp hcls
  have hstep := gorgetStep_of_raise hplan hrun
  rw [if_neg (by simp [Exn.isRuntimeOrOsError])] at hstep
  have hend := run_of_raise hcall hstep
  exact ⟨metadata, m, w₂, hcall, hrun, not_endsManually_of_raise hend, final_of_error hend,
    AList.ext hdir, hstate⟩

/-- The environment in which gorget exits with status 1. -/
def failingGorget : Env :=
  { gccEnv oldGcc respunGcc "2" with gorget := fun _ => { proc := .exited 1 [] [] } }

set_option maxRecDepth 4000 in
/-- A gorget run that fails raises a `RuntimeError`, and the update ends in manual resolution. -/
theorem endsManually_iff_failing_gorget :
    letI := asciiTables
    EndsManually failingGorget (gccWorld .clean oldGcc) uncheckedUpdate := by
  let _ := asciiTables
  have hreach : reachesGorget failingGorget (gccWorld .clean oldGcc) "gcc" { skipBuildCheck := true }
      (newVersionCall failingGorget (gccWorld .clean oldGcc) "gcc") = true := by
    decide +kernel
  have hraise : raises (runGorgetPipeline failingGorget "gcc" "1" "2" gccPipeline)
      ((gccWorld .clean oldGcc).setRpms "gcc" respunGcc)
      (fun e _ => e.isA .runtimeError) = true := by
    decide +kernel
  obtain ⟨metadata, hcall, hplan⟩ := gorgetCall_of_newVersion hreach
  obtain ⟨e, w₂, hrun, hcls⟩ := raises_iff.mp hraise
  obtain ⟨m, rfl⟩ := Exn.isA_iff.mp hcls
  refine (endsManually_iff hcall hplan hrun).mpr fun hunhandled => ?_
  obtain ⟨e', _, hrun', he'⟩ := runGorgetPipeline_unhandled_iff.mpr hunhandled
  obtain ⟨rfl, -⟩ := EStateM.Result.error.inj (hrun.symm.trans hrun')
  exact absurd he' (by simp [Exn.isRuntimeOrOsError])

end HummingbirdRpms
