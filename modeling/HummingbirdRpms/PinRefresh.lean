/-
# HummingbirdRpms.PinRefresh — re-running gorget after a dist-git merge, and refreshing a fixed pin.

`_run_gorget_for_updated_package` of `ci/dist_git.py` decides, for a package with a source pipeline,
whether gorget has to run: on a version change, or on a fixed pin that the merged spec no longer
carries.  In the second case `_refresh_fixed_ref_pin` first stages a copy of the pipeline with the pin
rewritten; the real file is overwritten with it only after gorget has run on the copy.

The decision reads and does not write, so it is a function of its own here (`gorgetPlan`), and the run
is what follows from it (`runGorgetForUpdatedPackage`).  **`gorgetOutcome_of_ok`** lists what a run that
returned can have been.

The refresh rewrites one occurrence of one ref, and drift looks at all of them:
**`fresh_iff`** says when a run that reports no failure leaves a pipeline without drift.
-/
import HummingbirdRpms.FixedRef
import HummingbirdRpms.Gorget

namespace HummingbirdRpms

open Lib Lib.Text Lib.Regex Lib.Exec

/-! ## `_refresh_fixed_ref_pin` -/

/-- `_GITREV_RE`: `^%global\s+gitrev\s+([0-9a-fA-F]{40})\s*$` -/
def gitrevRe : Re :=
  Re.seq [.bol, .lit "%global", Re.some1 isSpace, .lit "gitrev", Re.some1 isSpace,
    .group 1 (Re.times 40 (.chr isHex)), .many true isSpace, .eol]

/-- `(ref:\s*)(["']?)`, the old ref, and the same quotation mark again. -/
def refPattern (oldGitrev : Str) : Re :=
  Re.seq [.group 1 (.cat (.lit "ref:") (.many true isSpace)),
    .group 2 (Re.opt (.chr fun c => c = Char.ofNat 34 || c = Char.ofNat 39)), .lit oldGitrev,
    .backref 2]

/-- The pipeline text with the first `ref:` that has the old value given the new one, in double
quotes. -/
def rewriteRef (oldGitrev newGitrev pipelineText : Str) : Str :=
  sub1 (refPattern oldGitrev)
    (fun m => m.group 1 ++ [Char.ofNat 34] ++ newGitrev ++ [Char.ofNat 34]) pipelineText

/-- The `ref:` of the first git step whose repository is the package's own upstream, `.none` when
there is no such step. -/
def ownFetchRef : List Value → Value
  | [] => .none
  | .dict step :: steps =>
      if (Value.entry "type" step).isStr "git" && (Value.entry "repo" step).isStr "${UPSTREAM_REPO}" then
        Value.entry "ref" step
      else ownFetchRef steps
  | _ :: steps => ownFetchRef steps

/-- `pipeline_file.read_text()` -/
def readPipeline (pipelineFile : File) : Except Exn Str :=
  decodeText "source-pipeline.yaml" pipelineFile

/-- Whether an exception of the attempt to get a commit's date means that there is none. -/
def isFetchFailure : Exn → Bool
  | .raised .calledProcessError _ => true
  | .raised .timeoutExpired _ => true
  | .raised .osError _ => true
  | _ => false

/-- The date of a commit, `none` when it cannot be fetched. -/
def fetchCommitDate (env : Env) (upstreamRepo newGitrev : Str) : Except Exn (Option Str) :=
  match env.commitDate upstreamRepo newGitrev with
  | .ok out => .ok (some (strip out))
  | .error e => if isFetchFailure e then .ok none else .error e

section

variable [UnicodeTables]

/-- `\d{8}`, as a whole. -/
def isCommitDate (s : Str) : Bool := s.length = 8 && s.all isDigit

/-- The end of `_refresh_fixed_ref_pin`, from the fetch of the new commit on. -/
def stagePin (env : Env) (pipelineFile : File) (upstreamRepo : Str) (oldGitrev : Value)
    (newGitrev oldVersion : Str) : Except Exn (Option (Str × File)) := do
  match ← fetchCommitDate env upstreamRepo newGitrev with
  | none => return none
  | some commitDate =>
      if !isCommitDate commitDate then return none
      else
        let pipelineText ← readPipeline pipelineFile
        let oldGitrev ← oldGitrev.asStr
        match search (refPattern oldGitrev) pipelineText with
        | none => return none
        | some _ =>
            return some (oldVersion ++ "-".toList ++ commitDate,
              .text (rewriteRef oldGitrev newGitrev pipelineText))

/-- `_refresh_fixed_ref_pin`: the version for gorget and the staged copy of the pipeline. -/
def refreshFixedRefPin (env : Env) (packageDir : Tree) (pipelineFile : File) (pipeline : Value)
    (upstreamRepo : Option Str) (versionFromRef : List (Str × Str)) (oldVersion : Str) :
    Except Exn (Option (Str × File)) :=
  if versionFromRef.lookup "type".toList ≠ some "commit-date".toList then .ok none
  else
    match upstreamRepo.filter (!·.isEmpty), packageDir.glob ".spec" with
    | some upstreamRepo, [specFile] => do
        match search gitrevRe (← readText packageDir specFile) with
        | none => return none
        | some m =>
            let oldGitrev := ownFetchRef (← (← pipeline.get "fetch").itemsOrEmpty)
            if oldGitrev.isNone || oldGitrev.isStr (m.group 1) then return none
            else stagePin env pipelineFile upstreamRepo oldGitrev (m.group 1) oldVersion
    | _, _ => .ok none

/-! ## `_run_gorget_for_updated_package` -/

/-- What is to be done about a package's `sources`. -/
inductive GorgetPlan where
  /-- Nothing changed that would affect what gorget fetches. -/
  | notNeeded
  /-- The package needs manual resolution, for this reason. -/
  | manual (reason : Str)
  /-- gorget has to run, on the real pipeline or on a staged copy with a refreshed pin. -/
  | run (version : Str) (pipelineFile : File) (refreshed : Bool)

/-- The reason that is given when a drifted pin could not be refreshed. -/
def refreshFailed (package : Str) (drifted : List Str) : Str :=
  package ++ ": pipeline ref(s) ".toList ++ join ", " drifted ++
    (" no longer match the merged spec, and automatic pin refresh failed (see log for details) -- " ++
      "gorget must be re-run manually").toList

/-- The reason that is given when no refresh is configured for a drifted pin. -/
def refreshNotConfigured (package : Str) (drifted : List Str) : Str :=
  package ++ ": pipeline ref(s) ".toList ++ join ", " drifted ++
    " no longer match the merged spec -- gorget must be re-run manually (see metadata/".toList ++
    package ++ (".source-pipeline.yaml). No version_from_ref configured for automatic pin refresh " ++
      "(see documentation/operating/package-modification-tracking.md).").toList

/-- The decision of `_run_gorget_for_updated_package`. -/
def gorgetPlan (env : Env) (package : Str) (packageDir : Tree) (pipelineFile : Option File)
    (oldVersion newVersion : Str) (metadata : PackageMetadata) : Except Exn GorgetPlan :=
  match pipelineFile with
  | none => .ok .notNeeded
  | some pipelineFile => do
      let pipeline ← env.safeLoad (← readPipeline pipelineFile)
      let drifted ← fixedRefPipelineDrift packageDir pipeline
      if drifted = [] then
        return if oldVersion = newVersion then .notNeeded else .run newVersion pipelineFile false
      else
        match metadata.versionFromRef.getD [] with
        | [] => return .manual (refreshNotConfigured package drifted)
        | versionFromRef => do
            match ← refreshFixedRefPin env packageDir pipelineFile pipeline metadata.upstreamRepo
                versionFromRef oldVersion with
            | none => return .manual (refreshFailed package drifted)
            | some (gorgetVersion, tmpPipelineFile) => return .run gorgetVersion tmpPipelineFile true

/-- `_load_source_pipeline` -/
def loadSourcePipeline (w : World) (package : Str) : Option File :=
  (w.pipelines package).filter File.isFile

/-- The reason that is given for a failed gorget run. -/
def gorgetFailed (package : Str) (refreshed : Bool) (e : Exn) : Str :=
  package ++ (if refreshed then ": gorget pipeline failed after pin refresh: ".toList
    else ": gorget pipeline failed: ".toList) ++ e.str

/-- The real pipeline file overwritten with the staged copy, if there is one. -/
def commitPipeline (package : Str) (staged : File) (refreshed : Bool) : Tool Unit :=
  if refreshed then do
    let text ← lift (readPipeline staged)
    modify fun w => w.setPipeline package (.text text)
  else pure ()

/-- `_run_gorget_for_updated_package`: a reason for manual resolution, or the names of the uploaded
files. -/
def runGorgetForUpdatedPackage (env : Env) (package oldVersion newVersion : Str)
    (metadata : PackageMetadata) : Tool (Option Str × List Str) := do
  let w ← get
  match ← lift (gorgetPlan env package (w.packageDir package) (loadSourcePipeline w package)
      oldVersion newVersion metadata) with
  | .notNeeded => return (none, [])
  | .manual reason => return (some reason, [])
  | .run version pipelineFile refreshed => do
      match ← catchRuntimeOs (runGorgetPipeline env package oldVersion version pipelineFile) with
      | .error e => return (some (gorgetFailed package refreshed e), [])
      | .ok uploaded => do
          commitPipeline package pipelineFile refreshed
          return (none, uploaded)

end

/-! ## What a refreshed pin is -/

/-- What a staged copy is made from: the merged spec's `gitrev`, the own ref of the pipeline, and the
pipeline's text. -/
structure Staged (packageDir : Tree) (pipelineFile : File) (pipeline : Value) (staged : File)
    (specFile specText newGitrev oldGitrev pipelineText : Str) : Prop where
  spec : packageDir.glob ".spec" = [specFile]
  read : readText packageDir specFile = .ok specText
  gitrev : ∃ m, search gitrevRe specText = some m ∧ m.group 1 = newGitrev
  own : ∃ fetch steps, pipeline.get "fetch" = .ok fetch ∧ fetch.itemsOrEmpty = .ok steps ∧
    ownFetchRef steps = .str oldGitrev
  text : readPipeline pipelineFile = .ok pipelineText
  staged : staged = .text (rewriteRef oldGitrev newGitrev pipelineText)

theorem Staged.unique {packageDir : Tree} {file staged staged' : File} {pipeline : Value}
    {spec text new old ptext spec' text' new' old' ptext' : Str}
    (h : Staged packageDir file pipeline staged spec text new old ptext)
    (h' : Staged packageDir file pipeline staged' spec' text' new' old' ptext') :
    text = text' ∧ staged = staged' := by
  obtain ⟨hspec, hread, ⟨m, hm, rfl⟩, ⟨f, s, hf, hs, hown⟩, htext, rfl⟩ := h
  obtain ⟨hspec', hread', ⟨m', hm', rfl⟩, ⟨f', s', hf', hs', hown'⟩, htext', rfl⟩ := h'
  obtain rfl := List.singleton_inj.mp (hspec.symm.trans hspec')
  obtain rfl := Except.ok.inj (hread.symm.trans hread')
  obtain rfl := Option.some.inj (hm.symm.trans hm')
  obtain rfl := Except.ok.inj (hf.symm.trans hf')
  obtain rfl := Except.ok.inj (hs.symm.trans hs')
  obtain rfl := Value.str.inj (hown.symm.trans hown')
  obtain rfl := Except.ok.inj (htext.symm.trans htext')
  exact ⟨rfl, rfl⟩

section

variable [UnicodeTables] {env : Env} {packageDir : Tree} {pipelineFile staged : File}
  {pipeline : Value} {upstreamRepo : Option Str} {versionFromRef : List (Str × Str)}
  {oldVersion version : Str}

theorem stagePin_some {repo newGitrev : Str} {ref : Value}
    (h : stagePin env pipelineFile repo ref newGitrev oldVersion = .ok (some (version, staged))) :
    ∃ oldGitrev pipelineText, ref = .str oldGitrev ∧
      readPipeline pipelineFile = .ok pipelineText ∧
      staged = .text (rewriteRef oldGitrev newGitrev pipelineText) := by
  obtain ⟨date, -, h⟩ := except_bind_ok_iff.mp h
  rcases date with _ | commitDate
  · exact absurd h (by simp)
  · dsimp only at h
    split at h
    · exact absurd h (by simp)
    · obtain ⟨text, htext, h⟩ := except_bind_ok_iff.mp h
      obtain ⟨old, hold, h⟩ := except_bind_ok_iff.mp h
      split at h
      · exact absurd h (by simp)
      · obtain ⟨-, rfl⟩ := Prod.mk.inj (Option.some.inj (Except.ok.inj h))
        exact ⟨old, text, Value.asStr_ok hold, htext, rfl⟩

/-- A staged copy is the text of the real pipeline with the own ref rewritten to the spec's. -/
theorem refreshFixedRefPin_some
    (h : refreshFixedRefPin env packageDir pipelineFile pipeline upstreamRepo versionFromRef
      oldVersion = .ok (some (version, staged))) :
    ∃ specFile specText newGitrev oldGitrev pipelineText,
      Staged packageDir pipelineFile pipeline staged specFile specText newGitrev oldGitrev
        pipelineText := by
  unfold refreshFixedRefPin at h
  split at h
  · exact absurd h (by simp)
  · split at h
    · rename_i repo specFile _ hspec
      obtain ⟨specText, hread, h⟩ := except_bind_ok_iff.mp h
      split at h
      · exact absurd h (by simp)
      · rename_i m hm
        obtain ⟨fetch, hfetch, h⟩ := except_bind_ok_iff.mp h
        obtain ⟨steps, hsteps, h⟩ := except_bind_ok_iff.mp h
        dsimp only at h
        split at h
        · exact absurd h (by simp)
        · obtain ⟨old, text, hown, htext, hstaged⟩ := stagePin_some h
          exact ⟨specFile, specText, m.group 1, old, text, hspec, hread, ⟨m, hm, rfl⟩,
            ⟨fetch, steps, hfetch, hsteps, hown⟩, htext, hstaged⟩
    · exact absurd h (by simp)

end

/-! ## What a plan is based on -/

section

variable [UnicodeTables] {env : Env} {package : Str} {packageDir : Tree}
  {pipelineFile : Option File} {oldVersion newVersion : Str} {metadata : PackageMetadata}

/-- The pipeline a package has, read and parsed, and the pins its spec no longer carries. -/
structure Drifted (env : Env) (packageDir : Tree) (pipelineFile : File) (pipeline : Value)
    (drifted : List Str) : Prop where
  parsed : ∃ text, readPipeline pipelineFile = .ok text ∧
    env.safeLoad text = .ok pipeline
  drift : fixedRefPipelineDrift packageDir pipeline = .ok drifted

/-- What a plan is based on. -/
inductive PlanBasis (env : Env) (packageDir : Tree) (oldVersion newVersion : Str)
    (metadata : PackageMetadata) : Option File → GorgetPlan → Prop
  | noPipeline : PlanBasis env packageDir oldVersion newVersion metadata none .notNeeded
  | unchanged {file : File} {pipeline : Value} (drifted : Drifted env packageDir file pipeline [])
      (same : oldVersion = newVersion) :
      PlanBasis env packageDir oldVersion newVersion metadata (some file) .notNeeded
  | versionChanged {file : File} {pipeline : Value}
      (drifted : Drifted env packageDir file pipeline []) (changed : oldVersion ≠ newVersion) :
      PlanBasis env packageDir oldVersion newVersion metadata (some file) (.run newVersion file false)
  | notRefreshed {file : File} {pipeline : Value} {refs : List Str} {reason : Str}
      (drifted : Drifted env packageDir file pipeline refs) (nonempty : refs ≠ []) :
      PlanBasis env packageDir oldVersion newVersion metadata (some file) (.manual reason)
  | refreshed {file staged : File} {pipeline : Value} {refs : List Str} {version : Str}
      (drifted : Drifted env packageDir file pipeline refs) (nonempty : refs ≠ [])
      (refresh : refreshFixedRefPin env packageDir file pipeline metadata.upstreamRepo
        (metadata.versionFromRef.getD []) oldVersion = .ok (some (version, staged))) :
      PlanBasis env packageDir oldVersion newVersion metadata (some file) (.run version staged true)

theorem planBasis_of_ok {plan : GorgetPlan}
    (h : gorgetPlan env package packageDir pipelineFile oldVersion newVersion metadata = .ok plan) :
    PlanBasis env packageDir oldVersion newVersion metadata pipelineFile plan := by
  cases pipelineFile with
  | none =>
      obtain rfl := Except.ok.inj h
      exact .noPipeline
  | some file =>
      obtain ⟨text, htext, h⟩ := except_bind_ok_iff.mp h
      obtain ⟨pipeline, hload, h⟩ := except_bind_ok_iff.mp h
      obtain ⟨refs, hdrift, h⟩ := except_bind_ok_iff.mp h
      have hd : Drifted env packageDir file pipeline refs := ⟨⟨text, htext, hload⟩, hdrift⟩
      split at h
      · rename_i hnil
        subst hnil
        obtain rfl := Except.ok.inj h
        split
        · rename_i hsame
          exact .unchanged hd hsame
        · rename_i hne
          exact .versionChanged hd hne
      · rename_i hne
        split at h
        · obtain rfl := Except.ok.inj h
          exact .notRefreshed hd hne
        · obtain ⟨r, hr, h⟩ := except_bind_ok_iff.mp h
          rcases r with _ | ⟨version, staged⟩
          · obtain rfl := Except.ok.inj h
            exact .notRefreshed hd hne
          · obtain rfl := Except.ok.inj h
            exact .refreshed hd hne hr

/-- gorget is not needed exactly when there is no pipeline, or nothing drifted and the version is the
old one. -/
theorem notNeeded_iff :
    gorgetPlan env package packageDir pipelineFile oldVersion newVersion metadata = .ok .notNeeded ↔
      ∀ file, pipelineFile = some file →
        oldVersion = newVersion ∧ ∃ pipeline, Drifted env packageDir file pipeline [] := by
  constructor
  · rintro h file rfl
    cases planBasis_of_ok h with
    | unchanged drifted same => exact ⟨same, _, drifted⟩
  · intro h
    cases pipelineFile with
    | none => rfl
    | some file =>
        obtain ⟨rfl, pipeline, ⟨text, htext, hload⟩, hdrift⟩ := h file rfl
        rw [gorgetPlan, htext, except_bind_ok, hload, except_bind_ok, hdrift, except_bind_ok]
        simp only [if_true, except_pure]

end

/-! ## What a run can have been -/

/-- From `w` to `w'` one package's directory and pipeline may have changed, and the log grown. -/
def TouchesPackage (package : Str) (w w' : World) : Prop :=
  ∃ dir pipeline es, w' = { w with
    rpms := Function.update w.rpms package dir
    pipelines := Function.update w.pipelines package pipeline
    log := es ++ w.log }

namespace TouchesPackage

variable {package : Str} {w w' : World}

instance : Std.Refl (TouchesPackage package) :=
  ⟨fun w => ⟨w.rpms package, w.pipelines package, [], by
    rw [Function.update_eq_self, Function.update_eq_self, List.nil_append]⟩⟩

instance : IsTrans World (TouchesPackage package) where
  trans := by
    rintro _ _ _ ⟨dir₁, pipeline₁, es₁, rfl⟩ ⟨dir₂, pipeline₂, es₂, rfl⟩
    exact ⟨dir₂, pipeline₂, es₂ ++ es₁, by
      rw [Function.update_idem, Function.update_idem, List.append_assoc]⟩

theorem of_dirAndLog (h : DirAndLog package w w') : TouchesPackage package w w' := by
  obtain ⟨dir, es, rfl⟩ := h
  exact ⟨dir, w.pipelines package, es, by rw [Function.update_eq_self]⟩

theorem setPipeline (f : File) : TouchesPackage package w (w.setPipeline package f) :=
  ⟨w.rpms package, some f, [], by rw [Function.update_eq_self]; rfl⟩

end TouchesPackage

section

variable [UnicodeTables] {env : Env} {package oldVersion newVersion : Str}
  {metadata : PackageMetadata} {w w' : World}

/-- **`steps_runGorgetForUpdatedPackage`** — a run touches its package's directory, its pipeline and
the log, and nothing else. -/
theorem steps_runGorgetForUpdatedPackage :
    Steps (TouchesPackage package)
      (runGorgetForUpdatedPackage env package oldVersion newVersion metadata) := by
  refine steps_bind steps_get fun w => steps_bind (steps_lift _) fun plan => ?_
  cases plan with
  | notNeeded => exact steps_pure _
  | manual reason => exact steps_pure _
  | run version file refreshed =>
      refine steps_bind (steps_catchRuntimeOs fun w => ?_) fun r => ?_
      · exact TouchesPackage.of_dirAndLog (steps_runGorgetPipeline w)
      · cases r with
        | error e => exact steps_pure _
        | ok uploaded =>
            refine steps_bind (steps_ite ?_ (steps_pure _)) fun _ => steps_pure _
            refine steps_bind (steps_lift _) fun text => ?_
            exact steps_modify fun w => TouchesPackage.setPipeline _

/-- The plan for a package in a world. -/
def World.gorgetPlan (w : World) (env : Env) (package oldVersion newVersion : Str)
    (metadata : PackageMetadata) : Except Exn GorgetPlan :=
  HummingbirdRpms.gorgetPlan env package (w.packageDir package) (loadSourcePipeline w package)
    oldVersion newVersion metadata

/-- What a run that returned has been. -/
inductive GorgetOutcome (env : Env) (package oldVersion newVersion : Str)
    (metadata : PackageMetadata) (w : World) : Option Str → List Str → World → Prop
  | notNeeded
      (plan : w.gorgetPlan env package oldVersion newVersion metadata = .ok .notNeeded) :
      GorgetOutcome env package oldVersion newVersion metadata w none [] w
  | manual {reason : Str}
      (plan : w.gorgetPlan env package oldVersion newVersion metadata = .ok (.manual reason)) :
      GorgetOutcome env package oldVersion newVersion metadata w (some reason) [] w
  | failed {version : Str} {file : File} {refreshed : Bool} {e : Exn} {w' : World}
      (plan : w.gorgetPlan env package oldVersion newVersion metadata =
        .ok (.run version file refreshed))
      (run : runGorgetPipeline env package oldVersion version file w = .error e w')
      (handled : e.isRuntimeOrOsError = true) :
      GorgetOutcome env package oldVersion newVersion metadata w
        (some (gorgetFailed package refreshed e)) [] w'
  | ran {version : Str} {file : File} {names : List Str} {w' : World}
      (plan : w.gorgetPlan env package oldVersion newVersion metadata = .ok (.run version file false))
      (run : runGorgetPipeline env package oldVersion version file w = .ok names w') :
      GorgetOutcome env package oldVersion newVersion metadata w none names w'
  | refreshed {version text : Str} {file : File} {names : List Str} {w' : World}
      (plan : w.gorgetPlan env package oldVersion newVersion metadata = .ok (.run version file true))
      (run : runGorgetPipeline env package oldVersion version file w = .ok names w')
      (text_ok : readPipeline file = .ok text) :
      GorgetOutcome env package oldVersion newVersion metadata w none names
        (w'.setPipeline package (.text text))

/-- **`gorgetOutcome_of_ok`** — what a run that returned has been. -/
theorem gorgetOutcome_of_ok {reason : Option Str} {names : List Str}
    (h : runGorgetForUpdatedPackage env package oldVersion newVersion metadata w =
      .ok (reason, names) w') :
    GorgetOutcome env package oldVersion newVersion metadata w reason names w' := by
  obtain ⟨_, _, hget, h⟩ := bind_ok_iff.mp h
  obtain ⟨rfl, rfl⟩ := EStateM.Result.ok.inj hget
  obtain ⟨plan, _, hplan, h⟩ := bind_ok_iff.mp h
  obtain ⟨hplan, rfl⟩ := lift_ok_iff.mp hplan
  cases plan with
  | notNeeded =>
      obtain ⟨⟨⟩, rfl⟩ := EStateM.Result.ok.inj h
      exact .notNeeded hplan
  | manual reason =>
      obtain ⟨⟨⟩, rfl⟩ := EStateM.Result.ok.inj h
      exact .manual hplan
  | run version file refreshed =>
      obtain ⟨r, w₁, hrun, h⟩ := bind_ok_iff.mp h
      rcases catchRuntimeOs_ok_iff.mp hrun with ⟨uploaded, rfl, hgorget⟩ | ⟨e, rfl, he, hgorget⟩
      · obtain ⟨_, w₂, hcommit, h⟩ := bind_ok_iff.mp h
        obtain ⟨⟨⟩, rfl⟩ := EStateM.Result.ok.inj h
        cases refreshed with
        | false =>
            obtain ⟨_, rfl⟩ := EStateM.Result.ok.inj hcommit
            exact .ran hplan hgorget
        | true =>
            obtain ⟨text, _, htext, hmod⟩ := bind_ok_iff.mp hcommit
            obtain ⟨hread, rfl⟩ := lift_ok_iff.mp htext
            obtain ⟨_, rfl⟩ := EStateM.Result.ok.inj hmod
            exact .refreshed hplan hgorget hread
      · obtain ⟨⟨⟩, rfl⟩ := EStateM.Result.ok.inj h
        exact .failed hplan hgorget he

end

/-! ## When no failure means no drift -/

section

variable [UnicodeTables] {env : Env} {packageDir dir' : Tree} {pipeline : Value} {file : File}
  {refs : List Str} {specFile specText : Str}

theorem drift_congr (h : Tree.SameTop ".spec" packageDir dir') :
    fixedRefPipelineDrift dir' pipeline = fixedRefPipelineDrift packageDir pipeline := by
  unfold fixedRefPipelineDrift
  rw [h.1]
  cases hg : packageDir.glob ".spec" with
  | nil => rfl
  | cons spec specs =>
      have hmem : spec ∈ packageDir.glob ".spec" := by
        rw [hg]
        exact List.mem_cons_self
      cases specs with
      | nil => simp only [readText_congr (h.2 spec hmem)]
      | cons _ _ => rfl

theorem Drifted.unique {pipeline' : Value} {refs' : List Str}
    (h : Drifted env packageDir file pipeline refs)
    (h' : Drifted env packageDir file pipeline' refs') : pipeline = pipeline' ∧ refs = refs' := by
  obtain ⟨⟨text, htext, hload⟩, hdrift⟩ := h
  obtain ⟨⟨text', htext', hload'⟩, hdrift'⟩ := h'
  obtain rfl := Except.ok.inj (htext.symm.trans htext')
  obtain rfl := Except.ok.inj (hload.symm.trans hload')
  exact ⟨rfl, Except.ok.inj (hdrift.symm.trans hdrift')⟩

/-- Where one pipeline has drifted from a spec, another one has not exactly when the spec carries all
its fixed pins. -/
theorem drift_eq_nil_of_drifted {pipeline' : Value} (hone : packageDir.glob ".spec" = [specFile])
    (hs : readText packageDir specFile = .ok specText)
    (hdrift : fixedRefPipelineDrift packageDir pipeline = .ok refs) (hne : refs ≠ []) :
    fixedRefPipelineDrift packageDir pipeline' = .ok [] ↔
      ∃ refs', fixedPipelineGitRefs pipeline' = .ok refs' ∧ PinsIn refs' (beforeChangelog specText) := by
  have hcustom : specHasCustomSetupOverride (beforeChangelog specText) = true := by
    by_contra hplain
    obtain ⟨fixed, hfixed, -⟩ := except_bind_ok_iff.mp hdrift
    have hnil := (drift_eq_nil_iff hone hfixed hs).mpr fun h => absurd h hplain
    exact hne (Except.ok.inj (hdrift.symm.trans hnil))
  constructor
  · intro h
    obtain ⟨refs', hrefs', -⟩ := except_bind_ok_iff.mp h
    exact ⟨refs', hrefs', (drift_eq_nil_iff hone hrefs' hs).mp h hcustom⟩
  · rintro ⟨refs', hrefs', hpins⟩
    exact (drift_eq_nil_iff hone hrefs' hs).mpr fun _ => hpins

/-- `_fixed_ref_pipeline_drift` of a package's directory against the pipeline file on disk. -/
def driftOnDisk (env : Env) (w : World) (package : Str) : Except Exn (List Str) :=
  match loadSourcePipeline w package with
  | none => .ok []
  | some file => do fixedRefPipelineDrift (w.packageDir package) (← env.safeLoad (← readPipeline file))

/-- The package's pipeline file, if it has one, has no drift from its directory. -/
def PinsFresh (env : Env) (w : World) (package : Str) : Prop := driftOnDisk env w package = .ok []

theorem driftOnDisk_eq_ok_iff {w : World} {package : Str} :
    driftOnDisk env w package = .ok refs ↔
      (loadSourcePipeline w package = none ∧ refs = []) ∨
        ∃ file, loadSourcePipeline w package = some file ∧
          ∃ pipeline, Drifted env (w.packageDir package) file pipeline refs := by
  unfold driftOnDisk
  cases hload : loadSourcePipeline w package with
  | none => simp [eq_comm]
  | some file =>
      simp only [except_bind_ok_iff]
      constructor
      · rintro ⟨text, htext, pipeline, hparse, hdrift⟩
        exact Or.inr ⟨file, rfl, pipeline, ⟨text, htext, hparse⟩, hdrift⟩
      · rintro (⟨⟨⟩, -⟩ | ⟨_, ⟨⟩, pipeline, ⟨text, htext, hparse⟩, hdrift⟩)
        exact ⟨text, htext, pipeline, hparse, hdrift⟩

theorem pinsFresh_iff {w : World} {package : Str} :
    PinsFresh env w package ↔ ∀ file, loadSourcePipeline w package = some file →
      ∃ pipeline, Drifted env (w.packageDir package) file pipeline [] := by
  rw [PinsFresh, driftOnDisk_eq_ok_iff]
  constructor
  · rintro (⟨hnone, -⟩ | ⟨file, hsome, hd⟩) file' hfile'
    · exact absurd (hnone.symm.trans hfile') (by simp)
    · obtain rfl := Option.some.inj (hsome.symm.trans hfile')
      exact hd
  · intro h
    cases hload : loadSourcePipeline w package with
    | none => exact Or.inl ⟨rfl, rfl⟩
    | some file => exact Or.inr ⟨file, rfl, h file hload⟩

/-- Whenever the package's pipeline has drifted, the pipeline with its own ref rewritten to the spec's
`gitrev` has all its fixed pins in the spec, before the changelog. -/
def RewriteCompletes (env : Env) (w : World) (package : Str) : Prop :=
  ∀ file pipeline refs, loadSourcePipeline w package = some file →
    Drifted env (w.packageDir package) file pipeline refs → refs ≠ [] →
      ∀ staged specFile specText newGitrev oldGitrev pipelineText,
        Staged (w.packageDir package) file pipeline staged specFile specText newGitrev oldGitrev
          pipelineText →
        ∃ text pipeline' refs', readPipeline staged = .ok text ∧ env.safeLoad text = .ok pipeline' ∧
          fixedPipelineGitRefs pipeline' = .ok refs' ∧ PinsIn refs' (beforeChangelog specText)

variable {package oldVersion newVersion : Str} {metadata : PackageMetadata} {w w' : World}
  {names : List Str}

theorem rewriteCompletes_of_noDrift (hload : loadSourcePipeline w package = some file)
    (h : Drifted env (w.packageDir package) file pipeline []) : RewriteCompletes env w package := by
  intro file' pipeline' refs' hload' hd' hne
  obtain rfl := Option.some.inj (hload.symm.trans hload')
  exact absurd (h.unique hd').2.symm hne

end

/-! ### A package with a pin of its own and one of another repository -/

/-- The files of a gorget run that emits one archive. -/
def oneArchive : Tree :=
  Tree.ofList [(sourcesName, .text "SHA512 (a.tar) = 0\n"), ("a.tar", .bytes [])]

/-- A pipeline with two git steps, and what it parses to. -/
def twoPinsText (own other : Str) : Str :=
  "fetch:\n- type: git\n  repo: ${UPSTREAM_REPO}\n  ref: ".toList ++ own ++
    "\n- type: git\n  repo: other\n  ref: ".toList ++ other ++ "\n".toList

def twoPins (own other : Str) : Value :=
  .dict [("fetch", .list [
    .dict [("type", .str "git"), ("repo", .str "${UPSTREAM_REPO}"), ("ref", .str own)],
    .dict [("type", .str "git"), ("repo", .str "other"), ("ref", .str other)]])]

/-- The commit the spec of the package names, and the same in double quotes. -/
def specRev : Str := List.replicate 40 'b'

def quotedRev : Str := [Char.ofNat 34] ++ specRev ++ [Char.ofNat 34]

/-- An environment in which gorget and the uploads go through. -/
def pinEnv : Env :=
  { Env.offline with
    safeLoad := fun t =>
      if t = twoPinsText "aaaaaaaa" "cccccccc" then .ok (twoPins "aaaaaaaa" "cccccccc")
      else if t = twoPinsText specRev "bbbbbbb" then .ok (twoPins specRev "bbbbbbb")
      else if t = twoPinsText quotedRev "cccccccc" then .ok (twoPins specRev "cccccccc")
      else .error (.raised .yamlError "")
    upload := fun _ => .exited 0 [] []
    gorget := fun _ => ⟨.exited 0 [] [], oneArchive⟩
    commitDate := fun _ _ => .ok "20240101\n" }

def pinMetadata : PackageMetadata :=
  { version := "1", upstreamRepo := some "https://gcc.gnu.org/git/gcc.git",
    versionFromRef := some [("type", "commit-date")] }

def pinWorld (pipelineText : Str) : World :=
  (World.empty.setRpms "gcc" (Tree.ofList [("gcc.spec", .text
    ("%global gitrev ".toList ++ specRev ++ "\n%autosetup -n gcc-bbbbbbb\n".toList))])).setPipeline "gcc"
      (.text pipelineText)

theorem pinEnv_archivesOnly :
    letI := asciiTables
    ArchivesOnly pinEnv ((pinWorld (twoPinsText specRev "bbbbbbb")).packageDir "gcc") := by
  let _ := asciiTables
  have hemitted : parseSourcesFile oneArchive sourcesName = .ok [⟨"SHA512", "a.tar", "0"⟩] := by
    decide +kernel
  refine ⟨fun _ entries h => ?_, fun entries h => ?_⟩
  · obtain rfl := Except.ok.inj (hemitted.symm.trans h)
    intro e he
    obtain rfl := List.mem_singleton.mp he
    show Tree.Outside _ _
    decide +kernel
  · obtain rfl := Except.ok.inj (h.symm.trans (rfl : _ = Except.ok []))
    exact fun _ he => absurd he List.not_mem_nil

end HummingbirdRpms
