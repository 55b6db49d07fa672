/-
# HummingbirdRpms.Repo — the repository the tools work on, and what git records of it.

A `World` is everything the tools read and write: the package directories under `rpms/`, the metadata
records and pipeline files under `metadata/`, `ci/package-overrides.yaml`, the state file of an
interrupted update, the git index and the commits.  It also keeps a log of what has left the machine
or cannot be read off the files afterwards: each lookaside upload, and each gorget run that returned.

A program over it is a `Prog Exn World`: an exception leaves the world as the writes so far have made
it.  The index and a commit hold, for each package, what git tracks of it; `gitAddPackage`, `gitReset`
and `gitCommit` are the three operations the tools stage and commit with.
-/
import Mathlib.Logic.Function.Basic
import HummingbirdRpms.Runtime

namespace HummingbirdRpms

open Lib Lib.Text Lib.Exec

/-! ## Package metadata -/

/-- `modification_status` -/
inductive ModificationStatus where
  | clean
  | modified
  | independent
  deriving DecidableEq

/-- `release_monitoring_project_id`: the number of an Anitya project, or an upstream name. -/
inductive ProjectId where
  | id (n : Int)
  | name (s : Str)
  deriving DecidableEq

/-- `PackageMetadata`: the fields of `metadata/<package>.json` that the tools here read or
write. -/
structure PackageMetadata where
  source : Option Str := none
  branch : Option Str := none
  sha : Option Str := none
  version : Str
  release : Option Str := none
  modificationStatus : Option ModificationStatus := none
  modificationReason : Option Str := none
  trackUpstream : Option Str := none
  releaseMonitoringProjectId : Option ProjectId := none
  upstreamRepo : Option Str := none
  versionFromRef : Option (List (Str × Str)) := none
  deriving DecidableEq

/-- What `.dist_git_update_state.json` holds. -/
structure UpdateState where
  package : Str
  commitMsg : Str
  metadata : Option PackageMetadata
  oldVersion : Option Str
  deriving DecidableEq

/-! ## Uploads -/

/-- The arguments `upload-to-lookaside-cache.sh` is called with. -/
structure UploadCommand where
  file : Str
  package : Str
  hashtype : Option Str := none
  bucket : Option Str := none
  deriving DecidableEq

/-- What the log keeps. -/
inductive Event where
  /-- The upload script was run, and this is what the file it was given held. -/
  | upload (cmd : UploadCommand) (file : Option File)
  /-- A gorget pipeline run for `package` returned, having read `pipeline` and written `sources`. -/
  | gorget (package : Str) (pipeline : File) (sources : Str)
  deriving DecidableEq

/-! ## The world -/

/-- What git tracks of one package. -/
structure Tracked where
  rpms : Tree
  metadata : Option PackageMetadata
  pipeline : Option File

structure Commit where
  message : Str
  content : Str → Tracked

structure World where
  /-- The `imports` dictionary of the running process. -/
  imports : Str → Option PackageMetadata
  /-- `metadata/<package>.json` -/
  metadata : Str → Option PackageMetadata
  /-- `rpms/<package>/` -/
  rpms : Str → Option Tree
  /-- `metadata/<package>.source-pipeline.yaml` -/
  pipelines : Str → Option File
  /-- `ci/package-overrides.yaml` -/
  overrides : Option File
  /-- `.dist_git_update_state.json` -/
  state : Option UpdateState
  index : Str → Tracked
  /-- The newest commit first. -/
  commits : List Commit
  /-- The newest event first. -/
  log : List Event

namespace World

variable (w : World) (p : Str)

/-- `rpms/<package>/`; the tools look into it only after they have found it there. -/
def packageDir : Tree := (w.rpms p).getD ∅

/-- What the newest commit tracks of a package. -/
def head : Tracked :=
  match w.commits with
  | c :: _ => c.content p
  | [] => ⟨∅, none, none⟩

def setImports (m : PackageMetadata) : World :=
  { w with imports := Function.update w.imports p (some m) }

def setMetadata (m : PackageMetadata) : World :=
  { w with metadata := Function.update w.metadata p (some m) }

def setRpms (t : Tree) : World := { w with rpms := Function.update w.rpms p (some t) }

def setPipeline (f : File) : World :=
  { w with pipelines := Function.update w.pipelines p (some f) }

def setIndex (t : Tracked) : World := { w with index := Function.update w.index p t }

def record (e : Event) : World := { w with log := e :: w.log }

end World

theorem packageDir_setRpms {w : World} {p : Str} {t : Tree} : (w.setRpms p t).packageDir p = t := by
  simp [World.packageDir, World.setRpms]

/-- A repository without packages and without commits. -/
def World.empty : World where
  imports _ := none
  metadata _ := none
  rpms _ := none
  pipelines _ := none
  overrides := none
  state := none
  index _ := ⟨∅, none, none⟩
  commits := []
  log := []

/-- What a tool under `ci/` does. -/
abbrev Tool (α : Type) := Prog Exn World α

/-- A run of a tool that ends in what is neither a `RuntimeError` nor an `OSError`. -/
def UnhandledIn {α : Type} (x : Tool α) (w : World) : Prop :=
  ∃ e w', x w = .error e w' ∧ e.isRuntimeOrOsError = false

section UnhandledIn

variable {α β : Type} {w : World}

theorem unhandledIn_bind {x : Tool α} {f : α → Tool β} :
    UnhandledIn (x >>= f) w ↔
      UnhandledIn x w ∨ ∃ a w', x w = .ok a w' ∧ UnhandledIn (f a) w' := by
  unfold UnhandledIn
  rw [run_bind]
  cases h : x w <;> simp

theorem unhandledIn_get_bind {f : World → Tool β} :
    UnhandledIn (get >>= f) w ↔ UnhandledIn (f w) w := Iff.rfl

theorem unhandledIn_modify_bind {g : World → World} {f : PUnit → Tool β} :
    UnhandledIn (modify g >>= f) w ↔ UnhandledIn (f ⟨⟩) (g w) := Iff.rfl

theorem not_unhandledIn_pure {a : α} : ¬ UnhandledIn (pure a) w := by
  rintro ⟨e, _, he, _⟩
  exact absurd he (by simp)

theorem unhandledIn_lift_bind {r : Except Exn α} {f : α → Tool β} :
    UnhandledIn (lift r >>= f) w ↔ Unhandled r ∨ ∃ a, r = .ok a ∧ UnhandledIn (f a) w := by
  cases r <;> simp [UnhandledIn, Unhandled, run_bind]

variable {c : Prop} [Decidable c] {e : Exn}

theorem not_unhandledIn_raiseIf (he : e.isRuntimeOrOsError = true) :
    ¬ UnhandledIn (raiseIf c e : Tool PUnit) w := by
  rintro ⟨e', _, h, hcls⟩
  rw [(raiseIf_error_iff.mp h).2.1, he] at hcls
  exact Bool.noConfusion hcls

theorem unhandledIn_raiseIf_bind (he : e.isRuntimeOrOsError = true) {f : PUnit → Tool β} :
    UnhandledIn (raiseIf c e >>= f) w ↔ ¬ c ∧ UnhandledIn (f ⟨⟩) w := by
  rw [unhandledIn_bind, or_iff_right (not_unhandledIn_raiseIf he)]
  constructor
  · rintro ⟨_, _, hok, h⟩
    obtain ⟨hc, rfl⟩ := raiseIf_ok_iff.mp hok
    exact ⟨hc, h⟩
  · rintro ⟨hc, h⟩
    exact ⟨⟨⟩, w, raiseIf_ok_iff.mpr ⟨hc, rfl⟩, h⟩

end UnhandledIn

/-- `try: x except (RuntimeError, OSError)`, with what was caught as the value. -/
def catchRuntimeOs {α : Type} (x : Tool α) : Tool (Except Exn α) :=
  tryCatch (do return .ok (← x)) fun e => if e.isRuntimeOrOsError then return .error e else throw e

section Catch

variable {α : Type} {x : Tool α} {w w' : World}

theorem catchRuntimeOs_of_ok {a : α} (h : x w = .ok a w') :
    catchRuntimeOs x w = .ok (.ok a) w' := by
  rw [catchRuntimeOs, run_tryCatch, run_bind_of_ok h]
  rfl

theorem catchRuntimeOs_of_error {e : Exn} (h : x w = .error e w') :
    catchRuntimeOs x w = if e.isRuntimeOrOsError then .ok (.error e) w' else .error e w' := by
  rw [catchRuntimeOs, run_tryCatch, run_bind_of_error h]
  show (if e.isRuntimeOrOsError then return .error e else throw e : Tool (Except Exn α)) w' = _
  split <;> rfl

theorem catchRuntimeOs_ok_iff {r : Except Exn α} :
    catchRuntimeOs x w = .ok r w' ↔
      (∃ a, r = .ok a ∧ x w = .ok a w') ∨
        ∃ e, r = .error e ∧ e.isRuntimeOrOsError = true ∧ x w = .error e w' := by
  cases h : x w with
  | ok a t =>
      rw [catchRuntimeOs_of_ok h]
      constructor
      · intro heq
        obtain ⟨rfl, rfl⟩ := EStateM.Result.ok.inj heq
        exact Or.inl ⟨a, rfl, rfl⟩
      · rintro (⟨_, rfl, ⟨⟩⟩ | ⟨_, _, _, ⟨⟩⟩)
        rfl
  | error e t =>
      rw [catchRuntimeOs_of_error h]
      constructor
      · intro heq
        split at heq
        · rename_i he
          obtain ⟨rfl, rfl⟩ := EStateM.Result.ok.inj heq
          exact Or.inr ⟨e, rfl, he, rfl⟩
        · exact absurd heq (by simp)
      · rintro (⟨_, _, ⟨⟩⟩ | ⟨_, rfl, he, ⟨⟩⟩)
        exact if_pos he

theorem catchRuntimeOs_error_iff {e : Exn} :
    catchRuntimeOs x w = .error e w' ↔ x w = .error e w' ∧ e.isRuntimeOrOsError = false := by
  cases h : x w with
  | ok a t =>
      rw [catchRuntimeOs_of_ok h]
      simp
  | error e' t =>
      rw [catchRuntimeOs_of_error h]
      constructor
      · intro heq
        split at heq
        · exact absurd heq (by simp)
        · rename_i he
          obtain ⟨rfl, rfl⟩ := EStateM.Result.error.inj heq
          exact ⟨rfl, by simpa using he⟩
      · rintro ⟨⟨⟩, he⟩
        exact if_neg (by simp [he])

theorem steps_catchRuntimeOs {R : World → World → Prop} [Std.Refl R] [IsTrans World R]
    (h : Steps R x) : Steps R (catchRuntimeOs x) :=
  steps_tryCatch (steps_bind h fun _ => steps_pure _) fun e =>
    steps_ite (steps_pure _) (steps_throw e)

end Catch

/-- `sys.exit(message)` -/
def exit {α : Type} (message : Str) : Except Exn α := .error (.systemExit (.message message))

/-! ## Git -/

/-- The files of a directory tree: version control keeps no empty directory. -/
def gitFiles (t : Tree) : Tree := t.restrict t.isFile

@[simp] theorem read_gitFiles {t : Tree} {q : Path} :
    (gitFiles t).read q = if t.isFile q then t.read q else none := Tree.read_restrict

@[simp] theorem isFile_gitFiles {t : Tree} {q : Path} : (gitFiles t).isFile q = t.isFile q := by
  rw [Tree.isFile, read_gitFiles]
  cases h : t.isFile q with
  | true => exact h
  | false => rfl

theorem read_gitFiles_congr {t t' : Tree} {q : Path} (h : t'.read q = t.read q) :
    (gitFiles t').read q = (gitFiles t).read q := by
  have hf : t'.isFile q = t.isFile q := congrArg (Option.any File.isFile) h
  rw [read_gitFiles, read_gitFiles, hf, h]

/-- `git add -f rpms/<package> metadata/<package>.json [metadata/<package>.source-pipeline.yaml]` -/
def gitAddPackage (p : Str) (withMetadata withPipeline : Bool) : Tool Unit :=
  modify fun w => w.setIndex p
    { rpms := gitFiles (w.packageDir p)
      metadata := if withMetadata then w.metadata p else (w.index p).metadata
      pipeline := if withPipeline then w.pipelines p else (w.index p).pipeline }

/-- `git add metadata/<package>.json` -/
def gitAddMetadata (p : Str) : Tool Unit :=
  modify fun w => w.setIndex p { w.index p with metadata := w.metadata p }

/-- The index entry of a path set back to what `head` tracks there. -/
def resetPath (head index : Tree) (q : Path) : Tree :=
  match head.read q with
  | some f => index.write q f
  | none => index.remove q

/-- `git reset -- rpms/<package>/<name> …` -/
def gitReset (p : Str) (names : List Path) : Tool Unit :=
  modify fun w => w.setIndex p
    { w.index p with rpms := names.foldl (resetPath (w.head p).rpms) (w.index p).rpms }

/-- `git commit -m <message>`: the index becomes a commit, unless git refuses (`ok` is false: nothing
to commit, a failing hook). -/
def gitCommit (ok : Bool) (message : Str) : Tool Unit :=
  if ok then modify fun w => { w with commits := ⟨message, w.index⟩ :: w.commits }
  else throw (.raised .calledProcessError "git commit")

theorem read_resetPath {head index : Tree} {q q' : Path} :
    (resetPath head index q).read q' = if q' = q then head.read q else index.read q' := by
  unfold resetPath
  split
  · rename_i f hf
    rw [Tree.read_write, hf]
  · rename_i hf
    rw [Tree.read_remove, hf]

/-- After a reset the named paths are what the last commit tracks, the others are untouched. -/
theorem read_foldl_resetPath {head : Tree} {names : List Path} {index : Tree} {q : Path} :
    (names.foldl (resetPath head) index).read q =
      if q ∈ names then head.read q else index.read q := by
  induction names generalizing index with
  | nil => simp
  | cons n names ih =>
      rw [List.foldl_cons, ih, read_resetPath]
      by_cases hq : q ∈ names
      · simp [hq]
      · by_cases hn : q = n <;> simp [hq, hn]

end HummingbirdRpms
