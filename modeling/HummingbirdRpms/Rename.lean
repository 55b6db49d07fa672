/-
# HummingbirdRpms.Rename — renaming a package, and what the tools find under its name.

`rename` of `ci/dist_git.py` moves the directory and the metadata record of a package whose spec file
has a new name, edits its entry of `ci/package-overrides.yaml` as text and records the new name.  The
tools look up three more things by the name of a package: the source pipeline and the update hooks under
`metadata/`, and the test under `test/rpms/`.

A rename is complete when each of the six artifacts is found under the new name exactly as it was under
the old one, none under the old name, and those of other packages are what they were (`Complete`).
**`rename_complete_iff`** says for which repositories that holds: those with no pipeline, hooks or test
under either name, and with overrides in which the edited entry is the only one that counts.
-/
import HummingbirdRpms.FlatYaml

namespace HummingbirdRpms

open Lib Lib.Text Lib.Exec FlatYaml

/-! ## The repository -/

/-- What a rename reads and writes, and what the tools look up by the name of a package. -/
structure Checkout where
  /-- `rpms/<package>/` -/
  rpms : Str → Option Tree
  /-- `metadata/<package>.json` -/
  metadata : Str → Option File
  /-- `metadata/<package>.source-pipeline.yaml` -/
  pipelines : Str → Option File
  /-- `metadata/<package>.update-hooks.yaml` -/
  hooks : Str → Option File
  /-- `ci/package-overrides.yaml` -/
  overrides : FlatFile
  /-- `test/rpms/<package>.yml` -/
  tests : Str → Option File
  /-- `renamed_packages.json`, or how reading it fails. -/
  renamedPackages : Option (Except Exn (List (Str × Str)))
  /-- The messages of the commits, the newest first. -/
  commits : List Str

/-- The directories, and the programs and the library that a rename calls. -/
structure RenameEnv where
  rpmsDir : Str
  metadataDir : Str
  /-- The name that the specfile library reads off a spec file in a directory. -/
  specName : Tree → Path → Except Exn PackageName
  /-- The output of `git show HEAD:<path>`; `none` when git fails. -/
  headText : Path → Option Str
  /-- Whether `git mv` of a path goes through. -/
  gitMv : Path → Bool
  /-- Whether `make generate` goes through. -/
  makeGenerate : Bool
  /-- Whether `git add` and `git commit` go through. -/
  commitOk : Bool

/-! ## `rename` -/

section

variable (env : RenameEnv) (old : PackageName)

/-- `<package>.spec` -/
def specFileName (p : PackageName) : Path := p.name ++ ".spec".toList

/-- The files that are copied next to the committed spec file. -/
def loadable (p : Path) : Bool := !p.contains '/' && !(endsWith ".spec" p && p != ".spec".toList)

/-- `rename_spec_validate` -/
def renameSpecValidate (dir : Tree) : Except Exn PackageName := do
  let new ← env.specName dir (specFileName old)
  match env.headText ("rpms/".toList ++ old.name ++ "/".toList ++ specFileName old) with
  | none => .error (.systemExit (.message ("ERROR: Could not retrieve original spec file from git: rpms/".toList ++
      old.name ++ "/".toList ++ specFileName old)))
  | some text =>
      let tmpdir := (dir.restrict fun p => loadable p && dir.isFile p).write (specFileName old) (.text text)
      let original ← env.specName tmpdir (specFileName old)
      failIf (original.name = new.name) (.systemExit (.message ("ERROR: Name field in ".toList ++
        specFileName old ++ " has not been changed (still '".toList ++ new.name ++
        ("')\n       Please edit the spec file and change the Name: field before running rename").toList)))
      return new

/-- What is kept under a name, kept under another one. -/
def move {α : Type} (f : Str → Option α) (old new : Str) : Str → Option α :=
  Function.update (Function.update f new (f old)) old none

/-- `update_rename_record` -/
def updateRenameRecord (new : PackageName) : Prog Exn Checkout Unit := do
  let c ← get
  let renames ← lift (c.renamedPackages.getD (.ok []))
  if renames.any (·.1 = new.name) then pure ()
  else modify fun c => { c with renamedPackages := some (.ok ((new.name, old.name) :: renames)) }

/-- `sys.exit` of a check of a path. -/
def exitOn (what path state : Str) : Exn :=
  .systemExit (.message ("ERROR: Package ".toList ++ what ++ path ++ state))

/-- `rpms/<package>` as a full path. -/
def directoryPath (p : PackageName) : Str := env.rpmsDir ++ "/".toList ++ p.name

/-- `metadata/<package>.json` as a full path. -/
def recordPath (p : PackageName) : Str := env.metadataDir ++ "/".toList ++ p.name ++ ".json".toList

/-- `run_git`, with `check`. -/
def runGit (ok : Bool) : Prog Exn Checkout PUnit :=
  raiseIf (ok = false) (.raised .calledProcessError "git")

/-- The steps once the new name is known. -/
def renameTo (new : PackageName) : Prog Exn Checkout Unit := do
  let c ← get
  raiseIf ((c.rpms new.name).isSome) (exitOn "directory " (directoryPath env new) " already exists")
  raiseIf ((c.metadata old.name).isNone) (exitOn "metadata file " (recordPath env old) " does not exist")
  raiseIf ((c.metadata new.name).isSome) (exitOn "metadata file " (recordPath env new) " already exists")
  runGit (env.gitMv ("rpms/".toList ++ old.name))
  modify fun c => { c with rpms := move c.rpms old.name new.name }
  runGit (env.gitMv ("metadata/".toList ++ old.name ++ ".json".toList))
  modify fun c => { c with metadata := move c.metadata old.name new.name }
  modify fun c => { c with overrides := c.overrides.renameKey old new }
  updateRenameRecord old new
  raiseIf (env.makeGenerate = false) (.raised .calledProcessError "make generate")
  runGit env.commitOk
  modify fun c => { c with
    commits := ("Rename ".toList ++ old.name ++ " to ".toList ++ new.name) :: c.commits }

/-- `rename`, which returns the new name here. -/
def rename : Prog Exn Checkout PackageName := do
  let c ← get
  let dir ← lift ((c.rpms old.name).elim
    (.error (exitOn "directory " (directoryPath env old) " does not exist")) .ok)
  let new ← lift (renameSpecValidate env old dir)
  renameTo env old new
  return new

end

/-! ## Artifacts -/

/-- What the tools look up by the name of a package. -/
inductive Artifact where
  | directory
  | metadata
  | sourcePipeline
  | updateHooks
  | override
  | test
  deriving DecidableEq

/-- What they find. -/
inductive Content (V : Type) where
  | tree (t : Tree)
  | file (f : File)
  | settings (v : V)

section

variable {V : Type} (yaml : Yaml V)

def Checkout.artifact (c : Checkout) (p : Str) : Artifact → Option (Content V)
  | .directory => (c.rpms p).map .tree
  | .metadata => (c.metadata p).map .file
  | .sourcePipeline => (c.pipelines p).map .file
  | .updateHooks => (c.hooks p).map .file
  | .override => (lookup yaml (entries c.overrides.lines) p).map .settings
  | .test => (c.tests p).map .file

/-- Under the new name there is what was under the old one, under the old name nothing, and under the
other names what was there. -/
def Moves {α : Type} (before after : Str → Option α) (old new : Str) : Prop :=
  after new = before old ∧ after old = none ∧ ∀ p, p ≠ old → p ≠ new → after p = before p

/-- A rename of a package that misses nothing. -/
def Complete (c c' : Checkout) (old new : PackageName) : Prop :=
  ∀ a : Artifact, Moves (c.artifact yaml · a) (c'.artifact yaml · a) old.name new.name

/-- The overrides follow when the first plain entry of the old name gets the new one: either nothing is
listed under the two names, or the entry is all that is listed under the old name and what counts under
the new one. -/
def OverridesFollow (es : List Entry) (old new : PackageName) : Prop :=
  let before := es.takeWhile fun e => e.key ≠ .plain old.name
  match es.dropWhile fun e => e.key ≠ .plain old.name with
  | [] => ¬ ListedUnder yaml es old.name ∧ ¬ ListedUnder yaml es new.name
  | e :: after =>
      ¬ ListedUnder yaml (before ++ after) old.name ∧
        match yaml.isString old.name, yaml.isString new.name with
        | true, true => ∀ v, lookup yaml after new.name = some v → v = yaml.value e.rest e.body
        | true, false => lookup yaml (before ++ after) new.name = some (yaml.value e.rest e.body)
        | false, true => False
        | false, false => ¬ ListedUnder yaml (before ++ after) new.name

end

/-! ## What a rename does -/

section

variable {env : RenameEnv} {old new : PackageName} {c c' : Checkout}

theorem updateRenameRecord_ok {u : Unit} (h : updateRenameRecord old new c = .ok u c') :
    ∃ records, c' = { c with renamedPackages := records } := by
  unfold updateRenameRecord at h
  rw [run_bind_of_ok (run_get c)] at h
  obtain ⟨renames, -, h⟩ := lift_bind_ok_iff.mp h
  split at h
  · obtain ⟨-, rfl⟩ := EStateM.Result.ok.inj h
    exact ⟨_, rfl⟩
  · obtain ⟨-, rfl⟩ := EStateM.Result.ok.inj h
    exact ⟨_, rfl⟩

/-- **`renameTo_ok`** — a rename that goes through has moved the directory and the record, and edited the
overrides. -/
theorem renameTo_ok {u : Unit} (h : renameTo env old new c = .ok u c') :
    c.rpms new.name = none ∧ c.metadata new.name = none ∧
      ∃ records commits, c' = { c with
        rpms := move c.rpms old.name new.name
        metadata := move c.metadata old.name new.name
        overrides := c.overrides.renameKey old new
        renamedPackages := records
        commits := commits } := by
  unfold renameTo at h
  rw [run_bind_of_ok (run_get c)] at h
  obtain ⟨hrpms, h⟩ := raiseIf_bind_ok_iff.mp h
  obtain ⟨-, h⟩ := raiseIf_bind_ok_iff.mp h
  obtain ⟨hmetadata, h⟩ := raiseIf_bind_ok_iff.mp h
  obtain ⟨-, h⟩ := raiseIf_bind_ok_iff.mp h
  rw [run_bind_of_ok (run_modify _ _)] at h
  obtain ⟨-, h⟩ := raiseIf_bind_ok_iff.mp h
  rw [run_bind_of_ok (run_modify _ _), run_bind_of_ok (run_modify _ _)] at h
  obtain ⟨_, c₁, hrecord, h⟩ := bind_ok_iff.mp h
  obtain ⟨-, h⟩ := raiseIf_bind_ok_iff.mp h
  obtain ⟨-, h⟩ := raiseIf_bind_ok_iff.mp h
  obtain ⟨records, rfl⟩ := updateRenameRecord_ok hrecord
  obtain ⟨-, rfl⟩ := EStateM.Result.ok.inj h
  exact ⟨by simpa using hrpms, by simpa using hmetadata, records, _, rfl⟩

theorem rename_ok (h : rename env old c = .ok new c') :
    (∃ dir, c.rpms old.name = some dir ∧ renameSpecValidate env old dir = .ok new) ∧
      renameTo env old new c = .ok () c' := by
  unfold rename at h
  rw [run_bind_of_ok (run_get c)] at h
  obtain ⟨dir, hdir, h⟩ := lift_bind_ok_iff.mp h
  obtain ⟨new', hnew, h⟩ := lift_bind_ok_iff.mp h
  obtain ⟨_, c₁, hto, h⟩ := bind_ok_iff.mp h
  obtain ⟨rfl, rfl⟩ := EStateM.Result.ok.inj h
  cases hrpms : c.rpms old.name with
  | none => simp [hrpms] at hdir
  | some dir' =>
      rw [hrpms] at hdir
      obtain rfl := Except.ok.inj hdir
      exact ⟨⟨dir', rfl, hnew⟩, hto⟩

end

/-! ## Completeness -/

section Moves

variable {α β : Type} {f f' : Str → Option α} {old new : Str}

theorem moves_same : Moves f f old new ↔ f old = none ∧ f new = none := by
  constructor
  · rintro ⟨hnew, hold, -⟩
    exact ⟨hold, hnew.trans hold⟩
  · rintro ⟨hold, hnew⟩
    exact ⟨hnew.trans hold.symm, hold, fun _ _ _ => rfl⟩

theorem moves_move (hne : new ≠ old) : Moves f (move f old new) old new := by
  refine ⟨?_, Function.update_self _ _ _, fun p hold hnew => ?_⟩
  · rw [move, Function.update_of_ne hne, Function.update_self]
  · rw [move, Function.update_of_ne hold, Function.update_of_ne hnew]

theorem moves_map {g : α → β} (hg : Function.Injective g) :
    Moves (fun p => (f p).map g) (fun p => (f' p).map g) old new ↔ Moves f f' old new := by
  have hmap := Option.map_injective hg
  unfold Moves
  rw [hmap.eq_iff, Option.map_eq_none_iff]
  simp only [hmap.eq_iff]

end Moves

section Overrides

variable {V : Type} {yaml : Yaml V} {p old new : PackageName} {es before after : List Entry} {e : Entry} {k : Str}

theorem reads_name : (Key.plain p.name).reads yaml = if yaml.isString p.name then some p.name else none := by
  have hstrip : rstripBy isSpace p.name = p.name := by
    refine List.rdropWhile_eq_self_iff.mpr fun hne => ?_
    rw [isSpace_of_isNameChar (p.chars _ (List.getLast_mem hne))]
    exact Bool.false_ne_true
  rw [Key.reads, hstrip]

theorem reads_name_ne (hk : p.name ≠ k) : (Key.plain p.name).reads yaml ≠ some k := by
  rw [reads_name]
  split
  · exact fun h => hk (Option.some.inj h)
  · simp

/-- A list of entries is split at the first plain entry of a name. -/
theorem split_at_entry (after : List Entry) (hkey : e.key = .plain old.name) (hbefore : ∀ e' ∈ before, e'.key ≠ .plain old.name) :
    (before ++ e :: after).takeWhile (fun e => e.key ≠ .plain old.name) = before ∧
      (before ++ e :: after).dropWhile (fun e => e.key ≠ .plain old.name) = e :: after := by
  have hall : ∀ e' ∈ before, decide (e'.key ≠ .plain old.name) = true := fun e' he' =>
    decide_eq_true (hbefore e' he')
  have hstop : ¬ decide (e.key ≠ .plain old.name) = true := by simp [hkey]
  rw [List.takeWhile_append_of_pos hall, List.takeWhile_cons, if_neg hstop, List.append_nil,
    List.dropWhile_append_of_pos hall, List.dropWhile_cons, if_neg hstop]
  exact ⟨rfl, rfl⟩

/-- One entry among others: what comes after it wins, then the entry, then what comes before. -/
theorem lookup_middle : lookup yaml (before ++ e :: after) k =
    ((lookup yaml after k).or
      (if e.key.reads yaml = some k then some (yaml.value e.rest e.body) else none)).or
        (lookup yaml before k) := by
  rw [lookup_append, lookup]

/-- **`overrides_follow_iff`** — when renaming a key moves the settings of a package. -/
theorem overrides_follow_iff (f : FlatFile) (hne : new.name ≠ old.name) :
    Moves (lookup yaml (entries f.lines)) (lookup yaml (entries (f.renameKey old new).lines)) old.name new.name ↔
      OverridesFollow yaml (entries f.lines) old new := by
  rcases entries_renameKey f old new with ⟨hnone, hsame⟩ | ⟨before, e, after, hes, hkey, hbefore, hafter⟩
  · have hdrop : (entries f.lines).dropWhile (fun e => e.key ≠ .plain old.name) = [] := by
      rw [List.dropWhile_eq_nil_iff]
      exact fun e he => decide_eq_true (hnone e he)
    rw [hsame, moves_same, lookup_eq_none, lookup_eq_none]
    unfold OverridesFollow
    simp only [hdrop]
  · obtain ⟨htake, hdrop⟩ := split_at_entry after hkey hbefore
    unfold OverridesFollow
    rw [hafter, hes]
    simp only [htake, hdrop]
    have hother : ∀ k, k ≠ old.name → k ≠ new.name →
        lookup yaml (before ++ { e with key := .plain new.name } :: after) k =
          lookup yaml (before ++ e :: after) k := by
      intro k hold hnew
      rw [lookup_middle, lookup_middle, hkey, if_neg (reads_name_ne hnew.symm),
        if_neg (reads_name_ne hold.symm)]
    have hgone : lookup yaml (before ++ { e with key := .plain new.name } :: after) old.name = none ↔
        ¬ ListedUnder yaml (before ++ after) old.name := by
      rw [lookup_middle, if_neg (reads_name_ne hne), Option.or_none, ← lookup_append, lookup_eq_none]
    unfold Moves
    rw [hgone, and_iff_left hother, and_comm]
    refine and_congr_right fun hlisted => ?_
    obtain ⟨hl, hr⟩ := not_listed_append.mp hlisted
    -- only the entry itself counts under the old name
    have hwas : lookup yaml (before ++ e :: after) old.name =
        if yaml.isString old.name then some (yaml.value e.rest e.body) else none := by
      rw [lookup_middle, lookup_eq_none.mpr hl, lookup_eq_none.mpr hr, hkey, reads_name]
      cases yaml.isString old.name <;> simp
    rw [hwas, lookup_middle, reads_name, ← lookup_eq_none, lookup_append]
    cases yaml.isString old.name with
    | true =>
        cases yaml.isString new.name with
        | true => cases lookup yaml after new.name <;> simp
        | false => simp
    | false =>
        cases yaml.isString new.name with
        | true => cases lookup yaml after new.name <;> simp
        | false => simp

end Overrides

/-- **`rename_complete_iff`** — a rename that goes through is complete exactly when there is no source
pipeline, no file of update hooks and no test under either name, and the overrides follow. -/
theorem rename_complete_iff {V : Type} (yaml : Yaml V) (env : RenameEnv) (old new : PackageName)
    (c c' : Checkout) (h : rename env old c = .ok new c') :
    Complete yaml c c' old new ↔
      (c.pipelines old.name = none ∧ c.pipelines new.name = none) ∧
        (c.hooks old.name = none ∧ c.hooks new.name = none) ∧
        (c.tests old.name = none ∧ c.tests new.name = none) ∧
        OverridesFollow yaml (entries c.overrides.lines) old new := by
  obtain ⟨⟨dir, hdir, -⟩, hto⟩ := rename_ok h
  obtain ⟨hrpms, -, records, commits, rfl⟩ := renameTo_ok hto
  have hne : new.name ≠ old.name := by
    intro hname
    rw [hname, hdir] at hrpms
    exact absurd hrpms (by simp)
  have htree : Function.Injective (Content.tree : Tree → Content V) := fun _ _ => Content.tree.inj
  have hfile : Function.Injective (Content.file : File → Content V) := fun _ _ => Content.file.inj
  have hsettings : Function.Injective (Content.settings : V → Content V) := fun _ _ => Content.settings.inj
  rw [← moves_same, ← moves_same, ← moves_same, ← overrides_follow_iff c.overrides hne,
    ← moves_map hfile, ← moves_map hfile, ← moves_map hfile, ← moves_map hsettings]
  constructor
  · intro hcomplete
    exact ⟨hcomplete .sourcePipeline, hcomplete .updateHooks, hcomplete .test, hcomplete .override⟩
  · rintro ⟨hpipeline, hhooks, htest, hoverride⟩ a
    cases a with
    | directory => exact (moves_map htree).mpr (moves_move hne)
    | metadata => exact (moves_map hfile).mpr (moves_move hne)
    | sourcePipeline => exact hpipeline
    | updateHooks => exact hhooks
    | override => exact hoverride
    | test => exact htest

/-! ## A pipeline that stays behind -/

/-- The name on the first line of a spec file. -/
def nameOnFirstLine (dir : Tree) (path : Path) : Except Exn PackageName :=
  match dir.read path with
  | some (.text s) =>
      let name := (s.drop "Name: ".length).takeWhile isNameChar
      if h : name ≠ [] ∧ ∀ c ∈ name, isNameChar c = true then .ok ⟨name, h.1, h.2⟩
      else .error (.raised .runtimeError "name")
  | _ => .error (.raised .osError path)

theorem tomcat_ne_nil : "tomcat".toList ≠ [] := by decide

theorem tomcat_chars : ∀ c ∈ "tomcat".toList, isNameChar c = true := by decide

def tomcat : PackageName := ⟨"tomcat".toList, tomcat_ne_nil, tomcat_chars⟩

theorem tomcat11_ne_nil : "tomcat11".toList ≠ [] := by decide

theorem tomcat11_chars : ∀ c ∈ "tomcat11".toList, isNameChar c = true := by decide

def tomcat11 : PackageName := ⟨"tomcat11".toList, tomcat11_ne_nil, tomcat11_chars⟩

/-- All programs go through, and the committed spec file has the old name. -/
def tomcatEnv : RenameEnv where
  rpmsDir := "/repo/rpms"
  metadataDir := "/repo/metadata"
  specName := nameOnFirstLine
  headText _ := some "Name: tomcat\n".toList
  gitMv _ := true
  makeGenerate := true
  commitOk := true

/-- A repository with the package `tomcat`, its name in the spec file changed, and a pipeline or none. -/
def tomcatCheckout (pipeline : Option File) : Checkout where
  rpms := Function.update (fun _ => none) "tomcat".toList
    (some (.ofList [("tomcat.spec".toList, .text "Name: tomcat11\n".toList)]))
  metadata := Function.update (fun _ => none) "tomcat".toList (some (.text "\x7b\x7d\n".toList))
  pipelines := Function.update (fun _ => none) "tomcat".toList pipeline
  hooks _ := none
  overrides := ⟨["tomcat:\n".toList, "  timeout_hours: 8\n".toList], flat_of_check (by decide +kernel)⟩
  tests _ := none
  renamedPackages := none
  commits := []

/-- A YAML parser that reads all names as strings and leaves the settings as they stand. -/
def verbatim : Yaml (Str × List Str) where
  isString _ := true
  value rest body := (rest, body)

/-- Without a pipeline the rename goes through, and it is complete. -/
theorem rename_complete_iff_tomcat :
    let c := tomcatCheckout none
    ∃ c', rename tomcatEnv tomcat c = .ok tomcat11 c' ∧
      (Complete verbatim c c' tomcat tomcat11 ↔
        (c.pipelines tomcat.name = none ∧ c.pipelines tomcat11.name = none) ∧
          (c.hooks tomcat.name = none ∧ c.hooks tomcat11.name = none) ∧
          (c.tests tomcat.name = none ∧ c.tests tomcat11.name = none) ∧
          OverridesFollow verbatim (entries c.overrides.lines) tomcat tomcat11) :=
  ⟨_, rfl, rename_complete_iff verbatim tomcatEnv tomcat tomcat11 (tomcatCheckout none) _ rfl⟩

/-- With one, it goes through as well and leaves the pipeline under the old name. -/
theorem rename_leaves_pipeline :
    let c := tomcatCheckout (some (.text "apiVersion: source-pipeline/v1\n".toList))
    ∃ c', rename tomcatEnv tomcat c = .ok tomcat11 c' ∧ ¬ Complete verbatim c c' tomcat tomcat11 := by
  intro c
  refine ⟨_, rfl, fun hcomplete => ?_⟩
  have hgone := (hcomplete .sourcePipeline).2.1
  exact absurd hgone (by simp [Checkout.artifact, tomcatCheckout, tomcat, c])

end HummingbirdRpms
