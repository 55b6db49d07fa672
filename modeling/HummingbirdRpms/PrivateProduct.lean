/-
# HummingbirdRpms.PrivateProduct — adding a private product, over three configurations.

`add_private_product` of `ci/dist_git.py` checks the packages and the two configuration files, creates
the Pulp repositories, appends an entry to `ci/konflux_rpa_config.yml`, edits
`ci/package-overrides.yaml` and only then looks at the infrastructure checkout (`_setup_infra_repo`),
where it creates templates and extends the CI matrix.  It regenerates resources and commits at the end.

Nothing is undone when a step fails.  **`unchanged_iff_not_ready`** says which failing runs leave the
three configurations as they were: those in which a check before the first write fails (`Ready`).
-/
import HummingbirdRpms.FlatYaml
import HummingbirdRpms.Lib.Lines

namespace HummingbirdRpms

open Lib Lib.Text Lib.Exec FlatYaml

/-! ## The files -/

/-- What the command reads and writes. -/
structure ProductFiles where
  /-- The packages with a directory under `rpms/`. -/
  packages : List Str
  /-- The text of `ci/konflux_rpa_config.yml`. -/
  rpaConfig : Option Str
  /-- The text of `ci/package-overrides.yaml`. -/
  overrides : Option Str
  /-- The infrastructure checkout, if the path is a directory. -/
  infra : Option Tree
  /-- The messages of the commits, the newest first. -/
  commits : List Str

/-- The arguments of the command. -/
structure ProductArgs where
  product : Str
  packages : List Str
  pulpConfig : Option Str
  pulpSecretName : Str
  dryRun : Bool := false

/-- The libraries and programs that the command calls. -/
structure ProductEnv where
  /-- `yaml.safe_load` -/
  safeLoad : Str → Except Exn Value
  /-- `yaml.dump`, without sorting -/
  dump : Value → Str
  dump_nonempty : ∀ v, dump v ≠ []
  /-- `ci/pulp-setup/create-pulp-resources.sh`, with its arguments. -/
  pulpScript : List Str → Proc
  generateResources : Proc
  gitAdd : Bool
  gitCommit : Bool

/-- `subprocess.run(..., check=True)` -/
def Proc.check : Proc → Except Exn Unit
  | .notStarted msg => .error (.raised .osError msg)
  | .undecodable => .ok ()
  | .exited code _ _ => failIf (code ≠ 0) (.raised .calledProcessError "command")

/-- `sys.exit(1)` -/
def exit1 : Exn := .systemExit (.code 1)

/-- `path.read_text()` of a file that may be missing. -/
def textOf (name : Str) (text : Option Str) : Except Exn Str :=
  text.elim (.error (.raised .osError name)) .ok

/-! ## The checks before the first write -/

section

variable (env : ProductEnv) (args : ProductArgs)

/-- The entries of a loaded `konflux_rpa_config.yml` that a loop over `rpa_config.get('rpas', [])` goes
through. -/
def rpasOf : Value → Except Exn (List Value)
  | .dict entries => ((Value.find "rpas" entries).getD (.list [])).items
  | _ => .error (.raised .attributeError "get")

/-- The product is not that of an entry. -/
def checkRpa (rpa : Value) : Except Exn Unit := do
  let owner ← rpa.get "private_product"
  failIf (owner.isStr args.product = true) exit1

/-- The package has no product yet. -/
def checkOverride (overrides : Value) (pkg : Str) : Except Exn Unit :=
  match overrides with
  | .dict entries =>
      match Value.find pkg entries with
      | none => .ok ()
      | some settings =>
          if settings.truthy then do
            let owner ← settings.get "private_product"
            failIf (owner.truthy = true) exit1
          else .ok ()
  | _ => .error (.raised .attributeError "get")

/-- The domains and the types of the repositories. -/
def repoSpecs : List (Str × Option Str) :=
  let unsigned := "private-hummingbird-".toList ++ args.product ++ "-unsigned".toList
  let signed := "private-hummingbird-".toList ++ args.product
  [(unsigned, none), (unsigned, some "file"), (signed, none), (signed, some "file")]

/-- The arguments of the script for a repository. -/
def pulpArgs (spec : Str × Option Str) : List Str :=
  ["--domain".toList, spec.1] ++ spec.2.elim [] (fun t => ["--type".toList, t]) ++
    (args.pulpConfig.filter (· ≠ [])).elim [] fun c => ["--config".toList, c]

/-- `'private_product' not in r` -/
def isPublic : Value → Bool
  | .dict entries => (Value.find "private_product" entries).isNone
  | _ => true

/-- The URL and the revision of the pipeline of the first public entry. -/
def publicPipeline (config : Value) : Except Exn (Value × Value) := do
  let rpas ← config.index "rpas"
  let items ← rpas.items
  match items.find? isPublic with
  | none => .error exit1
  | some rpa => do
      failIf (rpa.truthy = false) exit1
      let url ← rpa.index "pipeline_url"
      let revision ← rpa.index "pipeline_revision"
      return (url, revision)

/-- Everything up to the first write, which also creates the Pulp repositories. -/
def prepare (s : ProductFiles) : Except Exn (Value × Value) := do
  failIf (args.packages.all s.packages.contains = false) exit1
  let config ← textOf "ci/konflux_rpa_config.yml" s.rpaConfig >>= env.safeLoad
  let rpas ← rpasOf config
  rpas.forM (checkRpa args)
  let overrides ← textOf "ci/package-overrides.yaml" s.overrides >>= env.safeLoad
  args.packages.forM (checkOverride overrides.orDict)
  if args.dryRun then pure ()
  else (repoSpecs args).forM fun spec => (env.pulpScript (pulpArgs args spec)).check
  publicPipeline config

/-! ## The two configuration files -/

/-- The new entry of `konflux_rpa_config.yml`. -/
def newRpa (pipeline : Value × Value) : Value :=
  .dict [("name".toList, .str ("hummingbird-rpms-private-".toList ++ args.product)),
    ("target_file".toList, .str (("config/kflux-prd-rh03.nnv1.p1/product/ReleasePlanAdmission/".toList ++
      "hummingbird/hummingbird-rpms-private-".toList) ++ args.product ++ ".yaml".toList)),
    ("template".toList, .str "macros/releng/release-plan-admission.yml.j2".toList),
    ("application_prefix".toList, .str ("private-".toList ++ args.product ++ "-rpms".toList)),
    ("release_org".toList, .str "registry.stage.redhat.io/hummingbird-tech-preview".toList),
    ("single_component_mode".toList, .bool true),
    ("service_account_name".toList, .str "hummingbird-rpm-release-staging".toList),
    ("pulp_unsigned_domain".toList,
      .str ("private-hummingbird-".toList ++ args.product ++ "-unsigned".toList)),
    ("pulp_signed_domain".toList, .str ("private-hummingbird-".toList ++ args.product)),
    ("pulp_secret_name".toList, .str args.pulpSecretName),
    ("pipeline_url".toList, pipeline.1),
    ("pipeline_revision".toList, pipeline.2),
    ("private_product".toList, .str args.product),
    ("component_filter".toList, .dict [("path_prefix".toList, .str "rpms/".toList)])]

end

/-- `splitlines(keepends=True)` -/
def keepLines : Str → List Str
  | [] => []
  | c :: cs =>
      if isLineBreak c ∧ ¬ (c = '\r' ∧ cs.head? = some '\n') then [c] :: keepLines cs
      else
        match keepLines cs with
        | [] => [[c]]
        | l :: ls => (c :: l) :: ls

/-- A line of the block with its URL in quotation marks: `^(\s*pipeline_url: )(\S+)$`. -/
def quoteUrl (line : Str) : Str :=
  let blank := line.takeWhile isSpace
  match (line.drop blank.length) with
  | rest =>
      let url := rest.drop "pipeline_url: ".length
      if startsWith "pipeline_url: " rest ∧ url ≠ [] ∧ url.all (!isSpace ·) then
        blank ++ "pipeline_url: \"".toList ++ url ++ ['"']
      else line

/-- The block that is appended: the dumped entry, indented. -/
def rpaBlock (dumped : Str) : Str :=
  (splitlines dumped).flatMap fun line =>
    quoteUrl (if line = [] then [] else "  ".toList ++ line) ++ ['\n']

/-- An empty line is put in front if the last line is not blank. -/
def appendBlock (text block : Str) : Str :=
  text ++ (if (keepLines text).getLast?.any (fun l => strip l ≠ []) then ['\n'] else []) ++ block

/-- `_insert_top_level_yaml_block` -/
def insertTopLevelYamlBlock (lines : List Str) (key block : Str) : List Str :=
  -- the lines the source skips after an entry have no key
  let insertAt := (lines.findIdx? fun l => (topLevelKey l).any (key < ·)).getD lines.length
  let blockLines := keepLines (if block = [] ∨ endsWith "\n" block then block else block ++ ['\n'])
  if insertAt = lines.length then
    if lines.getLast?.any fun l => strip l ≠ [] then lines ++ ["\n".toList] ++ blockLines
    else lines ++ blockLines
  else lines.take insertAt ++ blockLines ++ ["\n".toList] ++ lines.drop insertAt

/-- `_append_key_to_yaml_block` -/
def appendKeyToYamlBlock (lines : List Str) (start stop : Nat) (line : Str) : List Str :=
  let body := (lines.take stop).drop (start + 1)
  let insertAt := start + 1 + (body.rdropWhile fun l => strip l = []).length
  lines.take insertAt ++ [if endsWith "\n" line then line else line ++ ['\n']] ++ lines.drop insertAt

/-- One package assigned to a product. -/
def assign (env : ProductEnv) (product : Str) (lines : List Str) (pkg : Str) : List Str :=
  match findTopLevelYamlBlock lines pkg with
  | none => insertTopLevelYamlBlock lines pkg
      (env.dump (.dict [(pkg, .dict [("private_product".toList, .str product)])]))
  | some (start, stop) =>
      appendKeyToYamlBlock lines start stop ("  private_product: ".toList ++ product ++ ['\n'])

/-! ## The infrastructure checkout -/

/-- `s.replace(old, new, 1)` -/
def replaceOnce (old new : Str) : Str → Str
  | [] => []
  | c :: cs =>
      if startsWith old (c :: cs) then new ++ (c :: cs).drop old.length
      else c :: replaceOnce old new cs

/-- `private-<product>-rpms-main` -/
def projectName (product : Str) : Str := "private-".toList ++ product ++ "-rpms-main".toList

/-- Write the infrastructure checkout. -/
def setInfra (infra : Tree) : Prog Exn ProductFiles PUnit := modify fun s => { s with infra := some infra }

/-- `shutil.copy` of a file to another place in the checkout. -/
def copyFile (infra : Tree) (source target : Path) : Except Exn Tree :=
  match infra.read source with
  | some .dir => .error (.raised .osError source)
  | some f => .ok (infra.write target f)
  | none => .error (.raised .osError source)

/-- `01-release-plans.yml.j2` for a product. -/
def releasePlans (product content : Str) : Except Exn Str := do
  let oldName := "hummingbird-rpm-release\n".toList
  failIf (contains oldName content = false) exit1
  let content := replaceOnce oldName ("hummingbird-rpm-release-private-".toList ++ product ++ ['\n']) content
  let oldRpa := "releasePlanAdmission: hummingbird-rpms-tech-preview-staging".toList
  failIf (contains oldRpa content = false) exit1
  return replaceOnce oldRpa ("releasePlanAdmission: hummingbird-rpms-private-".toList ++ product) content

/-- `.gitlab-ci.yml` with the project in its matrix. -/
def ciMatrix (product content : Str) : Except Exn Str := do
  let marker := "          - rpms-main\n".toList
  failIf (contains marker content = false) exit1
  return replaceOnce marker (marker ++ "          - ".toList ++ projectName product ++ ['\n']) content

/-- The templates are created one after the other, and the CI matrix is extended last. -/
def createTemplates (product : Str) (infra : Tree) : Prog Exn ProductFiles Unit := do
  let source := "kubernetes/rpms-main/".toList
  let target := "kubernetes/".toList ++ projectName product
  let infra := infra.write target .dir
  setInfra infra
  let infra ← lift (copyFile infra (source ++ "00-application.yml.j2".toList)
    (target ++ "/00-application.yml.j2".toList))
  setInfra infra
  let content ← lift (readText infra (source ++ "01-release-plans.yml.j2".toList))
  let plans ← lift (releasePlans product content)
  let infra := infra.write (target ++ "/01-release-plans.yml.j2".toList) (.text plans)
  setInfra infra
  let scenarios := "10-integration-test-scenarios-testing-farm.yml.j2".toList
  let infra ← lift (if infra.present (source ++ scenarios) then
    copyFile infra (source ++ scenarios) (target ++ "/".toList ++ scenarios) else .ok infra)
  setInfra infra
  let content ← lift (readText infra ".gitlab-ci.yml")
  let matrix ← lift (ciMatrix product content)
  setInfra (infra.write ".gitlab-ci.yml".toList (.text matrix))

/-- `_setup_infra_repo` -/
def setupInfraRepo (product : Str) (dryRun : Bool) : Prog Exn ProductFiles Unit := do
  let s ← get
  let infra ← lift (s.infra.elim (.error exit1) .ok)
  raiseIf (infra.isDir "kubernetes/rpms-main".toList = false) exit1
  raiseIf (infra.present ("kubernetes/".toList ++ projectName product) = true) exit1
  if dryRun then pure () else createTemplates product infra

/-! ## `add_private_product` -/

section

variable (env : ProductEnv) (args : ProductArgs)

/-- `Add private product '<product>' with packages: ...` -/
def productMessage : Str :=
  "Add private product '".toList ++ args.product ++ "' with packages: ".toList ++
    List.intercalate ", ".toList args.packages

/-- The entry for the product as text. -/
def newBlock (pipeline : Value × Value) : Str := rpaBlock (env.dump (.list [newRpa args pipeline]))

/-- `ci/package-overrides.yaml` with all packages assigned. -/
def assignAll (overrides : Str) : Str :=
  (args.packages.foldl (assign env args.product) (keepLines overrides)).flatten

/-- The steps from the first write on. -/
def writeProduct (pipeline : Value × Value) : Prog Exn ProductFiles Unit := do
  let s ← get
  let config ← lift (textOf "ci/konflux_rpa_config.yml" s.rpaConfig)
  modify fun s => { s with rpaConfig := some (appendBlock config (newBlock env args pipeline)) }
  let overrides ← lift (textOf "ci/package-overrides.yaml" s.overrides)
  modify fun s => { s with overrides := some (assignAll env args overrides) }
  setupInfraRepo args.product false
  lift env.generateResources.check
  raiseIf (env.gitAdd = false) (.raised .calledProcessError "git add")
  raiseIf (env.gitCommit = false) (.raised .calledProcessError "git commit")
  modify fun s => { s with commits := productMessage args :: s.commits }

/-- `add_private_product` -/
def addPrivateProduct : Prog Exn ProductFiles Unit := do
  let s ← get
  let pipeline ← lift (prepare env args s)
  if args.dryRun then setupInfraRepo args.product true
  else writeProduct env args pipeline

end

/-! ## What has to be right before the first write -/

/-- A package without a product in the overrides. -/
def Unassigned (overrides : Value) (pkg : Str) : Prop :=
  ∃ entries, overrides.orDict = .dict entries ∧ ∀ settings, Value.find pkg entries = some settings →
    settings.truthy = false ∨
      ∃ d, settings = .dict d ∧ (Value.entry "private_product" d).truthy = false

/-- A list of entries in which the product is new, and the first public entry names a pipeline. -/
structure UsableRpas (product : Str) (rpas : List Value) : Prop where
  entries : ∀ r ∈ rpas, ∃ d, r = .dict d ∧ (Value.entry "private_product" d).isStr product = false
  pipeline : ∃ d, rpas.find? isPublic = some (.dict d) ∧
    (Value.find "pipeline_url" d).isSome = true ∧ (Value.find "pipeline_revision" d).isSome = true

/-- The packages are there, the two configuration files can be used, and the Pulp repositories can be
created. -/
structure Ready (env : ProductEnv) (args : ProductArgs) (s : ProductFiles) : Prop where
  packages : ∀ p ∈ args.packages, p ∈ s.packages
  config : ∃ text entries value rpas, s.rpaConfig = some text ∧ env.safeLoad text = .ok (.dict entries) ∧
    Value.find "rpas" entries = some value ∧ value.items = .ok rpas ∧ UsableRpas args.product rpas
  overrides : ∃ text value, s.overrides = some text ∧ env.safeLoad text = .ok value ∧
    ∀ p ∈ args.packages, Unassigned value p
  pulp : ∀ spec ∈ repoSpecs args, (env.pulpScript (pulpArgs args spec)).check = .ok ()

section

variable {env : ProductEnv} {args : ProductArgs} {s s' : ProductFiles} {e : Exn}

theorem textOf_ok_iff {name text : Str} {o : Option Str} : textOf name o = .ok text ↔ o = some text := by
  cases o <;> simp [textOf]

theorem get_ok_iff {key : Str} {v owner : Value} :
    v.get key = .ok owner ↔ ∃ d, v = .dict d ∧ Value.entry key d = owner := by
  cases v <;> simp [Value.get]

theorem index_ok_iff {key : Str} {entries : Value.Entries} {v : Value} :
    (Value.dict entries).index key = .ok v ↔ Value.find key entries = some v := by
  have hindex : (Value.dict entries).index key =
      (Value.find key entries).elim (.error (.raised .keyError key)) .ok := by
    simp only [Value.index, Value.find]
    split
    · rename_i hfind
      rw [hfind]
      rfl
    · rename_i hfind
      rw [hfind]
      rfl
  rw [hindex]
  cases Value.find key entries <;> simp

theorem checkRpa_ok_iff {rpa : Value} : checkRpa args rpa = .ok () ↔
    ∃ d, rpa = .dict d ∧ (Value.entry "private_product" d).isStr args.product = false := by
  unfold checkRpa
  rw [except_bind_ok_iff]
  constructor
  · rintro ⟨owner, hget, hnew⟩
    obtain ⟨d, rfl, rfl⟩ := get_ok_iff.mp hget
    exact ⟨d, rfl, Bool.not_eq_true _ ▸ failIf_ok_iff.mp hnew⟩
  · rintro ⟨d, rfl, hnew⟩
    exact ⟨_, get_ok_iff.mpr ⟨d, rfl, rfl⟩, failIf_ok_iff.mpr (by rw [hnew]; exact Bool.false_ne_true)⟩

theorem checkOverride_ok_iff {overrides : Value} {pkg : Str} :
    checkOverride overrides pkg = .ok () ↔ ∃ entries, overrides = .dict entries ∧
      ∀ settings, Value.find pkg entries = some settings → settings.truthy = false ∨
        ∃ d, settings = .dict d ∧ (Value.entry "private_product" d).truthy = false := by
  cases overrides with
  | dict entries =>
      have hentries : (∃ entries', Value.dict entries = .dict entries' ∧
          ∀ settings, Value.find pkg entries' = some settings → settings.truthy = false ∨
            ∃ d, settings = .dict d ∧ (Value.entry "private_product" d).truthy = false) ↔
          ∀ settings, Value.find pkg entries = some settings → settings.truthy = false ∨
            ∃ d, settings = .dict d ∧ (Value.entry "private_product" d).truthy = false := by
        constructor
        · rintro ⟨_, ⟨⟩, h⟩
          exact h
        · intro h
          exact ⟨entries, rfl, h⟩
      rw [hentries]
      unfold checkOverride
      cases hfind : Value.find pkg entries with
      | none => exact iff_of_true (by simp only [hfind]) fun _ h => absurd h (by simp)
      | some settings =>
          simp only [hfind]
          have hsettings : (∀ settings', some settings = some settings' → settings'.truthy = false ∨
              ∃ d, settings' = .dict d ∧ (Value.entry "private_product" d).truthy = false) ↔
              settings.truthy = false ∨
                ∃ d, settings = .dict d ∧ (Value.entry "private_product" d).truthy = false := by
            constructor
            · intro h
              exact h settings rfl
            · rintro h _ ⟨⟩
              exact h
          rw [hsettings]
          cases htruthy : settings.truthy with
          | false => exact iff_of_true rfl (Or.inl rfl)
          | true =>
              rw [if_pos rfl, except_bind_ok_iff, or_iff_right (by simp)]
              constructor
              · rintro ⟨owner, hget, hnew⟩
                obtain ⟨d, rfl, rfl⟩ := get_ok_iff.mp hget
                exact ⟨d, rfl, Bool.not_eq_true _ ▸ failIf_ok_iff.mp hnew⟩
              · rintro ⟨d, rfl, hnew⟩
                exact ⟨_, get_ok_iff.mpr ⟨d, rfl, rfl⟩,
                  failIf_ok_iff.mpr (by rw [hnew]; exact Bool.false_ne_true)⟩
  | _ =>
      refine iff_of_false (fun h => by simp [checkOverride] at h) ?_
      rintro ⟨_, h, -⟩
      exact absurd h (by simp)

theorem publicPipeline_ok_iff {entries : Value.Entries} :
    (∃ pipeline, publicPipeline (.dict entries) = .ok pipeline) ↔
      ∃ value rpas, Value.find "rpas" entries = some value ∧ value.items = .ok rpas ∧
        ∃ rpa, rpas.find? isPublic = some rpa ∧ rpa.truthy = true ∧
          (∃ url, rpa.index "pipeline_url" = .ok url) ∧ ∃ revision, rpa.index "pipeline_revision" = .ok revision := by
  unfold publicPipeline
  constructor
  · rintro ⟨pipeline, h⟩
    obtain ⟨value, hvalue, h⟩ := except_bind_ok_iff.mp h
    obtain ⟨rpas, hrpas, h⟩ := except_bind_ok_iff.mp h
    refine ⟨value, rpas, index_ok_iff.mp hvalue, hrpas, ?_⟩
    cases hfind : rpas.find? isPublic with
    | none =>
        rw [hfind] at h
        exact absurd h (by simp)
    | some rpa =>
        rw [hfind] at h
        obtain ⟨_, htruthy, h⟩ := except_bind_ok_iff.mp h
        obtain ⟨url, hurl, h⟩ := except_bind_ok_iff.mp h
        obtain ⟨revision, hrevision, -⟩ := except_bind_ok_iff.mp h
        exact ⟨rpa, rfl, by simpa using failIf_ok_iff.mp htruthy, ⟨url, hurl⟩, revision, hrevision⟩
  · rintro ⟨value, rpas, hvalue, hrpas, rpa, hfind, htruthy, ⟨url, hurl⟩, revision, hrevision⟩
    refine ⟨(url, revision), except_bind_ok_iff.mpr ⟨value, index_ok_iff.mpr hvalue, ?_⟩⟩
    refine except_bind_ok_iff.mpr ⟨rpas, hrpas, ?_⟩
    rw [hfind]
    refine except_bind_ok_iff.mpr ⟨(), failIf_ok_iff.mpr (by simp [htruthy]), ?_⟩
    exact except_bind_ok_iff.mpr ⟨url, hurl, except_bind_ok_iff.mpr ⟨revision, hrevision, rfl⟩⟩

theorem usableRpas_iff {rpas : List Value} : UsableRpas args.product rpas ↔
    (∀ r ∈ rpas, checkRpa args r = .ok ()) ∧ ∃ rpa, rpas.find? isPublic = some rpa ∧ rpa.truthy = true ∧
      (∃ url, rpa.index "pipeline_url" = .ok url) ∧ ∃ revision, rpa.index "pipeline_revision" = .ok revision := by
  have hsome : ∀ {key : Str} {d : Value.Entries},
      (∃ v, (Value.dict d).index key = .ok v) ↔ (Value.find key d).isSome = true := by
    intro key d
    rw [Option.isSome_iff_exists]
    exact exists_congr fun v => index_ok_iff
  constructor
  · intro h
    obtain ⟨d, hfind, hurl, hrevision⟩ := h.pipeline
    have htruthy : (Value.dict d).truthy = true := by
      cases d with
      | nil => exact absurd hurl (by simp [Value.find])
      | cons _ _ => rfl
    exact ⟨fun r hr => checkRpa_ok_iff.mpr (h.entries r hr), _, hfind, htruthy, hsome.mpr hurl,
      hsome.mpr hrevision⟩
  · rintro ⟨hentries, rpa, hfind, -, hurl, hrevision⟩
    obtain ⟨d, rfl, -⟩ := checkRpa_ok_iff.mp (hentries rpa (List.mem_of_find?_eq_some hfind))
    exact ⟨fun r hr => checkRpa_ok_iff.mp (hentries r hr), d, hfind, hsome.mp hurl, hsome.mp hrevision⟩

/-- **`prepare_ok_iff`** — the run comes to the first write exactly when everything is right. -/
theorem prepare_ok_iff (hdry : args.dryRun = false) :
    (∃ pipeline, prepare env args s = .ok pipeline) ↔ Ready env args s := by
  unfold prepare
  constructor
  · rintro ⟨pipeline, h⟩
    obtain ⟨_, hpackages, h⟩ := except_bind_ok_iff.mp h
    obtain ⟨config, hconfig, h⟩ := except_bind_ok_iff.mp h
    obtain ⟨text, htext, hload⟩ := except_bind_ok_iff.mp hconfig
    obtain ⟨rpas, hrpas, h⟩ := except_bind_ok_iff.mp h
    obtain ⟨_, hnew, h⟩ := except_bind_ok_iff.mp h
    obtain ⟨overrides, hoverrides, h⟩ := except_bind_ok_iff.mp h
    obtain ⟨text', htext', hload'⟩ := except_bind_ok_iff.mp hoverrides
    obtain ⟨_, hassigned, h⟩ := except_bind_ok_iff.mp h
    rw [hdry, if_neg Bool.false_ne_true] at h
    obtain ⟨_, hpulp, h⟩ := except_bind_ok_iff.mp h
    cases config with
    | dict entries =>
        obtain ⟨value, rpas', hvalue, hitems, husable⟩ := publicPipeline_ok_iff.mp ⟨pipeline, h⟩
        -- the loop and the lookup go over the same entries
        have hsame : rpas' = rpas := by
          rw [rpasOf, hvalue, Option.getD_some, hitems] at hrpas
          exact Except.ok.inj hrpas
        subst hsame
        exact {
          packages := fun p hp => by
            have hall := failIf_ok_iff.mp hpackages
            rw [Bool.not_eq_false, List.all_eq_true] at hall
            exact List.contains_iff_mem.mp (hall p hp)
          config := ⟨text, entries, value, rpas', textOf_ok_iff.mp htext, hload, hvalue, hitems,
            usableRpas_iff.mpr ⟨forM_ok_iff.mp hnew, husable⟩⟩
          overrides := ⟨text', overrides, textOf_ok_iff.mp htext', hload', fun p hp =>
            checkOverride_ok_iff.mp (forM_ok_iff.mp hassigned p hp)⟩
          pulp := forM_ok_iff.mp hpulp }
    | _ => exact absurd hrpas (by simp [rpasOf])
  · intro h
    obtain ⟨text, entries, value, rpas, htext, hload, hvalue, hitems, husable⟩ := h.config
    obtain ⟨hnew, hpublic⟩ := usableRpas_iff.mp husable
    obtain ⟨text', overrides, htext', hload', hassigned⟩ := h.overrides
    obtain ⟨pipeline, hpipeline⟩ := publicPipeline_ok_iff.mpr ⟨value, rpas, hvalue, hitems, hpublic⟩
    refine ⟨pipeline, except_bind_ok_iff.mpr ⟨(), ?_, ?_⟩⟩
    · rw [failIf_ok_iff, Bool.not_eq_false, List.all_eq_true]
      exact fun p hp => List.contains_iff_mem.mpr (h.packages p hp)
    refine except_bind_ok_iff.mpr ⟨.dict entries,
      except_bind_ok_iff.mpr ⟨text, textOf_ok_iff.mpr htext, hload⟩, ?_⟩
    refine except_bind_ok_iff.mpr ⟨rpas, by rw [rpasOf, hvalue]; exact hitems, ?_⟩
    refine except_bind_ok_iff.mpr ⟨(), forM_ok_iff.mpr hnew, ?_⟩
    refine except_bind_ok_iff.mpr ⟨overrides,
      except_bind_ok_iff.mpr ⟨text', textOf_ok_iff.mpr htext', hload'⟩, ?_⟩
    refine except_bind_ok_iff.mpr ⟨(), forM_ok_iff.mpr fun p hp =>
      checkOverride_ok_iff.mpr (hassigned p hp), ?_⟩
    rw [hdry, if_neg Bool.false_ne_true]
    exact except_bind_ok_iff.mpr ⟨(), forM_ok_iff.mpr h.pulp, hpipeline⟩

/-- Appending a block changes the text. -/
theorem appendBlock_ne {text block : Str} (h : block ≠ []) : appendBlock text block ≠ text := by
  intro hsame
  have hlength := congrArg List.length hsame
  have hpos := List.length_pos_of_ne_nil h
  rw [appendBlock, List.length_append, List.length_append] at hlength
  omega

theorem rpaBlock_ne_nil {dumped : Str} (h : dumped ≠ []) : rpaBlock dumped ≠ [] := by
  have hne : splitlines dumped ≠ [] := splitlinesAux_ne_nil (Or.inl h)
  obtain ⟨line, lines, hlines⟩ := List.exists_cons_of_ne_nil hne
  rw [rpaBlock, hlines, List.flatMap_cons]
  simp

/-- The steps after the first write leave its file alone. -/
theorem setupInfraRepo_rpaConfig {product : Str} {dryRun : Bool} :
    Steps (Same ProductFiles.rpaConfig) (setupInfraRepo product dryRun) := by
  have hset : ∀ infra, Steps (Same ProductFiles.rpaConfig) (setInfra infra) := fun infra =>
    steps_modify fun _ => rfl
  unfold setupInfraRepo createTemplates
  refine steps_bind steps_get fun s => steps_bind (steps_lift _) fun infra => ?_
  refine steps_bind steps_raiseIf fun _ => steps_bind steps_raiseIf fun _ => ?_
  refine steps_ite (steps_pure _) ?_
  refine steps_bind (hset _) fun _ => steps_bind (steps_lift _) fun _ => steps_bind (hset _) fun _ => ?_
  refine steps_bind (steps_lift _) fun _ => steps_bind (steps_lift _) fun _ => steps_bind (hset _) fun _ => ?_
  refine steps_bind (steps_lift _) fun _ => steps_bind (hset _) fun _ => ?_
  exact steps_bind (steps_lift _) fun _ => steps_bind (steps_lift _) fun _ => hset _

/-- **`writeProduct_changes`** — from the first write on, the configuration is changed however the run
ends. -/
theorem writeProduct_changes {pipeline : Value × Value} {config : Str} (hconfig : s.rpaConfig = some config) :
    (final (writeProduct env args pipeline) s).rpaConfig ≠ s.rpaConfig := by
  have hread : (lift (textOf "ci/konflux_rpa_config.yml" s.rpaConfig) : Prog Exn ProductFiles Str) s =
      .ok config s := by
    rw [hconfig]
    rfl
  unfold writeProduct
  rw [final_bind_of_ok (run_get s), final_bind_of_ok hread, final_bind_of_ok (run_modify _ s), hconfig]
  -- none of the later steps writes the configuration
  have hrest : ∀ (x : Prog Exn ProductFiles Unit) (s₁ : ProductFiles), Steps (Same ProductFiles.rpaConfig) x →
      (final x s₁).rpaConfig = s₁.rpaConfig := fun x s₁ hx => hx s₁
  rw [hrest]
  · intro hsame
    exact appendBlock_ne (rpaBlock_ne_nil (env.dump_nonempty _)) (Option.some.inj hsame)
  · refine steps_bind (steps_lift _) fun _ => steps_bind (steps_modify fun _ => rfl) fun _ => ?_
    refine steps_bind setupInfraRepo_rpaConfig fun _ => steps_bind (steps_lift _) fun _ => ?_
    exact steps_bind steps_raiseIf fun _ => steps_bind steps_raiseIf fun _ => steps_modify fun _ => rfl

/-- The three configurations have the content they had. -/
def Unchanged (s s' : ProductFiles) : Prop :=
  s'.rpaConfig = s.rpaConfig ∧ s'.overrides = s.overrides ∧ s'.infra = s.infra

/-- **`unchanged_iff_not_ready`** — a run that ends in an error leaves the configurations as they were
exactly when something is wrong before the first write. -/
theorem unchanged_iff_not_ready (env : ProductEnv) (args : ProductArgs) (s s' : ProductFiles) (e : Exn)
    (hdry : args.dryRun = false) (h : addPrivateProduct env args s = .error e s') :
    Unchanged s s' ↔ ¬ Ready env args s := by
  unfold addPrivateProduct at h
  rw [run_bind_of_ok (run_get s)] at h
  rw [← prepare_ok_iff hdry]
  cases hprepare : prepare env args s with
  | error e' =>
      rw [hprepare] at h
      obtain ⟨-, rfl⟩ := EStateM.Result.error.inj h
      refine iff_of_true ⟨rfl, rfl, rfl⟩ ?_
      rintro ⟨_, hok⟩
      exact absurd hok (by simp)
  | ok pipeline =>
      rw [hprepare, run_bind_of_ok (lift_ok pipeline s), hdry, if_neg Bool.false_ne_true] at h
      refine iff_of_false (fun hsame => ?_) fun hnot => hnot ⟨pipeline, rfl⟩
      obtain ⟨text, _, _, _, hconfig, -⟩ := ((prepare_ok_iff hdry).mp ⟨pipeline, hprepare⟩).config
      have hchanges : (final (writeProduct env args pipeline) s).rpaConfig ≠ s.rpaConfig :=
        writeProduct_changes hconfig
      rw [final_of_error h] at hchanges
      exact hchanges hsame.1

end

/-! ## A missing checkout -/

/-- A scalar, plain. -/
def dumpScalar : Value → Str
  | .str s => s
  | v => lowerAscii v.repr

/-- A field in block style, with one level of nesting. -/
def dumpField (indent : Str) : Str × Value → Str
  | (k, .dict inner) => indent ++ k ++ ":\n".toList ++
      inner.flatMap fun e => indent ++ "  ".toList ++ e.1 ++ ": ".toList ++ dumpScalar e.2 ++ ['\n']
  | (k, v) => indent ++ k ++ ": ".toList ++ dumpScalar v ++ ['\n']

/-- `yaml.dump` on a list of one mapping, and on a mapping. -/
def blockDump : Value → Str
  | .list [.dict (e :: es)] => "- ".toList ++ dumpField [] e ++ es.flatMap (dumpField "  ".toList)
  | .dict (e :: es) => dumpField [] e ++ es.flatMap (dumpField [])
  | v => dumpScalar v ++ ['\n']

theorem blockDump_ne_nil (v : Value) : blockDump v ≠ [] := by
  unfold blockDump
  split
  · simp
  · rename_i e es
    obtain ⟨k, v⟩ := e
    cases v <;> simp [dumpField]
  · simp

/-- A configuration with one public entry. -/
def publicConfig : Str :=
  "rpas:\n  - name: staging\n    pipeline_url: \"https://example\"\n    pipeline_revision: production\n".toList

/-- All programs go through, and this configuration and an empty file can be loaded. -/
def dotnetEnv : ProductEnv where
  safeLoad text :=
    if text = publicConfig then
      .ok (.dict [("rpas".toList, .list [.dict [("name".toList, .str "staging".toList),
        ("pipeline_url".toList, .str "https://example".toList),
        ("pipeline_revision".toList, .str "production".toList)]])])
    else if text = [] then .ok .none
    else .error (.raised .yamlError "")
  dump := blockDump
  dump_nonempty := blockDump_ne_nil
  pulpScript _ := .exited 0 [] []
  generateResources := .exited 0 [] []
  gitAdd := true
  gitCommit := true

/-- `add-private-product dotnet` for a package. -/
def dotnetArgs (package : Str) : ProductArgs where
  product := "dotnet"
  packages := [package]
  pulpConfig := none
  pulpSecretName := "secret"

/-- A repository with the package `gcc`, and no directory where the infrastructure checkout should be. -/
def withoutInfra : ProductFiles where
  packages := ["gcc".toList]
  rpaConfig := some publicConfig
  overrides := some []
  infra := none
  commits := []

/-- A package that is not there is found out before the first write. -/
theorem unchanged_iff_not_ready_missing :
    addPrivateProduct dotnetEnv (dotnetArgs "llvm") withoutInfra = .error exit1 withoutInfra ∧
      (Unchanged withoutInfra withoutInfra ↔ ¬ Ready dotnetEnv (dotnetArgs "llvm") withoutInfra) :=
  ⟨rfl, unchanged_iff_not_ready dotnetEnv (dotnetArgs "llvm") withoutInfra withoutInfra exit1 rfl rfl⟩

/-- A checkout that is not there is found out after both files have been written. -/
theorem missing_infra_leaves_writes :
    ∃ s', addPrivateProduct dotnetEnv (dotnetArgs "gcc") withoutInfra = .error exit1 s' ∧
      s'.rpaConfig ≠ withoutInfra.rpaConfig ∧ s'.overrides ≠ withoutInfra.overrides := by
  have hrun : raises (addPrivateProduct dotnetEnv (dotnetArgs "gcc")) withoutInfra (fun e s' =>
      e = exit1 ∧ s'.rpaConfig ≠ withoutInfra.rpaConfig ∧ s'.overrides ≠ withoutInfra.overrides) = true := by
    decide +kernel
  obtain ⟨e, s', hrun, htest⟩ := raises_iff.mp hrun
  obtain ⟨rfl, hchanged⟩ := of_decide_eq_true htest
  exact ⟨s', hrun, hchanged⟩

end HummingbirdRpms
