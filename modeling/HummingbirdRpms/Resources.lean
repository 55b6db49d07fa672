/-
# HummingbirdRpms.Resources — the Tekton, Konflux and release resources (`ci/generate_resources.py`).

Three builders read the same overrides file and decide, each on its own, which packages belong to a
private product: `build_pac_variables` and `build_konflux_variables` put a package into an application
of its own, `build_releng_variables` lists it in the component list of a ReleasePlanAdmission (RPA).

The templates are rendered from these variables by an external engine, which is a parameter here, and so
is the YAML parser.
-/
import Mathlib.Data.List.Sort
import Mathlib.Data.List.Dedup
import HummingbirdRpms.Runtime

namespace HummingbirdRpms.Resources

open Lib Lib.Text Lib.Exec
open Value (Entries entry find setEntry updated)

/-! ## The repository -/

/-- The checkout the generator runs in: what a path holds, the names in a directory, and the YAML
parser. -/
structure Checkout where
  file : Path → Option File
  children : Path → List Str
  safeLoad : Str → Except Exn Value

namespace Checkout

variable (c : Checkout)

def isDir (p : Path) : Bool := c.file p = some .dir

def pathExists (p : Path) : Bool := (c.file p).isSome

/-- `yaml.safe_load` of an open file -/
def load (p : Path) (f : File) : Except Exn Value := do
  c.safeLoad (← decodeText p f)

/-- `load_yaml_file` -/
def loadYamlFile (p : Path) : Except Exn Value :=
  match c.file p with
  | none => .ok .none
  | some f => c.load p f

end Checkout

/-- `directory / name` -/
def joinPath (directory name : Path) : Path :=
  if directory = [] then name else directory ++ '/' :: name

/-- `ROOT_DIR / "rpms" / name` -/
def rpmDir (name : Str) : Path := joinPath "rpms" name

/-- What the manifest lists. -/
def manifestPackages (manifest : Value) : Except Exn (List Str) := do
  if !manifest.truthy then return []
  if !(← manifest.contains "packages") then return []
  (← (← manifest.index "packages").items).mapM Value.asStr

/-- The package directories. -/
def packageDirs (c : Checkout) : List Str :=
  if c.pathExists "rpms" then (c.children "rpms").filter fun name => c.isDir (rpmDir name) else []

/-- `get_all_packages` -/
def getAllPackages (c : Checkout) : Except Exn (List Str) := do
  let listed ← manifestPackages (← c.loadYamlFile "target-packages.yml")
  return (listed ++ packageDirs c).dedup.insertionSort (· ≤ ·)

/-- `sanitize_component_name` -/
def sanitizeComponentName (name : Str) : Str :=
  lowerAscii (replace "." "-" (replace "+" "-" (replace "_" "-" name)))

/-- `ci/package-overrides.yaml`, as all three builders load it -/
def loadOverrides (c : Checkout) : Except Exn Value := do
  return (← c.loadYamlFile "ci/package-overrides.yaml").orDict

/-- `package_overrides.get(name, {})` -/
def packageConfig (overrides : Value) (name : Str) : Except Exn Value := do
  return ((← overrides.asDict).lookup name).getD (.dict [])

/-- The application of a private product -/
def privateApplication (product : Value) (branch : Str) : Str :=
  "private-".toList ++ product.format ++ "-rpms-".toList ++ branch

/-- `application_name` of the packages without one of their own -/
def defaultApplication (branch : Str) : Str := "rpms-".toList ++ branch

/-- `private_product = pkg_config.get("private_product")`, and the application it puts a package in -/
def setApplication (config : Entries) (branch : Str) (data : Entries) : Entries :=
  let product := entry "private_product" config
  if product.truthy then setEntry "application_name" (.str (privateApplication product branch)) data
  else data

/-! ## Pipelines as code -/

/-- `RPMBUILD_PIPELINE_TASK_NAMES` -/
def rpmbuildPipelineTaskNames : List Str := ["rpmbuild-x86-64", "rpmbuild-aarch64"]

/-- `expand_task_run_specs`, of one spec -/
def expandTaskRunSpec (spec : Value) : Except Exn (List Value) := do
  let name ← spec.get "pipelineTaskName"
  let entries ← spec.asDict
  return if name.isStr "rpmbuild" then
      rpmbuildPipelineTaskNames.map fun task => .dict (setEntry "pipelineTaskName" (.str task) entries)
    else [spec]

/-- `expand_task_run_specs` -/
def expandTaskRunSpecs (specs : Value) : Except Exn Value := do
  return .list (← (← specs.items).mapM expandTaskRunSpec).flatten

/-- `resource_type` -/
inductive ResourceType where
  | push
  | pullRequest
  deriving DecidableEq

/-- The upstream name of an imported package. -/
def upstreamName (dname : Str) (isHummingbird : Bool) (metadata : Value) : Except Exn Str := do
  if !metadata.truthy then return dname
  if (← metadata.get "modification_status").isStr "independent" then return dname
  if isHummingbird then return dname
  if !(← metadata.contains "source") then return dname
  return pathStem (← (← metadata.index "source").asStr)

/-- `extra_params` -/
def extraParams (config : Entries) (resourceType : ResourceType) : Except Exn Entries := do
  let params : Entries := [("purl-rpm-namespace", .str "redhat")]
  let params ←
    match find "extra_params" config with
    | some extra => return updated params (← extra.updates)
    | none => .ok params
  return if resourceType = .pullRequest then setEntry "image-expires-after" (.str "5d") params
    else params

/-- `extra_path_changes` -/
def extraPaths (c : Checkout) (dname : Str) (resourceType : ResourceType) : List Value :=
  let testFile := "test/rpms/".toList ++ dname ++ ".yml".toList
  (if c.pathExists testFile then [.str testFile] else []) ++
    if dname = "setup" ∧ resourceType = .pullRequest then [.str "ci/***", .str "mock/***"] else []

/-- `data[key] = config[key]`, when it is there -/
def copyEntry (key : Str) (config data : Entries) : Entries :=
  match find key config with
  | some v => setEntry key v data
  | none => data

/-- The spec file of a package. -/
def specFile (c : Checkout) (dname : Str) : Str :=
  ((c.children (rpmDir dname)).find? (endsWith ".spec")).getD (dname ++ ".spec".toList)

/-- What `build_pac_variables` adds for an imported package. -/
def pacImported (c : Checkout) (overrides : Value) (branch : Str) (resourceType : ResourceType)
    (dname : Str) (data : Entries) : Except Exn Entries := do
  let config ← packageConfig overrides dname
  let metadata ← c.loadYamlFile ("metadata/".toList ++ dname ++ ".json".toList)
  let config ← config.asDict
  let isHummingbird ← ((find "forked_from" config).getD (.str [])).contains "hummingbird"
  let packageName ← upstreamName dname isHummingbird metadata
  let data := setEntry "specfile" (.str (specFile c dname)) data
  let data := setEntry "package_name" (.str packageName) data
  let data := copyEntry "timeout_hours" config data
  let data := setEntry "build_platforms" ((find "build_platforms" config).getD
    (.list [.str "linux/x86_64", .str "linux/arm64"])) data
  let taskRunSpecs ← (find "task_run_specs" config).mapM expandTaskRunSpecs
  let data := (taskRunSpecs.map fun specs => setEntry "task_run_specs" specs data).getD data
  let data := copyEntry "forked_from" config data
  let data := setApplication config branch data
  let params ← extraParams config resourceType
  let data := setEntry "extra_params" (.dict params) data
  let data := copyEntry "lookaside_cache_url" config data
  let paths := extraPaths c dname resourceType
  return if paths = [] then data else setEntry "extra_path_changes" (.list paths) data

/-- The entry of one package in `build_pac_variables`. -/
def pacPackage (c : Checkout) (overrides : Value) (branch : Str) (resourceType : ResourceType)
    (dname : Str) : Except Exn Entries :=
  let imported := c.isDir (rpmDir dname)
  let data : Entries :=
    [("name", .str (sanitizeComponentName dname ++ '-' :: branch)), ("dname", .str dname),
      ("imported", .bool imported), ("timeout_hours", .num false "4")]
  if imported then pacImported c overrides branch resourceType dname data else .ok data

/-- What `build_pac_variables` returns; `rpms` with the package each entry is for. -/
structure PacVariables where
  branch : Str
  applicationName : Str
  pipelineBundle : Str
  tenant : Str
  rpms : List (Str × Entries)

/-- `PIPELINE_BUNDLE` -/
def pipelineBundle : Str :=
  "quay.io/hummingbird-ci/rpmbuild-pipeline:latest@sha256:356d14ae179590728498782dd0e829b5e746afc28690ef95ee6993b320fe3a9c"

/-- `build_pac_variables` -/
def buildPacVariables (c : Checkout) (branch tenant : Str) (resourceType : ResourceType) :
    Except Exn PacVariables := do
  let packages ← getAllPackages c
  let overrides ← loadOverrides c
  let rpms ← packages.mapM fun dname =>
    return (dname, ← pacPackage c overrides branch resourceType dname)
  return ⟨branch, defaultApplication branch, pipelineBundle, tenant, rpms⟩

/-! ## Konflux resources -/

/-- `ROOT_DIR / "rpms" / name / "properties.yml"` -/
def propertiesFile (name : Str) : Path := joinPath (rpmDir name) "properties.yml"

/-- What `build_konflux_variables` adds for an imported package. -/
def konfluxImported (c : Checkout) (overrides : Value) (branch name : Str) (data : Entries) :
    Except Exn Entries := do
  let config ← (← packageConfig overrides name).asDict
  let data := setApplication config branch data
  let properties ← c.loadYamlFile (propertiesFile name)
  return updated data (← if properties.truthy then properties.updates else .ok [])

/-- The entry of one package in `build_konflux_variables`. -/
def konfluxPackage (c : Checkout) (overrides : Value) (branch name : Str) : Except Exn Entries :=
  let imported := c.isDir (rpmDir name)
  let data : Entries :=
    [("name", .str name), ("imported", .bool imported),
      ("component_name", .str (sanitizeComponentName name ++ '-' :: branch)), ("repository", .str name),
      ("tags", .list [.str "latest"])]
  if imported then konfluxImported c overrides branch name data else .ok data

/-- What `build_konflux_variables` returns; `rpms` with the package each entry is for. -/
structure KonfluxVariables where
  applicationName : Str
  branch : Str
  tenant : Str
  gitRepo : Str
  rpms : List (Str × Entries)

/-- `build_konflux_variables` -/
def buildKonfluxVariables (c : Checkout) (branch tenant gitRepo : Str) :
    Except Exn KonfluxVariables := do
  let packages ← getAllPackages c
  let overrides ← loadOverrides c
  let rpms ← packages.mapM fun name => return (name, ← konfluxPackage c overrides branch name)
  return ⟨defaultApplication branch, branch, tenant, gitRepo, rpms⟩

/-! ## ReleasePlanAdmissions -/

/-- `_REQUIRED_RPA_FIELDS` -/
def requiredRpaFields : List Str :=
  ["name", "application_prefix", "release_org", "single_component_mode", "service_account_name",
    "pulp_unsigned_domain", "pulp_signed_domain", "pulp_secret_name", "pipeline_revision",
    "pipeline_url"]

/-- What `build_releng_variables` returns; of `component_list`, the names. -/
structure RelengVariables where
  name : Value
  applicationPrefix : Value
  releaseOrg : Value
  singleComponentMode : Value
  serviceAccountName : Value
  componentList : List Str
  releaseTenant : Value
  branch : Value
  tenant : Value
  pulpUnsignedDomain : Value
  pulpSignedDomain : Value
  pulpSecretName : Value
  pipelineRevision : Value
  pipelineUrl : Value

/-- The check of the required fields. -/
def checkRequired (config : Entries) : Except Exn PUnit :=
  requiredRpaFields.forM fun field =>
    failIf ((find field config).isNone) (.raised .valueError
      ("RPA '".toList ++ ((find "name" config).getD (.str "<unnamed>")).format ++
        "' is missing required field '".toList ++ field ++ "' in ci/konflux_rpa_config.yml".toList))

/-- Whether the path filter of an RPA admits a package. -/
def admits (c : Checkout) (pathPrefix : Str) (name : Str) : Bool :=
  pathPrefix = [] || c.isDir (joinPath (rstripBy (· = '/') pathPrefix) name)

/-- `component_filter.get("path_prefix", "")`, where a false value is no prefix -/
def pathPrefix (config : Entries) : Except Exn Str := do
  let filter ← ((find "component_filter" config).getD (.dict [])).asDict
  match (find "path_prefix" filter).getD (.str []) with
  | .str p => .ok p
  | v => if v.truthy then .error (.raised .attributeError "rstrip") else .ok []

/-- Whether the product filter of an RPA lets a package through. -/
def selects (overrides product : Value) (name : Str) : Except Exn Bool := do
  let config ← packageConfig overrides name
  if product.truthy then return (← config.get "private_product").same product
  return !(← config.contains "private_product")

/-- The component of a package. -/
def componentName (branch : Value) (name : Str) : Str :=
  sanitizeComponentName name ++ '-' :: branch.format

/-- `build_releng_variables` -/
def buildRelengVariables (c : Checkout) (rpaConfig globalConfig : Value) :
    Except Exn RelengVariables := do
  let config ← rpaConfig.asDict
  checkRequired config
  let overrides ← loadOverrides c
  let packages ← getAllPackages c
  let packages := packages.filter (admits c (← pathPrefix config))
  let packages ← filterE (selects overrides (entry "private_product" config)) packages
  let branch ← globalConfig.index "branch"
  let releaseTenant ← globalConfig.index "release_tenant"
  let tenant ← globalConfig.index "tenant"
  return {
    name := entry "name" config
    applicationPrefix := entry "application_prefix" config
    releaseOrg := entry "release_org" config
    singleComponentMode := entry "single_component_mode" config
    serviceAccountName := entry "service_account_name" config
    componentList := packages.map (componentName branch)
    releaseTenant := releaseTenant
    branch := branch
    tenant := tenant
    pulpUnsignedDomain := entry "pulp_unsigned_domain" config
    pulpSignedDomain := entry "pulp_signed_domain" config
    pulpSecretName := entry "pulp_secret_name" config
    pipelineRevision := entry "pipeline_revision" config
    pipelineUrl := entry "pipeline_url" config
  }

/-- `load_releng_config`, and its two parts -/
def loadRelengConfig (c : Checkout) : Except Exn (Value × List Value) := do
  let path : Path := "ci/konflux_rpa_config.yml"
  let config ←
    match c.file path with
    | none => .error (.raised .osError path)
    | some f => c.load path f
  let globalConfig ← config.index "global"
  return (globalConfig, ← (← config.index "rpas").items)

/-- `known_products` -/
def knownProducts : List Value → Except Exn (List Value)
  | [] => .ok []
  | rpa :: rpas => do
      if !(← rpa.contains "private_product") then knownProducts rpas
      else do
        let product ← rpa.index "private_product"
        failIf (!product.hashable) (.raised .typeError "unhashable type")
        return product :: (← knownProducts rpas)

/-- `sorted(known_products)`, as it is printed -/
def sortedProducts (known : List Value) : Except Exn Str := do
  let names ← known.mapM Value.asStr
  return '[' :: join ", " ((names.dedup.insertionSort (· ≤ ·)).map reprStr) ++ [']']

/-- The check that a private product has an RPA. -/
def checkProduct (known : List Value) (package : Str) (config : Value) : Except Exn PUnit :=
  match config with
  | .dict entries =>
      let product := entry "private_product" entries
      if !product.truthy then .ok ⟨⟩
      else if !product.hashable then .error (.raised .typeError "unhashable type")
      else if known.any product.same then .ok ⟨⟩
      else do
        let products ← sortedProducts known
        .error (.raised .valueError ("Package '".toList ++ package ++ "' has private_product: '".toList ++
          product.format ++ "' but no RPA entry has private_product: '".toList ++ product.format ++
          "'. Known products: ".toList ++ products))
  | _ => .ok ⟨⟩

/-- One resource: its variables, rendered, with a line break at the end. -/
def generateRpa (c : Checkout) (render : RelengVariables → Except Exn Str) (globalConfig rpaConfig : Value) :
    Except Exn (Value × Str) := do
  let name ← rpaConfig.index "name"
  let result ← render (← buildRelengVariables c rpaConfig globalConfig)
  failIf (!name.hashable) (.raised .typeError "unhashable type")
  return (name, if endsWith "\n" result then result else result ++ "\n".toList)

/-- `results[name] = result` -/
def putResult (results : List (Value × Str)) (result : Value × Str) : List (Value × Str) :=
  results.filter (fun r => !r.1.same result.1) ++ [result]

/-- `generate_releng` -/
def generateReleng (c : Checkout) (render : RelengVariables → Except Exn Str) :
    Except Exn (List (Value × Str)) := do
  let (globalConfig, rpas) ← loadRelengConfig c
  let overrides ← (← loadOverrides c).asDict
  let known ← knownProducts rpas
  overrides.forM fun e => checkProduct known e.1 e.2
  return (← rpas.mapM (generateRpa c render globalConfig)).foldl putResult []

end HummingbirdRpms.Resources
