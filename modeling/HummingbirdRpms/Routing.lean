/-
# HummingbirdRpms.Routing — where packages are released to.

A package belongs to a private product or to the public release, and the pipelines, the Konflux
components and the component lists of the RPAs have to agree on which.  They read `private_product` in
two ways: by the truth of its value, and (for the public RPAs) by the presence of the key.

**`routed_iff`** — a package directory is released where its application says exactly when its
`properties.yml` leaves the application alone, an RPA of its product admits it, no other package under
the same component name is listed elsewhere, and its overrides do not have a `private_product` without
a value.
-/
import HummingbirdRpms.Resources

namespace HummingbirdRpms.Resources

open Lib Lib.Text Lib.Exec
open Value (Entries entry find setEntry updated)

/-! ## What the configuration says -/

/-- The private product of a package: a `private_product` with a value. -/
def productOf (overrides : Value) (name : Str) : Option Value :=
  match packageConfig overrides name with
  | .ok (.dict config) =>
      if (entry "private_product" config).truthy then some (entry "private_product" config) else none
  | _ => none

/-- A package whose overrides have a `private_product` without a value. -/
def Blank (overrides : Value) (name : Str) : Prop :=
  productOf overrides name = none ∧
    ∃ config, packageConfig overrides name = .ok config ∧ config.contains "private_product" = .ok true

/-- `rpa_config.get("private_product")` -/
def rpaProduct : Value → Value
  | .dict config => entry "private_product" config
  | _ => .none

/-- An RPA carries a private product, or, as a public one, the packages without. -/
def Carries (rpa : Value) : Option Value → Prop
  | some product => product.same (rpaProduct rpa) = true
  | none => (rpaProduct rpa).truthy = false

/-- The path filter of an RPA admits a package. -/
def Admits (c : Checkout) (rpa : Value) (name : Str) : Prop :=
  ∃ config p, rpa = .dict config ∧ pathPrefix config = .ok p ∧ admits c p name = true

/-- A package is in the component list of an RPA. -/
def Lists (c : Checkout) (globalConfig rpa : Value) (name : Str) : Prop :=
  ∃ v, buildRelengVariables c rpa globalConfig = .ok v ∧ componentName v.branch name ∈ v.componentList

/-- Two packages have the same component. -/
def SameComponent (name other : Str) : Prop :=
  sanitizeComponentName other = sanitizeComponentName name

/-- An RPA lists a package on its own account. -/
def Routes (c : Checkout) (overrides rpa : Value) (name : Str) : Prop :=
  Admits c rpa name ∧ Carries rpa (productOf overrides name) ∧ ¬ Blank overrides name

/-- The application of a product's packages, and of the others. -/
def applicationOf (branch : Str) : Option Value → Str
  | some product => privateApplication product branch
  | none => defaultApplication branch

/-- `rpm.application_name | default(application_name)` in the templates -/
def effectiveApplication (applicationName : Str) (data : Entries) : Value :=
  (find "application_name" data).getD (.str applicationName)

/-- A package is released where its application says. -/
structure Routed (c : Checkout) (pac : PacVariables) (konflux : KonfluxVariables) (globalConfig : Value)
    (rpas : List Value) (product : Option Value) (name : Str) : Prop where
  pac : ∃ data, (name, data) ∈ pac.rpms ∧
    effectiveApplication pac.applicationName data = .str (applicationOf pac.branch product)
  konflux : ∃ data, (name, data) ∈ konflux.rpms ∧
    effectiveApplication konflux.applicationName data = .str (applicationOf konflux.branch product)
  lists : ∀ rpa ∈ rpas, Lists c globalConfig rpa name ↔ Admits c rpa name ∧ Carries rpa product
  somewhere : ∃ rpa ∈ rpas, Lists c globalConfig rpa name
  hidden : product.isSome = true → ∀ rpa ∈ rpas, (rpaProduct rpa).truthy = false →
    ¬ Lists c globalConfig rpa name

/-- The `properties.yml` of a package names no other application. -/
def PropertiesAgree (c : Checkout) (application name : Str) : Prop :=
  ∀ properties pairs, c.loadYamlFile (propertiesFile name) = .ok properties →
    properties.truthy = true → properties.updates = .ok pairs →
      effectiveApplication application (updated [] pairs) = .str application

/-! ## The component lists -/

section

variable {c : Checkout} {overrides globalConfig rpa product : Value} {rpas : List Value}
  {name other : Str} {packages : List Str}

theorem entry_of_not_contains {config : Entries} {key : Str}
    (h : Value.contains key (.dict config) = .ok false) : entry key config = .none := by
  have hany : config.any (fun e => decide (e.1 = key)) = false := Except.ok.inj h
  have hnone : config.lookup key = none := by
    rw [List.lookup_eq_none_iff]
    intro e he
    have hne : ¬ e.1 = key := by simpa using List.any_eq_false.mp hany e he
    exact bne_iff_ne.mpr (Ne.symm hne)
  rw [entry, hnone]
  rfl

theorem truthy_of_productOf {p : Value} (h : productOf overrides name = some p) :
    p.truthy = true := by
  unfold productOf at h
  split at h
  · split at h
    · rename_i htruthy
      rwa [Option.some.inj h] at htruthy
    · exact absurd h (by simp)
  · exact absurd h (by simp)

theorem productOf_dict {config : Entries} (h : packageConfig overrides name = .ok (.dict config)) :
    productOf overrides name = if (entry "private_product" config).truthy = true then
      some (entry "private_product" config) else none := by
  rw [productOf, h]

/-- A private RPA carries the packages whose product is its own. -/
theorem carries_private {p : Value} (hrpa : (rpaProduct rpa).truthy = true) {config : Entries}
    (hconfig : packageConfig overrides name = .ok (.dict config))
    (hp : p = entry "private_product" config) :
    p.same (rpaProduct rpa) = true ↔ Carries rpa (productOf overrides name) := by
  rw [productOf_dict hconfig, hp]
  constructor
  · intro hsame
    rw [if_pos ((Value.same_truthy hsame).trans hrpa)]
    exact hsame
  · intro hcarries
    split at hcarries
    · exact hcarries
    · rw [Carries, hrpa] at hcarries
      exact absurd hcarries (by simp)

/-- A public RPA carries the packages without a product. -/
theorem carries_public (hrpa : (rpaProduct rpa).truthy = false) :
    Carries rpa (productOf overrides name) ↔ productOf overrides name = none := by
  cases hof : productOf overrides name with
  | none => exact iff_of_true hrpa rfl
  | some p =>
      refine iff_of_false (fun hsame => ?_) (by simp)
      have htruthy := (Value.same_truthy hsame).symm.trans (truthy_of_productOf hof)
      rw [hrpa] at htruthy
      exact absurd htruthy (by simp)

/-- What the product filter of an RPA lets through. -/
theorem selects_iff {keep : Bool} (h : selects overrides (rpaProduct rpa) name = .ok keep) :
    keep = true ↔ Carries rpa (productOf overrides name) ∧ ¬ Blank overrides name := by
  obtain ⟨config, hconfig, h⟩ := except_bind_ok_iff.mp h
  by_cases hrpa : (rpaProduct rpa).truthy = true
  · rw [if_pos hrpa] at h
    obtain ⟨p, hp, h⟩ := except_bind_ok_iff.mp h
    obtain rfl := Except.ok.inj h
    cases config with
    | dict config =>
        rw [carries_private hrpa hconfig (Except.ok.inj hp).symm, iff_self_and]
        intro hcarries hblank
        rw [hblank.1, Carries, hrpa] at hcarries
        exact absurd hcarries (by simp)
    | _ => exact absurd hp (by simp [Value.get])
  · rw [if_neg hrpa] at h
    obtain ⟨keyed, hkeyed, h⟩ := except_bind_ok_iff.mp h
    obtain rfl := Except.ok.inj h
    rw [carries_public (Bool.not_eq_true _ ▸ hrpa)]
    cases keyed with
    | true =>
        refine iff_of_false (by simp) ?_
        rintro ⟨hnone, hblank⟩
        exact hblank ⟨hnone, config, hconfig, hkeyed⟩
    | false =>
        refine iff_of_true rfl ⟨?_, ?_⟩
        · cases config with
          | dict config =>
              rw [productOf_dict hconfig, entry_of_not_contains hkeyed]
              rfl
          | _ => simp [productOf, hconfig]
        · rintro ⟨-, config', hconfig', hkeyed'⟩
          rw [Except.ok.inj (hconfig'.symm.trans hconfig), hkeyed] at hkeyed'
          exact absurd hkeyed' (by simp)

theorem sameComponent_iff {branch : Value} :
    componentName branch other = componentName branch name ↔ SameComponent name other := by
  simp [componentName, SameComponent]

/-- A package is in the component list of an RPA when a package with the same component is there on its
own account. -/
theorem lists_iff {v : RelengVariables} (hv : buildRelengVariables c rpa globalConfig = .ok v)
    (hoverrides : loadOverrides c = .ok overrides) (hpackages : getAllPackages c = .ok packages) :
    Lists c globalConfig rpa name ↔
      ∃ other ∈ packages, SameComponent name other ∧ Routes c overrides rpa other := by
  have hlists : Lists c globalConfig rpa name ↔ componentName v.branch name ∈ v.componentList := by
    constructor
    · rintro ⟨v', hv', hmem⟩
      rwa [Except.ok.inj (hv.symm.trans hv')]
    · exact fun hmem => ⟨v, hv, hmem⟩
  rw [hlists]
  obtain ⟨config, hconfig, hv⟩ := except_bind_ok_iff.mp hv
  obtain ⟨_, -, hv⟩ := except_bind_ok_iff.mp hv
  rw [hoverrides, except_bind_ok, hpackages, except_bind_ok] at hv
  obtain ⟨p, hp, hv⟩ := except_bind_ok_iff.mp hv
  obtain ⟨kept, hkept, hv⟩ := except_bind_ok_iff.mp hv
  obtain ⟨branch, -, hv⟩ := except_bind_ok_iff.mp hv
  obtain ⟨_, -, hv⟩ := except_bind_ok_iff.mp hv
  obtain ⟨_, -, hv⟩ := except_bind_ok_iff.mp hv
  obtain rfl := Except.ok.inj hv
  cases rpa with
  | dict entries =>
      obtain rfl : entries = config := Except.ok.inj hconfig
      have hadmits : ∀ n, Admits c (.dict entries) n ↔ admits c p n = true := by
        intro n
        constructor
        · rintro ⟨entries', p', heq, hp', hadmits⟩
          obtain rfl := Value.dict.inj heq
          rwa [Except.ok.inj (hp.symm.trans hp')]
        · exact fun h => ⟨entries, p, rfl, hp, h⟩
      have hkeep : ∀ n, n ∈ kept ↔ n ∈ packages ∧ Routes c overrides (.dict entries) n := by
        intro n
        rw [mem_filterE hkept, List.mem_filter, and_assoc, Routes, hadmits]
        refine and_congr_right fun hn => and_congr_right fun hadm => ?_
        obtain ⟨keep, hselects⟩ := filterE_ok hkept (List.mem_filter.mpr ⟨hn, hadm⟩)
        rw [← @selects_iff _ (.dict entries) _ _ hselects]
        exact ⟨fun h => Except.ok.inj (hselects.symm.trans h), fun h => by rw [← h]; exact hselects⟩
      simp only [List.mem_map, sameComponent_iff, hkeep]
      constructor
      · rintro ⟨n, ⟨hn, hroutes⟩, hsame⟩
        exact ⟨n, hn, hsame, hroutes⟩
      · rintro ⟨n, hn, hsame, hroutes⟩
        exact ⟨n, ⟨hn, hroutes⟩, hsame⟩
  | _ => exact absurd hconfig (by simp [Value.asDict])

end

/-! ## The applications -/

section

variable {c : Checkout} {overrides : Value} {branch name : Str}

theorem find_setEntry_ne {key k : Str} {v : Value} {data : Entries} (h : k ≠ key) :
    find k (setEntry key v data) = find k data := Value.lookup_setEntry_ne h

theorem find_copyEntry_ne {key k : Str} {config data : Entries} (h : k ≠ key) :
    find k (copyEntry key config data) = find k data := by
  unfold copyEntry
  split
  · exact find_setEntry_ne h
  · rfl

/-- What a mapping has after an update: what the update sets, or what it had. -/
theorem find_updated {key : Str} {data pairs : Entries} :
    find key (updated data pairs) = (find key (updated [] pairs)).or (find key data) := by
  induction pairs using List.reverseRecOn with
  | nil => rfl
  | append_singleton pairs e ih =>
      obtain ⟨k, v⟩ := e
      have hlast : ∀ d, updated d (pairs ++ [(k, v)]) = setEntry k v (updated d pairs) := by
        intro d
        simp [updated]
      rw [hlast, hlast, find, find, Value.lookup_setEntry, Value.lookup_setEntry]
      split
      · rfl
      · exact ih

/-- The application that is set, from the product of the package. -/
theorem effectiveApplication_setApplication {config data : Entries}
    (hconfig : packageConfig overrides name = .ok (.dict config))
    (hdata : find "application_name" data = none) :
    effectiveApplication (defaultApplication branch) (setApplication config branch data) =
      .str (applicationOf branch (productOf overrides name)) := by
  rw [productOf_dict hconfig, setApplication, effectiveApplication]
  split
  · rw [find, Value.lookup_setEntry, if_pos rfl]
    rfl
  · rw [hdata]
    rfl

theorem effectiveApplication_congr {application : Str} {data data' : Entries}
    (h : find "application_name" data = find "application_name" data') :
    effectiveApplication application data = effectiveApplication application data' := by
  rw [effectiveApplication, effectiveApplication, h]

/-- The pipelines of an imported package belong to the application of its product. -/
theorem pacImported_application {resourceType : ResourceType} {data out : Entries}
    (h : pacImported c overrides branch resourceType name data = .ok out)
    (hdata : find "application_name" data = none) :
    effectiveApplication (defaultApplication branch) out =
      .str (applicationOf branch (productOf overrides name)) := by
  obtain ⟨cfg, hconfig, h⟩ := except_bind_ok_iff.mp h
  obtain ⟨_, -, h⟩ := except_bind_ok_iff.mp h
  obtain ⟨config, hdict, h⟩ := except_bind_ok_iff.mp h
  obtain ⟨_, -, h⟩ := except_bind_ok_iff.mp h
  obtain ⟨_, -, h⟩ := except_bind_ok_iff.mp h
  obtain ⟨specs, -, h⟩ := except_bind_ok_iff.mp h
  obtain ⟨_, -, h⟩ := except_bind_ok_iff.mp h
  obtain rfl := Except.ok.inj h
  have hcfg : packageConfig overrides name = .ok (.dict config) := by
    cases cfg with
    | dict config' => rw [hconfig, Except.ok.inj hdict]
    | _ => exact absurd hdict (by simp [Value.asDict])
  have hafter : ∀ (d params : Entries) (paths : List Value), find "application_name"
      (if paths = [] then copyEntry "lookaside_cache_url" config
          (setEntry "extra_params" (.dict params) (setApplication config branch d))
        else setEntry "extra_path_changes" (.list paths) (copyEntry "lookaside_cache_url" config
          (setEntry "extra_params" (.dict params) (setApplication config branch d)))) =
        find "application_name" (setApplication config branch d) := by
    intro d params paths
    split
    · rw [find_copyEntry_ne (by decide), find_setEntry_ne (by decide)]
    · rw [find_setEntry_ne (by decide), find_copyEntry_ne (by decide), find_setEntry_ne (by decide)]
  refine (effectiveApplication_congr (hafter _ _ _)).trans
    (effectiveApplication_setApplication hcfg ?_)
  rw [find_copyEntry_ne (by decide)]
  cases specs with
  | none =>
      rw [Option.map_none, Option.getD_none, find_setEntry_ne (by decide), find_copyEntry_ne (by decide),
        find_setEntry_ne (by decide), find_setEntry_ne (by decide)]
      exact hdata
  | some specs =>
      rw [Option.map_some, Option.getD_some, find_setEntry_ne (by decide),
        find_setEntry_ne (by decide), find_copyEntry_ne (by decide), find_setEntry_ne (by decide),
        find_setEntry_ne (by decide)]
      exact hdata

theorem mem_packageDirs (h : name ∈ packageDirs c) : c.isDir (rpmDir name) = true := by
  unfold packageDirs at h
  split at h
  · simpa using (List.mem_filter.mp h).2
  · exact absurd h List.not_mem_nil

theorem packageDirs_subset {packages : List Str} (h : getAllPackages c = .ok packages)
    (hname : name ∈ packageDirs c) : name ∈ packages := by
  obtain ⟨manifest, -, h⟩ := except_bind_ok_iff.mp h
  obtain ⟨listed, -, h⟩ := except_bind_ok_iff.mp h
  obtain rfl := Except.ok.inj h
  rw [List.mem_insertionSort, List.mem_dedup]
  exact List.mem_append_right _ hname

/-- The pipelines of a package directory belong to the application of its product. -/
theorem pac_application {tenant : Str} {resourceType : ResourceType} {pac : PacVariables}
    (h : buildPacVariables c branch tenant resourceType = .ok pac)
    (hoverrides : loadOverrides c = .ok overrides) (hname : name ∈ packageDirs c) :
    ∃ data, (name, data) ∈ pac.rpms ∧ effectiveApplication pac.applicationName data =
      .str (applicationOf pac.branch (productOf overrides name)) := by
  obtain ⟨packages, hpackages, h⟩ := except_bind_ok_iff.mp h
  rw [hoverrides, except_bind_ok] at h
  obtain ⟨rpms, hrpms, h⟩ := except_bind_ok_iff.mp h
  obtain rfl := Except.ok.inj h
  obtain ⟨p, hp, hpackage⟩ := mapM_ok_mem hrpms (packageDirs_subset hpackages hname)
  obtain ⟨data, hdata, heq⟩ := except_bind_ok_iff.mp hpackage
  obtain rfl := Except.ok.inj heq
  refine ⟨data, hp, ?_⟩
  rw [pacPackage, if_pos (mem_packageDirs hname)] at hdata
  exact pacImported_application hdata rfl

/-- The application in the Konflux component of a package directory is that of its product, unless its
`properties.yml` says otherwise. -/
theorem konfluxImported_application {data out : Entries}
    (h : konfluxImported c overrides branch name data = .ok out)
    (hdata : find "application_name" data = none) :
    effectiveApplication (defaultApplication branch) out =
        .str (applicationOf branch (productOf overrides name)) ↔
      PropertiesAgree c (applicationOf branch (productOf overrides name)) name := by
  obtain ⟨cfg, hconfig, h⟩ := except_bind_ok_iff.mp h
  obtain ⟨config, hdict, h⟩ := except_bind_ok_iff.mp h
  obtain ⟨properties, hproperties, h⟩ := except_bind_ok_iff.mp h
  have hcfg : packageConfig overrides name = .ok (.dict config) := by
    cases cfg with
    | dict config' => rw [hconfig, Except.ok.inj hdict]
    | _ => exact absurd hdict (by simp [Value.asDict])
  have happ := @effectiveApplication_setApplication _ branch _ _ _ hcfg hdata
  generalize applicationOf branch (productOf overrides name) = application at happ ⊢
  by_cases htruthy : properties.truthy = true
  · rw [if_pos htruthy] at h
    obtain ⟨pairs, hpairs, h⟩ := except_bind_ok_iff.mp h
    obtain rfl := Except.ok.inj h
    have hagree : PropertiesAgree c application name ↔
        effectiveApplication application (updated [] pairs) = .str application := by
      constructor
      · exact fun h => h properties pairs hproperties htruthy hpairs
      · intro h properties' pairs' hproperties' _ hpairs'
        obtain rfl := Except.ok.inj (hproperties.symm.trans hproperties')
        rwa [Except.ok.inj (hpairs'.symm.trans hpairs)]
    rw [hagree, effectiveApplication, effectiveApplication, find_updated]
    cases hfind : find "application_name" (updated [] pairs) with
    | none => exact iff_of_true happ rfl
    | some v => rfl
  · rw [if_neg htruthy] at h
    obtain ⟨pairs, hpairs, h⟩ := except_bind_ok_iff.mp h
    obtain rfl := Except.ok.inj h
    obtain rfl := Except.ok.inj hpairs
    refine iff_of_true happ fun properties' _ hproperties' htruthy' => ?_
    rw [Except.ok.inj (hproperties'.symm.trans hproperties)] at htruthy'
    exact absurd htruthy' htruthy

theorem konflux_application {tenant gitRepo : Str} {konflux : KonfluxVariables}
    (h : buildKonfluxVariables c branch tenant gitRepo = .ok konflux)
    (hoverrides : loadOverrides c = .ok overrides) (hname : name ∈ packageDirs c) :
    (∃ data, (name, data) ∈ konflux.rpms ∧ effectiveApplication konflux.applicationName data =
      .str (applicationOf konflux.branch (productOf overrides name))) ↔
        PropertiesAgree c (applicationOf branch (productOf overrides name)) name := by
  obtain ⟨packages, hpackages, h⟩ := except_bind_ok_iff.mp h
  rw [hoverrides, except_bind_ok] at h
  obtain ⟨rpms, hrpms, h⟩ := except_bind_ok_iff.mp h
  obtain rfl := Except.ok.inj h
  have hentry : ∀ data, (name, data) ∈ rpms → konfluxPackage c overrides branch name = .ok data := by
    intro data hmem
    obtain ⟨n, -, hpackage⟩ := mem_of_mapM_ok hrpms hmem
    obtain ⟨data', hdata', heq⟩ := except_bind_ok_iff.mp hpackage
    obtain ⟨rfl, rfl⟩ := Prod.mk.inj (Except.ok.inj heq)
    exact hdata'
  have hiff : ∀ data, (name, data) ∈ rpms →
      (effectiveApplication (defaultApplication branch) data =
          .str (applicationOf branch (productOf overrides name)) ↔
        PropertiesAgree c (applicationOf branch (productOf overrides name)) name) := by
    intro data hmem
    have hdata := hentry data hmem
    rw [konfluxPackage, if_pos (mem_packageDirs hname)] at hdata
    exact konfluxImported_application hdata rfl
  obtain ⟨p, hp, hpackage⟩ := mapM_ok_mem hrpms (packageDirs_subset hpackages hname)
  obtain ⟨data, -, heq⟩ := except_bind_ok_iff.mp hpackage
  obtain rfl := Except.ok.inj heq
  constructor
  · rintro ⟨data', hmem, happ⟩
    exact (hiff data' hmem).mp happ
  · exact fun hagree => ⟨data, hp, (hiff data hp).mpr hagree⟩

/-- Every RPA of a run that raises nothing has its variables. -/
theorem generateReleng_builds {render : RelengVariables → Except Exn Str} {results : List (Value × Str)}
    {globalConfig : Value} {rpas : List Value} (h : generateReleng c render = .ok results)
    (hconfig : loadRelengConfig c = .ok (globalConfig, rpas)) {rpa : Value} (hrpa : rpa ∈ rpas) :
    ∃ v, buildRelengVariables c rpa globalConfig = .ok v := by
  rw [generateReleng, hconfig, except_bind_ok] at h
  obtain ⟨_, -, h⟩ := except_bind_ok_iff.mp h
  obtain ⟨_, -, h⟩ := except_bind_ok_iff.mp h
  obtain ⟨_, -, h⟩ := except_bind_ok_iff.mp h
  obtain ⟨_, -, h⟩ := except_bind_ok_iff.mp h
  obtain ⟨out, hout, -⟩ := except_bind_ok_iff.mp h
  obtain ⟨_, -, hresult⟩ := mapM_ok_mem hout hrpa
  obtain ⟨_, -, hresult⟩ := except_bind_ok_iff.mp hresult
  obtain ⟨v, hv, -⟩ := except_bind_ok_iff.mp hresult
  exact ⟨v, hv⟩

/-! ## Release routing -/

/-- **`routed_iff`** — a package directory is released where its application says exactly when its
`properties.yml` leaves the application alone, some RPA of its product admits it, no package with the
same component is listed where it does not belong, and its overrides do not have a `private_product`
without a value (unless another package with the same component stands in for it). -/
theorem routed_iff {render : RelengVariables → Except Exn Str} {results : List (Value × Str)}
    {globalConfig : Value} {rpas : List Value} {packages : List Str} {tenant gitRepo : Str}
    {resourceType : ResourceType} {pac : PacVariables} {konflux : KonfluxVariables}
    (hreleng : generateReleng c render = .ok results)
    (hconfig : loadRelengConfig c = .ok (globalConfig, rpas))
    (hoverrides : loadOverrides c = .ok overrides) (hpackages : getAllPackages c = .ok packages)
    (hpac : buildPacVariables c branch tenant resourceType = .ok pac)
    (hkonflux : buildKonfluxVariables c branch tenant gitRepo = .ok konflux)
    (hname : name ∈ packageDirs c) :
    Routed c pac konflux globalConfig rpas (productOf overrides name) name ↔
      PropertiesAgree c (applicationOf branch (productOf overrides name)) name ∧
        (∃ rpa ∈ rpas, Admits c rpa name ∧ Carries rpa (productOf overrides name)) ∧
        (∀ rpa ∈ rpas, ∀ other ∈ packages, SameComponent name other → Routes c overrides rpa other →
          Admits c rpa name ∧ Carries rpa (productOf overrides name)) ∧
        (Blank overrides name → ∀ rpa ∈ rpas, Admits c rpa name → Carries rpa none →
          ∃ other ∈ packages, SameComponent name other ∧ Routes c overrides rpa other) := by
  have hlists : ∀ rpa ∈ rpas, (Lists c globalConfig rpa name ↔
      ∃ other ∈ packages, SameComponent name other ∧ Routes c overrides rpa other) := by
    intro rpa hrpa
    obtain ⟨v, hv⟩ := generateReleng_builds hreleng hconfig hrpa
    exact lists_iff hv hoverrides hpackages
  have hmem := packageDirs_subset hpackages hname
  have hproperties := konflux_application hkonflux hoverrides hname
  constructor
  · intro h
    refine ⟨hproperties.mp h.konflux, ?_, ?_, ?_⟩
    · obtain ⟨rpa, hrpa, hin⟩ := h.somewhere
      exact ⟨rpa, hrpa, (h.lists rpa hrpa).mp hin⟩
    · intro rpa hrpa other hother hsame hroutes
      exact (h.lists rpa hrpa).mp ((hlists rpa hrpa).mpr ⟨other, hother, hsame, hroutes⟩)
    · intro hblank rpa hrpa hadmits hcarries
      rw [← hblank.1] at hcarries
      exact (hlists rpa hrpa).mp ((h.lists rpa hrpa).mpr ⟨hadmits, hcarries⟩)
  · rintro ⟨hagree, ⟨rpa₀, hrpa₀, hadmits₀, hcarries₀⟩, hothers, hblank⟩
    have hexact : ∀ rpa ∈ rpas, (Lists c globalConfig rpa name ↔
        Admits c rpa name ∧ Carries rpa (productOf overrides name)) := by
      intro rpa hrpa
      rw [hlists rpa hrpa]
      constructor
      · rintro ⟨other, hother, hsame, hroutes⟩
        exact hothers rpa hrpa other hother hsame hroutes
      · rintro ⟨hadmits, hcarries⟩
        by_cases hb : Blank overrides name
        · rw [hb.1] at hcarries
          exact hblank hb rpa hrpa hadmits hcarries
        · exact ⟨name, hmem, rfl, hadmits, hcarries, hb⟩
    refine ⟨pac_application hpac hoverrides hname, hproperties.mpr hagree, hexact,
      ⟨rpa₀, hrpa₀, (hexact rpa₀ hrpa₀).mpr ⟨hadmits₀, hcarries₀⟩⟩, ?_⟩
    intro hsome rpa hrpa hpublic hin
    obtain ⟨-, hcarries⟩ := (hexact rpa hrpa).mp hin
    rw [carries_public hpublic] at hcarries
    rw [hcarries] at hsome
    exact absurd hsome (by simp)

end

/-- The settings of all RPAs. -/
def globalSettings : Value :=
  .dict [("branch", .str "main"), ("release_tenant", .str "releng"), ("tenant", .str "hummingbird")]

/-- An RPA without a private product, for the packages under `rpms/`. -/
def publicRpa : Value :=
  .dict (("component_filter".toList, .dict [("path_prefix", .str "rpms/")]) ::
    requiredRpaFields.map fun field => (field, .str "public"))

/-- A checkout with one package directory, `foo`, one public RPA and the overrides given for `foo`. -/
def onePackage (config : Entries) : Checkout where
  file := fun p =>
    if p = "rpms" ∨ p = "rpms/foo" then some .dir
    else if p = "ci/package-overrides.yaml" then some (.text "overrides")
    else if p = "ci/konflux_rpa_config.yml" then some (.text "rpas")
    else none
  children := fun p => if p = "rpms" then ["foo"] else []
  safeLoad := fun text =>
    if text = "overrides" then .ok (.dict [("foo", .dict config)])
    else .ok (.dict [("global", globalSettings), ("rpas", .list [publicRpa])])

/-- With `private_product:` left empty in its overrides, `foo` stays in the public application, and no
RPA lists it. -/
theorem blank_product_not_routed :
    let c := onePackage [("private_product", .none)]
    ∃ results pac konflux, generateReleng c (fun _ => .ok []) = .ok results ∧
      loadRelengConfig c = .ok (globalSettings, [publicRpa]) ∧
      buildPacVariables c "main" "hummingbird" .push = .ok pac ∧
      buildKonfluxVariables c "main" "hummingbird" "git" = .ok konflux ∧
      "foo".toList ∈ packageDirs c ∧
      ∀ product, ¬ Routed c pac konflux globalSettings [publicRpa] product "foo" := by
  intro c
  obtain ⟨results, hresults⟩ := exists_ok (x := generateReleng c (fun _ => .ok [])) (by decide +kernel)
  obtain ⟨pac, hpac⟩ := exists_ok (x := buildPacVariables c "main" "hummingbird" .push)
    (by decide +kernel)
  obtain ⟨konflux, hkonflux⟩ := exists_ok (x := buildKonfluxVariables c "main" "hummingbird" "git")
    (by decide +kernel)
  refine ⟨results, pac, konflux, hresults, rfl, hpac, hkonflux, by decide +kernel, ?_⟩
  intro product hrouted
  obtain ⟨rpa, hrpa, v, hv, hlisted⟩ := hrouted.somewhere
  obtain rfl := List.mem_singleton.mp hrpa
  have hempty : (buildRelengVariables c publicRpa globalSettings).toOption.map (·.componentList) =
      some [] := by decide +kernel
  rw [hv] at hempty
  have hnil : v.componentList = [] := Option.some.inj hempty
  rw [hnil] at hlisted
  exact absurd hlisted List.not_mem_nil

/-- Without overrides, `foo` is released by the public RPA. -/
theorem routed_iff_public :
    let c := onePackage []
    ∃ pac konflux, buildPacVariables c "main" "hummingbird" .push = .ok pac ∧
      buildKonfluxVariables c "main" "hummingbird" "git" = .ok konflux ∧
      Routed c pac konflux globalSettings [publicRpa] none "foo" := by
  intro c
  obtain ⟨results, hresults⟩ := exists_ok (x := generateReleng c (fun _ => .ok [])) (by decide +kernel)
  obtain ⟨pac, hpac⟩ := exists_ok (x := buildPacVariables c "main" "hummingbird" .push)
    (by decide +kernel)
  obtain ⟨konflux, hkonflux⟩ := exists_ok (x := buildKonfluxVariables c "main" "hummingbird" "git")
    (by decide +kernel)
  have hpackages : getAllPackages c = .ok ["foo".toList] := by decide +kernel
  have hcarries : Carries publicRpa none := by
    show (rpaProduct publicRpa).truthy = false
    decide
  have hadmits : Admits c publicRpa "foo" := ⟨_, "rpms/".toList, rfl, rfl, by decide +kernel⟩
  refine ⟨pac, konflux, hpac, hkonflux, (routed_iff hresults rfl rfl hpackages hpac hkonflux
    (by decide +kernel)).mpr ⟨?_, ⟨publicRpa, List.mem_singleton_self _, hadmits, hcarries⟩, ?_, ?_⟩⟩
  · intro properties pairs hproperties htruthy _
    obtain rfl : properties = .none := (Except.ok.inj hproperties).symm
    exact absurd htruthy (by decide)
  · intro rpa hrpa other _ _ _
    obtain rfl := List.mem_singleton.mp hrpa
    exact ⟨hadmits, hcarries⟩
  · rintro ⟨-, config, hconfig, hkeyed⟩
    obtain rfl : config = .dict [] := (Except.ok.inj hconfig).symm
    exact absurd hkeyed (by decide)

end HummingbirdRpms.Resources
