/-
# HummingbirdRpms.Components — whether two packages can get one component.

All three builders of `ci/generate_resources.py` derive the name of a component from the name of its
package with `sanitize_component_name`, which folds the case of letters and four punctuation characters
into one.  None of them compares the names it has derived.

**`components_distinct_iff`** says when the components of a generation are pairwise distinct: exactly
when no two of its packages have names that agree up to that folding.
-/
import HummingbirdRpms.Routing

namespace HummingbirdRpms.Resources

open Lib Lib.Text Lib.Exec
open Value (Entries entry find setEntry updated)

/-! ## What the name of a component says about its package -/

/-- What `sanitize_component_name` makes of a character. -/
def foldChar (c : Char) : Char :=
  if c = '_' ∨ c = '+' ∨ c = '.' then '-' else lowerChar c

/-- Two names agree, character by character, up to case and the folded punctuation. -/
def SameFolded (p q : Str) : Prop := List.Forall₂ (fun a b => foldChar a = foldChar b) p q

theorem sanitizeComponentName_eq (name : Str) : sanitizeComponentName name = name.map foldChar := by
  unfold sanitizeComponentName lowerAscii
  have hsingle : ∀ (a b : Char) (s : Str), replace [a] [b] s = s.map fun c => if c = a then b else c :=
    fun _ _ _ => replace_single
  rw [show replace "_" "-" name = name.map _ from hsingle '_' '-' name]
  rw [show ∀ s, replace "+" "-" s = s.map _ from hsingle '+' '-']
  rw [show ∀ s, replace "." "-" s = s.map _ from hsingle '.' '-']
  rw [List.map_map, List.map_map, List.map_map]
  apply List.map_congr_left
  intro c _
  unfold foldChar
  by_cases hu : c = '_'
  · subst hu
    decide
  by_cases hp : c = '+'
  · subst hp
    decide
  by_cases hd : c = '.'
  · subst hd
    decide
  simp [hu, hp, hd]

/-- Two packages get the same sanitized name exactly when their names agree up to the folding. -/
theorem sanitizeComponentName_eq_iff {p q : Str} :
    sanitizeComponentName p = sanitizeComponentName q ↔ SameFolded p q := by
  rw [sanitizeComponentName_eq, sanitizeComponentName_eq, SameFolded, ← List.forall₂_eq_eq_eq,
    List.forall₂_map_left_iff, List.forall₂_map_right_iff]

theorem component_eq_iff {p q branch : Str} :
    sanitizeComponentName p ++ '-' :: branch = sanitizeComponentName q ++ '-' :: branch ↔
      SameFolded p q := by
  rw [List.append_cancel_right_eq, sanitizeComponentName_eq_iff]

/-! ## The three builders -/

section

variable {c : Checkout} {overrides : Value} {branch tenant gitRepo name : Str}
  {resourceType : ResourceType}

/-- The `properties.yml` of a package leaves its component name to the generator. -/
def DerivesComponent (c : Checkout) (name : Str) : Prop :=
  ∀ properties pairs, c.loadYamlFile (propertiesFile name) = .ok properties → properties.truthy = true →
    properties.updates = .ok pairs → find "component_name" (updated [] pairs) = none

/-- The packages `build_releng_variables` lists for an RPA. -/
def relengPackages (c : Checkout) (rpaConfig : Value) : Except Exn (List Str) := do
  let config ← rpaConfig.asDict
  let overrides ← loadOverrides c
  let packages ← getAllPackages c
  filterE (selects overrides (entry "private_product" config))
    (packages.filter (admits c (← pathPrefix config)))

theorem find_setApplication {key : Str} {config data : Entries} (h : key ≠ "application_name") :
    find key (setApplication config branch data) = find key data := by
  unfold setApplication
  dsimp only
  split
  · exact find_setEntry_ne h
  · rfl

/-- The entry of an imported package keeps its name. -/
theorem find_name_pacImported {data out : Entries}
    (h : pacImported c overrides branch resourceType name data = .ok out) :
    find "name" out = find "name" data := by
  obtain ⟨cfg, -, h⟩ := except_bind_ok_iff.mp h
  obtain ⟨_, -, h⟩ := except_bind_ok_iff.mp h
  obtain ⟨config, -, h⟩ := except_bind_ok_iff.mp h
  obtain ⟨_, -, h⟩ := except_bind_ok_iff.mp h
  obtain ⟨_, -, h⟩ := except_bind_ok_iff.mp h
  obtain ⟨specs, -, h⟩ := except_bind_ok_iff.mp h
  obtain ⟨_, -, h⟩ := except_bind_ok_iff.mp h
  obtain rfl := Except.ok.inj h
  -- the entry is built by a chain of updates, none of them under `name`
  have hpaths : ∀ (paths : List Value) (d : Entries), find "name"
      (if paths = [] then d else setEntry "extra_path_changes" (.list paths) d) = find "name" d := by
    intro paths d
    split
    · rfl
    · exact find_setEntry_ne (by decide)
  have hspecs : ∀ (d : Entries), find "name"
      ((specs.map fun s => setEntry "task_run_specs" s d).getD d) = find "name" d := by
    intro d
    cases specs with
    | none => rfl
    | some s => exact find_setEntry_ne (by decide)
  rw [hpaths, find_copyEntry_ne (by decide), find_setEntry_ne (by decide), find_setApplication (by decide),
    find_copyEntry_ne (by decide), hspecs, find_setEntry_ne (by decide), find_copyEntry_ne (by decide),
    find_setEntry_ne (by decide), find_setEntry_ne (by decide)]

/-- What the entry of a package in `build_pac_variables` is called. -/
theorem find_name_pacPackage {data : Entries}
    (h : pacPackage c overrides branch resourceType name = .ok data) :
    find "name" data = some (.str (sanitizeComponentName name ++ '-' :: branch)) := by
  unfold pacPackage at h
  dsimp only at h
  split at h
  · exact find_name_pacImported h
  · obtain rfl := Except.ok.inj h
    rfl

/-- What the component of a package in `build_konflux_variables` is called, where it is derived. -/
theorem find_component_konfluxPackage {data : Entries} (hderives : DerivesComponent c name)
    (h : konfluxPackage c overrides branch name = .ok data) :
    find "component_name" data = some (.str (sanitizeComponentName name ++ '-' :: branch)) := by
  unfold konfluxPackage at h
  dsimp only at h
  split at h
  · obtain ⟨cfg, -, h⟩ := except_bind_ok_iff.mp h
    obtain ⟨config, -, h⟩ := except_bind_ok_iff.mp h
    obtain ⟨properties, hproperties, h⟩ := except_bind_ok_iff.mp h
    by_cases htruthy : properties.truthy = true
    · rw [if_pos htruthy] at h
      obtain ⟨pairs, hpairs, h⟩ := except_bind_ok_iff.mp h
      obtain rfl := Except.ok.inj h
      rw [find_updated, hderives properties pairs hproperties htruthy hpairs, Option.none_or,
        find_setApplication (by decide)]
      rfl
    · rw [if_neg htruthy] at h
      obtain ⟨pairs, hpairs, h⟩ := except_bind_ok_iff.mp h
      obtain rfl := Except.ok.inj h
      obtain rfl := Except.ok.inj hpairs
      rw [show updated (setApplication config branch _) [] = setApplication config branch _ from rfl,
        find_setApplication (by decide)]
      rfl
  · obtain rfl := Except.ok.inj h
    rfl

theorem mem_pac_rpms {pac : PacVariables} {r : Str × Entries}
    (h : buildPacVariables c branch tenant resourceType = .ok pac) (hr : r ∈ pac.rpms) :
    find "name" r.2 = some (.str (sanitizeComponentName r.1 ++ '-' :: branch)) := by
  obtain ⟨packages, -, h⟩ := except_bind_ok_iff.mp h
  obtain ⟨overrides, -, h⟩ := except_bind_ok_iff.mp h
  obtain ⟨rpms, hrpms, h⟩ := except_bind_ok_iff.mp h
  obtain rfl := Except.ok.inj h
  obtain ⟨n, -, hpackage⟩ := mem_of_mapM_ok hrpms hr
  obtain ⟨data, hdata, heq⟩ := except_bind_ok_iff.mp hpackage
  obtain rfl := Except.ok.inj heq
  exact find_name_pacPackage hdata

theorem mem_konflux_rpms {konflux : KonfluxVariables} {r : Str × Entries}
    (h : buildKonfluxVariables c branch tenant gitRepo = .ok konflux) (hr : r ∈ konflux.rpms)
    (hderives : DerivesComponent c r.1) :
    find "component_name" r.2 = some (.str (sanitizeComponentName r.1 ++ '-' :: branch)) := by
  obtain ⟨packages, -, h⟩ := except_bind_ok_iff.mp h
  obtain ⟨overrides, -, h⟩ := except_bind_ok_iff.mp h
  obtain ⟨rpms, hrpms, h⟩ := except_bind_ok_iff.mp h
  obtain rfl := Except.ok.inj h
  obtain ⟨n, -, hpackage⟩ := mem_of_mapM_ok hrpms hr
  obtain ⟨data, hdata, heq⟩ := except_bind_ok_iff.mp hpackage
  obtain rfl := Except.ok.inj heq
  exact find_component_konfluxPackage hderives hdata

theorem componentList_of_build {rpa globalConfig : Value} {v : RelengVariables} {packages : List Str}
    (h : buildRelengVariables c rpa globalConfig = .ok v) (hpackages : relengPackages c rpa = .ok packages) :
    v.componentList = packages.map (componentName v.branch) := by
  obtain ⟨config, hconfig, h⟩ := except_bind_ok_iff.mp h
  obtain ⟨_, -, h⟩ := except_bind_ok_iff.mp h
  obtain ⟨overrides, hoverrides, h⟩ := except_bind_ok_iff.mp h
  obtain ⟨all, hall, h⟩ := except_bind_ok_iff.mp h
  obtain ⟨pre, hpre, h⟩ := except_bind_ok_iff.mp h
  obtain ⟨kept, hkept, h⟩ := except_bind_ok_iff.mp h
  obtain ⟨b, -, h⟩ := except_bind_ok_iff.mp h
  obtain ⟨_, -, h⟩ := except_bind_ok_iff.mp h
  obtain ⟨_, -, h⟩ := except_bind_ok_iff.mp h
  obtain rfl := Except.ok.inj h
  have hsame : relengPackages c rpa = .ok kept := by
    rw [relengPackages, hconfig, except_bind_ok, hoverrides, except_bind_ok, hall, except_bind_ok, hpre,
      except_bind_ok]
    exact hkept
  rw [Except.ok.inj (hpackages.symm.trans hsame)]

/-- The entries of a generation have pairwise distinct components. -/
def DistinctEntries (key : Str) (rpms : List (Str × Entries)) : Prop :=
  rpms.Pairwise fun r r' => find key r.2 ≠ find key r'.2

/-- No two of the packages have names that agree up to the folding. -/
def Distinguished (packages : List Str) : Prop := packages.Pairwise fun p q => ¬ SameFolded p q

theorem pac_distinct_iff {pac : PacVariables}
    (h : buildPacVariables c branch tenant resourceType = .ok pac) :
    DistinctEntries "name" pac.rpms ↔ Distinguished (pac.rpms.map Prod.fst) := by
  unfold DistinctEntries Distinguished
  rw [List.pairwise_map]
  apply List.Pairwise.iff_of_mem
  intro r r' hr hr'
  rw [mem_pac_rpms h hr, mem_pac_rpms h hr', ne_eq, Option.some_inj, Value.str.injEq, component_eq_iff]

theorem releng_distinct_iff {rpa globalConfig : Value} {v : RelengVariables} {packages : List Str}
    (h : buildRelengVariables c rpa globalConfig = .ok v) (hpackages : relengPackages c rpa = .ok packages) :
    v.componentList.Nodup ↔ Distinguished packages := by
  unfold List.Nodup Distinguished
  rw [componentList_of_build h hpackages, List.pairwise_map]
  apply List.Pairwise.iff_of_mem
  intro p q _ _
  rw [componentName, componentName, ne_eq, component_eq_iff]

/-- Of the packages whose component name is derived, no two have the same one. -/
def DistinctDerived (c : Checkout) (rpms : List (Str × Entries)) : Prop :=
  rpms.Pairwise fun r r' => DerivesComponent c r.1 → DerivesComponent c r'.1 →
    find "component_name" r.2 ≠ find "component_name" r'.2

/-- No two of these packages have names that agree up to the folding. -/
def DistinguishedDerived (c : Checkout) (packages : List Str) : Prop :=
  packages.Pairwise fun p q => DerivesComponent c p → DerivesComponent c q → ¬ SameFolded p q

theorem konflux_distinct_iff {konflux : KonfluxVariables}
    (h : buildKonfluxVariables c branch tenant gitRepo = .ok konflux) :
    DistinctDerived c konflux.rpms ↔ DistinguishedDerived c (konflux.rpms.map Prod.fst) := by
  unfold DistinctDerived DistinguishedDerived
  rw [List.pairwise_map]
  apply List.Pairwise.iff_of_mem
  intro r r' hr hr'
  refine forall_congr' fun hd => forall_congr' fun hd' => ?_
  rw [mem_konflux_rpms h hr hd, mem_konflux_rpms h hr' hd', ne_eq, Option.some_inj, Value.str.injEq,
    component_eq_iff]

/-- **`components_distinct_iff`** — the components each builder derives are pairwise distinct exactly
when no two of the packages it lists have names that agree up to case and punctuation. -/
theorem components_distinct_iff {pac : PacVariables} {konflux : KonfluxVariables}
    {rpa globalConfig : Value} {v : RelengVariables} {packages : List Str}
    (hpac : buildPacVariables c branch tenant resourceType = .ok pac)
    (hkonflux : buildKonfluxVariables c branch tenant gitRepo = .ok konflux)
    (hreleng : buildRelengVariables c rpa globalConfig = .ok v)
    (hpackages : relengPackages c rpa = .ok packages) :
    (DistinctEntries "name" pac.rpms ↔ Distinguished (pac.rpms.map Prod.fst)) ∧
      (DistinctDerived c konflux.rpms ↔ DistinguishedDerived c (konflux.rpms.map Prod.fst)) ∧
      (v.componentList.Nodup ↔ Distinguished packages) :=
  ⟨pac_distinct_iff hpac, konflux_distinct_iff hkonflux, releng_distinct_iff hreleng hpackages⟩

end

/-! ### Two names that differ in a dot -/

/-- A checkout with two package directories, `foo.bar` and `foo-bar`, and one public RPA. -/
def twoPackages : Checkout where
  file := fun p =>
    if p = "rpms" ∨ p = "rpms/foo.bar" ∨ p = "rpms/foo-bar" then some .dir
    else if p = "ci/konflux_rpa_config.yml" then some (.text "rpas")
    else none
  children := fun p => if p = "rpms" then ["foo.bar", "foo-bar"] else []
  safeLoad := fun _ => .ok (.dict [("global", globalSettings), ("rpas", .list [publicRpa])])

theorem sameFolded_dot : SameFolded "foo-bar" "foo.bar" := sanitizeComponentName_eq_iff.mp (by decide)

theorem not_distinguished_twoPackages : ¬ Distinguished ["foo-bar", "foo.bar"] := by
  intro h
  exact List.rel_of_pairwise_cons h (List.mem_singleton_self _) sameFolded_dot

/-- All three builders go through, and give both packages one component. -/
theorem components_collide :
    ∃ pac v, "foo-bar".toList ≠ "foo.bar".toList ∧
      buildPacVariables twoPackages "main" "hummingbird" .push = .ok pac ∧
      pac.rpms.map Prod.fst = ["foo-bar".toList, "foo.bar".toList] ∧ ¬ DistinctEntries "name" pac.rpms ∧
      buildRelengVariables twoPackages publicRpa globalSettings = .ok v ∧ ¬ v.componentList.Nodup ∧
      (buildKonfluxVariables twoPackages "main" "hummingbird" "git").toOption.isSome = true := by
  obtain ⟨pac, hpac⟩ := exists_ok (x := buildPacVariables twoPackages "main" "hummingbird" .push)
    (by decide +kernel)
  obtain ⟨v, hv⟩ := exists_ok (x := buildRelengVariables twoPackages publicRpa globalSettings)
    (by decide +kernel)
  have hnames : (buildPacVariables twoPackages "main" "hummingbird" .push).toOption.map
      (fun pac => pac.rpms.map Prod.fst) = some ["foo-bar".toList, "foo.bar".toList] := by
    decide +kernel
  rw [hpac] at hnames
  have hlisted := Option.some.inj hnames
  have hpackages : relengPackages twoPackages publicRpa = .ok ["foo-bar", "foo.bar"] := by
    decide +kernel
  refine ⟨pac, v, by decide, hpac, hlisted, ?_, hv, ?_, by decide +kernel⟩
  · rw [pac_distinct_iff hpac, show pac.rpms.map Prod.fst = _ from hlisted]
    exact not_distinguished_twoPackages
  · rw [releng_distinct_iff hv hpackages]
    exact not_distinguished_twoPackages

/-- The generation of one package. -/
theorem components_distinct_iff_one :
    let c := onePackage []
    ∃ (pac : PacVariables) (konflux : KonfluxVariables) (v : RelengVariables),
      (DistinctEntries "name" pac.rpms ↔ Distinguished (pac.rpms.map Prod.fst)) ∧
      (DistinctDerived c konflux.rpms ↔ DistinguishedDerived c (konflux.rpms.map Prod.fst)) ∧
      (v.componentList.Nodup ↔ Distinguished ["foo"]) := by
  intro c
  obtain ⟨pac, hpac⟩ := exists_ok (x := buildPacVariables c "main" "hummingbird" .push)
    (by decide +kernel)
  obtain ⟨konflux, hkonflux⟩ := exists_ok (x := buildKonfluxVariables c "main" "hummingbird" "git")
    (by decide +kernel)
  obtain ⟨v, hv⟩ := exists_ok (x := buildRelengVariables c publicRpa globalSettings) (by decide +kernel)
  have hpackages : relengPackages c publicRpa = .ok ["foo"] := by decide +kernel
  exact ⟨pac, konflux, v, components_distinct_iff hpac hkonflux hv hpackages⟩

end HummingbirdRpms.Resources
