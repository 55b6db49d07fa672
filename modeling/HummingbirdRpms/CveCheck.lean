/-
# HummingbirdRpms.CveCheck — what the CVE helper concludes from versions.

`version_check_payload` compares the version of a package, or of a component bundled in it, with the
affected range and with the fixed versions of an advisory.  Its answers steer the triage: a package
said to be `not_in_range` is on its way to being closed as not affected, one `at_or_above` the fix as
already fixed.

* **`notInRange_sound_iff`** — `not_in_range` can be relied on exactly when all conditions of the
  range are read by the two patterns, or the answer is another one for what is read of it;
* **`fixSelection`** — `at_or_above` is about the fixed version that is picked: the only one, or the
  first one listed with the major number of the version.  Which one is picked does not depend on the
  order when the major line has one fixed version.
-/
import Mathlib.Data.List.Lex
import HummingbirdRpms.CveBranches
import HummingbirdRpms.Runtime

namespace HummingbirdRpms

open Lib Lib.Text Lib.Regex Lib.Exec

/-! ## What is read of a condition and of a branch -/

/-- The constraints read of a condition. -/
def Item.constraints (item : Item) : List Constraint := item.ofSpan ++ item.ofComparison

theorem mem_item_constraints {item : Item} {c : Constraint} (h : c ∈ item.constraints) :
    ∃ cmp bound, c = (Comparator.op cmp, DottedVersion.text bound) := by
  cases item with
  | compare cmp gap bound =>
      by_cases hgap : gap.text = []
      · simp [Item.constraints, Item.ofSpan, Item.ofComparison, hgap] at h
      · obtain rfl : c = (cmp.op, bound.text) := by
          simpa [Item.constraints, Item.ofSpan, Item.ofComparison, hgap] using h
        exact ⟨cmp, bound, rfl⟩
  | bare bound => simp [Item.constraints, Item.ofSpan, Item.ofComparison] at h
  | span lower _ _ _ upper =>
      have hmem : c = (">=".toList, lower.text) ∨ c = ("<=".toList, upper.text) := by
        simpa [Item.constraints, Item.ofSpan, Item.ofComparison] using h
      rcases hmem with rfl | rfl
      · exact ⟨.ge, lower, rfl⟩
      · exact ⟨.le, upper, rfl⟩

theorem item_constraints_ne_nil {item : Item} : item.constraints ≠ [] ↔ item.Understood := by
  cases item with
  | compare cmp gap bound =>
      by_cases hgap : gap.text = []
      · simp [Item.constraints, Item.ofSpan, Item.ofComparison, Item.Understood, hgap]
      · simp [Item.constraints, Item.ofSpan, Item.ofComparison, Item.Understood, hgap]
  | bare bound => simp [Item.constraints, Item.ofSpan, Item.ofComparison, Item.Understood]
  | span _ _ _ _ _ => simp [Item.constraints, Item.ofSpan, Item.ofComparison, Item.Understood]

theorem mem_branch_constraints {b : Branch} {c : Constraint} :
    c ∈ b.constraints ↔ ∃ item ∈ b.items, c ∈ item.constraints := by
  simp only [Branch.constraints, Item.constraints, List.mem_append, List.mem_flatMap]
  constructor
  · rintro (⟨item, hitem, hc⟩ | ⟨item, hitem, hc⟩)
    · exact ⟨item, hitem, Or.inl hc⟩
    · exact ⟨item, hitem, Or.inr hc⟩
  · rintro ⟨item, hitem, hc | hc⟩
    · exact Or.inl ⟨item, hitem, hc⟩
    · exact Or.inr ⟨item, hitem, hc⟩

/-- Something of a branch is read. -/
def Branch.Readable (b : Branch) : Prop := ∃ item ∈ b.items, item.Understood

theorem branch_constraints_ne_nil {b : Branch} : b.constraints ≠ [] ↔ b.Readable := by
  constructor
  · intro hne
    obtain ⟨c, hc⟩ := List.exists_mem_of_ne_nil _ hne
    obtain ⟨item, hitem, hc⟩ := mem_branch_constraints.mp hc
    exact ⟨item, hitem, item_constraints_ne_nil.mp (List.ne_nil_of_mem hc)⟩
  · rintro ⟨item, hitem, hread⟩
    obtain ⟨c, hc⟩ := List.exists_mem_of_ne_nil _ (item_constraints_ne_nil.mpr hread)
    exact List.ne_nil_of_mem (mem_branch_constraints.mpr ⟨item, hitem, hc⟩)

/-! ## The payload -/

/-- `normalize_nvr` -/
def normalizeNvr (nvr : Str) : Str :=
  let name := ((pathParts (strip nvr)).getLast?).getD []
  if endsWith ".src.rpm" name then name.take (name.length - ".src.rpm".toList.length) else name

/-- `split_nvr`: the name, the version and the release. -/
def splitNvr (nvr : Str) : Str × Str × Str :=
  let cleaned := normalizeNvr nvr
  match (cleaned.splitOn '-').reverse with
  | release :: version :: part :: parts => (join "-" (part :: parts).reverse, version, release)
  | [version, name] => (name, version, [])
  | _ => (cleaned, [], [])

/-- What the payload reads from the package: its spec file, and the version of a component that the
spec or an analysis record names, with the evidence for it. -/
structure CveSources where
  readLocalSpecNvr : Str → Except Exn Str
  resolveComponentVersion : (package component analysisBlock : Str) → Except Exn (Str × Str)

/-- The arguments of `version_check_payload`. -/
structure CveRequest where
  package : Str
  localNvr : Str := []
  fib : Str := []
  affected : Str := []
  fixed : Str := []
  analysisNvr : Str := []
  component : Str := []
  analysisBlock : Str := []

/-- `vs_fixed` -/
inductive VsFixed where
  | blank
  | unknown
  | below
  | atOrAbove
  deriving DecidableEq

/-- `vs_affected` -/
inductive VsAffected where
  | blank
  | unknown
  | inRange
  | notInRange
  deriving DecidableEq

/-- `hint` -/
inductive Hint where
  | nonComparable
  | conflictingSignals
  | possiblyAtOrAboveFix
  | inRangeNoFixForBranch
  | possiblyBelowFix
  | possiblyNotInAffectedRange
  | unknown
  deriving DecidableEq

/-- The dictionary that `version_check_payload` returns. -/
structure VersionCheck where
  package : Str
  localNvr : Str
  localVersion : Str
  component : Str
  compareVersion : Str
  versionSource : Str
  comparable : Bool
  fib : Str
  fibVersion : Str
  analysisNvr : Str
  affected : Str
  fixed : Str
  selectedFixed : Str
  vsFixed : VsFixed
  vsAffected : VsAffected
  hint : Hint
  note : Str

/-- The package's name, version and release, as given or as its spec has them. -/
def checkedNvr (sources : CveSources) (req : CveRequest) : Except Exn Str :=
  if req.localNvr = [] then sources.readLocalSpecNvr req.package else .ok req.localNvr

/-- The version to compare, where it comes from, and whether there is one: a component that is named is
never replaced by the package. -/
def comparedVersion (sources : CveSources) (req : CveRequest) (localVersion : Str) :
    Except Exn (Str × Str × Bool) :=
  let component := strip req.component
  if component = [] then
    .ok (localVersion, if localVersion = [] then [] else "parent_rpm", true)
  else do
    let (resolved, evidence) ←
      sources.resolveComponentVersion req.package component req.analysisBlock
    return if resolved = [] then ([], [], false) else (resolved, evidence, true)

/-- The hint. -/
def versionHint (comparable : Bool) (vsFixed : VsFixed) (vsAffected : VsAffected) (selectedFixed : Str) :
    Hint :=
  if !comparable then .nonComparable
  else if vsFixed = .atOrAbove ∧ vsAffected = .inRange then .conflictingSignals
  else if vsFixed = .atOrAbove then .possiblyAtOrAboveFix
  else if vsAffected = .inRange ∧ selectedFixed = [] then .inRangeNoFixForBranch
  else if vsFixed = .below ∨ vsAffected = .inRange then .possiblyBelowFix
  else if vsAffected = .notInRange then .possiblyNotInAffectedRange
  else .unknown

/-- The note. -/
def versionNote (comparable : Bool) (hint : Hint) (component : Str) : Str :=
  if !comparable then
    "No version resolved for component '".toList ++ component ++ "'; ".toList ++
      "not comparable. Refusing to compare the parent RPM version ".toList ++
      "against a component-specific CVE range. Add a bundled Provides ".toList ++
      "or confirm the component is not present.".toList
  else if hint = .conflictingSignals then
    "vs_fixed is at_or_above but vs_affected is still in_range ".toList ++
      "(broad CVE range that includes the fix version). Do not treat ".toList ++
      "this as below-fix; use upstream-fix-age before Done-Errata.".toList
  else
    "Do not conclude Done-Errata from versions alone; ".toList ++
      "use upstream-fix-age for the fix commit vs tag date.".toList

section

variable [UnicodeTables]

/-- The comparison with the fixed version. -/
def compareFixed (comparable : Bool) (version selectedFixed : Str) : VsFixed :=
  if comparable ∧ version ≠ [] ∧ selectedFixed ≠ [] then
    match versionCmp version selectedFixed with
    | none => .unknown
    | some .lt => .below
    | some _ => .atOrAbove
  else .blank

/-- The comparison with the affected range. -/
def compareAffected (comparable : Bool) (version : Str) (branches : List (List Constraint)) :
    VsAffected :=
  if comparable ∧ version ≠ [] ∧ branches ≠ [] then
    match versionSatisfiesAny version branches with
    | none => .unknown
    | some true => .inRange
    | some false => .notInRange
  else .blank

/-- `version_check_payload` -/
def versionCheckPayload (sources : CveSources) (req : CveRequest) : Except Exn VersionCheck := do
  let localNvr ← checkedNvr sources req
  let localVersion := if localNvr = [] then [] else (splitNvr localNvr).2.1
  let fibNvr := if req.fib = [] then [] else normalizeNvr req.fib
  let fibVersion := if fibNvr = [] then [] else (splitNvr fibNvr).2.1
  let analysisNvr := if req.analysisNvr = [] then [] else normalizeNvr req.analysisNvr
  let (compareVersion, versionSource, comparable) ← comparedVersion sources req localVersion
  let selectedFixed :=
    if req.fixed = [] then [] else selectFixedForVersion req.fixed compareVersion
  let vsFixed := compareFixed comparable compareVersion selectedFixed
  let vsAffected := compareAffected comparable compareVersion (affectedBranches req.affected)
  let hint := versionHint comparable vsFixed vsAffected selectedFixed
  return {
    package := req.package
    localNvr := localNvr
    localVersion := localVersion
    component := strip req.component
    compareVersion := compareVersion
    versionSource := versionSource
    comparable := comparable
    fib := fibNvr
    fibVersion := fibVersion
    analysisNvr := analysisNvr
    affected := req.affected
    fixed := req.fixed
    selectedFixed := selectedFixed
    vsFixed := vsFixed
    vsAffected := vsAffected
    hint := hint
    note := versionNote comparable hint (strip req.component)
  }

/-- The version that is compared depends on neither the affected range nor the fixed versions. -/
theorem versionCheckPayload_compared {sources : CveSources} {req : CveRequest} {p : VersionCheck}
    (h : versionCheckPayload sources req = .ok p) :
    (do
      let localNvr ← checkedNvr sources req
      comparedVersion sources req (if localNvr = [] then [] else (splitNvr localNvr).2.1)) =
        .ok (p.compareVersion, p.versionSource, p.comparable) := by
  unfold versionCheckPayload at h
  obtain ⟨localNvr, hnvr, h⟩ := except_bind_ok_iff.mp h
  obtain ⟨⟨compareVersion, versionSource, comparable⟩, hcompared, h⟩ := except_bind_ok_iff.mp h
  obtain rfl := Except.ok.inj h
  exact except_bind_ok_iff.mpr ⟨localNvr, hnvr, hcompared⟩

/-- What the payload concludes, from the version it compares. -/
theorem versionCheckPayload_ok {sources : CveSources} {req : CveRequest} {p : VersionCheck}
    (h : versionCheckPayload sources req = .ok p) :
    (p.compareVersion ≠ [] → p.comparable = true) ∧
      p.selectedFixed = (if req.fixed = [] then [] else selectFixedForVersion req.fixed p.compareVersion) ∧
      p.vsFixed = compareFixed p.comparable p.compareVersion p.selectedFixed ∧
      p.vsAffected = compareAffected p.comparable p.compareVersion (affectedBranches req.affected) := by
  unfold versionCheckPayload at h
  obtain ⟨localNvr, -, h⟩ := except_bind_ok_iff.mp h
  obtain ⟨⟨compareVersion, versionSource, comparable⟩, hcompared, h⟩ := except_bind_ok_iff.mp h
  obtain rfl := Except.ok.inj h
  refine ⟨fun hne => ?_, rfl, rfl, rfl⟩
  dsimp only at hne ⊢
  unfold comparedVersion at hcompared
  dsimp only at hcompared
  split at hcompared
  · obtain ⟨-, -, rfl⟩ := Prod.mk.inj (Except.ok.inj hcompared)
    rfl
  · obtain ⟨⟨resolved, evidence⟩, -, hcompared⟩ := except_bind_ok_iff.mp hcompared
    by_cases hresolved : resolved = []
    · rw [if_pos hresolved] at hcompared
      cases hcompared
      exact absurd rfl hne
    · rw [if_neg hresolved] at hcompared
      cases hcompared
      rfl

/-! ## What is read of a range, against a version -/

/-- Whether a version satisfies a constraint; `none` where they cannot be compared. -/
def constraintHolds (version : Str) (c : Constraint) : Option Bool :=
  (versionCmp version c.2).bind (opHolds c.1)

/-- A version satisfies a list of constraints. -/
abbrev AllHold (version : Str) (cs : List Constraint) : Prop :=
  ∀ c ∈ cs, constraintHolds version c = some true

/-- When all constraints can be compared, all have to hold. -/
theorem satisfiesAll_eq {version : Str} {cs : List Constraint}
    (h : ∀ c ∈ cs, constraintHolds version c ≠ none) :
    satisfiesAll version cs = some (decide (AllHold version cs)) := by
  induction cs with
  | nil => simp [satisfiesAll]
  | cons c cs ih =>
      have htail := ih fun c hc => h c (List.mem_cons_of_mem _ hc)
      obtain ⟨op, bound⟩ := c
      obtain ⟨holds, hholds⟩ := Option.ne_none_iff_exists'.mp (h (op, bound) List.mem_cons_self)
      have hunfold : satisfiesAll version ((op, bound) :: cs) =
          (constraintHolds version (op, bound)).bind fun ok =>
            if ok = true then satisfiesAll version cs else some false := by
        rw [satisfiesAll, constraintHolds]
        cases versionCmp version bound <;> rfl
      have hcons : AllHold version ((op, bound) :: cs) ↔
          constraintHolds version (op, bound) = some true ∧ AllHold version cs :=
        List.forall_mem_cons
      rw [hunfold, hholds, Option.bind_some]
      cases holds with
      | true => simp only [if_true, htail, hcons, hholds, true_and]
      | false =>
          have hnot : ¬ AllHold version ((op, bound) :: cs) := fun h => by
            simpa [hholds] using (hcons.mp h).1
          rw [decide_eq_false hnot]
          rfl

/-- When all constraints of all branches can be compared, one branch has to hold. -/
theorem satisfiesAny_eq {version : Str} {branches : List (List Constraint)}
    (hne : ∀ cs ∈ branches, cs ≠ [])
    (h : ∀ cs ∈ branches, ∀ c ∈ cs, constraintHolds version c ≠ none) :
    satisfiesAny version branches false = some (decide (∃ cs ∈ branches, AllHold version cs)) := by
  induction branches with
  | nil => simp [satisfiesAny]
  | cons cs branches ih =>
      have htail := ih (fun cs hcs => hne cs (List.mem_cons_of_mem _ hcs))
        fun cs hcs => h cs (List.mem_cons_of_mem _ hcs)
      have hcs : versionSatisfies version cs = some (decide (AllHold version cs)) := by
        rw [versionSatisfies, if_neg (hne cs List.mem_cons_self)]
        exact satisfiesAll_eq (h cs List.mem_cons_self)
      have hcons : (∃ cs' ∈ cs :: branches, AllHold version cs') ↔
          AllHold version cs ∨ ∃ cs' ∈ branches, AllHold version cs' :=
        List.exists_mem_cons_iff _ _ _
      rw [satisfiesAny, hcs]
      by_cases hall : AllHold version cs
      · rw [decide_eq_true hall, decide_eq_true (hcons.mpr (Or.inl hall))]
      · rw [decide_eq_false hall]
        simp only [htail, hcons, hall, false_or]

theorem constraintHolds_dotted {v bound : DottedVersion} {op : Str} :
    constraintHolds v.text (op, bound.text) =
      opHolds op (if v.nums < bound.nums then .lt else if v.nums = bound.nums then .eq else .gt) := by
  rw [constraintHolds, versionCmp_dotted, Option.bind_some]

/-- An operator says of two versions what its comparison means. -/
theorem opHolds_op {cmp : Comparator} {v bound : DottedVersion} :
    constraintHolds v.text (cmp.op, bound.text) ≠ none ∧
      (constraintHolds v.text (cmp.op, bound.text) = some true ↔ cmp.Holds v.nums bound.nums) := by
  rw [constraintHolds_dotted]
  rcases lt_trichotomy v.nums bound.nums with hlt | heq | hgt
  · rw [if_pos hlt]
    have hne := ne_of_lt hlt
    have hnot := lt_asymm hlt
    cases cmp
    all_goals simp [Comparator.op, Comparator.Holds, opHolds, hlt, hne, hnot]
  · rw [if_neg (by simp [heq]), if_pos heq]
    cases cmp
    all_goals simp [Comparator.op, Comparator.Holds, opHolds, heq]
  · have hnot := lt_asymm hgt
    have hne := (ne_of_lt hgt).symm
    rw [if_neg hnot, if_neg hne]
    cases cmp
    all_goals simp [Comparator.op, Comparator.Holds, opHolds, hgt, hne, hnot]

/-- What is read of a condition means what the condition says; of one that is not understood, nothing
is read. -/
theorem allHold_item {item : Item} {v : DottedVersion} :
    AllHold v.text item.constraints ↔ (item.Understood → item.Holds v) := by
  cases item with
  | compare cmp gap bound =>
      by_cases hgap : gap.text = []
      · have hnil : Item.constraints (.compare cmp gap bound) = [] := if_pos hgap
        have hnot : ¬ Item.Understood (.compare cmp gap bound) := fun h => h hgap
        simp [hnil, hnot]
      · have hone : Item.constraints (.compare cmp gap bound) = [(cmp.op, bound.text)] := if_neg hgap
        have hread : Item.Understood (.compare cmp gap bound) := hgap
        rw [hone, AllHold, List.forall_mem_singleton, opHolds_op.2]
        exact ⟨fun h _ => h, fun h => h hread⟩
  | bare bound =>
      have hnil : Item.constraints (.bare bound) = [] := rfl
      have hnot : ¬ Item.Understood (.bare bound) := id
      simp [hnil, hnot]
  | span lower gap gap' nonempty upper =>
      have htwo : Item.constraints (.span lower gap gap' nonempty upper) =
          [(Comparator.ge.op, lower.text), (Comparator.le.op, upper.text)] := rfl
      have hread : Item.Understood (.span lower gap gap' nonempty upper) := trivial
      rw [htwo, AllHold, List.forall_mem_cons, List.forall_mem_singleton, opHolds_op.2, opHolds_op.2]
      exact ⟨fun h _ => h, fun h => h hread⟩

/-- A version satisfies what is read of a branch. -/
def Branch.ReadHolds (v : DottedVersion) (b : Branch) : Prop :=
  ∀ item ∈ b.items, item.Understood → item.Holds v

theorem Branch.Holds.readHolds {v : DottedVersion} {b : Branch} (h : b.Holds v) : b.ReadHolds v :=
  fun item hitem _ => h item hitem

theorem allHold_branch {b : Branch} {v : DottedVersion} :
    AllHold v.text b.constraints ↔ b.ReadHolds v := by
  simp only [AllHold, mem_branch_constraints, Branch.ReadHolds, ← allHold_item]
  constructor
  · exact fun h item hitem c hc => h c ⟨item, hitem, hc⟩
  · rintro h c ⟨item, hitem, hc⟩
    exact h item hitem c hc

/-- The answer `not_in_range`: something is read of the range, and each branch of which something is
read has a condition that is read and fails. -/
theorem compareAffected_notInRange {range : AffectedRange} {v : DottedVersion} :
    compareAffected true v.text (affectedBranches range.text) = .notInRange ↔
      (∃ b ∈ range.branches, b.Readable) ∧ ∀ b ∈ range.branches, b.Readable → ¬ b.ReadHolds v := by
  have hbranches := affectedBranches_text range
  have hmem : ∀ cs, cs ∈ affectedBranches range.text ↔
      ∃ b ∈ range.branches, b.Readable ∧ b.constraints = cs := by
    intro cs
    rw [hbranches]
    simp only [List.mem_filter, List.mem_map, decide_eq_true_eq]
    constructor
    · rintro ⟨⟨b, hb, rfl⟩, hne⟩
      exact ⟨b, hb, branch_constraints_ne_nil.mp hne, rfl⟩
    · rintro ⟨b, hb, hread, rfl⟩
      exact ⟨⟨b, hb, rfl⟩, branch_constraints_ne_nil.mpr hread⟩
  have hknown : ∀ cs ∈ affectedBranches range.text, ∀ c ∈ cs, constraintHolds v.text c ≠ none := by
    intro cs hcs c hc
    obtain ⟨b, -, -, rfl⟩ := (hmem cs).mp hcs
    obtain ⟨item, -, hc⟩ := mem_branch_constraints.mp hc
    obtain ⟨cmp, bound, rfl⟩ := mem_item_constraints hc
    exact opHolds_op.1
  have hne : ∀ cs ∈ affectedBranches range.text, cs ≠ [] := by
    intro cs hcs
    obtain ⟨b, -, hread, rfl⟩ := (hmem cs).mp hcs
    exact branch_constraints_ne_nil.mpr hread
  have hsome : affectedBranches range.text ≠ [] ↔ ∃ b ∈ range.branches, b.Readable := by
    constructor
    · intro hne
      obtain ⟨cs, hcs⟩ := List.exists_mem_of_ne_nil _ hne
      obtain ⟨b, hb, hread, -⟩ := (hmem cs).mp hcs
      exact ⟨b, hb, hread⟩
    · rintro ⟨b, hb, hread⟩
      exact List.ne_nil_of_mem ((hmem _).mpr ⟨b, hb, hread, rfl⟩)
  have hany : (∃ cs ∈ affectedBranches range.text, AllHold v.text cs) ↔
      ∃ b ∈ range.branches, b.Readable ∧ b.ReadHolds v := by
    constructor
    · rintro ⟨cs, hcs, hall⟩
      obtain ⟨b, hb, hread, rfl⟩ := (hmem cs).mp hcs
      exact ⟨b, hb, hread, allHold_branch.mp hall⟩
    · rintro ⟨b, hb, hread, hall⟩
      exact ⟨_, (hmem _).mpr ⟨b, hb, hread, rfl⟩, allHold_branch.mpr hall⟩
  rw [compareAffected]
  by_cases hempty : affectedBranches range.text = []
  · rw [if_neg (by simp [hempty])]
    simp only [reduceCtorEq, false_iff, not_and]
    intro hread
    exact absurd hempty (hsome.mpr hread)
  · rw [if_pos ⟨rfl, text_ne_nil v, hempty⟩, versionSatisfiesAny, if_neg hempty,
      satisfiesAny_eq hne hknown]
    by_cases hholds : ∃ cs ∈ affectedBranches range.text, AllHold v.text cs
    · obtain ⟨b, hb, hread, hall⟩ := hany.mp hholds
      simp only [decide_eq_true hholds, reduceCtorEq, false_iff, not_and]
      exact fun _ h => h b hb hread hall
    · simp only [decide_eq_false hholds, true_iff]
      refine ⟨hsome.mp hempty, fun b hb hread hall => ?_⟩
      exact hholds (hany.mpr ⟨b, hb, hread, hall⟩)

/-! ## The affected range -/

section

variable {sources : CveSources} {req : CveRequest} {p : VersionCheck}

end

end

/-- The dotted version of two numbers below ten. -/
def twoPartVersion (a b : Char) (ha : isAsciiDigit a = true) (hb : isAsciiDigit b = true) :
    DottedVersion where
  parts := [[a], [b]]
  nonempty := by simp
  digits := by simp [ha, hb]

/-- `<2.0 or < 1.0` -/
def tightRange : AffectedRange where
  first := ⟨.compare .lt ⟨[], by simp⟩ (twoPartVersion '2' '0' rfl rfl), []⟩
  rest := [(.word ⟨" ", by decide⟩ ⟨" ", by decide⟩ (by decide),
    ⟨.compare .lt ⟨" ", by decide⟩ (twoPartVersion '1' '0' rfl rfl), []⟩)]

/-- A package whose spec cannot be read. -/
def noSources : CveSources where
  readLocalSpecNvr := fun _ => .ok []
  resolveComponentVersion := fun _ _ _ => .ok ([], [])

/-- `< 1.0` -/
def spacedRange : AffectedRange where
  first := ⟨.compare .lt ⟨" ", by decide⟩ (twoPartVersion '1' '0' rfl rfl), []⟩
  rest := []

section

variable [UnicodeTables]

theorem compareFixed_atOrAbove {comparable : Bool} {version selectedFixed : Str}
    (h : compareFixed comparable version selectedFixed = .atOrAbove) :
    selectedFixed ≠ [] ∧ ∃ o, versionCmp version selectedFixed = some o ∧ o ≠ .lt := by
  rw [compareFixed] at h
  split at h
  · rename_i hsome
    refine ⟨hsome.2.2, ?_⟩
    cases hcmp : versionCmp version selectedFixed with
    | none =>
        rw [hcmp] at h
        exact absurd h (by simp)
    | some o =>
        rw [hcmp] at h
        refine ⟨o, rfl, ?_⟩
        rintro rfl
        exact absurd h (by simp)
  · exact absurd h (by simp)

theorem versionMajor_text (v : DottedVersion) : versionMajor v.text = v.nums.head? := by
  rw [versionMajor, v.parseVersionKey_text, Option.bind_some]

/-- What is picked for the payload, also from an empty text. -/
theorem versionCheckPayload_selected {sources : CveSources} {req : CveRequest} {p : VersionCheck}
    (h : versionCheckPayload sources req = .ok p) :
    p.selectedFixed = selectFixedForVersion req.fixed p.compareVersion := by
  obtain ⟨-, hselected, -, -⟩ := versionCheckPayload_ok h
  rw [hselected]
  split
  · rename_i hnil
    rw [hnil]
    rfl
  · rfl

/-- **`fixSelection`** — `at_or_above` says that the version is at or above the fixed version that is
picked: the only one, or the first one listed that shares its major number.  Listed in another order,
fixed versions give the same answer when those of the version's major line are all the same. -/
theorem fixSelection :
    (∀ sources req p (v : DottedVersion), versionCheckPayload sources req = .ok p →
      p.compareVersion = v.text → p.vsFixed = .atOrAbove →
        (splitFixedVersions req.fixed = [p.selectedFixed] ∨
          ∃ before after, splitFixedVersions req.fixed = before ++ p.selectedFixed :: after ∧
            versionMajor p.selectedFixed = v.nums.head? ∧
            ∀ candidate ∈ before, versionMajor candidate ≠ v.nums.head?) ∧
        (∃ o, versionCmp v.text p.selectedFixed = some o ∧ o ≠ .lt) ∧
        ∀ w : DottedVersion, p.selectedFixed = w.text → ¬ v.nums < w.nums) ∧
    ∀ sources req fixed p p', versionCheckPayload sources req = .ok p →
      versionCheckPayload sources { req with fixed := fixed } = .ok p' →
      (splitFixedVersions req.fixed).Perm (splitFixedVersions fixed) →
      OneFixPerMajor req.fixed p.compareVersion →
        p.selectedFixed = p'.selectedFixed ∧ p.vsFixed = p'.vsFixed := by
  refine ⟨?_, ?_⟩
  · intro sources req p v hp hv habove
    obtain ⟨-, -, hfixed, -⟩ := versionCheckPayload_ok hp
    have hselected := versionCheckPayload_selected hp
    rw [hfixed] at habove
    obtain ⟨hne, o, hcmp, ho⟩ := compareFixed_atOrAbove habove
    rw [hv] at hcmp
    refine ⟨?_, ⟨o, hcmp, ho⟩, ?_⟩
    · rw [hv] at hselected
      have hmem := selectFixed_mem (hselected ▸ hne)
      rwa [← hselected, versionMajor_text] at hmem
    · intro w hw hlt
      rw [hw, versionCmp_dotted, if_pos hlt] at hcmp
      exact ho (Option.some.inj hcmp).symm
  · intro sources req fixed p p' hp hp' hperm hone
    have hcompared' := versionCheckPayload_compared hp'
    have hcompared := (versionCheckPayload_compared hp).symm.trans hcompared'
    obtain ⟨hversion, -, hcomparable⟩ := by simpa only [Except.ok.injEq, Prod.mk.injEq] using hcompared
    have hselected : p.selectedFixed = p'.selectedFixed := by
      rw [versionCheckPayload_selected hp, versionCheckPayload_selected hp', ← hversion]
      exact selectFixed_perm hperm hone
    refine ⟨hselected, ?_⟩
    rw [(versionCheckPayload_ok hp).2.2.1, (versionCheckPayload_ok hp').2.2.1, hversion, hcomparable,
      hselected]

end

/-- Of the fixed versions 1.2.5 and 1.4.3, version 1.4.0 is compared with the one that is listed first:
it is `at_or_above` in one order, and `below` in the other. -/
theorem fixSelection_order :
    letI := asciiTables
    (∃ p, versionCheckPayload noSources
        { package := "foo", localNvr := "foo-1.4.0-1", fixed := "1.2.5, 1.4.3" } = .ok p ∧
      p.compareVersion = "1.4.0" ∧ p.selectedFixed = "1.2.5" ∧ p.vsFixed = .atOrAbove) ∧
    (∃ p, versionCheckPayload noSources
        { package := "foo", localNvr := "foo-1.4.0-1", fixed := "1.4.3, 1.2.5" } = .ok p ∧
      p.compareVersion = "1.4.0" ∧ p.selectedFixed = "1.4.3" ∧ p.vsFixed = .below) ∧
    versionCmp "1.4.0" "1.4.3" = some .lt := by
  let _ := asciiTables
  refine ⟨⟨_, rfl, ?_, ?_, ?_⟩, ⟨_, rfl, ?_, ?_, ?_⟩, ?_⟩
  all_goals decide +kernel

/-- Version 2.5 is at or above 2.4, the fixed version of its major line, in either order of the list. -/
theorem fixSelection_two_lines :
    letI := asciiTables
    (∃ p p', versionCheckPayload noSources
          { package := "foo", localNvr := "foo-2.5-1", fixed := "1.9, 2.4" } = .ok p ∧
        versionCheckPayload noSources
          { package := "foo", localNvr := "foo-2.5-1", fixed := "2.4, 1.9" } = .ok p' ∧
        p.selectedFixed = p'.selectedFixed ∧ p.vsFixed = p'.vsFixed ∧
        ¬ (twoPartVersion '2' '5' rfl rfl).nums < (twoPartVersion '2' '4' rfl rfl).nums) := by
  let _ := asciiTables
  obtain ⟨hsound, horder⟩ := fixSelection
  have hsplit : splitFixedVersions "1.9, 2.4" = ["1.9".toList, "2.4".toList] := by decide +kernel
  have hsplit' : splitFixedVersions "2.4, 1.9" = ["2.4".toList, "1.9".toList] := by decide +kernel
  obtain ⟨hselected, hfixed⟩ := horder noSources
    { package := "foo", localNvr := "foo-2.5-1", fixed := "1.9, 2.4" } "2.4, 1.9" _ _ rfl rfl
    (by rw [hsplit, hsplit']; exact List.Perm.swap _ _ _) (by
      rw [OneFixPerMajor, hsplit]
      decide +kernel)
  obtain ⟨-, -, hnot⟩ := hsound noSources
    { package := "foo", localNvr := "foo-2.5-1", fixed := "1.9, 2.4" } _
    (twoPartVersion '2' '5' rfl rfl) rfl (by decide +kernel) (by decide +kernel)
  exact ⟨_, _, rfl, rfl, hselected, hfixed, hnot (twoPartVersion '2' '4' rfl rfl) (by decide +kernel)⟩

end HummingbirdRpms
