/-
# HummingbirdRpms.Admission — what an update that changes a package has passed.

Outside sync mode an upstream version has to be admitted before `update` touches the package: not older
than what is there, within the tracked version, no pre-release, and built by Koji.  Each check has its
own exemptions, and what it admits is a version, a release and a commit (`Admitted`).

The version and the release are read off the clone, while the commit Koji is asked about comes from
`git ls-remote`, whose first line need not be the branch that is cloned.  **`gated_iff`** says when the
commit that is imported is the one that was admitted.
-/
import HummingbirdRpms.Provenance

namespace HummingbirdRpms

open Lib Lib.Text Lib.Exec

/-! ## Admitted versions -/

theorem tracksVersion_iff {track version : Str} : tracksVersion track version = true ↔
    track = [] ∨ track = "latest".toList ∨ version = track ∨ track ++ ".".toList <+: version := by
  simp only [tracksVersion, Bool.or_eq_true, decide_eq_true_eq, startsWith_iff, or_assoc]

section

variable [UnicodeTables]

/-- The build that Koji returns for a version and a release, under one of the tags, is complete and was
made from a commit. -/
def BuiltFrom (env : Env) (package version release commit : Str) (tags : List Str) : Prop :=
  ∃ tag ∈ tags, ∃ entries,
    callKojiWithRetry (env.getBuild (kojiNvr package version release tag)) = .ok (.dict entries) ∧
      findKojiBuild env package version release tags = .ok (.dict entries) ∧
      commitOfSource ((entries.lookup "source".toList).getD (.str [])) = .ok commit ∧
      isOne (Value.entry "state" entries) = true

/-- A version, a release and a commit that pass the checks of an update, each up to its exemptions. -/
structure Admitted (env : Env) (t : Target) (args : UpdateArgs) (version release commit : Str) :
    Prop where
  notOlder : isForwardBranchMove env t.branchChanged t.oldBranch t.effectiveBranch = .ok true ∨
    env.versionLt version t.metadata.version ≠ some true
  tracked : t.branchChanged = true ∨ ∀ track, t.metadata.trackUpstream = some track →
    track = [] ∨ track = "latest".toList ∨ version = track ∨ track ++ ".".toList <+: version
  stable : args.allowPrerelease = true ∨ t.branchChanged = true ∨ isPrerelease version release = none
  built : args.skipBuildCheck = true ∨ ∃ distTag, getDistTag env t.effectiveBranch = .ok distTag ∧
    BuiltFrom env t.upstreamName version release commit (distTag :: getFallbackDistTags env distTag)

/-- Whether an update merges the local modifications of a package, rather than replace it. -/
def mergesLocal (t : Target) (args : UpdateArgs) (hasModifications : Bool) : Bool :=
  !args.sync && t.metadata.modificationStatus = some .modified && hasModifications

/-- The commit whose files an update brings into the package directory. -/
def importedCommit (t : Target) (args : UpdateArgs) (up : Upstream) (plan : UpdatePlan) : Option Str :=
  if mergesLocal t args plan.hasModifications then some plan.latestSha
  else
    match given args.ref with
    | none => up.tip t.effectiveBranch
    | some ref => up.revParse ref

/-- What an update brings in was admitted, as the version, the release and the commit that it is. -/
def Gated (env : Env) (w : World) (package : Str) (args : UpdateArgs) : Prop :=
  ∃ t plan up upstreamDir specRelease commit,
    Planned env w package args t plan up upstreamDir specRelease ∧
      importedCommit t args up plan = some commit ∧
      Admitted env t args plan.version plan.release commit

/-- A run of `update` changes a package: its directory or its record. -/
def Modifies (env : Env) (w : World) (package : Str) (args : UpdateArgs) : Prop :=
  let w' := final (update env package args) w
  w'.rpms package ≠ w.rpms package ∨ w'.metadata package ≠ w.metadata package ∨
    w'.imports package ≠ w.imports package

/-- Where a plain replacement is checked against a build, without a `--ref`, the first commit that
`git ls-remote` lists is the one that is cloned. -/
def TipListed (env : Env) (w : World) (package : Str) (args : UpdateArgs) : Prop :=
  ∀ t up, updateTarget env w package args = .ok (some t) →
    env.clone t.source t.effectiveBranch (!t.branchChanged) = some up →
      args.skipBuildCheck = true ∨ given args.ref ≠ none ∨
        (t.metadata.modificationStatus = some .modified ∧
          isPackageUnmodified env up (w.packageDir package) t.oldSha = .ok false) ∨
        up.tip t.effectiveBranch = some t.latestSha

/-! ## What the checks admit -/

variable {env : Env} {w : World} {package : Str} {args : UpdateArgs} {t : Target}
  {version release commit : Str}

theorem versionAdmitted_ok (hsync : args.sync = false)
    (h : versionAdmitted env t args version release = .ok true) :
    (isForwardBranchMove env t.branchChanged t.oldBranch t.effectiveBranch = .ok true ∨
        env.versionLt version t.metadata.version ≠ some true) ∧
      (t.branchChanged = true ∨ ∀ track, t.metadata.trackUpstream = some track →
        track = [] ∨ track = "latest".toList ∨ version = track ∨ track ++ ".".toList <+: version) ∧
      (args.allowPrerelease = true ∨ t.branchChanged = true ∨ isPrerelease version release = none) := by
  unfold versionAdmitted at h
  rw [hsync, if_neg Bool.false_ne_true] at h
  obtain ⟨forward, hforward, h⟩ := except_bind_ok_iff.mp h
  have hall := Except.ok.inj h
  simp only [Bool.and_eq_true, Bool.not_eq_true', Bool.and_eq_false_iff, Bool.not_false,
    Bool.true_and, Bool.not_eq_false', decide_eq_false_iff_not] at hall
  obtain ⟨⟨hnew, htrack⟩, hstable⟩ := hall
  refine ⟨?_, ?_, ?_⟩
  · rcases hnew with rfl | hnot
    · exact Or.inl hforward
    · exact Or.inr hnot
  · rcases htrack with hchanged | hany
    · exact Or.inl hchanged
    · right
      intro track htrack
      rw [htrack] at hany
      exact tracksVersion_iff.mp (by simpa using hany)
  · rcases hstable with (hallow | hchanged) | hnone
    · exact Or.inl hallow
    · exact Or.inr (Or.inl hchanged)
    · exact Or.inr (Or.inr (by simpa using hnone))

/-- An accepted build is the one Koji returns. -/
theorem builtFrom_of_check {distTag : Str}
    (h : checkKojiBuild env package version release commit distTag = .ok true) :
    BuiltFrom env package version release commit (distTag :: getFallbackDistTags env distTag) := by
  obtain ⟨tag, htag, entries, source, hcall, hfind, rfl, hcommit, hstate⟩ := checkKojiBuild_true h
  exact ⟨tag, htag, entries, hcall, hfind, hcommit, hstate⟩

/-- Koji returns one build, made from one commit. -/
theorem BuiltFrom.unique {commit' : Str} {tags : List Str}
    (h : BuiltFrom env package version release commit tags)
    (h' : BuiltFrom env package version release commit' tags) : commit = commit' := by
  obtain ⟨_, _, entries, _, hfind, hcommit, _⟩ := h
  obtain ⟨_, _, entries', _, hfind', hcommit', _⟩ := h'
  obtain rfl := Value.dict.inj (Except.ok.inj (hfind.symm.trans hfind'))
  exact Except.ok.inj (hcommit.symm.trans hcommit')

theorem buildAdmitted_ok {latestSha : Str} (hsync : args.sync = false)
    (h : buildAdmitted env t args version release latestSha = .ok true) :
    args.skipBuildCheck = true ∨ ∃ distTag, getDistTag env t.effectiveBranch = .ok distTag ∧
      BuiltFrom env t.upstreamName version release latestSha
        (distTag :: getFallbackDistTags env distTag) := by
  obtain ⟨distTag, htag, h⟩ := except_bind_ok_iff.mp h
  rw [hsync, Bool.or_false] at h
  split at h
  · rename_i hskip
    exact Or.inl hskip
  · exact Or.inr ⟨distTag, htag, builtFrom_of_check h⟩

/-! ## The commit that is checked out -/

section

variable {up : Upstream} {upstreamDir : Tree} {plan : UpdatePlan} {specRelease : Str}

theorem Planned.unmodified
    (h : Planned env w package args t plan up upstreamDir specRelease) :
    isPackageUnmodified env up (w.packageDir package) t.oldSha = .ok false ↔
      plan.hasModifications = true := by
  rw [h.compared]
  simp

/-- Without a merge, the directory becomes the tree of the commit that is imported. -/
theorem Planned.tree_of_imported
    (h : Planned env w package args t plan up upstreamDir specRelease)
    (hplain : mergesLocal t args plan.hasModifications = false)
    (hcommit : importedCommit t args up plan = some commit) :
    up.tree commit = some plan.merge.tree := by
  have htree : plan.merge.tree = upstreamDir := by
    have hm := h.merge
    rw [mergeOrReplace, if_neg (by simpa [mergesLocal] using hplain)] at hm
    rw [← Except.ok.inj hm]
  rw [importedCommit, hplain, if_neg Bool.false_ne_true] at hcommit
  rcases (checkoutUpdate_ok h.checkout).2 with ⟨href, _, tip, htip, hread⟩ | ⟨ref, href, hrev, hread⟩
  · rw [href] at hcommit
    obtain rfl := Option.some.inj (htip.symm.trans hcommit)
    rw [hread, htree]
  · rw [href] at hcommit
    obtain rfl := Option.some.inj (hrev.symm.trans hcommit)
    rw [hread, htree]

/-- The commit that is imported is the one that was looked up in Koji, where `TipListed` says so. -/
theorem Planned.imported (h : Planned env w package args t plan up upstreamDir specRelease)
    (hsync : args.sync = false) (hlisted : TipListed env w package args) :
    ∃ commit, importedCommit t args up plan = some commit ∧
      (args.skipBuildCheck = true ∨ commit = plan.latestSha) := by
  obtain ⟨hclone, hcases⟩ := checkoutUpdate_ok h.checkout
  by_cases hmerges : mergesLocal t args plan.hasModifications = true
  · exact ⟨plan.latestSha, by rw [importedCommit, if_pos hmerges], Or.inr rfl⟩
  · rw [importedCommit, if_neg hmerges]
    rcases hcases with ⟨href, hsha, tip, htip, -⟩ | ⟨ref, href, hrev, -⟩
    · simp only [href]
      refine ⟨tip, htip, ?_⟩
      rcases hlisted t up h.target hclone with hskip | hgiven | ⟨hstatus, hmod⟩ | hlatest
      · exact Or.inl hskip
      · exact absurd href hgiven
      · refine absurd ?_ hmerges
        simp [mergesLocal, hsync, hstatus, h.unmodified.mp hmod]
      · right
        rw [hsha]
        exact Option.some.inj (htip.symm.trans hlatest)
    · simp only [href]
      exact ⟨plan.latestSha, hrev, Or.inr rfl⟩

end

/-! ## When an update is gated -/

theorem modifies_of_read {q : Path} {f : File}
    (h : ((final (update env package args) w).packageDir package).read q = some f)
    (hbefore : (w.packageDir package).read q ≠ some f) : Modifies env w package args := by
  left
  intro hsame
  apply hbefore
  rw [World.packageDir, ← hsame]
  exact h

/-- Only a plan that is applied changes a package outside sync mode. -/
theorem planned_of_modifies (hsync : args.sync = false) (hmark : args.mark = true → args.sync = true)
    (h : Modifies env w package args) :
    ∃ t plan up upstreamDir specRelease,
      Planned env w package args t plan up upstreamDir specRelease := by
  have hsame : final (update env package args) w ≠ w := by
    intro hsame
    rw [Modifies, hsame] at h
    rcases h with h | h | h
    all_goals exact h rfl
  cases hdec : updateDecision env w package args with
  | error e => exact absurd (final_of_error (update_of_error hdec)) hsame
  | ok d =>
      cases d with
      | skip => exact absurd (final_of_ok (update_of_skip hdec)) hsame
      | mark t version release =>
          rw [hmark (mark_of_decision hdec).1] at hsync
          exact absurd hsync (by simp)
      | apply t plan => exact ⟨t, plan, planned_of_apply hdec⟩

theorem tipListed_of_gated (hsync : args.sync = false) (h : Gated env w package args) :
    TipListed env w package args := by
  obtain ⟨t, plan, up, upstreamDir, specRelease, commit, hplanned, himported, hadmitted⟩ := h
  obtain ⟨hclone, hcases⟩ := checkoutUpdate_ok hplanned.checkout
  intro t' up' htarget hclone'
  obtain rfl := Option.some.inj (Except.ok.inj (hplanned.target.symm.trans htarget))
  obtain rfl := Option.some.inj (hclone.symm.trans hclone')
  rcases buildAdmitted_ok hsync hplanned.build with hskip | ⟨distTag, htag, hbuilt⟩
  · exact Or.inl hskip
  rcases hadmitted.built with hskip | ⟨distTag', htag', hbuilt'⟩
  · exact Or.inl hskip
  right
  obtain rfl := Except.ok.inj (htag.symm.trans htag')
  have hsame := hbuilt'.unique hbuilt
  rcases hcases with ⟨href, hsha, -⟩ | ⟨ref, href, -⟩
  · right
    by_cases hmerges : mergesLocal t args plan.hasModifications = true
    · left
      simp only [mergesLocal, Bool.and_eq_true, decide_eq_true_eq] at hmerges
      exact ⟨hmerges.1.2, hplanned.unmodified.mpr hmerges.2⟩
    · right
      rw [importedCommit, if_neg hmerges] at himported
      simp only [href] at himported
      rw [himported, hsame, hsha]
  · left
    rw [href]
    exact Option.some_ne_none ref

/-- **`gated_iff`** — a version that changes a package was admitted as what it is exactly when the commit
listed first is the one that is cloned. -/
theorem gated_iff (hsync : args.sync = false) (hmark : args.mark = true → args.sync = true)
    (h : Modifies env w package args) : Gated env w package args ↔ TipListed env w package args := by
  constructor
  · exact tipListed_of_gated hsync
  · intro hlisted
    obtain ⟨t, plan, up, upstreamDir, specRelease, hplanned⟩ := planned_of_modifies hsync hmark h
    obtain ⟨commit, himported, hcommit⟩ := hplanned.imported hsync hlisted
    obtain ⟨hnotOlder, htracked, hstable⟩ := versionAdmitted_ok hsync hplanned.version
    refine ⟨t, plan, up, upstreamDir, specRelease, commit, hplanned, himported, hnotOlder, htracked,
      hstable, ?_⟩
    rcases hcommit with hskip | rfl
    · exact Or.inl hskip
    · exact buildAdmitted_ok hsync hplanned.build

end

/-! ### A branch name that ends another one's -/

/-- An upstream that lists some commits first, with a build that Koji has of one. -/
def builtEnv (listed built : Str) : Env :=
  { gccEnv oldGcc respunGcc "2" with
    lsRemote := fun _ _ => some listed
    getBuild := fun _ _ => .value (.dict
      [("source".toList, .str ("git+https://src.fedoraproject.org/rpms/gcc.git#".toList ++ built)),
        ("state".toList, .num false "1")]) }

/-- `refs/heads/archive/f42` matches the pattern `f42` too, and is listed first. -/
def archivedEnv : Env :=
  builtEnv "archived\trefs/heads/archive/f42\nnew\trefs/heads/f42\n" "archived"

set_option maxRecDepth 4000 in
/-- Koji is asked about the archived commit, and the tip of the branch is imported. -/
theorem archived_build_admits_tip :
    letI := asciiTables
    Modifies archivedEnv (gccWorld .clean oldGcc) "gcc" {} ∧
      ¬ Gated archivedEnv (gccWorld .clean oldGcc) "gcc" {} := by
  let _ := asciiTables
  constructor
  · exact modifies_of_read (q := "gcc.spec") (f := .text "Version: 1\nRelease: 2\n")
      (by decide +kernel) (by decide +kernel)
  · intro hgated
    have htarget : updateTarget archivedEnv (gccWorld .clean oldGcc) "gcc" {} = .ok (some
        ⟨gccMetadata .clean, "https://src.fedoraproject.org/rpms/gcc.git", "f42", "old", "f42", false,
          "archived"⟩) := by
      decide +kernel
    rcases tipListed_of_gated rfl hgated _ _ htarget rfl with h | h | ⟨h, -⟩ | h
    · exact absurd h (by decide)
    · exact absurd h (by decide)
    · exact absurd h (by decide)
    · exact absurd h (by decide)

set_option maxRecDepth 4000 in
/-- With the tip listed first, what is imported is what Koji built. -/
theorem gated_iff_tip_listed :
    letI := asciiTables
    Gated (builtEnv "new\trefs/heads/f42\n" "new") (gccWorld .clean oldGcc) "gcc" {} ↔
      TipListed (builtEnv "new\trefs/heads/f42\n" "new") (gccWorld .clean oldGcc) "gcc" {} := by
  let _ := asciiTables
  refine gated_iff rfl (fun h => absurd h (by decide)) ?_
  exact modifies_of_read (q := "gcc.spec") (f := .text "Version: 1\nRelease: 2\n")
    (by decide +kernel) (by decide +kernel)

end HummingbirdRpms
