/-
# HummingbirdRpms.FreshImport — whether a package counts as unmodified right after it was imported.

`import_` and a synchronisation of `ci/dist_git.py` put the files of an upstream commit in place, replace
`%autorelease` in the spec file by the release that MDAPI reports, wherever it stands, and record the
package as clean.  `is_package_unmodified` forgives a difference in lines that begin with `Release:`, and
in blank ones.

**`import_fresh`** and **`sync_fresh`** say what the two leave; **`fresh_unmodified_iff`** says when that
counts as unmodified: when the spec file is not rewritten, or each of its lines is left as it is or sets a
release.  A package that has the macro in a `%global` line does not.
-/
import HummingbirdRpms.Autorelease
import HummingbirdRpms.Baseline
import HummingbirdRpms.History

namespace HummingbirdRpms

open Lib Lib.Text Lib.Regex Lib.Exec Lib.LineDiff

/-! ## What the two operations leave -/

/-- The package directory is the upstream directory, with the macro replaced by a release if there is one
to put in its place. -/
def Places (upstreamDir : Tree) (release : Option Str) (dir : Tree) : Prop :=
  match release with
  | none => dir = upstreamDir
  | some release => ∃ required, replaceAutoreleaseInSpec upstreamDir release required = .ok dir

/-- The record of a package names a commit that a clone of its source has. -/
def RecordNames (env : Env) (w : World) (package : Str) (up : Upstream) (sha : Str) : Prop :=
  ∃ m source branch single, w.metadata package = some m ∧ m.source = some source ∧ m.branch = some branch ∧
    m.sha = some sha ∧ env.clone source branch single = some up

/-- A package right after it was taken from an upstream commit. -/
structure Fresh (env : Env) (package : Str) (w w' : World) (up : Upstream) (sha : Str) (upstreamDir : Tree)
    (release : Option Str) : Prop where
  checkout : checkout up sha = .ok upstreamDir
  spec : ∃ specFile, upstreamDir.glob ".spec" = [specFile]
  places : Places upstreamDir release (w'.packageDir package)
  record : RecordNames env w' package up sha
  committed : ∃ c, w'.commits = c :: w.commits ∧ (c.content package).rpms = gitFiles (w'.packageDir package) ∧
    (c.content package).metadata = w'.metadata package

/-- The release that MDAPI reports for a spec file with the macro. -/
def reportedRelease [UnicodeTables] (env : Env) (packageName branch : Str) (upstreamDir : Tree) : Except Exn (Option Str) := do
  if ← usesAutorelease upstreamDir then
    return (← queryAutoreleaseFromMdapi env packageName branch).filter (!·.isEmpty)
  else return none

section Operations

variable {env : Env} {package : Str} {w w' : World} {u : Unit} {dir : Tree}

theorem parseSpecVersion_spec {printed : Str × Str} (h : parseSpecVersion env dir = .ok printed) :
    ∃ specFile, dir.glob ".spec" = [specFile] := by
  unfold parseSpecVersion at h
  split at h
  · exact ⟨_, ‹_›⟩
  · exact absurd h (by simp [exit])

variable [UnicodeTables]

/-- The release of an import, and the directory with it. -/
theorem importRelease_places {packageName branch specRelease release : Str}
    (h : importRelease env packageName package branch specRelease w = .ok release w') :
    ∃ reported, reportedRelease env packageName branch (w.packageDir package) = .ok reported ∧
      release = reported.getD specRelease ∧
      ∃ dir, Places (w.packageDir package) reported dir ∧
        (w' = w.setRpms package dir ∨ w' = w ∧ dir = w.packageDir package) := by
  unfold importRelease at h
  rw [run_bind_of_ok (run_get w)] at h
  obtain ⟨auto, hauto, h⟩ := lift_bind_ok_iff.mp h
  cases auto with
  | false =>
      obtain ⟨rfl, rfl⟩ := EStateM.Result.ok.inj h
      refine ⟨none, ?_, rfl, w.packageDir package, rfl, Or.inr ⟨rfl, rfl⟩⟩
      rw [reportedRelease, hauto]
      rfl
  | true =>
      rw [if_pos rfl] at h
      obtain ⟨answer, hanswer, h⟩ := lift_bind_ok_iff.mp h
      have hreported : reportedRelease env packageName branch (w.packageDir package) =
          .ok (answer.filter (!·.isEmpty)) := by
        rw [reportedRelease, hauto, except_bind_ok, if_pos rfl, hanswer]
        rfl
      cases hgiven : answer.filter (!·.isEmpty) with
      | none =>
          rw [hgiven] at h hreported
          obtain ⟨rfl, rfl⟩ := EStateM.Result.ok.inj h
          exact ⟨none, hreported, rfl, w.packageDir package, rfl, Or.inr ⟨rfl, rfl⟩⟩
      | some reported =>
          rw [hgiven] at h hreported
          obtain ⟨dir, hdir, h⟩ := lift_bind_ok_iff.mp h
          obtain ⟨rfl, rfl⟩ := EStateM.Result.ok.inj h
          exact ⟨some reported, hreported, rfl, dir, ⟨true, hdir⟩, Or.inl rfl⟩

omit [UnicodeTables] in
theorem finishImport_ok {commitMsg : Str} (h : finishImport env package commitMsg false w = .ok u w') :
    ∃ c, w'.commits = c :: w.commits ∧ (c.content package).rpms = gitFiles (w.packageDir package) ∧
      (c.content package).metadata = w.metadata package ∧ w'.rpms = w.rpms ∧ w'.metadata = w.metadata := by
  unfold finishImport at h
  obtain ⟨_, h⟩ := raiseIf_bind_ok_iff.mp h
  obtain ⟨_, h⟩ := raiseIf_bind_ok_iff.mp h
  rw [if_neg Bool.false_ne_true, gitAddPackage, run_bind_of_ok (run_modify _ w)] at h
  rw [gitCommit_ok h]
  refine ⟨_, rfl, ?_, ?_, rfl, rfl⟩
  · simp [World.setIndex]
  · simp [World.setIndex]

/-- **`import_fresh`** — what an import leaves. -/
theorem import_fresh {url branch : Str} {ref directory : Option Str}
    (h : import_ env url branch ref directory false w = .ok u w') :
    ∃ up sha upstreamDir release,
      reportedRelease env (pathStem (expandUrlShortcut url)) branch upstreamDir = .ok release ∧
      Fresh env (importDirName url directory) w w' up sha upstreamDir release := by
  unfold import_ at h
  rw [run_bind_of_ok (run_get w)] at h
  obtain ⟨hnone, h⟩ := raiseIf_bind_ok_iff.mp h
  obtain ⟨sha, w₁, hclone, h⟩ := bind_ok_iff.mp h
  obtain ⟨up, hup, htree⟩ := cloneInto_ok hclone
  have hcommits₁ : w₁.commits = w.commits := commits_cloneInto.ok hclone
  rw [run_bind_of_ok (run_get _)] at h
  obtain ⟨⟨version, specRelease⟩, hspec, h⟩ := lift_bind_ok_iff.mp h
  obtain ⟨release, w₂, hrelease, h⟩ := bind_ok_iff.mp h
  obtain ⟨anityaId, -, h⟩ := lift_bind_ok_iff.mp h
  rw [saveRecord, run_bind_of_ok (run_modify _ w₂)] at h
  obtain ⟨reported, hreported, -, placed, hplaces, hw₂⟩ := importRelease_places hrelease
  obtain ⟨c, hcommits, hfiles, hmetadata, hrpms, hrecords⟩ := finishImport_ok h
  have hplaced : w₂.packageDir (importDirName url directory) = placed ∧ w₂.commits = w.commits := by
    rcases hw₂ with rfl | ⟨rfl, rfl⟩
    · exact ⟨packageDir_setRpms, hcommits₁⟩
    · exact ⟨rfl, hcommits₁⟩
  have hdir' : w'.packageDir (importDirName url directory) = placed := by
    rw [World.packageDir, hrpms, ← hplaced.1]
    rfl
  refine ⟨up, sha, w₁.packageDir (importDirName url directory), reported, hreported,
    checkout_ok_iff.mpr htree, parseSpecVersion_spec hspec, ?_, ?_, c, ?_, ?_, ?_⟩
  · rw [hdir']
    exact hplaces
  · have hrecord : w'.metadata (importDirName url directory) =
        some (importedMetadata (expandUrlShortcut url) branch sha version release anityaId) := by
      rw [hrecords]
      simp [World.setMetadata, World.setImports]
    exact ⟨_, _, _, _, hrecord, rfl, rfl, rfl, hup⟩
  · rw [hcommits, ← hplaced.2]
    rfl
  · rw [hfiles, hdir', ← hplaced.1]
    rfl
  · rw [hmetadata, hrecords]

/-! ## A synchronisation -/

/-- `git ls-remote` names the commit that a clone has at the tip of the branch. -/
def Env.RemoteStands (env : Env) : Prop := ∀ package source branch single up sha,
  env.clone source branch single = some up → lsRemoteSha env package source branch = .ok sha →
    up.tip branch = some sha

/-- The release that a synchronisation puts in place of the macro. -/
def UpdatePlan.putRelease (plan : UpdatePlan) : Option Str :=
  if plan.hasAutorelease then some plan.release else none

variable {args : UpdateArgs} {t : Target} {plan : UpdatePlan}

/-- Without a pipeline there is nothing to run. -/
theorem runGorget_of_no_pipeline {oldVersion newVersion : Str} {metadata : PackageMetadata}
    (h : loadSourcePipeline w package = none) :
    runGorgetForUpdatedPackage env package oldVersion newVersion metadata w = .ok (none, []) w := by
  unfold runGorgetForUpdatedPackage
  rw [run_bind_of_ok (run_get w), h]
  rfl

omit [UnicodeTables] in
/-- A commit without uploaded files holds the files of the package directory. -/
theorem commitPackage_files {m : PackageMetadata} {commitMsg : Str}
    (h : commitPackage env package (some m) [] commitMsg w = .ok u w') :
    (∃ c, w'.commits = c :: w.commits ∧ (c.content package).rpms = gitFiles (w.packageDir package) ∧
      (c.content package).metadata = some m) ∧ w'.rpms = w.rpms ∧ w'.metadata package = some m := by
  unfold commitPackage at h
  obtain ⟨_, w₁, hsave, h⟩ := bind_ok_iff.mp h
  obtain ⟨_, w₂, hstage, h⟩ := bind_ok_iff.mp h
  obtain ⟨_, rfl⟩ := EStateM.Result.ok.inj (run_saveMetadata.symm.trans hsave)
  obtain ⟨_, w₃, hignore, hstage⟩ := bind_ok_iff.mp hstage
  obtain ⟨_, rfl⟩ := EStateM.Result.ok.inj hignore
  obtain ⟨_, w₄, hadd, hreset⟩ := bind_ok_iff.mp hstage
  obtain ⟨_, rfl⟩ := EStateM.Result.ok.inj hreset
  rw [gitCommit_ok h, addPackage_ok hadd]
  refine ⟨⟨_, rfl, ?_, ?_⟩, rfl, ?_⟩
  · simp [World.setIndex, World.saved, World.setMetadata, World.packageDir]
  · simp [World.setIndex, World.saved, World.setMetadata]
  · simp [World.setIndex, World.saved, World.setMetadata]

/-- **`sync_fresh`** — what a synchronisation leaves of a package without a pipeline. -/
theorem sync_fresh (hsync : args.sync = true) (hwet : args.dryRun = false)
    (hpipeline : loadSourcePipeline w package = none) (hremote : env.RemoteStands)
    (hdecision : updateDecision env w package args = .ok (.apply t plan))
    (h : update env package args w = .ok u w') :
    ∃ up upstreamDir specRelease, Planned env w package args t plan up upstreamDir specRelease ∧
      Fresh env package w w' up plan.latestSha upstreamDir plan.putRelease := by
  obtain ⟨up, upstreamDir, specRelease, hplanned⟩ := planned_of_apply hdecision
  refine ⟨up, upstreamDir, specRelease, hplanned, ?_⟩
  have hmerge : plan.merge = { failed := false, tree := upstreamDir } := by
    have := hplanned.merge
    rw [mergeOrReplace, hsync] at this
    exact (Except.ok.inj this).symm
  -- the commit that is recorded is the one that is checked out
  have hcheckout : checkout up plan.latestSha = .ok upstreamDir := by
    obtain ⟨hclone, ⟨href, hsha, tip, htip, htree⟩ | ⟨ref, -, -, htree⟩⟩ := checkoutUpdate_ok hplanned.checkout
    · have hlatest := (updateTarget_latest hplanned.target).2 href
      have hsame := hremote _ _ _ _ _ _ hclone hlatest
      rw [htip, ← hsha] at hsame
      rw [checkout_ok_iff, ← Option.some.inj hsame]
      exact htree
    · exact checkout_ok_iff.mpr htree
  rw [update_of_apply hdecision] at h
  cases hplaced : plan.placed with
  | error e =>
      unfold applyUpdate at h
      rw [run_bind, run_placeUpdate, hplaced] at h
      exact absurd h (by simp)
  | ok dir =>
      have hclean : plan.merge.failed = false := by rw [hmerge]
      have hnone : loadSourcePipeline (w.setRpms package dir) package = none := hpipeline
      rw [applyUpdate_eq hwet hclean hplaced, runGorget_of_no_pipeline hnone] at h
      obtain ⟨⟨c, hcommits, hfiles, hrecord⟩, hrpms, hmetadata⟩ := commitPackage_files h
      have hdir : w'.packageDir package = dir := by
        rw [World.packageDir, hrpms]
        exact packageDir_setRpms
      have hplaces : Places upstreamDir plan.putRelease dir := by
        unfold UpdatePlan.placed at hplaced
        rw [hmerge] at hplaced
        unfold UpdatePlan.putRelease
        split at hplaced
        · rw [if_pos ‹_›]
          exact ⟨false, hplaced⟩
        · rw [if_neg ‹_›]
          exact (Except.ok.inj hplaced).symm
      refine ⟨hcheckout, parseSpecVersion_spec hplanned.spec, ?_, ?_, c, hcommits, ?_, ?_⟩
      · rw [hdir]
        exact hplaces
      · obtain ⟨-, -, hsource, hbranch, -⟩ := updateTarget_ok hplanned.target
        have hsame := (updateTarget_latest hplanned.target).1
        refine ⟨_, t.source, t.effectiveBranch, !t.branchChanged, hmetadata, hsource, ?_, rfl,
          (checkoutUpdate_ok hplanned.checkout).1⟩
        show (if t.branchChanged then some t.effectiveBranch else t.metadata.branch) = some t.effectiveBranch
        cases hchanged : t.branchChanged with
        | true => rfl
        | false => rw [hbranch, hsame hchanged]; rfl
      · rw [hfiles, hdir]
        exact congrArg gitFiles packageDir_setRpms
      · rw [hrecord, hmetadata]

end Operations

/-! ## Whether it counts as unmodified -/

/-- `diff` sees nothing of what a release in place of the macro makes of a spec file: the file is not
rewritten, or `diff` takes it for text and each of its lines is left as it is or sets a release. -/
def KeepsSpec (gnu : GnuDiff) (release raw : Str) : Prop :=
  resolvedText release (universalNewlines raw) = universalNewlines raw ∨
    gnu.compare (.text (resolvedText release (universalNewlines raw))) (.text raw) ≠ .binary ∧
      ∀ line ∈ textLines raw, LeftAlone release line ∨ SetsRelease line

/-- Nothing is put in place of the macro, or `diff` sees nothing of it. -/
def SpecKept (gnu : GnuDiff) (upstreamDir : Tree) (release : Option Str) : Prop :=
  ∀ r ∈ release, ∀ specFile ∈ upstreamDir.glob ".spec", ∀ raw, upstreamDir.read specFile = some (.text raw) →
    KeepsSpec gnu r raw

section Unmodified

variable [UnicodeTables] {env env' : Env} {gnu : GnuDiff} {package : Str} {w w' : World} {up : Upstream} {sha : Str}
variable {upstreamDir dir : Tree} {release : Option Str}

omit [UnicodeTables] in
/-- What replacing the macro makes of the directory. -/
theorem replaceAutorelease_ok {specFile r : Str} {required : Bool} (hone : upstreamDir.glob ".spec" = [specFile])
    (h : replaceAutoreleaseInSpec upstreamDir r required = .ok dir) :
    ∃ raw, upstreamDir.read specFile = some (.text raw) ∧
      dir = if resolvedText r (universalNewlines raw) = universalNewlines raw then upstreamDir
        else upstreamDir.write specFile (.text (resolvedText r (universalNewlines raw))) := by
  unfold replaceAutoreleaseInSpec at h
  rw [hone] at h
  obtain ⟨content, hcontent, h⟩ := except_bind_ok_iff.mp h
  unfold readText at hcontent
  cases hread : upstreamDir.read specFile with
  | none => simp [hread] at hcontent
  | some f =>
      rw [hread] at hcontent
      cases f with
      | bytes b => simp [decodeText] at hcontent
      | dir => simp [decodeText] at hcontent
      | text raw =>
          obtain rfl := Except.ok.inj hcontent
          refine ⟨raw, rfl, ?_⟩
          rw [sub_autorelease] at h
          split
          · rename_i hsame
            rw [if_pos hsame] at h
            obtain ⟨_, -, h⟩ := except_bind_ok_iff.mp h
            exact (Except.ok.inj h).symm
          · rename_i hchanged
            rw [if_neg hchanged] at h
            exact (Except.ok.inj h).symm

omit [UnicodeTables] in
theorem underSpec_of_mem_glob {specFile : Str} (h : specFile ∈ upstreamDir.glob ".spec") :
    underSpec specFile = true := by
  obtain ⟨hfirst, hend⟩ := Tree.firstComponent_of_mem_glob h
  have hslash : '/' ∉ specFile := by
    intro hmem
    rw [← hfirst] at hmem
    exact absurd (List.mem_takeWhile_imp hmem) (by simp)
  rw [underSpec, List.any_eq_true]
  refine ⟨specFile, ?_, hend⟩
  rw [List.splitOn_eq_singleton hslash]
  exact List.mem_singleton_self _

omit [UnicodeTables] in
theorem same_refl {releaseLines : Bool} {f : File} : gnu.same releaseLines f f = true := by
  rw [GnuDiff.same, decide_eq_true rfl, Bool.true_or]

omit [UnicodeTables] in
theorem rel_same_refl {releaseLines : Bool} {f : Option File} :
    Option.Rel (fun f g => gnu.same releaseLines f g = true) f f := by
  cases f with
  | none => exact .none
  | some f => exact .some same_refl

omit [UnicodeTables] in
/-- A directory whose spec file was rewritten compares as its spec file does. -/
theorem unmodified_write_iff {specFile raw text : Str} (hcheckout : checkout up sha = .ok upstreamDir)
    (hfiles : ∀ q, upstreamDir.read q ≠ some .dir) (hspec : specFile ∈ upstreamDir.glob ".spec")
    (hread : upstreamDir.read specFile = some (.text raw)) :
    isPackageUnmodified (env.withDiff gnu) up (upstreamDir.write specFile (.text text)) sha = .ok true ↔
      gnu.same true (.text text) (.text raw) = true := by
  have hwritten : ∀ q, (upstreamDir.write specFile (.text text)).read q ≠ some .dir := by
    intro q
    by_cases hq : q = specFile
    · rw [hq, Tree.read_write_self]
      simp
    · rw [Tree.read_write_ne hq]
      exact hfiles q
  have hiff := @unmodified_iff gnu ⟨_, fun _ => false, hwritten⟩ ⟨upstreamDir, fun _ => false, hfiles⟩ env up sha
    hcheckout
  refine hiff.trans ⟨fun h => ?_, fun h q => ?_⟩
  · have hat := h specFile
    rw [Tree.read_write_self, hread, Option.rel_some_some, underSpec_of_mem_glob hspec] at hat
    exact hat
  · by_cases hq : q = specFile
    · rw [hq, Tree.read_write_self, hread, Option.rel_some_some, underSpec_of_mem_glob hspec]
      exact h
    · rw [Tree.read_write_ne hq]
      exact rel_same_refl

omit [UnicodeTables] in
theorem unmodified_self (hcheckout : checkout up sha = .ok upstreamDir)
    (hfiles : ∀ q, upstreamDir.read q ≠ some .dir) :
    isPackageUnmodified (env.withDiff gnu) up upstreamDir sha = .ok true :=
  (@unmodified_iff gnu ⟨upstreamDir, fun _ => false, hfiles⟩ ⟨upstreamDir, fun _ => false, hfiles⟩ env up sha
    hcheckout).mpr fun _ => rel_same_refl

omit [UnicodeTables] in
/-- **`Fresh.unmodified_iff`** — a package counts as unmodified right after it was taken from upstream
exactly when the comparison sees nothing of the release in place of the macro. -/
theorem Fresh.unmodified_iff (h : Fresh env' package w w' up sha upstreamDir release) (hminimal : gnu.Minimal)
    (hfiles : ∀ q, upstreamDir.read q ≠ some .dir) (hrelease : ∀ r ∈ release, IsRelease r) :
    isPackageUnmodified (env.withDiff gnu) up (w'.packageDir package) sha = .ok true ↔
      SpecKept gnu upstreamDir release := by
  obtain ⟨specFile, hone⟩ := h.spec
  have hmem : specFile ∈ upstreamDir.glob ".spec" := hone ▸ List.mem_singleton_self specFile
  have hplaces := h.places
  cases release with
  | none =>
      refine iff_of_true ?_ fun r hr => absurd hr (by simp)
      rw [show w'.packageDir package = upstreamDir from hplaces]
      exact unmodified_self h.checkout hfiles
  | some r =>
      obtain ⟨required, hplaced⟩ := hplaces
      obtain ⟨raw, hread, hdir⟩ := replaceAutorelease_ok hone hplaced
      have hkept : SpecKept gnu upstreamDir (some r) ↔ KeepsSpec gnu r raw := by
        constructor
        · exact fun hall => hall r rfl specFile hmem raw hread
        · rintro hraw r' ⟨⟩ specFile' hmem' raw' hread'
          rw [hone, List.mem_singleton] at hmem'
          subst hmem'
          rw [hread] at hread'
          rwa [← File.text.inj (Option.some.inj hread')]
      rw [hkept, hdir, KeepsSpec]
      split
      · rename_i hsame
        exact iff_of_true (unmodified_self h.checkout hfiles) (Or.inl hsame)
      · rename_i hchanged
        rw [unmodified_write_iff h.checkout hfiles hmem hread,
          same_resolved_iff hminimal (hrelease r rfl), or_iff_right hchanged, or_iff_right]
        exact fun hraw => hchanged (eq_read_of_eq_raw (hrelease r rfl) hraw)

/-! ## The runs -/

/-- Git keeps files, not directories. -/
def Env.GitTrees (env : Env) : Prop := ∀ source branch single up commit dir,
  env.clone source branch single = some up → up.tree commit = some dir → ∀ q, dir.read q ≠ some .dir

/-- MDAPI and rpmspec report releases. -/
structure Env.ReportsReleases (env : Env) : Prop where
  mdapi : ∀ package branch r, env.mdapi package branch = .ok (some r) → r = [] ∨ IsRelease r
  rpmspec : ∀ dir version r, parseSpecVersion env dir = .ok (version, r) → IsRelease r

/-- Where the dist suffix stands, it ends the text. -/
theorem matchAt_distSuffix {t : Str} {i : Nat} {m : Match} (hline : '\n' ∉ t)
    (h : matchAt distSuffixRe t i = some m) : t[i]? = some '.' ∧ i < m.stop ∧ m.stop = t.length := by
  simp only [matchAt, Option.map_eq_some_iff] at h
  obtain ⟨e, he, rfl⟩ := h
  have hmem := List.mem_of_mem_head? he
  unfold distSuffixRe at hmem
  obtain ⟨m₁, h₁, hmem⟩ := mem_run_seq_cons.mp hmem
  obtain ⟨hdot, rfl⟩ := mem_run_lit.mp h₁
  obtain ⟨m₂, h₂, hmem⟩ := mem_run_seq_cons.mp hmem
  obtain ⟨m₃, h₃, hmem⟩ := mem_run_seq_cons.mp hmem
  obtain ⟨hend, rfl⟩ := mem_run_eot.mp hmem
  obtain ⟨k, hk, hspan, rfl⟩ := mem_run_some1.mp h₃
  have hlater : i + 1 ≤ m₂.pos := by
    rcases mem_run_alt.mp h₂ with h₂ | h₂
    · obtain ⟨-, rfl⟩ := mem_run_lit.mp h₂
      exact Nat.le_add_right _ _
    · obtain ⟨-, rfl⟩ := mem_run_lit.mp h₂
      exact Nat.le_add_right _ _
  have hget := getElem?_of_prefix_drop hdot (show 0 < ".".toList.length by decide)
  rw [Nat.add_zero] at hget
  -- the digits are characters of the text
  have hinside : m₂.pos + k ≤ t.length := by
    have hlen : spanLen t isDigit m₂.pos ≤ (t.drop m₂.pos).length := (List.takeWhile_prefix _).length_le
    rw [List.length_drop] at hlen
    omega
  refine ⟨hget, show i < m₂.pos + k by omega, ?_⟩
  rcases hend with hend | hend
  · exact le_antisymm hinside hend
  · have hbreak : '\n' ∈ t.drop (m₂.pos + k) := by
      rw [hend]
      exact List.mem_singleton_self _
    exact absurd (List.mem_of_mem_drop hbreak) hline

/-- Stripping the dist suffix leaves the front of a release. -/
theorem sub_distSuffix {t : Str} (hline : '\n' ∉ t) :
    ∃ k, sub distSuffixRe (fun _ => []) t = t.take k ∧ (k = 0 → t = [] ∨ t.head? = some '.') := by
  have hend : matchAt distSuffixRe t t.length = none := by
    cases hm : matchAt distSuffixRe t t.length with
    | none => rfl
    | some m =>
        obtain ⟨-, hlt, hstop⟩ := matchAt_distSuffix hline hm
        omega
  have hdone : Rewrites distSuffixRe (fun _ => []) t t.length [] [] := .stop hend
  -- a stretch without a match is kept
  have hskip : ∀ k ms out, k ≤ t.length → (∀ j < k, matchAt distSuffixRe t j = none) →
      Rewrites distSuffixRe (fun _ => []) t k ms out →
        sub distSuffixRe (fun _ => []) t = t.take k ++ out := by
    intro k ms out hk hnone h
    have hlen : (t.take k).length = k := List.length_take_of_le hk
    have hall := Rewrites.skip (x := t.take k) (u := t.drop k) (i := 0) (by rw [List.drop_zero, List.take_append_drop])
      (by omega) (by rw [hlen]; simpa using hnone) (by rw [hlen, Nat.zero_add]; exact h)
    exact hall.sub_eq
  by_cases hnone : ∀ i < t.length, matchAt distSuffixRe t i = none
  · refine ⟨t.length, ?_, fun h => Or.inl (List.length_eq_zero_iff.mp h)⟩
    rw [hskip _ _ _ le_rfl hnone hdone, List.append_nil]
  · -- the first match takes the rest
    have hex : ∃ i, i < t.length ∧ (matchAt distSuffixRe t i).isSome = true := by
      push Not at hnone
      obtain ⟨i, hi, hmatch⟩ := hnone
      exact ⟨i, hi, Option.isSome_iff_ne_none.mpr hmatch⟩
    obtain ⟨hlt, hfirst⟩ := Nat.find_spec hex
    obtain ⟨m, hm⟩ := Option.isSome_iff_exists.mp hfirst
    obtain ⟨hdot, hbefore, hstop⟩ := matchAt_distSuffix hline hm
    have hrest : Rewrites distSuffixRe (fun _ => []) t (Nat.find hex) [m] ([] ++ []) :=
      Rewrites.take hlt.le hm hbefore (hstop ▸ hdone)
    refine ⟨Nat.find hex, ?_, fun hzero => Or.inr ?_⟩
    · rw [hskip _ _ _ hlt.le (fun j hj => ?_) hrest]
      · rw [List.append_nil, List.append_nil]
      · have hmin := Nat.find_min hex hj
        rw [not_and, Bool.not_eq_true, Option.isSome_eq_false_iff, Option.isNone_iff_eq_none] at hmin
        exact hmin (by omega)
    · rw [hzero] at hdot
      rw [List.head?_eq_getElem?]
      exact hdot

omit [UnicodeTables] in
theorem IsRelease.take {r : Str} (h : IsRelease r) {k : Nat} (hk : k ≠ 0) : IsRelease (r.take k) where
  first := by
    obtain ⟨d, rest, rfl, hd, hrest⟩ := h.first
    obtain ⟨k, rfl⟩ := Nat.exists_eq_succ_of_ne_zero hk
    exact ⟨d, rest.take k, rfl, hd, fun hmem => hrest (List.mem_of_mem_take hmem)⟩
  line c hc := h.line c (List.mem_of_mem_take hc)

/-- What MDAPI reports is a release without its dist suffix, too. -/
theorem isRelease_sub {r : Str} (h : IsRelease r) : IsRelease (sub distSuffixRe (fun _ => []) r) := by
  obtain ⟨k, hsub, hzero⟩ := sub_distSuffix (h.not_mem rfl)
  rw [hsub]
  refine h.take fun hk => ?_
  obtain ⟨d, rest, rfl, hd, -⟩ := h.first
  rcases hzero hk with hnil | hdot
  · exact List.cons_ne_nil d rest hnil
  · obtain rfl := Option.some.inj hdot
    exact absurd hd (by decide)

/-- A release that is reported for a package is one. -/
theorem Env.ReportsReleases.query (h : env.ReportsReleases) {name branch : Str} {answer : Option Str}
    (hanswer : queryAutoreleaseFromMdapi env name branch = .ok answer) :
    ∀ r ∈ answer.filter (!·.isEmpty), IsRelease r := by
  intro r hr
  obtain ⟨reported, hreported, heq⟩ := except_bind_ok_iff.mp hanswer
  obtain rfl := Except.ok.inj heq
  cases reported with
  | none => exact absurd hr (by simp)
  | some raw =>
      obtain ⟨hmem, hne⟩ := Option.mem_filter_iff.mp hr
      obtain rfl := Option.some.inj hmem
      rcases h.mdapi _ _ _ hreported with rfl | hraw
      · obtain ⟨k, hsub, -⟩ := sub_distSuffix (t := []) List.not_mem_nil
        rw [hsub, List.take_nil] at hne
        exact absurd hne (by decide)
      · exact isRelease_sub hraw

omit [UnicodeTables] in
theorem Env.RemoteStands.withDiff (h : env.RemoteStands) : (env.withDiff gnu).RemoteStands := by
  intro name source branch single up sha hclone hremote
  refine h name source branch single up sha hclone ?_
  rw [← hremote]
  rfl

theorem Env.ReportsReleases.putRelease (h : env.ReportsReleases) {args : UpdateArgs} {t : Target}
    {plan : UpdatePlan} {specRelease : Str}
    (hplanned : Planned (env.withDiff gnu) w package args t plan up upstreamDir specRelease) :
    ∀ r ∈ plan.putRelease, IsRelease r := by
  intro r hr
  unfold UpdatePlan.putRelease at hr
  split at hr
  · rename_i hauto
    obtain rfl := Option.some.inj hr
    have hrelease := hplanned.release
    rw [resolveRelease, if_pos hauto] at hrelease
    obtain ⟨answer, hanswer, hrelease⟩ := except_bind_ok_iff.mp hrelease
    rw [← Except.ok.inj hrelease]
    cases hfilter : answer.filter (!·.isEmpty) with
    | none => exact h.rpmspec _ _ _ hplanned.spec
    | some reported => exact h.query hanswer reported hfilter
  · exact absurd hr (by simp)

/-- A package that is marked as synchronised counts as unmodified: that is what is checked. -/
theorem mark_unmodified {args : UpdateArgs} {t : Target} {version release : Str} {u : Unit}
    (hwet : args.dryRun = false) (hdecision : updateDecision env w package args = .ok (.mark t version release))
    (h : update env package args w = .ok u w') :
    ∃ up, RecordNames env w' package up t.oldSha ∧
      isPackageUnmodified env up (w'.packageDir package) t.oldSha = .ok true := by
  have hfinal : w'.packageDir package = w.packageDir package ∧
      w'.metadata package = some (markedMetadata t) := by
    have hends := @applyMark_cases env package args t w version release
    rw [← update_of_mark hdecision, h] at hends
    cases hends with
    | dry hdry => rw [hwet] at hdry; exact absurd hdry Bool.false_ne_true
    | committed _ commits =>
        rw [commits.final]
        exact ⟨rfl, by simp [World.setMetadata]⟩
  obtain ⟨target, htarget, hdecision⟩ := except_bind_ok_iff.mp hdecision
  cases target with
  | none => exact absurd hdecision (by simp)
  | some t' =>
      dsimp only at hdecision
      split at hdecision
      · rename_i hsame
        rw [Bool.and_eq_true, Bool.not_eq_true'] at hsame
        obtain ⟨_, -, hdecision⟩ := except_bind_ok_iff.mp hdecision
        split at hdecision
        · exact absurd hdecision (by simp)
        · obtain ⟨⟨up, upstreamDir⟩, hclone, hdecision⟩ := except_bind_ok_iff.mp hdecision
          obtain ⟨unmodified, hunmodified, hdecision⟩ := except_bind_ok_iff.mp hdecision
          obtain ⟨_, hchecked, hdecision⟩ := except_bind_ok_iff.mp hdecision
          obtain ⟨_, -, hdecision⟩ := except_bind_ok_iff.mp hdecision
          obtain ⟨rfl, -, -⟩ := Decision.mark.inj (Except.ok.inj hdecision)
          obtain ⟨-, -, hsource, hbranch, hsha⟩ := updateTarget_ok htarget
          have hbranch' := (updateTarget_latest htarget).1 hsame.2
          refine ⟨up, ⟨markedMetadata t', t'.source, t'.effectiveBranch, !t'.branchChanged, hfinal.2, hsource, ?_,
            hsha, (cloneUpstream_ok hclone).1⟩, ?_⟩
          · rw [hbranch']
            exact hbranch
          · rw [hfinal.1, hunmodified]
            exact congrArg Except.ok (Bool.eq_true_of_not_eq_false (failIf_ok_iff.mp hchecked))
      · exact absurd hdecision planUpdate_not_mark

end Unmodified

/-! ## Two packages of Fedora -/

/-- A tool that changes as few lines as can be, and takes a file with a null character for binary. -/
def shortestDiff : GnuDiff where
  compare f g :=
    match f, g with
    | .text s, .text t =>
        if '\x00' ∈ s ∨ '\x00' ∈ t then .binary else .lines (shortest trimEnd (textLines s) (textLines t))
    | _, _ => .binary
  aligned f g changes h := by
    split at h
    · split at h
      · exact absurd h (by simp)
      · obtain rfl := Comparison.lines.inj h
        exact aligned_shortest
    · exact absurd h (by simp)

theorem shortestDiff_minimal : shortestDiff.Minimal := by
  intro f g changes h
  unfold shortestDiff at h
  dsimp only at h
  split at h
  · split at h
    · exact absurd h (by simp)
    · obtain rfl := Comparison.lines.inj h
      exact smallest_shortest
  · exact absurd h (by simp)

/-- Fedora's dist-git of a package with this spec file, of which MDAPI reports release 3. -/
def specEnv (name spec : Str) : Env :=
  { Env.offline with
    fedoraReleases := [("f42", "fc42"), ("f43", "fc43")]
    lsRemote := fun _ _ => some "new\trefs/heads/f43\n"
    clone := fun _ _ _ => some
      { tip := fun _ => some "new"
        revParse := fun _ => none
        tree := fun _ => some (Tree.ofList [(name, .text spec)])
        mergeBase := fun _ _ => none }
    rpmspec := fun _ _ => .exited 0 "22.1\n1\n" []
    mdapi := fun _ _ => .ok (some "3.fc43")
    anityaId := fun _ => .ok 7
    jinja2Ok := true
    generateOk := true
    commitOk := true }

/-- The macro in the `Release:` field. -/
def plainSpec : Str := "Name: zsh\nVersion: 22.1\nRelease: %autorelease\n"

/-- The macro in another macro. -/
def indirectSpec : Str := "%global rel %autorelease\nName: nodejs22\nVersion: 22.1\nRelease: %\x7brel\x7d\n"

theorem specEnv_reports (name spec : Str) :
    letI := asciiTables
    (specEnv name spec).ReportsReleases := by
  let _ := asciiTables
  constructor
  · intro package branch r h
    obtain rfl := Option.some.inj (Except.ok.inj h)
    exact Or.inr ⟨⟨'3', ".fc43".toList, rfl, Or.inl rfl, by decide⟩, by decide⟩
  · intro dir version r h
    unfold parseSpecVersion at h
    split at h
    · have hprinted : (version, r) = ("22.1".toList, "1".toList) := (Except.ok.inj h).symm
      obtain ⟨-, rfl⟩ := Prod.mk.inj hprinted
      exact ⟨⟨'1', [], rfl, Or.inl rfl, List.not_mem_nil⟩, by decide⟩
    · exact absurd h (by simp [exit])

theorem specEnv_trees (name spec : Str) : (specEnv name spec).GitTrees := by
  intro source branch single up commit dir hclone htree q
  obtain rfl := Option.some.inj hclone
  obtain rfl := Option.some.inj htree
  simp only [Tree.ofList, Tree.read_write]
  split
  · simp
  · simp

theorem specEnv_remote (name spec : Str) : (specEnv name spec).RemoteStands := by
  intro package source branch single up sha hclone hremote
  obtain rfl := Option.some.inj hclone
  have hnew : lsRemoteSha (specEnv name spec) package source branch = .ok "new".toList := rfl
  rw [hnew] at hremote
  exact congrArg some (Except.ok.inj hremote)

end HummingbirdRpms
