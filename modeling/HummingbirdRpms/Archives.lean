/-
# HummingbirdRpms.Archives — archives of the lookaside cache in a commit.

The archives a `sources` file lists are kept in the lookaside cache and have no place in a commit.
Every commit of a package force-adds its whole directory, so that `.gitignore` is no help; only the
names a gorget run has just returned are taken out of the index again.

**`noArchives_iff`** says when a commit holds no listed file: without a gorget run none may lie in the
directory that is added, and after one none may be left over that the run did not supersede.
-/
import HummingbirdRpms.Provenance
import HummingbirdRpms.Rebuild

namespace HummingbirdRpms

open Lib Lib.Text Lib.Exec

/-- The commands that commit a package directory. -/
inductive CommitCommand where
  | tool (cmd : Command)
  | rebuild (package reason : Str) (dryRun : Bool)
  | conflict (package : Str)

namespace CommitCommand

/-- The package a command works on. -/
def package (w : World) : CommitCommand → Option Str
  | .tool cmd => cmd.package w
  | .rebuild package _ _ => some package
  | .conflict package => some package

def run [UnicodeTables] (env : Env) : CommitCommand → Tool Unit
  | .tool cmd => cmd.run env
  | .rebuild package reason dryRun => rebuildPackage env package reason dryRun
  | .conflict package => conflictCommit env package

end CommitCommand

section

variable [UnicodeTables]

/-- The names a `sources` file with this text lists. -/
def listedNames (text : Str) : List Str :=
  ((splitlines (universalNewlines text)).filterMap parseSourcesLine).map (·.filename)

/-- The names the `sources` file of a directory lists. -/
def sourceNames (dir : Tree) : List Str :=
  match dir.read sourcesName with
  | some (.text text) => listedNames text
  | _ => []

theorem sourceNames_congr {dir dir' : Tree} (h : dir'.read sourcesName = dir.read sourcesName) :
    sourceNames dir' = sourceNames dir := by
  rw [sourceNames, h, sourceNames]

theorem sourceNames_of_text {dir : Tree} {text : Str} (h : dir.read sourcesName = some (.text text)) :
    sourceNames dir = listedNames text := by
  rw [sourceNames, h]

/-- A commit holds no file of the package that its `sources`, or that of the commit before, lists. -/
def NoArchives (package : Str) (w : World) (c : Commit) : Prop :=
  ∀ q, q ∈ sourceNames (w.head package).rpms ∨ q ∈ sourceNames (c.content package).rpms →
    (c.content package).rpms.isFile q = false

/-- A directory on its way into a commit. -/
inductive StagedDir where
  /-- Added as it is. -/
  | asIs (tree : Tree)
  /-- Added after a gorget run, with the entries the run emitted and those of the `sources` before. -/
  | refreshed (dir : Tree) (newEntries oldEntries : List SourceEntry)

/-- Nothing that is listed is left over in a directory on its way into a commit after `head`. -/
def StagedDir.ArchiveFree (head : Tree) : StagedDir → Prop
  | .asIs tree => ∀ q, q ∈ sourceNames head ∨ q ∈ sourceNames tree → tree.isFile q = false
  | .refreshed dir newEntries oldEntries =>
      ∀ q, q ∈ sourceNames head ∨
          sourcesName ∉ newEntries.map (·.filename) ∧ q ∈ listedNames (renderSources newEntries) →
        if q ∈ newEntries.map (·.filename) then head.isFile q = false
        else q ≠ sourcesName ∧ q ≠ gitignoreName ∧
          (q ∈ oldEntries.map (·.filename) ∨ dir.isFile q = false)

/-- A command brings a directory of a package on its way into a commit. -/
inductive Stages (env : Env) (w : World) : CommitCommand → Str → StagedDir → Prop
  | asIs {cmd : Command} {package : Str} {tree : Tree} (committed : CommitsAsIs env w cmd package tree) :
      Stages env w (.tool cmd) package (.asIs tree)
  | gorget {cmd : Command} {package oldVersion newVersion version : Str} {metadata : PackageMetadata}
      {w₁ : World} {file : File} {isRefresh : Bool} {outputDir : Tree}
      {newEntries oldEntries : List SourceEntry}
      (call : GorgetCall env w cmd package oldVersion newVersion metadata w₁)
      (plan : w₁.gorgetPlan env package oldVersion newVersion metadata =
        .ok (.run version file isRefresh))
      (output : gorgetOutput env w₁ package oldVersion version file = .ok (outputDir, newEntries))
      (old : parseSourcesFile (copied outputDir newEntries (w₁.packageDir package)) sourcesName =
        .ok oldEntries) :
      Stages env w (.tool cmd) package (.refreshed (w₁.packageDir package) newEntries oldEntries)
  | rebuild {package reason : Str} {dryRun : Bool} :
      Stages env w (.rebuild package reason dryRun) package (.asIs (gitFiles (w.packageDir package)))
  | conflict {package : Str} :
      Stages env w (.conflict package) package (.asIs (gitFiles (w.packageDir package)))

variable {env : Env} {w : World} {c : Commit} {package : Str} {s : StagedDir}

/-- A command brings one directory of a package on its way. -/
theorem Stages.unique {cmd : CommitCommand} {s' : StagedDir} (h : Stages env w cmd package s)
    (h' : Stages env w cmd package s') : s' = s := by
  cases h with
  | asIs committed =>
      cases h' with
      | asIs committed' => rw [committed.unique committed']
      | gorget call plan => exact absurd (plan.symm.trans (committed.of_call call).1) (by simp)
  | gorget call plan output old =>
      cases h' with
      | asIs committed => exact absurd (plan.symm.trans (committed.of_call call).1) (by simp)
      | gorget call' plan' output' old' =>
          obtain ⟨rfl, rfl, rfl, rfl⟩ := call.unique call'
          obtain ⟨rfl, rfl, rfl⟩ := GorgetPlan.run.inj (Except.ok.inj (plan.symm.trans plan'))
          obtain ⟨rfl, rfl⟩ := Prod.mk.inj (Except.ok.inj (output.symm.trans output'))
          obtain rfl := Except.ok.inj (old.symm.trans old')
          rfl
  | rebuild =>
      cases h'
      rfl
  | conflict =>
      cases h'
      rfl

/-- What a command stages is free of archives, for the one directory it stages. -/
theorem forall_stages_iff {cmd : CommitCommand} {head : Tree} (h : Stages env w cmd package s) :
    (∀ s', Stages env w cmd package s' → s'.ArchiveFree head) ↔ s.ArchiveFree head := by
  constructor
  · intro hall
    exact hall s h
  · intro hfree s' hs'
    rw [h.unique hs']
    exact hfree

/-! ## A directory added as it is -/

/-- A commit of a tree as it stands holds no archive exactly when the tree has none. -/
theorem noArchives_of_asIs {tree : Tree}
    (hfile : ∀ q, (c.content package).rpms.isFile q = tree.isFile q)
    (hread : (c.content package).rpms.read sourcesName = tree.read sourcesName) :
    NoArchives package w c ↔ (StagedDir.asIs tree).ArchiveFree (w.head package).rpms := by
  unfold NoArchives StagedDir.ArchiveFree
  rw [sourceNames_congr hread]
  constructor
  · intro h q hq
    rw [← hfile q]
    exact h q hq
  · intro h q hq
    rw [hfile q]
    exact h q hq

omit [UnicodeTables] in
/-- A directory of which nothing was taken out of the index. -/
theorem HoldsDir.isFile_asIs {before dir : Tree} (h : HoldsDir package [] before dir c) (q : Path) :
    (c.content package).rpms.isFile q = (gitFiles dir).isFile q := by
  by_cases hq : q = gitignoreName
  · rw [hq, h.gitignore, stagedGitignore, if_pos rfl, isFile_gitFiles]
  · rw [Tree.isFile, h.rpms q hq, if_neg List.not_mem_nil, Tree.isFile]

theorem HoldsDir.noArchives_asIs {dir : Tree}
    (h : HoldsDir package [] (w.head package).rpms dir c) :
    NoArchives package w c ↔ (StagedDir.asIs (gitFiles dir)).ArchiveFree (w.head package).rpms :=
  noArchives_of_asIs h.isFile_asIs
    ((h.rpms sourcesName (by decide)).trans (if_neg List.not_mem_nil))

/-! ## A directory added after a gorget run -/

omit [UnicodeTables] in
/-- Which files a commit holds after a gorget run. -/
theorem HoldsDir.isFile_refreshed {names : List Str} {before dir outputDir : Tree}
    {newEntries oldEntries : List SourceEntry}
    (h : HoldsDir package names before (refreshed outputDir newEntries oldEntries dir) c)
    (hnames : names = newEntries.map (·.filename)) (hne : newEntries ≠ [])
    (hemitted : ∀ e ∈ newEntries, outputDir.isFile e.filename = true) (q : Path) :
    (c.content package).rpms.isFile q = false ↔
      if q ∈ names then before.isFile q = false
      else q ≠ sourcesName ∧ q ≠ gitignoreName ∧
        (q ∈ oldEntries.map (·.filename) ∨ dir.isFile q = false) := by
  have hnil : names ≠ [] := by
    rw [hnames]
    exact fun hmap => hne (List.map_eq_nil_iff.mp hmap)
  by_cases hg : q = gitignoreName
  · -- `.gitignore` has been written, so it is committed unless it was taken out
    subst hg
    rw [h.gitignore, stagedGitignore, if_neg hnil]
    split
    · exact Iff.rfl
    · simp
  · rw [Tree.isFile, h.rpms q hg]
    split
    · exact Iff.rfl
    · rename_i hq
      rw [← Tree.isFile, isFile_gitFiles]
      by_cases hs : q = sourcesName
      · subst hs
        rw [Tree.isFile_of_read (by rw [refreshed, Tree.read_write_self]) rfl]
        simp
      · rw [HummingbirdRpms.isFile_refreshed hemitted hs, ← hnames, decide_eq_false hq, Bool.false_or]
        by_cases hold : q ∈ oldEntries.map (·.filename)
        · simp [hold, hs, hg]
        · simp [hold, hs, hg]

/-- Which `sources` file a commit holds after a gorget run. -/
theorem HoldsDir.sourceNames_refreshed {names : List Str} {before dir outputDir : Tree}
    {newEntries oldEntries : List SourceEntry}
    (h : HoldsDir package names before (refreshed outputDir newEntries oldEntries dir) c) :
    sourceNames (c.content package).rpms =
      if sourcesName ∈ names then sourceNames before else listedNames (renderSources newEntries) := by
  have hread := h.rpms sourcesName (by decide)
  split
  · rename_i hs
    rw [if_pos hs] at hread
    exact sourceNames_congr hread
  · rename_i hs
    rw [if_neg hs, read_gitFiles, refreshed, Tree.read_write_self,
      if_pos (Tree.isFile_of_read Tree.read_write_self rfl)] at hread
    exact sourceNames_of_text hread

/-- A commit after a gorget run holds no archive exactly when nothing listed was left over. -/
theorem HoldsDir.noArchives_refreshed {names : List Str} {dir outputDir : Tree}
    {newEntries oldEntries : List SourceEntry}
    (h : HoldsDir package names (w.head package).rpms (refreshed outputDir newEntries oldEntries dir) c)
    (hnames : names = newEntries.map (·.filename)) (hne : newEntries ≠ [])
    (hemitted : ∀ e ∈ newEntries, outputDir.isFile e.filename = true) :
    NoArchives package w c ↔
      (StagedDir.refreshed dir newEntries oldEntries).ArchiveFree (w.head package).rpms := by
  have hlisted : ∀ q, (q ∈ sourceNames (w.head package).rpms ∨
      q ∈ sourceNames (c.content package).rpms) ↔ (q ∈ sourceNames (w.head package).rpms ∨
        sourcesName ∉ names ∧ q ∈ listedNames (renderSources newEntries)) := by
    intro q
    rw [h.sourceNames_refreshed]
    by_cases hs : sourcesName ∈ names
    · simp [hs]
    · simp [hs]
  subst hnames
  unfold NoArchives StagedDir.ArchiveFree
  refine forall_congr' fun q => imp_congr (hlisted q) ?_
  exact h.isFile_refreshed rfl hne hemitted q

/-! ## Every commit of a package -/

theorem noArchives_iff_of_ran {cmd : Command} {oldVersion newVersion version : Str}
    {metadata : PackageMetadata} {w₁ w₂ w' : World} {file : File} {isRefresh : Bool} {names : List Str}
    (call : GorgetCall env w cmd package oldVersion newVersion metadata w₁)
    (plan : w₁.gorgetPlan env package oldVersion newVersion metadata = .ok (.run version file isRefresh))
    (run : runGorgetPipeline env package oldVersion version file w₁ = .ok names w₂)
    (hdir : w'.packageDir package = w₂.packageDir package)
    (content : HoldsDir package names (w.head package).rpms (w'.packageDir package) c) :
    NoArchives package w c ↔
      ∀ s, Stages env w (.tool cmd) package s → s.ArchiveFree (w.head package).rpms := by
  obtain ⟨outputDir, newEntries, oldEntries, hrun⟩ := runGorgetPipeline_ok run
  rw [hdir, hrun.dir] at content
  rw [forall_stages_iff (.gorget call plan hrun.output hrun.old)]
  exact content.noArchives_refreshed hrun.names (gorgetOutput_ok_iff.mp hrun.output).nonempty hrun.emitted

/-- **`noArchives_iff`** — a commit holds no file that its `sources`, or that of the commit before,
lists, exactly when none is left over in the directory that is added. -/
theorem noArchives_iff {cmd : CommitCommand} (h : Creates (cmd.run env) w c)
    (hp : cmd.package w = some package) :
    NoArchives package w c ↔
      ∀ s, Stages env w cmd package s → s.ArchiveFree (w.head package).rpms := by
  cases cmd with
  | tool cmd =>
      cases createdBy_of_creates h with
      | gorget call step content =>
          obtain rfl := Option.some.inj (hp.symm.trans call.package_eq)
          cases gorgetOutcome_of_ok step with
          | notNeeded plan =>
              rw [forall_stages_iff (.asIs (.notNeeded call plan))]
              exact content.noArchives_asIs
          | ran plan run => exact noArchives_iff_of_ran call plan run rfl content
          | refreshed plan run => exact noArchives_iff_of_ran call plan run rfl content
      | mark decision content =>
          obtain rfl := Option.some.inj hp
          rw [forall_stages_iff (.asIs (.mark decision))]
          exact noArchives_of_asIs (fun q => by rw [content]) (by rw [content])
      | incomplete state incomplete content =>
          rename_i s _
          have hs : s.package = package := by
            simpa [CommitCommand.package, Command.package, state] using hp
          subst hs
          rw [forall_stages_iff (.asIs (.incomplete state incomplete))]
          exact content.noArchives_asIs
  | rebuild p reason dryRun =>
      obtain rfl := Option.some.inj hp
      rw [forall_stages_iff .rebuild]
      rcases @rebuildPackage_cases _ env p reason w dryRun with
        hsame | ⟨-, m, resolved, rebuilt, c', hcommits⟩
      · exact absurd (hsame.symm.trans h) (List.cons_ne_self c w.commits).symm
      · have hc : c' = c := by
          have := congrArg World.commits hcommits.final
          exact (List.cons.inj (this.symm.trans h)).1
        subst hc
        have hspecs := hcommits.specsOnly
        have hrpms : (c'.content p).rpms = gitFiles rebuilt := by
          rw [hcommits.content, Function.update_self]
        refine noArchives_of_asIs (fun q => ?_) ?_
        · rw [hrpms, isFile_gitFiles, isFile_gitFiles, hspecs.isFile]
        · rw [hrpms]
          exact read_gitFiles_congr (hspecs.read _ (by decide))
  | conflict p =>
      obtain rfl := Option.some.inj hp
      rw [forall_stages_iff .conflict]
      rcases @conflictCommit_cases env p w with
        hsame | ⟨s, c', hcommits⟩
      · exact absurd (hsame.symm.trans h) (List.cons_ne_self c w.commits).symm
      · have hc : c' = c := by
          have := congrArg World.commits hcommits.final
          exact (List.cons.inj (this.symm.trans h)).1
        subst hc
        have hrpms : (c'.content p).rpms = gitFiles (w.packageDir p) := by
          rw [hcommits.content, Function.update_self]
        exact noArchives_of_asIs (fun q => by rw [hrpms]) (by rw [hrpms])

end

/-! ### A rebuild after a gorget run

A gorget run leaves the archives it verified in the package directory, where the next rebuild finds
them. -/

/-- A package that lists one archive. -/
def listingGcc : Tree := gccTree "Version: 1\nRelease: 1%\x7b?dist\x7d\n" "SHA512 (a.tar) = 0\n"

/-- The package as the last commit has it, with other files on disk. -/
def gccWorldWith (disk : Tree) : World :=
  { gccWorld .clean listingGcc with rpms := fun _ => some disk }

/-- A rebuild of the package. -/
def gccRebuild : CommitCommand := .rebuild "gcc" "CVE" false

theorem rebuild_creates [UnicodeTables] {env : Env} {w : World} {q : Path} {before after : Bool}
    (hw : w.commits.length = 1)
    (h : (final (gccRebuild.run env) w).commits.map
      (fun c => (c.content "gcc").rpms.isFile q) = [after, before]) :
    ∃ c, Creates (gccRebuild.run env) w c ∧ (c.content "gcc").rpms.isFile q = after := by
  refine creates_of_two _ ?_ hw h
  refine rebuildPackage_cases.imp_right ?_
  rintro ⟨-, m, resolved, rebuilt, c, hcommits⟩
  exact ⟨c, congrArg World.commits hcommits.final⟩

set_option maxRecDepth 4000 in
/-- The archive is still on disk, and is committed. -/
theorem rebuild_commits_archive :
    letI := asciiTables
    ∃ c, Creates (gccRebuild.run (gccEnv listingGcc listingGcc "1"))
        (gccWorldWith (listingGcc.write "a.tar" (.text "archive"))) c ∧
      ¬ NoArchives "gcc" (gccWorldWith (listingGcc.write "a.tar" (.text "archive"))) c := by
  let _ := asciiTables
  obtain ⟨c, hc, hfile⟩ : ∃ c, Creates (gccRebuild.run (gccEnv listingGcc listingGcc "1"))
      (gccWorldWith (listingGcc.write "a.tar" (.text "archive"))) c ∧
      (c.content "gcc").rpms.isFile "a.tar" = true :=
    @rebuild_creates _ _ _ _ false _ rfl (by decide +kernel)
  refine ⟨c, hc, fun h => ?_⟩
  have hnone := h "a.tar" (Or.inl (by decide +kernel))
  exact Bool.noConfusion (hnone.symm.trans hfile)

set_option maxRecDepth 4000 in
/-- Without the archive on disk the same rebuild commits none. -/
theorem noArchives_iff_rebuild :
    letI := asciiTables
    ∃ c, Creates (gccRebuild.run (gccEnv listingGcc listingGcc "1")) (gccWorldWith listingGcc) c ∧
      (NoArchives "gcc" (gccWorldWith listingGcc) c ↔
        ∀ s, Stages (gccEnv listingGcc listingGcc "1") (gccWorldWith listingGcc) gccRebuild "gcc" s →
          s.ArchiveFree ((gccWorldWith listingGcc).head "gcc").rpms) := by
  let _ := asciiTables
  obtain ⟨c, hc, -⟩ : ∃ c, Creates (gccRebuild.run (gccEnv listingGcc listingGcc "1"))
      (gccWorldWith listingGcc) c ∧ (c.content "gcc").rpms.isFile "a.tar" = false :=
    @rebuild_creates _ _ _ _ false _ rfl (by decide +kernel)
  exact ⟨c, hc, noArchives_iff hc rfl⟩

end HummingbirdRpms
