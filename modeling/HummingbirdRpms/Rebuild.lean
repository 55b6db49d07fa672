/-
# HummingbirdRpms.Rebuild — the commits that are made outside an update.

`rebuild_package` of `ci/dist_git.py` bumps the release of a package and commits its directory.  The
conflict commit of `ci/dist_git_update_multi_mr.sh` commits what an update that ended with status 2 has
left.  Both force-add the whole package directory.

**`rebuildPackage_cases`** and **`conflictCommit_cases`** say what they commit.
-/
import HummingbirdRpms.Update

namespace HummingbirdRpms

open Lib Lib.Text Lib.Regex Lib.Exec

section

variable [UnicodeTables]

/-! ## Bumping a release -/

/-- `^(.+)\.(\d+)$` -/
def numberSuffixRe : Re :=
  Re.seq [.group 1 (Re.some1 (· != '\n')), .lit ".", .group 2 (Re.some1 isDigit), .eot]

/-- `^(.*)\.(\d+)$` -/
def macroSuffixRe : Re :=
  Re.seq [.group 1 (.many true (· != '\n')), .lit ".", .group 2 (Re.some1 isDigit), .eot]

/-- A release with its number suffix incremented, or with a first one. -/
def bumpSuffix (re : Re) (release : Str) : Str :=
  match matchAt re release 0 with
  | some m => m.group 1 ++ ".".toList ++ ofNat (intOfDigits (m.group 2) + 1)
  | none => release ++ ".1".toList

/-- `bump_release` -/
def bumpRelease (currentRelease : Str) (upstreamRelease : Option Str) : Str :=
  if given upstreamRelease = some currentRelease then currentRelease ++ ".1".toList
  else bumpSuffix numberSuffixRe currentRelease

/-- `%\{\??dist\}` -/
def distRe : Re := Re.seq [.lit "%\x7b", Re.opt (.lit "?"), .lit "dist\x7d"]

/-- `^Release:\s+(.*)%\{\??dist\}(.*)$` -/
def releaseDistRe : Re :=
  Re.seq [.bol, .lit "Release:", Re.some1 isSpace, .group 1 (.many true (· != '\n')), distRe,
    .group 2 (.many true (· != '\n')), .eol]

/-- `^Release:(\s+).*%\{\??dist\}.*$` -/
def macroReleaseRe : Re :=
  Re.seq [.bol, .lit "Release:", .group 1 (Re.some1 isSpace), .many true (· != '\n'), distRe,
    .many true (· != '\n'), .eol]

/-- `^Release:\s+.*%\{[^}]+\}` -/
def releaseMacroOnlyRe : Re :=
  Re.seq [.bol, .lit "Release:", Re.some1 isSpace, .many true (· != '\n'), .lit "%\x7b",
    Re.some1 (· != '\x7d'), .lit "\x7d"]

/-- `^Release:(\s+).*?(%\{\??dist\})(.*)$` -/
def plainReleaseRe : Re :=
  Re.seq [.bol, .lit "Release:", .group 1 (Re.some1 isSpace), .many false (· != '\n'), .group 2 distRe,
    .group 3 (.many true (· != '\n')), .eol]

/-- A spec text whose release is a macro, with the suffix before `%{?dist}` bumped. -/
def bumpMacroRelease (before after content : Str) : Str :=
  sub macroReleaseRe
    (fun m => "Release:".toList ++ m.group 1 ++ bumpSuffix macroSuffixRe before ++ distMacro ++ after)
    content

/-- A spec text with a new release. -/
def setPlainRelease (newRelease content : Str) : Str :=
  sub plainReleaseRe
    (fun m => "Release:".toList ++ m.group 1 ++ newRelease ++ m.group 2 ++ m.group 3) content

/-- A spec text with its release set, or why it cannot be. -/
def updateReleaseText (specFile : Path) (newRelease content : Str) : Except Exn Str :=
  let release := search releaseDistRe content
  match release.filter fun m => contains "%\x7b" (m.group 1) with
  | some m => .ok (bumpMacroRelease (m.group 1) (m.group 2) content)
  | none => do
      failIf (release = none ∧ (search releaseMacroOnlyRe content).isSome) (.systemExit (.message
        ("ERROR: ".toList ++ specFile ++ " uses macros in Release field without %\x7b?dist\x7d".toList)))
      failIf (setPlainRelease newRelease content = content) (.systemExit (.message
        ("ERROR: Failed to update Release: in ".toList ++ specFile)))
      return setPlainRelease newRelease content

/-- `update_release_in_spec` -/
def updateReleaseInSpec (packageDir : Tree) (newRelease : Str) : Except Exn Tree :=
  match packageDir.glob ".spec" with
  | [specFile] => do
      let content ← readText packageDir specFile
      return packageDir.write specFile (.text (← updateReleaseText specFile newRelease content))
  | _ => exit "ERROR: Expected exactly one .spec file"

/-! ## `rebuild_package` -/

/-- The directory with `%autorelease` resolved, where it has one. -/
def resolveAutorelease (env : Env) (package : Str) (metadata : PackageMetadata) (packageDir : Tree) :
    Except Exn Tree := do
  if ← usesAutorelease packageDir then
    match metadata.source with
    | none => exit ("ERROR: Package ".toList ++ package ++
        " is independent and uses %autorelease - cannot resolve via MDAPI".toList)
    | some _ =>
        match given (← queryAutoreleaseFromMdapi env package (metadata.branch.getD "rawhide")) with
        | none => exit ("ERROR: Could not resolve %autorelease for ".toList ++ package)
        | some release => replaceAutoreleaseInSpec packageDir release true
  else return packageDir

/-- The directory of a rebuilt package. -/
def rebuiltDir (env : Env) (metadata : PackageMetadata) (packageDir : Tree) : Except Exn Tree := do
  let (_, currentRelease) ← parseSpecVersion env packageDir
  let upstreamRelease := if metadata.source.isSome then metadata.release else none
  updateReleaseInSpec packageDir (bumpRelease currentRelease upstreamRelease)

/-- `rebuild_package` -/
def rebuildPackage (env : Env) (package reason : Str) (dryRun : Bool) : Tool Unit := do
  match (← get).metadata package with
  | none => throw (.systemExit (.message ("ERROR: Package '".toList ++ package ++ "' not found".toList)))
  | some metadata => do
      raiseIf ((← get).rpms package = none) (.systemExit (.message
        ("ERROR: Package directory '".toList ++ package ++ "' not found".toList)))
      let resolved ← lift (resolveAutorelease env package metadata ((← get).packageDir package))
      modify fun w => w.setRpms package resolved
      let rebuilt ← lift (rebuiltDir env metadata resolved)
      modify fun w => w.setRpms package rebuilt
      if dryRun then pure ()
      else do
        gitAddPackage package false false
        gitCommit env.commitOk ("Rebuild ".toList ++ package ++ ": ".toList ++ reason)

/-! ## The conflict commit -/

/-- The commit of an update that ended with status 2, from its state file: the record and the whole
directory are added. -/
def conflictCommit (env : Env) (package : Str) : Tool Unit := do
  match (← get).state with
  | none => pure ()
  | some state => do
      modify fun w => { w with metadata := Function.update w.metadata package state.metadata }
      gitAddPackage package true false
      gitCommit env.commitOk state.commitMsg
      modify fun w => { w with state := none }

end

/-! ## What a rebuild leaves alone -/

/-- From `dir` to `dir'` nothing but the content of spec files has changed. -/
structure SpecsOnly (dir dir' : Tree) : Prop where
  isFile : ∀ q, dir'.isFile q = dir.isFile q
  read : ∀ q, endsWith ".spec" q = false → dir'.read q = dir.read q

namespace SpecsOnly

variable {dir dir' dir'' : Tree}

theorem refl : SpecsOnly dir dir := ⟨fun _ => rfl, fun _ _ => rfl⟩

theorem trans (h : SpecsOnly dir dir') (h' : SpecsOnly dir' dir'') : SpecsOnly dir dir'' :=
  ⟨fun q => (h'.isFile q).trans (h.isFile q), fun q hq => (h'.read q hq).trans (h.read q hq)⟩

/-- A spec file that has been read is written. -/
theorem write {specFile : Path} {content text : Str} (hspec : specFile ∈ dir.glob ".spec")
    (hread : readText dir specFile = .ok content) :
    SpecsOnly dir (dir.write specFile (.text text)) := by
  refine ⟨fun q => ?_, fun q hq => ?_⟩
  · by_cases hqs : q = specFile
    · subst hqs
      rw [Tree.isFile_of_read Tree.read_write_self rfl]
      unfold readText at hread
      cases hfile : dir.read q with
      | none => simp [hfile] at hread
      | some f =>
          cases f with
          | dir => simp [hfile, decodeText] at hread
          | _ => exact (Tree.isFile_of_read hfile rfl).symm
    · rw [Tree.isFile, Tree.read_write_ne hqs, Tree.isFile]
  · have hqs : q ≠ specFile := by
      rintro rfl
      rw [(Tree.firstComponent_of_mem_glob hspec).2] at hq
      exact Bool.noConfusion hq
    exact Tree.read_write_ne hqs

end SpecsOnly

theorem specsOnly_replaceAutorelease {dir dir' : Tree} {release : Str} {required : Bool}
    (h : replaceAutoreleaseInSpec dir release required = .ok dir') : SpecsOnly dir dir' := by
  unfold replaceAutoreleaseInSpec at h
  split at h
  · obtain rfl := Except.ok.inj h
    exact .refl
  · rename_i specFile specs hglob
    obtain ⟨content, hread, h⟩ := except_bind_ok_iff.mp h
    dsimp only at h
    split at h
    · obtain ⟨_, -, h⟩ := except_bind_ok_iff.mp h
      obtain rfl := Except.ok.inj h
      exact .refl
    · obtain rfl := Except.ok.inj h
      exact .write (hglob ▸ List.mem_cons_self) hread

theorem run_gitAddPackage {p : Str} {withMetadata withPipeline : Bool} {w : World} :
    gitAddPackage p withMetadata withPipeline w = .ok ⟨⟩ (w.setIndex p
      { rpms := gitFiles (w.packageDir p)
        metadata := if withMetadata then w.metadata p else (w.index p).metadata
        pipeline := if withPipeline then w.pipelines p else (w.index p).pipeline }) := rfl

section

variable [UnicodeTables] {env : Env} {package reason : Str} {metadata : PackageMetadata}
  {dir dir' : Tree} {w : World} {dryRun : Bool}

theorem specsOnly_updateRelease {newRelease : Str} (h : updateReleaseInSpec dir newRelease = .ok dir') :
    SpecsOnly dir dir' := by
  unfold updateReleaseInSpec at h
  split at h
  · rename_i specFile hglob
    obtain ⟨content, hread, h⟩ := except_bind_ok_iff.mp h
    obtain ⟨text, -, h⟩ := except_bind_ok_iff.mp h
    obtain rfl := Except.ok.inj h
    exact .write (hglob ▸ List.mem_singleton_self _) hread
  · exact absurd h (by simp [exit])

theorem specsOnly_resolve (h : resolveAutorelease env package metadata dir = .ok dir') :
    SpecsOnly dir dir' := by
  obtain ⟨auto, -, h⟩ := except_bind_ok_iff.mp h
  cases auto with
  | false =>
      obtain rfl := Except.ok.inj h
      exact .refl
  | true =>
      rw [if_pos rfl] at h
      split at h
      · exact absurd h (by simp [exit])
      · obtain ⟨release, -, h⟩ := except_bind_ok_iff.mp h
        split at h
        · exact absurd h (by simp [exit])
        · exact specsOnly_replaceAutorelease h

theorem specsOnly_rebuilt (h : rebuiltDir env metadata dir = .ok dir') : SpecsOnly dir dir' := by
  obtain ⟨_, -, h⟩ := except_bind_ok_iff.mp h
  exact specsOnly_updateRelease h

/-- What `rebuild_package` commits. -/
structure RebuildCommits (env : Env) (package reason : Str) (w : World) (m : PackageMetadata)
    (resolved rebuilt : Tree) (c : Commit) (w' : World) : Prop where
  metadata : w.metadata package = some m
  exists_dir : w.rpms package ≠ none
  resolve : resolveAutorelease env package m (w.packageDir package) = .ok resolved
  bump : rebuiltDir env m resolved = .ok rebuilt
  message : c.message = "Rebuild ".toList ++ package ++ ": ".toList ++ reason
  content : c.content = Function.update w.index package
    { w.index package with rpms := gitFiles rebuilt }
  final : w' = { w.setRpms package rebuilt with index := c.content, commits := c :: w.commits }

theorem RebuildCommits.specsOnly {m : PackageMetadata} {resolved rebuilt : Tree} {c : Commit} {w' : World}
    (h : RebuildCommits env package reason w m resolved rebuilt c w') :
    SpecsOnly (w.packageDir package) rebuilt :=
  (specsOnly_resolve h.resolve).trans (specsOnly_rebuilt h.bump)

/-- **`rebuildPackage_cases`** — a rebuild leaves the commits as they are, or commits the directory with
its release bumped. -/
theorem rebuildPackage_cases :
    (final (rebuildPackage env package reason dryRun) w).commits = w.commits ∨
      dryRun = false ∧ ∃ m resolved rebuilt c, RebuildCommits env package reason w m resolved rebuilt c
        (final (rebuildPackage env package reason dryRun) w) := by
  unfold final rebuildPackage
  rw [run_bind_of_ok (run_get w)]
  cases hm : w.metadata package with
  | none => exact Or.inl rfl
  | some m =>
      dsimp only
      rw [run_bind_of_ok (run_get w), run_bind]
      by_cases hdir : w.rpms package = none
      · rw [raiseIf_error_iff.mpr ⟨hdir, rfl, rfl⟩]
        exact Or.inl rfl
      · rw [raiseIf_ok_iff (u := ⟨⟩).mpr ⟨hdir, rfl⟩]
        dsimp only
        rw [run_bind_of_ok (run_get w), run_bind]
        cases hresolved : resolveAutorelease env package m (w.packageDir package) with
        | error e => exact Or.inl rfl
        | ok resolved =>
            rw [lift_ok]
            dsimp only
            rw [run_bind_of_ok (run_modify _ w), run_bind]
            cases hrebuilt : rebuiltDir env m resolved with
            | error e => exact Or.inl rfl
            | ok rebuilt =>
                rw [lift_ok]
                dsimp only
                rw [run_bind_of_ok (run_modify _ _)]
                cases dryRun with
                | true => exact Or.inl rfl
                | false =>
                    rw [if_neg Bool.false_ne_true, run_bind_of_ok run_gitAddPackage]
                    cases env.commitOk with
                    | false => exact Or.inl rfl
                    | true =>
                        refine Or.inr ⟨rfl, m, resolved, rebuilt,
                          ⟨"Rebuild ".toList ++ package ++ ": ".toList ++ reason, Function.update w.index package
                            { w.index package with rpms := gitFiles rebuilt }⟩,
                          hm, hdir, hresolved, hrebuilt, rfl, rfl, ?_⟩
                        simp [gitCommit, World.setIndex, World.setRpms, World.packageDir]

/-- What the conflict commit holds, and what it leaves. -/
structure ConflictCommits (package : Str) (w : World) (s : UpdateState) (c : Commit) (w' : World) :
    Prop where
  state : w.state = some s
  message : c.message = s.commitMsg
  content : c.content = Function.update w.index package
    { rpms := gitFiles (w.packageDir package), metadata := s.metadata
      pipeline := (w.index package).pipeline }
  final : w' = { w with
    metadata := Function.update w.metadata package s.metadata
    index := c.content, commits := c :: w.commits, state := none }

omit [UnicodeTables] in
/-- **`conflictCommit_cases`** — the conflict commit leaves the commits as they are, or commits the
whole directory with the record of the state file. -/
theorem conflictCommit_cases :
    (final (conflictCommit env package) w).commits = w.commits ∨
      ∃ s c, ConflictCommits package w s c (final (conflictCommit env package) w) := by
  unfold final conflictCommit
  rw [run_bind_of_ok (run_get w)]
  cases hs : w.state with
  | none => exact Or.inl rfl
  | some s =>
      dsimp only
      rw [run_bind_of_ok (run_modify _ w), run_bind_of_ok run_gitAddPackage]
      cases env.commitOk with
      | false => exact Or.inl rfl
      | true =>
          refine Or.inr ⟨s, ⟨s.commitMsg, Function.update w.index package
            { rpms := gitFiles (w.packageDir package), metadata := s.metadata
              pipeline := (w.index package).pipeline }⟩, hs, rfl, rfl, ?_⟩
          simp [gitCommit, World.setIndex, World.packageDir]

end

end HummingbirdRpms
