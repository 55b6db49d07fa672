/-
# HummingbirdRpms.Merge — local modifications, and merging them with a new upstream version.

`is_package_unmodified` and `merge_local_modifications` of `ci/dist_git.py`.  Both work in a clone of
the upstream dist-git: the first compares the package directory with the recorded upstream commit, the
second commits the directory on top of that commit and has git merge it into the new one.

The second one first commits the old upstream and the local files with their releases normalised, and
takes the normalisation out again with a rebase; when git cannot, it starts over without it.  A
`LocalBranch` is what either way leaves: the tree committed, and the files git was not given.
**`mergeLocalModifications_ok`** says what the directory is replaced with.
-/
import HummingbirdRpms.Env
import HummingbirdRpms.Lib.Regex

namespace HummingbirdRpms

open Lib Lib.Text Lib.Regex Lib.Exec

/-! ## Comparing with the recorded upstream commit -/

/-- `git checkout` of a commit in a clone -/
def checkout (up : Upstream) (commit : Str) : Except Exn Tree :=
  match up.tree commit with
  | some t => .ok t
  | none => .error (.raised .calledProcessError "git checkout")

/-- Whether `--exclude=*.spec` leaves a path out: some component of it ends in `.spec`. -/
def underSpec (p : Path) : Bool := (p.splitOn '/').any (endsWith ".spec")

/-- `is_package_unmodified`, for the commit the package was imported from. -/
def isPackageUnmodified (env : Env) (up : Upstream) (packageDir : Tree) (sha : Str) :
    Except Exn Bool := do
  let imported ← checkout up sha
  return Tree.diffSame (env.diff false) underSpec packageDir imported &&
    Tree.diffSame (env.diff true) (fun _ => false) packageDir imported

/-! ## Normalising releases -/

/-- `^Release:.*$` -/
def releaseLineRe : Re := Re.seq [.bol, .lit "Release:", .many true (· != '\n'), .eol]

/-- The macros that hold a release. -/
def releaseMacros : List String :=
  ["portablerelease", "rpmrelease", "baserelease", "gcc_release", "specrelease", "krb5_release"]

/-- A `%global` or `%define` line of a release macro: its head is group 1, then comes the value. -/
def releaseMacroRe : Re :=
  Re.seq [.bol,
    .group 1 (Re.seq [.lit "%", .alt (.lit "global") (.lit "define"), Re.some1 isSpace,
      Re.oneOf (releaseMacros.map fun m => .lit m)]),
    Re.some1 isSpace, Re.some1 fun c => !isSpace c]

/-- `Release: 0%{?dist}` -/
def normalRelease : Str := "Release: 0%\x7b?dist\x7d"

/-- A spec text with its releases normalised. -/
def normalizeRelease (content : Str) : Str :=
  sub releaseMacroRe (fun m => m.group 1 ++ " 0".toList)
    (sub releaseLineRe (fun _ => normalRelease) content)

/-- The loop of `normalize_release_in_specs`. -/
def normalizeSpecs : List Path → Tree → Except Exn Tree
  | [], directory => .ok directory
  | specFile :: specs, directory => do
      let content ← readText directory specFile
      normalizeSpecs specs (directory.write specFile (.text (normalizeRelease content)))

/-- `normalize_release_in_specs` -/
def normalizeReleaseInSpecs (directory : Tree) : Except Exn Tree :=
  normalizeSpecs (directory.glob ".spec") directory

/-! ## The branch of local modifications -/

/-- `git add -A`: the files of a working tree that are tracked or not ignored. -/
def addAll (env : Env) (tracked work : Tree) : Tree :=
  work.restrict fun q => work.isFile q && (tracked.isFile q || !env.ignored work q)

/-- What a working tree holds besides what is committed of it. -/
def untracked (committed work : Tree) : Tree := work.restrict fun q => !committed.isFile q

/-- Whether two trees have the same files, as `git status` sees it. -/
def sameFiles (a b : Tree) : Bool :=
  (a.paths ++ b.paths).all fun q => decide ((gitFiles a).read q = (gitFiles b).read q)

/-- The local modifications committed on top of the old upstream: the tree of the commit, and what
the working tree holds besides. -/
structure LocalBranch where
  committed : Tree
  leftover : Tree

/-- The branch without normalised releases. -/
def directBranch (env : Env) (oldTree packageDir : Tree) : LocalBranch :=
  let committed := addAll env oldTree packageDir
  ⟨committed, untracked committed packageDir⟩

/-- The local modifications of a package directory as a branch off the old upstream. -/
def localBranch (env : Env) (oldTree packageDir : Tree) : Except Exn LocalBranch := do
  let normalOld ← normalizeReleaseInSpecs oldTree
  let normalLocal ← normalizeReleaseInSpecs packageDir
  let committed := addAll env oldTree normalLocal
  failIf (sameFiles committed normalOld = true) (.raised .assertionError
    "Expected local modifications but git status is clean")
  let rebase := env.merge normalOld oldTree committed
  if rebase.failed then return directBranch env oldTree packageDir
  else return ⟨rebase.tree, untracked committed normalLocal⟩

/-- `git merge` of the branch into the new upstream. -/
def mergeBranch (env : Env) (up : Upstream) (oldSha newSha : Str) (newTree committed : Tree) : Merge :=
  match up.mergeBase newSha oldSha with
  | some base => env.merge base newTree committed
  | none => { failed := true, tree := newTree }

/-- `merge_local_modifications`: how the merge ends, with the directory it leaves. -/
def mergeLocalModifications (env : Env) (up : Upstream) (packageDir : Tree)
    (status : Option ModificationStatus) (oldSha newSha : Str) : Except Exn Merge := do
  failIf (status ≠ some .modified) (.raised .assertionError [])
  let oldTree ← checkout up oldSha
  let branch ← localBranch env oldTree packageDir
  let newTree ← checkout up newSha
  failIf (env.switchOk branch.leftover newTree = false)
    (.raised .calledProcessError "git checkout")
  let merge := mergeBranch env up oldSha newSha newTree branch.committed
  return { merge with tree := Tree.overlay merge.tree branch.leftover }

/-! ## What normalisation leaves alone -/

theorem normalizeSpecs_read {specs : List Path} {directory directory' : Tree} {q : Path}
    (h : normalizeSpecs specs directory = .ok directory') (hq : q ∉ specs) :
    directory'.read q = directory.read q := by
  induction specs generalizing directory with
  | nil => rw [Except.ok.inj h]
  | cons s specs ih =>
      obtain ⟨content, -, h⟩ := except_bind_ok_iff.mp h
      rw [List.mem_cons, not_or] at hq
      obtain ⟨hne, hmem⟩ := hq
      rw [ih h hmem, Tree.read_write_ne hne]

/-- A file that is not a spec file at the top level keeps its content. -/
theorem normalizeReleaseInSpecs_read {directory directory' : Tree} {q : Path}
    (h : normalizeReleaseInSpecs directory = .ok directory') (hq : q ∉ directory.glob ".spec") :
    directory'.read q = directory.read q := normalizeSpecs_read h hq

theorem read_addAll {env : Env} {tracked work : Tree} {q : Path} :
    (addAll env tracked work).read q =
      if work.isFile q && (tracked.isFile q || !env.ignored work q) then work.read q else none :=
  Tree.read_restrict

/-- Whatever a working tree holds is committed or left over, with its content. -/
theorem read_committed_or_leftover {env : Env} {tracked work : Tree} {q : Path} {f : File}
    (h : work.read q = some f) :
    (addAll env tracked work).read q = some f ∨
      (untracked (addAll env tracked work) work).read q = some f := by
  rw [read_addAll, untracked, Tree.read_restrict]
  by_cases hadd : work.isFile q && (tracked.isFile q || !env.ignored work q)
  · left
    rw [if_pos hadd, h]
  · right
    have hnot : (addAll env tracked work).isFile q = false := by
      rw [Tree.isFile, read_addAll, if_neg hadd]
      rfl
    rw [hnot, Bool.not_false, if_pos rfl, h]

/-! ## What a merge leaves -/

/-- The two ways a branch of local modifications comes about. -/
inductive IsLocalBranch (env : Env) (oldTree packageDir : Tree) : LocalBranch → Prop
  /-- The modifications, with releases normalised on both sides, replayed on the old upstream. -/
  | rebased {normalOld normalLocal : Tree}
      (old : normalizeReleaseInSpecs oldTree = .ok normalOld)
      (locals : normalizeReleaseInSpecs packageDir = .ok normalLocal)
      (clean : (env.merge normalOld oldTree (addAll env oldTree normalLocal)).failed = false) :
      IsLocalBranch env oldTree packageDir
        ⟨(env.merge normalOld oldTree (addAll env oldTree normalLocal)).tree,
          untracked (addAll env oldTree normalLocal) normalLocal⟩
  /-- The directory as it is. -/
  | direct : IsLocalBranch env oldTree packageDir (directBranch env oldTree packageDir)

/-- What `merge_local_modifications` merged, and how it ended. -/
structure Merged (env : Env) (up : Upstream) (packageDir : Tree) (oldSha newSha : Str)
    (branch : LocalBranch) (newTree : Tree) (result : Merge) : Prop where
  isLocal : ∃ oldTree, up.tree oldSha = some oldTree ∧ IsLocalBranch env oldTree packageDir branch
  new : up.tree newSha = some newTree
  tree : result.tree =
    Tree.overlay (mergeBranch env up oldSha newSha newTree branch.committed).tree branch.leftover
  failed : result.failed = (mergeBranch env up oldSha newSha newTree branch.committed).failed
  unmerged : result.unmerged = (mergeBranch env up oldSha newSha newTree branch.committed).unmerged

section

variable {env : Env} {up : Upstream} {packageDir oldTree : Tree} {sha oldSha newSha : Str}

theorem checkout_ok_iff {t : Tree} : checkout up sha = .ok t ↔ up.tree sha = some t := by
  unfold checkout
  cases up.tree sha <;> simp

theorem isLocalBranch_of_ok {branch : LocalBranch}
    (h : localBranch env oldTree packageDir = .ok branch) :
    IsLocalBranch env oldTree packageDir branch := by
  obtain ⟨normalOld, hold, h⟩ := except_bind_ok_iff.mp h
  obtain ⟨normalLocal, hlocal, h⟩ := except_bind_ok_iff.mp h
  obtain ⟨_, -, h⟩ := except_bind_ok_iff.mp h
  dsimp only at h
  split at h
  · obtain rfl := Except.ok.inj h
    exact .direct
  · rename_i hclean
    obtain rfl := Except.ok.inj h
    exact .rebased hold hlocal (by simpa using hclean)

/-- **`mergeLocalModifications_ok`** — the directory becomes git's three-way merge of the new upstream
with the local branch, and what git was not given stays. -/
theorem mergeLocalModifications_ok {status : Option ModificationStatus} {result : Merge}
    (h : mergeLocalModifications env up packageDir status oldSha newSha = .ok result) :
    ∃ branch newTree, Merged env up packageDir oldSha newSha branch newTree result := by
  obtain ⟨_, -, h⟩ := except_bind_ok_iff.mp h
  obtain ⟨oldTree, hold, h⟩ := except_bind_ok_iff.mp h
  obtain ⟨branch, hbranch, h⟩ := except_bind_ok_iff.mp h
  obtain ⟨newTree, hnew, h⟩ := except_bind_ok_iff.mp h
  obtain ⟨_, -, h⟩ := except_bind_ok_iff.mp h
  obtain rfl := Except.ok.inj h
  exact ⟨branch, newTree, ⟨oldTree, checkout_ok_iff.mp hold, isLocalBranch_of_ok hbranch⟩,
    checkout_ok_iff.mp hnew, rfl, rfl, rfl⟩

end

end HummingbirdRpms
