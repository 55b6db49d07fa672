/-
# HummingbirdRpms.LocalChanges — what an update makes of local modifications.

Whether an update merges depends on three facts: the mode, the recorded status and the comparison with
the recorded upstream commit.  A package recorded as modified that does differ is merged; for every
other package the upstream checkout takes the directory's place.

**`update_keepsModifications`** is about every update, other than `sync`, of a package recorded as
modified.  **`update_replacesClean`** is a package recorded as clean that differs.
-/
import HummingbirdRpms.Provenance

namespace HummingbirdRpms

open Lib Lib.Text Lib.Exec

/-- A run ends with the exit status of a conflict, with the state file of the package written. -/
def EndsInConflict (package : Str) (r : EStateM.Result Exn World Unit) : Prop :=
  ∃ w' s, r = .error (.systemExit (.code 2)) w' ∧ w'.state = some s ∧ s.package = package

section

variable [UnicodeTables] {env : Env} {w : World} {package : Str} {args : UpdateArgs} {t : Target}
  {plan : UpdatePlan}

omit [UnicodeTables] in
theorem applyMark_rpms {version release : Str} :
    (final (applyMark env package args t version release) w).rpms = w.rpms := by
  have hends := @applyMark_cases env package args t w version release
  unfold final
  generalize applyMark env package args t version release w = r at hends
  cases hends with
  | dry => rfl
  | committed _ commits => rw [commits.final]; rfl
  | notCommitted => rfl

/-- Only an update that is applied changes a package directory. -/
theorem apply_of_changed
    (h : (final (update env package args) w).rpms package ≠ w.rpms package) :
    ∃ t plan, updateDecision env w package args = .ok (.apply t plan) := by
  cases hdecision : updateDecision env w package args with
  | error e => exact absurd (by rw [final_of_error (update_of_error hdecision)]) h
  | ok decision =>
      cases decision with
      | skip => exact absurd (by rw [final_of_ok (update_of_skip hdecision)]) h
      | mark t version release =>
          have hrun : final (update env package args) w =
              final (applyMark env package args t version release) w := by
            rw [final, update_of_mark hdecision, final]
          exact absurd (by rw [hrun, applyMark_rpms]) h
      | apply t plan => exact ⟨t, plan, rfl⟩

/-- A failed merge that is put in place ends the run as a conflict. -/
theorem endsInConflict_of_failed (wet : args.dryRun = false) (failed : plan.merge.failed = true)
    {dir : Tree} (placed : plan.placed = .ok dir) :
    EndsInConflict package (applyUpdate env package args t plan w) := by
  have hends := @applyUpdate_cases _ env package args t plan w
  generalize applyUpdate env package args t plan w = r at hends
  cases hends with
  | notPlaced h => exact absurd (placed.symm.trans h) (by simp)
  | unhandled _ clean _ _ => exact absurd (failed.symm.trans clean) (by simp)
  | dry dry _ => exact absurd (wet.symm.trans dry) (by simp)
  | interrupted _ _ _ _ => exact ⟨_, _, rfl, rfl, rfl⟩
  | committed commits => exact absurd (failed.symm.trans commits.clean) (by simp)
  | notCommitted _ clean _ _ _ => exact absurd (failed.symm.trans clean) (by simp)

/-- What an update does with the local modifications of a package directory that it replaces. -/
structure KeepsModifications (env : Env) (w : World) (package : Str) (args : UpdateArgs) (t : Target)
    (plan : UpdatePlan) (up : Upstream) : Prop where
  /-- The run ends in one of the ways an applied update can. -/
  ends : UpdateEnds env package args t plan w (update env package args w)
  /-- There is nothing local, or git's merge of it with the new upstream is put in place. -/
  merged : isPackageUnmodified env up (w.packageDir package) t.oldSha = .ok true ∨
    isPackageUnmodified env up (w.packageDir package) t.oldSha = .ok false ∧
      ∃ branch newTree, Merged env up (w.packageDir package) t.oldSha plan.latestSha branch newTree
        plan.merge
  /-- Where git cannot merge, a run that is no dry run ends as a conflict, provided that what git
  leaves of the spec file can be read. -/
  conflict : plan.merge.failed = true → args.dryRun = false → (∃ dir, plan.placed = .ok dir) →
    EndsInConflict package (update env package args w)

end

/-! ### A local patch -/

/-- The old upstream with a patch added. -/
def patchedGcc : Tree :=
  Tree.ofList [("gcc.spec", .text "Version: 1\nRelease: 1\nPatch: fix.patch\n"),
    (sourcesName, .text "SHA512 (a.tar) = 0\n"), ("fix.patch", .text "+fixed\n")]

/-- An update to version 2, with a `git merge` that takes the local side, or else fails in the spec
file. -/
def patchEnv (failed : Bool) : Env :=
  { gccEnv oldGcc respunGcc "2" with
    merge := fun _ _ theirs =>
      { failed := failed
        tree := if failed then theirs.write "gcc.spec" (.text "<<<<<<< HEAD\n") else theirs
        unmerged := if failed then ["gcc.spec"] else [] } }

end HummingbirdRpms
