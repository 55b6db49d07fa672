/-
# HummingbirdRpms.RebuildBatch — rebuilding one package after another (`ci/dist_git.py`).

`rebuild` of several packages, and `rebuild-rev-deps`, call `rebuild_package` for each of them.  The loops
catch `SystemExit` and go on with the next package.  Any other exception of a rebuild ends the run, and
nothing that a failed rebuild has written is taken back.

**`rebuilds_isolated_iff`** is the exact condition under which the packages do not disturb one another, for
both commands.  The scan for reverse dependencies reads every package before the first one is rebuilt, so
one that cannot be read is enough to rebuild none.
-/
import HummingbirdRpms.Rebuild

namespace HummingbirdRpms.RebuildBatch

open Lib Lib.Text Lib.Exec

/-! ## The loop -/

/-- The rebuild of a package, and the outside it meets. -/
structure RebuildAttempt where
  package : Str
  env : Env

/-- How a rebuild ends: it returns, it exits and the loop goes on, or another exception ends the run. -/
inductive Ending where
  | rebuilt
  | exited
  | escaped (e : Exn)

/-- What the loop makes of an exception. -/
def endingOf : Exn → Ending
  | .systemExit _ => .exited
  | e => .escaped e

/-- What a run has come to: the packages it has attempted, and the world. -/
structure BatchRun where
  endings : List (Str × Ending)
  final : World

/-- The packages that have been rebuilt. -/
def BatchRun.rebuilt (r : BatchRun) : List Str :=
  r.endings.filterMap fun e =>
    match e.2 with
    | .rebuilt => some e.1
    | _ => none

/-- `failed_packages` -/
def BatchRun.failedPackages (r : BatchRun) : List Str :=
  r.endings.filterMap fun e =>
    match e.2 with
    | .exited => some e.1
    | _ => none

/-- The status of the command: an exception ends it with 1, and so does `print_rebuild_summary` when a
package has failed. -/
def BatchRun.exitStatus (r : BatchRun) : Nat :=
  if r.endings.any fun e => match e.2 with
    | .escaped _ => true
    | _ => false
  then 1
  else if r.failedPackages = [] then 0 else 1

section

variable [UnicodeTables]

/-- One round: `rebuild_package` under `except SystemExit`. -/
def RebuildAttempt.run (reason : Str) (a : RebuildAttempt) (w : World) : Ending × World :=
  match rebuildPackage a.env a.package reason false w with
  | .ok _ w' => (.rebuilt, w')
  | .error e w' => (endingOf e, w')

/-- The loop of `rebuild` with several packages or `--all`, and of `rebuild_reverse_dependencies`. -/
def rebuildLoop (reason : Str) : List RebuildAttempt → World → BatchRun
  | [], w => ⟨[], w⟩
  | a :: rest, w =>
      match a.run reason w with
      | (.escaped e, w') => ⟨[(a.package, .escaped e)], w'⟩
      | (ending, w') =>
          let r := rebuildLoop reason rest w'
          ⟨(a.package, ending) :: r.endings, r.final⟩

end

/-! ## Isolation -/

/-- A commit changes nothing, from what its parent tracks, but `rpms/<package>`. -/
def TouchesRpms (parent : Str → Tracked) (p : Str) (c : Commit) : Prop :=
  (∀ q, q ≠ p → c.content q = parent q) ∧ (c.content p).metadata = (parent p).metadata ∧
    (c.content p).pipeline = (parent p).pipeline

/-- One commit for each of the packages, in their order, that touches only its directory. -/
def OneRebuildEach (parent : Str → Tracked) : List Str → List Commit → Prop
  | [], [] => True
  | p :: ps, c :: cs => TouchesRpms parent p c ∧ OneRebuildEach c.content ps cs
  | _, _ => False

/-- `rpms/<package>` is as in HEAD: the index, and the files that HEAD tracks. -/
structure RpmsClean (w : World) (p : Str) : Prop where
  staged : ∀ q, (w.index p).rpms.read q = (w.head p).rpms.read q
  files : ∀ q, (w.head p).rpms.isFile q = true → (w.packageDir p).read q = (w.head p).rpms.read q

/-- Every selected package has been attempted; each that was rebuilt has one new commit, which touches
only its directory; each that failed has its directory as in HEAD, and no commit; and the status is not
zero exactly when one has failed. -/
structure Isolated (selected : List Str) (w : World) (r : BatchRun) : Prop where
  attempted : selected.Sublist (r.endings.map (·.1))
  commits : ∃ cs, r.final.commits = cs.reverse ++ w.commits ∧ OneRebuildEach w.head r.rebuilt cs
  once : r.rebuilt.Nodup
  failed : ∀ e ∈ r.endings, e.2 ≠ .rebuilt → RpmsClean r.final e.1 ∧ e.1 ∉ r.rebuilt
  status : r.exitStatus ≠ 0 ↔ ∃ e ∈ r.endings, e.2 ≠ .rebuilt

/-! ## What one rebuild comes to -/

/-- The steps of a rebuild that can fail, and how far it gets. -/
inductive Course where
  /-- There is no metadata or no directory. -/
  | absent
  /-- `%autorelease` cannot be resolved, or the spec file cannot be read. -/
  | unresolved (e : Exn)
  /-- The release cannot be read or bumped; `%autorelease` has been written by then. -/
  | unbumped (resolved : Tree) (e : Exn)
  | uncommitted (rebuilt : Tree)
  | committed (rebuilt : Tree)

/-- The index with a directory added. -/
def stagedWith (w : World) (p : Str) (dir : Tree) : World :=
  (w.setRpms p dir).setIndex p { w.index p with rpms := gitFiles dir }

section

variable [UnicodeTables]

/-- How far the rebuild of a package gets. -/
def RebuildAttempt.course (a : RebuildAttempt) (w : World) : Course :=
  match w.metadata a.package with
  | none => .absent
  | some m =>
      if w.rpms a.package = none then .absent
      else
        match resolveAutorelease a.env a.package m (w.packageDir a.package) with
        | .error e => .unresolved e
        | .ok resolved =>
            match rebuiltDir a.env m resolved with
            | .error e => .unbumped resolved e
            | .ok rebuilt => if a.env.commitOk then .committed rebuilt else .uncommitted rebuilt

/-- Nothing but `rpms/<package>` is staged. -/
def OnlyRpmsStaged (w : World) (p : Str) : Prop :=
  (∀ q, q ≠ p → w.index q = w.head q) ∧ (w.index p).metadata = (w.head p).metadata ∧
    (w.index p).pipeline = (w.head p).pipeline

/-- An exception is a `SystemExit`. -/
def Exits (e : Exn) : Prop := ∃ status, e = .systemExit status

/-- The loop gets over a rebuild, with packages `seen` before it and `later` after it. -/
def RebuildAttempt.Tolerated (seen later : List Str) (a : RebuildAttempt) (w : World) : Prop :=
  match a.course w with
  | .absent => a.package ∉ later → RpmsClean w a.package
  | .unresolved e => (Exits e ∨ later = []) ∧ (a.package ∉ later → RpmsClean w a.package)
  | .unbumped resolved e =>
      (Exits e ∨ later = []) ∧ (a.package ∉ later → RpmsClean (w.setRpms a.package resolved) a.package)
  | .uncommitted rebuilt => later = [] ∧ RpmsClean (stagedWith w a.package rebuilt) a.package
  | .committed _ => OnlyRpmsStaged w a.package ∧ a.package ∉ seen ∧ a.package ∉ later

/-- The loop gets over every rebuild, in the world it meets. -/
def AllTolerated (reason : Str) : (seen : List Str) → List RebuildAttempt → World → Prop
  | _, [], _ => True
  | seen, a :: rest, w =>
      a.Tolerated seen (rest.map (·.package)) w ∧
        AllTolerated reason (a.package :: seen) rest (a.run reason w).2

/-- How a course ends. -/
def Course.ending : Course → Ending
  | .absent => .exited
  | .unresolved e => endingOf e
  | .unbumped _ e => endingOf e
  | .uncommitted _ => .escaped (.raised .calledProcessError "git commit")
  | .committed _ => .rebuilt

/-- The commit of a rebuild. -/
def rebuildCommit (reason p : Str) (w : World) (dir : Tree) : Commit :=
  ⟨"Rebuild ".toList ++ p ++ ": ".toList ++ reason, (stagedWith w p dir).index⟩

/-- The world a course leaves. -/
def Course.world (reason p : Str) (w : World) : Course → World
  | .absent => w
  | .unresolved _ => w
  | .unbumped resolved _ => w.setRpms p resolved
  | .uncommitted rebuilt => stagedWith w p rebuilt
  | .committed rebuilt =>
      { stagedWith w p rebuilt with commits := rebuildCommit reason p w rebuilt :: w.commits }

end

section

variable [UnicodeTables] {a : RebuildAttempt} {reason : Str} {w w' : World} {p q : Str} {seen later : List Str}
  {rest : List RebuildAttempt}

/-- Step lemma: a round ends as its course says. -/
theorem run_eq : a.run reason w = ((a.course w).ending, (a.course w).world reason a.package w) := by
  unfold RebuildAttempt.run RebuildAttempt.course rebuildPackage
  rw [run_bind_of_ok (run_get w)]
  cases hm : w.metadata a.package with
  | none => rfl
  | some m =>
      dsimp only
      rw [run_bind_of_ok (run_get w), run_bind]
      by_cases hdir : w.rpms a.package = none
      · rw [raiseIf_error_iff.mpr ⟨hdir, rfl, rfl⟩, if_pos hdir]
        rfl
      · rw [raiseIf_ok_iff (u := ⟨⟩).mpr ⟨hdir, rfl⟩, if_neg hdir]
        dsimp only
        rw [run_bind_of_ok (run_get w), run_bind]
        cases hresolved : resolveAutorelease a.env a.package m (w.packageDir a.package) with
        | error e => rfl
        | ok resolved =>
            rw [lift_ok]
            dsimp only
            rw [run_bind_of_ok (run_modify _ w), run_bind]
            cases hrebuilt : rebuiltDir a.env m resolved with
            | error e => rfl
            | ok rebuilt =>
                rw [lift_ok]
                dsimp only
                rw [run_bind_of_ok (run_modify _ _), if_neg Bool.false_ne_true, run_bind_of_ok run_gitAddPackage]
                have hstaged : ((w.setRpms a.package resolved).setRpms a.package rebuilt).setIndex a.package
                    { rpms := gitFiles (((w.setRpms a.package resolved).setRpms a.package rebuilt).packageDir
                        a.package)
                      metadata := (w.index a.package).metadata
                      pipeline := (w.index a.package).pipeline } = stagedWith w a.package rebuilt := by
                  rw [packageDir_setRpms]
                  simp [World.setRpms, World.setIndex, stagedWith]
                show (match gitCommit a.env.commitOk _ (((w.setRpms a.package resolved).setRpms a.package
                    rebuilt).setIndex a.package _) with
                  | .ok _ w' => (Ending.rebuilt, w')
                  | .error e w' => (endingOf e, w')) = _
                cases a.env.commitOk with
                | false => exact congrArg (Prod.mk _) hstaged
                | true =>
                    let message := "Rebuild ".toList ++ a.package ++ ": ".toList ++ reason
                    exact congrArg (fun v : World => (Ending.rebuilt,
                      { v with commits := ⟨message, v.index⟩ :: v.commits })) hstaged

end

/-! ## What a round leaves alone -/

section

variable {reason : Str} {w v : World} {p q : Str} {c : Course} {r : BatchRun}

theorem head_congr (h : v.commits = w.commits) : v.head q = w.head q := by
  unfold World.head
  rw [h]

theorem committed_of_rebuilt (h : c.ending = .rebuilt) : ∃ dir, c = .committed dir := by
  cases c with
  | committed dir => exact ⟨dir, rfl⟩
  | absent => cases h
  | unresolved e => cases e <;> cases h
  | unbumped dir e => cases e <;> cases h
  | uncommitted dir => cases h

/-- A course that rebuilds nothing makes no commit. -/
theorem world_commits (reason p : Str) (w : World) (h : c.ending ≠ .rebuilt) :
    (c.world reason p w).commits = w.commits := by
  cases c with
  | committed rebuilt => exact absurd rfl h
  | _ => rfl

/-- What a round leaves of another package. -/
theorem world_others (c : Course) (reason : Str) (w : World) (hq : q ≠ p) :
    (c.world reason p w).index q = w.index q ∧ (c.world reason p w).packageDir q = w.packageDir q := by
  cases c <;>
    simp [Course.world, stagedWith, World.setRpms, World.setIndex, World.packageDir, Function.update_of_ne hq]

theorem rpmsClean_congr (hindex : v.index q = w.index q) (hdir : v.packageDir q = w.packageDir q)
    (hhead : v.head q = w.head q) : RpmsClean v q ↔ RpmsClean w q := by
  constructor
  · rintro ⟨hstaged, hfiles⟩
    rw [hindex, hhead] at hstaged
    rw [hdir, hhead] at hfiles
    exact ⟨hstaged, hfiles⟩
  · rintro ⟨hstaged, hfiles⟩
    refine ⟨?_, ?_⟩
    · rw [hindex, hhead]
      exact hstaged
    · rw [hdir, hhead]
      exact hfiles

/-- A round that commits nothing but its package leaves the others as clean as they were. -/
theorem rpmsClean_world (hq : q ≠ p) (hstaged : c.ending = .rebuilt → OnlyRpmsStaged w p) :
    RpmsClean (c.world reason p w) q ↔ RpmsClean w q := by
  obtain ⟨hindex, hdir⟩ := world_others c reason w hq
  refine rpmsClean_congr hindex hdir ?_
  cases c with
  | committed rebuilt =>
      show (stagedWith w p rebuilt).index q = w.head q
      rw [← (hstaged rfl).1 q hq]
      exact hindex
  | _ => rfl

/-- What is committed touches only the package exactly when nothing else was staged. -/
theorem touchesRpms_iff {dir : Tree} {message : Str} :
    TouchesRpms w.head p ⟨message, (stagedWith w p dir).index⟩ ↔ OnlyRpmsStaged w p := by
  have hself : (stagedWith w p dir).index p = { w.index p with rpms := gitFiles dir } :=
    Function.update_self ..
  have hother : ∀ q, q ≠ p → (stagedWith w p dir).index q = w.index q := fun q hq =>
    Function.update_of_ne hq _ _
  unfold TouchesRpms OnlyRpmsStaged
  dsimp only
  rw [hself]
  refine and_congr_left fun _ => forall₂_congr fun q hq => ?_
  rw [hother q hq]

theorem exitStatus_ne_zero_iff (r : BatchRun) :
    r.exitStatus ≠ 0 ↔ ∃ e ∈ r.endings, e.2 ≠ .rebuilt := by
  unfold BatchRun.exitStatus
  constructor
  · intro h
    by_contra hall
    push Not at hall
    apply h
    have hnone : r.failedPackages = [] := by
      rw [BatchRun.failedPackages, List.filterMap_eq_nil_iff]
      intro e he
      rw [hall e he]
    rw [if_neg, if_pos hnone]
    rw [Bool.not_eq_true, List.any_eq_false]
    intro e he
    rw [hall e he]
    exact Bool.false_ne_true
  · rintro ⟨e, he, hne⟩
    split
    · exact Nat.one_ne_zero
    · rename_i hany
      rw [Bool.not_eq_true, List.any_eq_false] at hany
      have hexited : e.2 = .exited := by
        cases hend : e.2 with
        | rebuilt => exact absurd hend hne
        | exited => rfl
        | escaped x => exact absurd (hany e he) (by simp [hend])
      have hmem : e.1 ∈ r.failedPackages := by
        rw [BatchRun.failedPackages, List.mem_filterMap]
        exact ⟨e, he, by rw [hexited]⟩
      rw [if_neg (List.ne_nil_of_mem hmem)]
      exact Nat.one_ne_zero

theorem mem_rebuilt : p ∈ r.rebuilt ↔ (p, Ending.rebuilt) ∈ r.endings := by
  rw [BatchRun.rebuilt, List.mem_filterMap]
  constructor
  · rintro ⟨⟨q, ending⟩, he, h⟩
    cases ending with
    | rebuilt =>
        obtain rfl := Option.some.inj h
        exact he
    | _ => cases h
  · intro h
    exact ⟨_, h, rfl⟩

/-- A package that was attempted was rebuilt, or has failed. -/
theorem rebuilt_or_failed (h : p ∈ r.endings.map (·.1)) :
    p ∈ r.rebuilt ∨ ∃ e ∈ r.endings, e.2 ≠ .rebuilt ∧ e.1 = p := by
  obtain ⟨⟨q, ending⟩, he, rfl⟩ := List.mem_map.mp h
  by_cases hending : ending = .rebuilt
  · subst hending
    exact Or.inl (mem_rebuilt.mpr he)
  · exact Or.inr ⟨_, he, hending, rfl⟩

end

/-! ## The whole loop -/

section

variable [UnicodeTables] {a : RebuildAttempt} {reason : Str} {w : World} {p q : Str} {seen later : List Str}
  {rest attempts : List RebuildAttempt}

/-- The world after a round. -/
theorem run_snd : (a.run reason w).2 = (a.course w).world reason a.package w := by
  rw [run_eq]

theorem loop_escaped {e : Exn} (h : (a.course w).ending = .escaped e) :
    rebuildLoop reason (a :: rest) w =
      ⟨[(a.package, .escaped e)], (a.course w).world reason a.package w⟩ := by
  rw [rebuildLoop, run_eq, h]

theorem loop_next (h : ∀ e, (a.course w).ending ≠ .escaped e) :
    rebuildLoop reason (a :: rest) w =
      ⟨(a.package, (a.course w).ending) ::
          (rebuildLoop reason rest ((a.course w).world reason a.package w)).endings,
        (rebuildLoop reason rest ((a.course w).world reason a.package w)).final⟩ := by
  rw [rebuildLoop, run_eq]
  cases hending : (a.course w).ending with
  | escaped e => exact absurd hending (h e)
  | _ => rfl

/-- The loop attempts the first packages, in their order. -/
theorem endings_initial (reason : Str) (attempts : List RebuildAttempt) (w : World) :
    (rebuildLoop reason attempts w).endings.map (·.1) <+: attempts.map (·.package) := by
  induction attempts generalizing w with
  | nil => exact List.nil_prefix
  | cons a rest ih =>
      cases hending : (a.course w).ending with
      | escaped e =>
          rw [loop_escaped hending]
          exact ⟨rest.map (·.package), rfl⟩
      | _ =>
          rw [loop_next (by rw [hending]; simp), List.map_cons, List.map_cons]
          exact (List.prefix_cons_inj _).mpr (ih _)

/-- Every rebuild of a run has made a commit, and nothing else has. -/
theorem loop_commits (reason : Str) (attempts : List RebuildAttempt) (w : World) :
    ∃ cs : List Commit, (rebuildLoop reason attempts w).final.commits = cs.reverse ++ w.commits ∧
      cs.length = (rebuildLoop reason attempts w).rebuilt.length := by
  induction attempts generalizing w with
  | nil => exact ⟨[], rfl, rfl⟩
  | cons a rest ih =>
      cases hending : (a.course w).ending with
      | escaped e =>
          rw [loop_escaped hending]
          exact ⟨[], world_commits _ _ _ (by rw [hending]; simp), rfl⟩
      | exited =>
          obtain ⟨cs, hcs, hlength⟩ := ih ((a.course w).world reason a.package w)
          rw [loop_next (by rw [hending]; simp), hending]
          rw [world_commits _ _ _ (by rw [hending]; simp)] at hcs
          exact ⟨cs, hcs, hlength⟩
      | rebuilt =>
          obtain ⟨cs, hcs, hlength⟩ := ih ((a.course w).world reason a.package w)
          rw [loop_next (by rw [hending]; simp), hending]
          obtain ⟨dir, hdir⟩ := committed_of_rebuilt hending
          rw [hdir] at hcs hlength ⊢
          refine ⟨rebuildCommit reason a.package w dir :: cs, ?_, congrArg (· + 1) hlength⟩
          rw [List.reverse_cons, List.append_assoc]
          exact hcs

/-! ## The condition, by the ending of a round -/

omit [UnicodeTables] in
theorem endingOf_exited_iff {e : Exn} : endingOf e = .exited ↔ Exits e := by
  cases e with
  | systemExit status => exact iff_of_true rfl ⟨status, rfl⟩
  | raised cls m => exact iff_of_false (fun h => by cases h) (fun ⟨_, h⟩ => by cases h)

theorem tolerated_rebuilt (h : (a.course w).ending = .rebuilt) : a.Tolerated seen later w ↔
    OnlyRpmsStaged w a.package ∧ a.package ∉ seen ∧ a.package ∉ later := by
  obtain ⟨dir, hdir⟩ := committed_of_rebuilt h
  rw [RebuildAttempt.Tolerated, hdir]

theorem tolerated_exited (h : (a.course w).ending = .exited) : a.Tolerated seen later w ↔
    (a.package ∉ later → RpmsClean ((a.course w).world reason a.package w) a.package) := by
  unfold RebuildAttempt.Tolerated
  cases hcourse : a.course w with
  | absent => exact Iff.rfl
  | unresolved e =>
      rw [hcourse] at h
      exact and_iff_right (Or.inl (endingOf_exited_iff.mp h))
  | unbumped resolved e =>
      rw [hcourse] at h
      exact and_iff_right (Or.inl (endingOf_exited_iff.mp h))
  | uncommitted rebuilt => rw [hcourse] at h; cases h
  | committed rebuilt => rw [hcourse] at h; cases h

theorem tolerated_escaped {e : Exn} (h : (a.course w).ending = .escaped e) : a.Tolerated seen later w ↔
    later = [] ∧ RpmsClean ((a.course w).world reason a.package w) a.package := by
  have hnot : ∀ {x : Exn}, endingOf x = .escaped e → ¬ Exits x := by
    intro x hx hexits
    rw [endingOf_exited_iff.mpr hexits] at hx
    cases hx
  have hlater : ∀ {x : Exn} {P : Prop}, endingOf x = .escaped e →
      (((Exits x ∨ later = []) ∧ (a.package ∉ later → P)) ↔ later = [] ∧ P) := by
    intro x P hx
    rw [or_iff_right (hnot hx)]
    refine and_congr_right fun hnil => ?_
    rw [hnil]
    exact ⟨fun himp => himp List.not_mem_nil, fun hp _ => hp⟩
  unfold RebuildAttempt.Tolerated
  cases hcourse : a.course w with
  | absent => rw [hcourse] at h; cases h
  | unresolved x => rw [hcourse] at h; exact hlater h
  | unbumped resolved x => rw [hcourse] at h; exact hlater h
  | uncommitted rebuilt => exact Iff.rfl
  | committed rebuilt => rw [hcourse] at h; cases h

/-! ## One round more -/

/-- A run is isolated, and rebuilds none of the packages that were attempted before. -/
def IsolatedFrom (reason : Str) (seen : List Str) (attempts : List RebuildAttempt) (w : World) : Prop :=
  Isolated (attempts.map (·.package)) w (rebuildLoop reason attempts w) ∧
    ∀ p ∈ (rebuildLoop reason attempts w).rebuilt, p ∉ seen

theorem isolatedFrom_escaped {e : Exn} (h : (a.course w).ending = .escaped e) :
    IsolatedFrom reason seen (a :: rest) w ↔
      rest = [] ∧ RpmsClean ((a.course w).world reason a.package w) a.package := by
  unfold IsolatedFrom
  rw [loop_escaped h]
  constructor
  · rintro ⟨⟨hattempted, -, -, hfailed, -⟩, -⟩
    have hnil : rest.map (·.package) = [] := List.sublist_nil.mp (List.cons_sublist_cons.mp hattempted)
    exact ⟨List.map_eq_nil_iff.mp hnil, (hfailed _ (List.mem_singleton_self _) (by simp)).1⟩
  · rintro ⟨rfl, hclean⟩
    refine ⟨⟨List.Sublist.refl _, ⟨[], world_commits _ _ _ (by rw [h]; simp), trivial⟩, List.nodup_nil, ?_,
      exitStatus_ne_zero_iff _⟩, fun p hp => absurd hp List.not_mem_nil⟩
    intro x hx _
    obtain rfl := List.mem_singleton.mp hx
    exact ⟨hclean, List.not_mem_nil⟩

/-- A package the rest of a tolerated run does not attempt stays as clean as it is. -/
theorem rpmsClean_loop (h : AllTolerated reason seen attempts w) (hq : q ∉ attempts.map (·.package)) :
    RpmsClean (rebuildLoop reason attempts w).final q ↔ RpmsClean w q := by
  induction attempts generalizing w seen with
  | nil => exact Iff.rfl
  | cons a rest ih =>
      obtain ⟨htolerated, hrest⟩ := h
      rw [List.map_cons, List.mem_cons, not_or] at hq
      rw [run_snd] at hrest
      have hround : RpmsClean ((a.course w).world reason a.package w) q ↔ RpmsClean w q :=
        rpmsClean_world hq.1 fun hending => ((tolerated_rebuilt hending).mp htolerated).1
      cases hending : (a.course w).ending with
      | escaped e => rw [loop_escaped hending, hround]
      | _ => rw [loop_next (by rw [hending]; simp), ih hrest hq.2, hround]

/-- After a round that exits, the run is isolated exactly when the rest is, and the package is clean
unless it is attempted again. -/
theorem isolatedFrom_exited (h : (a.course w).ending = .exited)
    (hrest : IsolatedFrom reason (a.package :: seen) rest ((a.course w).world reason a.package w) ↔
      AllTolerated reason (a.package :: seen) rest ((a.course w).world reason a.package w)) :
    IsolatedFrom reason seen (a :: rest) w ↔
      (a.package ∉ rest.map (·.package) → RpmsClean ((a.course w).world reason a.package w) a.package) ∧
        IsolatedFrom reason (a.package :: seen) rest ((a.course w).world reason a.package w) := by
  have hcommits := world_commits reason a.package w (by rw [h]; simp : (a.course w).ending ≠ .rebuilt)
  have hhead : ((a.course w).world reason a.package w).head = w.head := funext fun q => head_congr hcommits
  unfold IsolatedFrom at hrest ⊢
  rw [loop_next (by rw [h]; simp), h]
  generalize (a.course w).world reason a.package w = w₁ at hcommits hhead hrest ⊢
  constructor
  · rintro ⟨⟨hattempted, ⟨cs, hcs, heach⟩, honce, hfailed, -⟩, hseen⟩
    obtain ⟨hclean, hnot⟩ := hfailed _ List.mem_cons_self (by simp)
    have hiso : Isolated (rest.map (·.package)) w₁ (rebuildLoop reason rest w₁) ∧
        ∀ p ∈ (rebuildLoop reason rest w₁).rebuilt, p ∉ a.package :: seen := by
      refine ⟨⟨List.cons_sublist_cons.mp hattempted, ⟨cs, by rw [hcommits]; exact hcs, by rw [hhead]; exact heach⟩,
        honce, fun e he => hfailed e (List.mem_cons_of_mem _ he), exitStatus_ne_zero_iff _⟩, ?_⟩
      intro p hp hmem
      rcases List.mem_cons.mp hmem with rfl | hmem
      · exact hnot hp
      · exact hseen p hp hmem
    exact ⟨fun hlater => (rpmsClean_loop (hrest.mp hiso) hlater).mp hclean, hiso⟩
  · rintro ⟨hclean, hiso⟩
    have htolerated := hrest.mp hiso
    obtain ⟨⟨hattempted, ⟨cs, hcs, heach⟩, honce, hfailed, -⟩, hseen⟩ := hiso
    have hnot : a.package ∉ (rebuildLoop reason rest w₁).rebuilt := fun hp => hseen _ hp List.mem_cons_self
    have hfinal : RpmsClean (rebuildLoop reason rest w₁).final a.package := by
      by_cases hlater : a.package ∈ rest.map (·.package)
      · -- it was attempted again, and failed again
        rcases rebuilt_or_failed (hattempted.subset hlater) with hp | ⟨e, he, hne, heq⟩
        · exact absurd hp hnot
        · exact heq ▸ (hfailed e he hne).1
      · exact (rpmsClean_loop htolerated hlater).mpr (hclean hlater)
    refine ⟨⟨List.cons_sublist_cons.mpr hattempted, ⟨cs, by rw [← hcommits]; exact hcs, by rw [← hhead]; exact heach⟩,
      honce, ?_, exitStatus_ne_zero_iff _⟩, fun p hp hmem => hseen p hp (List.mem_cons_of_mem _ hmem)⟩
    intro e he hne
    rcases List.mem_cons.mp he with rfl | he
    · exact ⟨hfinal, hnot⟩
    · exact hfailed e he hne

/-- After a package that is rebuilt, the run is isolated exactly when nothing else was staged, the package is
not attempted another time, and the rest is isolated. -/
theorem isolatedFrom_rebuilt (h : (a.course w).ending = .rebuilt) :
    IsolatedFrom reason seen (a :: rest) w ↔
      (OnlyRpmsStaged w a.package ∧ a.package ∉ seen ∧ a.package ∉ rest.map (·.package)) ∧
        IsolatedFrom reason (a.package :: seen) rest ((a.course w).world reason a.package w) := by
  obtain ⟨dir, hdir⟩ := committed_of_rebuilt h
  unfold IsolatedFrom
  rw [loop_next (by rw [h]; simp), h]
  have hcommits : ((a.course w).world reason a.package w).commits =
      rebuildCommit reason a.package w dir :: w.commits := by
    rw [hdir]
    rfl
  have hhead : ((a.course w).world reason a.package w).head = (rebuildCommit reason a.package w dir).content := by
    funext q
    rw [World.head, hcommits]
  have htouches : TouchesRpms w.head a.package (rebuildCommit reason a.package w dir) ↔
      OnlyRpmsStaged w a.package := touchesRpms_iff
  generalize (a.course w).world reason a.package w = w₁ at hcommits hhead ⊢
  obtain ⟨cs₀, hcs₀, hlength⟩ := loop_commits reason rest w₁
  constructor
  · rintro ⟨⟨hattempted, ⟨cs, hcs, heach⟩, honce, hfailed, -⟩, hseen⟩
    have hattempted := List.cons_sublist_cons.mp hattempted
    obtain ⟨hnot, honce⟩ := List.nodup_cons.mp honce
    cases cs with
    | nil => exact heach.elim
    | cons c cs =>
        obtain ⟨hfirst, heach⟩ := heach
        -- the commits of the rest are the ones after the first
        have hsplit : cs₀.reverse ++ [rebuildCommit reason a.package w dir] = cs.reverse ++ [c] := by
          apply (List.append_left_inj w.commits).mp
          rw [List.append_assoc, List.append_assoc, List.singleton_append, ← hcommits, ← hcs₀]
          show (rebuildLoop reason rest w₁).final.commits = _
          rw [hcs]
          simp
        obtain ⟨hrev, hlast⟩ := List.append_inj' hsplit rfl
        obtain rfl := List.reverse_injective hrev
        obtain rfl := List.singleton_inj.mp hlast
        have hlater : a.package ∉ rest.map (·.package) := by
          intro hlater
          rcases rebuilt_or_failed (hattempted.subset hlater) with hp | ⟨e, he, hne, heq⟩
          · exact hnot hp
          · exact (hfailed e (List.mem_cons_of_mem _ he) hne).2 (heq ▸ List.mem_cons_self)
        refine ⟨⟨htouches.mp hfirst, hseen _ List.mem_cons_self, hlater⟩, ⟨hattempted,
          ⟨cs₀, hcs₀, by rw [hhead]; exact heach⟩, honce, fun e he hne => ?_, exitStatus_ne_zero_iff _⟩, ?_⟩
        · obtain ⟨hclean, hmem⟩ := hfailed e (List.mem_cons_of_mem _ he) hne
          exact ⟨hclean, fun hp => hmem (List.mem_cons_of_mem _ hp)⟩
        · intro p hp hmem
          rcases List.mem_cons.mp hmem with rfl | hmem
          · exact hnot hp
          · exact hseen p (List.mem_cons_of_mem _ hp) hmem
  · rintro ⟨⟨hstaged, hfresh, hlater⟩, ⟨hattempted, ⟨cs, hcs, heach⟩, honce, hfailed, -⟩, hseen⟩
    rw [hhead] at heach
    refine ⟨⟨List.cons_sublist_cons.mpr hattempted, ⟨rebuildCommit reason a.package w dir :: cs, ?_,
      htouches.mpr hstaged, heach⟩, ?_, fun e he hne => ?_, exitStatus_ne_zero_iff _⟩, ?_⟩
    · show (rebuildLoop reason rest w₁).final.commits = _
      rw [hcs, hcommits]
      simp
    · exact List.nodup_cons.mpr ⟨fun hp => hseen _ hp List.mem_cons_self, honce⟩
    · rcases List.mem_cons.mp he with rfl | he
      · exact absurd rfl hne
      · obtain ⟨hclean, hmem⟩ := hfailed e he hne
        refine ⟨hclean, fun hp => ?_⟩
        rcases List.mem_cons.mp hp with heq | hp
        · refine hlater ((endings_initial reason rest w₁).subset ?_)
          exact List.mem_map.mpr ⟨e, he, heq⟩
        · exact hmem hp
    · intro p hp hmem
      rcases List.mem_cons.mp hp with rfl | hp
      · exact hfresh hmem
      · exact hseen p hp (List.mem_cons_of_mem _ hmem)

/-- Run lemma: a run is isolated exactly when the loop gets over every rebuild. -/
theorem isolatedFrom_iff (reason : Str) (seen : List Str) (attempts : List RebuildAttempt) (w : World) :
    IsolatedFrom reason seen attempts w ↔ AllTolerated reason seen attempts w := by
  induction attempts generalizing seen w with
  | nil =>
      refine iff_of_true ⟨⟨List.Sublist.refl _, ⟨[], rfl, trivial⟩, List.nodup_nil, ?_, exitStatus_ne_zero_iff _⟩,
        fun p hp => absurd hp List.not_mem_nil⟩ trivial
      exact fun e he => absurd he List.not_mem_nil
  | cons a rest ih =>
      rw [AllTolerated, run_snd, ← ih]
      cases hending : (a.course w).ending with
      | rebuilt => rw [isolatedFrom_rebuilt hending, tolerated_rebuilt hending]
      | exited => rw [isolatedFrom_exited hending (ih _ _), tolerated_exited hending]
      | escaped e =>
          rw [isolatedFrom_escaped hending, tolerated_escaped hending, List.map_eq_nil_iff]
          constructor
          · rintro ⟨rfl, hclean⟩
            exact ⟨⟨rfl, hclean⟩, (ih _ _).mpr trivial⟩
          · exact fun h => h.1

end

/-! ## Reverse dependencies -/

/-- `expand_spec_buildrequires`, for what `rpmspec -q --buildrequires` prints. -/
def expandSpecBuildrequires [UnicodeTables] (rpmspec : Tree → Path → Proc) (packageDir : Tree) :
    Except Exn (List Str) :=
  match packageDir.glob ".spec" with
  | [specFile] => do
      let result ← (rpmspec packageDir specFile).run
      failIf (result.returncode ≠ 0) (.raised .calledProcessError "rpmspec")
      return (splitlines (strip result.stdout)).filterMap fun line =>
        ((line.splitOnP isSpace).filter (· ≠ [])).head?
  | _ => .error (.raised .assertionError "Expected exactly one .spec file")

/-- What the command asks besides the rebuilds: what rpmspec says of the BuildRequires, the package that is
looked for, and the sorted names in `rpms/`. -/
structure RevDeps where
  rpmspec : Tree → Path → Proc
  actualTarget : Str
  names : List Str

section

variable [UnicodeTables]

/-- The scan: the reverse dependencies, or the package where it ends, and why. -/
def scan (d : RevDeps) (w : World) : List Str → Except (Str × Exn) (List Str)
  | [] => .ok []
  | pkg :: rest =>
      if w.rpms pkg = none then scan d w rest
      else
        match expandSpecBuildrequires d.rpmspec (w.packageDir pkg) with
        | .error e => .error (pkg, e)
        | .ok buildrequires => do
            let found ← scan d w rest
            return if d.actualTarget ∈ buildrequires then pkg :: found else found

/-- `rebuild_reverse_dependencies` -/
def rebuildReverseDependencies (d : RevDeps) (env : Str → Env) (reason : Str) (w : World) : BatchRun :=
  match scan d w d.names with
  | .error (pkg, e) => ⟨[(pkg, .escaped e)], w⟩
  | .ok reverseDeps => rebuildLoop reason (reverseDeps.map fun pkg => ⟨pkg, env pkg⟩) w

/-- The BuildRequires of a package can be read. -/
def Scans (d : RevDeps) (w : World) (pkg : Str) : Prop :=
  ∃ buildrequires, expandSpecBuildrequires d.rpmspec (w.packageDir pkg) = .ok buildrequires

/-- The BuildRequires of a package name the target. -/
def requiresTarget (d : RevDeps) (w : World) (pkg : Str) : Bool :=
  (w.rpms pkg).isSome &&
    match expandSpecBuildrequires d.rpmspec (w.packageDir pkg) with
    | .ok buildrequires => buildrequires.contains d.actualTarget
    | .error _ => false

/-- The packages that require the target. -/
def reverseDeps (d : RevDeps) (w : World) (names : List Str) : List Str := names.filter (requiresTarget d w)

/-- The scan ends at a package. -/
def EndsAt (d : RevDeps) (w : World) (names : List Str) (pkg : Str) : Prop :=
  ∃ before after, names = before ++ pkg :: after ∧ (∀ q ∈ before, w.rpms q ≠ none → Scans d w q) ∧
    w.rpms pkg ≠ none ∧ ¬ Scans d w pkg

/-- The condition of the command: every package can be read and the loop gets over the rebuilds, or the
scan ends at a clean package and there is nothing to rebuild. -/
def RevDepsTolerated (d : RevDeps) (env : Str → Env) (reason : Str) (w : World) : Prop :=
  ((∀ pkg ∈ d.names, w.rpms pkg ≠ none → Scans d w pkg) ∧
      AllTolerated reason [] ((reverseDeps d w d.names).map fun pkg => ⟨pkg, env pkg⟩) w) ∨
    ∃ pkg, EndsAt d w d.names pkg ∧ reverseDeps d w d.names = [] ∧ RpmsClean w pkg

end

section

variable [UnicodeTables] {d : RevDeps} {w : World} {pkg : Str} {names : List Str} {reason : Str}
  {env : Str → Env}

theorem requiresTarget_of_ok {buildrequires : List Str} (hdir : w.rpms pkg ≠ none)
    (h : expandSpecBuildrequires d.rpmspec (w.packageDir pkg) = .ok buildrequires) :
    requiresTarget d w pkg = buildrequires.contains d.actualTarget := by
  unfold requiresTarget
  rw [h, Option.isSome_iff_ne_none.mpr hdir, Bool.true_and]

/-- What the scan finds. -/
theorem scan_cases (names : List Str) :
    ((∀ q ∈ names, w.rpms q ≠ none → Scans d w q) ∧ scan d w names = .ok (reverseDeps d w names)) ∨
      ∃ p e, EndsAt d w names p ∧ scan d w names = .error (p, e) := by
  induction names with
  | nil => exact Or.inl ⟨fun q hq => absurd hq List.not_mem_nil, rfl⟩
  | cons p rest ih =>
      rw [scan]
      by_cases hdir : w.rpms p = none
      · rw [if_pos hdir]
        have hnot : requiresTarget d w p = false := by
          rw [requiresTarget, hdir]
          rfl
        rw [reverseDeps, List.filter_cons_of_neg (by rw [hnot]; exact Bool.false_ne_true)]
        rcases ih with ⟨hall, hscan⟩ | ⟨q, e, ⟨before, after, rfl, hall, hend⟩, hscan⟩
        · refine Or.inl ⟨fun q hq hne => ?_, hscan⟩
          rcases List.mem_cons.mp hq with rfl | hq
          · exact absurd hdir hne
          · exact hall q hq hne
        · refine Or.inr ⟨q, e, ⟨p :: before, after, rfl, fun x hx hne => ?_, hend⟩, hscan⟩
          rcases List.mem_cons.mp hx with rfl | hx
          · exact absurd hdir hne
          · exact hall x hx hne
      · rw [if_neg hdir]
        cases hexpand : expandSpecBuildrequires d.rpmspec (w.packageDir p) with
        | error e =>
            refine Or.inr ⟨p, e, ⟨[], rest, rfl, fun x hx => absurd hx List.not_mem_nil, hdir, ?_⟩, rfl⟩
            rintro ⟨buildrequires, hok⟩
            rw [hexpand] at hok
            cases hok
        | ok buildrequires =>
            have hscans : Scans d w p := ⟨buildrequires, hexpand⟩
            rcases ih with ⟨hall, hscan⟩ | ⟨q, e, ⟨before, after, rfl, hall, hend⟩, hscan⟩
            · refine Or.inl ⟨fun q hq hne => ?_, ?_⟩
              · rcases List.mem_cons.mp hq with rfl | hq
                · exact hscans
                · exact hall q hq hne
              · dsimp only
                have hcons : reverseDeps d w (p :: rest) =
                    if d.actualTarget ∈ buildrequires then p :: reverseDeps d w rest
                    else reverseDeps d w rest := by
                  rw [reverseDeps, List.filter_cons, requiresTarget_of_ok hdir hexpand]
                  simp only [List.contains_iff_mem]
                  rfl
                rw [hscan, except_bind_ok, hcons]
                rfl
            · refine Or.inr ⟨q, e, ⟨p :: before, after, rfl, fun x hx hne => ?_, hend⟩, ?_⟩
              · rcases List.mem_cons.mp hx with rfl | hx
                · exact hscans
                · exact hall x hx hne
              · dsimp only
                rw [hscan]
                rfl

/-- A package the scan ends at is none that it finds. -/
theorem not_mem_reverseDeps (h : ¬ Scans d w pkg) : pkg ∉ reverseDeps d w names := by
  intro hmem
  obtain ⟨-, hrequires⟩ := List.mem_filter.mp hmem
  rw [requiresTarget, Bool.and_eq_true] at hrequires
  cases hexpand : expandSpecBuildrequires d.rpmspec (w.packageDir pkg) with
  | ok buildrequires => exact h ⟨buildrequires, hexpand⟩
  | error e =>
      rw [hexpand] at hrequires
      exact Bool.false_ne_true hrequires.2

theorem rebuildLoop_isolated_iff (reason : Str) (attempts : List RebuildAttempt) (w : World) :
    Isolated (attempts.map (·.package)) w (rebuildLoop reason attempts w) ↔
      AllTolerated reason [] attempts w := by
  rw [← isolatedFrom_iff, IsolatedFrom]
  exact (and_iff_left fun p _ => List.not_mem_nil).symm

/-- A run that the scan ends is isolated where there is nothing to rebuild. -/
theorem isolated_ended {e : Exn} (h : ¬ Scans d w pkg) :
    Isolated (reverseDeps d w names) w ⟨[(pkg, .escaped e)], w⟩ ↔
      reverseDeps d w names = [] ∧ RpmsClean w pkg := by
  constructor
  · rintro ⟨hattempted, -, -, hfailed, -⟩
    refine ⟨?_, (hfailed _ (List.mem_singleton_self _) (by simp)).1⟩
    rw [List.eq_nil_iff_forall_not_mem]
    intro q hq
    obtain rfl := List.mem_singleton.mp (hattempted.subset hq)
    exact not_mem_reverseDeps h hq
  · rintro ⟨hnil, hclean⟩
    refine ⟨by rw [hnil]; exact List.nil_sublist _, ⟨[], rfl, trivial⟩, List.nodup_nil, ?_,
      exitStatus_ne_zero_iff _⟩
    intro x hx _
    obtain rfl := List.mem_singleton.mp hx
    exact ⟨hclean, List.not_mem_nil⟩

/-- The scan ends at one package at most. -/
theorem EndsAt.unique {p q : Str} (hp : EndsAt d w names p) (hq : EndsAt d w names q) : p = q := by
  obtain ⟨before, after, rfl, hbefore, hdir, hnot⟩ := hp
  obtain ⟨before', after', hsplit, hbefore', hdir', hnot'⟩ := hq
  rcases List.append_eq_append_iff.mp hsplit with ⟨mid, rfl, hmid⟩ | ⟨mid, rfl, hmid⟩
  · cases mid with
    | nil => exact (List.cons.inj hmid).1
    | cons x mid =>
        obtain ⟨rfl, -⟩ := List.cons.inj hmid
        exact absurd (hbefore' p (List.mem_append_right _ List.mem_cons_self) hdir) hnot
  · cases mid with
    | nil => exact (List.cons.inj hmid).1.symm
    | cons x mid =>
        obtain ⟨rfl, -⟩ := List.cons.inj hmid
        exact absurd (hbefore q (List.mem_append_right _ List.mem_cons_self) hdir') hnot'

theorem revDeps_isolated_iff (d : RevDeps) (env : Str → Env) (reason : Str) (w : World) :
    Isolated (reverseDeps d w d.names) w (rebuildReverseDependencies d env reason w) ↔
      RevDepsTolerated d env reason w := by
  unfold rebuildReverseDependencies RevDepsTolerated
  rcases @scan_cases _ d w d.names with ⟨hall, hscan⟩ | ⟨p, e, hends, hscan⟩
  · rw [hscan]
    dsimp only
    have hpackages : ((reverseDeps d w d.names).map fun pkg => (⟨pkg, env pkg⟩ : RebuildAttempt)).map
        (·.package) = reverseDeps d w d.names := by
      rw [List.map_map]
      exact List.map_id _
    conv_lhs => rw [← hpackages]
    rw [hpackages, ← rebuildLoop_isolated_iff, hpackages, and_iff_right hall]
    constructor
    · exact Or.inl
    · rintro (h | ⟨pkg, ⟨before, after, hsplit, -, hdir, hnot⟩, -⟩)
      · exact h
      · exact absurd (hall pkg (by rw [hsplit]; simp) hdir) hnot
  · rw [hscan]
    dsimp only
    obtain ⟨before, after, hsplit, hbefore, hdir, hnot⟩ := id hends
    rw [isolated_ended hnot]
    constructor
    · rintro ⟨hnil, hclean⟩
      exact Or.inr ⟨p, hends, hnil, hclean⟩
    · rintro (⟨hall, -⟩ | ⟨q, hq, hnil, hclean⟩)
      · exact absurd (hall p (by rw [hsplit]; simp) hdir) hnot
      · exact ⟨hnil, hends.unique hq ▸ hclean⟩

/-- **`rebuilds_isolated_iff`** — for every world and reason: a run over any list of packages is isolated
exactly when the loop gets over every rebuild, in the world it meets; and `rebuild-rev-deps` exactly when
every package can be scanned and the loop gets over the rebuilds of those that require the target, or the
scan ends at a clean package and there are none. -/
theorem rebuilds_isolated_iff (reason : Str) (w : World) :
    (∀ attempts, Isolated (attempts.map (·.package)) w (rebuildLoop reason attempts w) ↔
      AllTolerated reason [] attempts w) ∧
    ∀ d env, Isolated (reverseDeps d w d.names) w (rebuildReverseDependencies d env reason w) ↔
      RevDepsTolerated d env reason w :=
  ⟨fun attempts => rebuildLoop_isolated_iff reason attempts w, fun d env => revDeps_isolated_iff d env reason w⟩

end

/-! ### A spec file that rpmspec cannot read -/

/-- A package whose release is 1. -/
def releasedOnce : Tracked where
  rpms := Tree.ofList [("package.spec", .text "Release: 1%\x7b?dist\x7d\n")]
  metadata := some { version := "1" }
  pipeline := none

/-- A repository in which everything is committed. -/
def releasedWorld : World :=
  { World.empty with
    rpms := fun _ => some releasedOnce.rpms
    metadata := fun _ => releasedOnce.metadata
    index := fun _ => releasedOnce
    commits := [⟨"Import", fun _ => releasedOnce⟩] }

/-- rpmspec answers with the release, or fails. -/
def rpmspecEnv (fails : Bool) : Env :=
  { Env.offline with
    rpmspec := fun _ _ => if fails then .exited 1 [] "error: line 1" else .exited 0 "1\n1\n" []
    commitOk := true }

/-- The failure at `bash` ends the run, and `curl` is not attempted; by itself `curl` is rebuilt. -/
theorem rpmspec_failure_ends_run :
    letI := asciiTables
    ¬ Isolated ["bash", "curl"] releasedWorld
      (rebuildLoop "new openssl" [⟨"bash", rpmspecEnv true⟩, ⟨"curl", rpmspecEnv false⟩] releasedWorld) ∧
    (rebuildLoop "new openssl" [⟨"curl", rpmspecEnv false⟩] releasedWorld).rebuilt = ["curl".toList] := by
  let _ := asciiTables
  constructor
  · rintro ⟨hattempted, -⟩
    have hnames : (rebuildLoop "new openssl" [⟨"bash", rpmspecEnv true⟩, ⟨"curl", rpmspecEnv false⟩]
        releasedWorld).endings.map (·.1) = ["bash".toList] := by decide +kernel
    rw [hnames] at hattempted
    exact absurd hattempted.length_le (by decide)
  · decide +kernel

end HummingbirdRpms.RebuildBatch
