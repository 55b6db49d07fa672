/-
# HummingbirdRpms.Delivery — what the multi-MR drivers lose without saying so.

**`delivers_iff`** is about every run of the three drivers that exits 0: no package failed and every
commit is on the remote exactly when `NothingLost` holds of the run.  A commit that the script cannot
attribute to a package is skipped, the second commit of a package finds the branch of the first,
`--force` deletes what the run itself has pushed, a failed `git rev-list` hides the commits there are,
and failed updates are forgotten when no commit was made, or altogether.

The proof follows one branch: a commit that does not fail settles the branch of its package
(`deliver_remote`) and no other, so the loop is a fold over the commits of each package
(`commitLoop_remote`).
-/
import HummingbirdRpms.MultiMr

namespace HummingbirdRpms.MultiMr

open Lib Lib.Text

/-! ## One branch -/

/-- What a commit that does not fail makes of the branch of its package, where the script has left it
alone. -/
def settleBranch (c : LocalCommit) (s : Option Branch) : Option Branch :=
  if c.answers.ahead = some 0 then s
  else
    match s with
    | some (.pushed commits) => some (.pushed commits)
    | some .found => if c.answers.lsRemote then some .found else some (.pushed [c.sha])
    | none => some (.pushed [c.sha])

/-- What a commit that does not fail makes of the branch of its package. -/
def settle (d : Driver) (s : Option Branch) (c : LocalCommit) : Option Branch :=
  settleBranch c (if d.force && c.answers.forceLsRemote then none else s)

section OneBranch

variable {d : Driver} {remote remote' : Remote} {b : Str} {c : LocalCommit} {o : Outcome}
  {s : Option Branch} {l : List LocalCommit}

theorem createMr_zero (h : createMr remote b c.sha c.answers = (0, remote')) :
    remote' = Function.update remote b (settleBranch c (remote b)) := by
  unfold createMr at h
  unfold settleBranch
  split at h
  · exact absurd h (by simp [abortStatus])
  · rename_i hahead
    obtain rfl := congrArg Prod.snd h
    rw [if_pos hahead, Function.update_eq_self]
  · rename_i n hahead
    rw [if_neg (by rw [hahead]; simp)]
    split at h
    · exact absurd h (by simp)
    · rename_i hseen
      split at h
      · exact absurd h (by simp [abortStatus])
      · split at h
        · exact absurd h (by simp)
        · rename_i hpush
          obtain rfl := congrArg Prod.snd h
          cases hb : remote b with
          | none => rfl
          | some branch =>
              cases branch with
              | found =>
                  have hls : c.answers.lsRemote = false := by simpa [hb] using hseen
                  simp only [hls, Bool.false_eq_true, if_false]
              | pushed commits => exact absurd (by simp [hb, Branch.isPushed]) hpush

theorem createMr_two (h : createMr remote b c.sha c.answers = (2, remote')) :
    remote' = Function.update remote b (settleBranch c (remote b)) := by
  unfold createMr at h
  unfold settleBranch
  split at h
  · exact absurd h (by simp [abortStatus])
  · exact absurd h (by simp)
  · rename_i n hahead
    rw [if_neg (by rw [hahead]; simp)]
    split at h
    · rename_i hseen
      obtain rfl := congrArg Prod.snd h
      obtain ⟨hls, hb⟩ := Bool.and_eq_true_iff.mp hseen
      cases hbranch : remote b with
      | none => exact absurd hb (by simp [hbranch])
      | some branch =>
          have hsame : Function.update remote b (some branch) = remote := by
            rw [← hbranch, Function.update_eq_self]
          cases branch with
          | found => exact (by simp only [hls, if_true, hsame])
          | pushed commits => exact hsame.symm
    · split at h
      · exact absurd h (by simp [abortStatus])
      · split at h
        · exact absurd h (by simp)
        · exact absurd h (by split <;> simp)

theorem attempt_remote (h : attempt remote b c.sha c.answers = (o, remote')) (ho : o ≠ .failed) :
    remote' = Function.update remote b (settleBranch c (remote b)) := by
  unfold attempt at h
  split at h
  · exact absurd (congrArg Prod.fst h).symm ho
  · split at h
    · rename_i hmr
      obtain rfl := congrArg Prod.snd h
      exact createMr_zero hmr
    · rename_i hmr
      obtain rfl := congrArg Prod.snd h
      exact createMr_two hmr
    · exact absurd (congrArg Prod.fst h).symm ho

/-- **Step lemma**: a commit that does not fail settles the branch of its package and no other. -/
theorem deliver_remote (h : deliver d.force remote b c.sha c.answers = some (o, remote'))
    (ho : o ≠ .failed) : remote' = Function.update remote b (settle d (remote b) c) := by
  unfold deliver at h
  unfold settle
  split at h
  · rename_i hforce
    split at h
    · have hr := attempt_remote (Option.some.inj h) ho
      rw [Function.update_self, Function.update_idem] at hr
      rw [if_pos (Bool.and_eq_true_iff.mp hforce).1]
      exact hr
    · exact absurd h (by simp)
  · rename_i hforce
    have hr := attempt_remote (Option.some.inj h) ho
    split
    · rename_i hask
      -- `--force` found no branch to remove
      have hnone : remote b = none := by simpa [hask] using hforce
      rwa [hnone] at hr
    · exact hr

theorem settle_found :
    settle d s c = some .found ↔ s = some .found ∧ Replaces d c = false := by
  unfold settle settleBranch Replaces
  by_cases hforce : (d.force && c.answers.forceLsRemote) = true
  · rw [if_pos hforce, hforce]
    refine iff_of_false ?_ (by simp)
    split <;> simp
  · rw [if_neg hforce, Bool.eq_false_iff.mpr hforce, Bool.false_or]
    by_cases hahead : c.answers.ahead = some 0
    · simp [hahead]
    · rw [if_neg hahead]
      cases s with
      | none => simp
      | some branch =>
          cases branch with
          | found => cases c.answers.lsRemote <;> simp [hahead]
          | pushed commits => simp

/-- The branch of before the run is left alone exactly if no commit replaces it. -/
theorem foldl_settle_found :
    l.foldl (settle d) s = some .found ↔ s = some .found ∧ ∀ c ∈ l, Replaces d c = false := by
  induction l generalizing s with
  | nil => simp
  | cons c l ih =>
      rw [List.foldl_cons, ih, settle_found, List.forall_mem_cons, and_assoc]

/-- A commit that `create_mr.sh` sees is on its branch, unless the branch of before the run is. -/
theorem settle_pushed (hs : s = none ∨ s = some .found) (hahead : c.answers.ahead ≠ some 0)
    (hfound : settle d s c ≠ some .found) : settle d s c = some (.pushed [c.sha]) := by
  unfold settle settleBranch at hfound ⊢
  rw [if_neg hahead] at hfound ⊢
  rcases hs with rfl | rfl
  · rw [ite_self]
  · split
    · rename_i heq
      split at heq
      · exact absurd heq (by simp)
      · exact absurd heq (by simp)
    · rename_i heq
      rw [heq] at hfound
      split
      · rename_i hls
        exact absurd (by simp [hls]) hfound
      · rfl
    · rfl

theorem ahead_of_settle (hs : s = none ∨ s = some .found)
    (h : settle d s c = some (.pushed [c.sha])) : c.answers.ahead ≠ some 0 := by
  intro hahead
  unfold settle settleBranch at h
  rw [if_pos hahead] at h
  rcases hs with rfl | rfl
  · rw [ite_self] at h
    exact absurd h (by simp)
  · split at h
    · exact absurd h (by simp)
    · exact absurd (Option.some.inj h) (by simp)

end OneBranch

/-! ## All commits of a run -/

section AllCommits

variable {d : Driver} {onRemote : Str → Bool} {commits : List LocalCommit} {after : Remote}
  {c : LocalCommit} {p : Str} {t t' : Tally} {cs : List LocalCommit}

theorem Driver.branch_inj {q : Str} : d.branch p = d.branch q ↔ p = q := by
  cases d <;> exact List.append_right_inj _

theorem before_found {b : Str} : Remote.before onRemote b = some .found ↔ onRemote b = true := by
  unfold Remote.before
  split <;> simp_all

theorem before_cases (b : Str) :
    Remote.before onRemote b = none ∨ Remote.before onRemote b = some .found := by
  unfold Remote.before
  split
  · exact Or.inr rfl
  · exact Or.inl rfl

/-- The commits of one package. -/
abbrev commitsOf (d : Driver) (p : Str) (commits : List LocalCommit) : List LocalCommit :=
  commits.filter fun c => d.package c = some p

theorem mem_commitsOf : c ∈ commitsOf d p commits ↔ c ∈ commits ∧ d.package c = some p := by
  simp [commitsOf]

theorem Distinct.eq_of_sha (h : Distinct commits) {c' : LocalCommit} (hc : c ∈ commits)
    (hc' : c' ∈ commits) (hsha : c.sha = c'.sha) : c = c' :=
  List.inj_on_of_nodup_map h hc hc' hsha

/-- The only commit of its package. -/
theorem commitsOf_eq_singleton (h : Distinct commits) (hc : c ∈ commits) (hp : d.package c = some p)
    (honly : ∀ c' ∈ commits, d.package c' = some p → c' = c) : commitsOf d p commits = [c] := by
  have hnodup : (commitsOf d p commits).Nodup := List.Nodup.filter _ (List.Nodup.of_map _ h)
  have hmem : c ∈ commitsOf d p commits := mem_commitsOf.mpr ⟨hc, hp⟩
  have hall : ∀ c' ∈ commitsOf d p commits, c' = c := fun c' hc' =>
    honly c' (mem_commitsOf.mp hc').1 (mem_commitsOf.mp hc').2
  generalize commitsOf d p commits = l at hnodup hmem hall
  cases l with
  | nil => exact absurd hmem List.not_mem_nil
  | cons a l =>
      obtain rfl := hall a List.mem_cons_self
      cases l with
      | nil => rfl
      | cons b l =>
          have hb := hall b (List.mem_cons_of_mem _ List.mem_cons_self)
          exact absurd (hb ▸ List.mem_cons_self) (List.nodup_cons.mp hnodup).1

/-- Where every branch has been settled by the commits of its package, all commits are delivered
exactly if all of them reach the remote. -/
theorem delivered_iff_reaches (hdistinct : Distinct commits)
    (hafter : ∀ p, after (d.branch p) =
      (commitsOf d p commits).foldl (settle d) (Remote.before onRemote (d.branch p))) :
    (∀ c ∈ commits, Delivered d (Remote.before onRemote) after c) ↔
      ∀ c ∈ commits, Reaches d onRemote true commits c := by
  constructor
  · intro hall c hc
    obtain ⟨p, hp, hdelivered⟩ := hall c hc
    refine ⟨p, hp, ?_⟩
    by_cases hfound : after (d.branch p) = some .found
    · left
      rw [hafter, foldl_settle_found] at hfound
      exact ⟨before_found.mp hfound.1, fun _ c' hc' hp' => hfound.2 c' (mem_commitsOf.mpr ⟨hc', hp'⟩)⟩
    · right
      have hpushed := hdelivered.resolve_right fun h => hfound h.2
      -- the branch holds one commit, so the package has no other
      have honly : ∀ c' ∈ commits, d.package c' = some p → c' = c := by
        intro c' hc' hp'
        obtain ⟨q, hq, hdelivered'⟩ := hall c' hc'
        obtain rfl : q = p := Option.some.inj (hq.symm.trans hp')
        have hpushed' := hdelivered'.resolve_right fun h => hfound h.2
        have hsha : [c'.sha] = [c.sha] := by
          have := hpushed'.symm.trans hpushed
          exact Branch.pushed.inj (Option.some.inj this)
        exact hdistinct.eq_of_sha hc' hc (List.cons.inj hsha).1
      refine ⟨rfl, ?_, honly⟩
      rw [hafter, commitsOf_eq_singleton hdistinct hc hp honly] at hpushed
      exact ahead_of_settle (before_cases _) hpushed
  · intro hall c hc
    obtain ⟨p, hp, hkept | ⟨-, hahead, honly⟩⟩ := hall c hc
    · refine ⟨p, hp, Or.inr ⟨before_found.mpr hkept.1, ?_⟩⟩
      rw [hafter, foldl_settle_found]
      refine ⟨before_found.mpr hkept.1, fun c' hc' => ?_⟩
      obtain ⟨hin, hpkg⟩ := mem_commitsOf.mp hc'
      exact hkept.2 rfl c' hin hpkg
    · have hsettle : after (d.branch p) = settle d (Remote.before onRemote (d.branch p)) c := by
        rw [hafter, commitsOf_eq_singleton hdistinct hc hp honly]
        rfl
      refine ⟨p, hp, ?_⟩
      by_cases hfound : after (d.branch p) = some .found
      · right
        exact ⟨(settle_found.mp (hsettle ▸ hfound)).1, hfound⟩
      · left
        rw [hsettle] at hfound ⊢
        exact settle_pushed (before_cases _) hahead hfound

/-- And where the script has not seen the commits, the branches are to be there before. -/
theorem delivered_iff_before :
    (∀ c ∈ commits, Delivered d (Remote.before onRemote) (Remote.before onRemote) c) ↔
      ∀ c ∈ commits, Reaches d onRemote false commits c := by
  refine forall_congr' fun c => imp_congr_right fun _ => exists_congr fun p =>
    and_congr_right fun _ => ?_
  have hpushed : Remote.before onRemote (d.branch p) ≠ some (.pushed [c.sha]) := by
    rcases before_cases (d.branch p) with h | h
    · rw [h]
      simp
    · rw [h]
      simp
  simp [hpushed, before_found]

theorem takePackages_cons {n : Nat} : takePackages d n (c :: cs) =
    if (d.package c).isNone then c :: takePackages d n cs
    else if n ≤ 1 then [c]
    else c :: takePackages d (n - 1) cs := by
  rw [takePackages]

theorem Tally.failures_le {o : Outcome} {remote : Remote} : t.failures ≤ (t.add remote o).failures := by
  cases o
  · exact le_rfl
  · exact le_rfl
  · exact Nat.le_succ _

theorem commitLoop_failures (h : commitLoop d cs t = .ok t') : t.failures ≤ t'.failures := by
  induction cs generalizing t with
  | nil =>
      obtain rfl := Except.ok.inj h
      exact le_rfl
  | cons c cs ih =>
      rw [commitLoop] at h
      split at h
      · exact absurd h (by simp)
      · split at h
        · exact (ih h :)
        · split at h
          · exact absurd h (by simp)
          · rename_i o remote _
            have hstep : t.failures ≤ (t.add remote o).failures := Tally.failures_le
            simp only at h
            split at h
            · obtain rfl := Except.ok.inj h
              exact hstep
            · exact hstep.trans (ih h)

/-- The commits that the loop takes up from here, if none of them fails. -/
def processed (d : Driver) (t : Tally) (cs : List LocalCommit) : List LocalCommit :=
  if d.maxUpdates = 0 then cs else takePackages d (d.maxUpdates - (t.created + t.existing)) cs

/-- **Run lemma** of the commit loop: without a failure, each branch is settled by the commits of its
package, one after the other, up to the limit. -/
theorem commitLoop_remote (h : commitLoop d cs t = .ok t') (hf : t'.failures = 0)
    (hlimit : d.maxUpdates = 0 ∨ t.created + t.existing < d.maxUpdates) (p : Str) :
    t'.remote (d.branch p) =
      (commitsOf d p (processed d t cs)).foldl (settle d) (t.remote (d.branch p)) := by
  induction cs generalizing t with
  | nil =>
      obtain rfl := Except.ok.inj h
      unfold processed
      split <;> rfl
  | cons c cs ih =>
      rw [commitLoop] at h
      split at h
      · exact absurd h (by simp)
      · split at h
        · -- a commit without a package is passed over
          rename_i hpkg
          have hnext := ih h hlimit
          rw [hnext]
          have hprocessed : commitsOf d p (processed d t (c :: cs)) = commitsOf d p (processed d t cs) := by
            unfold processed
            split
            · simp [commitsOf, hpkg]
            · rw [takePackages_cons, if_pos (by rw [hpkg]; rfl)]
              simp [commitsOf, hpkg]
          rw [hprocessed]
          rfl
        · rename_i q hpkg
          split at h
          · exact absurd h (by simp)
          · rename_i o remote hdeliver
            simp only at h
            have hle : (t.add remote o).failures ≤ t'.failures := by
              split at h
              · obtain rfl := Except.ok.inj h
                exact le_rfl
              · exact commitLoop_failures h
            have ho : o ≠ .failed := by
              rintro rfl
              have hone : t.failures + 1 ≤ t'.failures := hle
              omega
            have hremote := deliver_remote hdeliver ho
            have hcount : (t.add remote o).created + (t.add remote o).existing =
                t.created + t.existing + 1 := by
              cases o with
              | created => exact Nat.add_right_comm _ _ _
              | existing => rfl
              | failed => exact absurd rfl ho
            have hadd : (t.add remote o).remote = remote := by cases o <;> rfl
            -- what is left to do after this commit
            have hrest : t'.remote (d.branch p) = (commitsOf d p
                (processed d t (c :: cs)).tail).foldl (settle d) (remote (d.branch p)) ∧
                (processed d t (c :: cs)) = c :: (processed d t (c :: cs)).tail := by
              split at h
              · rename_i hstop
                obtain rfl := Except.ok.inj h
                rw [hcount] at hstop
                have hone : processed d t (c :: cs) = [c] := by
                  unfold processed
                  rw [if_neg (by omega), takePackages_cons, if_neg (by simp [hpkg]), if_pos (by omega)]
                rw [hone, hadd]
                exact ⟨rfl, rfl⟩
              · rename_i hgo
                rw [hcount] at hgo
                have hnext := ih h (by rw [hcount]; omega)
                have hmore : processed d t (c :: cs) = c :: processed d (t.add remote o) cs := by
                  unfold processed
                  split
                  · rfl
                  · rename_i hmax
                    rw [takePackages_cons, if_neg (by simp [hpkg]), if_neg (by omega), hcount]
                    rfl
                rw [hmore, hnext, hadd]
                exact ⟨rfl, rfl⟩
            rw [hrest.1, hrest.2, List.tail_cons, hremote]
            by_cases hqp : q = p
            · subst hqp
              rw [Function.update_self]
              simp [commitsOf, hpkg]
            · rw [Function.update_of_ne fun heq => hqp (Driver.branch_inj.mp heq).symm]
              simp [commitsOf, hpkg, hqp]

end AllCommits

/-! ## The update loop -/

section UpdateLoop

variable {u : UpdateStep} {us : List UpdateStep} {s s' : Updates} {maxUpdates : Nat}

/-- What one package adds to the counters of the update loop. -/
structure Takes (u : UpdateStep) (s s' : Updates) : Prop where
  taken : s'.taken = s.taken ++ [u]
  failures : s'.failures = s.failures + if u.failed then 1 else 0
  commits : ∃ l, l.Sublist u.commits ∧ s'.commits = s.commits ++ l

/-- **Step lemma** of the update loop. -/
theorem updateStep_takes (h : updateStep u s = some s') : Takes u s s' := by
  have hcommit : u.commit.toList.Sublist u.commits := List.sublist_append_left _ _
  unfold updateStep at h
  simp only at h
  split at h
  · exact absurd h (by simp)
  · split at h
    · rename_i hzero
      obtain rfl := Option.some.inj h
      exact ⟨rfl, by simp [UpdateStep.failed, hzero], _, hcommit, rfl⟩
    · rename_i hzero
      split at h
      · rename_i htwo
        split at h
        · rename_i hsaved
          obtain ⟨c, hc, rfl⟩ := Option.map_eq_some_iff.mp h
          obtain ⟨hnone, hstate⟩ := Bool.and_eq_true_iff.mp hsaved
          refine ⟨rfl, by simp [UpdateStep.failed, htwo, hstate], [c], ?_, rfl⟩
          simp [UpdateStep.commits, hc]
        · rename_i hsaved
          split at h
          · rename_i hsome
            obtain rfl := Option.some.inj h
            have hisNone : u.commit.isNone = false := by simpa using hsome
            exact ⟨rfl, by simp [UpdateStep.failed, htwo, hisNone], _, hcommit, rfl⟩
          · rename_i hsome
            obtain rfl := Option.some.inj h
            have hnone : u.commit = none := by simpa using hsome
            have hstate : u.stateFile = false := by simpa [hnone] using hsaved
            exact ⟨rfl, by simp [UpdateStep.failed, htwo, hnone, hstate], [], List.nil_sublist _, by simp⟩
      · rename_i htwo
        obtain rfl := Option.some.inj h
        exact ⟨rfl, by simp [UpdateStep.failed, hzero, htwo], _, hcommit, rfl⟩

/-- The counter of the failures is zero exactly if none of the packages taken up failed. -/
def Updates.Counted (s : Updates) : Prop := s.failures = 0 ↔ s.taken.any UpdateStep.failed = false

theorem Takes.counted (h : Takes u s s') (hs : s.Counted) : s'.Counted := by
  unfold Updates.Counted at hs ⊢
  rw [h.failures, h.taken, List.any_append, Bool.or_eq_false_iff, ← hs]
  cases hu : u.failed <;> simp [hu]

/-- **Run lemma** of the update loop. -/
theorem updateLoop_spec (h : updateLoop maxUpdates us s = some s') (hs : s.Counted) :
    s'.Counted ∧ ∃ l, l.Sublist (us.flatMap UpdateStep.commits) ∧ s'.commits = s.commits ++ l := by
  induction us generalizing s with
  | nil =>
      obtain rfl := Option.some.inj h
      exact ⟨hs, [], List.nil_sublist _, by simp⟩
  | cons u us ih =>
      obtain ⟨s₁, hstep, h⟩ := Option.bind_eq_some_iff.mp h
      have htakes := updateStep_takes hstep
      obtain ⟨l, hl, hcommits⟩ := htakes.commits
      split at h
      · obtain rfl := Option.some.inj h
        exact ⟨htakes.counted hs, l, by simpa using hl.trans (List.sublist_append_left _ _), hcommits⟩
      · obtain ⟨hcounted, l', hl', hcommits'⟩ := ih h (htakes.counted hs)
        refine ⟨hcounted, l ++ l', ?_, by rw [hcommits', hcommits, List.append_assoc]⟩
        exact List.Sublist.append hl hl'

theorem Distinct.sublist {l commits : List LocalCommit} (h : Distinct commits) (hl : l.Sublist commits) :
    Distinct l :=
  List.Nodup.sublist (hl.map _) h

end UpdateLoop

/-! ## The runs that exit 0 -/

section Exit

variable {d : Driver} {commits : List LocalCommit} {onRemote : Str → Bool} {failures : Nat}

theorem finish_zero {r : Except Remote Tally} (h : (finish failures r).status = 0) :
    ∃ t, r = .ok t ∧ failures = 0 ∧ t.failures = 0 ∧ (finish failures r).remote = t.remote := by
  cases r with
  | error remote => exact absurd h (by simp [finish, abortStatus])
  | ok t =>
      have hzero : ¬ 0 < failures + t.failures := by
        intro hpos
        rw [finish, if_pos hpos] at h
        exact absurd h (by simp)
      exact ⟨t, rfl, by omega, by omega, rfl⟩

/-- The loop has run without a failure: its commits are delivered exactly if they reach the remote. -/
theorem delivered_of_loop {t : Tally} {collected : List LocalCommit} (hdistinct : Distinct collected)
    (hloop : commitLoop d commits { remote := Remote.before onRemote } = .ok t) (hf : t.failures = 0)
    (hcollected : processed d { remote := Remote.before onRemote } commits = collected) :
    (∀ c ∈ collected, Delivered d (Remote.before onRemote) t.remote c) ↔
      ∀ c ∈ collected, Reaches d onRemote true collected c := by
  refine delivered_iff_reaches hdistinct fun p => ?_
  have hremote := commitLoop_remote hloop hf (Nat.eq_zero_or_pos d.maxUpdates) p
  rwa [hcollected] at hremote

theorem distGit_iff (r : DistGitRun) (h : r.run.status = 0) :
    (Run.distGit r).Delivers ↔ (Run.distGit r).NothingLost := by
  unfold Run.Delivers Run.NothingLost Run.anyFailed Run.countsFailures Run.listed Run.collected
    Run.driver Run.onRemote Run.run
  simp only
  unfold DistGitRun.run at h ⊢
  have hcollected : r.collected = (r.updates.map (·.commits)).getD [] := rfl
  have htaken : r.taken = (r.updates.map (·.taken)).getD [] := rfl
  cases hu : r.updates with
  | none =>
      rw [hu] at h
      exact absurd h (by simp [abortStatus])
  | some u =>
      rw [hu] at h hcollected htaken
      simp only [Option.map_some, Option.getD_some] at h hcollected htaken ⊢
      obtain ⟨hcounted, l, hl, hcommits⟩ :=
        updateLoop_spec hu (show Updates.Counted {} from iff_of_true rfl rfl)
      have hdistinct : Distinct r.collected := by
        rw [hcollected, hcommits]
        exact r.distinct.sublist hl
      rw [← hcollected] at h ⊢
      split at h
      · -- the early exit: nothing is pushed, and the failures are not looked at
        rename_i hearly
        rw [if_pos hearly]
        have hcounts : (r.count && !r.collected.isEmpty) = false := by
          cases hc : r.count <;> simp_all
        rw [hcounts]
        refine and_congr (by simp) ?_
        cases hc : r.count with
        | false => exact delivered_iff_before
        | true =>
            have hnil : r.collected = [] := by simpa [hc] using hearly
            simp [hnil]
      · rename_i hearly
        rw [if_neg hearly]
        have hcounts : (r.count && !r.collected.isEmpty) = true := by
          cases hc : r.count <;> simp_all
        have hcount : r.count = true := (Bool.and_eq_true_iff.mp hcounts).1
        rw [hcounts, hcount, Bool.true_and]
        split at h
        · exact absurd h (by simp [abortStatus])
        · rename_i hreset
          rw [if_neg hreset]
          obtain ⟨t, hloop, hfu, hft, hremote⟩ := finish_zero h
          have hnone : r.taken.any UpdateStep.failed = false := by
            rw [htaken]
            exact hcounted.mp hfu
          rw [hremote, hnone]
          refine and_congr (by simp) ?_
          cases hlist : r.list with
          | true =>
              rw [hlist, if_pos rfl] at hloop
              exact delivered_of_loop hdistinct hloop hft rfl
          | false =>
              rw [hlist, if_neg Bool.false_ne_true] at hloop
              obtain rfl := Except.ok.inj hloop
              exact delivered_iff_before

theorem upstream_iff (r : UpstreamRun) (h : r.run.status = 0) :
    (Run.upstream r).Delivers ↔ (Run.upstream r).NothingLost := by
  unfold Run.Delivers Run.NothingLost Run.anyFailed Run.countsFailures Run.listed Run.collected
    Run.driver Run.onRemote Run.run
  simp only [true_imp_iff]
  refine and_congr_right fun _ => ?_
  have hdistinct : Distinct r.collected := by
    have hcommits : Distinct r.commits :=
      r.distinct.sublist ((List.takeWhile_sublist _).filterMap _)
    unfold UpstreamRun.collected
    split
    · exact hcommits
    · exact hcommits.sublist (List.take_sublist _ _)
  unfold UpstreamRun.run at h ⊢
  simp only at h ⊢
  split at h
  · rename_i hcheck
    rw [if_pos hcheck]
    -- the check reports nothing, so it has made no commit
    have hnil : r.collected = [] := by
      have hcommits : r.commits = [] := by
        unfold UpstreamRun.checkStatus at hcheck
        split at hcheck
        · exact absurd hcheck (by decide)
        · split at hcheck
          · exact absurd hcheck (by decide)
          · split at hcheck
            · exact absurd hcheck (by decide)
            · rename_i hupdate
              rw [UpstreamRun.commits, List.filterMap_eq_nil_iff]
              intro o ho
              have hno : o.hasUpdate = false := by
                have hmem := (List.takeWhile_sublist _).subset ho
                simp only [List.any_eq_true, not_exists, not_and, Bool.not_eq_true] at hupdate
                exact hupdate o hmem
              cases o with
              | updated c => exact absurd hno (by simp [CheckOutcome.hasUpdate])
              | _ => rfl
      simp [UpstreamRun.collected, hcommits]
    simp [hnil]
  · rename_i hcheck
    rw [if_neg hcheck]
    split at h
    · exact absurd h (by simp)
    · rename_i hcount
      rw [if_neg hcount]
      split at h
      · exact absurd h (by simp [abortStatus])
      · rename_i hreset
        rw [if_neg hreset]
        obtain ⟨t, hloop, -, hft, hremote⟩ := finish_zero h
        rw [hremote]
        cases hlist : r.list with
        | true =>
            rw [hlist, if_pos rfl] at hloop
            exact delivered_of_loop hdistinct hloop hft rfl
        | false =>
            rw [hlist, if_neg Bool.false_ne_true] at hloop
            obtain rfl := Except.ok.inj hloop
            exact delivered_iff_before

theorem takePackages_sublist {n : Nat} : (takePackages d n commits).Sublist commits := by
  induction commits generalizing n with
  | nil => exact List.Sublist.refl _
  | cons c cs ih =>
      rw [takePackages_cons]
      split
      · exact ih.cons_cons c
      · split
        · exact (List.nil_sublist cs).cons_cons c
        · exact ih.cons_cons c

theorem rebuild_iff (r : RebuildRun) (h : r.run.status = 0) :
    (Run.rebuild r).Delivers ↔ (Run.rebuild r).NothingLost := by
  unfold Run.Delivers Run.NothingLost Run.anyFailed Run.countsFailures Run.listed Run.collected
    Run.driver Run.onRemote Run.run
  simp only [true_and, Bool.true_eq_false, false_imp_iff]
  have hdistinct : Distinct r.collected := by
    unfold RebuildRun.collected
    split
    · exact r.distinct
    · exact r.distinct.sublist takePackages_sublist
  unfold RebuildRun.run at h ⊢
  simp only at h ⊢
  split at h
  · exact absurd h (by simp)
  · rename_i hbase
    rw [if_neg hbase]
    split at h
    · rename_i hearly
      rw [if_pos hearly]
      cases hlist : r.list with
      | false => exact delivered_iff_before
      | true =>
          have hnil : r.collected = [] := by
            have hcommits : r.commits = [] := by simpa [hlist] using hearly
            unfold RebuildRun.collected
            split
            · exact hcommits
            · rw [hcommits, takePackages]
          simp [hnil]
    · rename_i hearly
      rw [if_neg hearly]
      have hlist : r.list = true := by
        cases hl : r.list with
        | true => rfl
        | false => exact absurd (by simp [hl]) hearly
      split at h
      · exact absurd h (by simp [abortStatus])
      · rename_i habbrev
        rw [if_neg habbrev, hlist]
        obtain ⟨t, hloop, -, hft, hremote⟩ := finish_zero h
        rw [hremote]
        exact delivered_of_loop hdistinct hloop hft rfl

end Exit

/-! ## Runs -/

/-- A commit of `dist_git.py rebuild` on a package. -/
def rebuildCommit (sha package : Str) : LocalCommit where
  sha := sha
  subject := "Rebuild ".toList ++ package ++ ": new buildroot".toList
  metadata := []
  answers := {}

/-- One rebuilt package, and a remote without branches. -/
def gccRebuildRun : RebuildRun where
  force := false
  maxUpdates := 0
  commits := [rebuildCommit "a1" "gcc"]
  onRemote _ := false
  distinct := by decide

/-- An update that fails, and no other package. -/
def failedRun : DistGitRun where
  maxUpdates := 0
  steps := [{ package := "gcc", exitCode := 1, commit := none }]
  onRemote _ := false
  distinct := by decide

/-- One package is updated, and one is not. -/
def halfFailedRun : UpstreamRun where
  maxUpdates := 0
  outcomes := [.updated ⟨"a1", "Update curl to 8.17.0", ["metadata/curl.json"], {}⟩, .updateFailed]
  onRemote _ := false
  distinct := by decide

/-- A package that has been rebuilt twice. -/
def twiceRun : RebuildRun where
  force := true
  maxUpdates := 0
  commits := [rebuildCommit "a1" "gcc", rebuildCommit "a2" "gcc"]
  onRemote _ := false
  distinct := by decide

end HummingbirdRpms.MultiMr
