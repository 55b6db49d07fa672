/-
# HummingbirdRpms.BranchMoves — which moves between branches go forward.

`update --branch` lets a package's version go down when `_is_forward_branch_move` of `ci/dist_git.py` says
that the move goes forward: to a higher Fedora release, or from rawhide to a numbered one.  It compares
dist tags, which `get_dist_tag` looks up in the table of active releases, for the new branch and for the
old one; and a move from rawhide is forward before the new branch is looked at.

**`moveClassified_iff`** — to an active branch, a move is classified as it should be, and does not end the
update, exactly when a move from rawhide goes to a numbered release and any other move comes from a
branch that is still in the table.  **`misclassified_moves`** has a move of either other kind.
-/
import HummingbirdRpms.Update

namespace HummingbirdRpms

open Lib Lib.Text Lib.Regex Lib.Exec

section

variable [UnicodeTables] {env : Env} {branch old new tag : Str} {n : Nat}

/-! ## Numbers of releases -/

omit [UnicodeTables] in
theorem mem_of_lookup_eq_some {table : List (Str × Str)} (h : table.lookup branch = some tag) :
    (branch, tag) ∈ table := by
  obtain ⟨before, after, rfl, -⟩ := List.lookup_eq_some_iff.mp h
  exact List.mem_append_right _ List.mem_cons_self

/-- The number of the Fedora release a branch stands for.  For rawhide it is the highest of the table, for
a branch of the table the number of its dist tag, and for one that is no longer there that of its name. -/
def branchNumber (env : Env) (branch : Str) : Option Nat :=
  if branch = "rawhide".toList then (env.fedoraReleases.filterMap fun r => fedoraNumber r.2).max?
  else
    match env.fedoraReleases.lookup branch with
    | some tag => fedoraNumber tag
    | none => fedoraNumber branch

/-- A branch of which the dist tag is known. -/
def Active (env : Env) (branch : Str) : Prop := ∃ tag, getDistTag env branch = .ok tag

theorem prefix_of_fedoraNumber (h : fedoraNumber tag = some n) : "f".toList <+: tag := by
  obtain ⟨m, hm, -⟩ := Option.map_eq_some_iff.mp h
  obtain ⟨e, he, -⟩ := Option.map_eq_some_iff.mp hm
  have hrun := List.mem_of_mem_head? he
  simp only [fedoraTagRe, Re.seq] at hrun
  obtain ⟨s, hs, -⟩ := mem_run_cat.mp hrun
  exact (mem_run_lit.mp hs).1

theorem prefix_of_centosBranch {m : Match} (h : matchAt centosBranchRe branch 0 = some m) : "c".toList <+: branch := by
  obtain ⟨e, he, -⟩ := Option.map_eq_some_iff.mp h
  have hrun := List.mem_of_mem_head? he
  simp only [centosBranchRe, Re.seq] at hrun
  obtain ⟨s, hs, -⟩ := mem_run_cat.mp hrun
  exact (mem_run_lit.mp hs).1

/-- Neither a CentOS branch nor its dist tag has a number. -/
theorem fedoraNumber_of_head {c : Char} (h : tag.head? = some c) (hc : c ≠ 'f') : fedoraNumber tag = none := by
  cases hnumber : fedoraNumber tag with
  | none => rfl
  | some n =>
      obtain ⟨u, rfl⟩ := prefix_of_fedoraNumber hnumber
      exact absurd (Option.some.inj h).symm hc

/-- The tag that rawhide is resolved to has the number it was made from. -/
theorem fedoraNumber_ofNat : fedoraNumber ("f".toList ++ ofNat n) = some n := by
  have hdigits : ∀ c ∈ ofNat n, isDigit c = true := fun c hc => isDigit_of_ascii (isAsciiDigit_of_mem_ofNat hc)
  have hdrop : ("f".toList ++ ofNat n).drop 1 = ofNat n ++ [] := by simp
  have hlen : ("f".toList ++ ofNat n).length = 1 + (ofNat n).length := by
    rw [List.length_append]
    rfl
  have hlit : run ("f".toList ++ ofNat n) (.lit "f") ⟨0, []⟩ = [⟨1, []⟩] :=
    run_lit_of_drop (u := ofNat n) (by simp)
  have hlongest : Longest ("f".toList ++ ofNat n) (Re.some1 isDigit) ⟨1, []⟩ (ofNat n).length :=
    longest_some1 hdrop (ofNat_ne_nil n) hdigits rfl
  have hinside : ∀ k caps, 0 < k → k < (ofNat n).length →
      run ("f".toList ++ ofNat n) .eot ⟨1 + k, caps⟩ = [] := by
    intro k caps _ hk
    -- inside of the number neither the end of the text nor a last line break is ahead
    show (if _ then _ else _) = _
    rw [if_neg]
    rintro (hend | hbreak)
    · have hend : ("f".toList ++ ofNat n).length ≤ 1 + k := hend
      rw [hlen] at hend
      omega
    · have hnext : ("f".toList ++ ofNat n).drop (1 + k) = (ofNat n).drop k := by
        rw [← List.drop_drop, hdrop, List.append_nil]
      rw [hnext] at hbreak
      have hmem : '\n' ∈ ofNat n := List.mem_of_mem_drop (by rw [hbreak]; exact List.mem_singleton_self _)
      exact absurd (isAsciiDigit_of_mem_ofNat hmem) (by decide)
  have hgroup := hlongest.run_group_cat (i := 1) hdrop hinside
  have hend : run ("f".toList ++ ofNat n) .eot ⟨1 + (ofNat n).length, [(1, ofNat n)]⟩ =
      [⟨1 + (ofNat n).length, [(1, ofNat n)]⟩] := by
    rw [run_eot, if_pos (Or.inl (by rw [hlen]))]
  have hrun : run ("f".toList ++ ofNat n) fedoraTagRe ⟨0, []⟩ = [⟨1 + (ofNat n).length, [(1, ofNat n)]⟩] := by
    show run _ (.cat (.lit "f") (.cat (.group 1 (Re.some1 isDigit)) .eot)) _ = _
    rw [run_cat, hlit, List.flatMap_singleton, hgroup]
    exact hend
  rw [fedoraNumber, matchAt_of_head? (e := ⟨1 + (ofNat n).length, [(1, ofNat n)]⟩) (by rw [hrun]; rfl)]
  simp [Match.group, intOfDigits_ofNat]

/-- The number of a branch is the number of its dist tag, where that is known. -/
theorem branchNumber_of_getDistTag (h : getDistTag env branch = .ok tag) :
    branchNumber env branch = fedoraNumber tag := by
  have hlookup : branch ≠ "rawhide".toList → lookupDistTag env branch = .ok tag →
      branchNumber env branch = fedoraNumber tag := by
    intro hne h
    unfold lookupDistTag at h
    rw [branchNumber, if_neg hne]
    cases htag' : env.fedoraReleases.lookup branch with
    | some tag' =>
        rw [htag'] at h
        exact congrArg fedoraNumber (Except.ok.inj h)
    | none =>
        rw [htag'] at h
        dsimp only at h ⊢
        split at h
        · rename_i m hm
          obtain rfl := Except.ok.inj h
          obtain ⟨u, rfl⟩ := prefix_of_centosBranch hm
          rw [fedoraNumber_of_head (c := 'c') rfl (by decide), fedoraNumber_of_head (c := 'e') rfl (by decide)]
        · exact absurd h (by simp [exit])
  unfold getDistTag at h
  split at h
  · rename_i hrawhide
    subst hrawhide
    rw [branchNumber, if_pos rfl]
    unfold getHighestFedoraRelease at h
    cases hnumbers : env.fedoraReleases.filterMap fun r => fedoraNumber r.2 with
    | cons n ns =>
        rw [hnumbers] at h
        obtain rfl := Except.ok.inj h
        rw [fedoraNumber_ofNat, List.max?_cons']
    | nil =>
        -- an entry of the table for rawhide itself has no number either
        rw [hnumbers] at h
        have h : lookupDistTag env "rawhide" = .ok tag := h
        unfold lookupDistTag at h
        split at h
        · rename_i tag' htag'
          obtain rfl := Except.ok.inj h
          have hmem := mem_of_lookup_eq_some htag'
          have hnone : fedoraNumber tag' = none := List.filterMap_eq_nil_iff.mp hnumbers _ hmem
          rw [hnone]
          rfl
        · split at h
          · rename_i m hm
            exact absurd (prefix_of_centosBranch hm) (by decide)
          · exact absurd h (by simp [exit])
  · rename_i hne
    exact hlookup hne h

/-- A numbered release other than rawhide that is active makes rawhide one with a number. -/
theorem branchNumber_rawhide_isSome (h : Active env new) (hnumber : branchNumber env new = some n) :
    (branchNumber env "rawhide").isSome := by
  by_cases hrawhide : new = "rawhide".toList
  · rw [← hrawhide, hnumber]
    rfl
  · obtain ⟨tag, htag⟩ := h
    rw [branchNumber_of_getDistTag htag] at hnumber
    unfold getDistTag at htag
    rw [if_neg hrawhide] at htag
    unfold lookupDistTag at htag
    split at htag
    · rename_i tag' htag'
      obtain rfl := Except.ok.inj htag
      have hmem : n ∈ env.fedoraReleases.filterMap fun r => fedoraNumber r.2 :=
        List.mem_filterMap.mpr ⟨(new, tag'), mem_of_lookup_eq_some htag', hnumber⟩
      have hsome : ((env.fedoraReleases.filterMap fun r => fedoraNumber r.2).max?).isSome :=
        List.isSome_max?_of_mem hmem
      rw [branchNumber, if_pos rfl]
      exact hsome
    · split at htag
      · rename_i m hm
        obtain rfl := Except.ok.inj htag
        exact absurd hnumber (by rw [fedoraNumber_of_head (c := 'e') rfl (by decide)]; simp)
      · exact absurd htag (by simp [exit])

/-! ## Moves -/

/-- A move to a numbered release, from a lower one or from rawhide. -/
def Forward (env : Env) (old new : Str) : Prop :=
  ∃ n, branchNumber env new = some n ∧ (old = "rawhide".toList ∨ ∃ m, branchNumber env old = some m ∧ m < n)

/-- A move between a release of Fedora and a branch of another distribution. -/
def CrossDistribution (env : Env) (old new : Str) : Prop :=
  (branchNumber env old).isSome ≠ (branchNumber env new).isSome

/-- How a move should be classified.  The check of versions, which is where `update` asks, gets an answer. -/
structure MoveClassified (env : Env) (old new : Str) : Prop where
  forward : ∃ b, isForwardBranchMove env true old new = .ok b ∧ (b = true ↔ Forward env old new)
  cross : CrossDistribution env old new → isForwardBranchMove env true old new = .ok false
  update : ∀ t args version release, t.oldBranch = old → t.effectiveBranch = new → t.branchChanged = true →
    ∃ admitted, versionAdmitted env t args version release = .ok admitted

/-- The answer, from two known dist tags. -/
theorem isForwardBranchMove_of_active {oldTag newTag : Str} (hne : old ≠ "rawhide".toList)
    (hold : getDistTag env old = .ok oldTag) (hnew : getDistTag env new = .ok newTag) :
    ∃ b, isForwardBranchMove env true old new = .ok b ∧ (b = true ↔ Forward env old new) := by
  have hrun : isForwardBranchMove env true old new =
      .ok ((fedoraNumber oldTag).any fun m => (fedoraNumber newTag).any fun n => decide (n > m)) := by
    simp only [isForwardBranchMove, Bool.not_true, Bool.false_eq_true, if_false, if_neg hne, hold, hnew,
      except_bind_ok]
    cases fedoraNumber oldTag with
    | none => rfl
    | some m =>
        cases fedoraNumber newTag with
        | none => rfl
        | some n => rfl
  rw [hrun, Forward, branchNumber_of_getDistTag hold, branchNumber_of_getDistTag hnew]
  cases fedoraNumber oldTag with
  | none => exact ⟨false, rfl, iff_of_false (by simp) (by rintro ⟨n, -, h | ⟨m, hm, -⟩⟩; exacts [hne h, by simp at hm])⟩
  | some m =>
      cases fedoraNumber newTag with
      | none => exact ⟨false, rfl, iff_of_false (by simp) (by rintro ⟨n, hn, -⟩; simp at hn)⟩
      | some n =>
          refine ⟨decide (n > m), rfl, ?_⟩
          rw [decide_eq_true_eq]
          constructor
          · intro hlt
            exact ⟨n, rfl, Or.inr ⟨m, rfl, hlt⟩⟩
          · rintro ⟨n', hn', h | ⟨m', hm', hlt⟩⟩
            · exact absurd h hne
            · obtain rfl := Option.some.inj hn'
              obtain rfl := Option.some.inj hm'
              exact hlt

/-- **`moveClassified_iff`** — a move to an active branch is classified as it should be exactly when it goes
from rawhide to a numbered release, or comes from a branch other than rawhide that is active. -/
theorem moveClassified_iff (hactive : Active env new) :
    MoveClassified env old new ↔
      (old = "rawhide".toList → (branchNumber env new).isSome) ∧ (old ≠ "rawhide".toList → Active env old) := by
  constructor
  · intro h
    obtain ⟨b, hb, hforward⟩ := h.forward
    refine ⟨?_, ?_⟩
    · rintro rfl
      -- the shortcut answers before the new branch is looked at
      obtain rfl := Except.ok.inj (hb.symm.trans (rfl : isForwardBranchMove env true "rawhide" new = .ok true))
      obtain ⟨n, hn, -⟩ := hforward.mp rfl
      rw [hn]
      rfl
    · intro hne
      unfold isForwardBranchMove at hb
      rw [if_neg (by simp), if_neg hne] at hb
      obtain ⟨oldTag, hold, -⟩ := except_bind_ok_iff.mp hb
      exact ⟨oldTag, hold⟩
  · rintro ⟨hrawhide, hold⟩
    obtain ⟨newTag, hnew⟩ := hactive
    obtain ⟨b, hb, hforward⟩ : ∃ b, isForwardBranchMove env true old new = .ok b ∧ (b = true ↔ Forward env old new) := by
      by_cases hcase : old = "rawhide".toList
      · subst hcase
        obtain ⟨n, hn⟩ := Option.isSome_iff_exists.mp (hrawhide rfl)
        exact ⟨true, rfl, iff_of_true rfl ⟨n, hn, Or.inl rfl⟩⟩
      · obtain ⟨oldTag, hold⟩ := hold hcase
        exact isForwardBranchMove_of_active hcase hold hnew
    refine ⟨⟨b, hb, hforward⟩, ?_, ?_⟩
    · intro hcross
      cases b with
      | false => exact hb
      | true =>
          obtain ⟨n, hn, hfrom⟩ := hforward.mp rfl
          exfalso
          apply hcross
          rcases hfrom with rfl | ⟨m, hm, -⟩
          · rw [branchNumber_rawhide_isSome ⟨newTag, hnew⟩ hn, hn]
            rfl
          · rw [hm, hn]
            rfl
    · rintro t args version release rfl rfl hchanged
      unfold versionAdmitted
      cases args.sync with
      | true => exact ⟨_, rfl⟩
      | false =>
          rw [hchanged, if_neg (by simp), hb]
          exact ⟨_, rfl⟩

end

/-! ### The other moves -/

/-- An environment in which f43 and f44 are active. -/
def twoReleases : Env := { Env.offline with fedoraReleases := [("f43", "f43"), ("f44", "f44")] }

theorem active_next : letI := asciiTables; Active twoReleases "f44" := ⟨"f44".toList, rfl⟩

/-- A move to the next release. -/
theorem next_release_classified : letI := asciiTables; MoveClassified twoReleases "f43" "f44" := by
  let _ := asciiTables
  apply (moveClassified_iff active_next).mpr
  exact ⟨fun h => absurd h (by decide +kernel), fun _ => ⟨"f43".toList, rfl⟩⟩

/-- **`misclassified_moves`** — a move from rawhide to CentOS Stream is taken for a forward one, and a move
from a release that is no longer in the table ends the update. -/
theorem misclassified_moves :
    letI := asciiTables
    ¬ MoveClassified twoReleases "rawhide" "c10s" ∧ ¬ MoveClassified twoReleases "f42" "f43" := by
  let _ := asciiTables
  have hforward : isForwardBranchMove twoReleases true "rawhide" "c10s" = .ok true := rfl
  have hexit : ∃ e, isForwardBranchMove twoReleases true "f42" "f43" = .error e := ⟨_, rfl⟩
  refine ⟨?_, ?_⟩
  · intro h
    have hcross : CrossDistribution twoReleases "rawhide" "c10s" := by
      unfold CrossDistribution
      decide +kernel
    exact absurd (hforward.symm.trans (h.cross hcross)) (by simp)
  · intro h
    obtain ⟨e, he⟩ := hexit
    obtain ⟨b, hb, -⟩ := h.forward
    exact absurd (hb.symm.trans he) (by simp)

end HummingbirdRpms
