/-
# HummingbirdRpms.KonfluxGate — the gate before a merge request is approved.

`ci/check_konflux_statuses.py` polls the statuses of a commit until Konflux has posted one, and returns 0
then unless one of them is failed.  GitLab serves the statuses of a commit, those of all pipelines, in pages;
the script asks for a page of a hundred, the first one.

**`konflux_gated_iff`** — what the gate promises holds of a sequence of polls exactly if, at every poll the script
comes to, a failed Konflux status of the commit means that the first page has one too.
-/
import HummingbirdRpms.Lib.Text

namespace HummingbirdRpms.KonfluxGate

open Lib Lib.Text

/-! ## The script -/

/-- A status of a commit, as far as the gate reads it: `s.get("name", "")` and `s.get("status")`. -/
structure CommitStatus where
  name : Str
  status : Str
deriving DecidableEq

/-- `KONFLUX_NAME_PREFIX` -/
def konfluxNamePrefix : Str := "Konflux kflux-prd-rh03 /".toList

/-- A page of what GitLab serves, the first one being page 1. -/
def servedPage (perPage page : Nat) (statuses : List CommitStatus) : List CommitStatus :=
  (statuses.drop ((page - 1) * perPage)).take perPage

/-- `get_commit_statuses`, on the statuses of the commit: the query is `?per_page=100`. -/
def getCommitStatuses (statuses : List CommitStatus) : List CommitStatus := servedPage 100 1 statuses

/-- `filter_konflux_statuses` -/
def filterKonfluxStatuses (statuses : List CommitStatus) : List CommitStatus :=
  statuses.filter fun s => startsWith konfluxNamePrefix s.name

/-- What `check_statuses` says. -/
inductive StatusResult where
  | invoked
  | missing
  | failed
deriving DecidableEq

/-- `check_statuses` -/
def checkStatuses (konfluxStatuses : List CommitStatus) : StatusResult :=
  if konfluxStatuses = [] then .missing
  else if konfluxStatuses.filter (·.status = "failed".toList) ≠ [] then .failed
  else .invoked

/-- A poll: the statuses that are on the commit then, and what the clock says after they were read. -/
structure Poll where
  statuses : List CommitStatus
  now : Int

/-- The loop of `main`: what it has returned after these polls, if it has. -/
def pollLoop (deadline : Int) : List Poll → Option Nat
  | [] => none
  | p :: polls =>
      match checkStatuses (filterKonfluxStatuses (getCommitStatuses p.statuses)) with
      | .invoked => some 0
      | .failed => some 1
      | .missing => if deadline - p.now ≤ 0 then some 1 else pollLoop deadline polls

attribute [local simp] pollLoop

/-- `main`, started when the clock says `start`. -/
def main (start pollTimeout : Int) (polls : List Poll) : Option Nat := pollLoop (start + pollTimeout) polls

/-! ## What the gate promises -/

/-- The statuses that Konflux has posted. -/
abbrev Poll.konflux (p : Poll) : List CommitStatus := filterKonfluxStatuses p.statuses

/-- One of the statuses is failed. -/
def HasFailed (statuses : List CommitStatus) : Prop := ∃ s ∈ statuses, s.status = "failed".toList

/-- The gate's promise about a sequence of polls: at each one that is made, because nothing was returned
before it. -/
structure Gated (start pollTimeout : Int) (polls : List Poll) : Prop where
  approves : ∀ before p after, polls = before ++ p :: after → main start pollTimeout before = none →
    main start pollTimeout (before ++ [p]) = some 0 → p.konflux ≠ [] ∧ ¬ HasFailed p.konflux
  refuses : ∀ before p after, polls = before ++ p :: after → main start pollTimeout before = none →
    HasFailed p.konflux → main start pollTimeout (before ++ [p]) = some 1
  ends : ∀ before p after, polls = before ++ p :: after → main start pollTimeout before = none →
    start + pollTimeout ≤ p.now → main start pollTimeout (before ++ [p]) ≠ some 0 →
      main start pollTimeout (before ++ [p]) = some 1

variable {statuses : List CommitStatus} {before after polls : List Poll} {p : Poll}
  {start pollTimeout deadline : Int}

/-! ## A poll -/

/-- The first page is the first hundred statuses. -/
theorem getCommitStatuses_eq (statuses : List CommitStatus) : getCommitStatuses statuses = statuses.take 100 := rfl

theorem checkStatuses_missing : checkStatuses statuses = .missing ↔ statuses = [] := by
  rw [checkStatuses]
  split
  · simpa
  · split <;> simpa

theorem checkStatuses_failed : checkStatuses statuses = .failed ↔ HasFailed statuses := by
  have hfilter : statuses.filter (·.status = "failed".toList) ≠ [] ↔ HasFailed statuses := by
    rw [Ne, List.filter_eq_nil_iff]
    simp [HasFailed]
  rw [checkStatuses]
  by_cases hnil : statuses = []
  · simp [hnil, HasFailed]
  · rw [if_neg hnil, ← hfilter]
    by_cases hfailed : statuses.filter (·.status = "failed".toList) = []
    · simp only [hfailed, ne_eq, not_true_eq_false, if_false, reduceCtorEq]
    · simp only [hfailed, ne_eq, not_false_eq_true, if_true]

theorem checkStatuses_invoked : checkStatuses statuses = .invoked ↔ statuses ≠ [] ∧ ¬ HasFailed statuses := by
  rw [Ne, ← checkStatuses_missing, ← checkStatuses_failed]
  cases checkStatuses statuses <;> decide

/-- The Konflux statuses of the first page. -/
theorem page_subset : filterKonfluxStatuses (getCommitStatuses p.statuses) ⊆ p.konflux := by
  intro s hs
  obtain ⟨hmem, hname⟩ := List.mem_filter.mp hs
  exact List.mem_filter.mpr ⟨List.mem_of_mem_take hmem, hname⟩

/-! ## The polls -/

/-- A poll that ends the loop. -/
theorem pollLoop_cons_ends (h : filterKonfluxStatuses (getCommitStatuses p.statuses) ≠ [] ∨ deadline ≤ p.now) :
    ∃ code, pollLoop deadline (p :: polls) = some code := by
  rw [pollLoop]
  cases hcheck : checkStatuses (filterKonfluxStatuses (getCommitStatuses p.statuses)) with
  | invoked => exact ⟨0, rfl⟩
  | failed => exact ⟨1, rfl⟩
  | missing =>
      rcases h with hne | htime
      · exact absurd (checkStatuses_missing.mp hcheck) hne
      · exact ⟨1, if_pos (by omega)⟩

/-- A poll that does not: the first page has no Konflux status, and there is time left. -/
theorem pollLoop_cons_waits (hnone : filterKonfluxStatuses (getCommitStatuses p.statuses) = [])
    (htime : p.now < deadline) : pollLoop deadline (p :: polls) = pollLoop deadline polls := by
  rw [pollLoop, hnone]
  exact if_neg (by omega)

/-- The loop goes on as long as the first pages have no Konflux status and there is time left. -/
theorem pollLoop_none : pollLoop deadline polls = none ↔
    ∀ q ∈ polls, filterKonfluxStatuses (getCommitStatuses q.statuses) = [] ∧ q.now < deadline := by
  induction polls with
  | nil => simp [pollLoop]
  | cons q polls ih =>
      rw [List.forall_mem_cons, ← ih]
      by_cases hq : filterKonfluxStatuses (getCommitStatuses q.statuses) = [] ∧ q.now < deadline
      · rw [pollLoop_cons_waits hq.1 hq.2]
        exact ⟨fun h => ⟨hq, h⟩, And.right⟩
      · have hends := @pollLoop_cons_ends polls _ _ ((not_and_or.mp hq).imp_right Int.not_lt.mp)
        obtain ⟨code, hcode⟩ := hends
        rw [hcode]
        exact ⟨fun h => (Option.some_ne_none code h).elim, fun h => (hq h.1).elim⟩

/-- Once the polls before have come to nothing, the next one decides. -/
theorem pollLoop_append (h : pollLoop deadline before = none) :
    pollLoop deadline (before ++ after) = pollLoop deadline after := by
  induction before with
  | nil => rfl
  | cons q before ih =>
      obtain ⟨⟨hnone, htime⟩, hrest⟩ := List.forall_mem_cons.mp (pollLoop_none.mp h)
      rw [List.cons_append, pollLoop_cons_waits hnone htime]
      exact ih (pollLoop_none.mpr hrest)

/-- What the script sees of a poll. -/
abbrev Poll.seen (p : Poll) : List CommitStatus := filterKonfluxStatuses (getCommitStatuses p.statuses)

/-- What a poll returns. -/
theorem pollLoop_single : pollLoop deadline [p] =
    match checkStatuses p.seen with
    | .invoked => some 0
    | .failed => some 1
    | .missing => if deadline ≤ p.now then some 1 else none := by
  rw [pollLoop]
  cases checkStatuses p.seen with
  | invoked => rfl
  | failed => rfl
  | missing => exact if_congr (by omega) rfl rfl

/-- The promise at one poll. -/
structure GatedAt (deadline : Int) (p : Poll) : Prop where
  approves : pollLoop deadline [p] = some 0 → p.konflux ≠ [] ∧ ¬ HasFailed p.konflux
  refuses : HasFailed p.konflux → pollLoop deadline [p] = some 1
  ends : deadline ≤ p.now → pollLoop deadline [p] ≠ some 0 → pollLoop deadline [p] = some 1

/-- A failure that the commit shows is seen, or nothing is and the time is over. -/
def Shown (deadline : Int) (p : Poll) : Prop :=
  HasFailed p.konflux → HasFailed p.seen ∨ p.seen = [] ∧ deadline ≤ p.now

/-- The promise holds at a poll exactly if a failure is shown. -/
theorem gatedAt_iff : GatedAt deadline p ↔ Shown deadline p := by
  cases hcheck : checkStatuses p.seen with
  | invoked =>
      obtain ⟨hne, hnone⟩ := checkStatuses_invoked.mp hcheck
      have hcode : pollLoop deadline [p] = some 0 := by rw [pollLoop_single, hcheck]
      have hany : p.konflux ≠ [] := by
        obtain ⟨s, hs⟩ := List.exists_mem_of_ne_nil _ hne
        exact List.ne_nil_of_mem (page_subset hs)
      constructor
      · intro h hfailed
        exact absurd hfailed (h.approves hcode).2
      · intro h
        have hnot : ¬ HasFailed p.konflux := fun hfailed => (h hfailed).elim hnone fun hnil => hne hnil.1
        exact ⟨fun _ => ⟨hany, hnot⟩, fun hfailed => absurd hfailed hnot, fun _ hother => absurd hcode hother⟩
  | failed =>
      have hseen := checkStatuses_failed.mp hcheck
      have hcode : pollLoop deadline [p] = some 1 := by rw [pollLoop_single, hcheck]
      refine ⟨fun _ _ => Or.inl hseen, fun _ => ⟨fun hzero => ?_, fun _ => hcode, fun _ _ => hcode⟩⟩
      rw [hcode] at hzero
      cases hzero
  | missing =>
      have hnil := checkStatuses_missing.mp hcheck
      have hcode : pollLoop deadline [p] = if deadline ≤ p.now then some 1 else none := by
        rw [pollLoop_single, hcheck]
      have hzero : pollLoop deadline [p] ≠ some 0 := by
        rw [hcode]
        split <;> simp
      constructor
      · intro h hfailed
        by_cases htime : deadline ≤ p.now
        · exact Or.inr ⟨hnil, htime⟩
        · have hone := h.refuses hfailed
          rw [hcode, if_neg htime] at hone
          cases hone
      · intro h
        refine ⟨fun h0 => absurd h0 hzero, fun hfailed => ?_, fun htime _ => by rw [hcode, if_pos htime]⟩
        rcases h hfailed with ⟨s, hs, -⟩ | ⟨-, htime⟩
        · rw [hnil] at hs
          cases hs
        · rw [hcode, if_pos htime]

/-- **`konflux_gated_iff`** — the promise holds of a sequence of polls exactly if a failure of the commit is shown
at each poll that is made: no Konflux status was seen at the polls before it, and there was time left. -/
theorem konflux_gated_iff : Gated start pollTimeout polls ↔
    ∀ before p after, polls = before ++ p :: after →
      (∀ q ∈ before, q.seen = [] ∧ q.now < start + pollTimeout) → Shown (start + pollTimeout) p := by
  have hat : ∀ before p, main start pollTimeout before = none →
      main start pollTimeout (before ++ [p]) = pollLoop (start + pollTimeout) [p] :=
    fun before p hnone => pollLoop_append hnone
  constructor
  · intro h before p after hsplit hwaits
    have hnone : main start pollTimeout before = none := pollLoop_none.mpr hwaits
    have hcode := hat before p hnone
    refine gatedAt_iff.mp ⟨?_, ?_, ?_⟩
    · rw [← hcode]
      exact h.approves before p after hsplit hnone
    · rw [← hcode]
      exact h.refuses before p after hsplit hnone
    · rw [← hcode]
      exact h.ends before p after hsplit hnone
  · intro h
    have hgated : ∀ before p after, polls = before ++ p :: after → main start pollTimeout before = none →
        GatedAt (start + pollTimeout) p := fun before p after hsplit hnone =>
      gatedAt_iff.mpr (h before p after hsplit (pollLoop_none.mp hnone))
    constructor
    · intro before p after hsplit hnone
      rw [hat before p hnone]
      exact (hgated before p after hsplit hnone).approves
    · intro before p after hsplit hnone
      rw [hat before p hnone]
      exact (hgated before p after hsplit hnone).refuses
    · intro before p after hsplit hnone
      rw [hat before p hnone]
      exact (hgated before p after hsplit hnone).ends

/-! ## A commit with many statuses -/

/-- A pipeline of Konflux that has succeeded, and one that has failed. -/
def succeeded : CommitStatus := ⟨konfluxNamePrefix ++ " build".toList, "success".toList⟩

def failedRun : CommitStatus := ⟨konfluxNamePrefix ++ " rust-main-on-pull-request".toList, "failed".toList⟩

/-- The failed status is the hundred and first: it is not on the page, and the merge request is approved. -/
theorem failure_on_second_page :
    main 0 7200 [⟨List.replicate 100 succeeded ++ [failedRun], 1⟩] = some 0 ∧
      ¬ Gated 0 7200 [⟨List.replicate 100 succeeded ++ [failedRun], 1⟩] := by
  have hcode : main 0 7200 [⟨List.replicate 100 succeeded ++ [failedRun], 1⟩] = some 0 := by decide +kernel
  refine ⟨hcode, fun h => ?_⟩
  have hnot := (h.approves [] _ [] rfl rfl hcode).2
  refine hnot ⟨failedRun, List.mem_filter.mpr ⟨List.mem_append_right _ List.mem_cons_self, ?_⟩, rfl⟩
  decide

end HummingbirdRpms.KonfluxGate
