/-
# HummingbirdRpms.TestResults — the results of the tests of several RPMs (`ci/run_tests_rpm.sh`).

The tests of each RPM run in a function, at once for several RPMs where `--jobs` allows it.  The function
writes its counters and the URLs of the known issues it has met as assignments into a file, and the script
reads that file by executing it.  A worker runs under `errexit`; the sequential call stands before `|| true`,
which switches `errexit` off for all of it.

**`pool_waits`** is about the jobs: in whatever order the workers end, none is left when the results are
read.  **`results_survive_iff`** says for which tests, settings and files the results survive: every RPM must
have written them, the known issues of an RPM must be one word that the shell takes as it stands, and a
command of the script that fails unnoticed must not be all that is wrong.
-/
import Mathlib.Data.List.Count
import HummingbirdRpms.Runtime

namespace HummingbirdRpms.TestResults

open Lib Lib.Text Lib.Exec

/-! ## The tests of one RPM -/

/-- How a test is counted; a known failure has the URL of its issue, which can be empty. -/
inductive Outcome where
  | passed
  | known (issueUrl : Str)
  | failed
  | unexpectedPass
  deriving DecidableEq

/-- A round of the loop over the tests.  It is broken where a command of the script itself fails, with that
status and one; where `errexit` is off it goes on, and the test is counted nevertheless. -/
inductive TestRun where
  | ran (outcome : Outcome)
  | broke (status : Nat) (outcome : Outcome)
  deriving DecidableEq

/-- The counters that are written to `results.txt`. -/
structure Counters where
  totalTests : Nat := 0
  passedTests : Nat := 0
  failedTests : Nat := 0
  knownIssueTests : Nat := 0
  unexpectedPassTests : Nat := 0
  deriving DecidableEq

instance : Zero Counters := ⟨{}⟩

instance : Add Counters where
  add a b :=
    { totalTests := a.totalTests + b.totalTests
      passedTests := a.passedTests + b.passedTests
      failedTests := a.failedTests + b.failedTests
      knownIssueTests := a.knownIssueTests + b.knownIssueTests
      unexpectedPassTests := a.unexpectedPassTests + b.unexpectedPassTests }

/-- What a test adds to the counters. -/
def Outcome.counters : Outcome → Counters
  | .passed => { totalTests := 1, passedTests := 1 }
  | .known _ => { totalTests := 1, knownIssueTests := 1 }
  | .failed => { totalTests := 1, failedTests := 1 }
  | .unexpectedPass => { totalTests := 1, unexpectedPassTests := 1 }

/-- What a test adds to `known_issues_found`. -/
def Outcome.issues : Outcome → List Str
  | .known issueUrl => if issueUrl ≠ [] ∧ issueUrl ≠ "null".toList then [issueUrl] else []
  | _ => []

/-- The counters, and `known_issues_found`. -/
structure Results where
  counters : Counters := {}
  knownIssuesFound : List Str := []
  deriving DecidableEq

/-- A test is counted. -/
def Results.count (r : Results) (outcome : Outcome) : Results :=
  ⟨r.counters + outcome.counters, r.knownIssuesFound ++ outcome.issues⟩

/-- One round of the loop. -/
def runTest (errexit : Bool) (r : Results) : TestRun → Except Nat Results
  | .ran outcome => .ok (r.count outcome)
  | .broke status outcome => if errexit then .error (status + 1) else .ok (r.count outcome)

/-- The loop over the tests. -/
def runTests (errexit : Bool) (tests : List TestRun) : Except Nat Results := tests.foldlM (runTest errexit) {}

/-- The tests of an RPM, and whether its results can be written. -/
structure RpmTests where
  tests : List TestRun
  canWrite : Bool

/-- `run_rpm_tests`: what there is in `results.txt` once it has ended, where there is such a file. -/
def runRpmTests (jobs : Nat) (rpm : RpmTests) : Option Results :=
  match runTests (decide (jobs > 1)) rpm.tests with
  | .ok r => if rpm.canWrite then some r else none
  | .error _ => none

/-! ## The jobs -/

/-- `rpm_pids` once some workers have been started, by their numbers.  `ended k i` says that worker `i` has
ended when the loop looks after it has started worker `k`. -/
def rpmPids (jobs : Nat) (ended : Nat → Nat → Bool) : Nat → List Nat
  | 0 => []
  | k + 1 =>
      let pids := rpmPids jobs ended k ++ [k]
      if pids.length ≥ jobs then pids.filter fun i => !ended k i else pids

/-- A worker has ended when the results are read: the loop has seen it, or it has been waited for. -/
def hasEnded (jobs : Nat) (ended : Nat → Nat → Bool) (started i : Nat) : Bool :=
  (rpmPids jobs ended started).contains i || (List.range started).any fun k => ended k i

/-- The results that there are when they are read. -/
def resultsFiles (jobs : Nat) (ended : Nat → Nat → Bool) (rpms : List RpmTests) : List (Option Results) :=
  rpms.mapIdx fun i rpm =>
    if jobs > 1 ∧ hasEnded jobs ended rpms.length i = false then none else runRpmTests jobs rpm

/-! ## Reading the results -/

/-- Blanks and line ends, which separate words. -/
def isIfs (c : Char) : Bool := c = ' ' || c = '\t' || c = '\n'

/-- What ends a word of a command or quotes a part of it. -/
def isShellSpecial (c : Char) : Bool :=
  isIfs c || [';', '&', '|', '(', ')', '<', '>', Char.ofNat 34, Char.ofNat 39, Char.ofNat 92, Char.ofNat 96].contains c

/-- What a dollar can stand before to be expanded. -/
def startsExpansion (c : Char) : Bool :=
  isAsciiLetter c || isAsciiDigit c || ['_', '\x7b', '[', '@', '*', '#', '?', '$', '!', '-'].contains c

/-- The shell takes the text as it stands, as the value of an assignment; a tilde can be expanded at its
start and after a colon. -/
def isPlain : Bool → Str → Bool
  | _, [] => true
  | tilde, c :: rest =>
      !isShellSpecial c && !(c = '~' && tilde) && !(c = '$' && rest.head?.any startsExpansion) &&
        isPlain (c = ':') rest

/-- The variables that a results file assigns; `known_issues_found` is a string there. -/
structure Vars where
  counters : Counters := {}
  knownIssuesFound : Str := []

/-- The shell, where it is left to it: what it makes of a last line that is not plain, which may end the
script with a status, and the names of files that a word with wildcards stands for. -/
structure Shell where
  evaluate : Str → Vars → Except Nat Vars
  glob : Str → List Str

/-- The last line of a results file, after its equals sign. -/
def issuesText (r : Results) : Str := join [' '] r.knownIssuesFound

/-- `source results.txt`: the counters come first. -/
def source (shell : Shell) (r : Results) (vars : Vars) : Except Nat Vars :=
  if isPlain true (issuesText r) then .ok ⟨r.counters, issuesText r⟩
  else shell.evaluate (issuesText r) { vars with counters := r.counters }

/-- The words of an unquoted variable. -/
def fields (shell : Shell) (value : Str) : List Str :=
  ((value.splitOnP isIfs).filter (· ≠ [])).flatMap shell.glob

/-- What the loop over the results has come to: the overall counters and known issues, how many files it has
read, and the variables of the last of them. -/
structure Overall where
  counters : Counters := {}
  knownIssuesFound : List Str := []
  filesRead : Nat := 0
  vars : Option Vars := none

/-- One round: a results file that is missing is passed over. -/
def aggregateResults (shell : Shell) (o : Overall) : Option Results → Except Nat Overall
  | none => .ok o
  | some r => do
      let vars ← source shell r (o.vars.getD {})
      return {
        counters := o.counters + vars.counters
        knownIssuesFound := o.knownIssuesFound ++ fields shell vars.knownIssuesFound
        filesRead := o.filesRead + 1
        vars := some vars }

/-- The overall results of the RPMs. -/
def aggregate (shell : Shell) (files : List (Option Results)) : Except Nat Overall :=
  files.foldlM (aggregateResults shell) {}

/-! ## The script -/

/-- The status the counters stand for. -/
def exitCode (counters : Counters) : Nat :=
  if counters.failedTests > 0 then 1 else if counters.unexpectedPassTests > 0 then 1 else 0

/-- A run of the script: the jobs, the RPMs, and the tests of the source RPM where there are any, as the script
counts them. -/
structure Run where
  shell : Shell
  jobs : Nat
  ended : Nat → Nat → Bool
  rpms : List RpmTests
  srcTests : Option (List TestRun)

/-- The overall results of a run. -/
def Run.overall (run : Run) : Except Nat Overall := aggregate run.shell (resultsFiles run.jobs run.ended run.rpms)

/-- The counters that decide; the error is the status the script ends with before that. -/
def Run.counters (run : Run) : Except Nat Counters := do
  let overall ← run.overall
  match run.srcTests with
  | some tests =>
      let r ← runTests true tests
      return overall.counters + r.counters
  | none =>
      if run.rpms.length > 1 then return overall.counters
      -- the variables are those of the file; without one they are unset, which ends the script
      match overall.vars with
      | some vars => return vars.counters
      | none => .error 1

/-- The exit status. -/
def Run.exitStatus (run : Run) : Nat :=
  match run.counters with
  | .error status => status
  | .ok counters => exitCode counters

/-! ## What should come of the results -/

/-- How a test is counted where it is. -/
def TestRun.outcome : TestRun → Outcome
  | .ran outcome => outcome
  | .broke _ outcome => outcome

/-- A test has run to its end. -/
def TestRun.Completed (t : TestRun) : Prop := t = .ran t.outcome

instance (t : TestRun) : Decidable t.Completed := inferInstanceAs (Decidable (t = .ran t.outcome))

/-- A test that is no unknown failure and no unexpected pass. -/
def Outcome.Accepted (o : Outcome) : Prop := o ≠ .failed ∧ o ≠ .unexpectedPass

/-- The counters of all tests of an RPM. -/
def RpmTests.counters (rpm : RpmTests) : Counters := (rpm.tests.map fun t => t.outcome.counters).sum

/-- The known issues that the tests of an RPM meet, in their order. -/
def RpmTests.issues (rpm : RpmTests) : List Str := rpm.tests.flatMap fun t => t.outcome.issues

/-- Reading the file assigns the counters and the known issues that it was written with, and no part of it
is expanded or executed. -/
structure Restored (shell : Shell) (r : Results) : Prop where
  plain : isPlain true (issuesText r) = true
  assigned : ∀ vars, ∃ vars', source shell r vars = .ok vars' ∧ vars'.counters = r.counters ∧
    fields shell vars'.knownIssuesFound = r.knownIssuesFound

/-- Every file restores the results it was written with, all RPMs are in the overall results, and the status
is zero only where all their tests have run to the end and are accepted. -/
structure Survive (run : Run) : Prop where
  restored : ∀ r, some r ∈ resultsFiles run.jobs run.ended run.rpms → Restored run.shell r
  contributed : ∃ o, run.overall = .ok o ∧ o.filesRead = run.rpms.length ∧
    o.counters = (run.rpms.map fun rpm => rpm.counters).sum ∧
    o.knownIssuesFound = run.rpms.flatMap fun rpm => rpm.issues
  success : run.exitStatus = 0 → ∀ rpm ∈ run.rpms, ∀ t ∈ rpm.tests, t.Completed ∧ t.outcome.Accepted

/-- The results of an RPM get into their file. -/
def IsWritten (jobs : Nat) (rpm : RpmTests) : Prop :=
  rpm.canWrite = true ∧ (jobs > 1 → ∀ t ∈ rpm.tests, t.Completed)

/-- There is at most one known issue, and the shell takes its URL as it stands. -/
def IsOneWord (shell : Shell) (issues : List Str) : Prop :=
  issues = [] ∨ ∃ issueUrl, issues = [issueUrl] ∧ isPlain true issueUrl = true ∧ shell.glob issueUrl = [issueUrl]

/-- The script notices that something is wrong: some test of an RPM or of the source RPM is an unknown failure
or an unexpected pass, or a command fails between the tests of the source RPM. -/
def IsNoticed (run : Run) : Prop :=
  (∃ rpm ∈ run.rpms, ∃ t ∈ rpm.tests, ¬ t.outcome.Accepted) ∨
    ∃ tests, run.srcTests = some tests ∧ ∃ t ∈ tests, ¬ t.Completed ∨ ¬ t.outcome.Accepted

section

variable {shell : Shell} {jobs : Nat} {ended : Nat → Nat → Bool} {rpms : List RpmTests} {rpm : RpmTests}
  {tests : List TestRun} {t : TestRun} {r r' : Results} {rs : List Results} {o o' : Overall}
  {files : List (Option Results)} {run : Run} {errexit : Bool}

/-! ## The loop over the tests -/

theorem Counters.zero_add (a : Counters) : 0 + a = a := by
  show (⟨0 + _, 0 + _, 0 + _, 0 + _, 0 + _⟩ : Counters) = a
  simp only [Nat.zero_add]

theorem Counters.add_assoc (a b c : Counters) : a + b + c = a + (b + c) := by
  show (⟨_ + _ + _, _ + _ + _, _ + _ + _, _ + _ + _, _ + _ + _⟩ : Counters) = ⟨_, _, _, _, _⟩
  simp only [Nat.add_assoc]
  rfl

/-- Under `errexit` a round that is broken ends the loop. -/
theorem runTest_ok_iff :
    runTest errexit r t = .ok r' ↔ (errexit = true → t.Completed) ∧ r' = r.count t.outcome := by
  cases t with
  | ran outcome =>
      show Except.ok (r.count outcome) = .ok r' ↔ _
      constructor
      · intro h
        exact ⟨fun _ => rfl, (Except.ok.inj h).symm⟩
      · rintro ⟨-, rfl⟩
        rfl
  | broke status outcome =>
      cases errexit with
      | false =>
          constructor
          · intro h
            exact ⟨fun hfalse => absurd hfalse (by decide), (Except.ok.inj h).symm⟩
          · rintro ⟨-, rfl⟩
            rfl
      | true =>
          constructor
          · intro h
            cases h
          · rintro ⟨hcompleted, -⟩
            cases hcompleted rfl

/-- What the loop over the tests comes to, where it gets to its end. -/
theorem foldlM_runTest_ok_iff :
    tests.foldlM (runTest errexit) r = .ok r' ↔
      (errexit = true → ∀ t ∈ tests, t.Completed) ∧
        r' = ⟨r.counters + (tests.map fun t => t.outcome.counters).sum,
          r.knownIssuesFound ++ tests.flatMap fun t => t.outcome.issues⟩ := by
  induction tests generalizing r with
  | nil =>
      have hsum : r.counters + (([] : List TestRun).map fun t => t.outcome.counters).sum = r.counters := rfl
      rw [hsum, List.flatMap_nil, List.append_nil, List.foldlM_nil]
      constructor
      · intro h
        exact ⟨fun _ t ht => absurd ht List.not_mem_nil, (Except.ok.inj h).symm⟩
      · rintro ⟨-, rfl⟩
        rfl
  | cons t tests ih =>
      rw [List.foldlM_cons, except_bind_ok_iff, List.map_cons, List.sum_cons, List.flatMap_cons,
        ← Counters.add_assoc, ← List.append_assoc]
      constructor
      · rintro ⟨mid, hmid, h⟩
        obtain ⟨hfirst, rfl⟩ := runTest_ok_iff.mp hmid
        obtain ⟨hrest, rfl⟩ := ih.mp h
        exact ⟨fun he => List.forall_mem_cons.mpr ⟨hfirst he, hrest he⟩, rfl⟩
      · rintro ⟨hall, rfl⟩
        exact ⟨_, runTest_ok_iff.mpr ⟨fun he => (List.forall_mem_cons.mp (hall he)).1, rfl⟩,
          ih.mpr ⟨fun he => (List.forall_mem_cons.mp (hall he)).2, rfl⟩⟩

theorem runTests_ok_iff :
    runTests errexit tests = .ok r ↔ (errexit = true → ∀ t ∈ tests, t.Completed) ∧
      r = ⟨(tests.map fun t => t.outcome.counters).sum, tests.flatMap fun t => t.outcome.issues⟩ := by
  rw [runTests, foldlM_runTest_ok_iff, List.nil_append]
  show _ ∧ r = ⟨0 + _, _⟩ ↔ _
  rw [Counters.zero_add]

/-- A loop that is ended has a status that is not zero. -/
theorem foldlM_runTest_error {status : Nat} (h : tests.foldlM (runTest errexit) r = .error status) :
    status ≠ 0 := by
  induction tests generalizing r with
  | nil => cases h
  | cons t tests ih =>
      rw [List.foldlM_cons, except_bind_error_iff] at h
      rcases h with hfirst | ⟨mid, -, hrest⟩
      · cases t with
        | ran outcome => cases hfirst
        | broke status' outcome =>
            cases errexit with
            | false => cases hfirst
            | true =>
                rw [← Except.error.inj hfirst]
                exact Nat.succ_ne_zero status'
      · exact ih hrest

/-- The results that are written are those of all tests. -/
theorem runRpmTests_some_iff :
    runRpmTests jobs rpm = some r ↔ IsWritten jobs rpm ∧ r = ⟨rpm.counters, rpm.issues⟩ := by
  unfold runRpmTests IsWritten
  cases h : runTests (decide (jobs > 1)) rpm.tests with
  | error status =>
      constructor
      · intro hnone
        cases hnone
      · rintro ⟨⟨-, hcompleted⟩, -⟩
        have hok := runTests_ok_iff.mpr ⟨fun he => hcompleted (of_decide_eq_true he), rfl⟩
        rw [h] at hok
        cases hok
  | ok results =>
      obtain ⟨hcompleted, rfl⟩ := runTests_ok_iff.mp h
      show (if rpm.canWrite = true then some _ else none) = some r ↔ _
      by_cases hwrite : rpm.canWrite = true
      · rw [if_pos hwrite, Option.some.injEq, eq_comm]
        constructor
        · intro hr
          exact ⟨⟨hwrite, fun hjobs => hcompleted (decide_eq_true hjobs)⟩, hr⟩
        · rintro ⟨-, hr⟩
          exact hr
      · rw [if_neg hwrite]
        constructor
        · intro hnone
          cases hnone
        · rintro ⟨⟨hyes, -⟩, -⟩
          exact absurd hyes hwrite

/-! ## The jobs -/

/-- A worker that has been started is in `rpm_pids`, or the loop has seen that it has ended. -/
theorem mem_rpmPids_or {k i : Nat} (hi : i < k) :
    i ∈ rpmPids jobs ended k ∨ ∃ j < k, ended j i = true := by
  induction k with
  | zero => omega
  | succ k ih =>
      have hstarted : i ∈ rpmPids jobs ended k ++ [k] ∨ ∃ j < k, ended j i = true := by
        rcases Nat.lt_succ_iff_lt_or_eq.mp hi with hlt | rfl
        · rcases ih hlt with hmem | hseen
          · exact Or.inl (List.mem_append_left _ hmem)
          · exact Or.inr hseen
        · exact Or.inl (List.mem_append_right _ (List.mem_singleton_self _))
      rcases hstarted with hmem | ⟨j, hj, hseen⟩
      · cases hnow : ended k i with
        | true => exact Or.inr ⟨k, Nat.lt_succ_self k, hnow⟩
        | false =>
            left
            rw [rpmPids]
            split
            · exact List.mem_filter.mpr ⟨hmem, by rw [hnow]; rfl⟩
            · exact hmem
      · exact Or.inr ⟨j, Nat.lt_succ_of_lt hj, hseen⟩

/-- **`pool_waits`** — in whatever order the workers end, all of them have ended when the results are read. -/
theorem pool_waits {started i : Nat} (hi : i < started) : hasEnded jobs ended started i = true := by
  rw [hasEnded, Bool.or_eq_true, List.contains_iff_mem, List.any_eq_true]
  rcases @mem_rpmPids_or jobs ended _ _ hi with hmem | ⟨j, hj, hseen⟩
  · exact Or.inl hmem
  · exact Or.inr ⟨j, List.mem_range.mpr hj, hseen⟩

theorem resultsFiles_eq : resultsFiles jobs ended rpms = rpms.map (runRpmTests jobs) := by
  unfold resultsFiles
  refine List.ext_getElem (by rw [List.length_mapIdx, List.length_map]) ?_
  intro i hi hi'
  have hlt : i < rpms.length := by rwa [List.length_map] at hi'
  rw [List.getElem_mapIdx, List.getElem_map, if_neg]
  rintro ⟨-, hleft⟩
  rw [pool_waits hlt] at hleft
  cases hleft

/-! ## One results file -/

theorem not_isIfs_of_isPlain {tilde : Bool} {text : Str} (h : isPlain tilde text = true) :
    ∀ c ∈ text, isIfs c = false := by
  induction text generalizing tilde with
  | nil => exact List.forall_mem_nil _
  | cons c rest ih =>
      rw [isPlain, Bool.and_eq_true, Bool.and_eq_true, Bool.and_eq_true, Bool.not_eq_true'] at h
      obtain ⟨⟨⟨hspecial, -⟩, -⟩, hrest⟩ := h
      rw [isShellSpecial, Bool.or_eq_false_iff] at hspecial
      exact List.forall_mem_cons.mpr ⟨hspecial.1, ih hrest⟩

/-- A word without white space is one field, or what its wildcards stand for. -/
theorem fields_word {issueUrl : Str} (hne : issueUrl ≠ []) (hifs : ∀ c ∈ issueUrl, isIfs c = false) :
    fields shell issueUrl = shell.glob issueUrl := by
  have hsplit : issueUrl.splitOnP isIfs = [issueUrl] :=
    List.splitOnP_eq_singleton fun c hc => by rw [hifs c hc]
  rw [fields, hsplit, List.filter_cons_of_pos (by simpa using hne), List.filter_nil, List.flatMap_singleton]

theorem fields_nil : fields shell [] = [] := by
  rw [fields, List.splitOnP_nil]
  rfl

/-- Two known issues are never read back: the second one is run as a command. -/
theorem not_isPlain_join {u v : Str} {rest : List Str} : ¬ isPlain true (join [' '] (u :: v :: rest)) = true := by
  intro h
  have hblank : ' ' ∈ join [' '] (u :: v :: rest) := by
    rw [join]
    exact List.mem_append_left _ (List.mem_append_right _ (List.mem_singleton_self _))
  have hfalse := not_isIfs_of_isPlain h ' ' hblank
  cases hfalse

theorem issues_ne_nil {issueUrl : Str} (h : issueUrl ∈ rpm.issues) : issueUrl ≠ [] := by
  obtain ⟨t, -, hmem⟩ := List.mem_flatMap.mp h
  unfold Outcome.issues at hmem
  split at hmem
  · split at hmem
    · rename_i hurl
      rw [List.mem_singleton.mp hmem]
      exact hurl.1
    · cases hmem
  · cases hmem

/-- **`restored_iff`** — a results file is read back exactly when its known issues are one word at most. -/
theorem restored_iff (hne : ∀ issueUrl ∈ r.knownIssuesFound, issueUrl ≠ []) :
    Restored shell r ↔ IsOneWord shell r.knownIssuesFound := by
  obtain ⟨counters, issues⟩ := r
  constructor
  · rintro ⟨hplain, hassigned⟩
    match issues, hne, hplain, hassigned with
    | [], _, _, _ => exact Or.inl rfl
    | [issueUrl], hne, hplain, hassigned =>
        have htext : issuesText ⟨counters, [issueUrl]⟩ = issueUrl := rfl
        rw [htext] at hplain
        obtain ⟨vars, hsource, -, hfields⟩ := hassigned {}
        rw [source, htext, if_pos hplain] at hsource
        rw [← Except.ok.inj hsource] at hfields
        rw [fields_word (hne issueUrl (List.mem_singleton_self _)) (not_isIfs_of_isPlain hplain)] at hfields
        exact Or.inr ⟨issueUrl, rfl, hplain, hfields⟩
    | u :: v :: rest, _, hplain, _ => exact absurd hplain not_isPlain_join
  · intro hword
    rcases hword with hempty | ⟨issueUrl, hone, hplain, hglob⟩
    · change issues = [] at hempty
      subst hempty
      exact ⟨rfl, fun vars => ⟨⟨counters, []⟩, rfl, rfl, fields_nil⟩⟩
    · change issues = [issueUrl] at hone
      subst hone
      have htext : issuesText ⟨counters, [issueUrl]⟩ = issueUrl := rfl
      refine ⟨by rwa [htext], fun vars => ⟨⟨counters, issueUrl⟩, ?_, rfl, ?_⟩⟩
      · rw [source, htext, if_pos hplain]
      · show fields shell issueUrl = [issueUrl]
        rw [fields_word (hne issueUrl (List.mem_singleton_self _)) (not_isIfs_of_isPlain hplain), hglob]

/-! ## All results files -/

/-- Files that are read back are added up, and the variables of the last one are left. -/
theorem foldlM_restored (hrestored : ∀ r ∈ rs, Restored shell r) :
    ∃ o', (rs.map some).foldlM (aggregateResults shell) o = .ok o' ∧
      o'.counters = o.counters + (rs.map Results.counters).sum ∧
      o'.knownIssuesFound = o.knownIssuesFound ++ rs.flatMap Results.knownIssuesFound ∧
      o'.filesRead = o.filesRead + rs.length ∧
      o'.vars.map Vars.counters = (rs.getLast?.map Results.counters).or (o.vars.map Vars.counters) := by
  induction rs generalizing o with
  | nil =>
      refine ⟨o, rfl, ?_, by simp, rfl, by simp⟩
      rfl
  | cons r rs ih =>
      obtain ⟨hfirst, hrest⟩ := List.forall_mem_cons.mp hrestored
      obtain ⟨vars, hsource, hcounters, hissues⟩ := hfirst.assigned (o.vars.getD {})
      let mid : Overall :=
        { counters := o.counters + vars.counters
          knownIssuesFound := o.knownIssuesFound ++ fields shell vars.knownIssuesFound
          filesRead := o.filesRead + 1
          vars := some vars }
      have hmid : aggregateResults shell o (some r) = .ok mid := by
        rw [aggregateResults, hsource]
        rfl
      obtain ⟨o', hrun, hsum, hlist, hcount, hlast⟩ := ih (o := mid) hrest
      refine ⟨o', ?_, ?_, ?_, ?_, ?_⟩
      · rw [List.map_cons, List.foldlM_cons, hmid]
        exact hrun
      · rw [hsum, List.map_cons, List.sum_cons, ← Counters.add_assoc, ← hcounters]
      · rw [hlist, List.flatMap_cons, ← List.append_assoc, ← hissues]
      · rw [hcount, List.length_cons]
        show o.filesRead + 1 + rs.length = _
        omega
      · rw [hlast, List.getLast?_cons]
        cases rs.getLast? with
        | none =>
            show some vars.counters = some r.counters
            rw [hcounters]
        | some last => rfl

/-- Only the files that there are get read. -/
theorem filesRead_eq (h : files.foldlM (aggregateResults shell) o = .ok o') :
    o'.filesRead = o.filesRead + files.countP Option.isSome := by
  induction files generalizing o with
  | nil =>
      rw [← Except.ok.inj h]
      rfl
  | cons file files ih =>
      rw [List.foldlM_cons] at h
      obtain ⟨mid, hmid, hrest⟩ := except_bind_ok_iff.mp h
      rw [ih hrest, List.countP_cons]
      cases file with
      | none =>
          rw [← Except.ok.inj hmid]
          simp
      | some r =>
          obtain ⟨vars, -, hround⟩ := except_bind_ok_iff.mp hmid
          rw [← Except.ok.inj hround]
          simp
          omega

/-- The results of the RPMs of a run are what their tests come to, where they are written. -/
theorem map_runRpmTests (h : ∀ rpm ∈ rpms, IsWritten jobs rpm) :
    rpms.map (runRpmTests jobs) = (rpms.map fun rpm => (⟨rpm.counters, rpm.issues⟩ : Results)).map some := by
  rw [List.map_map]
  exact List.map_congr_left fun rpm hrpm => runRpmTests_some_iff.mpr ⟨h rpm hrpm, rfl⟩

/-! ## The status -/

theorem exitCode_eq_zero {c : Counters} :
    exitCode c = 0 ↔ c.failedTests = 0 ∧ c.unexpectedPassTests = 0 := by
  unfold exitCode
  split
  · omega
  · split <;> omega

theorem exitCode_add {a b : Counters} : exitCode (a + b) = 0 ↔ exitCode a = 0 ∧ exitCode b = 0 := by
  rw [exitCode_eq_zero, exitCode_eq_zero, exitCode_eq_zero]
  show a.failedTests + b.failedTests = 0 ∧ a.unexpectedPassTests + b.unexpectedPassTests = 0 ↔ _
  omega

theorem exitCode_sum {cs : List Counters} : exitCode cs.sum = 0 ↔ ∀ c ∈ cs, exitCode c = 0 := by
  induction cs with
  | nil => exact iff_of_true rfl (List.forall_mem_nil _)
  | cons c cs ih => rw [List.sum_cons, exitCode_add, ih, List.forall_mem_cons]

theorem exitCode_counters {outcome : Outcome} : exitCode outcome.counters = 0 ↔ outcome.Accepted := by
  unfold Outcome.Accepted
  cases outcome <;> simp [Outcome.counters, exitCode]

theorem exitCode_tests :
    exitCode (tests.map fun t => t.outcome.counters).sum = 0 ↔ ∀ t ∈ tests, t.outcome.Accepted := by
  rw [exitCode_sum, List.forall_mem_map]
  exact forall₂_congr fun t _ => exitCode_counters

/-- The overall results, where all results files are read back. -/
theorem overall_ok (h : ∀ rpm ∈ run.rpms, IsWritten run.jobs rpm ∧ IsOneWord run.shell rpm.issues) :
    ∃ o, run.overall = .ok o ∧ o.counters = (run.rpms.map RpmTests.counters).sum ∧
      o.knownIssuesFound = run.rpms.flatMap RpmTests.issues ∧ o.filesRead = run.rpms.length ∧
      o.vars.map Vars.counters = run.rpms.getLast?.map RpmTests.counters := by
  have hrestored : ∀ r ∈ run.rpms.map fun rpm => (⟨rpm.counters, rpm.issues⟩ : Results),
      Restored run.shell r := by
    intro r hr
    obtain ⟨rpm, hrpm, rfl⟩ := List.mem_map.mp hr
    exact (restored_iff fun _ => issues_ne_nil).mpr (h rpm hrpm).2
  obtain ⟨o, hrun, hsum, hlist, hcount, hlast⟩ := foldlM_restored (o := {}) hrestored
  refine ⟨o, ?_, ?_, ?_, ?_, ?_⟩
  · rw [Run.overall, aggregate, resultsFiles_eq, map_runRpmTests fun rpm hrpm => (h rpm hrpm).1]
    exact hrun
  · rw [hsum, List.map_map]
    exact Counters.zero_add _
  · rw [hlist, List.nil_append, List.flatMap_map]
  · rw [hcount, List.length_map]
    exact Nat.zero_add _
  · rw [hlast, List.getLast?_map, Option.map_map]
    cases run.rpms.getLast? <;> rfl

/-- Without tests of the source RPM the overall counters decide, or the variables of the only file, which
have the same counters. -/
theorem counters_of_rpms (hne : run.rpms ≠ []) (hsrc : run.srcTests = none) (hoverall : run.overall = .ok o)
    (hsum : o.counters = (run.rpms.map RpmTests.counters).sum)
    (hlast : o.vars.map Vars.counters = run.rpms.getLast?.map RpmTests.counters) :
    run.counters = .ok o.counters := by
  rw [Run.counters, hoverall, except_bind_ok, hsrc]
  dsimp only
  split
  · rfl
  · rename_i hone
    obtain ⟨rpm, hrpm⟩ : ∃ rpm, run.rpms = [rpm] := by
      have hpos := List.length_pos_iff.mpr hne
      exact List.length_eq_one_iff.mp (by omega)
    rw [hrpm] at hlast hsum
    have hsum' : o.counters = rpm.counters := hsum
    cases hvars : o.vars with
    | none =>
        rw [hvars] at hlast
        cases hlast
    | some vars =>
        rw [hvars] at hlast
        have hcounters : vars.counters = rpm.counters := Option.some.inj hlast
        show Except.ok vars.counters = _
        rw [hcounters, hsum']

/-- With them, what the tests of the source RPM come to is added. -/
theorem exitStatus_of_src (hsrc : run.srcTests = some tests) (hoverall : run.overall = .ok o) :
    run.exitStatus = 0 ↔ exitCode o.counters = 0 ∧ ∀ t ∈ tests, t.Completed ∧ t.outcome.Accepted := by
  rw [Run.exitStatus, Run.counters, hoverall, except_bind_ok, hsrc]
  dsimp only
  cases htests : runTests true tests with
  | error status =>
      show status = 0 ↔ _
      refine iff_of_false (foldlM_runTest_error htests) ?_
      rintro ⟨-, hall⟩
      have hok := runTests_ok_iff.mpr ⟨fun _ : true = true => fun t ht => (hall t ht).1, rfl⟩
      rw [htests] at hok
      cases hok
  | ok r =>
      obtain ⟨hcompleted, rfl⟩ := runTests_ok_iff.mp htests
      show exitCode (o.counters + _) = 0 ↔ _
      rw [exitCode_add, exitCode_tests]
      refine and_congr_right fun _ => ?_
      constructor
      · intro haccepted t ht
        exact ⟨hcompleted rfl t ht, haccepted t ht⟩
      · intro hall t ht
        exact (hall t ht).2

/-- **`exitStatus_eq_zero_iff`** — the status is zero exactly when the script has noticed nothing. -/
theorem exitStatus_eq_zero_iff (hne : run.rpms ≠ [])
    (h : ∀ rpm ∈ run.rpms, IsWritten run.jobs rpm ∧ IsOneWord run.shell rpm.issues) :
    run.exitStatus = 0 ↔ ¬ IsNoticed run := by
  obtain ⟨o, hoverall, hsum, -, -, hlast⟩ := overall_ok h
  have hrpms : exitCode o.counters = 0 ↔ ∀ rpm ∈ run.rpms, ∀ t ∈ rpm.tests, t.outcome.Accepted := by
    rw [hsum, exitCode_sum, List.forall_mem_map]
    exact forall₂_congr fun rpm _ => exitCode_tests
  have hnoticed : ¬ IsNoticed run ↔ (∀ rpm ∈ run.rpms, ∀ t ∈ rpm.tests, t.outcome.Accepted) ∧
      ∀ tests, run.srcTests = some tests → ∀ t ∈ tests, t.Completed ∧ t.outcome.Accepted := by
    unfold IsNoticed
    push Not
    rfl
  rw [hnoticed, ← hrpms]
  cases hsrc : run.srcTests with
  | some tests =>
      rw [exitStatus_of_src hsrc hoverall]
      refine and_congr_right fun _ => ?_
      constructor
      · rintro hall _ ⟨⟩
        exact hall
      · intro hall
        exact hall tests rfl
  | none =>
      rw [Run.exitStatus, counters_of_rpms hne hsrc hoverall hsum hlast]
      constructor
      · intro hzero
        exact ⟨hzero, fun tests hnone => by cases hnone⟩
      · rintro ⟨hzero, -⟩
        exact hzero

/-! ## The main result -/

/-- **`results_survive_iff`** — the results of the RPMs survive exactly when every one of them gets into its
file, as one word at most of known issues, and a test that is broken is not all that is wrong. -/
theorem results_survive_iff (run : Run) :
    Survive run ↔
      (∀ rpm ∈ run.rpms, IsWritten run.jobs rpm ∧ IsOneWord run.shell rpm.issues) ∧
        ((∃ rpm ∈ run.rpms, ∃ t ∈ rpm.tests, ¬ t.Completed) → IsNoticed run) := by
  constructor
  · intro h
    obtain ⟨o, hoverall, hread, -, -⟩ := h.contributed
    have hwritten : ∀ rpm ∈ run.rpms, IsWritten run.jobs rpm := by
      have hcount := filesRead_eq hoverall
      rw [hread, resultsFiles_eq] at hcount
      have hall : (run.rpms.map (runRpmTests run.jobs)).countP Option.isSome =
          (run.rpms.map (runRpmTests run.jobs)).length := by
        rw [List.length_map, hcount]
        exact (Nat.zero_add _).symm
      intro rpm hrpm
      have hsome := List.countP_eq_length.mp hall _ (List.mem_map_of_mem hrpm)
      obtain ⟨r, hr⟩ := Option.isSome_iff_exists.mp hsome
      exact (runRpmTests_some_iff.mp hr).1
    have hwords : ∀ rpm ∈ run.rpms, IsWritten run.jobs rpm ∧ IsOneWord run.shell rpm.issues := by
      intro rpm hrpm
      have hfile : some ⟨rpm.counters, rpm.issues⟩ ∈ resultsFiles run.jobs run.ended run.rpms := by
        rw [resultsFiles_eq, ← runRpmTests_some_iff.mpr ⟨hwritten rpm hrpm, rfl⟩]
        exact List.mem_map_of_mem hrpm
      exact ⟨hwritten rpm hrpm, (restored_iff fun _ => issues_ne_nil).mp (h.restored _ hfile)⟩
    refine ⟨hwords, ?_⟩
    rintro ⟨rpm, hrpm, t, ht, hbroken⟩
    by_contra hunnoticed
    have hzero := (exitStatus_eq_zero_iff (List.ne_nil_of_mem hrpm) hwords).mpr hunnoticed
    exact hbroken (h.success hzero rpm hrpm t ht).1
  · rintro ⟨hwords, hbroken⟩
    refine ⟨?_, ?_, ?_⟩
    · intro r hr
      rw [resultsFiles_eq] at hr
      obtain ⟨rpm, hrpm, hfile⟩ := List.mem_map.mp hr
      obtain ⟨-, rfl⟩ := runRpmTests_some_iff.mp hfile
      exact (restored_iff fun _ => issues_ne_nil).mpr (hwords rpm hrpm).2
    · obtain ⟨o, hoverall, hsum, hlist, hread, -⟩ := overall_ok hwords
      exact ⟨o, hoverall, hread, hsum, hlist⟩
    · intro hzero rpm hrpm t ht
      have hunnoticed := (exitStatus_eq_zero_iff (List.ne_nil_of_mem hrpm) hwords).mp hzero
      refine ⟨?_, ?_⟩
      · by_contra hincomplete
        exact hunnoticed (hbroken ⟨rpm, hrpm, t, ht, hincomplete⟩)
      · by_contra hrejected
        exact hunnoticed (Or.inl ⟨rpm, hrpm, t, ht, hrejected⟩)

/-- A run with one RPM, whose two tests meet known issues.  The shell finds no command under a URL. -/
def twoIssues : Run where
  shell := ⟨fun _ _ => .error 127, fun word => [word]⟩
  jobs := 1
  ended := fun _ _ => true
  rpms := [⟨[.ran (.known "https://x/1".toList), .ran (.known "https://x/2".toList)], true⟩]
  srcTests := none

/-- **`second_issue_is_run`** — the results of that run are never read: the script ends with 127. -/
theorem second_issue_is_run : twoIssues.exitStatus = 127 ∧ ¬ Survive twoIssues := by
  refine ⟨by decide +kernel, fun h => ?_⟩
  obtain ⟨o, hoverall, -⟩ := h.contributed
  have hended : twoIssues.overall = .error 127 := by rfl
  rw [hended] at hoverall
  cases hoverall

end

end HummingbirdRpms.TestResults
