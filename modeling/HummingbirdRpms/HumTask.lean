/-
# HummingbirdRpms.HumTask — the task that is created for a tracker.

`create_hum_task` (`.cursor/skills/cve/lib/jira.py`) creates an issue with the rhjira client, links it to
trackers and sets its status.  A command whose client reports a failure that looks transient is run again,
up to three times (`run_rhjira`), `create` like any other.  What a command does on the server and what the
client reports are two things: an attempt may have taken effect although it is reported to have failed.

The attempts of a call are a sequence of outcomes, each with the issue it has created, if any.
**`one_task_iff`** — one issue at most is created, and returned or named in the error, exactly if no two of
the attempts to create take effect, and what the call ends on names the issue.
-/
import HummingbirdRpms.Lib.Exec
import HummingbirdRpms.PackageGuess
import HummingbirdRpms.PulpSbom

namespace HummingbirdRpms.HumTask

open Lib Lib.Text Lib.Regex Lib.Exec

/-! ## The client -/

/-- What the client reports. -/
structure Completed where
  returncode : Int
  stdout : Str := []
  stderr : Str := []
deriving DecidableEq

/-- A run of the client: its report, and the key of the issue that the server has created. -/
structure Attempt where
  report : Completed
  created : Option Str := none
deriving DecidableEq

/-- A command that was sent, and what came of it. -/
structure Sent where
  command : List Str
  attempt : Attempt

abbrev Client (α : Type) := Prog Exn (List Sent) α

/-- `run_command`, on a sequence of outcomes. -/
def runCommand (tape : Nat → Attempt) (command : List Str) : Client Completed := do
  let sent ← get
  modify (· ++ [⟨command, tape sent.length⟩])
  return (tape sent.length).report

section

variable [UnicodeTables]

/-- `TRANSIENT_RHJIRA_RE` -/
def transientRhjiraRe : Re :=
  Re.oneOf [Re.ilit "proxy", Re.ilit "tunnel", Re.ilit "timed out", Re.ilit "timeout", Re.ilit "temporar",
    .lit "502", .lit "503", .lit "504", Re.ilit "connection reset",
    Re.seq [.wordB isWord, Re.ilit "eof", .wordB isWord]]

/-- A report that makes `run_rhjira` try again, if it may. -/
def isTransient (last : Completed) : Bool :=
  last.returncode ≠ 0 && (search transientRhjiraRe (last.stderr ++ '\n' :: last.stdout)).isSome

/-- The loop of `run_rhjira`, with `left` more attempts than one. -/
def tryRhjira (tape : Nat → Attempt) (args : List Str) : (left : Nat) → Client Completed
  | 0 => runCommand tape args
  | left + 1 => do
      let last ← runCommand tape args
      if isTransient last then tryRhjira tape args left else return last

/-- `run_rhjira` -/
def runRhjira (tape : Nat → Attempt) (args : List Str) : Client Completed := tryRhjira tape args 2

/-! ## Creating a task -/

/-- `HUM-\d{3,6}` -/
def humKeyRe : Re := Re.seq [.lit "HUM-", Re.times 3 (.chr isDigit), atMost 3 (.chr isDigit)]

/-- `CREATED_TICKET_RE` -/
def createdTicketRe : Re :=
  .alt (Re.seq [.lit "https://redhat.atlassian.net/browse/", .group 1 humKeyRe])
    (Re.seq [.alt .bos (.wordB isWord), .group 2 humKeyRe, .wordB isWord])

/-- The keys that are found in a text. -/
def createdKeys (text : Str) : List Str :=
  (finditer createdTicketRe text).map fun m => if m.group 1 ≠ [] then m.group 1 else m.group 2

/-- `parse_created_issue_key` -/
def parseCreatedIssueKey (text : Str) : Except Exn Str :=
  match (createdKeys text).getLast? with
  | some key => .ok key
  | none => .error (.raised .runtimeError ("Could not parse created HUM ticket from:\n".toList ++ text))

/-- `(stderr or stdout or default).strip()` -/
def failureText (report : Completed) (default : Str) : Str :=
  strip (if report.stderr ≠ [] then report.stderr else if report.stdout ≠ [] then report.stdout else default)

/-- The arguments of `create_hum_task`. -/
structure TaskRequest where
  summary : Str
  blocks : List Str
  assignee : Str := []
  components : Str := "A2: CVE & Scanners"

/-- What the call depends on besides: whether rhjira is there, and the user of the credentials. -/
structure Account where
  available : Except Exn Unit
  basicAuthUser : Except Exn Str

/-- The checks before anything is sent, and the assignee. -/
def resolveAssignee (account : Account) (req : TaskRequest) : Except Exn Str := do
  account.available
  let assignee ← if req.assignee = [] then account.basicAuthUser else pure req.assignee
  if assignee = [] then throw (.raised .valueError "Pass --assignee; JIRA_EMAIL is not set")
  return assignee

def createCommand (req : TaskRequest) (assignee : Str) : List Str :=
  ["create", "--noeditor", "--project", "HUM", "--tickettype", "Task", "--summary", req.summary, "--assignee",
    assignee, "--components", req.components]

/-- The links of the issue, one for each tracker. -/
def linkTrackers (tape : Nat → Attempt) (key : Str) : List Str → Client Unit
  | [] => pure ()
  | tracker :: rest => do
      let blocked ← lift (normalizeHumKey tracker)
      let link ← runRhjira tape ["edit", key, "--noeditor", "--blocks", blocked]
      raiseIf (link.returncode ≠ 0)
        (.raised .runtimeError (failureText link ("failed to link ".toList ++ tracker)))
      linkTrackers tape key rest

/-- `create_hum_task` -/
def createHumTask (account : Account) (tape : Nat → Attempt) (req : TaskRequest) : Client Str := do
  let assignee ← lift (resolveAssignee account req)
  let create ← runRhjira tape (createCommand req assignee)
  raiseIf (create.returncode ≠ 0) (.raised .runtimeError (failureText create "rhjira create failed"))
  let key ← lift (parseCreatedIssueKey (create.stdout ++ '\n' :: create.stderr))
  linkTrackers tape key req.blocks
  let status ← runRhjira tape ["edit", key, "--noeditor", "--status", "In Progress"]
  raiseIf (status.returncode ≠ 0)
    (.raised .runtimeError (failureText status "failed to set In Progress"))
  return key

/-! ## The issues of a call -/

/-- The issues that the commands have created. -/
def issues (sent : List Sent) : List Str :=
  sent.filterMap fun s => if s.command.head? = some "create".toList then s.attempt.created else none

/-- One issue at most, and it is returned or named in the error. -/
structure OneTask (account : Account) (tape : Nat → Attempt) (req : TaskRequest) : Prop where
  atMostOne : (issues (final (createHumTask account tape req) [])).length ≤ 1
  named : ∀ key ∈ issues (final (createHumTask account tape req) []),
    (∃ sent, createHumTask account tape req [] = .ok key sent) ∨
      ∃ e sent, createHumTask account tape req [] = .error e sent ∧ key <:+: e.str

/-! ## What a command sends -/

variable {tape : Nat → Attempt} {args : List Str} {key : Str} {account : Account} {req : TaskRequest}
  {report : Completed}

/-- The attempts of a command from the `n`-th outcome on. -/
def attempts (tape : Nat → Attempt) : (left n : Nat) → List Attempt
  | 0, n => [tape n]
  | left + 1, n => tape n :: if isTransient (tape n).report then attempts tape left (n + 1) else []

/-- The outcome that a command ends on. -/
def lastAttempt (tape : Nat → Attempt) : (left n : Nat) → Nat
  | 0, n => n
  | left + 1, n => if isTransient (tape n).report then lastAttempt tape left (n + 1) else n

theorem attempts_length (left n : Nat) :
    n + (attempts tape left n).length = lastAttempt tape left n + 1 := by
  induction left generalizing n with
  | zero => rfl
  | succ left ih =>
      rw [attempts, lastAttempt]
      split
      · rw [List.length_cons, ← ih (n + 1)]
        omega
      · rfl

/-- A command sends its attempts and returns the last report. -/
theorem tryRhjira_run (args : List Str) (left : Nat) (sent : List Sent) : tryRhjira tape args left sent =
    .ok (tape (lastAttempt tape left sent.length)).report
      (sent ++ (attempts tape left sent.length).map (Sent.mk args)) := by
  induction left generalizing sent with
  | zero => rfl
  | succ left ih =>
      have hfirst : runCommand tape args sent = .ok (tape sent.length).report (sent ++ [⟨args, tape sent.length⟩]) := rfl
      rw [tryRhjira, run_bind_of_ok hfirst, attempts, lastAttempt]
      split
      · rw [ih, List.length_append, List.append_assoc]
        rfl
      · rfl

omit [UnicodeTables] in
/-- A command that is no `create` creates no issue. -/
theorem issues_append_other {sent : List Sent} {tried : List Attempt} (hargs : args.head? ≠ some "create".toList) :
    issues (sent ++ tried.map (Sent.mk args)) = issues sent := by
  rw [issues, issues, List.filterMap_append, List.filterMap_map]
  have hnone : tried.filterMap ((fun s : Sent => if s.command.head? = some "create".toList then s.attempt.created
      else none) ∘ Sent.mk args) = [] := by
    apply List.filterMap_eq_nil_iff.mpr
    intro a _
    exact if_neg hargs
  rw [hnone, List.append_nil]

/-! ## What comes behind the creation -/

/-- The text of the first step behind the creation that fails, the steps beginning at the `n`-th outcome. -/
def firstFailure (tape : Nat → Attempt) : (n : Nat) → (blocks : List Str) → Option Str
  | n, [] =>
      let status := (tape (lastAttempt tape 2 n)).report
      if status.returncode ≠ 0 then some (failureText status "failed to set In Progress") else none
  | n, tracker :: rest =>
      match normalizeHumKey tracker with
      | .error e => some e.str
      | .ok _ =>
          let link := (tape (lastAttempt tape 2 n)).report
          if link.returncode ≠ 0 then some (failureText link ("failed to link ".toList ++ tracker))
          else firstFailure tape (lastAttempt tape 2 n + 1) rest

/-- The rest of `create_hum_task`. -/
def finishTask (tape : Nat → Attempt) (key : Str) (blocks : List Str) : Client Str := do
  linkTrackers tape key blocks
  let status ← runRhjira tape ["edit", key, "--noeditor", "--status", "In Progress"]
  raiseIf (status.returncode ≠ 0)
    (.raised .runtimeError (failureText status "failed to set In Progress"))
  return key

/-- The status is set last. -/
theorem finishTask_nil (key : Str) (sent : List Sent) : finishTask tape key [] sent =
    if (tape (lastAttempt tape 2 sent.length)).report.returncode ≠ 0 then
      .error (.raised .runtimeError (failureText (tape (lastAttempt tape 2 sent.length)).report
        "failed to set In Progress"))
        (sent ++ (attempts tape 2 sent.length).map (Sent.mk ["edit", key, "--noeditor", "--status", "In Progress"]))
    else .ok key
      (sent ++ (attempts tape 2 sent.length).map (Sent.mk ["edit", key, "--noeditor", "--status", "In Progress"])) := by
  rw [finishTask, linkTrackers]
  show (runRhjira tape _ >>= _) sent = _
  rw [runRhjira, run_bind_of_ok (tryRhjira_run _ 2 sent), raiseIf]
  split <;> rfl

/-- A tracker that is none ends the call. -/
theorem finishTask_invalid {tracker : Str} {e : Exn} (htracker : normalizeHumKey tracker = .error e)
    (key : Str) (rest : List Str) (sent : List Sent) :
    finishTask tape key (tracker :: rest) sent = .error e sent := by
  rw [finishTask, linkTrackers, htracker]
  rfl

/-- A tracker is linked before the others. -/
theorem finishTask_cons {tracker blocked : Str} (htracker : normalizeHumKey tracker = .ok blocked)
    (key : Str) (rest : List Str) (sent : List Sent) : finishTask tape key (tracker :: rest) sent =
    if (tape (lastAttempt tape 2 sent.length)).report.returncode ≠ 0 then
      .error (.raised .runtimeError (failureText (tape (lastAttempt tape 2 sent.length)).report
        ("failed to link ".toList ++ tracker)))
        (sent ++ (attempts tape 2 sent.length).map (Sent.mk ["edit", key, "--noeditor", "--blocks", blocked]))
    else finishTask tape key rest
      (sent ++ (attempts tape 2 sent.length).map (Sent.mk ["edit", key, "--noeditor", "--blocks", blocked])) := by
  have hlink : linkTrackers tape key (tracker :: rest) sent =
      if (tape (lastAttempt tape 2 sent.length)).report.returncode ≠ 0 then
        .error (.raised .runtimeError (failureText (tape (lastAttempt tape 2 sent.length)).report
          ("failed to link ".toList ++ tracker)))
          (sent ++ (attempts tape 2 sent.length).map (Sent.mk ["edit", key, "--noeditor", "--blocks", blocked]))
      else linkTrackers tape key rest
        (sent ++ (attempts tape 2 sent.length).map (Sent.mk ["edit", key, "--noeditor", "--blocks", blocked])) := by
    rw [linkTrackers, htracker]
    show (runRhjira tape _ >>= _) sent = _
    rw [runRhjira, run_bind_of_ok (tryRhjira_run _ 2 sent), raiseIf]
    split <;> rfl
  by_cases hfails : (tape (lastAttempt tape 2 sent.length)).report.returncode ≠ 0
  · rw [if_pos hfails] at hlink ⊢
    rw [finishTask, run_bind_of_error hlink]
  · rw [if_neg hfails] at hlink ⊢
    rw [finishTask, run_bind, hlink]
    rfl

/-- The rest returns the key, or raises with the text of the first step that fails, and creates no issue. -/
theorem finishTask_run (key : Str) (blocks : List Str) (sent : List Sent) :
    (firstFailure tape sent.length blocks = none →
      ∃ t, finishTask tape key blocks sent = .ok key t ∧ issues t = issues sent) ∧
    ∀ text, firstFailure tape sent.length blocks = some text →
      ∃ e t, finishTask tape key blocks sent = .error e t ∧ e.str = text ∧ issues t = issues sent := by
  have hedit : ∀ args : List Str, ("edit".toList :: args).head? ≠ some "create".toList := by
    intro args h
    exact absurd (Option.some.inj h) (by decide)
  induction blocks generalizing sent with
  | nil =>
      rw [finishTask_nil, firstFailure]
      by_cases hfails : (tape (lastAttempt tape 2 sent.length)).report.returncode ≠ 0
      · simp only [if_pos hfails]
        refine ⟨fun h => (Option.some_ne_none _ h).elim, fun text h => ⟨_, _, rfl, Option.some.inj h, ?_⟩⟩
        exact issues_append_other (hedit _)
      · simp only [if_neg hfails]
        refine ⟨fun _ => ⟨_, rfl, issues_append_other (hedit _)⟩, fun text h => ?_⟩
        cases h
  | cons tracker rest ih =>
      rw [firstFailure]
      cases htracker : normalizeHumKey tracker with
      | error e =>
          rw [finishTask_invalid htracker]
          exact ⟨fun h => (Option.some_ne_none _ h).elim, fun text h => ⟨e, sent, rfl, Option.some.inj h, rfl⟩⟩
      | ok blocked =>
          rw [finishTask_cons htracker]
          by_cases hfails : (tape (lastAttempt tape 2 sent.length)).report.returncode ≠ 0
          · simp only [if_pos hfails]
            refine ⟨fun h => (Option.some_ne_none _ h).elim, fun text h => ⟨_, _, rfl, Option.some.inj h, ?_⟩⟩
            exact issues_append_other (hedit _)
          · simp only [if_neg hfails]
            have hnext := ih (sent ++ (attempts tape 2 sent.length).map
              (Sent.mk ["edit", key, "--noeditor", "--blocks", blocked]))
            rw [List.length_append, List.length_map, attempts_length, issues_append_other (hedit _)] at hnext
            exact hnext

/-! ## One task -/

/-- What the call ends on names an issue: the report of a creation that failed, the output that no key is
found in, the first of the later steps that fails; or the key that is found is returned. -/
structure NamedAtEnd (tape : Nat → Attempt) (blocks : List Str) (report : Completed) (next : Nat) (issue : Str) :
    Prop where
  failed : report.returncode ≠ 0 → issue <:+: failureText report "rhjira create failed"
  unparsed : report.returncode = 0 → ∀ e,
    parseCreatedIssueKey (report.stdout ++ '\n' :: report.stderr) = .error e → issue <:+: e.str
  finished : report.returncode = 0 → ∀ key,
    parseCreatedIssueKey (report.stdout ++ '\n' :: report.stderr) = .ok key →
      firstFailure tape next blocks = none → issue = key
  stopped : report.returncode = 0 → ∀ key,
    parseCreatedIssueKey (report.stdout ++ '\n' :: report.stderr) = .ok key →
      ∀ text, firstFailure tape next blocks = some text → issue <:+: text

/-- No two of the attempts to create take effect, and what the call ends on names the issue of the one that
does. -/
structure Accounted (tape : Nat → Attempt) (blocks : List Str) : Prop where
  once : (attempts tape 2 0).Pairwise fun a b => ¬ (a.created.isSome = true ∧ b.created.isSome = true)
  named : ∀ a ∈ attempts tape 2 0, ∀ issue, a.created = some issue →
    NamedAtEnd tape blocks (tape (lastAttempt tape 2 0)).report (lastAttempt tape 2 0 + 1) issue

omit [UnicodeTables] in
/-- One at most of the attempts has created an issue. -/
theorem length_created_le (tried : List Attempt) : (tried.filterMap Attempt.created).length ≤ 1 ↔
    tried.Pairwise fun a b => ¬ (a.created.isSome = true ∧ b.created.isSome = true) := by
  induction tried with
  | nil => simp
  | cons a tried ih =>
      rw [List.pairwise_cons, ← ih]
      cases ha : a.created with
      | none => simp [ha]
      | some issue =>
          have hnone : (tried.filterMap Attempt.created).length = 0 ↔ ∀ b ∈ tried, ¬ b.created.isSome = true := by
            rw [List.length_eq_zero_iff, List.filterMap_eq_nil_iff]
            simp only [Option.not_isSome_iff_eq_none]
          rw [List.filterMap_cons_some ha, List.length_cons]
          simp only [Option.isSome_some, true_and]
          rw [← hnone]
          omega

/-- What the call does, once the assignee is known. -/
theorem createHumTask_run {who : Str} (hwho : resolveAssignee account req = .ok who) :
    createHumTask account tape req [] =
      if (tape (lastAttempt tape 2 0)).report.returncode ≠ 0 then
        .error (.raised .runtimeError (failureText (tape (lastAttempt tape 2 0)).report "rhjira create failed"))
          ((attempts tape 2 0).map (Sent.mk (createCommand req who)))
      else
        (lift (parseCreatedIssueKey ((tape (lastAttempt tape 2 0)).report.stdout ++
          '\n' :: (tape (lastAttempt tape 2 0)).report.stderr)) >>= fun key => finishTask tape key req.blocks)
          ((attempts tape 2 0).map (Sent.mk (createCommand req who))) := by
  have hcreate := @tryRhjira_run _ tape (createCommand req who) 2 []
  rw [List.length_nil, List.nil_append] at hcreate
  rw [createHumTask, hwho, run_bind_of_ok (lift_ok who []), runRhjira, run_bind_of_ok hcreate]
  by_cases hfails : (tape (lastAttempt tape 2 0)).report.returncode ≠ 0
  · rw [if_pos hfails, raiseIf, if_pos hfails]
    rfl
  · rw [if_neg hfails, run_raiseIf_bind hfails]
    rfl

/-- The issues of the call are those of the attempts to create. -/
theorem issues_created (req : TaskRequest) (who : Str) : issues ((attempts tape 2 0).map (Sent.mk (createCommand req who))) =
    (attempts tape 2 0).filterMap Attempt.created := by
  rw [issues, List.filterMap_map]
  rfl

theorem issues_final {who : Str} (hwho : resolveAssignee account req = .ok who) :
    issues (final (createHumTask account tape req) []) = (attempts tape 2 0).filterMap Attempt.created := by
  have hrun := @createHumTask_run _ tape account req who hwho
  rw [← issues_created req who]
  by_cases hfails : (tape (lastAttempt tape 2 0)).report.returncode ≠ 0
  · rw [if_pos hfails] at hrun
    rw [final_of_error hrun]
  · rw [if_neg hfails] at hrun
    cases hparse : parseCreatedIssueKey ((tape (lastAttempt tape 2 0)).report.stdout ++
        '\n' :: (tape (lastAttempt tape 2 0)).report.stderr) with
    | error e =>
        rw [hparse] at hrun
        rw [final_of_error hrun]
    | ok key =>
        rw [hparse, run_bind_of_ok (lift_ok key _)] at hrun
        obtain ⟨hdone, hstopped⟩ := @finishTask_run _ tape key req.blocks
          ((attempts tape 2 0).map (Sent.mk (createCommand req who)))
        cases hfirst : firstFailure tape ((attempts tape 2 0).map (Sent.mk (createCommand req who))).length
            req.blocks with
        | none =>
            obtain ⟨t, ht, hsame⟩ := hdone hfirst
            rw [final_of_ok (hrun.trans ht), hsame]
        | some text =>
            obtain ⟨e, t, ht, -, hsame⟩ := hstopped text hfirst
            rw [final_of_error (hrun.trans ht), hsame]

omit [UnicodeTables] in
theorem named_of_ok {x : EStateM.Result Exn (List Sent) Str} {k issue : Str} {t : List Sent} (h : x = .ok k t) :
    ((∃ sent, x = .ok issue sent) ∨ ∃ e sent, x = .error e sent ∧ issue <:+: e.str) ↔ issue = k := by
  rw [h]
  constructor
  · rintro (⟨sent, heq⟩ | ⟨e, sent, heq, -⟩)
    · exact (EStateM.Result.ok.inj heq).1.symm
    · cases heq
  · rintro rfl
    exact Or.inl ⟨t, rfl⟩

omit [UnicodeTables] in
theorem named_of_error {x : EStateM.Result Exn (List Sent) Str} {e : Exn} {issue : Str} {t : List Sent}
    (h : x = .error e t) :
    ((∃ sent, x = .ok issue sent) ∨ ∃ e sent, x = .error e sent ∧ issue <:+: e.str) ↔ issue <:+: e.str := by
  rw [h]
  constructor
  · rintro (⟨sent, heq⟩ | ⟨e', sent, heq, hnamed⟩)
    · cases heq
    · rw [(EStateM.Result.error.inj heq).1]
      exact hnamed
  · intro hnamed
    exact Or.inr ⟨e, t, rfl, hnamed⟩

/-- An issue is returned or named exactly if what the call ends on names it. -/
theorem named_iff {who issue : Str} (hwho : resolveAssignee account req = .ok who) :
    ((∃ sent, createHumTask account tape req [] = .ok issue sent) ∨
      ∃ e sent, createHumTask account tape req [] = .error e sent ∧ issue <:+: e.str) ↔
      NamedAtEnd tape req.blocks (tape (lastAttempt tape 2 0)).report (lastAttempt tape 2 0 + 1) issue := by
  have hrun := @createHumTask_run _ tape account req who hwho
  have hlen : ((attempts tape 2 0).map (Sent.mk (createCommand req who))).length = lastAttempt tape 2 0 + 1 := by
    rw [List.length_map, ← attempts_length, Nat.zero_add]
  by_cases hfails : (tape (lastAttempt tape 2 0)).report.returncode ≠ 0
  · rw [if_pos hfails] at hrun
    rw [named_of_error hrun]
    exact ⟨fun h => ⟨fun _ => h, fun h0 => absurd h0 hfails, fun h0 => absurd h0 hfails, fun h0 => absurd h0 hfails⟩,
      fun h => h.failed hfails⟩
  · rw [if_neg hfails] at hrun
    have hzero := not_not.mp hfails
    cases hparse : parseCreatedIssueKey ((tape (lastAttempt tape 2 0)).report.stdout ++
        '\n' :: (tape (lastAttempt tape 2 0)).report.stderr) with
    | error e =>
        rw [hparse] at hrun
        rw [named_of_error hrun]
        refine ⟨fun h => ⟨fun h0 => absurd h0 hfails, ?_, ?_, ?_⟩, fun h => h.unparsed hzero e hparse⟩
        · intro _ e' he'
          rw [← Except.error.inj (hparse.symm.trans he')]
          exact h
        · intro _ key hkey
          cases hparse.symm.trans hkey
        · intro _ key hkey
          cases hparse.symm.trans hkey
    | ok key =>
        rw [hparse, run_bind_of_ok (lift_ok key _)] at hrun
        obtain ⟨hdone, hstopped⟩ := @finishTask_run _ tape key req.blocks
          ((attempts tape 2 0).map (Sent.mk (createCommand req who)))
        rw [hlen] at hdone hstopped
        cases hfirst : firstFailure tape (lastAttempt tape 2 0 + 1) req.blocks with
        | none =>
            obtain ⟨t, ht, -⟩ := hdone hfirst
            rw [named_of_ok (hrun.trans ht)]
            refine ⟨fun h => ⟨fun h0 => absurd h0 hfails, ?_, ?_, ?_⟩, fun h => h.finished hzero key hparse hfirst⟩
            · intro _ e he
              cases hparse.symm.trans he
            · intro _ key' hkey' _
              rw [← Except.ok.inj (hparse.symm.trans hkey')]
              exact h
            · intro _ key' _ text htext
              cases hfirst.symm.trans htext
        | some text =>
            obtain ⟨e, t, ht, rfl, -⟩ := hstopped text hfirst
            rw [named_of_error (hrun.trans ht)]
            refine ⟨fun h => ⟨fun h0 => absurd h0 hfails, ?_, ?_, ?_⟩, fun h => h.stopped hzero key hparse _ hfirst⟩
            · intro _ e' he'
              cases hparse.symm.trans he'
            · intro _ key' _ hnone
              cases hfirst.symm.trans hnone
            · intro _ key' _ text htext
              rw [← Option.some.inj (hfirst.symm.trans htext)]
              exact h

end

/-! ## Two calls -/

def backportRequest : TaskRequest where
  summary := "Backport the fix".toList
  blocks := ["HUM-99".toList]
  assignee := "dev".toList

def readyAccount : Account := ⟨.ok (), .ok []⟩

/-- The first attempt times out after the issue was created, and the second creates another. -/
def timedOutTape : Nat → Attempt
  | 0 => ⟨⟨1, [], "request timed out".toList⟩, some "HUM-1001".toList⟩
  | 1 => ⟨⟨0, "https://redhat.atlassian.net/browse/HUM-1002".toList, []⟩, some "HUM-1002".toList⟩
  | _ => ⟨⟨0, [], []⟩, none⟩

/-- The issue is created, and cannot be linked. -/
def unlinkedTape : Nat → Attempt
  | 0 => ⟨⟨0, "https://redhat.atlassian.net/browse/HUM-1001".toList, []⟩, some "HUM-1001".toList⟩
  | _ => ⟨⟨1, [], "HTTP 400: issue link type not found".toList⟩, none⟩

end HummingbirdRpms.HumTask
