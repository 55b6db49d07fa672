/-
# HummingbirdRpms.History — finding the last synchronisation of a package in the commit messages.

`validate_package_modifications.py` bounds its history checks by the newest commit that imported or
synced a package.  It looks for it in the messages: `git log --grep` with the package's name inserted
in two basic regular expressions, which git tries on every line of every message.  The messages
themselves come from `import_` and `update` (`Origin`), and there the name of a package appears in two
roles: a sync writes the name of the directory, an import the name the package has upstream.

**`lastSync_exact_iff`** says for which histories the lookup is right: each commit it misreads has to
lie behind a newer import or sync of the package that it reads well.  `Misread` lists them by kind: an
upstream import under another name, a sync whose gorget run failed, another directory whose name fits
when `.` stands for any character, and any message with a line that reads like one of the two.
-/
import HummingbirdRpms.Lib.Grep
import HummingbirdRpms.Metadata
import HummingbirdRpms.Provenance

namespace HummingbirdRpms

open Lib Lib.Text Lib.Exec Lib.Grep

/-! ## Names and commits -/

/-- The characters of an RPM name. -/
def isNameChar (c : Char) : Bool :=
  isAsciiLetter c || isAsciiDigit c || c = '.' || c = '_' || c = '+' || c = '-'

/-- The name of a package directory. -/
structure PackageName where
  name : Str
  nonempty : name ≠ []
  chars : ∀ c ∈ name, isNameChar c = true

/-- A character of a name is neither a colon, nor white space, nor a quotation mark, nor a hash. -/
theorem isNameChar_ne {c d : Char} (hc : isNameChar c = true) (hd : isNameChar d = false) : c ≠ d := by
  rintro rfl
  rw [hc] at hd
  exact Bool.noConfusion hd

theorem isSpace_of_isNameChar {c : Char} (hc : isNameChar c = true) : isSpace c = false := by
  have hrange : 33 ≤ c.toNat ∧ c.toNat ≤ 122 := by
    simp only [isNameChar, isAsciiLetter, isAsciiLower, isAsciiUpper, isAsciiDigit, Bool.or_eq_true,
      Bool.and_eq_true, decide_eq_true_eq] at hc
    rcases hc with ((((hc | hc) | rfl) | rfl) | rfl) | rfl
    · omega
    · omega
    all_goals decide
  simp only [isSpace, Bool.or_eq_false_iff, Bool.and_eq_false_iff, decide_eq_false_iff_not,
    beq_eq_false_iff_ne]
  omega

/-- The hash of a commit. -/
structure Sha where
  hex : Str
  length : hex.length = 40
  digits : ∀ c ∈ hex, isHex c = true

/-- What made a commit. -/
inductive Origin where
  /-- `import_` of an upstream package into a directory. -/
  | imported (dir upstream version release branch sha : Str)
  /-- `sync` of a directory, with the reason for which its gorget run failed, if it did. -/
  | synced (dir : Str) (t : Target) (plan : UpdatePlan) (reason : Option Str)
  /-- `sync --mark` of a directory. -/
  | marked (dir : Str) (t : Target) (version release : Str)
  | other (message : Str)

namespace Origin

/-- The message of the commit. -/
def message : Origin → Str
  | .imported _ upstream version release branch sha =>
      importMessage upstream version release branch sha
  | .synced dir t plan reason => savedMessage (updateMessage dir t plan true) reason
  | .marked dir t version release => markMessage dir t version release
  | .other message => message

/-- Whether the commit was made by an import or a sync of a directory. -/
def syncs (p : Str) : Origin → Bool
  | .imported dir .. => dir = p
  | .synced dir .. => dir = p
  | .marked dir .. => dir = p
  | .other _ => false

/-- What an import's subject says after `Import `. -/
def importText (upstream version release : Str) : Str :=
  upstream ++ "-".toList ++ versionRelease version release

/-- What a sync's subject says after `Sync `. -/
def syncText (dir : Str) (t : Target) (plan : UpdatePlan) : Str :=
  dir ++ " from ".toList ++
    (versionRelease t.metadata.version (t.metadata.release.getD "(none)") ++ " to ".toList ++
      versionRelease plan.version plan.release ++
      (if t.branchChanged then " (".toList ++ t.oldBranch ++ " -> ".toList ++ t.effectiveBranch ++
        ")".toList else []))

/-- What a mark's subject says after `Sync `. -/
def markText (dir version release : Str) : Str :=
  dir ++ " to ".toList ++ (versionRelease version release ++ " (mark)".toList)

/-- What the tools write into a line has no line break. -/
def OneLine : Origin → Prop
  | .imported _ upstream version release branch sha =>
      Grep.OneLine (importText upstream version release) ∧ Grep.OneLine branch ∧ Grep.OneLine sha
  | .synced dir t plan _ => Grep.OneLine (syncText dir t plan) ∧ Grep.OneLine plan.latestSha
  | .marked dir t version release =>
      Grep.OneLine (markText dir version release) ∧ Grep.OneLine t.latestSha
  | .other _ => True

end Origin

/-- A commit as `git log` lists it. -/
structure Logged where
  sha : Sha
  origin : Origin
  oneLine : origin.OneLine

/-- The commits that lead to `HEAD`, the newest first. -/
structure History where
  commits : List Logged
  distinct : (commits.map fun c => c.sha.hex).Nodup

/-! ## What the commands commit -/

section Commands

variable [UnicodeTables] {env : Env} {w : World} {c : Commit} {p : Str}

omit [UnicodeTables] in
/-- A commit is made after the steps that leave the commits alone. -/
theorem creates_bind {α : Type} {x : Tool α} {f : α → Tool Unit} (hx : Steps (Same World.commits) x)
    (h : Creates (x >>= f) w c) : ∃ a w', x w = .ok a w' ∧ Creates (f a) w' c := by
  cases hrun : x w with
  | ok a w' =>
      have hsame : w'.commits = w.commits := hx.ok hrun
      refine ⟨a, w', rfl, ?_⟩
      rw [Creates, final, run_bind_of_ok hrun] at h
      exact h.trans (congrArg (c :: ·) hsame.symm)
  | error e w' =>
      have hsame : w'.commits = w.commits := hx.error hrun
      rw [Creates, final_of_error (run_bind_of_error hrun), hsame] at h
      exact absurd h (List.cons_ne_self c w.commits).symm

omit [UnicodeTables] in
theorem commits_cloneInto {dirName url branch : Str} {ref : Option Str} :
    Steps (Same World.commits) (cloneInto env dirName url branch ref) := by
  unfold cloneInto
  refine steps_bind (steps_lift _) ?_
  rintro ⟨up, tip⟩
  refine steps_bind (steps_lift _) fun dir => steps_bind (steps_modify fun _ => rfl) fun _ => ?_
  cases given ref with
  | none => exact steps_pure _
  | some ref =>
      exact steps_bind (steps_lift _) fun sha => steps_bind (steps_lift _) fun dir =>
        steps_bind (steps_modify fun _ => rfl) fun _ => steps_pure _

theorem commits_importRelease {packageName dirName branch specRelease : Str} :
    Steps (Same World.commits) (importRelease env packageName dirName branch specRelease) := by
  unfold importRelease
  refine steps_bind steps_get fun w => steps_bind (steps_lift _) fun auto => steps_ite ?_ (steps_pure _)
  refine steps_bind (steps_lift _) fun resolved => ?_
  cases resolved.filter (!·.isEmpty) with
  | none => exact steps_pure _
  | some release =>
      exact steps_bind (steps_lift _) fun dir => steps_bind (steps_modify fun _ => rfl) fun _ =>
        steps_pure _

omit [UnicodeTables] in
/-- The commit at the end of an import carries its message. -/
theorem creates_finishImport {dirName commitMsg : Str} {dryRun : Bool}
    (h : Creates (finishImport env dirName commitMsg dryRun) w c) : c.message = commitMsg := by
  obtain ⟨_, w₁, -, h⟩ := creates_bind steps_raiseIf h
  obtain ⟨_, w₂, -, h⟩ := creates_bind steps_raiseIf h
  cases dryRun with
  | true => exact absurd h.symm (List.cons_ne_self c w₂.commits)
  | false =>
      rw [if_neg Bool.false_ne_true] at h
      obtain ⟨_, w₃, -, h⟩ := creates_bind (x := gitAddPackage dirName true false)
        (steps_modify fun _ => rfl) h
      cases hok : env.commitOk with
      | true =>
          rw [hok] at h
          exact (congrArg Commit.message (List.cons.inj h).1).symm
      | false =>
          rw [hok] at h
          exact absurd h.symm (List.cons_ne_self c w₃.commits)

/-- **`import_creates`** — the commit of an import is one of its directory, under its upstream name. -/
theorem import_creates {url branch : Str} {ref directory : Option Str} {dryRun : Bool}
    (h : Creates (import_ env url branch ref directory dryRun) w c) :
    ∃ version release sha, c.message = (Origin.imported (importDirName url directory)
      (pathStem (expandUrlShortcut url)) version release branch sha).message := by
  obtain ⟨_, w₁, -, h⟩ := creates_bind steps_get h
  obtain ⟨_, w₂, -, h⟩ := creates_bind steps_raiseIf h
  obtain ⟨sha, w₃, -, h⟩ := creates_bind commits_cloneInto h
  obtain ⟨_, w₄, -, h⟩ := creates_bind steps_get h
  obtain ⟨⟨version, specRelease⟩, w₅, -, h⟩ := creates_bind (steps_lift _) h
  obtain ⟨release, w₆, -, h⟩ := creates_bind commits_importRelease h
  obtain ⟨_, w₇, -, h⟩ := creates_bind (steps_lift _) h
  obtain ⟨_, w₈, -, h⟩ := creates_bind (x := saveRecord _ _) (steps_modify fun _ => rfl) h
  exact ⟨version, release, sha, creates_finishImport h⟩

/-- **`sync_creates`** — the commit of a sync is a sync of its directory. -/
theorem sync_creates {args : UpdateArgs} (hsync : args.sync = true)
    (h : Creates (update env p args) w c) :
    ∃ o : Origin, o.syncs p = true ∧ c.message = o.message := by
  cases hdecision : updateDecision env w p args with
  | error e =>
      rw [Creates, final_of_error (update_of_error hdecision)] at h
      exact absurd h.symm (List.cons_ne_self c w.commits)
  | ok decision =>
      cases decision with
      | skip =>
          rw [Creates, final_of_ok (update_of_skip hdecision)] at h
          exact absurd h.symm (List.cons_ne_self c w.commits)
      | mark t version release =>
          have hends := @applyMark_cases env p args t w version release
          rw [Creates, final, update_of_mark hdecision] at h
          generalize applyMark env p args t version release w = r at hends h
          cases hends with
          | dry => exact absurd h.symm (List.cons_ne_self c w.commits)
          | committed wet commits =>
              rw [commits.final] at h
              obtain rfl := (List.cons.inj h).1
              exact ⟨.marked p t version release, by simp [Origin.syncs], commits.message⟩
          | notCommitted => exact absurd h.symm (List.cons_ne_self c w.commits)
      | apply t plan =>
          have hends := @applyUpdate_cases _ env p args t plan w
          rw [Creates, final, update_of_apply hdecision] at h
          generalize applyUpdate env p args t plan w = r at hends h
          -- every other end leaves the commits as they were
          have hsame : ∀ w' : World, w'.commits = w.commits → w'.commits = c :: w.commits → False :=
            fun w' hw' hc => List.cons_ne_self c w.commits (hc.symm.trans hw')
          cases hends with
          | notPlaced => exact (hsame _ rfl h).elim
          | unhandled _ _ _ gorget =>
              exact (hsame _ (steps_runGorgetForUpdatedPackage.error gorget).commits h).elim
          | dry => exact (hsame _ rfl h).elim
          | interrupted _ _ gorget => exact (hsame _ (steps_gorgetStep.ok gorget).commits h).elim
          | committed commits =>
              have hcommits := commits.commit.final_commits.symm.trans h
              refine ⟨.synced p t plan none, by simp [Origin.syncs], ?_⟩
              rw [← (List.cons.inj hcommits).1, commits.commit.message, hsync]
              rfl
          | notCommitted _ _ _ gorget frame =>
              exact (hsame _ (frame.commits.trans
                (steps_runGorgetForUpdatedPackage.ok gorget).commits) h).elim

omit [UnicodeTables] in
/-- **`sync_saves`** — and so is the commit that a sync leaves for later, with the reason for which its
gorget run failed. -/
theorem sync_saves {args : UpdateArgs} {t : Target} {plan : UpdatePlan} {reason : Option Str}
    (hsync : args.sync = true) :
    (interrupted p args t plan reason).commitMsg = (Origin.synced p t plan reason).message := by
  rw [interrupted, hsync]
  rfl

end Commands

/-! ## `find_last_sync_commit` -/

/-- `^Sync <package> ` -/
def syncPattern (packageName : Str) : Str := "^Sync ".toList ++ packageName ++ " ".toList

/-- `^Import <package>-[0-9]` -/
def importPattern (packageName : Str) : Str := "^Import ".toList ++ packageName ++ "-[0-9]".toList

/-- Whether one of the two patterns matches a line. -/
def readsLine (packageName line : Str) : Bool :=
  matchesLine (syncPattern packageName) line || matchesLine (importPattern packageName) line

/-- Whether `git log` with the two `--grep` options lists a commit. -/
def reads (packageName message : Str) : Bool := (newlineSplit message).any (readsLine packageName)

/-- The output of `git log --format=%H --grep … --grep …`. -/
def gitLog (packageName : Str) (h : History) : Str :=
  (h.commits.filter fun c => reads packageName c.origin.message).flatMap fun c => c.sha.hex ++ "\n".toList

/-- `find_last_sync_commit` -/
def findLastSyncCommit (packageName : Str) (h : History) : Option Str :=
  let stdout := strip (gitLog packageName h)
  if stdout = [] then none else (newlineSplit stdout).head?

/-! ## How lines are read -/

/-- A text that begins with what a name looks like, and a space. -/
def ReadsAsSync (p text : Str) : Prop := ∃ like tail, text = like ++ ' ' :: tail ∧ LooksLike p like

/-- A text that begins with what a name looks like, a hyphen and a digit. -/
def ReadsAsImport (p text : Str) : Prop :=
  ∃ like d tail, text = like ++ '-' :: d :: tail ∧ isAsciiDigit d = true ∧ LooksLike p like

/-- A line that is read as the subject of a sync or of an import. -/
def ReadsLine (p line : Str) : Prop :=
  (∃ text, line = "Sync ".toList ++ text ∧ ReadsAsSync p text) ∨
    ∃ text, line = "Import ".toList ++ text ∧ ReadsAsImport p text

/-- A commit of the history that the lookup judges wrongly. -/
def Misread (p : Str) : Origin → Prop
  | .imported dir upstream version release _ _ =>
      (dir = p ∧ ¬ ReadsAsImport p (Origin.importText upstream version release)) ∨
        (dir ≠ p ∧ ReadsAsImport p (Origin.importText upstream version release))
  | .synced dir t plan none => dir ≠ p ∧ ReadsAsSync p (Origin.syncText dir t plan)
  | .synced dir _ _ (some reason) =>
      (dir = p ∧ ∀ line ∈ newlineSplit reason, ¬ ReadsLine p line) ∨
        (dir ≠ p ∧ ∃ line ∈ newlineSplit reason, ReadsLine p line)
  | .marked dir _ version release => dir ≠ p ∧ ReadsAsSync p (Origin.markText dir version release)
  | .other message => ∃ line ∈ newlineSplit message, ReadsLine p line

/-- An import or a sync of the directory that the lookup takes for one. -/
def WellRead (p : Str) : Origin → Prop
  | .imported dir upstream version release _ _ =>
      dir = p ∧ ReadsAsImport p (Origin.importText upstream version release)
  | .synced dir _ _ none => dir = p
  | .synced dir _ _ (some reason) => dir = p ∧ ∃ line ∈ newlineSplit reason, ReadsLine p line
  | .marked dir .. => dir = p
  | .other _ => False

section Lines

variable {p : PackageName} {line text : Str}

theorem PackageName.not_mem (p : PackageName) {c : Char} (hc : isNameChar c = false) : c ∉ p.name := by
  intro h
  rw [p.chars c h] at hc
  exact Bool.noConfusion hc

theorem matchesLine_sync :
    matchesLine (syncPattern p.name) line = true ↔
      ∃ text, line = "Sync ".toList ++ text ∧ ReadsAsSync p.name text := by
  show matchesHere (items ("Sync ".toList ++ (p.name ++ " ".toList))) line = true ↔ _
  rw [matchesHere_name (by decide)]
  simp only [looksLike_literal (by decide : '.' ∉ "Sync ".toList),
    matchesHere_name (p.not_mem (by decide : isNameChar '[' = false))]
  constructor
  · rintro ⟨_, text, rfl, rfl, like, tail, rfl, hlike, hspace⟩
    cases tail with
    | nil => exact absurd hspace (by simp [items, matchesHere])
    | cons c tail =>
        obtain rfl : c = ' ' := by simpa [items, matchesHere] using hspace
        exact ⟨_, rfl, like, tail, rfl, hlike⟩
  · rintro ⟨_, rfl, like, tail, rfl, hlike⟩
    exact ⟨_, _, rfl, rfl, like, _, rfl, hlike, by simp [items, matchesHere]⟩

theorem matchesLine_import :
    matchesLine (importPattern p.name) line = true ↔
      ∃ text, line = "Import ".toList ++ text ∧ ReadsAsImport p.name text := by
  show matchesHere (items ("Import ".toList ++ (p.name ++ "-[0-9]".toList))) line = true ↔ _
  rw [matchesHere_name (by decide)]
  simp only [looksLike_literal (by decide : '.' ∉ "Import ".toList),
    matchesHere_name (p.not_mem (by decide : isNameChar '[' = false))]
  constructor
  · rintro ⟨_, text, rfl, rfl, like, tail, rfl, hlike, hdigit⟩
    rcases tail with _ | ⟨c, _ | ⟨d, tail⟩⟩
    · exact absurd hdigit (by simp [items, matchesHere])
    · exact absurd hdigit (by simp [items, matchesHere])
    · obtain ⟨rfl, hd⟩ : c = '-' ∧ isAsciiDigit d = true := by
        simpa [items, matchesHere, isAsciiDigit] using hdigit
      exact ⟨_, rfl, like, d, tail, rfl, hd, hlike⟩
  · rintro ⟨_, rfl, like, d, tail, rfl, hd, hlike⟩
    exact ⟨_, _, rfl, rfl, like, _, rfl, hlike, by simpa [items, matchesHere, isAsciiDigit] using hd⟩

theorem readsLine_iff : readsLine p.name line = true ↔ ReadsLine p.name line := by
  rw [readsLine, Bool.or_eq_true, matchesLine_sync, matchesLine_import]
  rfl

/-- A line with another first character is neither. -/
theorem not_readsLine {c : Char} {q : Str} (hs : c ≠ 'S') (hi : c ≠ 'I') : ¬ ReadsLine q (c :: text) := by
  rintro (⟨_, h, -⟩ | ⟨_, h, -⟩)
  · exact hs (List.cons.inj h).1
  · exact hi (List.cons.inj h).1

theorem not_readsLine_nil {q : Str} : ¬ ReadsLine q [] := by
  rintro (⟨_, h, -⟩ | ⟨_, h, -⟩)
  · exact absurd h (by simp)
  · exact absurd h (by simp)

theorem readsLine_sync {q : Str} : ReadsLine q ("Sync ".toList ++ text) ↔ ReadsAsSync q text := by
  constructor
  · rintro (⟨_, h, hreads⟩ | ⟨_, h, -⟩)
    · rwa [List.append_cancel_left h]
    · exact absurd (List.cons.inj h).1 (by decide)
  · intro h
    exact Or.inl ⟨text, rfl, h⟩

theorem readsLine_import {q : Str} : ReadsLine q ("Import ".toList ++ text) ↔ ReadsAsImport q text := by
  constructor
  · rintro (⟨_, h, -⟩ | ⟨_, h, hreads⟩)
    · exact absurd (List.cons.inj h).1 (by decide)
    · rwa [List.append_cancel_left h]
  · intro h
    exact Or.inr ⟨text, rfl, h⟩

/-- A text in which the name itself is followed by a space is read as a sync. -/
theorem readsAsSync_self {q : Str} : ReadsAsSync q (q ++ ' ' :: text) := ⟨q, text, rfl, looksLike_self⟩

end Lines

/-! ## The lines of the messages -/

section Messages

variable {p : PackageName} {o : Origin}

/-- A text with two line breaks in it, taken apart: a line, an empty line, and the rest. -/
theorem break_paragraph {a m b : Str} (subject rest : Str) (h : m = subject ++ '\n' :: '\n' :: rest) :
    a ++ m ++ b = (a ++ subject) ++ '\n' :: ([] ++ '\n' :: (rest ++ b)) := by
  simp [h]

theorem importMessage_eq {upstream version release branch sha : Str} :
    importMessage upstream version release branch sha =
      ("Import ".toList ++ Origin.importText upstream version release) ++
        '\n' :: ([] ++ '\n' :: (("Branch: ".toList ++ branch) ++ '\n' :: ("Upstream: ".toList ++ sha))) := by
  have hsubject : "Import ".toList ++ upstream ++ "-".toList ++ versionRelease version release =
      "Import ".toList ++ Origin.importText upstream version release := by
    rw [Origin.importText, List.append_assoc, List.append_assoc, List.append_assoc]
  have hbranch := break_paragraph (a := "Import ".toList ++ Origin.importText upstream version release)
    (m := "\n\nBranch: ".toList) (b := branch) [] "Branch: ".toList (by decide)
  unfold importMessage
  rw [hsubject, hbranch, List.append_nil]
  simp only [List.append_assoc, List.cons_append, List.nil_append]
  rfl

theorem lines_import {upstream version release branch sha : Str}
    (hsubject : OneLine (Origin.importText upstream version release)) (hbranch : OneLine branch)
    (hsha : OneLine sha) :
    newlineSplit (importMessage upstream version release branch sha) =
      ["Import ".toList ++ Origin.importText upstream version release, [],
        "Branch: ".toList ++ branch, "Upstream: ".toList ++ sha] := by
  rw [importMessage_eq, newlineSplit_line (OneLine.append (by decide) hsubject),
    newlineSplit_line (by decide), newlineSplit_line (OneLine.append (by decide) hbranch),
    newlineSplit_oneLine (OneLine.append (by decide) hsha)]

/-- A subject, and the trailer after an empty line. -/
theorem lines_trailer {subject sha : Str} (hsubject : OneLine subject) (hsha : OneLine sha) :
    newlineSplit (subject ++ '\n' :: ([] ++ '\n' :: ("Upstream: ".toList ++ sha))) =
      [subject, [], "Upstream: ".toList ++ sha] := by
  rw [newlineSplit_line hsubject, newlineSplit_line (by decide),
    newlineSplit_oneLine (OneLine.append (by decide) hsha)]

theorem updateMessage_sync {dir : Str} {t : Target} {plan : UpdatePlan} :
    updateMessage dir t plan true =
      ("Sync ".toList ++ Origin.syncText dir t plan) ++
        '\n' :: ([] ++ '\n' :: ("Upstream: ".toList ++ plan.latestSha)) := by
  have hsplit : "\n\nUpstream: ".toList = '\n' :: '\n' :: "Upstream: ".toList := by decide
  simp only [updateMessage, Origin.syncText, if_true, hsplit, List.append_assoc, List.cons_append,
    List.nil_append]

theorem markMessage_eq {dir version release : Str} {t : Target} :
    markMessage dir t version release =
      ("Sync ".toList ++ Origin.markText dir version release) ++
        '\n' :: ([] ++ '\n' :: ("Upstream: ".toList ++ t.latestSha)) := by
  have hsubject : "Sync ".toList ++ dir ++ " to ".toList ++ versionRelease version release ++ " (mark)".toList =
      "Sync ".toList ++ Origin.markText dir version release := by
    rw [Origin.markText, List.append_assoc, List.append_assoc, List.append_assoc, List.append_assoc]
  unfold markMessage
  rw [break_paragraph " (mark)".toList "Upstream: ".toList (by decide),
    hsubject]

/-- The message of a sync whose gorget run failed: neither its first line nor the trailer is read. -/
theorem lines_manual {dir : Str} {t : Target} {plan : UpdatePlan} {reason : Str}
    (hsubject : OneLine (Origin.syncText dir t plan)) (hsha : OneLine plan.latestSha) :
    newlineSplit (savedMessage (updateMessage dir t plan true) (some reason)) =
      (manualGorgetPrefix ++ ("Sync ".toList ++ Origin.syncText dir t plan)) :: [] ::
        ("Upstream: ".toList ++ plan.latestSha) :: [] :: newlineSplit reason := by
  have hmessage : savedMessage (updateMessage dir t plan true) (some reason) =
      (manualGorgetPrefix ++ ("Sync ".toList ++ Origin.syncText dir t plan)) ++
        '\n' :: ([] ++ '\n' :: (("Upstream: ".toList ++ plan.latestSha) ++
          '\n' :: ([] ++ '\n' :: reason))) := by
    have hsplit : "\n\n".toList = ['\n', '\n'] := rfl
    simp only [savedMessage, updateMessage_sync, hsplit, List.append_assoc, List.cons_append,
      List.nil_append]
  rw [hmessage, newlineSplit_line (OneLine.append (by decide) (OneLine.append (by decide) hsubject)),
    newlineSplit_line (by decide), newlineSplit_line (OneLine.append (by decide) hsha),
    newlineSplit_line (by decide)]

theorem reads_iff {message : Str} :
    reads p.name message = true ↔ ∃ line ∈ newlineSplit message, ReadsLine p.name line := by
  simp only [reads, List.any_eq_true, readsLine_iff]

theorem not_readsLine_upstream {q sha : Str} : ¬ ReadsLine q ("Upstream: ".toList ++ sha) :=
  not_readsLine (by decide) (by decide)

theorem reads_import {upstream version release branch sha : Str}
    (h : OneLine (Origin.importText upstream version release) ∧ OneLine branch ∧ OneLine sha) :
    reads p.name (importMessage upstream version release branch sha) = true ↔
      ReadsAsImport p.name (Origin.importText upstream version release) := by
  have hbranch : ¬ ReadsLine p.name ("Branch: ".toList ++ branch) :=
    not_readsLine (by decide) (by decide)
  rw [reads_iff, lines_import h.1 h.2.1 h.2.2]
  simp only [List.mem_cons, List.not_mem_nil, or_false, exists_eq_or_imp, exists_eq_left,
    readsLine_import, not_readsLine_nil, hbranch, not_readsLine_upstream]

theorem reads_trailer {subject sha : Str} (hsubject : OneLine subject) (hsha : OneLine sha) :
    reads p.name (("Sync ".toList ++ subject) ++ '\n' :: ([] ++ '\n' :: ("Upstream: ".toList ++ sha))) =
      true ↔ ReadsAsSync p.name subject := by
  rw [reads_iff, lines_trailer (OneLine.append (by decide) hsubject) hsha]
  simp only [List.mem_cons, List.not_mem_nil, or_false, exists_eq_or_imp, exists_eq_left,
    readsLine_sync, not_readsLine_nil, not_readsLine_upstream]

theorem reads_manual {dir : Str} {t : Target} {plan : UpdatePlan} (reason : Str)
    (h : OneLine (Origin.syncText dir t plan) ∧ OneLine plan.latestSha) :
    reads p.name (savedMessage (updateMessage dir t plan true) (some reason)) = true ↔
      ∃ line ∈ newlineSplit reason, ReadsLine p.name line := by
  have hfirst : ¬ ReadsLine p.name (manualGorgetPrefix ++ ("Sync ".toList ++ Origin.syncText dir t plan)) :=
    not_readsLine (by decide) (by decide)
  rw [reads_iff, lines_manual h.1 h.2]
  simp only [List.mem_cons, exists_eq_or_imp, hfirst, not_readsLine_nil, not_readsLine_upstream,
    false_or]

/-- A sync that writes the directory's own name in its subject is always found. -/
theorem readsAsSync_syncText {t : Target} {plan : UpdatePlan} :
    ReadsAsSync p.name (Origin.syncText p.name t plan) := by
  rw [Origin.syncText, List.append_assoc]
  exact readsAsSync_self

theorem readsAsSync_markText {version release : Str} :
    ReadsAsSync p.name (Origin.markText p.name version release) := by
  rw [Origin.markText, List.append_assoc]
  exact readsAsSync_self

/-- **`misread_iff`** — the misread commits are those that the lookup and the history disagree on. -/
theorem misread_iff (h : o.OneLine) :
    Misread p.name o ↔ reads p.name o.message ≠ o.syncs p.name := by
  cases o with
  | imported dir upstream version release branch sha =>
      have hreads := reads_import (p := p) h
      by_cases hdir : dir = p.name
      · simp [Misread, Origin.message, Origin.syncs, hdir, ← hreads]
      · simp [Misread, Origin.message, Origin.syncs, hdir, ← hreads]
  | synced dir t plan reason =>
      cases reason with
      | none =>
          have hreads := reads_trailer (p := p) h.1 h.2
          rw [← updateMessage_sync] at hreads
          by_cases hdir : dir = p.name
          · subst hdir
            simp [Misread, Origin.message, Origin.syncs, savedMessage, hreads.mpr readsAsSync_syncText]
          · simp [Misread, Origin.message, Origin.syncs, savedMessage, hdir, ← hreads]
      | some reason =>
          have hreads := reads_manual (p := p) reason h
          by_cases hdir : dir = p.name
          · have hnot : (∀ line ∈ newlineSplit reason, ¬ ReadsLine p.name line) ↔
                reads p.name (savedMessage (updateMessage dir t plan true) (some reason)) ≠ true := by
              rw [Ne, hreads]
              push Not
              rfl
            simp [Misread, Origin.message, Origin.syncs, hdir, hnot]
          · simp [Misread, Origin.message, Origin.syncs, hdir, ← hreads]
  | marked dir t version release =>
      have hreads := reads_trailer (p := p) h.1 h.2
      rw [← markMessage_eq] at hreads
      by_cases hdir : dir = p.name
      · subst hdir
        simp [Misread, Origin.message, Origin.syncs, hreads.mpr readsAsSync_markText]
      · simp [Misread, Origin.message, Origin.syncs, hdir, ← hreads]
  | other message => simp [Misread, Origin.message, Origin.syncs, ← reads_iff]

theorem wellRead_iff (h : o.OneLine) :
    WellRead p.name o ↔ reads p.name o.message = true ∧ o.syncs p.name = true := by
  cases o with
  | imported dir upstream version release branch sha =>
      simp only [WellRead, Origin.message, Origin.syncs, decide_eq_true_eq, reads_import h]
      exact and_comm
  | synced dir t plan reason =>
      simp only [Origin.message, Origin.syncs, decide_eq_true_eq]
      cases reason with
      | none =>
          have hreads := reads_trailer (p := p) h.1 h.2
          rw [← updateMessage_sync] at hreads
          show dir = p.name ↔ reads p.name (updateMessage dir t plan true) = true ∧ dir = p.name
          rw [hreads, iff_and_self]
          rintro rfl
          exact readsAsSync_syncText
      | some reason =>
          rw [reads_manual _ h]
          exact and_comm
  | marked dir t version release =>
      have hreads := reads_trailer (p := p) h.1 h.2
      rw [← markMessage_eq] at hreads
      simp only [WellRead, Origin.message, Origin.syncs, decide_eq_true_eq, hreads, iff_and_self]
      rintro rfl
      exact readsAsSync_markText
  | other message => simp [WellRead, Origin.syncs]

end Messages

/-! ## The lookup -/

section Lookup

variable {p : PackageName} {h : History}

theorem isSpace_of_isHex {c : Char} (hc : isHex c = true) : isSpace c = false ∧ c ≠ '\n' := by
  simp only [isHex, isAsciiDigit, Bool.or_eq_true, Bool.and_eq_true, decide_eq_true_eq] at hc
  constructor
  · simp only [isSpace, Bool.or_eq_false_iff, Bool.and_eq_false_iff, decide_eq_false_iff_not,
      beq_eq_false_iff_ne]
    omega
  · rintro rfl
    exact absurd hc (by decide)

theorem Sha.oneLine (s : Sha) : OneLine s.hex := fun h => (isSpace_of_isHex (s.digits _ h)).2 rfl

/-- What follows a hash in the output is stripped or comes on lines of its own. -/
theorem Sha.head?_strip (s : Sha) (rest : Str) :
    strip (s.hex ++ '\n' :: rest) ≠ [] ∧
      (newlineSplit (strip (s.hex ++ '\n' :: rest))).head? = some s.hex := by
  obtain ⟨init, last, hhex⟩ : ∃ init last, s.hex = init ++ [last] := by
    rcases List.eq_nil_or_concat s.hex with hnil | ⟨init, last, hlast⟩
    · exact absurd s.length (by simp [hnil])
    · exact ⟨init, last, by simpa using hlast⟩
  have hlast := (isSpace_of_isHex (s.digits last (by simp [hhex]))).1
  have hleft : lstripBy isSpace (s.hex ++ '\n' :: rest) = s.hex ++ '\n' :: rest := by
    cases hhead : s.hex with
    | nil => exact absurd s.length (by simp [hhead])
    | cons c cs =>
        rw [lstripBy, List.cons_append, List.dropWhile_cons_of_neg]
        rw [(isSpace_of_isHex (s.digits c (by simp [hhead]))).1]
        exact Bool.noConfusion
  obtain ⟨tail, htail⟩ := rstripBy_append hlast ('\n' :: rest) (a := init)
  have hsplit : s.hex ++ '\n' :: rest = init ++ last :: '\n' :: rest := by simp [hhex]
  have hstrip : strip (s.hex ++ '\n' :: rest) = s.hex ++ tail := by
    rw [strip, hleft, hsplit, htail, hhex, List.append_assoc]
    rfl
  have hprefix : tail <+: '\n' :: rest := by
    have hall : rstripBy isSpace (init ++ last :: '\n' :: rest) <+: init ++ last :: '\n' :: rest :=
      List.rdropWhile_prefix isSpace _
    rw [htail, List.prefix_append_right_inj] at hall
    exact (List.cons_prefix_cons.mp hall).2
  rw [hstrip]
  refine ⟨fun hnil => ?_, head?_newlineSplit_of_prefix s.oneLine hprefix⟩
  rw [hhex] at hnil
  exact absurd hnil (by simp)

/-- The lookup returns the hash of the newest commit whose message is read. -/
theorem findLastSyncCommit_eq :
    findLastSyncCommit p.name h =
      (h.commits.find? fun c => reads p.name c.origin.message).map fun c => c.sha.hex := by
  rw [findLastSyncCommit, gitLog, ← List.head?_filter]
  cases h.commits.filter fun c => reads p.name c.origin.message with
  | nil => rfl
  | cons c rest =>
      rw [List.flatMap_cons, List.append_assoc]
      have hhead := c.sha.head?_strip (rest.flatMap fun c => c.sha.hex ++ "\n".toList)
      exact (if_neg hhead.1).trans hhead.2

end Lookup

/-- **`lastSync_exact_iff`** — the lookup returns the newest commit that an import or a sync of the
directory made, and nothing if there is none, exactly when every commit it misreads lies behind a newer
one that it reads well. -/
theorem lastSync_exact_iff (p : PackageName) (h : History) :
    findLastSyncCommit p.name h =
        (h.commits.find? fun c => c.origin.syncs p.name).map (fun c => c.sha.hex) ↔
      ∀ newer c older, h.commits = newer ++ c :: older → Misread p.name c.origin →
        ∃ c' ∈ newer, WellRead p.name c'.origin := by
  rw [findLastSyncCommit_eq, find?_map_eq_iff h.distinct]
  refine forall_congr' fun newer => forall_congr' fun c => forall_congr' fun older =>
    forall_congr' fun _ => ?_
  rw [misread_iff c.oneLine]
  refine forall_congr' fun _ => exists_congr fun c' => and_congr_right fun _ => ?_
  rw [wellRead_iff c'.oneLine]

/-- The directory of the example in the help text of `import`. -/
def tomcat10 : PackageName := ⟨"tomcat10", by decide, by decide⟩

/-- A history that consists of `import fedora/tomcat rawhide --directory tomcat10`. -/
def tomcatHistory : History where
  commits := [{
    sha := ⟨List.replicate 40 'a', by decide, by decide⟩
    origin := .imported "tomcat10" "tomcat" "10.1.49" "1.fc44" "rawhide" (List.replicate 40 'b')
    oneLine := ⟨by decide, by decide, by decide⟩ }]
  distinct := by decide

/-- An import into a directory with another name is not found again. -/
theorem lastSync_misses_import :
    findLastSyncCommit tomcat10.name tomcatHistory = none ∧
      (tomcatHistory.commits.find? fun c => c.origin.syncs tomcat10.name).map (fun c => c.sha.hex) =
        some (List.replicate 40 'a') := by
  constructor
  · decide +kernel
  · decide +kernel

end HummingbirdRpms
