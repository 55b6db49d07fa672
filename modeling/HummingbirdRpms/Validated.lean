/-
# HummingbirdRpms.Validated — which commands leave a package that passes the validation.

Each command decides by itself what the record of a package says after it, from a comparison of files, and
writes a commit message of its own; the validator decides from the messages and the changes since the last
synchronisation.  The two have to agree after every commit.

**`update_passes_iff`** — a commit of `update`, `sync` or `sync --mark` on a package that passes is one that
passes, exactly if it does not, without a sync, turn a package that was recorded as modified into a clean one:
the history before it still holds the local commits.  **`resumed_passes_iff`** says the same of an update that is
taken up after an interruption, where a sync is not read as one any more if gorget has failed.

**`session_passes`** — the packages that pass go on passing, through any session of commands that keep to these
conditions, whatever happens to other packages meanwhile.
-/
import HummingbirdRpms.Reruns
import HummingbirdRpms.Sessions
import HummingbirdRpms.Validation

namespace HummingbirdRpms.Validation

open Lib Lib.Text Lib.Exec Lib.Trace Lib.Grep

/-! ## What is validated -/

/-- The last commit, checked out in a directory of its own. -/
def checkedOut (w : World) : World :=
  { World.empty with
    metadata := fun q => (w.head q).metadata
    rpms := fun q => if (w.head q).rpms.paths = [] then none else some (w.head q).rpms
    overrides := w.overrides
    commits := w.commits }

/-- The fast mode passes a package at the last commit. -/
def Passes [UnicodeTables] (k : Checks) (env : Env) (p : Str) (w : World) : Prop :=
  validatePackage k env (checkedOut w) p false = .ok ()

/-- A package that passes with this record and this status, and whose local commits keep the policy in spec files
of whatever name. -/
structure Sound [UnicodeTables] (k : Checks) (p : Str) (w : World) (m : PackageMetadata)
    (s : ModificationStatus) : Prop where
  record : (w.head p).metadata = some m
  status : m.modificationStatus = some s
  dependent : s ≠ .independent
  fields : FieldsOk m
  directory : (w.head p).rpms.paths ≠ []
  policy : Compliant k p w.commits
  history : HistoryClean k p w.commits ↔ s = .clean

section

variable [UnicodeTables] {k : Checks} {env : Env} {p : Str} {w w' : World} {m m' : PackageMetadata}
  {s s' : ModificationStatus} {c : Commit}

/-- A package that keeps the policy passes with a good record that says what the history says. -/
theorem passes_iff (record : (w.head p).metadata = some m) (status : m.modificationStatus = some s)
    (dependent : s ≠ .independent) (policy : Compliant k p w.commits) :
    Passes k env p w ↔
      FieldsOk m ∧ (w.head p).rpms.paths ≠ [] ∧ (HistoryClean k p w.commits ↔ s = .clean) := by
  unfold Passes
  rw [validatePackage_fast_iff]
  have hdir : (checkedOut w).rpms p ≠ none ↔ (w.head p).rpms.paths ≠ [] := by
    show (if (w.head p).rpms.paths = [] then none else some (w.head p).rpms) ≠ none ↔ _
    split <;> simp_all
  constructor
  · rintro ⟨m₁, hm₁, hrpms, haccepted⟩
    obtain rfl := Option.some.inj (record.symm.trans hm₁)
    cases haccepted with
    | independent hindependent _ => exact absurd (Option.some.inj (status.symm.trans hindependent)) dependent
    | dependent hstatus _ fields _ history =>
        obtain rfl := Option.some.inj (status.symm.trans hstatus)
        exact ⟨fields, hdir.mp hrpms, history⟩
  · rintro ⟨fields, hfiles, history⟩
    refine ⟨m, record, hdir.mpr hfiles, .dependent status dependent fields ?_ history⟩
    show checkPolicy k (checkedOut w) p (findLastSyncCommit k p w.commits) = .ok ()
    unfold checkPolicy
    rw [show (checkedOut w).commits = w.commits from rfl, policy_valid policy]

theorem Sound.passes (h : Sound k p w m s) : Passes k env p w :=
  (passes_iff h.record h.status h.dependent h.policy).mpr ⟨h.fields, h.directory, h.history⟩

omit [UnicodeTables] in
theorem head_of_commits (hcommits : w'.commits = c :: w.commits) : w'.head p = c.content p := by
  unfold World.head
  rw [hcommits]

omit [UnicodeTables] in
/-- A commit with a trailer is no local change. -/
theorem bad_of_upstream {e : Entry} (h : hasUpstream e.commit.message = true) : bad k p e = false := by
  simp [bad, h]

theorem Sound.of_commits (h : Sound k p w m s) (hcommits : w'.commits = w.commits) : Sound k p w' m s := by
  have hhead : w'.head p = w.head p := by
    unfold World.head
    rw [hcommits]
  refine ⟨hhead ▸ h.record, h.status, h.dependent, h.fields, hhead ▸ h.directory, ?_, ?_⟩
  · rw [hcommits]
    exact h.policy
  · rw [hcommits]
    exact h.history

/-- A commit that has the package as it is, and is not read as a synchronisation, changes nothing. -/
theorem Sound.other (h : Sound k p w m s) (hcommits : w'.commits = c :: w.commits)
    (hcontent : c.content p = w.head p) (hreads : reads p c.message = false) : Sound k p w' m s := by
  have hhead : w'.head p = w.head p := (head_of_commits hcommits).trans hcontent
  have htouches : (Entry.mk c w.commits).touches p = false := by
    have hold : (Entry.mk c w.commits).old p = (w.head p).rpms := by
      unfold Entry.old World.head
      cases w.commits <;> rfl
    have hnew : (Entry.mk c w.commits).new p = (w.head p).rpms := congrArg Tracked.rpms hcontent
    simp [Entry.touches, hold, hnew]
  refine ⟨hhead ▸ h.record, h.status, h.dependent, h.fields, hhead ▸ h.directory, ?_, ?_⟩
  · rw [hcommits]
    exact compliant_cons h.policy fun _ hnot => absurd (htouches.symm.trans hnot) (by simp)
  · have hbad : bad k p ⟨c, w.commits⟩ = false := by simp [bad, htouches]
    rw [hcommits, historyClean_cons, hreads, hbad, ← h.history]
    simp

/-- A commit with a trailer that holds a good record of a package. -/
structure Trailed (p : Str) (c : Commit) (m : PackageMetadata) (s : ModificationStatus) : Prop where
  upstream : hasUpstream c.message = true
  record : (c.content p).metadata = some m
  status : m.modificationStatus = some s
  dependent : s ≠ .independent
  fields : FieldsOk m

theorem Sound.policy_trailed (h : Sound k p w m s) (hcommits : w'.commits = c :: w.commits)
    (hupstream : hasUpstream c.message = true) : Compliant k p w'.commits := by
  rw [hcommits]
  exact compliant_cons h.policy fun _ _ _ hnot => absurd (hupstream.symm.trans hnot) (by simp)

theorem Sound.history_trailed (h : Sound k p w m s) (hcommits : w'.commits = c :: w.commits)
    (hupstream : hasUpstream c.message = true) :
    HistoryClean k p w'.commits ↔ reads p c.message = true ∨ s = .clean := by
  rw [hcommits, historyClean_cons, bad_of_upstream hupstream, h.history]
  simp

/-- **`Sound.trailed`** — on top of a package that passes, a commit with a trailer passes with the status that the
history has now: it is clean if it was, or if the commit is read as a synchronisation. -/
theorem Sound.trailed (h : Sound k p w m s) (hcommits : w'.commits = c :: w.commits) (hc : Trailed p c m' s') :
    Passes k env p w' ↔
      (c.content p).rpms.paths ≠ [] ∧ ((reads p c.message = true ∨ s = .clean) ↔ s' = .clean) := by
  have hhead := head_of_commits (p := p) hcommits
  rw [passes_iff (hhead ▸ hc.record) hc.status hc.dependent (h.policy_trailed hcommits hc.upstream), hhead,
    h.history_trailed hcommits hc.upstream]
  simp [hc.fields]

theorem Sound.of_trailed (h : Sound k p w m s) (hcommits : w'.commits = c :: w.commits) (hc : Trailed p c m' s')
    (hkeeps : (reads p c.message = true ∨ s = .clean) ↔ s' = .clean) (hdirectory : (w'.head p).rpms.paths ≠ []) :
    Sound k p w' m' s' where
  record := (congrArg Tracked.metadata (head_of_commits hcommits)).trans hc.record
  status := hc.status
  dependent := hc.dependent
  fields := hc.fields
  directory := hdirectory
  policy := h.policy_trailed hcommits hc.upstream
  history := (h.history_trailed hcommits hc.upstream).trans hkeeps

end

/-! ## The messages -/

section

variable {p : PackageName} {t : Target} {plan : UpdatePlan} {sync : Bool} {reason : Option Str}

/-- The first word of the subject. -/
def updateWord (sync : Bool) : Str := if sync then "Sync ".toList else "Update ".toList

theorem oneLine_updateWord : Grep.OneLine (updateWord sync) := by
  cases sync <;> decide

theorem updateMessage_eq {dir : Str} :
    updateMessage dir t plan sync = (updateWord sync ++ Origin.syncText dir t plan) ++
      '\n' :: ([] ++ '\n' :: ("Upstream: ".toList ++ plan.latestSha)) := by
  have hsplit : "\n\nUpstream: ".toList = '\n' :: '\n' :: "Upstream: ".toList := by decide
  simp only [updateMessage, updateWord, Origin.syncText, hsplit, List.append_assoc, List.cons_append,
    List.nil_append]

/-- The lines of a message that is saved, with the reason that gorget gave, if it gave one. -/
theorem lines_savedMessage {dir : Str} (hsubject : Grep.OneLine (Origin.syncText dir t plan))
    (hsha : Grep.OneLine plan.latestSha) :
    newlineSplit (savedMessage (updateMessage dir t plan sync) reason) =
      ((reason.elim [] fun _ => manualGorgetPrefix) ++ (updateWord sync ++ Origin.syncText dir t plan)) ::
        [] :: ("Upstream: ".toList ++ plan.latestSha) ::
        (reason.elim [] fun text => [] :: newlineSplit text) := by
  have hword : Grep.OneLine (updateWord sync ++ Origin.syncText dir t plan) :=
    Grep.OneLine.append oneLine_updateWord hsubject
  cases reason with
  | none =>
      rw [savedMessage, updateMessage_eq, lines_trailer hword hsha]
      rfl
  | some text =>
      have hmessage : savedMessage (updateMessage dir t plan sync) (some text) =
          (manualGorgetPrefix ++ (updateWord sync ++ Origin.syncText dir t plan)) ++
            '\n' :: ([] ++ '\n' :: (("Upstream: ".toList ++ plan.latestSha) ++ '\n' :: ([] ++ '\n' :: text))) := by
        have hsplit : "\n\n".toList = ['\n', '\n'] := rfl
        simp only [savedMessage, updateMessage_eq, hsplit, List.append_assoc, List.cons_append,
          List.nil_append]
      rw [hmessage, newlineSplit_line (Grep.OneLine.append (by decide) hword), newlineSplit_line (by decide),
        newlineSplit_line (Grep.OneLine.append (by decide) hsha), newlineSplit_line (by decide)]
      rfl

theorem hasUpstream_savedMessage {dir : Str} (hsubject : Grep.OneLine (Origin.syncText dir t plan))
    (hsha : Grep.OneLine plan.latestSha) :
    hasUpstream (savedMessage (updateMessage dir t plan sync) reason) = true := by
  unfold hasUpstream
  rw [lines_savedMessage hsubject hsha]
  simp [startsWith]

/-- Only a sync is read as one, and only without a reason in front, unless the reason itself is read as one. -/
theorem reads_savedMessage (hsubject : Grep.OneLine (Origin.syncText p.name t plan))
    (hsha : Grep.OneLine plan.latestSha) (hreason : ∀ text, reason = some text → reads p.name text = false) :
    reads p.name (savedMessage (updateMessage p.name t plan sync) reason) = true ↔
      sync = true ∧ reason = none := by
  rw [reads_iff, lines_savedMessage hsubject hsha]
  simp only [List.mem_cons, exists_eq_or_imp, not_readsLine_nil, not_readsLine_upstream, false_or]
  cases reason with
  | none =>
      have hfirst : ReadsLine p.name (updateWord sync ++ Origin.syncText p.name t plan) ↔ sync = true := by
        cases sync with
        | true => exact iff_of_true (readsLine_sync.mpr readsAsSync_syncText) rfl
        | false => exact iff_of_false (not_readsLine (by decide) (by decide)) Bool.false_ne_true
      simpa using hfirst
  | some text =>
      have hfirst :
          ¬ ReadsLine p.name (manualGorgetPrefix ++ (updateWord sync ++ Origin.syncText p.name t plan)) :=
        not_readsLine (by decide) (by decide)
      have hrest : ¬ ∃ line ∈ newlineSplit text, ReadsLine p.name line := by
        rw [← reads_iff, hreason text rfl]
        exact Bool.false_ne_true
      simpa [hfirst, not_readsLine_nil] using hrest

theorem markMessage_reads {version release : Str} (hsubject : Grep.OneLine (Origin.markText p.name version release))
    (hsha : Grep.OneLine t.latestSha) :
    hasUpstream (markMessage p.name t version release) = true ∧
      reads p.name (markMessage p.name t version release) = true := by
  rw [markMessage_eq]
  refine ⟨?_, (reads_trailer hsubject hsha).mpr readsAsSync_markText⟩
  unfold hasUpstream
  rw [lines_trailer (Grep.OneLine.append (by decide) hsubject) hsha]
  simp [startsWith]

end

/-! ## The records -/

section

variable {p : Str} {t : Target} {plan : UpdatePlan} {sync : Bool}

/-- The status that an update records. -/
def updatedStatus (plan : UpdatePlan) (sync : Bool) (s : ModificationStatus) : ModificationStatus :=
  if sync || !plan.hasModifications then .clean else s

theorem updatedMetadata_status {s : ModificationStatus} (h : t.metadata.modificationStatus = some s) :
    (updatedMetadata t plan sync).modificationStatus = some (updatedStatus plan sync s) := by
  show (if sync || !plan.hasModifications then some .clean else t.metadata.modificationStatus) = _
  rw [h, updatedStatus]
  split <;> rfl

theorem updatedStatus_dependent {s : ModificationStatus} (h : s ≠ .independent) :
    updatedStatus plan sync s ≠ .independent := by
  unfold updatedStatus
  split
  · decide
  · exact h

theorem FieldsOk.updated (h : FieldsOk t.metadata) (hsource : t.metadata.source = some t.source) :
    FieldsOk (updatedMetadata t plan sync) where
  release hnone := absurd (hsource.symm.trans hnone) (by simp)
  project := h.project
  reason hmodified := by
    have hstatus : (if sync || !plan.hasModifications then some .clean else t.metadata.modificationStatus) =
        some ModificationStatus.modified := hmodified
    show given (if sync || !plan.hasModifications then none else t.metadata.modificationReason) ≠ none
    split at hstatus
    · exact absurd hstatus (by simp)
    · rename_i hkept
      rw [if_neg hkept]
      exact h.reason hstatus

theorem FieldsOk.marked (h : FieldsOk t.metadata) (hsource : t.metadata.source = some t.source) :
    FieldsOk (markedMetadata t) where
  release hnone := absurd (hsource.symm.trans hnone) (by simp)
  project := h.project
  reason hmodified := absurd hmodified (by simp [markedMetadata])

end

/-! ## `update` -/

/-- The texts that an update writes into a line have no line break. -/
def oneLineTexts (p : Str) : Decision → Prop
  | .skip => True
  | .mark t version release => Grep.OneLine (Origin.markText p version release) ∧ Grep.OneLine t.latestSha
  | .apply t plan => Grep.OneLine (Origin.syncText p t plan) ∧ Grep.OneLine plan.latestSha

/-- Whether the status that an update records is the one that the history has after it. -/
def KeepsStatus (args : UpdateArgs) (s : ModificationStatus) : Decision → Prop
  | .apply _ plan => args.sync = true ∨ s = .clean ∨ plan.hasModifications = true
  | _ => True

section

variable [UnicodeTables] {k : Checks} {env env' : Env} {p : PackageName} {w : World} {m : PackageMetadata}
  {s : ModificationStatus} {c : Commit} {args : UpdateArgs} {decision : Decision}

theorem creates_of_apply {t : Target} {plan : UpdatePlan}
    (h : updateDecision env w p.name args = .ok (.apply t plan)) (hcreates : Creates (update env p.name args) w c) :
    c.message = updateMessage p.name t plan args.sync ∧
      (c.content p.name).metadata = some (updatedMetadata t plan args.sync) := by
  have hends := @applyUpdate_cases _ env p.name args t plan w
  rw [Creates, final, update_of_apply h] at hcreates
  generalize applyUpdate env p.name args t plan w = r at hends hcreates
  -- every other end leaves the commits as they were
  have hsame : ∀ w' : World, w'.commits = w.commits → w'.commits = c :: w.commits → False :=
    fun w' hw' hc => List.cons_ne_self c w.commits (hc.symm.trans hw')
  cases hends with
  | notPlaced => exact (hsame _ rfl hcreates).elim
  | unhandled _ _ _ gorget => exact (hsame _ (steps_runGorgetForUpdatedPackage.error gorget).commits hcreates).elim
  | dry => exact (hsame _ rfl hcreates).elim
  | interrupted _ _ gorget => exact (hsame _ (steps_gorgetStep.ok gorget).commits hcreates).elim
  | committed commits =>
      obtain ⟨rfl, -⟩ := List.cons.inj (commits.commit.final_commits.symm.trans hcreates)
      exact ⟨commits.commit.message, by rw [commits.commit.content.metadata]; simp [World.setMetadata]⟩
  | notCommitted _ _ _ gorget frame =>
      exact (hsame _ (frame.commits.trans (steps_runGorgetForUpdatedPackage.ok gorget).commits) hcreates).elim

theorem creates_of_mark {t : Target} {version release : Str}
    (h : updateDecision env w p.name args = .ok (.mark t version release))
    (hcreates : Creates (update env p.name args) w c) :
    c.message = markMessage p.name t version release ∧
      (c.content p.name).metadata = some (markedMetadata t) := by
  have hends := @applyMark_cases env p.name args t w version release
  rw [Creates, final, update_of_mark h] at hcreates
  generalize applyMark env p.name args t version release w = r at hends hcreates
  cases hends with
  | dry => exact absurd hcreates.symm (List.cons_ne_self c w.commits)
  | notCommitted => exact absurd hcreates.symm (List.cons_ne_self c w.commits)
  | committed wet commits =>
      rw [commits.final] at hcreates
      obtain ⟨rfl, -⟩ := List.cons.inj hcreates
      exact ⟨commits.message, by rw [commits.content, Function.update_self]⟩

/-- What a commit of an update says, and what it is read as. -/
theorem update_trailed (h : Sound k p.name w m s) (hrecord : w.imports p.name = some m)
    (hdecision : updateDecision env w p.name args = .ok decision) (hline : oneLineTexts p.name decision)
    (hcreates : Creates (update env p.name args) w c) :
    ∃ m' s', Trailed p.name c m' s' ∧
      (((reads p.name c.message = true ∨ s = .clean) ↔ s' = .clean) ↔ KeepsStatus args s decision) := by
  cases decision with
  -- A package that is skipped has no commit.
  | skip =>
      rw [Creates, final_of_ok (update_of_skip hdecision)] at hcreates
      exact absurd hcreates.symm (List.cons_ne_self c w.commits)
  | mark t version release =>
      obtain ⟨hmessage, hmetadata⟩ := creates_of_mark hdecision hcreates
      obtain ⟨-, htarget, -⟩ := mark_of_decision hdecision
      obtain ⟨himports, -, hsource, -⟩ := updateTarget_ok htarget
      obtain rfl := Option.some.inj (hrecord.symm.trans himports)
      obtain ⟨hupstream, hreads⟩ := markMessage_reads hline.1 hline.2
      rw [← hmessage] at hupstream hreads
      have htrailed : Trailed p.name c (markedMetadata t) .clean :=
        ⟨hupstream, hmetadata, rfl, by decide, h.fields.marked hsource⟩
      exact ⟨_, _, htrailed, by simp [hreads, KeepsStatus]⟩
  | apply t plan =>
      obtain ⟨hmessage, hmetadata⟩ := creates_of_apply hdecision hcreates
      obtain ⟨_, _, _, hplanned⟩ := planned_of_apply hdecision
      obtain ⟨himports, -, hsource, -⟩ := updateTarget_ok hplanned.target
      obtain rfl := Option.some.inj (hrecord.symm.trans himports)
      have hupstream : hasUpstream c.message = true := by
        rw [hmessage]
        exact @hasUpstream_savedMessage t plan args.sync none p.name hline.1 hline.2
      have hreads : reads p.name c.message = true ↔ args.sync = true := by
        rw [hmessage]
        exact (@reads_savedMessage p t plan args.sync none hline.1 hline.2 (by simp)).trans (and_iff_left rfl)
      refine ⟨_, updatedStatus plan args.sync s, ⟨hupstream, hmetadata, updatedMetadata_status h.status,
        updatedStatus_dependent h.dependent, h.fields.updated hsource⟩, ?_⟩
      rw [hreads, KeepsStatus, updatedStatus]
      cases args.sync <;> cases plan.hasModifications <;> simp

/-- **`update_passes_iff`** — what an update, a sync or a mark commits of a package that passes passes, exactly if
something of the directory is committed and a package that was recorded as modified is not turned clean without a
sync. -/
theorem update_passes_iff (h : Sound k p.name w m s) (hrecord : w.imports p.name = some m)
    (hdecision : updateDecision env w p.name args = .ok decision) (hline : oneLineTexts p.name decision)
    (hcreates : Creates (update env p.name args) w c) :
    Passes k env' p.name (final (update env p.name args) w) ↔
      (c.content p.name).rpms.paths ≠ [] ∧ KeepsStatus args s decision := by
  obtain ⟨m', s', htrailed, hkeeps⟩ := update_trailed h hrecord hdecision hline hcreates
  rw [h.trailed hcreates htrailed, hkeeps]

end

/-! ## Interrupted updates -/

/-- The state file that an update of a package with this record has left. -/
structure LeftBy [UnicodeTables] (p : Str) (m : PackageMetadata) (args : UpdateArgs) (t : Target)
    (plan : UpdatePlan) (reason : Option Str) (state : UpdateState) : Prop where
  state : state = interrupted p args t plan reason
  decision : ∃ env w, w.imports p = some m ∧ updateDecision env w p args = .ok (.apply t plan)
  line : Grep.OneLine (Origin.syncText p t plan) ∧ Grep.OneLine plan.latestSha
  /-- What gorget has said does not read like a synchronisation. -/
  reason : ∀ text, reason = some text → reads p text = false

/-- Whether the status that the interrupted update records is the one that the history has after its commit: a sync
that gorget has failed for is not read as one. -/
def KeepsStatusResumed (args : UpdateArgs) (plan : UpdatePlan) (reason : Option Str)
    (s : ModificationStatus) : Prop :=
  s = .clean ∨ if args.sync then reason = none else plan.hasModifications = true

section

variable [UnicodeTables] {k : Checks} {env env' : Env} {p : PackageName} {w : World} {m : PackageMetadata}
  {s : ModificationStatus} {c : Commit} {args : UpdateArgs} {t : Target} {plan : UpdatePlan} {reason : Option Str}
  {state : UpdateState}

/-- What a commit of an interrupted update says, and what it is read as. -/
theorem resumed_trailed (h : Sound k p.name w m s) (hleft : LeftBy p.name m args t plan reason state)
    (hmessage : c.message = state.commitMsg) (hmetadata : (c.content p.name).metadata = state.metadata) :
    ∃ m' s', Trailed p.name c m' s' ∧
      (((reads p.name c.message = true ∨ s = .clean) ↔ s' = .clean) ↔ KeepsStatusResumed args plan reason s) := by
  obtain ⟨rfl, ⟨_, _, hrecord, hdecision⟩, hline, hreason⟩ := hleft
  obtain ⟨_, _, _, hplanned⟩ := planned_of_apply hdecision
  obtain ⟨himports, -, hsource, -⟩ := updateTarget_ok hplanned.target
  obtain rfl := Option.some.inj (hrecord.symm.trans himports)
  have hupstream : hasUpstream c.message = true := by
    rw [hmessage]
    exact hasUpstream_savedMessage hline.1 hline.2
  have hreads : reads p.name c.message = true ↔ args.sync = true ∧ reason = none := by
    rw [hmessage]
    exact reads_savedMessage hline.1 hline.2 hreason
  refine ⟨_, updatedStatus plan args.sync s, ⟨hupstream, hmetadata, updatedMetadata_status h.status,
    updatedStatus_dependent h.dependent, h.fields.updated hsource⟩, ?_⟩
  rw [hreads, KeepsStatusResumed, updatedStatus]
  cases args.sync <;> cases plan.hasModifications <;> simp [or_comm]

theorem creates_of_continue {dryRun : Bool} (hstate : w.state = some state)
    (hcreates : Creates (continueUpdate env dryRun) w c) : c.message = state.commitMsg ∧
      ∀ m, state.metadata = some m → (c.content state.package).metadata = some m := by
  have hends := @continueUpdate_cases _ env w dryRun state hstate
  rw [Creates, final] at hcreates
  generalize continueUpdate env dryRun w = r at hends hcreates
  have hsame : ∀ w' : World, w'.commits = w.commits → w'.commits = c :: w.commits → False :=
    fun w' hw' hc => List.cons_ne_self c w.commits (hc.symm.trans hw')
  cases hends with
  | noDir => exact (hsame _ rfl hcreates).elim
  | conflict => exact (hsame _ rfl hcreates).elim
  | unhandled _ _ gorget => exact (hsame _ (steps_continueGorget.error gorget).commits hcreates).elim
  | manual _ _ gorget => exact (hsame _ (steps_continueGorget.ok gorget).commits hcreates).elim
  | dry _ gorget => exact (hsame _ (steps_continueGorget.ok gorget).commits hcreates).elim
  | notCommitted _ gorget frame =>
      refine (hsame _ (frame.commits.trans ?_) hcreates).elim
      rw [saved_commits]
      exact (steps_continueGorget.ok gorget).commits
  | committed wet commits =>
      obtain ⟨-, -, gorget, w₃, commit, rfl⟩ := commits
      obtain ⟨rfl, -⟩ := List.cons.inj (commit.final_commits.symm.trans hcreates)
      refine ⟨commit.message, fun m hm => ?_⟩
      rw [commit.content.metadata, hm]
      simp [World.saved, World.setMetadata]

/-- A run that commits what an interrupted update has left: `update --continue`, or the commit of the driver. -/
inductive Resumes (env : Env) (p : Str) (w : World) : World → Prop
  | continued {dryRun : Bool} : Resumes env p w (final (continueUpdate env dryRun) w)
  | driver : Resumes env p w (final (conflictCommit env p) w)

theorem creates_of_resumed {w' : World} (hresumes : Resumes env p.name w w') (hstate : w.state = some state)
    (hleft : LeftBy p.name m args t plan reason state) (hcommits : w'.commits = c :: w.commits) :
    c.message = state.commitMsg ∧ (c.content p.name).metadata = state.metadata := by
  obtain ⟨rfl, -⟩ := hleft
  cases hresumes with
  | continued =>
      obtain ⟨hmessage, hcontent⟩ := creates_of_continue hstate hcommits
      exact ⟨hmessage, hcontent _ rfl⟩
  | driver =>
      rcases @conflictCommit_cases env p.name w with hsame | ⟨s', c', hcommit⟩
      · exact absurd (hsame.symm.trans hcommits).symm (List.cons_ne_self c w.commits)
      · obtain rfl := Option.some.inj (hstate.symm.trans hcommit.state)
        rw [hcommit.final] at hcommits
        obtain ⟨rfl, -⟩ := List.cons.inj hcommits
        exact ⟨hcommit.message, by rw [hcommit.content, Function.update_self]⟩

/-- **`resumed_passes_iff`** — what is committed of an interrupted update of a package that passes, by
`update --continue` or by the driver, passes exactly if something of the directory is committed, and if the package
was clean, or is not turned clean by what is not read as a sync. -/
theorem resumed_passes_iff {w' : World} (h : Sound k p.name w m s)
    (hleft : LeftBy p.name m args t plan reason state) (hstate : w.state = some state) (hresumes : Resumes env p.name w w') (hcommits : w'.commits = c :: w.commits) :
    Passes k env' p.name w' ↔
      (c.content p.name).rpms.paths ≠ [] ∧ KeepsStatusResumed args plan reason s := by
  obtain ⟨hmessage, hmetadata⟩ := creates_of_resumed hresumes hstate hleft hcommits
  obtain ⟨m', s', htrailed, hkeeps⟩ := resumed_trailed h hleft hmessage hmetadata
  rw [h.trailed hcommits htrailed, hkeeps]

end

/-! ## Rebuilds -/

/-- A change of a package that keeps the policy for local changes, in spec files of whatever name. -/
def KeepsPolicy [UnicodeTables] (k : Checks) (p : Str) (e : Entry) : Prop :=
  e.touches p = true → k.recent e.history = true → hasUpstream e.commit.message = false →
    ∀ spec, (k.showSpec (e.old p) (e.new p) spec).bind LocalPolicy.checkChange = none

section

variable [UnicodeTables] {k : Checks} {env env' : Env} {p : PackageName} {w : World} {m : PackageMetadata}
  {s : ModificationStatus} {c : Commit} {reason : Str} {dryRun : Bool}

omit [UnicodeTables] in
theorem not_reads_rebuild (hreason : Grep.OneLine reason) :
    reads p.name ("Rebuild ".toList ++ p.name ++ ": ".toList ++ reason) = false := by
  have hname : Grep.OneLine p.name := p.not_mem (by decide)
  have hline : Grep.OneLine ("Rebuild ".toList ++ p.name ++ ": ".toList ++ reason) :=
    Grep.OneLine.append (Grep.OneLine.append (Grep.OneLine.append (by decide) hname) (by decide)) hreason
  rw [Bool.eq_false_iff, Ne, reads_iff, newlineSplit_oneLine hline]
  rintro ⟨line, hmem, hreads⟩
  rw [List.mem_singleton.mp hmem, List.append_assoc, List.append_assoc] at hreads
  exact not_readsLine (by decide) (by decide) hreads

theorem creates_of_rebuild (hcreates : Creates (rebuildPackage env p.name reason dryRun) w c) :
    c.message = "Rebuild ".toList ++ p.name ++ ": ".toList ++ reason ∧
      (c.content p.name).metadata = (w.index p.name).metadata := by
  rcases @rebuildPackage_cases _ env p.name reason w dryRun with hsame | ⟨-, m, resolved, rebuilt, c', hcommit⟩
  · exact absurd (hsame.symm.trans hcreates).symm (List.cons_ne_self c w.commits)
  · rw [Creates, hcommit.final] at hcreates
    obtain ⟨rfl, -⟩ := List.cons.inj hcreates
    exact ⟨hcommit.message, by rw [hcommit.content, Function.update_self]⟩

section

variable (h : Sound k p.name w m s) (hreason : Grep.OneLine reason)
  (hstaged : (w.index p.name).metadata = (w.head p.name).metadata)
  (hpolicy : KeepsPolicy k p.name ⟨c, w.commits⟩) (hcreates : Creates (rebuildPackage env p.name reason dryRun) w c)

include h hreason hstaged hpolicy hcreates

/-- What a rebuild leaves of what the validator looks at. -/
theorem rebuild_history :
    ((final (rebuildPackage env p.name reason dryRun) w).head p.name).metadata = some m ∧
      Compliant k p.name (final (rebuildPackage env p.name reason dryRun) w).commits ∧
      (HistoryClean k p.name (final (rebuildPackage env p.name reason dryRun) w).commits ↔
        bad k p.name ⟨c, w.commits⟩ = false ∧ s = .clean) := by
  obtain ⟨hmessage, hmetadata⟩ := creates_of_rebuild hcreates
  have hcommits : (final (rebuildPackage env p.name reason dryRun) w).commits = c :: w.commits := hcreates
  have hreads : reads p.name c.message = false := by
    rw [hmessage]
    exact not_reads_rebuild hreason
  rw [head_of_commits hcommits, hcommits, hmetadata, hstaged, historyClean_cons, hreads, h.history]
  exact ⟨h.record, compliant_cons h.policy fun _ => hpolicy, by simp⟩

/-- **`rebuild_passes_iff`** — a rebuild of a package that passes, and that keeps the policy, passes exactly if
something of the directory is committed, and if the package is recorded as modified or the change is one that does
not count. -/
theorem rebuild_passes_iff :
    Passes k env' p.name (final (rebuildPackage env p.name reason dryRun) w) ↔
      (c.content p.name).rpms.paths ≠ [] ∧ (s = .clean → bad k p.name ⟨c, w.commits⟩ = false) := by
  obtain ⟨hrecord, hcompliant, hhistory⟩ := rebuild_history h hreason hstaged hpolicy hcreates
  have hcommits : (final (rebuildPackage env p.name reason dryRun) w).commits = c :: w.commits := hcreates
  have hfields := h.fields
  rw [passes_iff hrecord h.status h.dependent hcompliant, hhistory, head_of_commits hcommits]
  by_cases hclean : s = .clean <;> simp [hclean, hfields]

theorem Sound.of_rebuild (hclean : s = .clean → bad k p.name ⟨c, w.commits⟩ = false)
    (hdirectory : ((final (rebuildPackage env p.name reason dryRun) w).head p.name).rpms.paths ≠ []) :
    Sound k p.name (final (rebuildPackage env p.name reason dryRun) w) m s := by
  obtain ⟨hrecord, hcompliant, hhistory⟩ := rebuild_history h hreason hstaged hpolicy hcreates
  exact ⟨hrecord, h.status, h.dependent, h.fields, hdirectory, hcompliant,
    hhistory.trans ⟨And.right, fun hs => ⟨hclean hs, hs⟩⟩⟩

end

end

/-! ## Other packages -/

/-- What the commands on other packages do to one: nothing, if nothing of it is staged, and if their commits are not
read as a synchronisation of it. -/
def Bystands [UnicodeTables] (k : Checks) (p : Str) (w w' : World) : Prop :=
  ∃ new, w'.commits = new ++ w.commits ∧
    (w.index p = w.head p → (∀ c ∈ new, reads p c.message = false) →
      w'.index p = w'.head p ∧ ∀ m s, Sound k p w m s → Sound k p w' m s)

namespace Bystands

variable [UnicodeTables] {k : Checks} {p q : Str} {w w' : World} {m : PackageMetadata} {s : ModificationStatus}

instance : Std.Refl (Bystands k p) := ⟨fun _ => ⟨[], rfl, fun hstaged _ => ⟨hstaged, fun _ _ h => h⟩⟩⟩

instance : IsTrans World (Bystands k p) where
  trans := by
    rintro w₁ w₂ w₃ ⟨new, hnew, hfirst⟩ ⟨new', hnew', hsecond⟩
    refine ⟨new' ++ new, by rw [hnew', hnew, List.append_assoc], fun hstaged hmessages => ?_⟩
    obtain ⟨hstaged₂, hsound₂⟩ := hfirst hstaged fun c hc => hmessages c (List.mem_append_right _ hc)
    obtain ⟨hstaged₃, hsound₃⟩ := hsecond hstaged₂ fun c hc => hmessages c (List.mem_append_left _ hc)
    exact ⟨hstaged₃, fun m s h => hsound₃ m s (hsound₂ m s h)⟩

theorem of_same (hindex : w'.index p = w.index p) (hcommits : w'.commits = w.commits) : Bystands k p w w' := by
  refine ⟨[], hcommits, fun hstaged _ => ⟨?_, fun _ _ h => h.of_commits hcommits⟩⟩
  unfold World.head at hstaged ⊢
  rw [hindex, hcommits, hstaged]

/-- A commit of another package, with whatever else is staged. -/
theorem commit (hq : p ≠ q) (t : Tracked) (message : Str) : Bystands k p w
    { w.setIndex q t with commits := ⟨message, (w.setIndex q t).index⟩ :: w.commits } := by
  have hindex : (w.setIndex q t).index p = w.index p := Function.update_of_ne hq _ _
  refine ⟨[⟨message, (w.setIndex q t).index⟩], rfl, fun hstaged hmessages => ⟨rfl, fun m s h => ?_⟩⟩
  exact h.other rfl (hindex.trans hstaged) (hmessages _ (List.mem_singleton_self _))

theorem moves {env : Env} (hq : p ≠ q) : PackageMoves env q (Bystands k p) where
  setRpms _ _ := of_same rfl rfl
  imports _ _ := of_same rfl rfl
  metadata _ _ := of_same rfl rfl
  pipeline _ _ := of_same rfl rfl
  upload _ _ _ _ := of_same rfl rfl
  gorget _ _ _ := of_same rfl rfl
  state _ _ _ := of_same rfl rfl
  commit _ t message _ := commit hq t message
  refused _ _ _ := of_same (Function.update_of_ne hq _ _) rfl
  restored _ := of_same (Function.update_of_ne hq _ _) rfl

end Bystands

/-! ## Sessions -/

/-- A command that updates one package, with what the update is given. -/
inductive Updates (p : Str) : SessionCommand → UpdateArgs → Prop
  | update {skipBuildCheck dryRun allowPrerelease : Bool} {ref branch : Option Str} {order : List Str} :
      Updates p (.command (.record (.update (some p) order skipBuildCheck dryRun allowPrerelease ref branch)))
        { skipBuildCheck, dryRun, allowPrerelease, ref, branch }
  | sync {dryRun mark : Bool} {ref branch : Option Str} :
      Updates p (.command (.record (.sync p dryRun mark ref branch))) { sync := true, dryRun, mark, ref, branch }

/-- A command that commits what an interrupted update has left. -/
def IsResuming (p : Str) : SessionCommand → Prop
  | .command (.continueUpdate _) => True
  | .conflict package => package = p
  | _ => False

/-- The status that the last commit records of a package. -/
def recordedStatus (w : World) (p : Str) : Option ModificationStatus :=
  (w.head p).metadata.bind (·.modificationStatus)

/-- When a command leaves a package that passes one that passes. -/
inductive Careful [UnicodeTables] (k : Checks) (p : PackageName) (w : World) (env : Env)
    (cmd : SessionCommand) : Prop
  /-- It commits nothing. -/
  | silent (commits : (SessionCommand.after (env, cmd) w).commits = w.commits)
  /-- It is about other packages. -/
  | others (named : p.name ∉ cmd.packages)
      (resumed : ∀ dryRun state, cmd = .command (.continueUpdate dryRun) → w.state = some state →
        state.package ≠ p.name)
      (staged : w.index p.name = w.head p.name)
      (messages : ∀ new, (SessionCommand.after (env, cmd) w).commits = new ++ w.commits →
        ∀ c ∈ new, reads p.name c.message = false)
  /-- It updates or syncs the package, or marks it as synced. -/
  | updates {args : UpdateArgs} (command : Updates p.name cmd args)
      (record : w.metadata p.name = (w.head p.name).metadata)
      (keeps : ∀ decision, updateDecision env w.started p.name args = .ok decision →
        oneLineTexts p.name decision ∧ ∀ s, recordedStatus w p.name = some s → KeepsStatus args s decision)
      (directory : ((SessionCommand.after (env, cmd) w).head p.name).rpms.paths ≠ [])
  /-- It takes up an interrupted update of the package. -/
  | resumes {m : PackageMetadata} {s : ModificationStatus} {args : UpdateArgs} {t : Target} {plan : UpdatePlan}
      {reason : Option Str} {state : UpdateState} (command : IsResuming p.name cmd) (saved : w.state = some state)
      (record : (w.head p.name).metadata = some m) (status : m.modificationStatus = some s)
      (left : LeftBy p.name m args t plan reason state) (keeps : KeepsStatusResumed args plan reason s)
      (directory : ((SessionCommand.after (env, cmd) w).head p.name).rpms.paths ≠ [])
  /-- It rebuilds the package. -/
  | rebuilds {reason : Str} {dryRun : Bool} (command : cmd = .command (.rebuild p.name reason dryRun))
      (line : Grep.OneLine reason) (staged : (w.index p.name).metadata = (w.head p.name).metadata)
      (change : ∀ c, Creates (rebuildPackage env p.name reason dryRun) w.started c →
        KeepsPolicy k p.name ⟨c, w.commits⟩ ∧
          (recordedStatus w p.name = some .clean → bad k p.name ⟨c, w.commits⟩ = false))
      (directory : ((SessionCommand.after (env, cmd) w).head p.name).rpms.paths ≠ [])

/-- Each command of a session is careful with a package in the world that it finds. -/
def CarefulSession [UnicodeTables] (k : Checks) (p : PackageName) : List (Env × SessionCommand) → World → Prop
  | [], _ => True
  | c :: session, w => Careful k p w c.1 c.2 ∧ CarefulSession k p session (SessionCommand.after c w)

section

variable [UnicodeTables] {k : Checks} {env : Env} {p : PackageName} {w : World} {cmd : SessionCommand}
  {m : PackageMetadata} {s : ModificationStatus} {session : List (Env × SessionCommand)}

theorem Sound.recordedStatus (h : Sound k p.name w m s) : recordedStatus w p.name = some s := by
  unfold Validation.recordedStatus
  rw [h.record]
  exact h.status

/-- A command that updates a package runs the update as a process that has just read the records. -/
theorem after_updates {args : UpdateArgs} (hcommand : Updates p.name cmd args) :
    ∃ state, SessionCommand.after (env, cmd) w =
      final (update env p.name args) { w.started with state := state } := by
  cases hcommand with
  | sync => exact ⟨w.started.state, rfl⟩
  | update =>
      rename_i skipBuildCheck dryRun allowPrerelease ref branch order
      refine ⟨none, ?_⟩
      have hname : given (some p.name) = some p.name := by
        simp [given, p.nonempty]
      show final (RecordCommand.main env (.update (some p.name) order skipBuildCheck dryRun allowPrerelease ref
        branch)) w.started = _
      have hnot : ¬(given branch ≠ none ∧ given (some p.name) = none) := by simp [hname]
      unfold RecordCommand.main
      rw [final_bind_of_ok (run_modify _ w.started), final_raiseIf_bind, if_neg hnot, hname]
      cases hrun : update env p.name { skipBuildCheck, dryRun, allowPrerelease, ref, branch }
          { w.started with state := none } with
      | ok u w' =>
          exact (final_of_ok (run_bind_of_ok hrun)).trans (final_of_ok hrun).symm
      | error e w' =>
          exact (final_of_error (run_bind_of_error hrun)).trans (final_of_error hrun).symm

/-- A command that takes up an interrupted update commits nothing, or makes one commit. -/
theorem after_resumes (hcommand : IsResuming p.name cmd) :
    Resumes env p.name w.started (SessionCommand.after (env, cmd) w) ∧
      ((SessionCommand.after (env, cmd) w).commits = w.started.commits ∨
        ∃ c, (SessionCommand.after (env, cmd) w).commits = c :: w.started.commits) := by
  unfold IsResuming at hcommand
  split at hcommand
  · rename_i dryRun
    refine ⟨.continued, ?_⟩
    rcases @run_commits _ env w.started (.continueUpdate dryRun) with hsame | ⟨c, hcreates, -⟩
    · exact Or.inl hsame
    · exact Or.inr ⟨c, hcreates⟩
  · subst hcommand
    refine ⟨.driver, ?_⟩
    rcases @conflictCommit_cases env p.name w.started with hsame | ⟨_, c, hcommit⟩
    · exact Or.inl hsame
    · exact Or.inr ⟨c, congrArg World.commits hcommit.final⟩
  · exact hcommand.elim

/-- A careful command leaves a sound package sound. -/
theorem Careful.sound (hcareful : Careful k p w env cmd) (h : Sound k p.name w m s) :
    ∃ m' s', Sound k p.name (SessionCommand.after (env, cmd) w) m' s' := by
  cases hcareful with
  | silent commits => exact ⟨m, s, h.of_commits commits⟩
  -- Whatever the command does to other packages, its commits leave this one alone.
  | others named resumed staged messages =>
      have hmoves : Bystands k p.name w (SessionCommand.after (env, cmd) w) := by
        refine after_moves (fun _ _ q hq => Bystands.moves ?_) (Bystands.of_same rfl rfl)
          (fun _ => Bystands.of_same rfl rfl) fun dryRun state hcmd hstate => Bystands.moves ?_
        · rintro rfl
          exact named hq
        · exact (resumed dryRun state hcmd hstate).symm
      obtain ⟨new, hnew, hkeeps⟩ := hmoves
      exact ⟨m, s, (hkeeps staged (messages new hnew)).2 m s h⟩
  | updates command record keeps directory =>
      rename_i args
      obtain ⟨state, hafter⟩ := @after_updates _ env p w cmd args command
      rw [hafter] at directory ⊢
      have hstart : Sound k p.name { w.started with state := state } m s := h.of_commits rfl
      rcases @run_commits _ env { w.started with state := state } (.update p.name args) with
        hsame | ⟨c, hcreates, -⟩
      · exact ⟨m, s, hstart.of_commits hsame⟩
      · cases hdecision : updateDecision env { w.started with state := state } p.name args with
        | error e =>
            rw [Creates] at hcreates
            have hfinal := final_of_error (update_of_error hdecision)
            exact absurd ((congrArg World.commits hfinal).symm.trans hcreates).symm (List.cons_ne_self c _)
        | ok decision =>
            obtain ⟨hline, hstatus⟩ := keeps decision hdecision
            have himports : ({ w.started with state := state } : World).imports p.name = some m :=
              record.trans h.record
            obtain ⟨m', s', htrailed, hkeeps⟩ := update_trailed hstart himports hdecision hline hcreates
            exact ⟨m', s', hstart.of_trailed hcreates htrailed
              (hkeeps.mpr (hstatus s h.recordedStatus)) directory⟩
  | resumes command saved record status left keeps directory =>
      rename_i m₁ s₁ args t plan reason state
      obtain rfl := Option.some.inj (h.record.symm.trans record)
      obtain rfl := Option.some.inj (h.status.symm.trans status)
      have hstart : Sound k p.name w.started m s := h.of_commits rfl
      obtain ⟨hresumes, hcommits⟩ : Resumes env p.name w.started (SessionCommand.after (env, cmd) w) ∧
          ((SessionCommand.after (env, cmd) w).commits = w.started.commits ∨
            ∃ c, (SessionCommand.after (env, cmd) w).commits = c :: w.started.commits) := after_resumes command
      -- It stops again without a commit, or commits under the message that the update has left.
      rcases hcommits with hsame | ⟨c, hcommits⟩
      · exact ⟨m, s, hstart.of_commits hsame⟩
      · obtain ⟨hmessage, hmetadata⟩ := creates_of_resumed hresumes saved left hcommits
        obtain ⟨m', s', htrailed, hkeeps⟩ := resumed_trailed hstart left hmessage hmetadata
        exact ⟨m', s', hstart.of_trailed hcommits htrailed (hkeeps.mpr keeps) directory⟩
  | rebuilds command line staged change directory =>
      rename_i reason dryRun
      subst command
      have hstart : Sound k p.name w.started m s := h.of_commits rfl
      rcases @rebuildPackage_cases _ env p.name reason w.started dryRun with
        hsame | ⟨-, m₁, resolved, rebuilt, c, hcommit⟩
      · exact ⟨m, s, hstart.of_commits hsame⟩
      · have hcreates : Creates (rebuildPackage env p.name reason dryRun) w.started c :=
          congrArg World.commits hcommit.final
        obtain ⟨hpolicy, hclean⟩ := change c hcreates
        have hcounts : s = .clean → bad k p.name ⟨c, w.commits⟩ = false :=
          fun hs => hclean (h.recordedStatus.trans (congrArg some hs))
        exact ⟨m, s, hstart.of_rebuild line staged hpolicy hcreates hcounts directory⟩

/-- **`session_passes`** — a package that passes goes on passing, after each command of a session of careful
commands. -/
theorem session_passes (h : Sound k p.name w m s) (hcareful : CarefulSession k p session w) (n : Nat) :
    Passes k env p.name (runAll SessionCommand.after (session.take n) w) := by
  induction session generalizing w m s n with
  | nil =>
      rw [List.take_nil]
      exact h.passes
  | cons c session ih =>
      cases n with
      | zero => exact h.passes
      | succ n =>
          obtain ⟨hc, hrest⟩ := hcareful
          obtain ⟨m', s', h'⟩ := hc.sound h
          rw [List.take_succ_cons, runAll_cons]
          exact ih h' hrest n

end

/-! ## An import and an update -/

def gccName : PackageName := ⟨"gcc", by decide, by decide⟩

/-- A clean package whose last commit has imported it. -/
def importedGcc : World :=
  { gccWorld .clean oldGcc with
    commits := [⟨"Import gcc-1-1\n\nBranch: f42\nUpstream: old",
      fun _ => ⟨oldGcc, some (gccMetadata .clean), some (.text "fetch: []\n")⟩⟩] }

theorem sound_importedGcc :
    letI := asciiTables
    Sound numbered gccName.name importedGcc (gccMetadata .clean) .clean := by
  let _ := asciiTables
  have hsince : since gccName.name importedGcc.commits = [] := by decide
  refine ⟨rfl, rfl, by decide, ⟨fun h => ?_, fun _ h => ?_, fun h => ?_⟩, by decide, fun e he => ?_, ?_⟩
  · exact absurd h (by simp [gccMetadata])
  · exact absurd h (by simp [gccMetadata])
  · exact absurd h (by simp [gccMetadata])
  · rw [hsince] at he
    exact nomatch he
  · refine iff_of_true (fun e he => ?_) rfl
    rw [hsince] at he
    exact nomatch he

/-- Version 2 appears upstream. -/
def newGcc : Env := gccEnv oldGcc respunGcc "2"

/-- What an update that reaches gorget has decided. -/
theorem apply_of_reaches [UnicodeTables] {env : Env} {w : World} {package : Str} {args : UpdateArgs}
    {test : Target → UpdatePlan → Bool}
    (h : reachesGorget env w package args (fun t plan _ => test t plan) = true) :
    ∃ t plan, updateDecision env w package args = .ok (.apply t plan) ∧ test t plan = true := by
  unfold reachesGorget at h
  split at h
  · rename_i t plan decision
    obtain ⟨-, h⟩ := Bool.and_eq_true_iff.mp h
    split at h
    · exact ⟨t, plan, decision, h⟩
    · exact absurd h Bool.false_ne_true
  · exact absurd h Bool.false_ne_true

/-- Whether an update writes nothing into a line that breaks it. -/
def writesLines (t : Target) (plan : UpdatePlan) : Bool :=
  decide (Grep.OneLine (Origin.syncText gccName.name t plan)) && decide (Grep.OneLine plan.latestSha)

theorem oneLineTexts_of_writes {t : Target} {plan : UpdatePlan} (h : writesLines t plan = true) :
    oneLineTexts gccName.name (.apply t plan) := by
  simpa [writesLines, oneLineTexts] using h

theorem update_passes_iff_gcc :
    letI := asciiTables
    ∃ c t plan, Creates (update newGcc gccName.name { skipBuildCheck := true }) importedGcc c ∧
      (Passes numbered Env.offline gccName.name
          (final (update newGcc gccName.name { skipBuildCheck := true }) importedGcc) ↔
        (c.content gccName.name).rpms.paths ≠ [] ∧
          KeepsStatus { skipBuildCheck := true } .clean (.apply t plan)) := by
  let _ := asciiTables
  have hreach : reachesGorget newGcc importedGcc gccName.name { skipBuildCheck := true }
      (fun t plan _ => writesLines t plan) = true := by decide +kernel
  obtain ⟨t, plan, hdecision, hwrites⟩ := apply_of_reaches hreach
  have hfiles : committedFiles newGcc uncheckedUpdate importedGcc sourcesName =
      [some (.text "SHA512 (a.tar) = 0\n"), some (.text "SHA512 (a.tar) = 0\n")] := by
    decide +kernel
  obtain ⟨c, hc, -⟩ := creates_of_length rfl hfiles
  exact ⟨c, t, plan, hc, update_passes_iff sound_importedGcc rfl hdecision (oneLineTexts_of_writes hwrites) hc⟩

/-- The package with an update that gorget has interrupted. -/
def leftGcc (t : Target) (plan : UpdatePlan) : World :=
  { importedGcc with
    state := some (interrupted gccName.name { skipBuildCheck := true } t plan (some "gorget failed")) }

theorem resumed_passes_iff_gcc :
    letI := asciiTables
    ∃ t plan c, (final (conflictCommit newGcc gccName.name) (leftGcc t plan)).commits = c :: importedGcc.commits ∧
      (Passes numbered Env.offline gccName.name (final (conflictCommit newGcc gccName.name) (leftGcc t plan)) ↔
        (c.content gccName.name).rpms.paths ≠ [] ∧
          KeepsStatusResumed { skipBuildCheck := true } plan (some "gorget failed") .clean) := by
  let _ := asciiTables
  have hreach : reachesGorget newGcc importedGcc gccName.name { skipBuildCheck := true }
      (fun t plan _ => writesLines t plan) = true := by decide +kernel
  obtain ⟨t, plan, hdecision, hwrites⟩ := apply_of_reaches hreach
  have hleft : LeftBy gccName.name (gccMetadata .clean) { skipBuildCheck := true } t plan (some "gorget failed")
      (interrupted gccName.name { skipBuildCheck := true } t plan (some "gorget failed")) := by
    refine ⟨rfl, ⟨newGcc, importedGcc, rfl, hdecision⟩, oneLineTexts_of_writes hwrites, ?_⟩
    intro text htext
    obtain rfl := Option.some.inj htext
    decide
  have hsound : Sound numbered gccName.name (leftGcc t plan) (gccMetadata .clean) .clean :=
    sound_importedGcc.of_commits rfl
  obtain ⟨c, hcommits⟩ : ∃ c, (final (conflictCommit newGcc gccName.name) (leftGcc t plan)).commits =
      c :: importedGcc.commits := ⟨_, rfl⟩
  exact ⟨t, plan, c, hcommits, resumed_passes_iff hsound hleft rfl .driver hcommits⟩

/-- A rebuild of another package, and the update. -/
def gccSession : List (Env × SessionCommand) :=
  [(newGcc, .command (.rebuild "curl" "CVE" false)),
    (newGcc, .command (.record (.update (some gccName.name) [] true false false none none)))]

theorem curlRebuilt_messages [UnicodeTables] {new : List Commit}
    (h : (SessionCommand.after (newGcc, .command (.rebuild "curl" "CVE" false)) importedGcc).commits =
      new ++ importedGcc.commits) : ∀ c ∈ new, reads gccName.name c.message = false := by
  rcases @rebuildPackage_cases _ newGcc "curl" "CVE" importedGcc.started false with
    hsame | ⟨-, _, _, _, c, hcommit⟩
  · have hnil : new = [] := List.self_eq_append_left.mp (hsame.symm.trans h)
    rw [hnil]
    exact fun c hc => (nomatch hc)
  · have hcommits : c :: importedGcc.commits = new ++ importedGcc.commits :=
      (congrArg World.commits hcommit.final).symm.trans h
    obtain rfl : [c] = new := List.append_cancel_right hcommits
    intro c' hc'
    rw [List.mem_singleton.mp hc', hcommit.message]
    decide

theorem session_passes_gcc :
    letI := asciiTables
    Passes numbered Env.offline gccName.name (runAll SessionCommand.after (gccSession.take 2) importedGcc) := by
  let _ := asciiTables
  have hcareful : CarefulSession numbered gccName gccSession importedGcc := by
    refine And.intro ?_ (And.intro ?_ trivial)
    · exact .others (by decide) (fun _ _ h => (nomatch h)) rfl fun _ => curlRebuilt_messages
    · refine .updates .update (by decide +kernel) (fun decision hdecision => ?_) (by decide +kernel)
      have hreach : reachesGorget newGcc
          (SessionCommand.after (newGcc, .command (.rebuild "curl" "CVE" false)) importedGcc).started gccName.name
          { skipBuildCheck := true } (fun t plan _ => writesLines t plan) = true := by decide +kernel
      obtain ⟨t, plan, hplan, hwrites⟩ := apply_of_reaches hreach
      obtain rfl := Except.ok.inj (hplan.symm.trans hdecision)
      refine ⟨oneLineTexts_of_writes hwrites, fun s hs => Or.inr (Or.inl ?_)⟩
      have hclean : recordedStatus
          (SessionCommand.after (newGcc, .command (.rebuild "curl" "CVE" false)) importedGcc) gccName.name =
          some .clean := by decide +kernel
      exact Option.some.inj (hs.symm.trans hclean)
  exact session_passes sound_importedGcc hcareful 2

end HummingbirdRpms.Validation
