/-
# HummingbirdRpms.NabGate — the evidence without which no ticket is closed as no bug.

`cmd_close_nab` asks for evidence before it writes anything.  The comment it posts shows the evidence of its
fields, wherever these are from; the gate (`_has_nab_evidence`) looks at the arguments of the command alone,
and does not count a probe of the spec file that found nothing, which is the evidence that the package has
nothing bundled.

**`nab_gate_iff`** — the gate follows what is posted exactly if the arguments have the evidence it looks
for, or there is none: no result of the spec file's probe in the arguments or the JSON, and no match in the
SBOM in the JSON that the arguments leave in place.
-/
import HummingbirdRpms.Comments

namespace HummingbirdRpms.Comments

open Lib Lib.Text Lib.Exec
open Value (Entries entry)

/-! ## Evidence -/

/-- A search of the SBOM that found something. -/
def SbomEvidence (value : Str) : Prop := strip value ≠ [] ∧ lowerAscii (strip value) ≠ "no hits".toList

/-- The fields of a comment show evidence: a match in the SBOM, or a probe of the spec file, which is
evidence also where it found no bundled reference. -/
def Evidence (fields : CommentFields) : Prop :=
  SbomEvidence (fields .sbomMatch) ∨ strip (fields .specDeps) ≠ []

instance : DecidablePred SbomEvidence := fun _ => inferInstanceAs (Decidable (_ ∧ _))

instance : DecidablePred Evidence := fun _ => inferInstanceAs (Decidable (_ ∨ _))

section

variable [UnicodeTables] {args : CommentArgs} {fields payload : CommentFields} {jira : Jira}

/-- A `close-nab` that comes to its gate: its comment is rendered from fields, and is to be posted on a
ticket. -/
structure Invocation (args : CommentArgs) (payload fields : CommentFields) : Prop where
  template : args.commentFile = none
  kind : resolveKind args "nab" ≠ []
  read : payloadFields args = .ok payload
  resolves : fields = addMessage args.message (overlay payload (commentFieldsFromArgs args))
  renders : ∃ body, renderComment (resolveKind args "nab") fields = .ok body
  posts : args.printOnly = false ∧ args.json = false
  tickets : ∃ raw rest key, args.tickets = raw :: rest ∧ normalizeHumKey raw = .ok key

/-- What the command writes. -/
def writes (jira : Jira) (args : CommentArgs) : List JiraWrite := final (cmdCloseNab jira args) []

omit [UnicodeTables] in
theorem lowerAscii_eq_nil {s : Str} : lowerAscii s = [] ↔ s = [] := List.map_eq_nil_iff

omit [UnicodeTables] in
/-- What the gate looks for in the arguments. -/
theorem hasNabEvidence_iff : hasNabEvidence args = true ↔ SbomEvidence (args.fields .sbomMatch) ∨
    strip (args.fields .specDeps) ≠ [] ∧ lowerAscii (strip (args.fields .specDeps)) ≠ "no spec-deps hits".toList := by
  unfold hasNabEvidence SbomEvidence
  simp only [ne_eq, lowerAscii_eq_nil]
  split
  · rename_i h
    exact iff_of_true rfl (Or.inl h)
  · rename_i h
    split
    · rename_i hspec
      exact iff_of_true rfl (Or.inr hspec)
    · rename_i hspec
      exact iff_of_false (by decide) (not_or.mpr ⟨h, hspec⟩)

theorem Invocation.body (h : Invocation args payload fields) :
    ∃ body, resolveCommentBody args "nab" = .ok body := by
  obtain ⟨body, hbody⟩ := h.renders
  refine ⟨body, ?_⟩
  rw [resolveCommentBody, h.template, if_neg (by decide), if_neg h.kind, resolveCommentFields, h.read]
  show renderComment _ (addMessage args.message (overlay payload (commentFieldsFromArgs args))) = _
  rw [← h.resolves, hbody]

/-- A refused command writes nothing. -/
theorem writes_refused (hgate : hasNabEvidence args = false) : writes jira args = [] := by
  have hraises : nabGate args = .error _ := if_neg (by rw [hgate]; decide)
  unfold writes cmdCloseNab commentCommand
  cases resolveCommentBody args "nab".toList with
  | error e => rfl
  | ok body =>
      rw [final_bind_of_ok (lift_ok body []), hraises]
      split
      · rfl
      · rw [final_raiseIf_bind]
        split <;> rfl

/-- An accepted one posts its comment. -/
theorem writes_accepted (h : Invocation args payload fields) (hgate : hasNabEvidence args = true) :
    writes jira args ≠ [] := by
  obtain ⟨body, hbody⟩ := h.body
  obtain ⟨raw, rest, key, htickets, hkey⟩ := h.tickets
  have hposts : ¬ (args.printOnly = true ∨ args.json = true) := by simp [h.posts]
  have hgate : nabGate args = .ok () := if_pos hgate
  unfold writes cmdCloseNab commentCommand
  rw [hbody, final_bind_of_ok (lift_ok body []), if_neg hposts, final_raiseIf_bind,
    if_neg (by rw [htickets]; exact List.cons_ne_nil _ _), hgate, final_bind_of_ok (lift_ok () []), htickets,
    eachTicket, hkey, final_bind_of_ok (lift_ok key [])]
  have hcomment := comment_closeNotABug jira key body (args.fields .vex) []
  have hrest := final_bind_grows (x := closeNotABug jira key body (args.fields .vex))
    (fun _ : Unit => grows_eachTicket (fun ticket => grows_closeNotABug jira ticket body (args.fields .vex)) rest) []
  intro hnil
  rw [hnil] at hrest
  exact absurd (List.prefix_nil.mp (hcomment.trans hrest)) (by simp)

theorem writes_iff (h : Invocation args payload fields) :
    writes jira args ≠ [] ↔ hasNabEvidence args = true := by
  constructor
  · intro hne
    by_contra hgate
    exact hne (writes_refused (Bool.not_eq_true _ ▸ hgate))
  · exact writes_accepted h

/-! ## Where the evidence is from -/

/-- A field of the comment is the argument, if there is one, or what the JSON has. -/
theorem Invocation.field (h : Invocation args payload fields) {f : CommentField} (hf : f ≠ .notes) :
    fields f = if strip (args.fields f) ≠ [] then strip (args.fields f) else payload f := by
  rw [h.resolves]
  simp only [addMessage, overlay, commentFieldsFromArgs, hf, false_and, if_false, strip_strip]

theorem Invocation.evidence_iff (h : Invocation args payload fields) : Evidence fields ↔
    (if strip (args.fields .sbomMatch) ≠ [] then SbomEvidence (args.fields .sbomMatch)
      else SbomEvidence (payload .sbomMatch)) ∨
      strip (args.fields .specDeps) ≠ [] ∨ strip (payload .specDeps) ≠ [] := by
  have hsbom : SbomEvidence (fields .sbomMatch) ↔
      if strip (args.fields .sbomMatch) ≠ [] then SbomEvidence (args.fields .sbomMatch)
        else SbomEvidence (payload .sbomMatch) := by
    rw [h.field (by decide)]
    split
    · simp only [SbomEvidence, strip_strip]
    · rfl
  have hspec : strip (fields .specDeps) ≠ [] ↔
      strip (args.fields .specDeps) ≠ [] ∨ strip (payload .specDeps) ≠ [] := by
    rw [h.field (by decide)]
    split
    · rename_i hne
      rw [strip_strip]
      exact iff_of_true hne (Or.inl hne)
    · rename_i hnil
      exact ⟨Or.inr, fun hor => hor.resolve_left hnil⟩
  rw [Evidence, hsbom, hspec]

/-- The gate sees what there is: the arguments have the evidence it looks for, or no probe of the spec file
has a result, and what the JSON has of the SBOM is no evidence or not what is posted. -/
def GateSees (args : CommentArgs) (payload : CommentFields) : Prop :=
  hasNabEvidence args = true ∨
    strip (args.fields .specDeps) = [] ∧ strip (payload .specDeps) = [] ∧
      (strip (args.fields .sbomMatch) ≠ [] ∨ ¬ SbomEvidence (payload .sbomMatch))

/-- The gate is what the evidence says exactly if it sees what there is. -/
theorem Invocation.gate_iff (h : Invocation args payload fields) :
    (hasNabEvidence args = true ↔ Evidence fields) ↔ GateSees args payload := by
  rw [h.evidence_iff, GateSees]
  by_cases hgate : hasNabEvidence args = true
  · have hevidence := hasNabEvidence_iff.mp hgate
    refine iff_of_true (iff_of_true hgate ?_) (Or.inl hgate)
    rcases hevidence with hsbom | hspec
    · left
      rw [if_pos hsbom.1]
      exact hsbom
    · exact Or.inr (Or.inl hspec.1)
  · have hsbom : ¬ SbomEvidence (args.fields .sbomMatch) := fun hs => hgate (hasNabEvidence_iff.mpr (Or.inl hs))
    by_cases hmatch : strip (args.fields .sbomMatch) ≠ []
    · simp only [hgate, if_pos hmatch, hsbom]
      tauto
    · simp only [hgate, hmatch]
      tauto

/-- **`nab_gate_iff`** — a `close-nab` writes to Jira just when its comment shows evidence, exactly if the
gate sees what there is.  Two of the same fields are treated alike then, and a refused one writes nothing. -/
theorem nab_gate_iff (h : Invocation args payload fields) :
    ((∀ jira, writes jira args ≠ [] ↔ Evidence fields) ↔ GateSees args payload) ∧
      (GateSees args payload → ∀ other payload', Invocation other payload' fields → GateSees other payload' →
        ∀ jira, writes jira args ≠ [] ↔ writes jira other ≠ []) ∧
      (hasNabEvidence args = false → ∀ jira, writes jira args = []) := by
  refine ⟨?_, ?_, fun hgate jira => writes_refused hgate⟩
  · rw [← h.gate_iff]
    exact ⟨fun hwrites => (writes_iff h).symm.trans (hwrites fun _ => .ok .none),
      fun hgate jira => (writes_iff h).trans hgate⟩
  · intro hsees other payload' hother hsees' jira
    rw [writes_iff h, writes_iff hother, h.gate_iff.mpr hsees, hother.gate_iff.mpr hsees']

/-! ## Three commands -/

omit [UnicodeTables] in
theorem renderComment_of_valid {kind : Str} (hvalid : validateCommentFields kind fields = .ok ()) :
    ∃ body, renderComment kind fields = .ok body := by
  rw [renderComment, hvalid]
  exact ⟨_, rfl⟩

/-- `close-nab HUM-99 --vex "Component not Present" --package zlib`, with a result of the spec file's probe
as an argument. -/
def flagArgs (specDeps : Str) : CommentArgs where
  tickets := ["HUM-99".toList]
  fields := fun f =>
    match f with
    | .package => "zlib".toList
    | .vex => "Component not Present".toList
    | .specDeps => specDeps
    | _ => []

/-- The same command, with the result in the JSON of `--from-json`. -/
def jsonArgs (specDeps : Str) : CommentArgs :=
  { flagArgs [] with fromJson := some (.ok [("spec_deps".toList, .str specDeps)]) }

end

/-- What the two have in common: a kind, a valid template and a ticket. -/
theorem invocation_zlib {args : CommentArgs} {payload : CommentFields} (specDeps : Str)
    (hargs : args = flagArgs specDeps ∨ args = jsonArgs specDeps) : letI := asciiTables
    payloadFields args = .ok payload →
      Invocation args payload (addMessage [] (overlay payload (commentFieldsFromArgs args))) := by
  let _ := asciiTables
  intro hread
  have hkey : normalizeHumKey "HUM-99".toList = .ok "HUM-99".toList := rfl
  rcases hargs with rfl | rfl <;>
    exact ⟨rfl, List.cons_ne_nil _ _, hread, rfl, renderComment_of_valid rfl, ⟨rfl, rfl⟩, _, _, _, rfl, hkey⟩

/-- With hits of the probe as an argument, the ticket is closed. -/
theorem nab_gate_hits : letI := asciiTables
    hasNabEvidence (flagArgs "2 spec-deps hit(s)".toList) = true ∧
      ∀ jira, writes jira (flagArgs "2 spec-deps hit(s)".toList) ≠ [] := by
  let _ := asciiTables
  have hinvoked := invocation_zlib "2 spec-deps hit(s)".toList (Or.inl rfl)
    (show payloadFields (flagArgs "2 spec-deps hit(s)".toList) = .ok emptyCommentFields from rfl)
  have hgate : hasNabEvidence (flagArgs "2 spec-deps hit(s)".toList) = true := by decide +kernel
  exact ⟨hgate, fun jira => ((nab_gate_iff hinvoked).1.mpr (Or.inl hgate) jira).mpr (Or.inr (by decide +kernel))⟩

/-- A probe that found no bundled reference is evidence, and the command is refused.  Hits in the JSON give
the same comment as hits in an argument, and only the latter is accepted. -/
theorem evidence_refused : letI := asciiTables
    (∃ payload fields, Invocation (flagArgs "no spec-deps hits".toList) payload fields ∧ Evidence fields ∧
      ∀ jira, writes jira (flagArgs "no spec-deps hits".toList) = []) ∧
    ∃ payload payload' fields, Invocation (jsonArgs "2 spec-deps hit(s)".toList) payload fields ∧
      Invocation (flagArgs "2 spec-deps hit(s)".toList) payload' fields ∧ Evidence fields ∧
      ∀ jira, writes jira (jsonArgs "2 spec-deps hit(s)".toList) = [] ∧
        writes jira (flagArgs "2 spec-deps hit(s)".toList) ≠ [] := by
  let _ := asciiTables
  constructor
  · refine ⟨_, _, invocation_zlib _ (Or.inl rfl) rfl, Or.inr (by decide +kernel), fun jira => ?_⟩
    exact writes_refused (by decide +kernel)
  · have hread : payloadFields (jsonArgs "2 spec-deps hit(s)".toList) =
        .ok (overlay (entryFields [("spec_deps".toList, .str "2 spec-deps hit(s)".toList)] none) emptyCommentFields) :=
      rfl
    have hjson := invocation_zlib "2 spec-deps hit(s)".toList (Or.inr rfl) hread
    have hflag := invocation_zlib "2 spec-deps hit(s)".toList (Or.inl rfl)
      (show payloadFields (flagArgs "2 spec-deps hit(s)".toList) = .ok emptyCommentFields from rfl)
    have hsame : addMessage [] (overlay (overlay (entryFields
        [("spec_deps".toList, .str "2 spec-deps hit(s)".toList)] none) emptyCommentFields)
          (commentFieldsFromArgs (jsonArgs "2 spec-deps hit(s)".toList))) =
        addMessage [] (overlay emptyCommentFields (commentFieldsFromArgs (flagArgs "2 spec-deps hit(s)".toList))) := by
      funext f
      cases f <;> decide +kernel
    rw [hsame] at hjson
    refine ⟨_, _, _, hjson, hflag, Or.inr (by decide +kernel), fun jira => ⟨?_, ?_⟩⟩
    · exact writes_refused (by decide +kernel)
    · exact writes_accepted hflag (by decide +kernel)

end HummingbirdRpms.Comments
