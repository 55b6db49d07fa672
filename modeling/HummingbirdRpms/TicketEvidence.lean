/-
# HummingbirdRpms.TicketEvidence — whose evidence a comment shows.

A comment from `--from-json` is made once, from the entry that is chosen for the first ticket of the command,
and posted on each of its tickets.  Where that ticket has no entry, another one is chosen.

`sourceOf` traces where each field is from, and **`payload_source`** says that the field has that source's
text.  **`own_evidence_iff`** — each field that is taken from the JSON of an investigation is the ticket's
own, on every ticket that is written to, exactly if the chosen entry is the ticket's own, or neither the
entry nor the probes of its package fill a field that is not.
-/
import HummingbirdRpms.NabGate

namespace HummingbirdRpms.Comments

open Lib Lib.Text Lib.Exec
open Value (Entries entry)

/-! ## The commands and what they post -/

/-- The commands that take `--from-json` and write to Jira. -/
inductive WriteCommand where
  | comment
  | nextRelease
  | closeNab
deriving DecidableEq

namespace WriteCommand

def defaultKind : WriteCommand → Str
  | .comment => []
  | .nextRelease => "next-release"
  | .closeNab => "nab"

section

variable [UnicodeTables]

/-- What the command does before its loop over the tickets. -/
def gate (cmd : WriteCommand) (args : CommentArgs) : Except Exn Unit :=
  if cmd = .closeNab then nabGate args else .ok ()

/-- What the command writes on a ticket. -/
def work (cmd : WriteCommand) (jira : Jira) (args : CommentArgs) (ticket body : Str) : Writes Unit :=
  match cmd with
  | .comment => do let _ ← jiraAuthCall jira (.comment ticket body)
  | .nextRelease => applyNextRelease jira ticket body
  | .closeNab => closeNotABug jira ticket body (args.fields .vex)

def run (cmd : WriteCommand) (jira : Jira) (args : CommentArgs) : Writes Unit :=
  match cmd with
  | .comment => cmdComment jira args
  | .nextRelease => cmdNextRelease jira args
  | .closeNab => cmdCloseNab jira args

theorem run_eq (cmd : WriteCommand) (jira : Jira) (args : CommentArgs) :
    cmd.run jira args = commentCommand args cmd.defaultKind (cmd.gate args) (cmd.work jira args) := by
  cases cmd <;> rfl

end

end WriteCommand

section

variable [UnicodeTables] {args : CommentArgs} {data : Entries} {chosen : Option Entries}
  {probed : CommentFields} {jira : Jira} {cmd : WriteCommand} {ticket body : Str}

/-- The keys of the tickets, up to one that is none. -/
def targetKeys : List Str → List Str
  | [] => []
  | raw :: rest =>
      match normalizeHumKey raw with
      | .ok key => key :: targetKeys rest
      | .error _ => []

/-! ## The sources of a field -/

/-- Where a field of a comment is from. -/
inductive FieldSource where
  | argument
  /-- The JSON object itself. -/
  | object
  | ticketEntry (e : Entries)
  /-- The probes of a package. -/
  | probes (package : Str)

/-- Where a field that is read from the JSON is from. -/
def payloadSource (data : Entries) (chosen : Option Entries) (probed : CommentFields) (f : CommentField) :
    Option FieldSource :=
  if strip (probed f) ≠ [] then some (.probes (entryFields data chosen .package))
  else
    match chosen with
    | some e =>
        if strip (fieldsFromTicketDict e f) ≠ [] then some (.ticketEntry e)
        else if fieldsFromMapping data f ≠ [] then some .object else none
    | none => if fieldsFromMapping data f ≠ [] then some .object else none

/-- Where a field of the comment is from. -/
def sourceOf (args : CommentArgs) (data : Entries) (chosen : Option Entries) (probed : CommentFields)
    (f : CommentField) : Option FieldSource :=
  if strip (commentFieldsFromArgs args f) ≠ [] then some .argument else payloadSource data chosen probed f

/-- The text that a source has for a field. -/
def sourceText (args : CommentArgs) (data : Entries) (probed : CommentFields) (f : CommentField) :
    Option FieldSource → Str
  | some .argument => strip (commentFieldsFromArgs args f)
  | some .object => fieldsFromMapping data f
  | some (.ticketEntry e) => strip (fieldsFromTicketDict e f)
  | some (.probes _) => strip (probed f)
  | none => []

omit [UnicodeTables] in
/-- **`payload_source`** — a field has the text of its source. -/
theorem payload_source (f : CommentField) :
    overlay (overlay (entryFields data chosen) probed) (commentFieldsFromArgs args) f =
      sourceText args data probed f (sourceOf args data chosen probed f) := by
  unfold sourceOf payloadSource
  by_cases hargs : strip (commentFieldsFromArgs args f) ≠ []
  · rw [if_pos hargs, overlay, if_pos hargs]
    rfl
  · rw [if_neg hargs, overlay, if_neg hargs]
    by_cases hprobed : strip (probed f) ≠ []
    · rw [if_pos hprobed, overlay, if_pos hprobed]
      rfl
    · rw [if_neg hprobed, overlay, if_neg hprobed]
      cases chosen with
      | none =>
          simp only [entryFields]
          split
          · rfl
          · rename_i hnil
            exact not_not.mp hnil
      | some e =>
          simp only [entryFields, overlay]
          split
          · rfl
          · split
            · rfl
            · rename_i hnil
              exact not_not.mp hnil

/-! ## A ticket's own evidence -/

/-- The JSON has an entry of a ticket. -/
def IsEntryOf (data : Entries) (ticket : Str) (e : Entries) : Prop :=
  ∃ tickets, entry "tickets" data = .list tickets ∧ .dict e ∈ tickets ∧
    normalizeHumKey (fieldText "ticket" e) = .ok ticket

/-- What comes from the entry of a ticket, from the probes of its package, or not from the JSON. -/
def OwnSource (data : Entries) (ticket : Str) : FieldSource → Prop
  | .argument => True
  | .object => False
  | .ticketEntry e => IsEntryOf data ticket e
  | .probes package => ∃ e, IsEntryOf data ticket e ∧ entryFields data (some e) .package = package

/-- Each field of the comment is a ticket's own. -/
def OwnEvidence (args : CommentArgs) (data : Entries) (chosen : Option Entries) (probed : CommentFields)
    (ticket : Str) : Prop :=
  ∀ f source, sourceOf args data chosen probed f = some source → OwnSource data ticket source

/-- The JSON of an investigation: the object itself fills no field. -/
def IsInvestigation (data : Entries) : Prop := ∀ f, fieldsFromMapping data f = []

/-- The chosen entry is that of the ticket. -/
def ChosenOwn (data : Entries) (chosen : Option Entries) (ticket : Str) : Prop :=
  ∃ e, chosen = some e ∧ IsEntryOf data ticket e

/-- Where there is no argument, the chosen entry has nothing for a field, and the probes of its package have
nothing either, unless the ticket's own entry names that package. -/
def FillsNothing (args : CommentArgs) (data : Entries) (chosen : Option Entries) (probed : CommentFields)
    (ticket : Str) : Prop :=
  ∀ f, strip (commentFieldsFromArgs args f) = [] →
    (strip (probed f) ≠ [] → ∃ e, IsEntryOf data ticket e ∧
      entryFields data (some e) .package = entryFields data chosen .package) ∧
    (strip (probed f) = [] → ∀ e, chosen = some e → strip (fieldsFromTicketDict e f) = [])

theorem ownEvidence_iff (hdata : IsInvestigation data) : OwnEvidence args data chosen probed ticket ↔
    ChosenOwn data chosen ticket ∨ FillsNothing args data chosen probed ticket := by
  constructor
  · intro h
    by_cases hown : ChosenOwn data chosen ticket
    · exact Or.inl hown
    · right
      intro f hargs
      have hsource : sourceOf args data chosen probed f = payloadSource data chosen probed f :=
        if_neg (not_not.mpr hargs)
      constructor
      · intro hprobed
        exact h f _ (hsource.trans (if_pos hprobed))
      · intro hprobed e he
        by_contra hfills
        subst he
        unfold payloadSource at hsource
        rw [if_neg (not_not.mpr hprobed)] at hsource
        exact hown ⟨e, rfl, h f _ (hsource.trans (if_pos hfills))⟩
  · intro h f source hsource
    unfold sourceOf at hsource
    split at hsource
    · obtain rfl := Option.some.inj hsource
      trivial
    · rename_i hargs
      rw [not_not] at hargs
      unfold payloadSource at hsource
      split at hsource
      · rename_i hprobed
        obtain rfl := Option.some.inj hsource
        rcases h with ⟨e, rfl, hentry⟩ | hnothing
        · exact ⟨e, hentry, rfl⟩
        · exact (hnothing f hargs).1 hprobed
      · rename_i hprobed
        rw [not_not] at hprobed
        cases chosen with
        | none => simp [hdata f] at hsource
        | some e =>
            simp only [hdata f, ne_eq, not_true_eq_false, if_false] at hsource
            split at hsource
            · rename_i hfills
              obtain rfl := Option.some.inj hsource
              rcases h with ⟨e', he', hentry⟩ | hnothing
              · obtain rfl := Option.some.inj he'
                exact hentry
              · exact absurd ((hnothing f hargs).2 hprobed e rfl) hfills
            · cases hsource

/-! ## The entry of the ticket that is asked for -/

theorem findEntry_mem {accept : Str → Bool} {tickets : List Value} {e : Entries}
    (h : findEntry accept tickets = .ok (some e)) : .dict e ∈ tickets ∧
      ∃ key, normalizeHumKey (fieldText "ticket" e) = .ok key ∧ accept key = true := by
  fun_induction findEntry accept tickets with
  | case1 => cases h
  | case2 first rest hnone ih =>
      obtain ⟨hmem, hkey⟩ := ih h
      exact ⟨List.mem_cons_of_mem _ hmem, hkey⟩
  | case3 first rest hkeyed ih =>
      obtain ⟨key, hkey, h⟩ := except_bind_ok_iff.mp h
      by_cases haccept : accept key = true
      · rw [if_pos haccept] at h
        obtain rfl := Option.some.inj (Except.ok.inj h)
        exact ⟨List.mem_cons_self, key, hkey, haccept⟩
      · rw [if_neg haccept] at h
        obtain ⟨hmem, hfound⟩ := ih h
        exact ⟨List.mem_cons_of_mem _ hmem, hfound⟩
  | case4 v rest hother ih =>
      obtain ⟨hmem, hkey⟩ := ih h
      exact ⟨List.mem_cons_of_mem _ hmem, hkey⟩

/-- An entry that is accepted is found, or one before it, if the search comes to an end. -/
theorem findEntry_isSome {accept : Str → Bool} {tickets : List Value} {e : Entries} {key : Str}
    {found : Option Entries} (h : findEntry accept tickets = .ok found) (he : .dict e ∈ tickets)
    (hkey : normalizeHumKey (fieldText "ticket" e) = .ok key) (haccept : accept key = true) :
    found.isSome = true := by
  fun_induction findEntry accept tickets with
  | case1 => cases he
  | case2 first rest hnone ih =>
      rcases List.mem_cons.mp he with hfirst | he
      · cases hfirst
        rw [hnone] at hkey
        cases hkey
      · exact ih h he
  | case3 first rest hkeyed ih =>
      obtain ⟨key', hkey', h⟩ := except_bind_ok_iff.mp h
      by_cases hfirst : accept key' = true
      · rw [if_pos hfirst] at h
        obtain rfl := Except.ok.inj h
        rfl
      · rw [if_neg hfirst] at h
        rcases List.mem_cons.mp he with hsame | he
        · cases hsame
          rw [hkey] at hkey'
          rw [Except.ok.inj hkey'] at haccept
          exact absurd haccept hfirst
        · exact ih h he
  | case4 v rest hother ih =>
      rcases List.mem_cons.mp he with hsame | he
      · exact absurd hsame.symm (hother e)
      · exact ih h he

theorem ne_nil_of_normalized {raw key : Str} (h : normalizeHumKey raw = .ok key) : raw ≠ [] := by
  rintro rfl
  cases h

/-- The entry of the ticket that is asked for is chosen, if there is one. -/
theorem chosen_own {e : Entries} (hwanted : normalizeHumKey (fromTicketOf args) = .ok ticket)
    (hentry : IsEntryOf data ticket e) (hchosen : payloadEntry data (fromTicketOf args) = .ok chosen) :
    ChosenOwn data chosen ticket := by
  obtain ⟨tickets, htickets, hmem, hkey⟩ := hentry
  obtain ⟨t, ts, rfl⟩ := List.exists_cons_of_ne_nil (List.ne_nil_of_mem hmem)
  rw [payloadEntry, htickets] at hchosen
  replace hchosen : (ownEntry (fromTicketOf args) (t :: ts) >>= _) = .ok chosen := hchosen
  obtain ⟨own, hown, hchosen⟩ := except_bind_ok_iff.mp hchosen
  rw [ownEntry, if_neg (ne_nil_of_normalized hwanted), hwanted, except_bind_ok] at hown
  obtain ⟨e', rfl⟩ := Option.isSome_iff_exists.mp (findEntry_isSome hown hmem hkey (decide_eq_true rfl))
  obtain rfl := Except.ok.inj hchosen
  obtain ⟨hmem', key', hkey', haccept⟩ := findEntry_mem hown
  rw [of_decide_eq_true haccept] at hkey'
  exact ⟨e', rfl, t :: ts, htickets, hmem', hkey'⟩

/-! ## What is posted -/

/-- The writes that are added meet a condition. -/
def Adds (P : JiraWrite → Prop) (s t : List JiraWrite) : Prop := ∀ w ∈ t, w ∈ s ∨ P w

instance (P : JiraWrite → Prop) : Std.Refl (Adds P) := ⟨fun _ _ hw => Or.inl hw⟩

instance (P : JiraWrite → Prop) : IsTrans (List JiraWrite) (Adds P) :=
  ⟨fun _ _ _ hst htu w hw => (htu w hw).elim (hst w) Or.inr⟩

omit [UnicodeTables] in
theorem adds_jiraAuthCall {P : JiraWrite → Prop} {w : JiraWrite} (h : P w) : Steps (Adds P) (jiraAuthCall jira w) := by
  intro s v hv
  rw [final_jiraAuthCall] at hv
  rcases List.mem_append.mp hv with hv | hv
  · exact Or.inl hv
  · rw [List.mem_singleton.mp hv]
    exact Or.inr h

/-- A write that is no comment but one on a ticket. -/
def OnTicket (ticket body : Str) (w : JiraWrite) : Prop :=
  ∀ ticket' body', w = .comment ticket' body' → ticket' = ticket ∧ body' = body

omit [UnicodeTables] in
/-- A command posts its comment on the ticket and no other. -/
theorem adds_work : Steps (Adds (OnTicket ticket body)) (cmd.work jira args ticket body) := by
  have hcomment : OnTicket ticket body (.comment ticket body) := fun _ _ h => by cases h; exact ⟨rfl, rfl⟩
  have hother : ∀ w, (∀ t b, w ≠ .comment t b) → OnTicket ticket body w := fun w hne t b h => absurd h (hne t b)
  cases cmd with
  | comment => exact steps_bind (adds_jiraAuthCall hcomment) fun _ => steps_pure ()
  | nextRelease =>
      exact steps_bind (adds_jiraAuthCall hcomment) fun _ =>
        steps_bind (adds_jiraAuthCall (hother _ fun _ _ => JiraWrite.noConfusion)) fun _ =>
          steps_bind (adds_jiraAuthCall (hother _ fun _ _ => JiraWrite.noConfusion)) fun _ => steps_pure ()
  | closeNab =>
      exact steps_bind (adds_jiraAuthCall hcomment) fun _ =>
        steps_bind (adds_jiraAuthCall (hother _ fun _ _ => JiraWrite.noConfusion)) fun _ =>
          steps_bind steps_raiseIf fun _ =>
            steps_bind (adds_jiraAuthCall (hother _ fun _ _ => JiraWrite.noConfusion)) fun _ => steps_raiseIf

/-- The comments that the loop posts are on the tickets of the command. -/
theorem adds_eachTicket {work : Str → Writes Unit} (h : ∀ t, Steps (Adds (OnTicket t body)) (work t))
    (tickets : List Str) :
    Steps (Adds fun w => ∃ t ∈ targetKeys tickets, OnTicket t body w) (eachTicket work tickets) := by
  induction tickets with
  | nil => exact steps_pure ()
  | cons raw rest ih =>
      intro s
      rw [eachTicket, targetKeys]
      cases normalizeHumKey raw with
      | error e => exact fun w hw => Or.inl hw
      | ok key =>
          rw [final_bind_of_ok (lift_ok key s)]
          refine step_bind (R := Adds _) ?_ fun _ t _ => ?_
          · exact fun w hw => (h key s w hw).imp_right fun hon => ⟨key, List.mem_cons_self, hon⟩
          · intro w hw
            refine (ih t w hw).imp_right fun hon => ?_
            obtain ⟨t', ht', hon⟩ := hon
            exact ⟨t', List.mem_cons_of_mem _ ht', hon⟩

omit [UnicodeTables] in
theorem grows_work : Steps Grows (cmd.work jira args ticket body) := by
  cases cmd with
  | comment => exact steps_bind (grows_jiraAuthCall jira _) fun _ => steps_pure ()
  | nextRelease =>
      exact steps_bind (grows_jiraAuthCall jira _) fun _ => steps_bind (grows_jiraAuthCall jira _) fun _ =>
        steps_bind (grows_jiraAuthCall jira _) fun _ => steps_pure ()
  | closeNab => exact grows_closeNotABug jira ticket body _

omit [UnicodeTables] in
/-- Where Jira takes every write, the command comes to an end on the ticket, and the comment is posted. -/
theorem work_posts (s : List JiraWrite) :
    ∃ t, cmd.work (fun _ => .ok .none) args ticket body s = .ok () t ∧ .comment ticket body ∈ t := by
  cases cmd with
  | comment => exact ⟨_, rfl, by simp⟩
  | nextRelease => exact ⟨_, rfl, by simp⟩
  | closeNab => exact ⟨_, rfl, by simp⟩

/-- Where Jira takes every write, the comment is posted on all tickets. -/
theorem posts_eachTicket (tickets : List Str) (s : List JiraWrite) (ht : ticket ∈ targetKeys tickets) :
    .comment ticket body ∈ final (eachTicket (fun t => cmd.work (fun _ => .ok .none) args t body) tickets) s := by
  induction tickets generalizing s with
  | nil => cases ht
  | cons raw rest ih =>
      rw [targetKeys] at ht
      rw [eachTicket]
      cases hkey : normalizeHumKey raw with
      | error e =>
          rw [hkey] at ht
          cases ht
      | ok key =>
          rw [hkey] at ht
          obtain ⟨t, hrun, hposted⟩ : ∃ t, cmd.work (fun _ => .ok .none) args key body s = .ok () t ∧
              .comment key body ∈ t := work_posts s
          rw [final_bind_of_ok (lift_ok key s), final_bind_of_ok hrun]
          rcases List.mem_cons.mp ht with rfl | ht
          · exact (grows_eachTicket (fun _ => grows_work) rest t).subset hposted
          · exact ih t ht

/-! ## Whose evidence is posted -/

/-- A command with `--from-json` that comes to post its comment. -/
structure Posting (cmd : WriteCommand) (args : CommentArgs) (data : Entries) (chosen : Option Entries)
    (probed : CommentFields) (body : Str) : Prop where
  template : args.commentFile = none
  kind : resolveKind args cmd.defaultKind ≠ []
  json : args.fromJson = some (.ok data)
  chooses : payloadEntry data (fromTicketOf args) = .ok chosen
  probes : payloadProbes data (entryFields data chosen .package) = .ok probed
  renders : renderComment (resolveKind args cmd.defaultKind) (addMessage args.message
    (overlay (overlay (entryFields data chosen) probed) (commentFieldsFromArgs args))) = .ok body
  posts : args.printOnly = false ∧ args.json = false
  gate : cmd.gate args = .ok ()

theorem Posting.body_eq (h : Posting cmd args data chosen probed body) :
    resolveCommentBody args cmd.defaultKind = .ok body := by
  have hfields : payloadFields args = .ok (overlay (entryFields data chosen) probed) := by
    rw [payloadFields, h.json]
    show (commentFieldsFromPayload data (fromTicketOf args)) = _
    rw [commentFieldsFromPayload, h.chooses, except_bind_ok]
    show (payloadProbes data (entryFields data chosen .package) >>= _) = _
    rw [h.probes]
    rfl
  rw [resolveCommentBody, h.template, if_neg (by decide), if_neg h.kind, resolveCommentFields, hfields]
  exact h.renders

/-- What the command writes is what its loop writes. -/
theorem Posting.final_eq (h : Posting cmd args data chosen probed body) :
    final (cmd.run jira args) [] = final (eachTicket (fun t => cmd.work jira args t body) args.tickets) [] := by
  have hposts : ¬ (args.printOnly = true ∨ args.json = true) := by simp [h.posts]
  rw [cmd.run_eq, commentCommand, h.body_eq, final_bind_of_ok (lift_ok body []), if_neg hposts,
    final_raiseIf_bind]
  split
  · rename_i hnone
    rw [hnone]
    rfl
  · rw [h.gate, final_bind_of_ok (lift_ok () [])]

/-- **`own_evidence_iff`** — each field that a posted comment has from the JSON of an investigation is the
ticket's own, exactly if on every ticket of the command the chosen entry is its own or fills nothing. -/
theorem own_evidence_iff (h : Posting cmd args data chosen probed body) (hdata : IsInvestigation data) :
    (∀ jira ticket body', .comment ticket body' ∈ final (cmd.run jira args) [] →
        body' = body ∧ OwnEvidence args data chosen probed ticket) ↔
      ∀ ticket ∈ targetKeys args.tickets,
        ChosenOwn data chosen ticket ∨ FillsNothing args data chosen probed ticket := by
  constructor
  · intro howns ticket ht
    apply (ownEvidence_iff hdata).mp
    have hposted : .comment ticket body ∈
        final (eachTicket (fun t => cmd.work (fun _ => .ok .none) args t body) args.tickets) [] :=
      posts_eachTicket args.tickets [] ht
    rw [← h.final_eq] at hposted
    exact (howns _ ticket body hposted).2
  · intro howns jira ticket body' hposted
    rw [h.final_eq] at hposted
    rcases adds_eachTicket (fun _ => adds_work) args.tickets [] _ hposted with hnil | ⟨t, ht, hon⟩
    · cases hnil
    · obtain ⟨rfl, rfl⟩ := hon ticket body' rfl
      exact ⟨rfl, (ownEvidence_iff hdata).mpr (howns ticket ht)⟩

end

/-! ## A comment on two tickets -/

/-- The entry of HUM-100 in the JSON of an investigation. -/
def fooEntry : Entries := [("ticket".toList, .str "HUM-100".toList), ("package_guess".toList, .str "foo".toList)]

def fooData : Entries := [("tickets".toList, .list [.dict fooEntry])]

/-- `comment --kind analysis --from-json` -/
def fooArgs (tickets : List Str) : CommentArgs where
  kind := "analysis".toList
  fromJson := some (.ok fooData)
  tickets := tickets

theorem isInvestigation_foo : IsInvestigation fooData := by
  intro f
  cases f <;> rfl

theorem posting_foo (tickets : List Str) (htickets : tickets.head? = some "HUM-100".toList) : letI := asciiTables
    ∃ body, Posting .comment (fooArgs tickets) fooData (some fooEntry) emptyCommentFields body := by
  let _ := asciiTables
  obtain ⟨rest, rfl⟩ := List.head?_eq_some_iff.mp htickets
  obtain ⟨body, hbody⟩ : ∃ body, renderComment "analysis".toList (addMessage [] (overlay (overlay
      (entryFields fooData (some fooEntry)) emptyCommentFields)
        (commentFieldsFromArgs (fooArgs ("HUM-100".toList :: rest))))) = .ok body :=
    renderComment_of_valid rfl
  exact ⟨body, rfl, List.cons_ne_nil _ _, rfl, rfl, rfl, hbody, ⟨rfl, rfl⟩, rfl⟩

/-- On HUM-100 alone its own entry is shown. -/
theorem own_evidence_foo : letI := asciiTables
    ∃ body, ∀ jira ticket body',
      .comment ticket body' ∈ final (WriteCommand.comment.run jira (fooArgs ["HUM-100".toList])) [] →
        body' = body ∧ OwnEvidence (fooArgs ["HUM-100".toList]) fooData (some fooEntry) emptyCommentFields ticket := by
  let _ := asciiTables
  obtain ⟨body, hposting⟩ := posting_foo ["HUM-100".toList] rfl
  refine ⟨body, (own_evidence_iff hposting isInvestigation_foo).mpr ?_⟩
  intro ticket ht
  obtain rfl := List.mem_singleton.mp (show ticket ∈ ["HUM-100".toList] from ht)
  exact Or.inl ⟨fooEntry, rfl, [.dict fooEntry], rfl, List.mem_cons_self, rfl⟩

/-- HUM-101 has no entry, and is told that its package is the one of HUM-100. -/
theorem other_entry_posted : letI := asciiTables
    ∃ jira body, .comment "HUM-101".toList body ∈
        final (WriteCommand.comment.run jira (fooArgs ["HUM-100".toList, "HUM-101".toList])) [] ∧
      sourceOf (fooArgs ["HUM-100".toList, "HUM-101".toList]) fooData (some fooEntry) emptyCommentFields .package =
        some (.ticketEntry fooEntry) ∧
      ¬ OwnEvidence (fooArgs ["HUM-100".toList, "HUM-101".toList]) fooData (some fooEntry) emptyCommentFields
        "HUM-101".toList := by
  let _ := asciiTables
  obtain ⟨body, hposting⟩ := posting_foo ["HUM-100".toList, "HUM-101".toList] rfl
  have hsource : sourceOf (fooArgs ["HUM-100".toList, "HUM-101".toList]) fooData (some fooEntry) emptyCommentFields
      .package = some (.ticketEntry fooEntry) := rfl
  refine ⟨fun _ => .ok .none, body, ?_, hsource, ?_⟩
  · rw [hposting.final_eq]
    exact posts_eachTicket _ [] (List.mem_cons_of_mem _ List.mem_cons_self)
  · intro howns
    obtain ⟨-, -, -, hkey⟩ := howns .package _ hsource
    exact absurd (Except.ok.inj hkey) (by decide)

end HummingbirdRpms.Comments
