/-
# HummingbirdRpms.Comments — the comments that the CVE helper posts on tickets.

A comment is rendered from fields (`.cursor/skills/cve/lib/comments.py`).  A field is taken from the JSON
that a probe has written, and an argument of the command takes the place of what is found there.  In the
JSON it is looked for in the object itself, with what is under `fields` first, in the entry of a ticket, and
in the probes of the entry's package, each source taking precedence over the ones before.

The commands that post the comment (`cmd_comment`, `cmd_next_release` and `cmd_close_nab` of
`cve_helper.py`) are programs over the writes to Jira, whose outcomes are arbitrary.
-/
import HummingbirdRpms.Lib.Exec
import HummingbirdRpms.PulpSbom
import HummingbirdRpms.SbomSearch

namespace HummingbirdRpms.Comments

open Lib Lib.Text Lib.Exec
open Value (Entries entry)

/-! ## Fields -/

/-- `COMMENT_FIELD_NAMES` -/
inductive CommentField where
  | package
  | component
  | vex
  | nvr
  | affected
  | fixed
  | cve
  | assessment
  | sbomSource
  | sbomMatch
  | runtimeInstalled
  | specDeps
  | commit
  | commitDate
  | tag
  | tagDate
  | notes
deriving DecidableEq

abbrev CommentFields := CommentField → Str

/-- `empty_comment_fields` -/
def emptyCommentFields : CommentFields := fun _ => []

/-- `_JSON_FIELD_ALIASES` -/
def jsonFieldAliases : CommentField → List Str
  | .nvr => ["nvr", "local_nvr", "fib"]
  | .package => ["package", "package_guess"]
  | .affected => ["affected", "affected_range"]
  | .fixed => ["fixed", "fixed_version"]
  | .component => ["component", "upstream_component"]
  | .cve => ["cve", "cve_id"]
  | .assessment => ["assessment", "hint", "verdict"]
  | .commit => ["commit"]
  | .commitDate => ["commit_date"]
  | .tag => ["tag"]
  | .tagDate => ["tag_date"]
  | .sbomSource => ["sbom_source", "source"]
  | .sbomMatch => ["sbom_match"]
  | .runtimeInstalled => ["runtime_installed"]
  | .specDeps => ["spec_deps"]
  | .vex => ["vex"]
  | .notes => ["notes"]

/-- `_first_str` -/
def firstStr : List Value → Str
  | [] => []
  | .str s :: values => if strip s ≠ [] then strip s else firstStr values
  | .num _ repr :: _ => repr
  | .list items :: values =>
      let parts := (items.map fun item => strip (strOf item)).filter (· ≠ [])
      if parts ≠ [] then join ", " parts else firstStr values
  | _ :: values => firstStr values

/-- `overlay_comment_fields` -/
def overlay (base upper : CommentFields) : CommentFields :=
  fun f => if strip (upper f) ≠ [] then strip (upper f) else base f

/-! ## The JSON -/

/-- The fields that are not filled yet, from the object itself. -/
def completeFrom (source : Entries) (fields : CommentFields) : CommentFields := fun dest =>
  if fields dest ≠ [] then fields dest
  else firstStr ((jsonFieldAliases dest).map fun name => entry name source)

mutual

/-- `_fields_from_mapping` of a value, if it is a mapping. -/
def fieldsOfValue : Value → CommentFields
  | .dict source => completeFrom source (overlay emptyCommentFields (nestedFields source))
  | _ => emptyCommentFields

/-- The fields of what is under `fields`. -/
def nestedFields : List (Str × Value) → CommentFields
  | [] => emptyCommentFields
  | (key, v) :: rest => if key = "fields" then fieldsOfValue v else nestedFields rest

end

/-- `_fields_from_mapping` -/
def fieldsFromMapping (source : Entries) : CommentFields := fieldsOfValue (.dict source)

/-- `_fields_from_ticket_dict` -/
def fieldsFromTicketDict (ticket : Entries) : CommentFields :=
  let fields := fieldsFromMapping ticket
  fun f =>
    if fields f ≠ [] then fields f
    else
      match f with
      | .package => firstStr [entry "package_guess" ticket]
      | .nvr => firstStr [entry "fixed_in_build" ticket]
      | .cve => firstStr [entry "cve_ids" ticket]
      | _ => []

/-- The scopes of the hits, in order and without repetition. -/
def hitScopes (hits : List Value) : List Str :=
  (hits.filterMap fun hit =>
    match hit with
    | .dict h => if strip (fieldText "scope" h) ≠ [] then some (strip (fieldText "scope" h)) else none
    | _ => none).dedup.insertionSort (· ≤ ·)

/-- The fields that a search of the SBOM fills. -/
def sbomProbeFields (sbom : Value) : CommentFields :=
  match sbom with
  | .dict sbom =>
      if (sbom.lookup "error".toList).isSome then emptyCommentFields
      else fun f =>
        match f with
        | .sbomSource => firstStr [entry "source" sbom, entry "url" sbom, entry "path" sbom]
        | .sbomMatch =>
            match entry "hits" sbom with
            | .list [] => "no hits"
            | .list hits => ofNat hits.length ++ " hit(s)".toList
            | _ => []
        | .runtimeInstalled =>
            match entry "hits" sbom with
            | .list hits => join ", " (hitScopes hits)
            | _ => []
        | _ => []
  | _ => emptyCommentFields

/-- What the probe of the spec file fills. -/
def specDepsProbe (specHits : Value) : Str :=
  if !specHits.truthy then "no spec-deps hits"
  else
    match specHits with
    | .list hits => ofNat hits.length ++ " spec-deps hit(s)".toList
    | _ => []

/-- `_fields_from_probes` -/
def fieldsFromProbes (probes : Entries) (package : Str) : Except Exn CommentFields :=
  if package = [] then .ok emptyCommentFields
  else do
    let sbomMap := (entry "sbom" probes).orDict
    let inSbom ← sbomMap.contains package
    let sbom ← if inSbom then sbomMap.get package else pure .none
    let specMap := (entry "spec_deps" probes).orDict
    let inSpec ← specMap.contains package
    let specHits ← if inSpec then specMap.get package else pure .none
    return fun f =>
      match f with
      | .specDeps => if inSpec then specDepsProbe specHits else []
      | f => sbomProbeFields sbom f

section

variable [UnicodeTables]

/-- The first entry whose key, if it has one, is accepted. -/
def findEntry (accept : Str → Bool) : List Value → Except Exn (Option Entries)
  | [] => .ok none
  | .dict e :: rest =>
      if fieldText "ticket" e = [] then findEntry accept rest
      else do
        let key ← normalizeHumKey (fieldText "ticket" e)
        if accept key then return some e else findEntry accept rest
  | _ :: rest => findEntry accept rest

/-- `wanted_user` -/
def userProvidedKeys (userProvided : Value) : Except Exn (List Str) := do
  let keys ← userProvided.items
  (keys.filter fun key => strip (strOf key) ≠ []).mapM fun key => normalizeHumKey (strOf key)

/-- The entry of the ticket that is asked for, if one is. -/
def ownEntry (ticket : Str) (tickets : List Value) : Except Exn (Option Entries) :=
  if ticket = [] then .ok none
  else do
    let wanted ← normalizeHumKey ticket
    findEntry (· = wanted) tickets

/-- The first entry of a ticket that the user provided. -/
def userEntry (data : Entries) (tickets : List Value) : Except Exn (Option Entries) :=
  if (entry "user_provided" data).truthy then do
    let wantedUser ← userProvidedKeys (entry "user_provided" data)
    findEntry (wantedUser.contains ·) tickets
  else .ok none

def firstEntry : List Value → Option Entries
  | .dict first :: _ => some first
  | _ => none

/-- The entry that `comment_fields_from_payload` takes the fields from: that of the ticket, else the first
one that the user provided, else the first. -/
def chosenEntry (data : Entries) (ticket : Str) (tickets : List Value) : Except Exn (Option Entries) := do
  match ← ownEntry ticket tickets with
  | some own => return some own
  | none =>
      match ← userEntry data tickets with
      | some user => return some user
      | none => return firstEntry tickets

/-- The entry, if the payload has a list of tickets. -/
def payloadEntry (data : Entries) (ticket : Str) : Except Exn (Option Entries) :=
  match entry "tickets" data with
  | .list (t :: ts) => chosenEntry data ticket (t :: ts)
  | _ => .ok none

/-- The fields of the object itself, and those of the entry over them. -/
def entryFields (data : Entries) (chosen : Option Entries) : CommentFields :=
  match chosen with
  | some e => overlay (fieldsFromMapping data) (fieldsFromTicketDict e)
  | none => fieldsFromMapping data

/-- The probes of a package, if the payload has probes. -/
def payloadProbes (data : Entries) (package : Str) : Except Exn CommentFields :=
  match entry "probes" data with
  | .dict probes => fieldsFromProbes probes package
  | _ => .ok emptyCommentFields

/-- `comment_fields_from_payload` -/
def commentFieldsFromPayload (data : Entries) (ticket : Str) : Except Exn CommentFields := do
  let chosen ← payloadEntry data ticket
  let fields := entryFields data chosen
  let probed ← payloadProbes data (fields .package)
  return overlay fields probed

end

/-! ## The text -/

/-- `wiki_mono` -/
def wikiMono (value : Str) : Str :=
  "\x7b\x7b".toList ++ replace "\x7d\x7d" "" (replace "\x7b\x7b" "" value) ++ "\x7d\x7d".toList

/-- `_wiki_field`, where the second argument says whether the value is shown in monospace -/
def wikiField (label : Str) (mono : Bool) (value : Str) : Option Str :=
  if strip value = [] then none
  else some ("*".toList ++ label ++ ":* ".toList ++ if mono then wikiMono (strip value) else strip value)

/-- `NAB_VEX_BLURB` -/
def nabVexBlurb : List (Str × Str) :=
  [("Component not Present", "The CVE product/component is not present in this Hummingbird package."),
    ("Vulnerable Code not Present",
      "The package is a different product, or the vulnerable code path is not used.")]

/-- `validate_comment_fields` -/
def validateCommentFields (kind : Str) (fields : CommentFields) : Except Exn Unit :=
  let fail (msg : Str) : Except Exn Unit := .error (.raised .runtimeError msg)
  if kind ∉ ["nab".toList, "fib".toList, "analysis".toList, "next-release".toList] then
    fail ("Unknown comment kind ".toList ++ reprStr kind ++ "; expected one of nab, fib, analysis, next-release".toList)
  else if kind = "nab" then
    if fields .vex = [] then fail "comment --kind nab needs --vex"
    else if (nabVexBlurb.lookup (fields .vex)).isNone then
      fail "comment --kind nab --vex must be one of: 'Component not Present, Vulnerable Code not Present'"
    else if fields .package = [] ∧ fields .component = [] then
      fail "comment --kind nab needs --package or --component"
    else .ok ()
  else if kind = "fib" then
    if fields .package = [] ∨ fields .nvr = [] then fail "comment --kind fib needs --package and --nvr"
    else .ok ()
  else if kind = "analysis" then
    if fields .package = [] then fail "comment --kind analysis needs --package" else .ok ()
  else if fields .package = [] ∧ fields .cve = [] ∧ fields .notes = [] then
    fail "comment --kind next-release needs --package, --cve, or -m"
  else .ok ()

/-- `_join_wiki_lines` -/
def joinWikiLines (lines : List (Option Str)) : Str :=
  rstripBy isSpace (join "\n" (lines.filterMap id)) ++ ['\n']

/-- What is shown of a commit or a tag, with its date. -/
def dated (name date : Str) : Str :=
  if name ≠ [] ∧ date ≠ [] then name ++ " (".toList ++ date ++ ")".toList
  else if date ≠ [] then date
  else name

/-- `_upstream_wiki_lines` -/
def upstreamWikiLines (fields : CommentFields) : List (Option Str) :=
  [wikiField "Upstream commit" true (dated (fields .commit) (fields .commitDate)),
    wikiField "Upstream tag" true (dated (fields .tag) (fields .tagDate))]

/-- The evidence of a comment that says why a ticket is no bug. -/
def nabEvidence (fields : CommentFields) : List Str :=
  [wikiField "Spec-deps" false (fields .specDeps), wikiField "SBOM source" true (fields .sbomSource),
    wikiField "SBOM match" false (fields .sbomMatch),
    wikiField "Runtime-installed" false (fields .runtimeInstalled)].filterMap id

/-- The lines of a comment that says why a ticket is no bug. -/
def nabLines (fields : CommentFields) : List (Option Str) :=
  [some "h3. Not a Bug".toList, some [], nabVexBlurb.lookup (fields .vex), some [],
    wikiField "Package" true (fields .package), wikiField "Component" true (fields .component),
    wikiField "VEX" false (fields .vex), wikiField "CVE" true (fields .cve), some [], some "h4. Evidence".toList, some []] ++
  (if nabEvidence fields = [] then
    [some (("No SBOM/spec-deps fields passed; do not close without evidence ".toList ++
      "unless the user overrides.".toList))]
    else (nabEvidence fields).map some)

/-- The lines of a comment on a ticket that is fixed already. -/
def fibLines (fields : CommentFields) : List (Option Str) :=
  [some "h3. Already fixed".toList, some [],
    some ("The local SRPM is at or above the fix. Setting Fixed in Build to ".toList ++ wikiMono (fields .nvr) ++
      ". Leaving the tracker open for advisory automation.".toList), some [],
    wikiField "Package" true (fields .package), wikiField "Local NVR" true (fields .nvr),
    wikiField "CVE affected" false (fields .affected), wikiField "Fixed in" true (fields .fixed),
    wikiField "CVE" true (fields .cve), wikiField "Assessment" false (fields .assessment)] ++
  upstreamWikiLines fields

/-- The lines of an analysis. -/
def analysisLines (fields : CommentFields) : List (Option Str) :=
  [some "h3. Analysis".toList, some [], wikiField "Package" true (fields .package),
    wikiField "Local NVR" true (fields .nvr), wikiField "Assessment" false (fields .assessment),
    wikiField "Affected range" false (fields .affected), wikiField "Fixed in" true (fields .fixed),
    wikiField "CVE" true (fields .cve)] ++ upstreamWikiLines fields

/-- The lines of a comment on a ticket that waits for a release. -/
def nextReleaseLines (fields : CommentFields) : List (Option Str) :=
  [some "h3. Waiting on upstream".toList, some [],
    some ("Hummingbird is affected. No consumable upstream fix is available yet. Labeling ".toList ++
      wikiMono "cve-next-release" ++ " and leaving In Progress.".toList), some [],
    wikiField "Package" true (fields .package), wikiField "CVE" true (fields .cve),
    wikiField "Affected range" false (fields .affected), wikiField "Assessment" false (fields .assessment)]

/-- `render_comment` -/
def renderComment (kind : Str) (fields : CommentFields) : Except Exn Str := do
  validateCommentFields kind fields
  let notes := strip (fields .notes)
  let lines :=
    if kind = "nab" then nabLines fields
    else if kind = "fib" then fibLines fields
    else if kind = "analysis" then analysisLines fields
    else nextReleaseLines fields
  return joinWikiLines (lines ++ if notes = [] then [] else [some [], some notes])

/-! ## The commands -/

/-- The arguments of a command that posts a comment; what is read of the files is the outcome of reading
them, `load_comment_json` being the one of `--from-json`. -/
structure CommentArgs where
  commentFile : Option (Except Exn Str) := none
  kind : Str := []
  message : Str := []
  fromJson : Option (Except Exn Entries) := none
  fromTicket : Str := []
  tickets : List Str := []
  fields : CommentFields := emptyCommentFields
  printOnly : Bool := false
  json : Bool := false

/-- `comment_fields_from_args` -/
def commentFieldsFromArgs (args : CommentArgs) : CommentFields :=
  fun f => if f = .notes then [] else strip (args.fields f)

/-- `_comment_text` -/
def commentText (message : Str) (file : Option (Except Exn Str)) : Except Exn Str :=
  match file with
  | some read => read.map fun text => rstripBy isSpace text ++ ['\n']
  | none =>
      if message ≠ [] then .ok (rstripBy isSpace message ++ ['\n'])
      else .error (.raised .valueError "Provide --message or --file")

/-- The message, behind the notes there are. -/
def addMessage (message : Str) (fields : CommentFields) : CommentFields := fun f =>
  if f = .notes ∧ strip message ≠ [] then
    if fields .notes ≠ [] then strip (fields .notes ++ "\n\n".toList ++ strip message) else strip message
  else fields f

section

variable [UnicodeTables]

/-- The ticket whose entry is asked for: `--from-ticket`, else the first ticket. -/
def fromTicketOf (args : CommentArgs) : Str :=
  if args.fromTicket ≠ [] then args.fromTicket else args.tickets.head?.getD []

/-- The fields that are read from `--from-json`. -/
def payloadFields (args : CommentArgs) : Except Exn CommentFields :=
  match args.fromJson with
  | none => .ok emptyCommentFields
  | some load => do
      let data ← load
      commentFieldsFromPayload data (fromTicketOf args)

/-- The fields that a comment is rendered from. -/
def resolveCommentFields (args : CommentArgs) : Except Exn CommentFields := do
  let fields ← payloadFields args
  return addMessage args.message (overlay fields (commentFieldsFromArgs args))

/-- The kind of the template, none if the message is the comment. -/
def resolveKind (args : CommentArgs) (defaultKind : Str) : Str :=
  if args.kind = [] ∧ args.message = [] ∧ defaultKind ≠ [] then defaultKind else args.kind

/-- `resolve_comment_body` -/
def resolveCommentBody (args : CommentArgs) (defaultKind : Str) : Except Exn Str :=
  if args.commentFile.isSome then commentText [] args.commentFile
  else if resolveKind args defaultKind = [] then commentText args.message none
  else do
    let fields ← resolveCommentFields args
    renderComment (resolveKind args defaultKind) fields

/-- A write to Jira. -/
inductive JiraWrite where
  | comment (ticket body : Str)
  | addLabel (ticket label : Str)
  | removeLabel (ticket label : Str)
  | setVex (ticket vex : Str)
  | resolveIssue (ticket status resolution : Str)
deriving DecidableEq

/-- What Jira makes of a write: the outcome may depend on all writes there have been. -/
abbrev Jira := List JiraWrite → Except Exn Value

abbrev Writes (α : Type) := Prog Exn (List JiraWrite) α

/-- `_jira_auth_call` -/
def jiraAuthCall (jira : Jira) (w : JiraWrite) : Writes Value := do
  modify (· ++ [w])
  let writes ← get
  lift (jira writes)

/-- `apply_next_release` -/
def applyNextRelease (jira : Jira) (ticket body : Str) : Writes Unit := do
  let _ ← jiraAuthCall jira (.comment ticket body)
  let _ ← jiraAuthCall jira (.addLabel ticket "cve-next-release")
  let _ ← jiraAuthCall jira (.removeLabel ticket "cve-needs-attention")

/-- `v is False` -/
def isFalse : Value → Bool
  | .bool b => !b
  | _ => false

/-- `close_not_a_bug` -/
def closeNotABug (jira : Jira) (ticket body vex : Str) : Writes Unit := do
  let _ ← jiraAuthCall jira (.comment ticket body)
  let vexOk ← jiraAuthCall jira (.setVex ticket vex)
  raiseIf (isFalse vexOk = true)
    (.raised .runtimeError ("Failed to set VEX justification on ".toList ++ ticket))
  let resolved ← jiraAuthCall jira (.resolveIssue ticket "Closed" "Not a Bug")
  raiseIf (isFalse resolved = true)
    (.raised .runtimeError ("Failed to close ".toList ++ ticket ++ " as Not a Bug".toList))

/-- The loop over the tickets of a command. -/
def eachTicket (work : Str → Writes Unit) : List Str → Writes Unit
  | [] => pure ()
  | raw :: rest => do
      let ticket ← lift (normalizeHumKey raw)
      work ticket
      eachTicket work rest

/-- What the three commands have in common: the body is made, and posted unless it is to be printed. -/
def commentCommand (args : CommentArgs) (defaultKind : Str) (gate : Except Exn Unit)
    (work : Str → Str → Writes Unit) : Writes Unit := do
  let body ← lift (resolveCommentBody args defaultKind)
  if args.printOnly ∨ args.json then pure ()
  else do
    raiseIf (args.tickets = [])
      (.raised .runtimeError "Pass HUM ticket key(s), or --print-only / --json")
    lift gate
    eachTicket (fun ticket => work ticket body) args.tickets

/-- `cmd_comment` -/
def cmdComment (jira : Jira) (args : CommentArgs) : Writes Unit :=
  commentCommand args [] (.ok ()) fun ticket body => do
    let _ ← jiraAuthCall jira (.comment ticket body)

/-- `cmd_next_release` -/
def cmdNextRelease (jira : Jira) (args : CommentArgs) : Writes Unit :=
  commentCommand args "next-release" (.ok ()) (applyNextRelease jira)

/-- `_has_nab_evidence` -/
def hasNabEvidence (args : CommentArgs) : Bool :=
  let sbom := lowerAscii (strip (args.fields .sbomMatch))
  let spec := lowerAscii (strip (args.fields .specDeps))
  if sbom ≠ [] ∧ sbom ≠ "no hits" then true
  else if spec ≠ [] ∧ spec ≠ "no spec-deps hits" then true
  else false

/-- The evidence gate of `cmd_close_nab`. -/
def nabGate (args : CommentArgs) : Except Exn Unit :=
  if hasNabEvidence args then .ok ()
  else .error (.raised .runtimeError
    ("Refusing close-nab: no SBOM or spec-deps evidence. ".toList ++
      "Search the SBOM for the ticket's Upstream Affected Component ".toList ++
      "(customfield_10632) and pass --sbom-match / --spec-deps.".toList))

/-- `cmd_close_nab` -/
def cmdCloseNab (jira : Jira) (args : CommentArgs) : Writes Unit :=
  commentCommand args "nab" (nabGate args) fun ticket body => closeNotABug jira ticket body (args.fields .vex)

/-! ## Writes -/

/-- Nothing that was written is taken back. -/
abbrev Grows : List JiraWrite → List JiraWrite → Prop := (· <+: ·)

instance : Std.Refl Grows := ⟨List.prefix_refl⟩

instance : IsTrans (List JiraWrite) Grows := ⟨fun _ _ _ => List.IsPrefix.trans⟩

omit [UnicodeTables] in
theorem grows_jiraAuthCall (jira : Jira) (w : JiraWrite) : Steps Grows (jiraAuthCall jira w) :=
  steps_bind (steps_modify fun s => List.prefix_append s [w]) fun _ =>
    steps_bind steps_get fun writes => steps_lift (jira writes)

omit [UnicodeTables] in
theorem final_jiraAuthCall (jira : Jira) (w : JiraWrite) (s : List JiraWrite) :
    final (jiraAuthCall jira w) s = s ++ [w] := by
  have hcall : jiraAuthCall jira w s = (lift (jira (s ++ [w])) : Writes Value) (s ++ [w]) := rfl
  rw [final, hcall]
  cases jira (s ++ [w]) <;> rfl

omit [UnicodeTables] in
/-- What follows a program adds to what it has written. -/
theorem final_bind_grows {α β : Type} {x : Writes α} {f : α → Writes β} (hf : ∀ a, Steps Grows (f a))
    (s : List JiraWrite) : final x s <+: final (x >>= f) s := by
  cases h : x s with
  | ok a t =>
      rw [final_of_ok h, final_bind_of_ok h]
      exact hf a t
  | error e t =>
      rw [final_of_error h, final_of_error (run_bind_of_error h)]

omit [UnicodeTables] in
theorem grows_closeNotABug (jira : Jira) (ticket body vex : Str) :
    Steps Grows (closeNotABug jira ticket body vex) :=
  steps_bind (grows_jiraAuthCall jira _) fun _ => steps_bind (grows_jiraAuthCall jira _) fun _ =>
    steps_bind steps_raiseIf fun _ => steps_bind (grows_jiraAuthCall jira _) fun _ => steps_raiseIf

omit [UnicodeTables] in
/-- The comment is the first thing that is written on a ticket. -/
theorem comment_closeNotABug (jira : Jira) (ticket body vex : Str) (s : List JiraWrite) :
    s ++ [.comment ticket body] <+: final (closeNotABug jira ticket body vex) s := by
  rw [← final_jiraAuthCall jira (.comment ticket body) s]
  exact final_bind_grows (fun _ => steps_bind (grows_jiraAuthCall jira _) fun _ =>
    steps_bind steps_raiseIf fun _ => steps_bind (grows_jiraAuthCall jira _) fun _ => steps_raiseIf) s

theorem grows_eachTicket {work : Str → Writes Unit} (h : ∀ ticket, Steps Grows (work ticket))
    (tickets : List Str) : Steps Grows (eachTicket work tickets) := by
  induction tickets with
  | nil => exact steps_pure ()
  | cons raw rest ih =>
      rw [eachTicket]
      exact steps_bind (steps_lift _) fun ticket => steps_bind (h ticket) fun _ => ih

end

end HummingbirdRpms.Comments
