/-
# HummingbirdRpms.Investigation — what an investigation asks others about.

`cve_helper.py investigate` reads the tickets that are named, searches for others with the same CVE ids, reads
those as well, and probes the packages and the ids it has found.  A report knows whether the summary of its
ticket marks it EMBARGOED, but only the recap at the end looks at it.

Each query is recorded, with the reports there are when it is made.  **`investigate_leaks_iff`** — when GitLab or
Pulp is asked about an id or a package that only embargoed tickets have: exactly if the loop over the packages or
the one over the ids gets to it, and nothing but an exception of an earlier round keeps it from getting there.
-/
import HummingbirdRpms.ComponentVersion
import HummingbirdRpms.HumTask
import HummingbirdRpms.Lib.Emission
import HummingbirdRpms.Lib.FirstSeen
import HummingbirdRpms.PackageGuess
import HummingbirdRpms.PulpSbom
import HummingbirdRpms.SbomSearch

namespace HummingbirdRpms.Investigation

open Lib Lib.Text Lib.Regex Lib.Exec Lib.Emission Lib.FirstSeen
open Value (Entries entry)
open ComponentVersion (SpecDepHit probeSpecDeps)
open HumTask (Completed humKeyRe)

/-! ## Tickets -/

/-- `TicketReport`, as far as queries are made with it. -/
structure TicketReport where
  ticket : Str
  fixedInBuild : Str
  cveIds : List Str
  packageGuess : Str
  linkedKeys : List Str
  embargoed : Bool
  upstreamComponent : Value

/-- `fields.get(key, default)` -/
def getOr (key : Str) (default : Value) (fields : Entries) : Value := (fields.lookup key).getD default

/-- `v or ""` -/
def orEmpty (v : Value) : Value := if v.truthy then v else .str []

/-- `_extract_labels` -/
def extractLabels (fields : Entries) : Except Exn Str :=
  match entry "labels" fields with
  | .list items => (items.mapM Value.asStr).map (join ",")
  | _ => .ok []

/-- `_comment_bodies` -/
def commentBodies (fields : Entries) : Except Exn (List Value) :=
  match entry "comment" fields with
  | .dict data => do
      let comments ← (getOr "comments" (.list []) data).items
      return comments.filterMap fun
        | .dict c => if (entry "body" c).truthy then some (entry "body" c) else none
        | _ => none
  | _ => .ok []

/-- The key of the issue in one direction of a link; it is a string. -/
def linkKey (direction : Str) (link : Value) : Except Exn (List Str) := do
  let issue ← link.get direction
  if issue.truthy then
    let key ← issue.get "key"
    if key.truthy then
      let text ← key.asStr
      return [text]
    else return []
  else return []

/-- `_extract_linked_keys` -/
def extractLinkedKeys (fields : Entries) : Except Exn (List Str) := do
  let links ← (entry "issuelinks" fields).itemsOrEmpty
  let keys ← links.mapM fun link => do
    let inward ← linkKey "inwardIssue" link
    let outward ← linkKey "outwardIssue" link
    return inward ++ outward
  return firstSeen id [] keys.flatten

/-- `summary.upper()`, of a summary that is a string -/
def summaryText : Value → Except Exn Str
  | .str s => .ok s
  | _ => .error (.raised .attributeError "upper")

/-- `summary.upper().startswith("EMBARGOED")`; no other letter becomes one of these by `upper`. -/
def isEmbargoed (summary : Str) : Bool := startsWith "EMBARGOED" (upperAscii summary)

section

variable [UnicodeTables]

/-- `CVE_RE` -/
def cveRe : Re :=
  Re.seq [.lit "CVE-", Re.times 4 (.chr isDigit), .lit "-", Re.times 4 (.chr isDigit), atMost 4 (.chr isDigit)]

/-- `sorted(set(CVE_RE.findall(text)))` -/
def cveIdsOf (text : Str) : List Str :=
  ((finditer cveRe text).map fun m => m.whole text).dedup.insertionSort (· ≤ ·)

/-- `parse_ticket_json` -/
def parseTicketJson (key : Str) (fields : Value) : Except Exn TicketReport := do
  let fields ← fields.asDict
  let fixedInBuild := match orEmpty (entry "customfield_10578" fields) with
    | .dict fib => getOr "value" (.str []) fib
    | fib => fib
  let labels ← extractLabels fields
  let summary ← summaryText (getOr "summary" (.str []) fields)
  let bodies ← commentBodies fields
  -- The texts are joined, and the ids are those of all of them.
  let texts ← (.str summary :: orEmpty (entry "description" fields) :: bodies).mapM Value.asStr
  let linkedKeys ← extractLinkedKeys fields
  return {
    ticket := key
    fixedInBuild := strOf fixedInBuild
    cveIds := cveIdsOf (join "\n" texts)
    packageGuess := extractPackageGuess summary labels (strOf fixedInBuild)
    linkedKeys
    embargoed := isEmbargoed summary
    upstreamComponent := orEmpty (entry "customfield_10632" fields) }

end

/-! ## Reading tickets -/

/-- What answers about tickets: whether `rhjira` is there, what it reports in the end, how JSON is read, and the
order in which a set of ids is gone through. -/
structure Tracker where
  available : Except Exn Unit
  dump : (key fields : Str) → Except Exn Completed
  list : (jql : Str) → Except Exn Completed
  loads : Str → Except Str Value
  setOrder : List Str → List Str
  setOrder_perm : ∀ ids, (setOrder ids).Perm ids

/-- `JIRA_FIELDS_FULL` -/
def jiraFieldsFull : Str :=
  join "," ["summary", "status", "issuetype", "assignee", "labels", "description", "comment", "issuelinks",
    "customfield_10578", "customfield_10632", "customfield_10840"]

/-- `JIRA_FIELDS_LINKED` -/
def jiraFieldsLinked : Str := "summary,status,issuetype"

/-- `JIRA_FIELDS_BATCH` -/
def jiraFieldsBatch : Str := "summary,status,issuetype,assignee,labels"

/-- A failure of `fetch_json`. -/
def noFields (raiseOnError : Bool) (message : Str) : Except Exn (Option Value) :=
  if raiseOnError then .error (.raised .runtimeError message) else .ok none

section

variable [UnicodeTables]

/-- `fetch_json`; what it remembers of an earlier call is what it would be told again. -/
def fetchJson (w : Tracker) (key fields : Str) (raiseOnError : Bool) : Except Exn (Option Value) := do
  let result ← w.dump key fields
  if result.returncode ≠ 0 then
    noFields raiseOnError ("rhjira dump ".toList ++ key ++ " failed: ".toList ++
      if strip result.stderr ≠ [] then strip result.stderr else strip result.stdout)
  else
    match w.loads result.stdout with
    | .error err => noFields raiseOnError ("Invalid JSON from rhjira dump ".toList ++ key ++ ": ".toList ++ err)
    | .ok data => do
        let parsed := (← data.get "fields").orDict
        if parsed.truthy then return some parsed
        else noFields raiseOnError ("rhjira dump ".toList ++ key ++ " returned no 'fields' data".toList)

/-- `fetch_json(key)`, and nothing where it raises a `RuntimeError`. -/
def tryFetch (w : Tracker) (key : Str) : Except Exn (Option Value) :=
  match fetchJson w key jiraFieldsFull true with
  | .error e => if e.isA .runtimeError then .ok none else .error e
  | .ok fields => .ok fields

/-- `reports[report.ticket] = report` -/
def putReport (report : TicketReport) : List TicketReport → List TicketReport
  | [] => [report]
  | r :: reports => if r.ticket = report.ticket then report :: reports else r :: putReport report reports

/-- The loop over the tickets that are named. -/
def namedReports (w : Tracker) : (keys : List Str) → List TicketReport → Except Exn (List TicketReport)
  | [], reports => .ok reports
  | key :: keys, reports => do
      match ← tryFetch w key with
      | none => namedReports w keys reports
      | some fields => do
          let report ← parseTicketJson key fields
          namedReports w keys (putReport report reports)

/-- The report of a ticket that the search has found. -/
def batchReport (w : Tracker) (key : Str) : Except Exn (Option TicketReport) := do
  match ← fetchJson w key jiraFieldsBatch false with
  | none => return none
  | some fields => do
      let fields ← fields.asDict
      let labels ← extractLabels fields
      let summary ← (getOr "summary" (.str []) fields).asStr
      -- Of these tickets only the summary and the labels are asked for.
      return some {
        ticket := key
        fixedInBuild := []
        cveIds := cveIdsOf summary
        packageGuess := extractPackageGuess summary labels []
        linkedKeys := []
        embargoed := isEmbargoed summary
        upstreamComponent := .str [] }

/-- `batch_fetch_tickets` -/
def batchFetchTickets (w : Tracker) (keys : List Str) : Except Exn (List TicketReport) := do
  let reports ← keys.mapM (batchReport w)
  return reports.reduceOption

/-- `batch_fetch_linked`, of one ticket: whether there is something to show of it. -/
def batchFetchLinked (w : Tracker) (key : Str) : Except Exn Bool := do
  match ← fetchJson w key jiraFieldsLinked false with
  | none => return false
  | some fields => do
      let _ ← fields.asDict
      return true

/-- `inspect_linked_tickets` -/
def inspectLinkedTickets (w : Tracker) (report : TicketReport) (maxLinked : Nat) :
    Except Exn (List (Str × Bool)) :=
  ((report.linkedKeys.filter (· ≠ report.ticket)).take maxLinked).mapM fun key => do
    let found ← batchFetchLinked w key
    return (key, found)

/-! ## Queries -/

/-- What goes out besides the requests for tickets by their keys. -/
inductive Query where
  /-- The search of Jira for texts with one of the ids. -/
  | textSearch (cveIds : List Str)
  /-- The search of the repository's merge requests for an id. -/
  | mergeRequests (cveId : Str)
  /-- The search of the bot's merge requests for a package. -/
  | botMergeRequests (package state : Str)
  /-- The download of what is attached to a ticket for a build. -/
  | attachment (ticket nvr : Str)
  /-- The download of a package's SBOM. -/
  | pulpSbom (package : Str)

/-- A query, and the reports there are when it is made. -/
structure Asked where
  query : Query
  read : List TicketReport

abbrev Probes (α : Type) := Prog Exn (List Asked) α

/-- The JQL of `find_related_tickets` -/
def relatedJql (cveIds : List Str) : Str :=
  "project = HUM AND status not in (Closed, \"CLOSED (invalid)\", Done, Resolved, \"Won't Fix\") AND (".toList ++
    join " OR " (cveIds.map fun id => "text ~ \"".toList ++ id ++ ['"']) ++ [')']

/-- The ticket in a line of the list that `rhjira` prints. -/
def listedKey (line : Str) : Option Str :=
  match line.splitOn '|' with
  | _ :: second :: _ =>
      if (matchAt (Re.seq [humKeyRe, .eos]) (strip second) 0).isSome then some (strip second) else none
  | _ => none

/-- The tickets that the search finds. -/
def foundKeys (w : Tracker) (cveIds : List Str) : Except Exn (List Str) := do
  let result ← w.list (relatedJql cveIds)
  if result.returncode ≠ 0 then return []
  else return ((splitlines (strip result.stdout)).filterMap listedKey).dedup.insertionSort (· ≤ ·)

/-- `find_related_tickets`, for some ids -/
def findRelatedTickets (w : Tracker) (read : List TicketReport) (cveIds : List Str) : Probes (List Str) := do
  record ⟨.textSearch cveIds, read⟩
  lift (foundKeys w cveIds)

/-! ## Gathering -/

/-- `GatheredTickets`, with what is found of the linked tickets beside the reports. -/
structure GatheredTickets where
  reports : List TicketReport
  linked : List (List (Str × Bool))
  userProvided : List Str
  discovered : List Str

/-- `{id for r in reports for id in r.cve_ids}`, in the order in which it is gone through -/
def allCveIds (w : Tracker) (reports : List TicketReport) : List Str :=
  w.setOrder (reports.flatMap (·.cveIds)).dedup

/-- The keys that are named, and the reports of those that can be read. -/
def namedTickets (w : Tracker) (tickets : List Str) : Except Exn (List Str × List TicketReport) := do
  w.available
  let initialKeys ← tickets.mapM normalizeHumKey
  let initial ← namedReports w initialKeys []
  return (initialKeys, initial)

/-- The keys of the tickets that are gathered. -/
def ticketKeys (w : Tracker) (findRelated : Bool) (initialKeys : List Str) (initial : List TicketReport) :
    Probes (List Str) :=
  if findRelated = true ∧ allCveIds w initial ≠ [] then do
    let related ← findRelatedTickets w initial (allCveIds w initial)
    return firstSeen id [] (initialKeys ++ related)
  else pure initialKeys

/-- The tickets that were found are read, and the ones that are linked. -/
def readRest (w : Tracker) (maxLinked : Nat) (initialKeys : List Str) (initial : List TicketReport)
    (keys : List Str) : Except Exn GatheredTickets := do
  let discovered := keys.filter (· ∉ initialKeys)
  let discoveredReports ← batchFetchTickets w discovered
  let linked ← (initial ++ discoveredReports).mapM fun report => inspectLinkedTickets w report maxLinked
  return {
    reports := initial ++ discoveredReports
    linked
    userProvided := initialKeys.filter (· ∈ initial.map (·.ticket))
    discovered }

/-- `gather_ticket_reports` -/
def gatherTicketReports (w : Tracker) (tickets : List Str) (findRelated : Bool) (maxLinked : Nat) :
    Probes GatheredTickets := do
  let named ← lift (namedTickets w tickets)
  let keys ← ticketKeys w findRelated named.1 named.2
  lift (readRest w maxLinked named.1 named.2 keys)

end

/-! ## Probes -/

/-- What answers an investigation: the tracker, the specs in the checkout, the places that have SBOMs, `glab` if it
is there, and the search of merge requests if its library is. -/
structure Services where
  tracker : Tracker
  text : TextRuntime
  repoRoot : Str
  specs : Str → Option Str
  sboms : SbomServices
  glab : Option ((package state : Str) → Except Exn Completed)
  gitlab : Option (Str → Except Exn Value)

/-- What one run of `glab mr list` comes to. -/
def botListing (run : Str → Str → Except Exn Completed) (package state : Str) : Except Exn (Str × Str) := do
  let proc ← run package state
  if proc.returncode ≠ 0 then
    .error (.raised .runtimeError ("glab mr list (".toList ++ state ++ ") failed: ".toList ++
      strip (if proc.stderr ≠ [] then proc.stderr else proc.stdout)))
  else .ok (state, proc.stdout)

/-- One round of `list_bot_mrs`. -/
def listBotState (run : Str → Str → Except Exn Completed) (read : List TicketReport) (package state : Str) :
    Probes (Str × Str) := do
  record ⟨.botMergeRequests package state, read⟩
  lift (botListing run package state)

/-- `list_bot_mrs`, with the lists as they are printed. -/
def listBotMrs (s : Services) (read : List TicketReport) (package : Str) : Probes (List (Str × Str)) :=
  match s.glab with
  | none => lift (.error (.raised .runtimeError "`glab` is not installed or not found in PATH."))
  | some run => do
      let opened ← listBotState run read package "open"
      let merged ← listBotState run read package "merged"
      return [opened, merged]

/-- The component that is looked for in a package: that of the first ticket about it that has one. -/
def componentOf (reports : List TicketReport) (package : Str) : Value :=
  ((reports.find? fun r => r.packageGuess = package && r.upstreamComponent.truthy).map
    (·.upstreamComponent)).getD (.str [])

/-- `probe_spec_deps(package, component)` -/
def specDepsOf (s : Services) (package : Str) (component : Value) : Except Exn (List SpecDepHit) :=
  match s.specs package with
  | none => .error (.raised .runtimeError ("Spec not found: ".toList ++ s.repoRoot ++ "/rpms/".toList ++ package ++
      '/' :: package ++ ".spec".toList))
  | some spec => do
      let text ← component.asStr
      return (probeSpecDeps s.text (some spec) text).getD []

/-- An exception of some kind is a text that is reported, any other goes on. -/
def reported {α : Type} (caught : Exn → Bool) (x : Probes α) : Probes (Except Str α) :=
  tryCatch (do return .ok (← x)) fun e => lift (if caught e then .ok (.error e.str) else .error e)

section

variable [UnicodeTables]

/-- What is asked of the ticket, if there are one and a build. -/
def askAttachment (read : List TicketReport) (nvr ticket : Str) : Probes PUnit :=
  if ticket = [] ∨ nvr = [] then pure ⟨⟩
  else do
    let key ← lift (normalizeHumKey ticket)
    record ⟨.attachment key nvr, read⟩

/-- What is asked of Pulp, unless the ticket has the SBOM. -/
def askPulp (s : Services) (read : List TicketReport) (package : Str) :
    Option (Str × List UInt8) → Probes (Str × List UInt8)
  | some sbom => pure sbom
  | none => do
      record ⟨.pulpSbom package, read⟩
      lift (pulpSbom s.sboms package)

/-- `fetch_sbom`, with what it asks; what is found in the SBOM is printed with it. -/
def askSbom (s : Services) (read : List TicketReport) (package nvr ticket : Str) :
    Probes (Str × List UInt8) := do
  askAttachment read nvr ticket
  -- Pulp is asked only where the ticket does not have it.
  let attached ← lift (jiraSbom s.sboms ticket nvr)
  askPulp s read package attached

/-- The build and the ticket that an SBOM is fetched for: those of the first ticket about the package. -/
def sbomSubject (reports : List TicketReport) (package : Str) : Str × Str :=
  match reports.find? (·.packageGuess = package) with
  | some report => (report.fixedInBuild, report.ticket)
  | none => ([], [])

/-- What the probes of a package find. -/
structure PackageProbes where
  package : Str
  botMrs : Except Str (List (Str × Str))
  specDeps : List SpecDepHit
  sbom : Option (Except Str (Str × List UInt8))

/-- The probe of an SBOM, if it is asked for. -/
def probeSbom (s : Services) (sbom : Bool) (read : List TicketReport) (package : Str) :
    Probes (Option (Except Str (Str × List UInt8))) :=
  if sbom then do
    let subject := sbomSubject read package
    let found ← reported Exn.isRuntimeOrOsError (askSbom s read package subject.1 subject.2)
    return some found
  else pure none

/-- The probes of a package. -/
def packageProbes (s : Services) (sbom : Bool) (read : List TicketReport) (package : Str) :
    Probes PackageProbes := do
  let botMrs ← reported (·.isA .runtimeError) (listBotMrs s read package)
  let specDeps ← lift (specDepsOf s package (componentOf read package))
  let sbom ← probeSbom s sbom read package
  return ⟨package, botMrs, specDeps, sbom⟩

/-- One round of the loop over the packages. -/
def probePackage (s : Services) (sbom : Bool) (read : List TicketReport) (probes : List PackageProbes)
    (package : Str) : Probes (List PackageProbes) := do
  let found ← packageProbes s sbom read package
  return probes ++ [found]

end

/-! ## Merge requests -/

/-- `except (OSError, URLError, HTTPError, TypeError)` -/
def searchFails (e : Exn) : Bool := e.isA .osError || e.isA .typeError

/-- The results of a search, each with its URL. -/
def hitsOf (found : Value) : Except Exn (List (Str × Value)) := do
  let items ← found.itemsOrEmpty
  items.mapM fun hit => do
    let url ← hit.get "html_url"
    return (strOf (orEmpty url), hit)

/-- A result is kept if it has a URL, and no other has had it. -/
def addHit (hits : List (Str × Value)) (hit : Str × Value) : List (Str × Value) :=
  if hit.1 ≠ [] ∧ hit.1 ∉ hits.map Prod.fst then hits ++ [hit] else hits

/-- What comes of the outcome of a search. -/
def mergeHits (found : Except Exn Value) (hits : List (Str × Value)) : Except Exn (List (Str × Value)) :=
  match found with
  | .error e => if searchFails e then .ok hits else .error e
  | .ok found => do
      let new ← hitsOf found
      return new.foldl addHit hits

/-- One round of `search_repo_fix_mrs`. -/
def searchFixMrs (search : Str → Except Exn Value) (read : List TicketReport) (hits : List (Str × Value))
    (cveId : Str) : Probes (List (Str × Value)) := do
  record ⟨.mergeRequests cveId, read⟩
  lift (mergeHits (search cveId) hits)

/-- `search_repo_fix_mrs` -/
def searchRepoFixMrs (s : Services) (read : List TicketReport) (cveIds : List Str) :
    Probes (List (Str × Value)) :=
  match s.gitlab with
  | none => pure []
  | some search => cveIds.foldlM (searchFixMrs search read) []

/-! ## The investigation -/

/-- The arguments of `investigate`. -/
structure InvestigateArgs where
  tickets : List Str
  findRelated : Bool := true
  only : Bool := false
  maxLinked : Int := 8
  sbom : Bool := false

/-- `strip_only_keyword` -/
def stripOnlyKeyword (tickets : List Str) : Except Exn (List Str × Bool) :=
  match tickets.getLast? with
  | none => .ok (tickets, false)
  | some last =>
      if lowerAscii last = "only".toList then
        if tickets.dropLast = [] then .error (.raised .valueError "`only` must follow at least one ticket key")
        else .ok (tickets.dropLast, true)
      else .ok (tickets, false)

/-- Whether related tickets are looked for, with the word at the end of the tickets or without it. -/
def InvestigateArgs.related (args : InvestigateArgs) (onlyToken : Bool) : Bool :=
  args.findRelated && !onlyToken && !args.only

/-- The CVE ids of the tickets. -/
def cveIdsIn (g : GatheredTickets) : List Str := firstSeen id [] (g.reports.flatMap (·.cveIds))

/-- The packages that the named tickets are about. -/
def packagesOf (g : GatheredTickets) : List Str :=
  firstSeen id [] ((g.reports.filter fun r => r.ticket ∈ g.userProvided ∧ r.packageGuess ≠ []).map
    (·.packageGuess))

/-- What an investigation reports. -/
structure Findings where
  gathered : GatheredTickets
  probes : List PackageProbes
  gitlabMrs : List (Str × Value)

section

variable [UnicodeTables]

/-- The tickets of an investigation, up to its probes. -/
def gathering (s : Services) (args : InvestigateArgs) : Probes GatheredTickets := do
  let named ← lift (stripOnlyKeyword args.tickets)
  gatherTicketReports s.tracker named.1 (args.related named.2) args.maxLinked.toNat

/-- `cmd_investigate`, up to what it prints; nothing if the arguments are refused. -/
def cmdInvestigate (s : Services) (args : InvestigateArgs) : Probes (Option Findings) :=
  if args.maxLinked < 0 then pure none
  else do
    let gathered ← gathering s args
    let probes ← (packagesOf gathered).foldlM (probePackage s args.sbom gathered.reports) []
    let gitlabMrs ← searchRepoFixMrs s gathered.reports (cveIdsIn gathered)
    return some ⟨gathered, probes, gitlabMrs⟩

end

/-! ## Embargo -/

/-- A value that embargoed tickets have, and no other ticket that was read. -/
def OnlyEmbargoed (values : TicketReport → List Str) (read : List TicketReport) (v : Str) : Prop :=
  (∃ r ∈ read, v ∈ values r) ∧ ∀ r ∈ read, v ∈ values r → r.embargoed = true

instance {values : TicketReport → List Str} {read : List TicketReport} {v : Str} :
    Decidable (OnlyEmbargoed values read v) :=
  inferInstanceAs (Decidable ((∃ r ∈ read, v ∈ values r) ∧ ∀ r ∈ read, v ∈ values r → r.embargoed = true))

/-- The package a ticket is about, if one is guessed. -/
def packages (r : TicketReport) : List Str := if r.packageGuess = [] then [] else [r.packageGuess]

/-- GitLab or Pulp is asked about a CVE id or a package that only embargoed tickets have; Jira has the tickets. -/
def Leaks (a : Asked) : Prop :=
  match a.query with
  | .textSearch _ => False
  | .mergeRequests id => OnlyEmbargoed (·.cveIds) a.read id
  | .botMergeRequests package _ => OnlyEmbargoed packages a.read package
  | .attachment _ _ => False
  | .pulpSbom package => OnlyEmbargoed packages a.read package

instance : DecidablePred Leaks
  | ⟨.textSearch _, _⟩ => inferInstanceAs (Decidable False)
  | ⟨.mergeRequests id, read⟩ => inferInstanceAs (Decidable (OnlyEmbargoed (·.cveIds) read id))
  | ⟨.botMergeRequests package _, read⟩ => inferInstanceAs (Decidable (OnlyEmbargoed packages read package))
  | ⟨.attachment _ _, _⟩ => inferInstanceAs (Decidable False)
  | ⟨.pulpSbom package, read⟩ => inferInstanceAs (Decidable (OnlyEmbargoed packages read package))

section

variable {s : Services} {read : List TicketReport} {package : Str}

theorem recording_listBotState {run : Str → Str → Except Exn Completed} {state : Str} :
    Recording (listBotState run read package state) :=
  (recording_record _).bind fun _ => recording_lift _

theorem leaks_listBotState {run : Str → Str → Except Exn Completed} {state : Str} :
    Records Leaks (listBotState run read package state) ↔ OnlyEmbargoed packages read package := by
  unfold listBotState
  rw [records_record_bind fun _ => recording_lift _]
  exact or_iff_left (not_records_lift _)

theorem recording_listBotMrs : Recording (listBotMrs s read package) := by
  unfold listBotMrs
  cases s.glab with
  | none => exact recording_lift _
  | some run =>
      exact recording_listBotState.bind fun _ => recording_listBotState.bind fun _ => recording_pure _

/-- The first of its two queries is made whatever comes of it. -/
theorem leaks_listBotMrs :
    Records Leaks (listBotMrs s read package) ↔ s.glab.isSome = true ∧ OnlyEmbargoed packages read package := by
  unfold listBotMrs
  cases s.glab with
  | none => exact iff_of_false (not_records_lift _) (by simp)
  | some run =>
      show Records Leaks (listBotState run read package "open" >>= _) ↔ _
      rw [records_bind recording_listBotState fun _ => recording_listBotState.bind fun _ => recording_pure _,
        leaks_listBotState]
      constructor
      · rintro (h | ⟨opened, -, h⟩)
        · exact ⟨rfl, h⟩
        · rw [records_bind_of_quiet recording_listBotState (fun _ => recording_pure _) fun _ => not_records_pure _,
            leaks_listBotState] at h
          exact ⟨rfl, h⟩
      · exact fun h => Or.inl h.2

theorem recording_reported {α : Type} {caught : Exn → Bool} {x : Probes α} (hx : Recording x) :
    Recording (reported caught x) :=
  Recording.tryCatch (hx.bind fun _ => recording_pure _)

theorem leaks_reported {α : Type} {caught : Exn → Bool} {x : Probes α} (hx : Recording x) :
    Records Leaks (reported caught x) ↔ Records Leaks x := by
  unfold reported
  rw [records_tryCatch (hx.bind fun _ => recording_pure _)]
  exact records_bind_of_quiet hx (fun _ => recording_pure _) fun _ => not_records_pure _

/-- That there is no `glab` is reported. -/
theorem returns_reported_listBotMrs (h : s.glab = none) :
    Returns (reported (·.isA .runtimeError) (listBotMrs s read package)) := by
  unfold listBotMrs
  rw [h]
  exact ⟨_, rfl⟩

variable {search : Str → Except Exn Value} {hits : List (Str × Value)} {cveId : Str}

theorem recording_searchFixMrs : Recording (searchFixMrs search read hits cveId) :=
  (recording_record _).bind fun _ => recording_lift _

theorem leaks_searchFixMrs :
    Records Leaks (searchFixMrs search read hits cveId) ↔ OnlyEmbargoed (·.cveIds) read cveId := by
  unfold searchFixMrs
  rw [records_record_bind fun _ => recording_lift _]
  exact or_iff_left (not_records_lift _)

/-- A search whose exception is caught, or whose results can be read. -/
def Searched (search : Str → Except Exn Value) (cveId : Str) : Prop :=
  match search cveId with
  | .error e => searchFails e = true
  | .ok found => ∃ new, hitsOf found = .ok new

theorem returns_searchFixMrs : Returns (searchFixMrs search read hits cveId) ↔ Searched search cveId := by
  unfold Returns searchFixMrs Searched
  rw [outcome_bind (recording_record _) fun _ => recording_lift _, outcome_record, except_bind_ok, outcome_lift]
  cases search cveId with
  | error e =>
      show (∃ a, (if searchFails e then Except.ok hits else Except.error e) = .ok a) ↔ searchFails e = true
      cases hfails : searchFails e with
      | true => exact iff_of_true ⟨hits, rfl⟩ rfl
      | false => exact iff_of_false (by simp) Bool.false_ne_true
  | ok found =>
      show (∃ a, (hitsOf found >>= fun new => pure (new.foldl addHit hits)) = .ok a) ↔ _
      constructor
      · rintro ⟨a, h⟩
        obtain ⟨new, hnew, -⟩ := except_bind_ok_iff.mp h
        exact ⟨new, hnew⟩
      · rintro ⟨new, hnew⟩
        exact ⟨_, by rw [hnew]; rfl⟩

theorem recording_searchRepoFixMrs {ids : List Str} : Recording (searchRepoFixMrs s read ids) := by
  unfold searchRepoFixMrs
  cases s.gitlab with
  | none => exact recording_pure _
  | some search => exact recording_foldlM (fun _ _ => recording_searchFixMrs) _ _

theorem leaks_searchRepoFixMrs {ids : List Str} :
    Records Leaks (searchRepoFixMrs s read ids) ↔ ∃ search before id after, s.gitlab = some search ∧
      ids = before ++ id :: after ∧ (∀ c ∈ before, Searched search c) ∧ OnlyEmbargoed (·.cveIds) read id := by
  unfold searchRepoFixMrs
  cases s.gitlab with
  | none =>
      refine iff_of_false (not_records_pure _) ?_
      rintro ⟨search, before, id, after, h, -⟩
      cases h
  | some search =>
      have hwork : ∀ hits cveId, Recording (searchFixMrs search read hits cveId) :=
        fun _ _ => recording_searchFixMrs
      have hgood : ∀ hits cveId, Returns (searchFixMrs search read hits cveId) ↔ Searched search cveId :=
        fun _ _ => returns_searchFixMrs
      show Records Leaks (ids.foldlM (searchFixMrs search read) []) ↔ _
      rw [records_foldlM_of_alike hwork hgood fun _ _ => leaks_searchFixMrs]
      constructor
      · rintro ⟨before, id, after, h⟩
        exact ⟨search, before, id, after, rfl, h⟩
      · rintro ⟨search', before, id, after, hsearch, h⟩
        obtain rfl := Option.some.inj hsearch
        exact ⟨before, id, after, h⟩

end

section

variable [UnicodeTables]

/-- Whether the probes of a package ask GitLab or Pulp about it. -/
def AsksAbout (s : Services) (sbom : Bool) (read : List TicketReport) (package : Str) : Prop :=
  s.glab.isSome = true ∨ sbom = true ∧ (∃ hits, specDepsOf s package (componentOf read package) = .ok hits) ∧
    jiraSbom s.sboms (sbomSubject read package).2 (sbomSubject read package).1 = .ok none

/-- An investigation gets to an id or a package that only embargoed tickets have. -/
inductive Exposes (s : Services) (args : InvestigateArgs) : Prop
  /-- The probes of the packages before it raise nothing that is not caught. -/
  | package {g : GatheredTickets} {before after : List Str} {package : Str}
      (gathered : outcome (gathering s args) = .ok g) (at_package : packagesOf g = before ++ package :: after)
      (probed : ∀ p ∈ before, Returns (packageProbes s args.sbom g.reports p))
      (asks : AsksAbout s args.sbom g.reports package) (secret : OnlyEmbargoed packages g.reports package)
  /-- Neither do the probes of all packages, nor the searches for the ids before it. -/
  | mergeRequests {g : GatheredTickets} {before after : List Str} {id : Str} {search : Str → Except Exn Value}
      (gathered : outcome (gathering s args) = .ok g)
      (probed : ∀ p ∈ packagesOf g, Returns (packageProbes s args.sbom g.reports p))
      (there : s.gitlab = some search) (at_id : cveIdsIn g = before ++ id :: after)
      (searched : ∀ c ∈ before, Searched search c) (secret : OnlyEmbargoed (·.cveIds) g.reports id)

/-! ## Which queries are made -/

variable {s : Services} {args : InvestigateArgs} {read : List TicketReport} {package : Str} {sbom : Bool}

theorem recording_askAttachment {nvr ticket : Str} : Recording (askAttachment read nvr ticket) := by
  unfold askAttachment
  split
  · exact recording_pure _
  · exact (recording_lift _).bind fun _ => recording_record _

theorem not_leaks_askAttachment {nvr ticket : Str} : ¬ Records Leaks (askAttachment read nvr ticket) := by
  unfold askAttachment
  split
  · exact not_records_pure _
  · rw [records_lift_bind fun _ => recording_record _]
    rintro ⟨key, -, h⟩
    exact records_record.mp h

/-- The key of the ticket is checked before the attachment is asked for. -/
theorem returns_askAttachment {nvr ticket : Str} {attached : Option (Str × List UInt8)}
    (h : jiraSbom s.sboms ticket nvr = .ok attached) : outcome (askAttachment read nvr ticket) = .ok ⟨⟩ := by
  unfold jiraSbom at h
  unfold askAttachment
  split
  · rfl
  · rename_i hgiven
    rw [if_neg hgiven] at h
    rw [outcome_bind (recording_lift _) fun _ => recording_record _, outcome_lift]
    cases hkey : normalizeHumKey ticket with
    | ok key => rfl
    | error e =>
        rw [hkey] at h
        cases h

omit [UnicodeTables] in
theorem recording_askPulp {attached : Option (Str × List UInt8)} :
    Recording (askPulp s read package attached) := by
  cases attached with
  | some sbom => exact recording_pure _
  | none => exact (recording_record _).bind fun _ => recording_lift _

omit [UnicodeTables] in
theorem leaks_askPulp {attached : Option (Str × List UInt8)} :
    Records Leaks (askPulp s read package attached) ↔ attached = none ∧ OnlyEmbargoed packages read package := by
  cases attached with
  | some sbom => exact iff_of_false (not_records_pure _) (by simp)
  | none =>
      show Records Leaks (record _ >>= _) ↔ _
      rw [records_record_bind fun _ => recording_lift _, or_iff_left (not_records_lift _)]
      exact (and_iff_right rfl).symm

theorem recording_askSbom {nvr ticket : Str} : Recording (askSbom s read package nvr ticket) :=
  recording_askAttachment.bind fun _ => (recording_lift _).bind fun _ => recording_askPulp

theorem leaks_askSbom {nvr ticket : Str} :
    Records Leaks (askSbom s read package nvr ticket) ↔
      jiraSbom s.sboms ticket nvr = .ok none ∧ OnlyEmbargoed packages read package := by
  unfold askSbom
  rw [records_bind recording_askAttachment fun _ => (recording_lift _).bind fun _ => recording_askPulp,
    or_iff_right not_leaks_askAttachment]
  constructor
  · rintro ⟨-, -, h⟩
    rw [records_lift_bind fun _ => recording_askPulp] at h
    obtain ⟨attached, hattached, h⟩ := h
    obtain ⟨rfl, hsecret⟩ := leaks_askPulp.mp h
    exact ⟨hattached, hsecret⟩
  · rintro ⟨hattached, hsecret⟩
    refine ⟨⟨⟩, returns_askAttachment hattached, ?_⟩
    rw [records_lift_bind fun _ => recording_askPulp]
    exact ⟨none, hattached, leaks_askPulp.mpr ⟨rfl, hsecret⟩⟩

theorem recording_probeSbom : Recording (probeSbom s sbom read package) := by
  unfold probeSbom
  split
  · exact (recording_reported recording_askSbom).bind fun _ => recording_pure _
  · exact recording_pure _

theorem leaks_probeSbom :
    Records Leaks (probeSbom s sbom read package) ↔ sbom = true ∧
      jiraSbom s.sboms (sbomSubject read package).2 (sbomSubject read package).1 = .ok none ∧
        OnlyEmbargoed packages read package := by
  unfold probeSbom
  split
  · rename_i hsbom
    show Records Leaks (reported _ _ >>= _) ↔ _
    rw [records_bind_of_quiet (recording_reported recording_askSbom) (fun _ => recording_pure _)
      (fun _ => not_records_pure _), leaks_reported recording_askSbom, leaks_askSbom]
    exact (and_iff_right hsbom).symm
  · rename_i hsbom
    exact iff_of_false (not_records_pure _) fun h => hsbom h.1

theorem recording_packageProbes : Recording (packageProbes s sbom read package) :=
  (recording_reported recording_listBotMrs).bind fun _ => (recording_lift _).bind fun _ =>
    recording_probeSbom.bind fun _ => recording_pure _

theorem leaks_packageProbes :
    Records Leaks (packageProbes s sbom read package) ↔
      AsksAbout s sbom read package ∧ OnlyEmbargoed packages read package := by
  have hsbom : ∀ botMrs specDeps, Recording (do
      let found ← probeSbom s sbom read package
      return (⟨package, botMrs, specDeps, found⟩ : PackageProbes)) :=
    fun _ _ => recording_probeSbom.bind fun _ => recording_pure _
  unfold packageProbes
  rw [records_bind (recording_reported recording_listBotMrs) fun _ => (recording_lift _).bind fun _ => hsbom _ _,
    leaks_reported recording_listBotMrs, leaks_listBotMrs]
  constructor
  · rintro (⟨hglab, hsecret⟩ | ⟨botMrs, -, h⟩)
    · exact ⟨Or.inl hglab, hsecret⟩
    · rw [records_lift_bind fun _ => hsbom _ _] at h
      obtain ⟨hits, hhits, h⟩ := h
      rw [records_bind_of_quiet recording_probeSbom (fun _ => recording_pure _) fun _ => not_records_pure _,
        leaks_probeSbom] at h
      exact ⟨Or.inr ⟨h.1, ⟨hits, hhits⟩, h.2.1⟩, h.2.2⟩
  · rintro ⟨hasks, hsecret⟩
    -- With `glab` its first query is enough; without it the SBOM is what is asked for.
    cases hglab : s.glab with
    | some run => exact Or.inl ⟨rfl, hsecret⟩
    | none =>
        rw [AsksAbout, hglab] at hasks
        obtain h | ⟨hsbomAsked, ⟨hits, hhits⟩, hattached⟩ := hasks
        · exact absurd h (by simp)
        · obtain ⟨botMrs, hbotMrs⟩ := returns_reported_listBotMrs hglab
          refine Or.inr ⟨botMrs, hbotMrs, ?_⟩
          rw [records_lift_bind fun _ => hsbom _ _]
          refine ⟨hits, hhits, ?_⟩
          rw [records_bind_of_quiet recording_probeSbom (fun _ => recording_pure _) fun _ => not_records_pure _,
            leaks_probeSbom]
          exact ⟨hsbomAsked, hattached, hsecret⟩

section

variable {probes : List PackageProbes}

theorem recording_probePackage : Recording (probePackage s sbom read probes package) :=
  recording_packageProbes.bind fun _ => recording_pure _

theorem returns_probePackage :
    Returns (probePackage s sbom read probes package) ↔ Returns (packageProbes s sbom read package) :=
  returns_bind_pure recording_packageProbes

theorem leaks_probePackage :
    Records Leaks (probePackage s sbom read probes package) ↔
      AsksAbout s sbom read package ∧ OnlyEmbargoed packages read package := by
  unfold probePackage
  rw [records_bind_of_quiet recording_packageProbes (fun _ => recording_pure _) fun _ => not_records_pure _,
    leaks_packageProbes]

end

section

variable {w : Tracker} {initial : List TicketReport} {initialKeys tickets : List Str} {findRelated : Bool}
  {maxLinked : Nat}

theorem recording_findRelatedTickets {ids : List Str} : Recording (findRelatedTickets w read ids) :=
  (recording_record _).bind fun _ => recording_lift _

theorem recording_ticketKeys : Recording (ticketKeys w findRelated initialKeys initial) := by
  unfold ticketKeys
  split
  · exact recording_findRelatedTickets.bind fun _ => recording_pure _
  · exact recording_pure _

theorem not_leaks_ticketKeys : ¬ Records Leaks (ticketKeys w findRelated initialKeys initial) := by
  unfold ticketKeys
  split
  · show ¬ Records Leaks (findRelatedTickets w initial (allCveIds w initial) >>= _)
    rw [records_bind_of_quiet recording_findRelatedTickets (fun _ => recording_pure _) fun _ => not_records_pure _]
    unfold findRelatedTickets
    rw [records_bind_of_quiet (recording_record _) (fun _ => recording_lift _) fun _ => not_records_lift _]
    exact records_record.mp
  · exact not_records_pure _

theorem recording_gatherTicketReports : Recording (gatherTicketReports w tickets findRelated maxLinked) :=
  (recording_lift _).bind fun _ => recording_ticketKeys.bind fun _ => recording_lift _

/-- Only Jira is asked while the tickets are gathered. -/
theorem not_leaks_gatherTicketReports : ¬ Records Leaks (gatherTicketReports w tickets findRelated maxLinked) := by
  unfold gatherTicketReports
  rw [records_lift_bind fun _ => recording_ticketKeys.bind fun _ => recording_lift _]
  rintro ⟨named, -, h⟩
  rw [records_bind_of_quiet recording_ticketKeys (fun _ => recording_lift _) fun _ => not_records_lift _] at h
  exact not_leaks_ticketKeys h

end

theorem recording_gathering : Recording (gathering s args) :=
  (recording_lift _).bind fun _ => recording_gatherTicketReports

theorem not_leaks_gathering : ¬ Records Leaks (gathering s args) := by
  unfold gathering
  rw [records_lift_bind fun _ => recording_gatherTicketReports]
  rintro ⟨named, -, h⟩
  exact not_leaks_gatherTicketReports h

/-! ## The two loops -/

theorem leaks_probes {g : GatheredTickets} :
    Records Leaks ((packagesOf g).foldlM (probePackage s args.sbom g.reports) []) ↔ ∃ before package after,
      packagesOf g = before ++ package :: after ∧ (∀ p ∈ before, Returns (packageProbes s args.sbom g.reports p)) ∧
        AsksAbout s args.sbom g.reports package ∧ OnlyEmbargoed packages g.reports package := by
  have hwork : ∀ probes p, Recording (probePackage s args.sbom g.reports probes p) :=
    fun _ _ => recording_probePackage
  have hgood : ∀ probes p, Returns (probePackage s args.sbom g.reports probes p) ↔
      Returns (packageProbes s args.sbom g.reports p) := fun _ _ => returns_probePackage
  exact records_foldlM_of_alike hwork hgood (fun _ _ => leaks_probePackage) _ _

theorem returns_probes {g : GatheredTickets} :
    Returns ((packagesOf g).foldlM (probePackage s args.sbom g.reports) []) ↔
      ∀ p ∈ packagesOf g, Returns (packageProbes s args.sbom g.reports p) := by
  have hwork : ∀ probes p, Recording (probePackage s args.sbom g.reports probes p) :=
    fun _ _ => recording_probePackage
  exact returns_foldlM hwork (fun _ _ => returns_probePackage) _ _

/-- **`investigate_leaks_iff`** — an investigation asks GitLab or Pulp about an id or a package that only embargoed
tickets have exactly if its arguments are taken and one of its two loops gets to such an id or package. -/
theorem investigate_leaks_iff (s : Services) (args : InvestigateArgs) :
    Records Leaks (cmdInvestigate s args) ↔ 0 ≤ args.maxLinked ∧ Exposes s args := by
  unfold cmdInvestigate
  split
  · rename_i hneg
    -- A negative bound ends the command before anything is asked.
    exact iff_of_false (not_records_pure _) fun h => absurd h.1 (Int.not_le.mpr hneg)
  · rename_i hneg
    rw [and_iff_right (Int.not_lt.mp hneg)]
    have hprobes : ∀ g : GatheredTickets,
        Recording ((packagesOf g).foldlM (probePackage s args.sbom g.reports) []) :=
      fun _ => recording_foldlM (fun _ _ => recording_probePackage) _ _
    have hmrs : ∀ (g : GatheredTickets) (probes : List PackageProbes), Recording (do
        let gitlabMrs ← searchRepoFixMrs s g.reports (cveIdsIn g)
        return some (⟨g, probes, gitlabMrs⟩ : Findings)) :=
      fun _ _ => recording_searchRepoFixMrs.bind fun _ => recording_pure _
    rw [records_bind recording_gathering fun g => (hprobes g).bind fun _ => hmrs g _,
      or_iff_right not_leaks_gathering]
    constructor
    · rintro ⟨g, hg, h⟩
      -- The probes of the packages come first; the ids are searched for once all of them have returned.
      rw [records_bind (hprobes g) fun _ => hmrs g _, leaks_probes] at h
      obtain ⟨before, package, after, hat, hbefore, hasks, hsecret⟩ | ⟨probes, hprobed, h⟩ := h
      · exact .package hg hat hbefore hasks hsecret
      · rw [records_bind_of_quiet recording_searchRepoFixMrs (fun _ => recording_pure _)
          fun _ => not_records_pure _, leaks_searchRepoFixMrs] at h
        obtain ⟨search, before, id, after, hsearch, hat, hbefore, hsecret⟩ := h
        exact .mergeRequests hg (returns_probes.mp ⟨probes, hprobed⟩) hsearch hat hbefore hsecret
    · intro h
      cases h with
      | package hg hat hbefore hasks hsecret =>
          refine ⟨_, hg, ?_⟩
          rw [records_bind (hprobes _) fun _ => hmrs _ _, leaks_probes]
          exact Or.inl ⟨_, _, _, hat, hbefore, hasks, hsecret⟩
      | mergeRequests hg hprobed hsearch hat hbefore hsecret =>
          obtain ⟨probes, hprobes'⟩ := returns_probes.mpr hprobed
          refine ⟨_, hg, ?_⟩
          rw [records_bind (hprobes _) fun _ => hmrs _ _]
          refine Or.inr ⟨probes, hprobes', ?_⟩
          rw [records_bind_of_quiet recording_searchRepoFixMrs (fun _ => recording_pure _)
            fun _ => not_records_pure _, leaks_searchRepoFixMrs]
          exact ⟨_, _, _, _, hsearch, hat, hbefore, hsecret⟩

end

/-! ## An embargoed ticket -/

/-- A tracker whose tickets all have the same summary. -/
def trackerOf (summary : Str) : Tracker where
  available := .ok ()
  dump _ _ := .ok ⟨0, [], []⟩
  list _ := .ok ⟨1, [], []⟩
  loads _ := .ok (.dict [("fields", .dict [("summary", .str summary)])])
  setOrder ids := ids
  setOrder_perm _ := List.Perm.refl _

/-- There is no `glab`, and the search of merge requests finds nothing. -/
def servicesOf (summary : Str) : Services where
  tracker := trackerOf summary
  text := asciiRuntime [] (.dict [])
  repoRoot := "/rpms"
  specs _ := some []
  sboms := ⟨fun _ => .error (.raised .osError "offline"), fun _ => .error (.raised .osError "offline"),
    fun _ _ => none, id⟩
  glab := none
  gitlab := some fun _ => .ok (.list [])

/-- The id in the summary is searched for on GitLab. -/
example :
    letI := asciiTables
    Records Leaks (cmdInvestigate (servicesOf "EMBARGOED CVE-2026-1234 curl: overflow") { tickets := ["HUM-1234"] }) := by
  decide +kernel

end HummingbirdRpms.Investigation
