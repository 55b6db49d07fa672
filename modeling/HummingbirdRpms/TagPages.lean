/-
# HummingbirdRpms.TagPages — how many pages of tags a query asks for.

`query_gitlab_tags` of `ci/check_upstream_versions.py` asks for one page of tags after the other, and its
loop runs while `page <= max_pages`.  The number of the next page is not counted by the loop: it is read
off a header of the server's reply.  A server that names a page the loop has already had keeps it going.

`queryGitlabTags` asks a server whose answer depends on the request alone.  Here a server is the sequence
of its replies, whatever they depend on: it may answer the same request differently the next time
(`pageLoop`, and `fetchTags_eq_pageLoop` for the servers of before).

**`bounded_iff`** — a query sends at most five requests and comes to an end exactly when it cannot send
one at all, or one of the first five replies stops the loop.  **`bounded_of_increasing`** — a server that
always names a later page stops it.
-/
import HummingbirdRpms.GitLab

namespace HummingbirdRpms

open Lib Lib.Text Lib.Exec Lib.Url

/-! ## The loop, against a sequence of replies -/

/-- `max_pages` -/
def maxPages : Int := 5

/-- The paging loop after `sent` requests: the requests sent in the next `fuel` rounds, and how the loop
has ended by then, if it has. -/
def pageLoop (request : Int → Except Exn Request) (replies : Nat → TagsReply) (after : TagsReply → Paging) :
    (fuel sent : Nat) → (page : Int) → List Value → List Request × Option (Except Exn (List Value))
  | 0, _, _, _ => ([], none)
  | fuel + 1, sent, page, allTags =>
      if page > maxPages then ([], some (.ok allTags))
      else
        match request page with
        | .error e => ([], some (.error e))
        | .ok r =>
            match after (replies sent) with
            | .raises e => ([r], some (.error e))
            | .stop tags => ([r], some (.ok (allTags ++ tags)))
            | .next tags page' =>
                let (rs, ending) := pageLoop request replies after fuel (sent + 1) page' (allTags ++ tags)
                (r :: rs, ending)

attribute [local simp] pageLoop

/-- The reply stops the loop: it raises, has no further page, or names one past the last. -/
def Paging.Stops : Paging → Prop
  | .next _ page => page > maxPages
  | .stop _ => True
  | .raises _ => True

section

variable [UnicodeTables]

/-- `query_gitlab_tags` against a sequence of replies, cut after `fuel` rounds of its loop: the requests
it has sent, and what it has returned or raised by then. -/
def queryTagPages (environ : Str → Option Str) (netlocOk : Str → Bool) (replies : Nat → TagsReply)
    (upstreamRepo tagStripPrefix : Str) (trackVersion : Option Str) (fuel : Nat) :
    List Request × Option (Except Exn VersionInfo) :=
  match parseGitlabUpstreamUrl netlocOk upstreamRepo with
  | .error e => ([], some (.error e))
  | .ok (apiBase, projectPath) =>
      let tokenEnv := gitlabTokenEnvVar upstreamRepo
      let token := setVar environ tokenEnv
      let searchParam :=
        match trackVersion.filter (!·.isEmpty) with
        | none => []
        | some v => "&search=".toList ++ quote "/" (tagStripPrefix ++ v)
      let (requests, ending) := pageLoop
        (fun page => Request.make (tagsUrl apiBase projectPath searchParam page) (tagsHeaders token))
        replies (afterReply upstreamRepo tokenEnv token) fuel 0 1 []
      (requests, ending.map fun tags => do
        let versions ← tagVersions tagStripPrefix (← tags)
        return ⟨versions.head?, versions⟩)

/-- A query sends at most `max_pages` requests, and returns or raises. -/
def BoundedQuery (environ : Str → Option Str) (netlocOk : Str → Bool) (replies : Nat → TagsReply)
    (upstreamRepo tagStripPrefix : Str) (trackVersion : Option Str) : Prop :=
  ∃ fuel requests ending,
    queryTagPages environ netlocOk replies upstreamRepo tagStripPrefix trackVersion fuel =
      (requests, some ending) ∧ (requests.length : Int) ≤ maxPages

end

/-! ## A server whose answer depends on the request is one of these -/

section

variable {request : Int → Except Exn Request} {reply : Request → TagsReply}
  {after : TagsReply → Paging} {replies : Nat → TagsReply}

/-- The page the loop asks for after some rounds, as long as it goes on. -/
def pageAfter (request : Int → Except Exn Request) (reply : Request → TagsReply)
    (after : TagsReply → Paging) (page : Int) : Nat → Int
  | 0 => page
  | n + 1 =>
      match request (pageAfter request reply after page n) with
      | .error _ => page
      | .ok r =>
          match after (reply r) with
          | .next _ page' => page'
          | _ => page

/-- What the server says to the request of that page. -/
def replyAfter (request : Int → Except Exn Request) (reply : Request → TagsReply)
    (after : TagsReply → Paging) (page : Int) (n : Nat) : TagsReply :=
  match request (pageAfter request reply after page n) with
  | .error _ => .urlError []
  | .ok r => reply r

theorem fetchTags_eq_pageLoop_from {page : Int} {fuel n : Nat} {allTags : List Value} :
    fetchTags request reply after fuel (pageAfter request reply after page n) allTags =
      pageLoop request (replyAfter request reply after page) after fuel n
        (pageAfter request reply after page n) allTags := by
  induction fuel generalizing n allTags with
  | zero => rfl
  | succ fuel ih =>
      unfold fetchTags pageLoop maxPages
      split
      · rfl
      · cases hr : request (pageAfter request reply after page n) with
        | error e => rfl
        | ok r =>
            have hreply : replyAfter request reply after page n = reply r := by rw [replyAfter, hr]
            simp only [hreply]
            cases hafter : after (reply r) with
            | stop tags => rfl
            | raises e => rfl
            | next tags page' =>
                have hpage : pageAfter request reply after page (n + 1) = page' := by
                  rw [pageAfter, hr]
                  simp only [hafter]
                have hrest := @ih (n + 1) (allTags ++ tags)
                rw [hpage] at hrest
                simp only [hrest]

/-- **`fetchTags_eq_pageLoop`** — the loop against a server whose answer depends on the request is the
loop against the sequence of its answers. -/
theorem fetchTags_eq_pageLoop {page : Int} {fuel : Nat} {allTags : List Value} :
    fetchTags request reply after fuel page allTags =
      pageLoop request (replyAfter request reply after page) after fuel 0 page allTags :=
  @fetchTags_eq_pageLoop_from request reply after page fuel 0 allTags

/-! ## When the loop is bounded -/

/-- Without a request for it, a page ends the loop. -/
theorem pageLoop_error {fuel sent : Nat} {page : Int} {allTags : List Value}
    (h : ∀ page, ∃ e, request page = .error e) :
    ∃ ending, pageLoop request replies after (fuel + 1) sent page allTags = ([], some ending) := by
  obtain ⟨e, he⟩ := h page
  unfold pageLoop
  split
  · exact ⟨_, rfl⟩
  · rw [he]
    exact ⟨_, rfl⟩

/-- A reply among the next `k` that stops the loop: it sends at most `k` requests. -/
theorem pageLoop_bounded {k sent : Nat} {page : Int} {allTags : List Value}
    (h : ∃ n < k, (after (replies (sent + n))).Stops) :
    ∃ requests ending, pageLoop request replies after (k + 1) sent page allTags = (requests, some ending) ∧
      requests.length ≤ k := by
  induction k generalizing sent page allTags with
  | zero =>
      obtain ⟨n, hn, -⟩ := h
      exact absurd hn (Nat.not_lt_zero n)
  | succ k ih =>
      rw [pageLoop]
      split
      · exact ⟨[], _, rfl, Nat.zero_le _⟩
      · cases hr : request page with
        | error e => exact ⟨[], _, rfl, Nat.zero_le _⟩
        | ok r =>
            have hone : [r].length ≤ k + 1 := Nat.succ_le_succ (Nat.zero_le k)
            cases hafter : after (replies sent) with
            | stop tags => exact ⟨[r], _, rfl, hone⟩
            | raises e => exact ⟨[r], _, rfl, hone⟩
            | next tags page' =>
                obtain ⟨n, hn, hstops⟩ := h
                cases n with
                | zero =>
                    -- this reply names a page past the last, so the next round sends nothing
                    rw [Nat.add_zero, hafter] at hstops
                    have hpast : page' > maxPages := hstops
                    refine ⟨[r], .ok (allTags ++ tags), ?_, hone⟩
                    simp only [pageLoop, if_pos hpast]
                | succ n =>
                    have hrest : ∃ n < k, (after (replies (sent + 1 + n))).Stops := by
                      refine ⟨n, Nat.lt_of_succ_lt_succ hn, ?_⟩
                      rwa [show sent + 1 + n = sent + (n + 1) by omega]
                    obtain ⟨requests, ending, hloop, hlen⟩ := @ih (sent + 1) page' (allTags ++ tags) hrest
                    refine ⟨r :: requests, ending, ?_, Nat.succ_le_succ hlen⟩
                    simp only [hloop]

/-- Where no reply of the next `k` stops the loop, it goes on to send another request. -/
theorem pageLoop_sends {k sent : Nat} {page : Int} {allTags : List Value}
    (hrequest : ∀ page, ∃ r, request page = .ok r) (hpage : page ≤ maxPages)
    (h : ∀ n < k, ¬ (after (replies (sent + n))).Stops) (fuel : Nat) :
    k ≤ fuel → k + 1 ≤ (pageLoop request replies after (fuel + 1) sent page allTags).1.length := by
  induction k generalizing fuel sent page allTags with
  | zero =>
      intro _
      obtain ⟨r, hr⟩ := hrequest page
      rw [pageLoop, if_neg (Int.not_lt.mpr hpage), hr]
      cases hafter : after (replies sent) with
      | stop tags => exact le_rfl
      | raises e => exact le_rfl
      | next tags page' => exact Nat.succ_le_succ (Nat.zero_le _)
  | succ k ih =>
      intro hfuel
      obtain ⟨fuel, rfl⟩ := Nat.exists_eq_add_of_le' (Nat.one_le_of_lt hfuel)
      obtain ⟨r, hr⟩ := hrequest page
      rw [pageLoop, if_neg (Int.not_lt.mpr hpage), hr]
      have hfirst := h 0 (Nat.succ_pos k)
      rw [Nat.add_zero] at hfirst
      cases hafter : after (replies sent) with
      | stop tags =>
          rw [hafter] at hfirst
          exact absurd trivial hfirst
      | raises e =>
          rw [hafter] at hfirst
          exact absurd trivial hfirst
      | next tags page' =>
          rw [hafter] at hfirst
          have hle : page' ≤ maxPages := Int.not_lt.mp hfirst
          have hrest : ∀ n < k, ¬ (after (replies (sent + 1 + n))).Stops := by
            intro n hn
            rw [show sent + 1 + n = sent + (n + 1) by omega]
            exact h (n + 1) (Nat.succ_lt_succ hn)
          have hlen := @ih (sent + 1) page' (allTags ++ tags) hle hrest fuel (Nat.le_of_succ_le_succ hfuel)
          exact Nat.succ_le_succ hlen

/-- A loop that has ended has not been cut: with more fuel it does the same. -/
theorem pageLoop_mono {fuel sent : Nat} {page : Int} {allTags : List Value} {requests : List Request}
    {ending : Except Exn (List Value)}
    (h : pageLoop request replies after fuel sent page allTags = (requests, some ending)) (more : Nat) :
    pageLoop request replies after (fuel + more) sent page allTags = (requests, some ending) := by
  induction fuel generalizing sent page allTags requests with
  | zero => exact absurd h (by simp [pageLoop])
  | succ fuel ih =>
      rw [show fuel + 1 + more = fuel + more + 1 by omega]
      rw [pageLoop] at h ⊢
      split at h
      · rename_i hpast
        rw [if_pos hpast]
        exact h
      · rename_i hpast
        rw [if_neg hpast]
        cases hr : request page with
        | error e =>
            rw [hr] at h
            exact h
        | ok r =>
            rw [hr] at h
            simp only at h ⊢
            cases hafter : after (replies sent) with
            | stop tags =>
                rw [hafter] at h
                exact h
            | raises e =>
                rw [hafter] at h
                exact h
            | next tags page' =>
                rw [hafter] at h
                simp only at h ⊢
                obtain ⟨hrequests, hending⟩ := Prod.mk.inj h
                have hloop : pageLoop request replies after fuel (sent + 1) page' (allTags ++ tags) =
                    ((pageLoop request replies after fuel (sent + 1) page' (allTags ++ tags)).1, some ending) :=
                  Prod.ext rfl hending
                rw [ih hloop]
                exact Prod.ext hrequests rfl

/-- **`pageLoop_ends_iff`** — a loop that has a request for every page ends within `k` requests exactly
when one of the next `k` replies stops it. -/
theorem pageLoop_ends_iff {k sent : Nat} {page : Int} {allTags : List Value}
    (hrequest : ∀ page, ∃ r, request page = .ok r) (hpage : page ≤ maxPages) :
    (∃ fuel requests ending, pageLoop request replies after fuel sent page allTags = (requests, some ending) ∧
        requests.length ≤ k) ↔
      ∃ n < k, (after (replies (sent + n))).Stops := by
  constructor
  · rintro ⟨fuel, requests, ending, hloop, hlen⟩
    by_contra hnone
    push Not at hnone
    -- the loop ends after `fuel` rounds, and after as many more it has sent too many requests
    have hmore := pageLoop_mono hloop (k + 1)
    have hsends : k + 1 ≤ (pageLoop request replies after (fuel + k + 1) sent page allTags).1.length :=
      pageLoop_sends hrequest hpage hnone (fuel + k) (Nat.le_add_left _ _)
    rw [show fuel + k + 1 = fuel + (k + 1) by omega, hmore] at hsends
    exact absurd hlen (Nat.not_le.mpr hsends)
  · intro hstops
    obtain ⟨requests, ending, hloop, hlen⟩ := @pageLoop_bounded request after replies k sent page allTags hstops
    exact ⟨k + 1, requests, ending, hloop, hlen⟩

end

/-! ## When a query is bounded -/

section

variable [UnicodeTables] {environ : Str → Option Str} {netlocOk : Str → Bool} {replies : Nat → TagsReply}
  {upstreamRepo tagStripPrefix : Str} {trackVersion : Option Str}

/-- What a reply makes a query for a repository do. -/
def afterTags (environ : Str → Option Str) (upstreamRepo : Str) : TagsReply → Paging :=
  afterReply upstreamRepo (gitlabTokenEnvVar upstreamRepo)
    (setVar environ (gitlabTokenEnvVar upstreamRepo))

/-- No request can be sent for a repository: its URL has no scheme, or urllib rejects its network
location. -/
def NoRequest (netlocOk : Str → Bool) (upstreamRepo : Str) : Prop :=
  netlocOk (parsedRepo upstreamRepo).netloc = false ∨ (parsedRepo upstreamRepo).scheme = []

variable (environ netlocOk replies upstreamRepo tagStripPrefix trackVersion)

theorem queryTagPages_invalid (hnet : netlocOk (parsedRepo upstreamRepo).netloc = false) (fuel : Nat) :
    ∃ e, queryTagPages environ netlocOk replies upstreamRepo tagStripPrefix trackVersion fuel =
      ([], some (.error e)) := by
  unfold queryTagPages parseGitlabUpstreamUrl
  simp only [hnet, Bool.not_false, if_true]
  exact ⟨_, rfl⟩

/-- A query on a repository with an acceptable network location is its loop, and what is made of the
tags it has collected. -/
theorem queryTagPages_valid (hnet : netlocOk (parsedRepo upstreamRepo).netloc = true) :
    ∃ (request : Int → Except Exn Request) (finish : Except Exn (List Value) → Except Exn VersionInfo),
      (if (parsedRepo upstreamRepo).scheme = [] then ∀ page, ∃ e, request page = .error e
        else ∀ page, ∃ r, request page = .ok r) ∧
      ∀ fuel, queryTagPages environ netlocOk replies upstreamRepo tagStripPrefix trackVersion fuel =
        ((pageLoop request replies (afterTags environ upstreamRepo) fuel 0 1 []).1,
          (pageLoop request replies (afterTags environ upstreamRepo) fuel 0 1 []).2.map finish) := by
  unfold queryTagPages parseGitlabUpstreamUrl
  simp only [hnet, Bool.not_true, Bool.false_eq_true, if_false]
  refine ⟨_, _, ?_, fun fuel => rfl⟩
  split
  · rename_i hscheme
    intro page
    rw [Request.make, requestTarget_page, if_pos hscheme]
    exact ⟨_, rfl⟩
  · rename_i hscheme
    intro page
    refine ⟨_, make_of_isSome ?_⟩
    rw [requestTarget_page, if_neg hscheme]
    rfl

variable {environ netlocOk replies upstreamRepo tagStripPrefix trackVersion}

/-- A query that can send no request is bounded. -/
theorem bounded_of_noRequest (h : NoRequest netlocOk upstreamRepo) :
    BoundedQuery environ netlocOk replies upstreamRepo tagStripPrefix trackVersion := by
  cases hnet : netlocOk (parsedRepo upstreamRepo).netloc with
  | false =>
      obtain ⟨e, he⟩ :=
        queryTagPages_invalid environ netlocOk replies upstreamRepo tagStripPrefix trackVersion hnet 0
      exact ⟨0, [], .error e, he, by decide⟩
  | true =>
      have hscheme : (parsedRepo upstreamRepo).scheme = [] := h.resolve_left (by simp [hnet])
      obtain ⟨request, finish, hrequest, hquery⟩ :=
        queryTagPages_valid environ netlocOk replies upstreamRepo tagStripPrefix trackVersion hnet
      rw [if_pos hscheme] at hrequest
      obtain ⟨ending, hloop⟩ : ∃ ending, pageLoop request replies (afterTags environ upstreamRepo) 1 0 1 [] =
          ([], some ending) := pageLoop_error hrequest
      refine ⟨1, [], finish ending, ?_, by decide⟩
      rw [hquery, hloop]
      rfl

/-- A query that can send requests is bounded exactly when its loop is. -/
theorem bounded_iff_stops (h : ¬ NoRequest netlocOk upstreamRepo) :
    BoundedQuery environ netlocOk replies upstreamRepo tagStripPrefix trackVersion ↔
      ∃ n < 5, (afterTags environ upstreamRepo (replies n)).Stops := by
  obtain ⟨hnet, hscheme⟩ := not_or.mp h
  obtain ⟨request, finish, hrequest, hquery⟩ :=
    queryTagPages_valid environ netlocOk replies upstreamRepo tagStripPrefix trackVersion
      (by simpa using hnet)
  rw [if_neg hscheme] at hrequest
  have hends := @pageLoop_ends_iff request (afterTags environ upstreamRepo) replies 5 0 1 [] hrequest
    (by decide)
  simp only [Nat.zero_add] at hends
  rw [← hends]
  constructor
  · rintro ⟨fuel, requests, ending, hrun, hlen⟩
    rw [hquery] at hrun
    obtain ⟨hrequests, hending⟩ := Prod.mk.inj hrun
    obtain ⟨tags, htags, -⟩ := Option.map_eq_some_iff.mp hending
    exact ⟨fuel, requests, tags, Prod.ext hrequests htags, Int.ofNat_le.mp hlen⟩
  · rintro ⟨fuel, requests, ending, hloop, hlen⟩
    refine ⟨fuel, requests, finish ending, ?_, Int.ofNat_le.mpr hlen⟩
    rw [hquery, hloop]
    rfl

/-- **`bounded_iff`** — a query sends at most `max_pages` requests and comes to an end exactly when it
cannot send any, or one of the first five replies stops its loop. -/
theorem bounded_iff :
    BoundedQuery environ netlocOk replies upstreamRepo tagStripPrefix trackVersion ↔
      NoRequest netlocOk upstreamRepo ∨ ∃ n < 5, (afterTags environ upstreamRepo (replies n)).Stops := by
  by_cases h : NoRequest netlocOk upstreamRepo
  · exact iff_of_true (bounded_of_noRequest h) (Or.inl h)
  · rw [or_iff_right h]
    exact bounded_iff_stops h

/-- **`bounded_of_increasing`** — against a server that always names a later page than the one it was
asked for, every query is bounded: its `n`-th reply names page `n + 2` or a later one. -/
theorem bounded_of_increasing
    (h : ∀ n tags page, afterTags environ upstreamRepo (replies n) = .next tags page → (n : Int) + 2 ≤ page) :
    BoundedQuery environ netlocOk replies upstreamRepo tagStripPrefix trackVersion := by
  by_cases hrequest : NoRequest netlocOk upstreamRepo
  · exact bounded_of_noRequest hrequest
  refine (bounded_iff_stops hrequest).mpr ⟨4, by decide, ?_⟩
  cases hafter : afterTags environ upstreamRepo (replies 4) with
  | stop tags => trivial
  | raises e => trivial
  | next tags page =>
      have hpage := h 4 tags page hafter
      show page > 5
      omega

end

/-! ### A server that stays on the first page -/

/-- One tag, and the header naming the page that was asked for. -/
def firstPageAgain : TagsReply := .tags (.list [.dict [("name", .str "v1.0")]]) (some "1")

/-- A query against that server never ends within five requests. -/
theorem unbounded_firstPageAgain :
    letI := asciiTables
    ¬ BoundedQuery (fun _ => none) (fun _ => true) (fun _ => firstPageAgain)
        "https://gitlab.com/redhat/hummingbird/src/nodejs" "v" none := by
  let _ := asciiTables
  have hrequest : ¬ NoRequest (fun _ => true) "https://gitlab.com/redhat/hummingbird/src/nodejs" := by
    rintro (hnet | hscheme)
    · exact absurd hnet (by simp)
    · exact absurd hscheme (by decide)
  intro h
  obtain ⟨n, -, hstops⟩ := (bounded_iff_stops hrequest).mp h
  have hafter : afterTags (fun _ => none) "https://gitlab.com/redhat/hummingbird/src/nodejs"
      firstPageAgain = .next [.dict [("name", .str "v1.0")]] 1 := rfl
  rw [hafter] at hstops
  have hpast : (1 : Int) > 5 := hstops
  omega

end HummingbirdRpms
