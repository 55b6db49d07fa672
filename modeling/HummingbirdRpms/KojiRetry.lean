/-
# HummingbirdRpms.KojiRetry — which failures of a Koji call are tried again.

`call_koji_with_retry` of `ci/dist_git.py` is meant to try a call three times, and to do so again after a
server error, a request timeout or a network error, and after nothing else.  It catches `OSError` and
`http.client.HTTPException` and reads the HTTP status off the message.  The transport of `xmlrpc` reports
a status as a `ProtocolError`, which is neither; a connection that the server closes is both, and is
judged by its message; and a message can contain the digits of a status by chance.

**`retryPolicy_iff`** — a call follows the policy exactly when none of its first two attempts, as far as the
ones before are to be retried, fails in a way that is `Misjudged`.
-/
import HummingbirdRpms.Gates

namespace HummingbirdRpms

open Lib Lib.Text Lib.Exec

/-! ## Failures -/

/-- How a call of a Koji method can fail. -/
inductive KojiFailure where
  /-- `xmlrpc.client.Fault` -/
  | fault (msg : Str)
  /-- `xmlrpc.client.ProtocolError`, an answer with another status than 200. -/
  | protocolError (status : Nat) (msg : Str)
  /-- An `OSError` that is no exception of `http.client`. -/
  | network (msg : Str)
  /-- `http.client.RemoteDisconnected`, a `ConnectionResetError` and an exception of `http.client`. -/
  | disconnected (msg : Str)
  /-- Any other exception of `http.client`. -/
  | httpException (msg : Str)

/-- A failure, as the `except` clauses tell it apart. -/
def KojiFailure.exn : KojiFailure → Exn
  | .fault msg => .raised .xmlrpcFault msg
  | .protocolError _ msg => .raised .xmlrpcProtocolError msg
  | .network msg => .raised .osError msg
  | .disconnected msg => .raised .httpException msg
  | .httpException msg => .raised .httpException msg

inductive KojiOutcome where
  | value (result : Value)
  | fails (failure : KojiFailure)

def KojiOutcome.reply : KojiOutcome → KojiReply
  | .value result => .value result
  | .fails failure => .raises failure.exn

/-- The outcome of a call that is not tried again. -/
def KojiOutcome.final : KojiOutcome → Except Exn Value
  | .value result => .ok result
  | .fails failure => .error failure.exn

/-! ## The policy -/

/-- A server error, or a request timeout. -/
def transientStatus (status : Nat) : Bool := (500 ≤ status && status < 600) || status = 408

/-- The status that a message begins with. -/
def statusOf (msg : Str) : Option Nat :=
  let digits := msg.takeWhile isAsciiDigit
  if digits.length = 3 then some (Nat.ofDigitChars 10 digits 0) else none

/-- The failures after which a call is to be tried again. -/
def KojiFailure.transient : KojiFailure → Bool
  | .fault _ => false
  | .protocolError status _ => transientStatus status
  | .network _ => true
  | .disconnected _ => true
  | .httpException msg => (statusOf msg).any transientStatus

/-- How often a method is called, from an attempt on with `retries` left after it. -/
def callsFrom (method : Nat → KojiOutcome) : (retries attempt : Nat) → Nat
  | retries, attempt =>
      match method attempt with
      | .value _ => 1
      | .fails failure =>
          match retries with
          | 0 => 1
          | retries + 1 => if shouldRetry failure.exn then callsFrom method retries (attempt + 1) + 1 else 1

/-- How often `call_koji_with_retry` calls a method. -/
def kojiCalls (method : Nat → KojiOutcome) : Nat := callsFrom method 2 0

def replies (method : Nat → KojiOutcome) (attempt : Nat) : KojiReply := (method attempt).reply

/-- The policy of `call_koji_with_retry`. -/
structure RetryPolicy (method : Nat → KojiOutcome) : Prop where
  calls : kojiCalls method ≤ 3
  /-- The call ends with what the last attempt has made of it. -/
  result : ∃ last, kojiCalls method = last + 1 ∧ callKojiWithRetry (replies method) = (method last).final
  /-- After a value there is no further attempt. -/
  value : ∀ i < kojiCalls method, ∀ v, method i = .value v → kojiCalls method = i + 1
  retries : ∀ i < kojiCalls method, ∀ failure, method i = .fails failure →
    (i + 1 < kojiCalls method ↔ i < 2 ∧ failure.transient = true)

/-! ## The loop -/

section

variable {method : Nat → KojiOutcome} {retries attempt : Nat} {failure : KojiFailure}

theorem callsFrom_pos : 0 < callsFrom method retries attempt := by
  unfold callsFrom
  split
  · exact Nat.one_pos
  · split
    · exact Nat.one_pos
    · split
      · exact Nat.succ_pos _
      · exact Nat.one_pos

theorem callsFrom_le : callsFrom method retries attempt ≤ retries + 1 := by
  induction retries generalizing attempt with
  | zero =>
      unfold callsFrom
      cases method attempt with
      | value v => exact le_rfl
      | fails failure => exact le_rfl
  | succ retries ih =>
      unfold callsFrom
      cases method attempt with
      | value v => exact Nat.le_add_left 1 _
      | fails failure =>
          dsimp only
          split
          · exact Nat.succ_le_succ ih
          · exact Nat.le_add_left 1 _

/-- The loop ends with its last attempt. -/
theorem callKojiFrom_eq_final :
    callKojiFrom (replies method) retries attempt =
      (method (attempt + (callsFrom method retries attempt - 1))).final := by
  induction retries generalizing attempt with
  | zero =>
      unfold callKojiFrom callsFrom
      cases hmethod : method attempt with
      | value v => simp [replies, hmethod, KojiOutcome.reply, KojiOutcome.final]
      | fails failure => simp [replies, hmethod, KojiOutcome.reply, KojiOutcome.final]
  | succ retries ih =>
      unfold callKojiFrom callsFrom
      cases hmethod : method attempt with
      | value v => simp [replies, hmethod, KojiOutcome.reply, KojiOutcome.final]
      | fails failure =>
          simp only [replies, hmethod, KojiOutcome.reply]
          by_cases hretry : shouldRetry failure.exn = true
          · have hpos : 0 < callsFrom method retries (attempt + 1) := callsFrom_pos
            rw [if_pos hretry, if_pos hretry, ih]
            congr 2
            omega
          · rw [if_neg hretry, if_neg hretry]
            simp [hmethod, KojiOutcome.final]

/-- A further attempt is made exactly after a failure that the loop retries, while there are retries. -/
theorem lt_callsFrom_iff {i : Nat} (hi : i < callsFrom method retries attempt)
    (hfails : method (attempt + i) = .fails failure) :
    i + 1 < callsFrom method retries attempt ↔ i < retries ∧ shouldRetry failure.exn = true := by
  induction retries generalizing attempt i with
  | zero =>
      have hle : callsFrom method 0 attempt ≤ 0 + 1 := callsFrom_le
      omega
  | succ retries ih =>
      unfold callsFrom at hi ⊢
      cases hmethod : method attempt with
      | value v =>
          rw [hmethod] at hi
          have hzero : i = 0 := by simpa using hi
          subst hzero
          exact absurd (hmethod.symm.trans hfails) (by simp)
      | fails first =>
          rw [hmethod] at hi
          dsimp only at hi ⊢
          cases i with
          | zero =>
              obtain rfl := KojiOutcome.fails.inj (hmethod.symm.trans hfails)
              have hpos : 0 < callsFrom method retries (attempt + 1) := callsFrom_pos
              split
              · rename_i hretry
                exact iff_of_true (by omega) ⟨Nat.succ_pos _, hretry⟩
              · rename_i hretry
                exact iff_of_false (by simp) fun h => hretry h.2
          | succ i =>
              split at hi
              · rename_i hretry
                rw [if_pos hretry, Nat.add_lt_add_iff_right, Nat.add_lt_add_iff_right]
                exact ih (Nat.lt_of_succ_lt_succ hi) (by rw [← hfails]; congr 1; omega)
              · exact absurd hi (by omega)

/-- There is no attempt after a value. -/
theorem callsFrom_of_value {i : Nat} {v : Value} (hi : i < callsFrom method retries attempt)
    (hvalue : method (attempt + i) = .value v) : callsFrom method retries attempt = i + 1 := by
  induction retries generalizing attempt i with
  | zero =>
      have hle : callsFrom method 0 attempt ≤ 0 + 1 := callsFrom_le
      omega
  | succ retries ih =>
      unfold callsFrom at hi ⊢
      cases hmethod : method attempt with
      | value w =>
          rw [hmethod] at hi
          have hzero : i = 0 := by simpa using hi
          rw [hzero]
      | fails first =>
          rw [hmethod] at hi
          dsimp only at hi ⊢
          cases i with
          | zero => exact absurd (hmethod.symm.trans hvalue) (by simp)
          | succ i =>
              split at hi
              · rename_i hretry
                rw [if_pos hretry]
                exact congrArg (· + 1) (ih (Nat.lt_of_succ_lt_succ hi) (by rw [← hvalue]; congr 1; omega))
              · exact absurd hi (by omega)

/-! ## Failures that are judged wrong -/

/-- Whether a message is taken for one of a failure that is retried. -/
def looksTransient (msg : Str) : Bool :=
  ["502", "503", "504", "408"].any (contains ·.toList msg) ||
    contains "5" msg && ["server", "gateway", "timeout"].any (contains ·.toList (lowerAscii msg))

/-- Whether a message is taken for one of a client error. -/
def looksDenied (msg : Str) : Bool := ["401", "403", "404"].any (contains ·.toList msg)

/-- A failure that the loop does not judge by what it is: a status that the transport reports, a network
error whose message has the digits of a client error, a closed connection unless its message has those of
a server error, and any other exception of `http.client` whose message has digits that are not the status
it begins with. -/
def Misjudged : KojiFailure → Prop
  | .fault _ => False
  | .protocolError status _ => transientStatus status = true
  | .network msg => looksDenied msg = true
  | .disconnected msg => looksTransient msg = false ∨ looksDenied msg = true
  | .httpException msg => (looksTransient msg && !looksDenied msg) ≠ (statusOf msg).any transientStatus

theorem misjudged_iff : Misjudged failure ↔ shouldRetry failure.exn ≠ failure.transient := by
  cases failure with
  | fault msg => simp [Misjudged, KojiFailure.exn, KojiFailure.transient, shouldRetry]
  | protocolError status msg => simp [Misjudged, KojiFailure.exn, KojiFailure.transient, shouldRetry]
  | network msg =>
      show looksDenied msg = true ↔ (true && !looksDenied msg) ≠ true
      simp
  | disconnected msg =>
      show looksTransient msg = false ∨ looksDenied msg = true ↔ (looksTransient msg && !looksDenied msg) ≠ true
      rw [ne_eq, Bool.and_eq_true, Bool.not_eq_true', not_and_or, Bool.not_eq_true, Bool.not_eq_false]
  | httpException msg => exact Iff.rfl

/-- **`retryPolicy_iff`** — a call follows the policy exactly when neither of its first two attempts, as far as
the ones before it fail in a way that is to be retried, fails in a way that is misjudged. -/
theorem retryPolicy_iff :
    RetryPolicy method ↔
      ∀ i < 2, (∀ j < i, ∃ failure, method j = .fails failure ∧ failure.transient = true) →
        ∀ failure, method i = .fails failure → ¬ Misjudged failure := by
  have hloop : ∀ {i failure}, i < kojiCalls method → method i = .fails failure →
      (i + 1 < kojiCalls method ↔ i < 2 ∧ shouldRetry failure.exn = true) := by
    intro i failure hi hfails
    exact lt_callsFrom_iff hi (by rw [Nat.zero_add]; exact hfails)
  constructor
  · intro h i hi hbefore failure hfails
    -- the attempts before are retried, so that the i-th one is made
    have hmade : ∀ j ≤ i, j < kojiCalls method := by
      intro j
      induction j with
      | zero => exact fun _ => callsFrom_pos
      | succ j ih =>
          intro hj
          obtain ⟨earlier, hearlier, htransient⟩ := hbefore j hj
          exact (h.retries j (ih (by omega)) earlier hearlier).mpr ⟨by omega, htransient⟩
    have hpolicy := h.retries i (hmade i le_rfl) failure hfails
    have hcode := hloop (hmade i le_rfl) hfails
    rw [misjudged_iff, not_not, Bool.eq_iff_iff]
    constructor
    · intro hretry
      exact (hpolicy.mp (hcode.mpr ⟨hi, hretry⟩)).2
    · intro htransient
      exact (hcode.mp (hpolicy.mpr ⟨hi, htransient⟩)).2
  · intro h
    have hpos : 0 < kojiCalls method := callsFrom_pos
    refine ⟨callsFrom_le, ⟨kojiCalls method - 1, by omega, ?_⟩, ?_, ?_⟩
    · have hfinal : callKojiFrom (replies method) 2 0 = (method (0 + (callsFrom method 2 0 - 1))).final :=
        callKojiFrom_eq_final
      rw [Nat.zero_add] at hfinal
      exact hfinal
    · intro i hi v hvalue
      exact callsFrom_of_value hi (by rw [Nat.zero_add]; exact hvalue)
    · -- what was tried again has failed in a way that is to be retried, one attempt after the other
      have hbefore : ∀ i < kojiCalls method, ∀ j < i, ∃ failure, method j = .fails failure ∧
          failure.transient = true := by
        intro i hi j
        induction j using Nat.strong_induction_on with
        | _ j ih =>
            intro hj
            cases hmethod : method j with
            | value v =>
                have hlast : kojiCalls method = j + 1 :=
                  callsFrom_of_value (show j < kojiCalls method by omega) (by rw [Nat.zero_add]; exact hmethod)
                omega
            | fails failure =>
                obtain ⟨hlt, hretry⟩ := (hloop (by omega) hmethod).mp (by omega)
                have hjudged := h j hlt (fun k hk => ih k hk (by omega)) failure hmethod
                rw [misjudged_iff, not_not] at hjudged
                exact ⟨failure, rfl, by rw [← hjudged]; exact hretry⟩
      intro i hi failure hfails
      rw [hloop hi hfails]
      constructor
      · rintro ⟨hlt, hretry⟩
        have hjudged := h i hlt (hbefore i hi) failure hfails
        rw [misjudged_iff, not_not] at hjudged
        exact ⟨hlt, by rw [← hjudged]; exact hretry⟩
      · rintro ⟨hlt, htransient⟩
        have hjudged := h i hlt (hbefore i hi) failure hfails
        rw [misjudged_iff, not_not] at hjudged
        exact ⟨hlt, by rw [hjudged]; exact htransient⟩

end

/-! ### A server error -/

/-- The first attempt is answered with status 503, the second with a value. -/
def unavailableOnce (attempt : Nat) : KojiOutcome :=
  if attempt = 0 then .fails (.protocolError 503 "Service Unavailable") else .value .none

/-- **`unavailable_not_retried`** — after a status 503 the call is not tried again. -/
theorem unavailable_not_retried : kojiCalls unavailableOnce = 1 ∧ ¬ RetryPolicy unavailableOnce := by
  have hcalls : kojiCalls unavailableOnce = 1 := by decide +kernel
  refine ⟨hcalls, ?_⟩
  intro h
  have hretried := (h.retries 0 (by omega) (.protocolError 503 "Service Unavailable") rfl).mpr ⟨by decide, by decide⟩
  omega

end HummingbirdRpms
