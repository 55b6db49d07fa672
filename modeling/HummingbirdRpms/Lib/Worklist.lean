/-
# HummingbirdRpms.Lib.Worklist — a list of work that is done in batches.

A state has a list of the items that are left to do.  A round takes the first `b` of them as its batch
and leaves the others, in their order.

**`Rounds.left`** and **`Rounds.done`** say what `n` rounds leave and what their batches were together;
**`Rounds.nothing_left_iff`** says that nothing is left exactly from `⌈k / b⌉` rounds on, where there were
`k` items.
-/
import Mathlib.Algebra.Order.Floor.Div
import Mathlib.Data.List.Nodup

namespace HummingbirdRpms.Lib.Worklist

variable {σ α : Type}

/-! ## Taking a batch away -/

/-- Of a list without duplicates, what is not among the first elements comes after them. -/
theorem filter_not_mem_take [DecidableEq α] {l : List α} (h : l.Nodup) (b : Nat) :
    (l.filter fun a => a ∉ l.take b) = l.drop b := by
  have hsplit := List.take_append_drop b l
  have hdisjoint : List.Disjoint (l.take b) (l.drop b) := List.disjoint_take_drop h le_rfl
  conv_lhs => rw [← hsplit, List.filter_append, hsplit]
  have htake : ((l.take b).filter fun a => a ∉ l.take b) = [] := by
    rw [List.filter_eq_nil_iff]
    intro a ha
    simp [ha]
  have hdrop : ((l.drop b).filter fun a => a ∉ l.take b) = l.drop b := by
    rw [List.filter_eq_self]
    intro a ha
    simpa using hdisjoint.symm ha
  rw [htake, hdrop, List.nil_append]

/-! ## Rounds -/

/-- Rounds one after the other, with the batch of each. -/
inductive Rounds (round : σ → List α → σ → Prop) : σ → List (List α) → σ → Prop
  | none (s : σ) : Rounds round s [] s
  | next {s s' s'' : σ} {batch : List α} {batches : List (List α)} (h : round s batch s')
      (rest : Rounds round s' batches s'') : Rounds round s (batch :: batches) s''

variable {round : σ → List α → σ → Prop} {todo : σ → List α} {b : Nat} {s s' : σ}
  {batches : List (List α)}

/-- A round takes the first `b` items and leaves the others. -/
def TakesBatches (round : σ → List α → σ → Prop) (todo : σ → List α) (b : Nat) : Prop :=
  ∀ s batch s', round s batch s' → batch = (todo s).take b ∧ todo s' = (todo s).drop b

/-- What the rounds leave. -/
theorem Rounds.left (htakes : TakesBatches round todo b) (h : Rounds round s batches s') :
    todo s' = (todo s).drop (b * batches.length) := by
  induction h with
  | none s => rw [List.length_nil, Nat.mul_zero, List.drop_zero]
  | next hround rest ih =>
      rw [ih, (htakes _ _ _ hround).2, List.drop_drop, List.length_cons, Nat.mul_succ, Nat.add_comm]

/-- What the rounds have done. -/
theorem Rounds.done (htakes : TakesBatches round todo b) (h : Rounds round s batches s') :
    batches.flatten = (todo s).take (b * batches.length) := by
  induction h with
  | none s => rw [List.length_nil, Nat.mul_zero, List.take_zero, List.flatten_nil]
  | next hround rest ih =>
      obtain ⟨hbatch, hleft⟩ := htakes _ _ _ hround
      rw [List.flatten_cons, ih, hbatch, hleft, List.length_cons, Nat.mul_succ, Nat.add_comm,
        List.take_add]

/-- No item is in two batches. -/
theorem Rounds.nodup_done (htakes : TakesBatches round todo b) (hnodup : (todo s).Nodup)
    (h : Rounds round s batches s') : batches.flatten.Nodup := by
  rw [h.done htakes]
  exact hnodup.sublist (List.take_sublist _ _)

/-- **`Rounds.nothing_left_iff`** — the rounds leave nothing exactly when there were `⌈k / b⌉` of them or
more, for `k` items to do. -/
theorem Rounds.nothing_left_iff (hb : 0 < b) (htakes : TakesBatches round todo b)
    (h : Rounds round s batches s') : todo s' = [] ↔ (todo s).length ⌈/⌉ b ≤ batches.length := by
  rw [h.left htakes, List.drop_eq_nil_iff, ceilDiv_le_iff_le_mul hb]

/-- Where there is a round from every state, there are any number of them. -/
theorem exists_rounds (hround : ∀ s, ∃ batch s', round s batch s') (n : Nat) (s : σ) :
    ∃ batches s', batches.length = n ∧ Rounds round s batches s' := by
  induction n generalizing s with
  | zero => exact ⟨[], s, rfl, .none s⟩
  | succ n ih =>
      obtain ⟨batch, t, ht⟩ := hround s
      obtain ⟨batches, s', hlength, hrest⟩ := ih t
      exact ⟨batch :: batches, s', by rw [List.length_cons, hlength], .next ht hrest⟩

end HummingbirdRpms.Lib.Worklist
