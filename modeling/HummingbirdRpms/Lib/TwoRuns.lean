/-
# HummingbirdRpms.Lib.TwoRuns — two runs of programs, side by side.

Two runs are alike when both return the same value, or both raise the same exception, and leave related
states (`Alike`).  **`Both R x y`** says that `x` and `y` run alike from any two `R`-related states.  The
rules compose over `bind`, `tryCatch`, branches and loops, so that of a program that looks at a part of its
state only, `Both R x x` follows by going through its text, for the `R` that relates the states with the
same part.

Nothing here names a particular program.
-/
import HummingbirdRpms.Lib.Exec

namespace HummingbirdRpms.Lib.TwoRuns

open HummingbirdRpms.Lib.Exec

variable {ε σ α β : Type} {R : σ → σ → Prop}

/-- Two runs end alike, in related states. -/
inductive Alike (R : σ → σ → Prop) : EStateM.Result ε σ α → EStateM.Result ε σ α → Prop
  | ok {a : α} {s t : σ} : R s t → Alike R (.ok a s) (.ok a t)
  | error {e : ε} {s t : σ} : R s t → Alike R (.error e s) (.error e t)

theorem alike_ok_iff {a : α} {s : σ} {r : EStateM.Result ε σ α} :
    Alike R (.ok a s) r ↔ ∃ t, r = .ok a t ∧ R s t := by
  constructor
  · rintro ⟨h⟩
    exact ⟨_, rfl, h⟩
  · rintro ⟨t, rfl, h⟩
    exact .ok h

theorem alike_error_iff {e : ε} {s : σ} {r : EStateM.Result ε σ α} :
    Alike R (.error e s) r ↔ ∃ t, r = .error e t ∧ R s t := by
  constructor
  · rintro (_ | ⟨h⟩)
    exact ⟨_, rfl, h⟩
  · rintro ⟨t, rfl, h⟩
    exact .error h

/-- Two programs run alike from related states. -/
def Both (R : σ → σ → Prop) (x y : Prog ε σ α) : Prop := ∀ s t, R s t → Alike R (x s) (y t)

section

variable {x y : Prog ε σ α} {s t : σ}

/-- Where one run returns, so does the other. -/
theorem Both.ok (h : Both R x y) (hst : R s t) {a : α} {s' : σ} (hs : x s = .ok a s') :
    ∃ t', y t = .ok a t' ∧ R s' t' := by
  have hxy := h s t hst
  rw [hs] at hxy
  exact alike_ok_iff.mp hxy

/-- Where one run raises, so does the other. -/
theorem Both.error (h : Both R x y) (hst : R s t) {e : ε} {s' : σ} (hs : x s = .error e s') :
    ∃ t', y t = .error e t' ∧ R s' t' := by
  have hxy := h s t hst
  rw [hs] at hxy
  exact alike_error_iff.mp hxy

/-- The states that two runs leave are related, however they end. -/
theorem Both.final (h : Both R x y) (hst : R s t) : R (final x s) (final y t) := by
  cases hs : x s with
  | ok a s' =>
      obtain ⟨t', ht, hst'⟩ := h.ok hst hs
      rwa [final_of_ok hs, final_of_ok ht]
  | error e s' =>
      obtain ⟨t', ht, hst'⟩ := h.error hst hs
      rwa [final_of_error hs, final_of_error ht]

end

/-! ## Rules -/

theorem both_pure (a : α) : Both R (pure a : Prog ε σ α) (pure a) := fun _ _ h => .ok h

theorem both_throw (e : ε) : Both R (throw e : Prog ε σ α) (throw e) := fun _ _ h => .error h

theorem both_lift (r : Except ε α) : Both R (lift r : Prog ε σ α) (lift r) := by
  intro s t h
  cases r with
  | ok a => exact .ok h
  | error e => exact .error h

theorem both_modify {f g : σ → σ} (h : ∀ s t, R s t → R (f s) (g t)) :
    Both R (modify f : Prog ε σ PUnit) (modify g) := fun s t hst => .ok (h s t hst)

theorem both_bind {x y : Prog ε σ α} {f g : α → Prog ε σ β} (hx : Both R x y)
    (hf : ∀ a, Both R (f a) (g a)) : Both R (x >>= f) (y >>= g) := by
  intro s t h
  cases hs : x s with
  | ok a s' =>
      obtain ⟨t', ht, h'⟩ := hx.ok h hs
      rw [run_bind_of_ok hs, run_bind_of_ok ht]
      exact hf a s' t' h'
  | error e s' =>
      obtain ⟨t', ht, h'⟩ := hx.error h hs
      rw [run_bind_of_error hs, run_bind_of_error ht]
      exact .error h'

/-- What follows on a state that has been read. -/
theorem both_get_bind {f g : σ → Prog ε σ β} (h : ∀ s t, R s t → Both R (f s) (g t)) :
    Both R (get >>= f) (get >>= g) := fun s t hst => h s t hst s t hst

theorem both_tryCatch {x y : Prog ε σ α} {f g : ε → Prog ε σ α} (hx : Both R x y)
    (hf : ∀ e, Both R (f e) (g e)) : Both R (tryCatch x f) (tryCatch y g) := by
  intro s t h
  rw [run_tryCatch, run_tryCatch]
  cases hs : x s with
  | ok a s' =>
      obtain ⟨t', ht, h'⟩ := hx.ok h hs
      rw [ht]
      exact .ok h'
  | error e s' =>
      obtain ⟨t', ht, h'⟩ := hx.error h hs
      rw [ht]
      exact hf e s' t' h'

theorem both_ite {c : Prop} [Decidable c] {x x' y y' : Prog ε σ α} (hx : Both R x x') (hy : Both R y y') :
    Both R (if c then x else y) (if c then x' else y') := by
  split
  · exact hx
  · exact hy

theorem both_raiseIf {c : Prop} [Decidable c] {e : ε} :
    Both R (raiseIf c e : Prog ε σ PUnit) (raiseIf c e) := both_ite (both_throw e) (both_pure _)

theorem both_raiseIf_congr {c d : Prop} [Decidable c] [Decidable d] {e : ε} (h : c ↔ d) :
    Both R (raiseIf c e : Prog ε σ PUnit) (raiseIf d e) := by
  by_cases hc : c
  · rw [raiseIf, if_pos hc, raiseIf, if_pos (h.mp hc)]
    exact both_throw e
  · rw [raiseIf, if_neg hc, raiseIf, if_neg fun hd => hc (h.mpr hd)]
    exact both_pure _

end HummingbirdRpms.Lib.TwoRuns
