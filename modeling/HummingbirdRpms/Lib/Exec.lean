/-
# HummingbirdRpms.Lib.Exec — programs that keep their state when they raise.

A call of an imperative program either returns a value or raises, and in both cases the world it
leaves behind is the one its writes have produced so far: nothing is rolled back.  `Prog ε σ α` is
that kind of program (`EStateM` with its default, non-backtracking state), and this module gives
the two things the proofs about such programs use:

* the evaluation equations of the monad at a state (`run_bind`, `run_tryCatch`, …) together with
  the inversions `bind_ok_iff` / `bind_error_iff`, which peel one computation off a `do` block;
* **`Steps R x`** — every way `x` can end (a value or an exception) leaves a state `R`-related to
  the one it started in.  For a reflexive and transitive `R` the rules compose over `bind`,
  `tryCatch` and branches, so a frame condition or an "only grows" law of a whole program follows
  from the same law of each of its writes.

Nothing here names a particular program.
-/
import Mathlib.Order.Defs.Unbundled

namespace HummingbirdRpms.Lib.Exec

variable {ε σ α β : Type}

/-- A program that reads and writes a state `σ`, returns an `α` or raises an `ε`. -/
abbrev Prog (ε σ α : Type) := EStateM ε σ α

/-! ## Evaluation at a state -/

@[simp] theorem run_pure (a : α) (s : σ) : (pure a : Prog ε σ α) s = .ok a s := rfl

@[simp] theorem run_throw (e : ε) (s : σ) : (throw e : Prog ε σ α) s = .error e s := rfl

@[simp] theorem run_get (s : σ) : (get : Prog ε σ σ) s = .ok s s := rfl

@[simp] theorem run_modify (f : σ → σ) (s : σ) :
    (modify f : Prog ε σ PUnit) s = .ok ⟨⟩ (f s) := rfl

theorem run_bind (x : Prog ε σ α) (f : α → Prog ε σ β) (s : σ) :
    (x >>= f) s = match x s with
      | .ok a t => f a t
      | .error e t => .error e t := rfl

theorem run_tryCatch (x : Prog ε σ α) (h : ε → Prog ε σ α) (s : σ) :
    (tryCatch x h) s = match x s with
      | .ok a t => .ok a t
      | .error e t => h e t := by
  show EStateM.tryCatch x h s = _
  unfold EStateM.tryCatch
  cases x s <;> rfl

/-- A computation that has already been evaluated to a value is replaced by what follows it. -/
theorem run_bind_of_ok {x : Prog ε σ α} {f : α → Prog ε σ β} {s t : σ} {a : α}
    (h : x s = .ok a t) : (x >>= f) s = f a t := by
  rw [run_bind, h]

/-- A computation that raises ends the block it stands in. -/
theorem run_bind_of_error {x : Prog ε σ α} {f : α → Prog ε σ β} {s t : σ} {e : ε}
    (h : x s = .error e t) : (x >>= f) s = .error e t := by
  rw [run_bind, h]

theorem bind_ok_iff {x : Prog ε σ α} {f : α → Prog ε σ β} {s t : σ} {b : β} :
    (x >>= f) s = .ok b t ↔ ∃ a u, x s = .ok a u ∧ f a u = .ok b t := by
  rw [run_bind]
  cases hx : x s with
  | ok a u =>
      constructor
      · intro h
        exact ⟨a, u, rfl, h⟩
      · rintro ⟨_, _, ⟨⟩, h⟩
        exact h
  | error e u => simp

theorem bind_error_iff {x : Prog ε σ α} {f : α → Prog ε σ β} {s t : σ} {e : ε} :
    (x >>= f) s = .error e t ↔
      x s = .error e t ∨ ∃ a u, x s = .ok a u ∧ f a u = .error e t := by
  rw [run_bind]
  cases hx : x s with
  | ok a u =>
      constructor
      · intro h
        exact Or.inr ⟨a, u, rfl, h⟩
      · rintro (h | ⟨_, _, ⟨⟩, h⟩)
        · exact absurd h (by simp)
        · exact h
  | error e' u => simp

/-! ## A pure computation that may raise -/

@[simp] theorem except_bind_ok (a : α) (f : α → Except ε β) : (Except.ok a >>= f) = f a := rfl

@[simp] theorem except_bind_error (e : ε) (f : α → Except ε β) :
    (Except.error e >>= f) = Except.error e := rfl

@[simp] theorem except_pure (a : α) : (pure a : Except ε α) = .ok a := rfl

theorem except_bind_ok_iff {x : Except ε α} {f : α → Except ε β} {b : β} :
    (x >>= f) = .ok b ↔ ∃ a, x = .ok a ∧ f a = .ok b := by
  cases x <;> simp

theorem except_bind_error_iff {x : Except ε α} {f : α → Except ε β} {e : ε} :
    (x >>= f) = .error e ↔ x = .error e ∨ ∃ a, x = .ok a ∧ f a = .error e := by
  cases x <;> simp

theorem except_toOption_iff {x : Except ε α} {a : α} : x.toOption = some a ↔ x = .ok a := by
  cases x <;> simp [Except.toOption]

theorem forM_ok_iff {f : α → Except ε Unit} {l : List α} {u : Unit} :
    l.forM f = .ok u ↔ ∀ a ∈ l, f a = .ok () := by
  induction l with
  | nil => exact iff_of_true rfl (List.forall_mem_nil _)
  | cons a l ih =>
      show (f a >>= fun _ => l.forM f) = .ok u ↔ _
      rw [except_bind_ok_iff, List.forall_mem_cons, ← ih]
      constructor
      · rintro ⟨⟨⟩, ha, hl⟩
        exact ⟨ha, hl⟩
      · rintro ⟨ha, hl⟩
        exact ⟨⟨⟩, ha, hl⟩

/-- A computation that can be seen to return does. -/
theorem exists_ok {x : Except ε α} (h : x.toOption.isSome = true) : ∃ a, x = .ok a := by
  cases x with
  | ok a => exact ⟨a, rfl⟩
  | error e => exact absurd h (by simp [Except.toOption])

/-- `[a for a in l if p(a)]` for a test that may raise. -/
def filterE (p : α → Except ε Bool) : List α → Except ε (List α)
  | [] => .ok []
  | a :: l => do
      let keep ← p a
      let kept ← filterE p l
      return if keep then a :: kept else kept

theorem mem_filterE {p : α → Except ε Bool} {l kept : List α} (h : filterE p l = .ok kept) {a : α} :
    a ∈ kept ↔ a ∈ l ∧ p a = .ok true := by
  induction l generalizing kept with
  | nil =>
      obtain rfl := Except.ok.inj h
      simp
  | cons b l ih =>
      obtain ⟨keep, hkeep, h⟩ := except_bind_ok_iff.mp h
      obtain ⟨rest, hrest, h⟩ := except_bind_ok_iff.mp h
      obtain rfl := Except.ok.inj h
      have htail := ih hrest
      cases keep with
      | true =>
          rw [if_pos rfl, List.mem_cons, List.mem_cons, htail]
          constructor
          · rintro (rfl | ⟨hmem, hp⟩)
            · exact ⟨Or.inl rfl, hkeep⟩
            · exact ⟨Or.inr hmem, hp⟩
          · rintro ⟨rfl | hmem, hp⟩
            · exact Or.inl rfl
            · exact Or.inr ⟨hmem, hp⟩
      | false =>
          rw [if_neg (by simp), List.mem_cons, htail]
          constructor
          · rintro ⟨hmem, hp⟩
            exact ⟨Or.inr hmem, hp⟩
          · rintro ⟨rfl | hmem, hp⟩
            · rw [hkeep] at hp
              exact absurd hp (by simp)
            · exact ⟨hmem, hp⟩

/-- The test of a filter that does not raise raises for no element. -/
theorem filterE_ok {p : α → Except ε Bool} {l kept : List α} (h : filterE p l = .ok kept) {a : α}
    (ha : a ∈ l) : ∃ keep, p a = .ok keep := by
  induction l generalizing kept with
  | nil => exact absurd ha List.not_mem_nil
  | cons b l ih =>
      obtain ⟨keep, hkeep, h⟩ := except_bind_ok_iff.mp h
      obtain ⟨rest, hrest, -⟩ := except_bind_ok_iff.mp h
      rcases List.mem_cons.mp ha with rfl | ha
      · exact ⟨keep, hkeep⟩
      · exact ih hrest ha

/-- A list whose elements are all computed has a result for each of them. -/
theorem mapM_ok_mem {f : α → Except ε β} {l : List α} {out : List β} (h : l.mapM f = .ok out) {a : α}
    (ha : a ∈ l) : ∃ b ∈ out, f a = .ok b := by
  induction l generalizing out with
  | nil => exact absurd ha List.not_mem_nil
  | cons c l ih =>
      rw [List.mapM_cons] at h
      obtain ⟨b, hb, h⟩ := except_bind_ok_iff.mp h
      obtain ⟨bs, hbs, h⟩ := except_bind_ok_iff.mp h
      obtain rfl := Except.ok.inj h
      rcases List.mem_cons.mp ha with rfl | ha
      · exact ⟨b, List.mem_cons_self, hb⟩
      · obtain ⟨b', hb', hf⟩ := ih hbs ha
        exact ⟨b', List.mem_cons_of_mem _ hb', hf⟩

/-- And each result is that of an element. -/
theorem mem_of_mapM_ok {f : α → Except ε β} {l : List α} {out : List β} (h : l.mapM f = .ok out) {b : β}
    (hb : b ∈ out) : ∃ a ∈ l, f a = .ok b := by
  induction l generalizing out with
  | nil =>
      obtain rfl := Except.ok.inj h
      exact absurd hb List.not_mem_nil
  | cons c l ih =>
      rw [List.mapM_cons] at h
      obtain ⟨b', hb', h⟩ := except_bind_ok_iff.mp h
      obtain ⟨bs, hbs, h⟩ := except_bind_ok_iff.mp h
      obtain rfl := Except.ok.inj h
      rcases List.mem_cons.mp hb with rfl | hb
      · exact ⟨c, List.mem_cons_self, hb'⟩
      · obtain ⟨a, ha, hf⟩ := ih hbs hb
        exact ⟨a, List.mem_cons_of_mem _ ha, hf⟩

/-- Run a state-independent computation: its value is returned, its exception is raised. -/
def lift : Except ε α → Prog ε σ α
  | .ok a => pure a
  | .error e => throw e

@[simp] theorem lift_ok (a : α) (s : σ) : (lift (.ok a) : Prog ε σ α) s = .ok a s := rfl

@[simp] theorem lift_error (e : ε) (s : σ) : (lift (.error e) : Prog ε σ α) s = .error e s := rfl

theorem lift_ok_iff {r : Except ε α} {s t : σ} {a : α} :
    (lift r : Prog ε σ α) s = .ok a t ↔ r = .ok a ∧ t = s := by
  cases r with
  | ok b => simp [eq_comm]
  | error e => simp

theorem lift_error_iff {r : Except ε α} {s t : σ} {e : ε} :
    (lift r : Prog ε σ α) s = .error e t ↔ r = .error e ∧ t = s := by
  cases r with
  | ok b => simp
  | error e => simp [eq_comm]

/-- `if c: raise e` -/
def raiseIf (c : Prop) [Decidable c] (e : ε) : Prog ε σ PUnit := if c then throw e else pure ⟨⟩

theorem raiseIf_ok_iff {c : Prop} [Decidable c] {e : ε} {s t : σ} {u : PUnit} :
    (raiseIf c e : Prog ε σ PUnit) s = .ok u t ↔ ¬ c ∧ t = s := by
  unfold raiseIf
  split <;> simp_all [eq_comm]

theorem run_raiseIf_bind {c : Prop} [Decidable c] {e : ε} {f : PUnit → Prog ε σ α} {s : σ}
    (h : ¬ c) : (raiseIf c e >>= f) s = f ⟨⟩ s := by
  rw [raiseIf, if_neg h]
  rfl

theorem raiseIf_bind_ok_iff {c : Prop} [Decidable c] {e : ε} {f : PUnit → Prog ε σ α} {s t : σ} {a : α} :
    (raiseIf c e >>= f) s = .ok a t ↔ ¬ c ∧ f ⟨⟩ s = .ok a t := by
  unfold raiseIf
  by_cases h : c
  · rw [if_pos h]
    exact iff_of_false (fun hrun => by simp [run_bind] at hrun) fun hc => hc.1 h
  · rw [if_neg h, and_iff_right h]
    rfl

theorem lift_bind_ok_iff {r : Except ε α} {f : α → Prog ε σ β} {s t : σ} {b : β} :
    (lift r >>= f) s = .ok b t ↔ ∃ a, r = .ok a ∧ f a s = .ok b t := by
  cases r with
  | ok a => simp [run_bind]
  | error e => simp [run_bind]

theorem raiseIf_error_iff {c : Prop} [Decidable c] {e e' : ε} {s t : σ} :
    (raiseIf c e : Prog ε σ PUnit) s = .error e' t ↔ c ∧ e' = e ∧ t = s := by
  unfold raiseIf
  split <;> simp_all [eq_comm]

/-- `if c: raise e`, in a computation that reads no state. -/
def failIf (c : Prop) [Decidable c] (e : ε) : Except ε PUnit := if c then .error e else .ok ⟨⟩

theorem failIf_ok_iff {c : Prop} [Decidable c] {e : ε} {u : PUnit} :
    failIf c e = .ok u ↔ ¬ c := by
  unfold failIf
  split <;> simp_all

theorem failIf_error_iff {c : Prop} [Decidable c] {e e' : ε} :
    failIf c e = .error e' ↔ c ∧ e' = e := by
  unfold failIf
  split <;> simp_all [eq_comm]

/-- Whether `x` ends in a value, and that value and the state it leaves pass a test. -/
def returns (x : Prog ε σ α) (s : σ) (test : α → σ → Bool) : Bool :=
  match x s with
  | .ok a t => test a t
  | .error _ _ => false

theorem returns_iff {x : Prog ε σ α} {s : σ} {test : α → σ → Bool} :
    returns x s test = true ↔ ∃ a t, x s = .ok a t ∧ test a t = true := by
  unfold returns
  cases x s with
  | ok a t =>
      constructor
      · intro h
        exact ⟨a, t, rfl, h⟩
      · rintro ⟨_, _, ⟨⟩, h⟩
        exact h
  | error e t => simp

/-- Whether `x` raises, and the exception and the state it leaves pass a test. -/
def raises (x : Prog ε σ α) (s : σ) (test : ε → σ → Bool) : Bool :=
  match x s with
  | .ok _ _ => false
  | .error e t => test e t

theorem raises_iff {x : Prog ε σ α} {s : σ} {test : ε → σ → Bool} :
    raises x s test = true ↔ ∃ e t, x s = .error e t ∧ test e t = true := by
  unfold raises
  cases x s with
  | ok a t => simp
  | error e t =>
      constructor
      · intro h
        exact ⟨e, t, rfl, h⟩
      · rintro ⟨_, _, ⟨⟩, h⟩
        exact h

/-! ## The state a program leaves behind -/

/-- The state in which `x` ends, whether it returns or raises. -/
def final (x : Prog ε σ α) (s : σ) : σ :=
  match x s with
  | .ok _ t => t
  | .error _ t => t

theorem final_of_ok {x : Prog ε σ α} {s t : σ} {a : α} (h : x s = .ok a t) : final x s = t := by
  simp [final, h]

theorem final_of_error {x : Prog ε σ α} {s t : σ} {e : ε} (h : x s = .error e t) :
    final x s = t := by
  simp [final, h]

theorem final_bind_of_ok {x : Prog ε σ α} {f : α → Prog ε σ β} {s t : σ} {a : α} (h : x s = .ok a t) :
    final (x >>= f) s = final (f a) t := by
  simp only [final, run_bind_of_ok h]

theorem final_raiseIf_bind {c : Prop} [Decidable c] {e : ε} {f : PUnit → Prog ε σ α} {s : σ} :
    final (raiseIf c e >>= f) s = if c then s else final (f ⟨⟩) s := by
  unfold raiseIf
  split
  · rfl
  · rfl

/-- However `x` ends, the state it leaves is `R`-related to the one it started in. -/
def Steps (R : σ → σ → Prop) (x : Prog ε σ α) : Prop := ∀ s, R s (final x s)

section Steps

variable {R : σ → σ → Prop}

theorem steps_pure [Std.Refl R] (a : α) : Steps R (pure a : Prog ε σ α) :=
  fun s => Std.Refl.refl s

theorem steps_throw [Std.Refl R] (e : ε) : Steps R (throw e : Prog ε σ α) :=
  fun s => Std.Refl.refl s

theorem steps_get [Std.Refl R] : Steps R (get : Prog ε σ σ) :=
  fun s => Std.Refl.refl s

theorem steps_lift [Std.Refl R] (r : Except ε α) : Steps R (lift r : Prog ε σ α) := by
  intro s
  cases r <;> exact Std.Refl.refl s

theorem steps_modify {f : σ → σ} (h : ∀ s, R s (f s)) :
    Steps R (modify f : Prog ε σ PUnit) := h

/-- The law of a sequence from one state, where the second part may use what the first returned. -/
theorem step_bind [IsTrans σ R] {x : Prog ε σ α} {f : α → Prog ε σ β} {s : σ}
    (hx : R s (final x s)) (hf : ∀ a t, x s = .ok a t → R t (final (f a) t)) :
    R s (final (x >>= f) s) := by
  cases h : x s with
  | ok a t =>
      rw [final_of_ok h] at hx
      rw [final_bind_of_ok h]
      exact IsTrans.trans _ _ _ hx (hf a t h)
  | error e t =>
      rw [final_of_error h] at hx
      rw [final_of_error (run_bind_of_error h)]
      exact hx

theorem steps_bind [IsTrans σ R] {x : Prog ε σ α} {f : α → Prog ε σ β}
    (hx : Steps R x) (hf : ∀ a, Steps R (f a)) : Steps R (x >>= f) :=
  fun s => step_bind (hx s) fun a t _ => hf a t

theorem steps_tryCatch [IsTrans σ R] {x : Prog ε σ α} {h : ε → Prog ε σ α}
    (hx : Steps R x) (hh : ∀ e, Steps R (h e)) : Steps R (tryCatch x h) := by
  intro s
  have hs := hx s
  cases hxs : x s with
  | ok a t =>
      rw [final_of_ok hxs] at hs
      rw [final_of_ok (by rw [run_tryCatch, hxs] : (tryCatch x h) s = .ok a t)]
      exact hs
  | error e t =>
      rw [final_of_error hxs] at hs
      have ht := hh e t
      have e' : final (tryCatch x h) s = final (h e) t := by simp only [final, run_tryCatch, hxs]
      rw [e']
      exact IsTrans.trans _ _ _ hs ht

theorem steps_ite [Decidable p] {x y : Prog ε σ α} (hx : Steps R x) (hy : Steps R y) :
    Steps R (if p then x else y) := by
  split
  · exact hx
  · exact hy

theorem steps_raiseIf [Std.Refl R] {c : Prop} [Decidable c] {e : ε} :
    Steps R (raiseIf c e : Prog ε σ PUnit) :=
  steps_ite (steps_throw e) (steps_pure PUnit.unit)

/-- What a program that ends in a value or an exception has done to the state, read off `Steps`. -/
theorem Steps.ok {x : Prog ε σ α} (h : Steps R x) {s t : σ} {a : α} (hx : x s = .ok a t) :
    R s t := by
  have := h s
  rwa [final_of_ok hx] at this

theorem Steps.error {x : Prog ε σ α} (h : Steps R x) {s t : σ} {e : ε} (hx : x s = .error e t) :
    R s t := by
  have := h s
  rwa [final_of_error hx] at this

end Steps

/-- States that agree on what `f` reads. -/
def Same {γ : Type} (f : σ → γ) (s t : σ) : Prop := f t = f s

instance {γ : Type} (f : σ → γ) : Std.Refl (Same f) := ⟨fun _ => rfl⟩

instance {γ : Type} (f : σ → γ) : IsTrans σ (Same f) :=
  ⟨fun _ _ _ h₁ h₂ => h₂.trans h₁⟩

end HummingbirdRpms.Lib.Exec
