/-
# HummingbirdRpms.Lib.Register — programs that load a shared value and later save a new one.

Each of a family of programs reads a shared value once, as a whole, and later replaces it, as a whole,
by what it has computed from what it read; a program that fails in between replaces nothing.  A
schedule says in which order the programs take their steps.

A value is a store here: `get` looks a key up in it, and a program that is `LocalAt` a key reads and
changes nothing of the store but what is under that key.

**`keepsBoth_iff`** is about two programs at different keys, for every interleaving of their four steps:
when what both have written is there in the end.
-/
import Mathlib.Data.Bool.Basic
import Mathlib.Data.List.Perm.Basic
import Mathlib.Logic.Function.Basic

namespace HummingbirdRpms.Lib.Register

variable {σ ι κ ν : Type}

/-! ## Programs and schedules -/

/-- How far a program has come. -/
inductive Phase (σ : Type) where
  | waiting
  /-- It has loaded a value. -/
  | holding (loaded : σ)
  | done

/-- The shared value, and how far each program has come. -/
structure State (ι σ : Type) where
  value : σ
  phase : ι → Phase σ

/-- No program has started. -/
def start (s : σ) : State ι σ := ⟨s, fun _ => .waiting⟩

/-- The next step of program `i`, where `update i` is what it saves for what it has loaded. -/
def step [DecidableEq ι] (update : ι → σ → Option σ) (st : State ι σ) (i : ι) : State ι σ :=
  match st.phase i with
  | .waiting => { st with phase := Function.update st.phase i (.holding st.value) }
  | .holding loaded =>
      { value := (update i loaded).getD st.value, phase := Function.update st.phase i .done }
  | .done => st

/-- The value after a schedule. -/
def run [DecidableEq ι] (update : ι → σ → Option σ) (schedule : List ι) (s : σ) : σ :=
  (schedule.foldl (step update) (start s)).value

/-! ## Programs that work on one key -/

/-- A program reads and changes nothing but what is under a key. -/
structure LocalAt (get : σ → κ → ν) (k : κ) (f : σ → Option σ) : Prop where
  frame : ∀ {s s'}, f s = some s' → ∀ k', k' ≠ k → get s' k' = get s k'
  reads : ∀ {s t}, get s k = get t k →
    (f s).map (fun s' => get s' k) = (f t).map fun t' => get t' k

/-- What a program writes under its key, for the store it starts from, is there. -/
def HasEffect (get : σ → κ → ν) (k : κ) (f : σ → Option σ) (s final : σ) : Prop :=
  ∀ s', f s = some s' → get final k = get s' k

/-- A program adds nothing to a store: it fails, or what it writes is there. -/
def AddsNothing (get : σ → κ → ν) (k : κ) (f : σ → Option σ) (s : σ) : Prop := HasEffect get k f s s

section

variable {get : σ → κ → ν} {k l : κ} {f g : σ → Option σ} {s t : σ}

theorem LocalAt.get_eq {s' t' : σ} (hf : LocalAt get k f) (hst : get s k = get t k) (hs : f s = some s')
    (ht : f t = some t') : get s' k = get t' k := by
  have h := hf.reads hst
  rw [hs, ht] at h
  exact Option.some.inj h

theorem LocalAt.isSome_eq (hf : LocalAt get k f) (hst : get s k = get t k) :
    (f s).isSome = (f t).isSome := by
  have h := congrArg Option.isSome (hf.reads hst)
  simpa using h

/-- After a program at another key, a program does what it would have done before it. -/
theorem HasEffect.after {s' : σ} (hg : LocalAt get l g) (hkl : l ≠ k) (hf : LocalAt get k f)
    (hs : f s = some s') : HasEffect get l g s ((g s').getD s') := by
  intro t ht
  have hsame : get s l = get s' l := (hf.frame hs l hkl).symm
  have hsome := hg.isSome_eq hsame
  rw [ht] at hsome
  obtain ⟨t', ht'⟩ := Option.isSome_iff_exists.mp hsome.symm
  rw [ht', Option.getD_some]
  exact (hg.get_eq hsame ht ht').symm

/-- What a program has written survives a program at another key that starts from it. -/
theorem HasEffect.kept {s' : σ} (hg : LocalAt get l g) (hkl : k ≠ l) (hs : f s = some s') :
    HasEffect get k f s ((g s').getD s') := by
  intro t ht
  obtain rfl := Option.some.inj (hs.symm.trans ht)
  cases hgs : g s' with
  | none => rfl
  | some t' => exact hg.frame hgs k hkl

/-! ## Two programs -/

/-- One program after the other. -/
theorem serial_keepsBoth (hf : LocalAt get k f) (hg : LocalAt get l g) (hkl : k ≠ l) :
    HasEffect get k f s ((g ((f s).getD s)).getD ((f s).getD s)) ∧
      HasEffect get l g s ((g ((f s).getD s)).getD ((f s).getD s)) := by
  cases hs : f s with
  | none =>
      refine ⟨fun t ht => absurd (hs.symm.trans ht) (by simp), fun t ht => ?_⟩
      rw [Option.getD_none, ht]
      rfl
  | some s' =>
      rw [Option.getD_some]
      exact ⟨.kept hg hkl hs, .after hg hkl.symm hf hs⟩

/-- Both programs start from the same store, and `g` saves last. -/
theorem overlapped_keepsBoth_iff (hg : LocalAt get l g) (hkl : k ≠ l) :
    HasEffect get k f s ((g s).getD ((f s).getD s)) ∧ HasEffect get l g s ((g s).getD ((f s).getD s)) ↔
      g s = none ∨ AddsNothing get k f s := by
  cases hgs : g s with
  | none =>
      refine iff_of_true ⟨fun t ht => ?_, fun t ht => absurd (hgs.symm.trans ht) (by simp)⟩ (Or.inl rfl)
      rw [Option.getD_none, ht]
      rfl
  | some t =>
      rw [Option.getD_some]
      have hkept : get t k = get s k := hg.frame hgs k hkl
      have hlast : HasEffect get l g s t := by
        intro t' ht'
        rw [Option.some.inj (hgs.symm.trans ht')]
      have hfirst : HasEffect get k f s t ↔ AddsNothing get k f s := by
        unfold AddsNothing HasEffect
        rw [hkept]
      rw [and_iff_left hlast, hfirst]
      simp

end

/-! ## Their interleavings -/

/-- The interleavings of two programs of two steps each. -/
def Interleaves (schedule : List Bool) : Prop := schedule.Perm [true, true, false, false]

instance {schedule : List Bool} : Decidable (Interleaves schedule) :=
  inferInstanceAs (Decidable (schedule.Perm _))

/-- One program saves before the other one loads. -/
def Serial (schedule : List Bool) : Prop := ∃ i, schedule = [i, i, !i, !i]

/-- The program that saves last. -/
def savesLast (schedule : List Bool) : Bool := schedule.getLastD true

/-- An interleaving is serial, or both programs load before one of them saves. -/
theorem interleaves_cases {schedule : List Bool} (h : Interleaves schedule) :
    ∃ i, schedule = [i, i, !i, !i] ∨ schedule = [i, !i, i, !i] ∨ schedule = [!i, i, i, !i] := by
  have hlength : schedule.length = 4 := h.length_eq
  obtain ⟨a, b, c, d, rfl⟩ : ∃ a b c d, schedule = [a, b, c, d] := by
    match schedule, hlength with
    | [a, b, c, d], _ => exact ⟨a, b, c, d, rfl⟩
  have hcount : [a, b, c, d].count true = 2 := h.count_eq true
  revert hcount
  clear h hlength
  revert a b c d
  decide

variable {get : σ → κ → ν} {key : Bool → κ} {update : Bool → σ → Option σ} {s : σ}

theorem run_serial (i : Bool) : run update [i, i, !i, !i] s =
    (update (!i) ((update i s).getD s)).getD ((update i s).getD s) := by
  cases i <;> rfl

theorem run_overlapped (i : Bool) : run update [i, !i, i, !i] s =
    (update (!i) s).getD ((update i s).getD s) := by
  cases i <;> rfl

theorem run_overlapped' (i : Bool) : run update [!i, i, i, !i] s =
    (update (!i) s).getD ((update i s).getD s) := by
  cases i <;> rfl

/-- Both programs have had their effect. -/
def KeepsBoth (get : σ → κ → ν) (key : Bool → κ) (update : Bool → σ → Option σ) (s final : σ) : Prop :=
  ∀ i, HasEffect get (key i) (update i) s final

theorem keepsBoth_iff_pair (i : Bool) {final : σ} : KeepsBoth get key update s final ↔
    HasEffect get (key i) (update i) s final ∧ HasEffect get (key (!i)) (update (!i)) s final := by
  constructor
  · intro h
    exact ⟨h i, h !i⟩
  · rintro ⟨h, h'⟩ j
    rcases Bool.eq_or_eq_not j i with rfl | rfl
    · exact h
    · exact h'

/-- **`keepsBoth_iff`** — after an interleaving of two programs at different keys, what both have written
is there exactly when one ran after the other, or the one that saved last failed, or the other one had
nothing to add. -/
theorem keepsBoth_iff {schedule : List Bool} (hlocal : ∀ i, LocalAt get (key i) (update i))
    (hkeys : key true ≠ key false) (h : Interleaves schedule) :
    KeepsBoth get key update s (run update schedule s) ↔
      Serial schedule ∨ update (savesLast schedule) s = none ∨
        AddsNothing get (key !savesLast schedule) (update !savesLast schedule) s := by
  have hne : ∀ i, key i ≠ key !i := by
    intro i
    cases i with
    | true => exact hkeys
    | false => exact hkeys.symm
  obtain ⟨i, rfl | rfl | rfl⟩ := interleaves_cases h
  · rw [run_serial, keepsBoth_iff_pair i]
    exact iff_of_true (serial_keepsBoth (hlocal i) (hlocal !i) (hne i)) (Or.inl ⟨i, rfl⟩)
  · have hserial : ¬ Serial [i, !i, i, !i] := by
      rintro ⟨j, hj⟩
      revert hj
      cases i <;> cases j <;> decide
    rw [run_overlapped, keepsBoth_iff_pair i, overlapped_keepsBoth_iff (hlocal !i) (hne i),
      or_iff_right hserial]
    simp [savesLast]
  · have hserial : ¬ Serial [!i, i, i, !i] := by
      rintro ⟨j, hj⟩
      revert hj
      cases i <;> cases j <;> decide
    rw [run_overlapped', keepsBoth_iff_pair i, overlapped_keepsBoth_iff (hlocal !i) (hne i),
      or_iff_right hserial]
    simp [savesLast]

end HummingbirdRpms.Lib.Register
