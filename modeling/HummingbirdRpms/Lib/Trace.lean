/-
# HummingbirdRpms.Lib.Trace — runs of actions, what they keep, and the last one that changes a view.

A run is a list of actions, each of which takes a state to the next.  A view is what an observer sees
of a state.  A run keeps a view when no action of it changes what is seen.

**`keeps_or_lastChange`**: a run keeps a view, or one of its actions is the last that changes it, and the
rest of the run keeps what that action left.  **`runAll_invariant`** is the induction over a run whose
invariant may speak of the actions there have been.
-/
import Mathlib.Data.List.Induction

namespace HummingbirdRpms.Lib.Trace

variable {σ α β : Type}

/-- The state after a run. -/
def runAll (act : α → σ → σ) (actions : List α) (s : σ) : σ := actions.foldl (fun s a => act a s) s

/-- No action of a run changes a view. -/
def Keeps (act : α → σ → σ) (view : σ → β) (s : σ) : List α → Prop
  | [] => True
  | a :: rest => view (act a s) = view s ∧ Keeps act view (act a s) rest

/-- Each action of a run meets a condition in the state it is taken from. -/
def Throughout (act : α → σ → σ) (ok : α → σ → Prop) (s : σ) : List α → Prop
  | [] => True
  | a :: rest => ok a s ∧ Throughout act ok (act a s) rest

/-- `a` is the last action of a run that changes a view. -/
structure LastChange (act : α → σ → σ) (view : σ → β) (s : σ) (actions before : List α) (a : α)
    (after : List α) : Prop where
  split : actions = before ++ a :: after
  changes : view (act a (runAll act before s)) ≠ view (runAll act before s)
  keeps : Keeps act view (act a (runAll act before s)) after

variable {act : α → σ → σ} {view : σ → β} {s : σ} {actions before after : List α} {a : α}

theorem runAll_cons : runAll act (a :: actions) s = runAll act actions (act a s) := rfl

theorem runAll_append : runAll act (before ++ after) s = runAll act after (runAll act before s) :=
  List.foldl_append

theorem runAll_snoc : runAll act (actions ++ [a]) s = act a (runAll act actions s) := runAll_append

theorem Keeps.view_eq (h : Keeps act view s actions) : view (runAll act actions s) = view s := by
  induction actions generalizing s with
  | nil => rfl
  | cons a actions ih => exact (ih h.2).trans h.1

theorem LastChange.view_eq (h : LastChange act view s actions before a after) :
    view (runAll act actions s) = view (act a (runAll act before s)) := by
  rw [h.split, runAll_append]
  exact h.keeps.view_eq

theorem LastChange.cons {b : α} (h : LastChange act view (act b s) actions before a after) :
    LastChange act view s (b :: actions) (b :: before) a after :=
  ⟨congrArg (b :: ·) h.split, h.changes, h.keeps⟩

/-- **`keeps_or_lastChange`** — a run keeps a view, or one of its actions is the last that changes it. -/
theorem keeps_or_lastChange (act : α → σ → σ) (view : σ → β) (actions : List α) (s : σ) :
    Keeps act view s actions ∨ ∃ before a after, LastChange act view s actions before a after := by
  induction actions generalizing s with
  | nil => exact Or.inl trivial
  | cons b rest ih =>
      rcases ih (act b s) with hkeeps | ⟨before, a, after, h⟩
      · by_cases hb : view (act b s) = view s
        · exact Or.inl ⟨hb, hkeeps⟩
        · exact Or.inr ⟨[], b, rest, rfl, hb, hkeeps⟩
      · exact Or.inr ⟨b :: before, a, after, h.cons⟩

/-- The induction over a run: what holds at the start, and with each further action, holds after any
run. -/
theorem runAll_invariant (Inv : List α → σ → Prop) (hstart : Inv [] s)
    (hstep : ∀ before a t, Inv before t → Inv (before ++ [a]) (act a t)) :
    Inv actions (runAll act actions s) := by
  induction actions using List.reverseRecOn with
  | nil => exact hstart
  | append_singleton before a ih =>
      rw [runAll_snoc]
      exact hstep before a _ ih

end HummingbirdRpms.Lib.Trace
