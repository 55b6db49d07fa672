/-
# HummingbirdRpms.Lib.Emission — programs that add to a record, and end as if there were none.

A program over a list of records that only adds to it, and whose end does not depend on what is in it, is
described by two things: how it ends (`outcome`) and what it adds (`emitted`).  `Recording` says that a program
is one, and the rules below say step by step whether it adds a record of some kind (`Records`).

**`records_foldlM`** — a loop adds such a record if one of its rounds does that is got to.
-/
import HummingbirdRpms.Lib.Exec

namespace HummingbirdRpms.Lib.Emission

open Exec

variable {ε ω α β : Type}

/-- How a program ends that starts without records. -/
def outcome (x : Prog ε (List ω) α) : Except ε α :=
  match x [] with
  | .ok a _ => .ok a
  | .error e _ => .error e

/-- What it adds to them. -/
def emitted (x : Prog ε (List ω) α) : List ω := final x []

/-- The end of a program, with the records there are. -/
def ending (r : Except ε α) (s : List ω) : EStateM.Result ε (List ω) α :=
  match r with
  | .ok a => .ok a s
  | .error e => .error e s

/-- Whatever the records are, the program ends alike and adds the same to them. -/
def Recording (x : Prog ε (List ω) α) : Prop := ∀ s, x s = ending (outcome x) (s ++ emitted x)

/-- What is added behind a step: nothing if it raises. -/
def behind (r : Except ε α) (added : α → List ω) : List ω :=
  match r with
  | .ok a => added a
  | .error _ => []

/-- It adds a record of a kind. -/
def Records (P : ω → Prop) (x : Prog ε (List ω) α) : Prop := ∃ w ∈ emitted x, P w

instance {P : ω → Prop} [DecidablePred P] {x : Prog ε (List ω) α} : Decidable (Records P x) :=
  inferInstanceAs (Decidable (∃ w ∈ emitted x, P w))

/-- It returns. -/
def Returns (x : Prog ε (List ω) α) : Prop := ∃ a, outcome x = .ok a

section

variable {x : Prog ε (List ω) α} {f : α → Prog ε (List ω) β} {r : Except ε α} {added : List ω} {P : ω → Prop}

/-- A program that is seen to end so, and to add this. -/
theorem of_run (h : ∀ s, x s = ending r (s ++ added)) : Recording x ∧ outcome x = r ∧ emitted x = added := by
  have houtcome : outcome x = r := by
    rw [outcome, h]
    cases r <;> rfl
  have hemitted : emitted x = added := by
    rw [emitted, final, h]
    cases r <;> rfl
  refine ⟨fun s => ?_, houtcome, hemitted⟩
  rw [h, houtcome, hemitted]

theorem run_pure_records (a : α) (s : List ω) : (pure a : Prog ε (List ω) α) s = ending (.ok a) (s ++ []) := by
  rw [List.append_nil]
  rfl

theorem recording_pure (a : α) : Recording (pure a : Prog ε (List ω) α) := (of_run (run_pure_records a)).1

@[simp] theorem outcome_pure (a : α) : outcome (pure a : Prog ε (List ω) α) = .ok a := rfl

theorem not_records_pure (a : α) : ¬ Records P (pure a : Prog ε (List ω) α) := by
  rintro ⟨w, hw, -⟩
  exact absurd hw List.not_mem_nil

theorem run_lift_records (r : Except ε α) (s : List ω) : (lift r : Prog ε (List ω) α) s = ending r (s ++ []) := by
  rw [List.append_nil]
  cases r <;> rfl

theorem recording_lift (r : Except ε α) : Recording (lift r : Prog ε (List ω) α) := (of_run (run_lift_records r)).1

@[simp] theorem outcome_lift (r : Except ε α) : outcome (lift r : Prog ε (List ω) α) = r :=
  (of_run (run_lift_records r)).2.1

theorem not_records_lift (r : Except ε α) : ¬ Records P (lift r : Prog ε (List ω) α) := by
  rintro ⟨w, hw, -⟩
  rw [(of_run (run_lift_records r)).2.2] at hw
  exact absurd hw List.not_mem_nil

/-- One record. -/
def record (w : ω) : Prog ε (List ω) PUnit := modify (· ++ [w])

theorem recording_record (w : ω) : Recording (record w : Prog ε (List ω) PUnit) := fun _ => rfl

@[simp] theorem outcome_record (w : ω) : outcome (record w : Prog ε (List ω) PUnit) = .ok ⟨⟩ := rfl

theorem records_record {w : ω} : Records P (record w : Prog ε (List ω) PUnit) ↔ P w := by
  constructor
  · rintro ⟨w', hw', h⟩
    rw [List.mem_singleton.mp hw'] at h
    exact h
  · exact fun h => ⟨w, List.mem_singleton_self w, h⟩

theorem run_bind_records (hx : Recording x) (hf : ∀ a, Recording (f a)) (s : List ω) :
    (x >>= f) s = ending (outcome x >>= fun a => outcome (f a))
      (s ++ (emitted x ++ behind (outcome x) fun a => emitted (f a))) := by
  rw [run_bind, hx s]
  cases outcome x with
  | ok a =>
      show f a (s ++ emitted x) = ending (outcome (f a)) (s ++ (emitted x ++ emitted (f a)))
      rw [hf a, List.append_assoc]
  | error e =>
      show EStateM.Result.error e (s ++ emitted x) = .error e (s ++ (emitted x ++ []))
      rw [List.append_nil]

theorem Recording.bind (hx : Recording x) (hf : ∀ a, Recording (f a)) : Recording (x >>= f) :=
  (of_run (run_bind_records hx hf)).1

theorem outcome_bind (hx : Recording x) (hf : ∀ a, Recording (f a)) :
    outcome (x >>= f) = outcome x >>= fun a => outcome (f a) :=
  (of_run (run_bind_records hx hf)).2.1

theorem returns_pure (a : α) : Returns (pure a : Prog ε (List ω) α) := ⟨a, rfl⟩

/-- A step that returns, with the value that is returned in the end. -/
theorem returns_bind_pure {g : α → β} (hx : Recording x) : Returns (x >>= fun a => pure (g a)) ↔ Returns x := by
  unfold Returns
  rw [outcome_bind hx fun _ => recording_pure _]
  constructor
  · rintro ⟨b, h⟩
    obtain ⟨a, ha, -⟩ := except_bind_ok_iff.mp h
    exact ⟨a, ha⟩
  · rintro ⟨a, ha⟩
    exact ⟨g a, by rw [ha]; rfl⟩

theorem records_bind (hx : Recording x) (hf : ∀ a, Recording (f a)) :
    Records P (x >>= f) ↔ Records P x ∨ ∃ a, outcome x = .ok a ∧ Records P (f a) := by
  unfold Records
  rw [(of_run (run_bind_records hx hf)).2.2]
  cases hr : outcome x with
  | ok a =>
      show (∃ w ∈ emitted x ++ emitted (f a), P w) ↔ _
      constructor
      · rintro ⟨w, hw, h⟩
        rcases List.mem_append.mp hw with hw | hw
        · exact Or.inl ⟨w, hw, h⟩
        · exact Or.inr ⟨a, rfl, w, hw, h⟩
      · rintro (⟨w, hw, h⟩ | ⟨a', ha, w, hw, h⟩)
        · exact ⟨w, List.mem_append_left _ hw, h⟩
        · obtain rfl := Except.ok.inj ha
          exact ⟨w, List.mem_append_right _ hw, h⟩
  | error e =>
      show (∃ w ∈ emitted x ++ [], P w) ↔ _
      rw [List.append_nil]
      constructor
      · exact Or.inl
      · rintro (h | ⟨a, ha, -⟩)
        · exact h
        · cases ha

/-- A step that adds nothing. -/
theorem records_lift_bind (hf : ∀ a, Recording (f a)) :
    Records P (lift r >>= f) ↔ ∃ a, r = .ok a ∧ Records P (f a) := by
  rw [records_bind (recording_lift r) hf, outcome_lift]
  exact or_iff_right (not_records_lift r)

/-- A step that adds one record. -/
theorem records_record_bind {f : PUnit → Prog ε (List ω) β} {w : ω} (hf : ∀ a, Recording (f a)) :
    Records P (record w >>= f) ↔ P w ∨ Records P (f ⟨⟩) := by
  rw [records_bind (recording_record w) hf, records_record]
  refine or_congr_right ⟨?_, fun h => ⟨⟨⟩, rfl, h⟩⟩
  rintro ⟨⟨⟩, -, h⟩
  exact h

/-- What follows a step and adds nothing. -/
theorem records_bind_of_quiet (hx : Recording x) (hf : ∀ a, Recording (f a)) (hquiet : ∀ a, ¬ Records P (f a)) :
    Records P (x >>= f) ↔ Records P x := by
  rw [records_bind hx hf]
  refine or_iff_left ?_
  rintro ⟨a, -, h⟩
  exact hquiet a h

theorem run_tryCatch_records {h : ε → Except ε α} (hx : Recording x) (s : List ω) :
    tryCatch x (fun e => lift (h e)) s = ending (tryCatch (outcome x) h) (s ++ emitted x) := by
  rw [run_tryCatch, hx s]
  cases outcome x with
  | ok a => rfl
  | error e =>
      show lift (h e) (s ++ emitted x) = ending (h e) (s ++ emitted x)
      cases h e <;> rfl

theorem Recording.tryCatch {h : ε → Except ε α} (hx : Recording x) :
    Recording (tryCatch x fun e => lift (h e)) :=
  (of_run (run_tryCatch_records hx)).1

/-- What is caught has been added. -/
theorem records_tryCatch {h : ε → Except ε α} (hx : Recording x) :
    Records P (tryCatch x fun e => lift (h e)) ↔ Records P x := by
  unfold Records
  rw [(of_run (run_tryCatch_records hx)).2.2]

end

/-! ## Loops -/

section

variable {work : β → α → Prog ε (List ω) β} {P : ω → Prop}

theorem recording_foldlM (hwork : ∀ b a, Recording (work b a)) (l : List α) (b : β) :
    Recording (l.foldlM work b) := by
  induction l generalizing b with
  | nil => exact recording_pure b
  | cons a l ih =>
      rw [List.foldlM_cons]
      exact (hwork b a).bind ih

/-- A loop returns if its rounds do, where the state does not decide whether they do. -/
theorem returns_foldlM {Good : α → Prop} (hwork : ∀ b a, Recording (work b a))
    (hgood : ∀ b a, Returns (work b a) ↔ Good a) (l : List α) (b : β) :
    Returns (l.foldlM work b) ↔ ∀ a ∈ l, Good a := by
  induction l generalizing b with
  | nil => exact iff_of_true (returns_pure b) (List.forall_mem_nil _)
  | cons a l ih =>
      rw [List.foldlM_cons, List.forall_mem_cons, ← hgood b a]
      unfold Returns
      rw [outcome_bind (hwork b a) (recording_foldlM hwork l)]
      constructor
      · rintro ⟨c, h⟩
        obtain ⟨b₁, hround, hrest⟩ := except_bind_ok_iff.mp h
        exact ⟨⟨b₁, hround⟩, (ih b₁).mp ⟨c, hrest⟩⟩
      · rintro ⟨⟨b₁, hround⟩, hrest⟩
        obtain ⟨c, h⟩ := (ih b₁).mpr hrest
        exact ⟨c, except_bind_ok_iff.mpr ⟨b₁, hround, h⟩⟩

/-- **`records_foldlM`** — a loop adds a record of a kind if one of its rounds does, and those before it return. -/
theorem records_foldlM (hwork : ∀ b a, Recording (work b a)) (l : List α) (b : β) :
    Records P (l.foldlM work b) ↔ ∃ before a after b', l = before ++ a :: after ∧
      outcome (before.foldlM work b) = .ok b' ∧ Records P (work b' a) := by
  induction l generalizing b with
  | nil =>
      rw [List.foldlM_nil]
      refine iff_of_false (not_records_pure b) ?_
      rintro ⟨before, a, after, b', hl, -⟩
      exact absurd hl (by simp)
  | cons a l ih =>
      rw [List.foldlM_cons, records_bind (hwork b a) (recording_foldlM hwork l)]
      constructor
      · rintro (h | ⟨b₁, hround, h⟩)
        · exact ⟨[], a, l, b, rfl, rfl, h⟩
        · obtain ⟨before, a', after, b', rfl, hbefore, h⟩ := (ih b₁).mp h
          refine ⟨a :: before, a', after, b', rfl, ?_, h⟩
          rw [List.foldlM_cons, outcome_bind (hwork b a) (recording_foldlM hwork before), hround]
          exact hbefore
      · rintro ⟨before, a', after, b', hl, hbefore, h⟩
        -- The round is the first one, or one of the rest.
        cases before with
        | nil =>
            obtain ⟨rfl, rfl⟩ := List.cons.inj hl
            rw [List.foldlM_nil, outcome_pure] at hbefore
            obtain rfl := Except.ok.inj hbefore
            exact Or.inl h
        | cons c before =>
            obtain ⟨rfl, rfl⟩ := List.cons.inj hl
            rw [List.foldlM_cons, outcome_bind (hwork b a) (recording_foldlM hwork before)] at hbefore
            obtain ⟨b₁, hround, hbefore⟩ := except_bind_ok_iff.mp hbefore
            exact Or.inr ⟨b₁, hround, (ih b₁).mpr ⟨before, a', after, b', rfl, hbefore, h⟩⟩

/-- Where the state decides neither, a round of one kind does it with only rounds of another kind before it. -/
theorem records_foldlM_of_alike {Good Bad : α → Prop} (hwork : ∀ b a, Recording (work b a))
    (hgood : ∀ b a, Returns (work b a) ↔ Good a) (hbad : ∀ b a, Records P (work b a) ↔ Bad a)
    (l : List α) (b : β) :
    Records P (l.foldlM work b) ↔ ∃ before a after, l = before ++ a :: after ∧ (∀ c ∈ before, Good c) ∧ Bad a := by
  rw [records_foldlM hwork]
  constructor
  · rintro ⟨before, a, after, b', hl, hbefore, h⟩
    exact ⟨before, a, after, hl, (returns_foldlM hwork hgood before b).mp ⟨b', hbefore⟩, (hbad b' a).mp h⟩
  · rintro ⟨before, a, after, hl, hbefore, h⟩
    obtain ⟨b', hb'⟩ := (returns_foldlM hwork hgood before b).mpr hbefore
    exact ⟨before, a, after, b', hl, hb', (hbad b' a).mpr h⟩

end

end HummingbirdRpms.Lib.Emission
