/-
# HummingbirdRpms.Lib.BlockScan — the first answer inside a block of lines.

A scan with one flag: some lines open a block, some keep it open, any other closes it, and the first line
inside a block that answers ends the scan.  The lines are of any type.

**`scan_eq_some_iff`** and **`scan_eq_none_iff`** say what the scan finds without its flag: the first line
that answers and has before it a line that opens a block and then only lines that keep it open.
-/
import Mathlib.Data.List.Induction

namespace HummingbirdRpms.Lib.BlockScan

variable {α : Type}

/-- What the lines of a scan do. -/
structure Rules (α : Type) where
  opens : α → Bool
  stays : α → Bool
  answers : α → Bool

/-- The flag after a line. -/
def Rules.next (r : Rules α) (inside : Bool) (line : α) : Bool :=
  r.opens line || (inside && r.stays line)

/-- The first line inside a block that answers.  A line that opens a block is not asked. -/
def scan (r : Rules α) : (inside : Bool) → List α → Option α
  | _, [] => none
  | inside, line :: rest =>
      if r.opens line then scan r true rest
      else if inside && r.stays line && r.answers line then some line
      else scan r (inside && r.stays line) rest

variable {r : Rules α} {before pre lines : List α} {line : α}

/-- The flag after some lines. -/
def insideAfter (r : Rules α) (lines : List α) : Bool := lines.foldl r.next false

/-- A block is open after some lines: one of them opens it, and those after it keep it open. -/
def Open (r : Rules α) (before : List α) : Prop :=
  ∃ front header inner, before = front ++ header :: inner ∧ r.opens header = true ∧
    ∀ l ∈ inner, r.opens l = true ∨ r.stays l = true

/-- A line answers after some lines. -/
def Answers (r : Rules α) (before : List α) (line : α) : Prop :=
  Open r before ∧ r.opens line = false ∧ r.stays line = true ∧ r.answers line = true

theorem insideAfter_snoc : insideAfter r (before ++ [line]) = r.next (insideAfter r before) line := by
  rw [insideAfter, List.foldl_append]
  rfl

theorem open_snoc :
    Open r (before ++ [line]) ↔ r.opens line = true ∨ (Open r before ∧ r.stays line = true) := by
  constructor
  · rintro ⟨front, header, inner, hsplit, hheader, hinner⟩
    rcases List.eq_nil_or_concat inner with rfl | ⟨inner', last, rfl⟩
    · obtain ⟨-, rfl⟩ := List.append_singleton_inj.mp hsplit
      exact Or.inl hheader
    · -- the last line is one that the block was kept open by
      rw [List.concat_eq_append] at hsplit hinner
      rw [← List.cons_append, ← List.append_assoc] at hsplit
      obtain ⟨rfl, rfl⟩ := List.append_singleton_inj.mp hsplit
      rcases hinner line List.mem_concat_self with hopens | hstays
      · exact Or.inl hopens
      · exact Or.inr ⟨⟨front, header, inner', rfl, hheader, fun l hl =>
          hinner l (List.mem_append_left _ hl)⟩, hstays⟩
  · rintro (hopens | ⟨⟨front, header, inner, rfl, hheader, hinner⟩, hstays⟩)
    · exact ⟨before, line, [], rfl, hopens, fun l hl => absurd hl List.not_mem_nil⟩
    · refine ⟨front, header, inner ++ [line], by simp, hheader, fun l hl => ?_⟩
      rcases List.mem_append.mp hl with hl | hl
      · exact hinner l hl
      · rw [List.mem_singleton.mp hl]
        exact Or.inr hstays

/-- The flag says whether a block is open. -/
theorem insideAfter_iff : insideAfter r before = true ↔ Open r before := by
  induction before using List.reverseRecOn with
  | nil =>
      constructor
      · intro h
        cases h
      · rintro ⟨front, header, inner, hsplit, -⟩
        cases front <;> cases hsplit
  | append_singleton before line ih =>
      rw [insideAfter_snoc, open_snoc, Rules.next, Bool.or_eq_true, Bool.and_eq_true, ih]

/-- A line that answers, none of the lines before it answering. -/
def FirstAnswer (r : Rules α) (pre lines : List α) (line : α) : Prop :=
  ∃ before after, lines = before ++ line :: after ∧ Answers r (pre ++ before) line ∧
    ∀ b l a, before = b ++ l :: a → ¬ Answers r (pre ++ b) l

/-- No line answers. -/
def NoAnswer (r : Rules α) (pre lines : List α) : Prop :=
  ∀ b l a, lines = b ++ l :: a → ¬ Answers r (pre ++ b) l

theorem answers_iff : Answers r pre line ↔ (!r.opens line &&
    (insideAfter r pre && r.stays line && r.answers line)) = true := by
  rw [Answers, ← insideAfter_iff]
  cases r.opens line <;> simp [and_assoc]

theorem firstAnswer_cons {l : α} : FirstAnswer r pre (line :: lines) l ↔
    (Answers r pre line ∧ l = line) ∨ (¬ Answers r pre line ∧ FirstAnswer r (pre ++ [line]) lines l) := by
  constructor
  · rintro ⟨before, after, hsplit, hanswers, hnone⟩
    cases before with
    | nil =>
        obtain ⟨rfl, rfl⟩ := List.cons.inj hsplit
        exact Or.inl ⟨by simpa using hanswers, rfl⟩
    | cons first before =>
        obtain ⟨rfl, rfl⟩ := List.cons.inj hsplit
        refine Or.inr ⟨by simpa using hnone [] line before rfl, before, after, rfl, by simpa using hanswers, ?_⟩
        intro b x a hb
        simpa using hnone (line :: b) x a (congrArg (line :: ·) hb)
  · rintro (⟨hanswers, rfl⟩ | ⟨hfirst, before, after, rfl, hanswers, hnone⟩)
    · exact ⟨[], lines, rfl, by simpa using hanswers, fun b x a h => by cases b <;> cases h⟩
    · refine ⟨line :: before, after, rfl, by simpa using hanswers, ?_⟩
      intro b x a hb
      cases b with
      | nil =>
          obtain ⟨rfl, -⟩ := List.cons.inj hb
          simpa using hfirst
      | cons y b =>
          obtain ⟨rfl, htail⟩ := List.cons.inj hb
          simpa using hnone b x a htail

/-- One round of the scan, by whether the line answers. -/
theorem scan_cons : (Answers r pre line → scan r (insideAfter r pre) (line :: lines) = some line) ∧
    (¬ Answers r pre line →
      scan r (insideAfter r pre) (line :: lines) = scan r (insideAfter r (pre ++ [line])) lines) := by
  rw [answers_iff, insideAfter_snoc, Rules.next, scan]
  cases r.opens line with
  | true => simp
  | false =>
      cases insideAfter r pre && r.stays line && r.answers line <;> simp

theorem scan_some_iff {l : α} :
    scan r (insideAfter r pre) lines = some l ↔ FirstAnswer r pre lines l := by
  induction lines generalizing pre with
  | nil =>
      constructor
      · intro h
        cases h
      · rintro ⟨before, after, hsplit, -⟩
        cases before <;> cases hsplit
  | cons line lines ih =>
      rw [firstAnswer_cons]
      by_cases h : Answers r pre line
      · rw [scan_cons.1 h]
        simp [h, eq_comm]
      · rw [scan_cons.2 h, ih]
        simp [h]

/-- **`scan_eq_some_iff`** — a scan finds the first line that answers. -/
theorem scan_eq_some_iff {l : α} : scan r false lines = some l ↔ FirstAnswer r [] lines l :=
  @scan_some_iff _ r [] lines l

/-- **`scan_eq_none_iff`** — and finds nothing exactly when no line answers. -/
theorem scan_eq_none_iff : scan r false lines = none ↔ NoAnswer r [] lines := by
  have hnone : ∀ pre, scan r (insideAfter r pre) lines = none ↔ NoAnswer r pre lines := by
    induction lines with
    | nil =>
        intro pre
        refine ⟨fun _ b l a hb => ?_, fun _ => rfl⟩
        cases b <;> cases hb
    | cons line lines ih =>
        intro pre
        constructor
        · intro hscan b l a hb hanswers
          by_cases h : Answers r pre line
          · rw [scan_cons.1 h] at hscan
            cases hscan
          · rw [scan_cons.2 h, ih] at hscan
            cases b with
            | nil =>
                obtain ⟨rfl, -⟩ := List.cons.inj hb
                exact h (by simpa using hanswers)
            | cons y b =>
                obtain ⟨rfl, htail⟩ := List.cons.inj hb
                exact hscan b l a htail (by simpa using hanswers)
        · intro hno
          have h : ¬ Answers r pre line := by simpa using hno [] line lines rfl
          rw [scan_cons.2 h, ih]
          intro b l a hb
          simpa using hno (line :: b) l a (congrArg (line :: ·) hb)
  exact hnone []

end HummingbirdRpms.Lib.BlockScan
