/-
# HummingbirdRpms.Lib.Lines — cutting a text into lines and putting it together again.

`splitlines` cuts a text at every line break, of which there are ten, and `\r\n` counts as one.  A file
is read in text mode first, which knows three of them: that makes no difference to the cut
(**`splitlines_universalNewlines`**).  A text that is put together from lines, each ended by `\n`, is
cut piece by piece (**`splitlines_lines`**), and where no piece holds a line break of its own the cut
gives the pieces back (**`splitlines_unbroken`**).

Nothing here names a particular program.
-/
import HummingbirdRpms.Lib.Text

namespace HummingbirdRpms.Lib.Text

/-- A text without line breaks. -/
def Unbroken (s : Str) : Prop := ∀ c ∈ s, isLineBreak c = false

attribute [local simp] splitlinesAux replaceFrom

theorem mem_replaceFrom {old new s : Str} {c : Char} {skip : Nat} (h : c ∈ replaceFrom old new skip s) :
    c ∈ new ∨ c ∈ s := by
  induction skip, s using replaceFrom.induct old with
  | case1 => simp [replaceFrom] at h
  | case2 skip d s ih =>
      rw [replaceFrom] at h
      exact (ih h).imp_right (List.mem_cons_of_mem d)
  | case3 d s hprefix ih =>
      rw [replaceFrom, if_pos hprefix] at h
      rcases List.mem_append.mp h with h | h
      · exact Or.inl h
      · exact (ih h).imp_right (List.mem_cons_of_mem d)
  | case4 d s hprefix ih =>
      rw [replaceFrom, if_neg hprefix] at h
      rcases List.mem_cons.mp h with rfl | h
      · exact Or.inr List.mem_cons_self
      · exact (ih h).imp_right (List.mem_cons_of_mem d)

/-- Replacing brings in no character that neither text has. -/
theorem mem_replace {old new s : Str} {c : Char} (h : c ∈ replace old new s) : c ∈ new ∨ c ∈ s := by
  rw [replace] at h
  split at h
  · rcases List.mem_append.mp h with h | h
    · exact Or.inl h
    · obtain ⟨d, hd, h⟩ := List.mem_flatMap.mp h
      rcases List.mem_cons.mp h with rfl | h
      · exact Or.inr hd
      · exact Or.inl h
  · exact mem_replaceFrom h

theorem Unbroken.replace {old new s : Str} (hnew : Unbroken new) (hs : Unbroken s) :
    Unbroken (replace old new s) := by
  intro c hc
  rcases mem_replace hc with h | h
  · exact hnew c h
  · exact hs c h

/-! ## What is in a line -/

theorem isLineBreak_of_mem_splitlinesAux {text acc line : Str} (hacc : ∀ c ∈ acc, isLineBreak c = false)
    (hline : line ∈ splitlinesAux text acc) : ∀ c ∈ line, isLineBreak c = false := by
  induction text, acc using splitlinesAux.induct with
  | case1 => exact absurd hline (by simp [splitlinesAux])
  | case2 acc hne =>
      rw [splitlinesAux.eq_2 _ hne, List.mem_singleton] at hline
      subst hline
      intro c hc
      exact hacc c (List.mem_reverse.mp hc)
  | case3 cs acc ih =>
      rw [splitlinesAux, List.mem_cons] at hline
      rcases hline with rfl | hline
      · intro c hc
        exact hacc c (List.mem_reverse.mp hc)
      · exact ih (List.forall_mem_nil _) hline
  | case4 c cs acc hcrlf hbreak ih =>
      rw [splitlinesAux.eq_4 _ _ _ hcrlf, if_pos hbreak, List.mem_cons] at hline
      rcases hline with rfl | hline
      · intro c hc
        exact hacc c (List.mem_reverse.mp hc)
      · exact ih (List.forall_mem_nil _) hline
  | case5 c cs acc hcrlf hbreak ih =>
      rw [splitlinesAux.eq_4 _ _ _ hcrlf, if_neg hbreak] at hline
      refine ih ?_ hline
      rw [List.forall_mem_cons]
      exact ⟨by simpa using hbreak, hacc⟩

/-- A line of a text has no line break in it. -/
theorem isLineBreak_of_mem_splitlines {text line : Str} (h : line ∈ splitlines text) :
    ∀ c ∈ line, isLineBreak c = false := isLineBreak_of_mem_splitlinesAux (List.forall_mem_nil _) h

theorem isLineBreak_of_not_isSpace {c : Char} (h : isSpace c = false) : isLineBreak c = false := by
  simp only [isSpace, isLineBreak, Bool.or_eq_false_iff, Bool.and_eq_false_iff, decide_eq_false_iff_not,
    beq_eq_false_iff_ne] at h ⊢
  omega

/-! ## Where a text is cut -/

theorem splitlinesAux_line : ∀ {s acc : Str}, (∀ c ∈ s, isLineBreak c = false) → s ≠ [] ∨ acc ≠ [] →
    splitlinesAux s acc = [acc.reverse ++ s]
  | [], acc, _, hne => by
      rw [splitlinesAux.eq_2 _ (by simpa using hne), List.append_nil]
  | c :: s, acc, hs, _ => by
      rw [List.forall_mem_cons] at hs
      have hcrlf : ∀ cs, c = '\r' → s = '\n' :: cs → False := by
        rintro cs rfl -
        exact absurd hs.1 (by decide)
      rw [splitlinesAux.eq_4 _ _ _ hcrlf, if_neg (by rw [hs.1]; simp),
        splitlinesAux_line hs.2 (Or.inr (by simp))]
      simp

theorem splitlinesAux_ne_nil {text acc : Str} (h : text ≠ [] ∨ acc ≠ []) : splitlinesAux text acc ≠ [] := by
  induction text, acc using splitlinesAux.induct with
  | case1 => exact absurd h (by simp)
  | case2 => simp [splitlinesAux]
  | case3 => simp [splitlinesAux]
  | case4 c cs acc hcrlf hbreak =>
      rw [splitlinesAux.eq_4 _ _ _ hcrlf, if_pos hbreak]
      exact List.cons_ne_nil _ _
  | case5 c cs acc hcrlf hbreak ih =>
      rw [splitlinesAux.eq_4 _ _ _ hcrlf, if_neg hbreak]
      exact ih (Or.inr (List.cons_ne_nil c acc))

/-- What follows a text does not complete a `\r\n` at its start. -/
theorem no_crlf_append {c : Char} {cs rest : Str} (hcrlf : ∀ u, c = '\r' → cs = '\n' :: u → False)
    (hc : c = '\r' → cs ≠ []) : ∀ u, c = '\r' → cs ++ rest = '\n' :: u → False := by
  intro u hr hu
  obtain ⟨d, ds, rfl⟩ := List.exists_cons_of_ne_nil (hc hr)
  obtain ⟨rfl, -⟩ := List.cons.inj hu
  exact hcrlf ds hr rfl

/-- The cut goes on after a `\n` as if the text began there. -/
theorem splitlinesAux_append_newline (s acc rest : Str) :
    splitlinesAux (s ++ '\n' :: rest) acc = splitlinesAux (s ++ ['\n']) acc ++ splitlines rest := by
  induction s, acc using splitlinesAux.induct with
  | case1 => rfl
  | case2 acc hne => rfl
  | case3 cs acc ih =>
      show acc.reverse :: splitlinesAux (cs ++ '\n' :: rest) [] =
        acc.reverse :: (splitlinesAux (cs ++ ['\n']) [] ++ splitlines rest)
      rw [ih]
  | case4 c cs acc hcrlf hbreak ih =>
      by_cases hend : c = '\r' ∧ cs = []
      · -- the two characters are one break
        obtain ⟨rfl, rfl⟩ := hend
        rfl
      · have hc : c = '\r' → cs ≠ [] := fun hr hnil => hend ⟨hr, hnil⟩
        rw [List.cons_append, List.cons_append, splitlinesAux.eq_4 _ _ _ (no_crlf_append hcrlf hc),
          splitlinesAux.eq_4 _ _ _ (no_crlf_append hcrlf hc), if_pos hbreak, if_pos hbreak, ih]
        rfl
  | case5 c cs acc hcrlf hbreak ih =>
      have hc : c = '\r' → cs ≠ [] := by
        rintro rfl
        exact absurd (by decide) hbreak
      rw [List.cons_append, List.cons_append, splitlinesAux.eq_4 _ _ _ (no_crlf_append hcrlf hc),
        splitlinesAux.eq_4 _ _ _ (no_crlf_append hcrlf hc), if_neg hbreak, if_neg hbreak, ih]

/-- Reading in text mode moves no cut. -/
theorem splitlinesAux_universalNewlines (s acc : Str) :
    splitlinesAux (universalNewlines s) acc = splitlinesAux s acc := by
  induction s using universalNewlines.induct generalizing acc with
  | case1 => rfl
  | case2 cs ih =>
      rw [universalNewlines]
      show acc.reverse :: splitlinesAux (universalNewlines cs) [] = acc.reverse :: splitlinesAux cs []
      rw [ih]
  | case3 cs hcs ih =>
      have hcrlf : ∀ u, '\r' = '\r' → cs = '\n' :: u → False := fun u _ hu => hcs u hu
      rw [universalNewlines, splitlinesAux.eq_4 _ _ _ hcrlf, if_pos (by decide)]
      · show acc.reverse :: splitlinesAux (universalNewlines cs) [] = acc.reverse :: splitlinesAux cs []
        rw [ih]
      · exact hcs
  | case4 c cs h₁ h₂ ih =>
      have hno : ∀ t u : Str, c = '\r' → t = '\n' :: u → False := fun t u hr _ => h₂ hr
      rw [universalNewlines_cons h₂, splitlinesAux.eq_4 _ _ _ (hno _), splitlinesAux.eq_4 _ _ _ (hno _), ih, ih]

/-- **`splitlines_universalNewlines`** — a file that is read in text mode has the lines of its text. -/
theorem splitlines_universalNewlines (s : Str) : splitlines (universalNewlines s) = splitlines s :=
  splitlinesAux_universalNewlines s []

/-! ## Putting lines together -/

/-- The text of some lines, each ended by a `\n`. -/
def unlines (lines : List Str) : Str := lines.flatMap (· ++ ['\n'])

/-- **`splitlines_lines`** — a text of lines is cut line by line. -/
theorem splitlines_lines (lines : List Str) :
    splitlines (unlines lines) = lines.flatMap fun l => splitlines (l ++ ['\n']) := by
  induction lines with
  | nil => rfl
  | cons l lines ih =>
      rw [List.flatMap_cons, ← ih, unlines, List.flatMap_cons, List.append_assoc]
      exact splitlinesAux_append_newline l [] _

/-- A line without a break is cut off at its end. -/
theorem splitlines_line {l : Str} (h : Unbroken l) : splitlines (l ++ ['\n']) = [l] := by
  have hcut : ∀ acc, splitlinesAux (l ++ ['\n']) acc = [acc.reverse ++ l] := by
    induction l with
    | nil =>
        intro acc
        rw [List.append_nil]
        rfl
    | cons c l ih =>
        intro acc
        obtain ⟨hc, hl⟩ := List.forall_mem_cons.mp h
        have hno : ∀ u, c = '\r' → l ++ ['\n'] = '\n' :: u → False := by
          rintro u rfl -
          exact absurd hc (by decide)
        rw [List.cons_append, splitlinesAux.eq_4 _ _ _ hno, if_neg (by simp [hc]), ih hl]
        simp
  exact hcut []

/-- **`splitlines_unbroken`** — lines without breaks are cut where they were put together. -/
theorem splitlines_unbroken {lines : List Str} (h : ∀ l ∈ lines, Unbroken l) :
    splitlines (unlines lines) = lines := by
  rw [splitlines_lines]
  induction lines with
  | nil => rfl
  | cons l lines ih =>
      obtain ⟨hl, hlines⟩ := List.forall_mem_cons.mp h
      rw [List.flatMap_cons, splitlines_line hl, ih hlines]
      rfl

/-- Lines joined by `\n`, with one more at the end. -/
theorem join_newline {l : Str} {lines : List Str} :
    join ['\n'] (l :: lines) ++ ['\n'] = unlines (l :: lines) := by
  induction lines generalizing l with
  | nil => simp [join, unlines]
  | cons l' lines ih =>
      rw [join, List.append_assoc, ih]
      simp [unlines]

end HummingbirdRpms.Lib.Text
