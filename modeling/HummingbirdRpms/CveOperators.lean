/-
# HummingbirdRpms.CveOperators — the comparisons that are read of an affected range.

Once the spans of a branch are taken out, the pattern `op_re` looks for an operator with white space on
both sides (or a comma or the start of the text before it).  A comparison without a space after its
operator, as `<2.0`, does not match, and neither does a version alone: both are passed over in silence.

**`parseAffectedConstraints_text`** — of a branch, exactly the constraints of its spans and of the
comparisons with a space after their operator are read, the spans first.
-/
import HummingbirdRpms.CveRanges

namespace HummingbirdRpms

open Lib Lib.Text Lib.Regex

/-! ## Where an operator can begin -/

/-- `[\s,]` -/
def isDelimiter (c : Char) : Bool := isSpace c || c = ','

/-- The characters an operator can begin with. -/
def isOperatorStart (c : Char) : Bool :=
  c = '<' || c = '>' || c = '=' || Re.foldEq 'b' c || Re.foldEq 'p' c || Re.foldEq 't' c

theorem not_operatorStart_of_isSpace {c : Char} (h : isSpace c = true) : isOperatorStart c = false := by
  have hne : c ≠ '<' ∧ c ≠ '>' ∧ c ≠ '=' := by
    refine ⟨?_, ?_, ?_⟩
    all_goals
      rintro rfl
      exact absurd h (by decide)
  simp [isOperatorStart, hne, not_foldEq_of_isSpace (a := 'b') (by decide) h,
    not_foldEq_of_isSpace (a := 'p') (by decide) h, not_foldEq_of_isSpace (a := 't') (by decide) h]

theorem not_operatorStart_of_isPart {c : Char} (h : DottedVersion.isPart c = true) :
    isOperatorStart c = false := by
  have hne : c ≠ '<' ∧ c ≠ '>' ∧ c ≠ '=' := by
    refine ⟨?_, ?_, ?_⟩
    all_goals
      rintro rfl
      exact absurd h (by decide)
  simp [isOperatorStart, hne, DottedVersion.not_foldEq (a := 'b') (by decide) h,
    DottedVersion.not_foldEq (a := 'p') (by decide) h, DottedVersion.not_foldEq (a := 't') (by decide) h]

theorem not_delimiter_of_isPart {c : Char} (h : DottedVersion.isPart c = true) :
    isDelimiter c = false := by
  have hne : c ≠ ',' := by
    rintro rfl
    exact absurd h (by decide)
  simp [isDelimiter, DottedVersion.not_isSpace h, hne]

theorem not_operatorStart_of_delimiter {c : Char} (h : isDelimiter c = true) :
    isOperatorStart c = false := by
  simp only [isDelimiter, Bool.or_eq_true, decide_eq_true_eq] at h
  rcases h with h | rfl
  · exact not_operatorStart_of_isSpace h
  · decide

section

variable {t : Str} {s : St} {i : Nat}

theorem run_lit_other {a c : Char} {w u : Str} (h : t.drop s.pos = c :: u) (hne : a ≠ c) :
    run t (.lit (a :: w)) s = [] := by
  apply run_lit_nil
  rw [h, List.cons_prefix_cons]
  exact fun hfirst => hne hfirst.1

theorem getElem?_of_cons {c : Char} {u : Str} (h : t.drop i = c :: u) : t[i]? = some c := by
  rw [← List.head?_drop, h]
  rfl

theorem start_of_lit {a : Char} {w : Str} {e : St} (h : e ∈ run t (.lit (a :: w)) s) :
    t[s.pos]? = some a := by
  obtain ⟨hstart, -⟩ := mem_run_lit.mp h
  obtain ⟨u, hu⟩ := hstart
  exact getElem?_of_cons hu.symm

theorem start_of_ilit {a : Char} {w : Str} {e : St} (h : e ∈ run t (Re.ilit (a :: w)) s) :
    inClass (Re.foldEq a) t[s.pos]? = true := by
  by_contra hnot
  rw [run_ilit_nil (by simpa using hnot)] at h
  exact absurd h List.not_mem_nil

/-- An operator begins with one of its characters. -/
theorem start_of_operator {e : St} (h : e ∈ run t operatorRe s) :
    inClass isOperatorStart t[s.pos]? = true := by
  have hlit : ∀ a w, isOperatorStart a = true → e ∈ run t (.lit (a :: w)) s →
      inClass isOperatorStart t[s.pos]? = true := by
    intro a w ha he
    rw [start_of_lit he]
    exact ha
  have hilit : ∀ a w, (∀ c, Re.foldEq a c = true → isOperatorStart c = true) →
      e ∈ run t (Re.ilit (a :: w)) s → inClass isOperatorStart t[s.pos]? = true := by
    intro a w ha he
    obtain ⟨c, hget, hc⟩ := inClass_iff.mp (start_of_ilit he)
    exact inClass_iff.mpr ⟨c, hget, ha c hc⟩
  obtain ⟨r, hr, he⟩ := mem_run_oneOf.mp h
  simp only [List.mem_cons, List.not_mem_nil, or_false] at hr
  rcases hr with rfl | rfl | rfl | rfl | rfl | rfl | rfl | rfl
  · exact hlit '<' _ (by decide) he
  · exact hlit '>' _ (by decide) he
  · exact hlit '<' _ (by decide) he
  · exact hlit '>' _ (by decide) he
  · exact hlit '=' _ (by decide) he
  · exact hilit 'b' _ (fun c hc => by simp [isOperatorStart, hc]) he
  · obtain ⟨m, hm, -⟩ := mem_run_seq_cons.mp he
    have hm : m ∈ run t (Re.ilit ('p' :: "rior".toList)) s := hm
    obtain ⟨c, hget, hc⟩ := inClass_iff.mp (start_of_ilit hm)
    exact inClass_iff.mpr ⟨c, hget, by simp [isOperatorStart, hc]⟩
  · exact hilit 't' _ (fun c hc => by simp [isOperatorStart, hc]) he

theorem run_operator_nil (h : inClass isOperatorStart t[s.pos]? = false) : run t operatorRe s = [] := by
  rw [List.eq_nil_iff_forall_not_mem]
  intro e he
  rw [start_of_operator he] at h
  exact absurd h (by decide)

/-- The ways of an operator, alternative by alternative. -/
theorem run_operator : run t operatorRe s =
    run t (.lit ['<', '=']) s ++ (run t (.lit ['>', '=']) s ++ (run t (.lit ['<']) s ++
      (run t (.lit ['>']) s ++ (run t (.lit ['=']) s ++ (run t (Re.ilit "before") s ++
        (run t (.cat (Re.ilit "prior") (.cat (Re.some1 isSpace) (Re.ilit "to"))) s ++
          run t (Re.ilit "through") s)))))) := rfl

/-- At a sign, only the signs match. -/
theorem run_operator_sign {c : Char} {u : Str} (h : t.drop s.pos = c :: u)
    (hc : Re.foldEq 'b' c = false ∧ Re.foldEq 'p' c = false ∧ Re.foldEq 't' c = false) :
    run t operatorRe s =
      run t (.lit ['<', '=']) s ++ (run t (.lit ['>', '=']) s ++ (run t (.lit ['<']) s ++
        (run t (.lit ['>']) s ++ run t (.lit ['=']) s))) := by
  obtain ⟨hb, hp, ht⟩ := hc
  have hget := getElem?_of_cons h
  have hbefore : run t (Re.ilit "before") s = [] := run_ilit_nil (by rwa [hget])
  have hprior : run t (.cat (Re.ilit "prior") (.cat (Re.some1 isSpace) (Re.ilit "to"))) s = [] :=
    run_ilit_cat_nil (by rwa [hget])
  have hthrough : run t (Re.ilit "through") s = [] := run_ilit_nil (by rwa [hget])
  rw [run_operator, hbefore, hprior, hthrough]
  simp only [List.append_nil]

/-- At a letter, only the words match. -/
theorem run_operator_word {c : Char} {u : Str} (h : t.drop s.pos = c :: u)
    (hc : '<' ≠ c ∧ '>' ≠ c ∧ '=' ≠ c) :
    run t operatorRe s = run t (Re.ilit "before") s ++
      (run t (.cat (Re.ilit "prior") (.cat (Re.some1 isSpace) (Re.ilit "to"))) s ++
        run t (Re.ilit "through") s) := by
  obtain ⟨hlt, hgt, heq⟩ := hc
  rw [run_operator, run_lit_other h hlt, run_lit_other h hgt, run_lit_other h hlt, run_lit_other h hgt,
    run_lit_other h heq]
  simp only [List.nil_append]

theorem longest_of_run {r : Re} {n : Nat} (h : run t r s = [{ s with pos := s.pos + n }]) :
    Longest t r s n := ⟨[], h, by simp⟩

/-- A comparison's operator is matched as a whole, when no `=` follows it. -/
theorem longest_operator {cmp : Comparator} {u : Str} (h : t.drop s.pos = cmp.text ++ u)
    (hu : u.head? ≠ some '=') : Longest t operatorRe s cmp.text.length := by
  cases cmp with
  | le =>
      have h : t.drop s.pos = '<' :: '=' :: u := h
      refine ⟨[{ s with pos := s.pos + 1 }], ?_, ?_⟩
      · rw [run_operator_sign h (by decide)]
        simp only [run_lit, h]
        rfl
      · intro m hm
        exact ⟨1, Nat.one_pos, Nat.one_lt_two, List.mem_singleton.mp hm⟩
  | ge =>
      have h : t.drop s.pos = '>' :: '=' :: u := h
      refine ⟨[{ s with pos := s.pos + 1 }], ?_, ?_⟩
      · rw [run_operator_sign h (by decide)]
        simp only [run_lit, h]
        rfl
      · intro m hm
        exact ⟨1, Nat.one_pos, Nat.one_lt_two, List.mem_singleton.mp hm⟩
  | lt =>
      have h : t.drop s.pos = '<' :: u := h
      apply longest_of_run
      rw [run_operator_sign h (by decide)]
      simp only [run_lit, h]
      cases u with
      | nil => rfl
      | cons c u =>
          have hc : c ≠ '=' := by simpa using hu
          simp [hc.symm]
          rfl
  | gt =>
      have h : t.drop s.pos = '>' :: u := h
      apply longest_of_run
      rw [run_operator_sign h (by decide)]
      simp only [run_lit, h]
      cases u with
      | nil => rfl
      | cons c u =>
          have hc : c ≠ '=' := by simpa using hu
          simp [hc.symm]
          rfl
  | eq =>
      have h : t.drop s.pos = '=' :: u := h
      apply longest_of_run
      rw [run_operator_sign h (by decide)]
      simp only [run_lit, h]
      cases u with
      | nil => rfl
      | cons c u => simp; rfl
  | before =>
      have hcons : t.drop s.pos = 'b' :: ("efore".toList ++ u) := h
      have hget := getElem?_of_cons hcons
      apply longest_of_run
      have hprior : run t (.cat (Re.ilit "prior") (.cat (Re.some1 isSpace) (Re.ilit "to"))) s = [] :=
        run_ilit_cat_nil (by rw [hget]; decide)
      have hthrough : run t (Re.ilit "through") s = [] := run_ilit_nil (by rw [hget]; decide)
      rw [run_operator_word hcons (by decide), hprior, hthrough, run_ilit (h ▸ List.prefix_append _ _)]
      rfl
  | priorTo =>
      have hprior : t.drop s.pos = "prior".toList ++ ([' '] ++ ("to".toList ++ u)) := h
      have hspace := drop_add_length hprior
      have hto := drop_add_length hspace
      have hcons : t.drop s.pos = 'p' :: ("rior".toList ++ ([' '] ++ ("to".toList ++ u))) := h
      have hget := getElem?_of_cons hcons
      apply longest_of_run
      have hbefore : run t (Re.ilit "before") s = [] := run_ilit_nil (by rw [hget]; decide)
      have hthrough : run t (Re.ilit "through") s = [] := run_ilit_nil (by rw [hget]; decide)
      rw [run_operator_word hcons (by decide), hbefore, hthrough, run_cat,
        run_ilit (hprior ▸ List.prefix_append _ _), List.flatMap_singleton,
        (longest_some1 hspace (by decide) (by decide) (by rfl)).run_cat, run_ilit]
      · rfl
      · rw [hto]
        exact List.prefix_append _ _
      · intro k h0 hk
        simp at hk
        omega
  | through =>
      have hcons : t.drop s.pos = 't' :: ("hrough".toList ++ u) := h
      have hget := getElem?_of_cons hcons
      apply longest_of_run
      have hbefore : run t (Re.ilit "before") s = [] := run_ilit_nil (by rw [hget]; decide)
      have hprior : run t (.cat (Re.ilit "prior") (.cat (Re.some1 isSpace) (Re.ilit "to"))) s = [] :=
        run_ilit_cat_nil (by rw [hget]; decide)
      rw [run_operator_word hcons (by decide), hprior, hbefore, run_ilit (h ▸ List.prefix_append _ _)]
      rfl

/-- No operator begins inside `prior to`. -/
theorem run_operator_to {u : Str} (h : t.drop s.pos = 't' :: 'o' :: u) : run t operatorRe s = [] := by
  have hget := getElem?_of_cons h
  have hnext : t[s.pos + 1]? = some 'o' := by
    rw [← List.getElem?_drop, h]
    rfl
  have hbefore : run t (Re.ilit "before") s = [] := run_ilit_nil (by rw [hget]; decide)
  have hprior : run t (.cat (Re.ilit "prior") (.cat (Re.some1 isSpace) (Re.ilit "to"))) s = [] :=
    run_ilit_cat_nil (by rw [hget]; decide)
  have hthrough : run t (Re.ilit "through") s = [] := by
    show run t (.cat (.chr (Re.foldEq 't')) (Re.ilit ('h' :: "rough".toList))) s = []
    rw [run_cat, run_chr, hget, if_pos (by decide), List.flatMap_singleton, run_ilit_nil]
    show inClass (Re.foldEq 'h') t[s.pos + 1]? = false
    rw [hnext]
    decide
  rw [run_operator_word h (by decide), hbefore, hprior, hthrough]
  rfl

end

theorem gap_version_head {gap : Gap} {v : DottedVersion} {u : Str} :
    (gap.text ++ (v.text ++ u)).head? ≠ some '=' := by
  intro h
  cases hgap : gap.text with
  | nil =>
      obtain ⟨d, w, htext, -⟩ := v.text_head
      rw [hgap, htext] at h
      obtain rfl : d = '=' := by simpa using h
      exact absurd (v.isPart_of_mem (htext ▸ List.mem_cons_self)) (by decide)
  | cons c w =>
      rw [hgap] at h
      obtain rfl : c = '=' := by simpa using h
      exact absurd (gap.blank '=' (hgap ▸ List.mem_cons_self)) (by decide)

/-- The only delimiter inside an operator is the space of `prior to`. -/
theorem delimiter_inside {cmp : Comparator} : ∀ j < cmp.text.length,
    inClass isDelimiter cmp.text[j]? = true → cmp.text.drop (j + 1) = ['t', 'o'] := by
  cases cmp
  all_goals decide

theorem Comma.text_ne_nil (comma : Comma) : comma.text ≠ [] := by
  simp [Comma.text]

theorem Comma.delimiter (comma : Comma) : ∀ c ∈ comma.text, isDelimiter c = true := by
  intro c hc
  simp only [Comma.text, List.mem_append, List.mem_singleton] at hc
  rcases hc with (hc | rfl) | hc
  · rw [isDelimiter, comma.left.blank c hc, Bool.true_or]
  · decide
  · rw [isDelimiter, comma.right.blank c hc, Bool.true_or]

theorem Comparator.text_ne_nil (cmp : Comparator) : cmp.text ≠ [] := by
  cases cmp
  all_goals decide

theorem Item.cutText_ne_nil (item : Item) : item.cutText ≠ [] := by
  cases item with
  | compare cmp gap bound => simp [Item.cutText, Item.text, cmp.text_ne_nil]
  | bare bound => exact HummingbirdRpms.text_ne_nil bound
  | span _ _ _ _ _ => exact List.cons_ne_nil ' ' []

/-- What can follow a condition: a delimiter, or nothing. -/
def Delimited (u : Str) : Prop := ∀ c ∈ u.head?, isDelimiter c = true

theorem delimited_restCut {rest : List (Comma × Item)} : Delimited (restCut rest) := by
  cases rest with
  | nil => exact fun c hc => absurd hc (by simp [restCut])
  | cons r rest =>
      obtain ⟨comma, item⟩ := r
      intro c hc
      have hcut : restCut ((comma, item) :: rest) =
          comma.left.text ++ ',' :: (comma.right.text ++ item.cutText ++ restCut rest) := by
        simp [restCut, Comma.text]
      rw [hcut] at hc
      cases hleft : comma.left.text with
      | nil =>
          rw [hleft] at hc
          obtain rfl : ',' = c := by simpa using hc
          decide
      | cons b w =>
          rw [hleft] at hc
          obtain rfl : b = c := by simpa using hc
          rw [isDelimiter, comma.left.blank b (hleft ▸ List.mem_cons_self), Bool.true_or]

theorem mapOperator_text {cmp : Comparator} : mapOperator cmp.text = cmp.op := by
  cases cmp
  all_goals decide

section

variable [UnicodeTables] {t : Str} {s : St} {i : Nat}

/-- What follows a delimiter in `op_re`. -/
def comparisonRe : Re :=
  Re.seq [.group 1 operatorRe, Re.some1 isSpace, .group 2 rangeVersionRe]

/-- The end of a comparison: the space and the version. -/
def boundRe : Re := Re.seq [Re.some1 isSpace, .group 2 rangeVersionRe]

theorem run_op : run t opRe s =
    (run t (.alt .bos (.chr isDelimiter)) s).flatMap (run t comparisonRe) := rfl

theorem op_none (hstart : i = 0 → run t comparisonRe ⟨0, []⟩ = [])
    (hdelimiter : inClass isDelimiter t[i]? = true → run t comparisonRe ⟨i + 1, []⟩ = []) :
    matchAt opRe t i = none := by
  apply matchAt_eq_none_of_run
  rw [run_op, List.flatMap_eq_nil_iff]
  intro m hm
  rcases mem_run_alt.mp hm with hm | hm
  · obtain ⟨rfl, rfl⟩ := mem_run_bos.mp hm
    exact hstart rfl
  · obtain ⟨hc, rfl⟩ := mem_run_chr.mp hm
    exact hdelimiter hc

theorem run_comparison_nil (h : inClass isOperatorStart t[s.pos]? = false) :
    run t comparisonRe s = [] := by
  show run t (.cat (.group 1 operatorRe) boundRe) s = []
  rw [run_cat, run_group, run_operator_nil h]
  rfl

/-- From inside an operator on, there is no space with a version after it. -/
theorem run_bound_inside {cmp : Comparator} {u : Str} {caps : List (Nat × Str)} {k : Nat}
    (h : t.drop i = cmp.text ++ u) (h0 : 0 < k) (hk : k < cmp.text.length) :
    run t boundRe ⟨i + k, caps⟩ = [] := by
  have hinside : ∀ k < cmp.text.length, 0 < k → ∃ c ∈ ((cmp.text.drop k).dropWhile isSpace).head?,
      c.toNat < 128 ∧ isAsciiDigit c = false ∧ Re.foldEq 'v' c = false := by
    cases cmp
    all_goals decide
  obtain ⟨c, hc, hlt, hd, hv⟩ := hinside k hk h0
  have hne : (cmp.text.drop k).dropWhile isSpace ≠ [] := by
    intro hnil
    rw [hnil] at hc
    exact absurd hc (by simp)
  refine run_spaces_nil (drop_drop_stretch h hk) (fun m hm => run_version_group_nil hm) ?_
  intro m hm
  have hget : t[m.pos]? = some c := by
    rw [← List.head?_drop, hm, List.dropWhile_append, if_neg (by simpa using hne),
      List.head?_append_of_ne_nil _ hne]
    exact hc
  show run t (.group 2 rangeVersionRe) m = []
  rw [run_group, run_version_nil]
  · rfl
  · rw [hget]
    exact (isDigit_of_lt hlt).trans hd
  · rw [hget]
    exact hv

/-- A comparison whose operator is there depends on what follows the operator. -/
theorem run_comparison {cmp : Comparator} {u : Str} (h : t.drop s.pos = cmp.text ++ u)
    (hu : u.head? ≠ some '=') :
    run t comparisonRe s = run t boundRe ⟨s.pos + cmp.text.length, (1, cmp.text) :: s.caps⟩ :=
  (longest_operator h hu).run_group_cat h fun _ _ h0 hk => run_bound_inside h h0 hk

/-- A comparison with a space after its operator is matched. -/
theorem comparison_match {cmp : Comparator} {gap : Gap} {bound : DottedVersion} {u : Str}
    (hgap : gap.text ≠ []) (h : t.drop s.pos = cmp.text ++ (gap.text ++ (bound.text ++ u)))
    (hu : inClass isVersionChar u.head? = false) :
    (run t comparisonRe s).head? =
      some ⟨s.pos + cmp.text.length + gap.text.length + bound.text.length,
        (2, bound.text) :: (1, cmp.text) :: s.caps⟩ := by
  rw [run_comparison h gap_version_head]
  exact run_gap_version (s := ⟨s.pos + cmp.text.length, _⟩) hgap (drop_add_length h) hu

/-- A comparison without one is not. -/
theorem comparison_none {cmp : Comparator} {gap : Gap} {bound : DottedVersion} {u : Str}
    (hgap : gap.text = []) (h : t.drop s.pos = cmp.text ++ (gap.text ++ (bound.text ++ u))) :
    run t comparisonRe s = [] := by
  rw [run_comparison h gap_version_head]
  apply run_some1_cat_nil
  show inClass isSpace t[s.pos + cmp.text.length]? = false
  rw [← List.head?_drop, drop_add_length h, hgap]
  exact not_isSpace_of_text

/-! ## What the operator pattern finds -/

theorem run_comparison_part {v : DottedVersion} {u : Str} (h : t.drop s.pos = v.text ++ u) :
    run t comparisonRe s = [] := by
  apply run_comparison_nil
  obtain ⟨d, w, htext, -⟩ := v.text_head
  rw [← List.head?_drop, h, htext]
  exact not_operatorStart_of_isPart (v.isPart_of_mem (htext ▸ List.mem_cons_self))

/-- Where a condition is not read, the operator pattern fails. -/
theorem run_comparison_item {item : Item} {u : Str} (hitem : item.ofComparison = [])
    (h : t.drop s.pos = item.cutText ++ u) : run t comparisonRe s = [] := by
  cases item with
  | compare cmp gap bound =>
      have hgap : gap.text = [] := by
        by_contra hne
        rw [Item.ofComparison, if_neg hne] at hitem
        exact absurd hitem (List.cons_ne_nil _ _)
      apply @comparison_none _ _ _ _ _ bound u hgap
      rw [h, Item.cutText, Item.text, List.append_assoc, List.append_assoc]
      simp
  | bare bound => exact run_comparison_part h
  | span lower gap gap' nonempty upper =>
      apply run_comparison_nil
      rw [← List.head?_drop, h]
      rfl

theorem Delimited.run_nil {u : Str} (h : t.drop s.pos = u) (hu : Delimited u) :
    run t comparisonRe s = [] := by
  apply run_comparison_nil
  rw [← List.head?_drop, h]
  cases u with
  | nil => rfl
  | cons c u => exact not_operatorStart_of_delimiter (hu c rfl)

/-- No comparison is found from inside a version on. -/
theorem op_none_version {v : DottedVersion} {u : Str} (h : t.drop i = v.text ++ u) :
    ∀ j < v.text.length, matchAt opRe t (i + j) = none := by
  intro j hj
  have hpart : inClass isDelimiter t[i + j]? = false := by
    rw [getElem?_of_drop h hj, List.getElem?_eq_getElem hj]
    exact not_delimiter_of_isPart (v.isPart_of_mem (List.getElem_mem hj))
  refine op_none ?_ fun hc => absurd hc (by simp [hpart])
  intro hzero
  apply run_comparison_nil
  rw [← hzero, getElem?_of_drop h hj, List.getElem?_eq_getElem hj]
  exact not_operatorStart_of_isPart (v.isPart_of_mem (List.getElem_mem hj))

/-- Nor from inside a condition that is not read. -/
theorem op_none_item {item : Item} {u : Str} (hitem : item.ofComparison = [])
    (h : t.drop i = item.cutText ++ u) (hu : Delimited u) :
    ∀ j < item.cutText.length, matchAt opRe t (i + j) = none := by
  intro j hj
  have hstart : i + j = 0 → run t comparisonRe ⟨0, []⟩ = [] := by
    intro hzero
    obtain ⟨rfl, rfl⟩ : i = 0 ∧ j = 0 := by omega
    exact run_comparison_item (s := ⟨0, []⟩) hitem h
  cases item with
  | compare cmp gap bound =>
      have hgap : gap.text = [] := by
        by_contra hne
        rw [Item.ofComparison, if_neg hne] at hitem
        exact absurd hitem (List.cons_ne_nil _ _)
      have hcut : Item.cutText (.compare cmp gap bound) = cmp.text ++ bound.text := by
        rw [Item.cutText, Item.text, hgap, List.append_nil]
        simp
      rw [hcut] at h hj
      rw [List.append_assoc] at h
      by_cases hcmp : j < cmp.text.length
      · refine op_none hstart fun hc => ?_
        rw [getElem?_of_drop h hcmp] at hc
        have hto : t.drop (i + j + 1) = 't' :: 'o' :: (bound.text ++ u) := by
          rw [Nat.add_assoc, ← List.drop_drop, h, List.drop_append_of_le_length hcmp,
            delimiter_inside j hcmp hc]
          rfl
        show run t (.cat (.group 1 operatorRe) boundRe) _ = []
        rw [run_cat, run_group, run_operator_to (s := ⟨i + j + 1, []⟩) hto]
        rfl
      · have hbound := drop_add_length h
        have hlt : j - cmp.text.length < bound.text.length := by
          rw [List.length_append] at hj
          omega
        have hnone := op_none_version hbound _ hlt
        rwa [show i + cmp.text.length + (j - cmp.text.length) = i + j by omega] at hnone
  | bare bound => exact op_none_version h j hj
  | span lower gap gap' nonempty upper =>
      obtain rfl : j = 0 := by
        have hone : j < 1 := hj
        omega
      refine op_none hstart fun _ => ?_
      exact hu.run_nil (s := ⟨i + 1, []⟩) (drop_add_length h)

theorem not_version_of_delimited {u : Str} (hu : Delimited u) : inClass isVersionChar u.head? = false := by
  cases u with
  | nil => rfl
  | cons c u =>
      have hc := hu c rfl
      simp only [isDelimiter, Bool.or_eq_true, decide_eq_true_eq] at hc
      rcases hc with hc | rfl
      · exact not_isVersionChar_of_isSpace hc
      · exact not_isVersionChar_comma

/-- The constraint a match of `op_re` is read as. -/
def opConstraint (m : Match) : Constraint := (mapOperator (m.group 1), m.group 2)

/-- A position where a delimiter, or the start of the text, comes before a condition. -/
def Precedes (t : Str) (before i : Nat) : Prop :=
  before = i ∧ i = 0 ∨ before + 1 = i ∧ inClass isDelimiter t[before]? = true

theorem run_comparison_delimiter (h : inClass isDelimiter t[s.pos]? = true) :
    run t comparisonRe s = [] := by
  obtain ⟨c, hget, hc⟩ := inClass_iff.mp h
  apply run_comparison_nil
  rw [hget]
  exact not_operatorStart_of_delimiter hc

theorem op_match {before : Nat} {e : St} (hbefore : Precedes t before i)
    (h : (run t comparisonRe ⟨i, []⟩).head? = some e) :
    matchAt opRe t before = some ⟨before, e.pos, e.caps⟩ := by
  have hrun : (run t opRe ⟨before, []⟩).head? = some e := by
    rw [run_op, run_alt, List.flatMap_append]
    rcases hbefore with ⟨rfl, rfl⟩ | ⟨rfl, hc⟩
    · have hbos : run t .bos ⟨0, []⟩ = [⟨0, []⟩] := rfl
      rw [hbos, List.flatMap_singleton, List.head?_append, h]
      rfl
    · have hbos : (run t .bos ⟨before, []⟩).flatMap (run t comparisonRe) = [] := by
        rw [List.flatMap_eq_nil_iff]
        intro m hm
        obtain ⟨-, rfl⟩ := mem_run_bos.mp hm
        exact run_comparison_delimiter hc
      rw [hbos, List.nil_append, run_chr, if_pos hc, List.flatMap_singleton]
      exact h
  rw [matchAt, hrun]
  rfl

/-- Where a condition is not read, nothing is found from before it to its end. -/
theorem op_item_none {item : Item} {u : Str} {ms : List Match} {before : Nat}
    (hitem : item.ofComparison = []) (hdrop : t.drop i = item.cutText ++ u)
    (hle : i + item.cutText.length ≤ t.length) (hu : Delimited u) (hbefore : Precedes t before i)
    (hrest : Scanned opRe t (i + item.cutText.length) ms) : Scanned opRe t before ms := by
  have hfrom : Scanned opRe t i ms := .skips (by omega) (op_none_item hitem hdrop hu) hrest
  rcases hbefore with ⟨rfl, rfl⟩ | ⟨rfl, hc⟩
  · exact hfrom
  · refine .skip (by omega) (op_none ?_ fun _ => ?_) hfrom
    · rintro rfl
      exact run_comparison_delimiter hc
    · exact run_comparison_item hitem hdrop

/-- Of a condition, `op_re` finds the comparison, if it is read. -/
theorem op_item {item : Item} {u : Str} {ms : List Match} {before : Nat}
    (hdrop : t.drop i = item.cutText ++ u) (hle : i + item.cutText.length ≤ t.length)
    (hu : Delimited u) (hbefore : Precedes t before i)
    (hrest : Scanned opRe t (i + item.cutText.length) ms) :
    ∃ ms', Scanned opRe t before ms' ∧
      ms'.map opConstraint = item.ofComparison ++ ms.map opConstraint := by
  by_cases hitem : item.ofComparison = []
  · refine ⟨ms, op_item_none hitem hdrop hle hu hbefore hrest, ?_⟩
    rw [hitem, List.nil_append]
  · cases item with
    | bare _ => exact absurd rfl hitem
    | span _ _ _ _ _ => exact absurd rfl hitem
    | compare cmp gap bound =>
        have hgap : gap.text ≠ [] := by
          intro hnil
          exact hitem (if_pos hnil)
        have hread : t.drop i = cmp.text ++ (gap.text ++ (bound.text ++ u)) := by
          rw [hdrop, Item.cutText, Item.text, List.append_assoc, List.append_assoc]
          simp
        have hlen : (Item.compare cmp gap bound).cutText.length =
            cmp.text.length + gap.text.length + bound.text.length := by
          rw [Item.cutText, Item.text, List.length_append, List.length_append]
          simp
        have hmatch := op_match hbefore
          (comparison_match (s := ⟨i, []⟩) hgap hread (not_version_of_delimited hu))
        have hpos := List.length_pos_of_ne_nil (text_ne_nil bound)
        have hstart : before ≤ i := by
          rcases hbefore with ⟨rfl, -⟩ | ⟨rfl, -⟩
          · exact le_rfl
          · exact Nat.le_succ before
        refine ⟨_ :: ms, .take ?_ hmatch ?_ ?_, ?_⟩
        · omega
        · dsimp only
          omega
        · rwa [hlen, ← Nat.add_assoc, ← Nat.add_assoc] at hrest
        · rw [List.map_cons, Item.ofComparison, if_neg hgap]
          refine congrArg (· :: ms.map opConstraint) ?_
          exact congrArg (·, bound.text) mapOperator_text

theorem op_none_end (hpos : 0 < t.length) : matchAt opRe t t.length = none := by
  refine op_none (by omega) fun hc => ?_
  rw [List.getElem?_eq_none le_rfl] at hc
  exact absurd hc (by decide)

/-- The comparisons of the conditions after the first. -/
theorem op_rest {rest : List (Comma × Item)} (h0 : 0 < i) (hi : i ≤ t.length)
    (h : t.drop i = restCut rest) :
    ∃ ms, Scanned opRe t i ms ∧
      ms.map opConstraint = rest.flatMap fun r => r.2.ofComparison := by
  induction rest generalizing i with
  | nil =>
      obtain rfl : i = t.length := le_antisymm hi (List.drop_eq_nil_iff.mp h)
      exact ⟨[], .skip le_rfl (op_none_end h0) (.stop (Nat.lt_succ_self _)), rfl⟩
  | cons r rest ih =>
      obtain ⟨comma, item⟩ := r
      have hcomma : t.drop i = comma.text ++ (item.cutText ++ restCut rest) := by
        rw [h]
        simp [restCut]
      have hle := add_length_le hcomma hi
      have hitem := drop_add_length hcomma
      have hle' := add_length_le hitem hle
      obtain ⟨ms, hms, hcs⟩ := ih (by omega) hle' (drop_add_length hitem)
      have hlen : 0 < comma.text.length := List.length_pos_of_ne_nil comma.text_ne_nil
      have hdelimiter : ∀ j < comma.text.length, inClass isDelimiter t[i + j]? = true :=
        fun j hj => inClass_of_drop hcomma hj fun c hc => comma.delimiter c hc
      -- the last character of the comma's text is the delimiter of the condition
      have hbefore : Precedes t (i + (comma.text.length - 1)) (i + comma.text.length) :=
        Or.inr ⟨by omega, hdelimiter _ (by omega)⟩
      obtain ⟨ms', hms', hcs'⟩ := op_item hitem hle' delimited_restCut hbefore hms
      refine ⟨ms', .skips (by omega) (fun j hj => ?_) hms', ?_⟩
      · refine op_none (by omega) fun _ => ?_
        exact run_comparison_delimiter (s := ⟨i + j + 1, []⟩) (hdelimiter (j + 1) (by omega))
      · rw [hcs', hcs]
        rfl

/-- The operator pattern finds the comparisons of a branch that have a space after their operator. -/
theorem op_branch (b : Branch) :
    (finditer opRe (b.first.cutText ++ restCut b.rest)).map opConstraint =
      b.items.flatMap Item.ofComparison := by
  have hfirst : (b.first.cutText ++ restCut b.rest).drop 0 = b.first.cutText ++ restCut b.rest := rfl
  have hle := add_length_le hfirst (Nat.zero_le _)
  have hpos : 0 < 0 + b.first.cutText.length := by
    rw [Nat.zero_add]
    exact List.length_pos_of_ne_nil b.first.cutText_ne_nil
  obtain ⟨ms, hms, hcs⟩ := op_rest hpos hle (drop_add_length hfirst)
  obtain ⟨ms', hms', hcs'⟩ := op_item hfirst hle delimited_restCut (Or.inl ⟨rfl, rfl⟩) hms
  rw [hms'.finditer_eq, hcs', hcs]
  simp [Branch.items, List.flatMap_map]

end

/-! ## The constraints of a branch -/

theorem DottedVersion.head_solid (v : DottedVersion) : ∃ c ∈ v.text.head?, isSpace c = false := by
  obtain ⟨d, w, htext, -⟩ := v.text_head
  exact ⟨d, by rw [htext]; rfl, not_isSpace (v.isPart_of_mem (htext ▸ List.mem_cons_self))⟩

theorem DottedVersion.last_solid (v : DottedVersion) : ∃ c ∈ v.text.getLast?, isSpace c = false := by
  have hlast := List.getLast?_eq_some_getLast (HummingbirdRpms.text_ne_nil v)
  exact ⟨_, hlast, not_isSpace (v.isPart_of_mem (List.getLast_mem _))⟩

theorem DottedVersion.solid (v : DottedVersion) : Solid v.text := ⟨v.head_solid, v.last_solid⟩

theorem Comparator.head_solid (cmp : Comparator) : ∃ c ∈ cmp.text.head?, isSpace c = false := by
  cases cmp
  all_goals decide

theorem Item.solid (item : Item) : Solid item.text := by
  cases item with
  | compare cmp gap bound => exact .append cmp.head_solid bound.last_solid
  | bare bound => exact bound.solid
  | span lower gap gap' _ upper =>
      have h : Solid (lower.text ++ (gap.text ++ "through".toList ++ gap'.text) ++ upper.text) :=
        .append lower.head_solid upper.last_solid
      simpa only [Item.text, List.append_assoc] using h

theorem Branch.solid (b : Branch) : Solid b.text := by
  rcases List.eq_nil_or_concat b.rest with hrest | ⟨rest, ⟨comma, item⟩, hrest⟩
  · rw [Branch.text, hrest, restText, List.flatMap_nil, List.append_nil]
    exact b.first.solid
  · have h : Solid (b.first.text ++ (restText rest ++ comma.text) ++ item.text) :=
      .append b.first.solid.head item.solid.last
    rw [Branch.text, hrest]
    simpa [restText] using h

/-- **`parseAffectedConstraints_text`** — of a branch, the constraints of its spans are read and those
of the comparisons with a space after their operator, and no others. -/
theorem parseAffectedConstraints_text [UnicodeTables] (b : Branch) :
    parseAffectedConstraints b.text =
      b.items.flatMap Item.ofSpan ++ b.items.flatMap Item.ofComparison := by
  obtain ⟨hspans, hrest⟩ := span_branch b
  have hops := op_branch b
  rw [parseAffectedConstraints, strip_solid b.solid, if_neg b.solid.ne_nil]
  dsimp only
  rw [hspans, hrest]
  exact congrArg _ hops

end HummingbirdRpms
