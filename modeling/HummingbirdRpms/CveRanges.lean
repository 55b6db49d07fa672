/-
# HummingbirdRpms.CveRanges — affected ranges, as the CVE helper reads them.

An affected range is a text: branches separated by `or` or `;`, each of them comparisons and spans
separated by commas.  The helper (`.cursor/skills/cve/lib/spec.py`) splits it, and reads a branch with
two patterns: one takes out the spans `A through B`, the other finds the comparisons in what is left.
What neither pattern matches is not read at all.

The grammar of these texts stands here on its own (`Item`, `Branch`), with the meaning of each part.
**`span_branch`** says what the first pattern does to a branch: it finds exactly its spans, and leaves
the rest of the text as it is.
-/
import HummingbirdRpms.CveVersions

namespace HummingbirdRpms

open Lib Lib.Text Lib.Regex

/-! ## Reading a range -/

section

variable [UnicodeTables]

/-- `[\w.*+-]` -/
def isVersionChar (c : Char) : Bool := isWord c || c = '.' || c = '*' || c = '+' || c = '-'

/-- `v?\d[\w.*+-]*` under `re.IGNORECASE` -/
def rangeVersionRe : Re :=
  Re.seq [Re.opt (.chr (Re.foldEq 'v')), .chr isDigit, .many true isVersionChar]

/-- `span_re` -/
def spanRe : Re :=
  Re.seq [.group 1 rangeVersionRe, Re.some1 isSpace, Re.ilit "through", Re.some1 isSpace,
    .group 2 rangeVersionRe]

/-- The operators of `op_re`. -/
def operatorRe : Re :=
  Re.oneOf [.lit "<=", .lit ">=", .lit "<", .lit ">", .lit "=", Re.ilit "before",
    Re.seq [Re.ilit "prior", Re.some1 isSpace, Re.ilit "to"], Re.ilit "through"]

/-- `op_re` -/
def opRe : Re :=
  Re.seq [.alt .bos (.chr fun c => isSpace c || c = ','), .group 1 operatorRe, Re.some1 isSpace,
    .group 2 rangeVersionRe]

/-- A constraint: an operator and a version. -/
abbrev Constraint := Str × Str

/-- `raw_op`, mapped. -/
def mapOperator (found : Str) : Str :=
  let rawOp := sub (Re.some1 isSpace) (fun _ => " ") (lowerAscii found)
  ([("before".toList, "<".toList), ("prior to".toList, "<".toList),
    ("through".toList, "<=".toList)].lookup rawOp).getD rawOp

/-- The two constraints of a span. -/
def spanConstraints (m : Match) : List Constraint := [(">=", m.group 1), ("<=", m.group 2)]

/-- `parse_affected_constraints` -/
def parseAffectedConstraints (affected : Str) : List Constraint :=
  let text := strip affected
  if text = [] then []
  else
    let rest := sub spanRe (fun _ => " ") text
    (finditer spanRe text).flatMap spanConstraints ++
      (finditer opRe rest).map fun m => (mapOperator (m.group 1), m.group 2)

/-- Whether a comparison satisfies an operator; `none` for an operator that is not known. -/
def opHolds (op : Str) (cmp : Ordering) : Option Bool :=
  if op = "<" then some (cmp = .lt)
  else if op = "<=" then some (cmp ≠ .gt)
  else if op = ">" then some (cmp = .gt)
  else if op = ">=" then some (cmp ≠ .lt)
  else if op = "=" then some (cmp = .eq)
  else none

/-- The loop of `version_satisfies`. -/
def satisfiesAll (version : Str) : List Constraint → Option Bool
  | [] => some true
  | (op, bound) :: constraints => do
      if ← opHolds op (← versionCmp version bound) then satisfiesAll version constraints
      else return false

/-- `version_satisfies` -/
def versionSatisfies (version : Str) (constraints : List Constraint) : Option Bool :=
  if constraints = [] then none else satisfiesAll version constraints

/-- `\s+or\s+|;` under `re.IGNORECASE` -/
def branchSeparatorRe : Re :=
  .alt (Re.seq [Re.some1 isSpace, Re.ilit "or", Re.some1 isSpace]) (.lit ";")

/-- `split_or_branches` -/
def splitOrBranches (text : Str) : List Str :=
  if text = [] then [] else ((split branchSeparatorRe text).map strip).filter (· ≠ [])

/-- The loop of `version_satisfies_any`. -/
def satisfiesAny (version : Str) : List (List Constraint) → (anyUnknown : Bool) → Option Bool
  | [], anyUnknown => if anyUnknown then none else some false
  | constraints :: branches, anyUnknown =>
      match versionSatisfies version constraints with
      | some true => some true
      | some false => satisfiesAny version branches anyUnknown
      | none => satisfiesAny version branches true

/-- `version_satisfies_any` -/
def versionSatisfiesAny (version : Str) (branches : List (List Constraint)) : Option Bool :=
  if branches = [] then none else satisfiesAny version branches false

/-- The branches of a range that have a constraint. -/
def affectedBranches (affected : Str) : List (List Constraint) :=
  ((splitOrBranches affected).map parseAffectedConstraints).filter (· ≠ [])

end

/-! ## The grammar of ranges -/

/-- White space, possibly none. -/
structure Gap where
  text : Str
  blank : ∀ c ∈ text, isSpace c = true

/-- The operators of comparisons. -/
inductive Comparator where
  | le
  | ge
  | lt
  | gt
  | eq
  | before
  | priorTo
  | through

namespace Comparator

def text : Comparator → Str
  | le => "<="
  | ge => ">="
  | lt => "<"
  | gt => ">"
  | eq => "="
  | before => "before"
  | priorTo => "prior to"
  | through => "through"

/-- The operator a comparison is read as. -/
def op : Comparator → Str
  | le => "<="
  | ge => ">="
  | lt => "<"
  | gt => ">"
  | eq => "="
  | before => "<"
  | priorTo => "<"
  | through => "<="

/-- What a comparison says about the numbers of a version. -/
def Holds (cmp : Comparator) (version bound : List Nat) : Prop :=
  match cmp with
  | le => ¬ bound < version
  | ge => ¬ version < bound
  | lt => version < bound
  | gt => bound < version
  | eq => version = bound
  | before => version < bound
  | priorTo => version < bound
  | through => ¬ bound < version

end Comparator

/-- One condition of a branch. -/
inductive Item where
  /-- An operator and a version, with or without space in between. -/
  | compare (cmp : Comparator) (gap : Gap) (bound : DottedVersion)
  /-- A version alone. -/
  | bare (bound : DottedVersion)
  /-- `A through B` -/
  | span (lower : DottedVersion) (gap gap' : Gap) (nonempty : gap.text ≠ [] ∧ gap'.text ≠ [])
      (upper : DottedVersion)

namespace Item

def text : Item → Str
  | compare cmp gap bound => cmp.text ++ gap.text ++ bound.text
  | bare bound => bound.text
  | span lower gap gap' _ upper =>
      lower.text ++ gap.text ++ "through".toList ++ gap'.text ++ upper.text

/-- Whether a version satisfies a condition. -/
def Holds [UnicodeTables] (v : DottedVersion) : Item → Prop
  | compare cmp _ bound => cmp.Holds v.nums bound.nums
  | bare bound => v.nums = bound.nums
  | span lower _ _ _ upper => ¬ v.nums < lower.nums ∧ ¬ upper.nums < v.nums

/-- A span, or a comparison with a space after its operator. -/
def Understood : Item → Prop
  | compare _ gap _ => gap.text ≠ []
  | bare _ => False
  | span .. => True

end Item

/-- A comma, with the white space around it. -/
structure Comma where
  left : Gap
  right : Gap

def Comma.text (comma : Comma) : Str := comma.left.text ++ [','] ++ comma.right.text

/-- Conditions separated by commas: all of them hold. -/
structure Branch where
  first : Item
  rest : List (Comma × Item)

/-- The text of what follows the first condition. -/
def restText (rest : List (Comma × Item)) : Str := rest.flatMap fun r => r.1.text ++ r.2.text

namespace Branch

def text (b : Branch) : Str := b.first.text ++ restText b.rest

def items (b : Branch) : List Item := b.first :: b.rest.map (·.2)

/-- A version is in a branch. -/
def Holds [UnicodeTables] (v : DottedVersion) (b : Branch) : Prop := ∀ item ∈ b.items, item.Holds v

end Branch

/-- The text of a condition once spans have been taken out. -/
def Item.cutText : Item → Str
  | .span .. => " "
  | item => item.text

/-- The constraints of a span. -/
def Item.ofSpan : Item → List Constraint
  | .span lower _ _ _ upper => [(">=", lower.text), ("<=", upper.text)]
  | _ => []

/-- The constraint of a comparison with a space after its operator. -/
def Item.ofComparison : Item → List Constraint
  | .compare cmp gap bound => if gap.text = [] then [] else [(cmp.op, bound.text)]
  | _ => []

def restCut (rest : List (Comma × Item)) : Str := rest.flatMap fun r => r.1.text ++ r.2.cutText

/-! ## What the span pattern finds -/

/-- No letter matches white space. -/
theorem not_foldEq_of_isSpace {a c : Char} (ha : isAsciiLower a = true) (h : isSpace c = true) :
    Re.foldEq a c = false := by
  simp only [isAsciiLower, isSpace, Bool.and_eq_true, Bool.or_eq_true, decide_eq_true_eq,
    beq_iff_eq] at ha h
  have hne : c ≠ a := by
    rintro rfl
    omega
  have hlower : lowerChar c = c := by
    rw [lowerChar, if_neg]
    simp only [isAsciiUpper, Bool.and_eq_true, decide_eq_true_eq, not_and]
    omega
  simp only [Re.foldEq, hlower, Bool.or_eq_false_iff, Bool.and_eq_false_iff, decide_eq_false_iff_not]
  refine ⟨⟨⟨⟨hne, hne⟩, Or.inr ?_⟩, Or.inr ?_⟩, Or.inr ⟨?_, ?_⟩⟩
  all_goals omega

theorem run_ilit_cat_nil {a : Char} {w : Str} {r : Re} {t : Str} {s : St}
    (h : inClass (Re.foldEq a) t[s.pos]? = false) :
    run t (.cat (Re.ilit (a :: w)) r) s = [] := by
  rw [run_cat, run_ilit_nil h]
  rfl

theorem drop_drop_stretch {t x u : Str} {i j : Nat} (h : t.drop i = x ++ u) (hj : j < x.length) :
    t.drop (i + j) = x.drop j ++ u := by
  rw [← List.drop_drop, h, List.drop_append_of_le_length hj.le]

/-- No character of a version is white space. -/
theorem not_isSpace_inside {t w u : Str} {i k : Nat} (h : t.drop i = w ++ u)
    (hw : ∀ c ∈ w, DottedVersion.isPart c = true) (hk : k < w.length) :
    inClass isSpace t[i + k]? = false := by
  rw [getElem?_of_drop h hk, List.getElem?_eq_getElem hk]
  exact DottedVersion.not_isSpace (hw _ (List.getElem_mem hk))

theorem matchAt_eq_none_of_run {r : Re} {t : Str} {i : Nat} (h : run t r ⟨i, []⟩ = []) : matchAt r t i = none := by
  simp [matchAt, h]

section

variable {t : Str} {s : St} {i : Nat}

theorem text_ne_nil (v : DottedVersion) : v.text ≠ [] := by
  obtain ⟨d, w, htext, -⟩ := v.text_head
  rw [htext]
  exact List.cons_ne_nil d w

/-- What cannot start with white space fails after white space, or none, when it fails at the first
other character. -/
theorem run_spaces_nil {u : Str} {r : Re} (h : t.drop s.pos = u)
    (hspace : ∀ m : St, inClass isSpace t[m.pos]? = true → run t r m = [])
    (hu : ∀ m : St, t.drop m.pos = u.dropWhile isSpace → run t r m = []) :
    run t (.cat (Re.some1 isSpace) r) s = [] := by
  have hsplit := List.takeWhile_append_dropWhile (p := isSpace) (l := u)
  have hnot : inClass isSpace (u.dropWhile isSpace).head? = false := by
    cases hd : (u.dropWhile isSpace).head? with
    | none => rfl
    | some c =>
        have := List.head?_dropWhile_not isSpace u
        rw [hd] at this
        simpa [inClass] using this
  by_cases hgap : u.takeWhile isSpace = []
  · rw [hgap, List.nil_append] at hsplit
    apply run_some1_cat_nil
    rw [← List.head?_drop, h, ← hsplit]
    exact hnot
  · have hdrop : t.drop s.pos = u.takeWhile isSpace ++ u.dropWhile isSpace := h.trans hsplit.symm
    have hblank : ∀ c ∈ u.takeWhile isSpace, isSpace c = true := fun c hc => List.mem_takeWhile_imp hc
    rw [(longest_some1 hdrop hgap hblank hnot).run_cat]
    · exact hu _ (drop_add_length hdrop)
    · intro k _ hk
      exact hspace _ (inClass_of_drop hdrop hk hblank)

theorem run_through_nil {r : Re} {m : St} (h : inClass isSpace t[m.pos]? = true) :
    run t (.cat (Re.ilit "through") r) m = [] := by
  obtain ⟨c, hget, hc⟩ := inClass_iff.mp h
  apply run_ilit_cat_nil
  rw [hget]
  exact not_foldEq_of_isSpace (by decide) hc

/-- A gap that is not empty is taken as a whole when what follows cannot start with white space. -/
theorem run_gap_cat {gap : Gap} {r : Re} {u : Str} (hgap : gap.text ≠ [])
    (h : t.drop s.pos = gap.text ++ u) (hu : inClass isSpace u.head? = false)
    (hr : ∀ m : St, inClass isSpace t[m.pos]? = true → run t r m = []) :
    run t (.cat (Re.some1 isSpace) r) s = run t r { s with pos := s.pos + gap.text.length } := by
  rw [(longest_some1 h hgap gap.blank hu).run_cat]
  intro k _ hk
  exact hr _ (inClass_of_drop h hk gap.blank)

theorem not_isSpace_of_text {v : DottedVersion} {u : Str} :
    inClass isSpace (v.text ++ u).head? = false := by
  obtain ⟨d, w, htext, -⟩ := v.text_head
  have hpart := v.isPart_of_mem (htext ▸ List.mem_cons_self)
  rw [htext]
  exact DottedVersion.not_isSpace hpart

/-- A stretch stays within the text. -/
theorem add_length_le {x u : Str} (h : t.drop i = x ++ u) (hi : i ≤ t.length) :
    i + x.length ≤ t.length := by
  have hlen := congrArg List.length h
  rw [List.length_drop, List.length_append] at hlen
  omega

end

section

variable [UnicodeTables]

theorem isVersionChar_of_isPart {c : Char} (h : DottedVersion.isPart c = true) :
    isVersionChar c = true := by
  simp only [DottedVersion.isPart, Bool.or_eq_true, decide_eq_true_eq] at h
  rcases h with h | rfl
  · simp [isVersionChar, isWord, h]
  · simp [isVersionChar]

theorem not_isVersionChar_of_isSpace {c : Char} (h : isSpace c = true) : isVersionChar c = false := by
  have hne : c ≠ '.' ∧ c ≠ '*' ∧ c ≠ '+' ∧ c ≠ '-' := by
    refine ⟨?_, ?_, ?_, ?_⟩
    all_goals
      rintro rfl
      exact absurd h (by decide)
  simp [isVersionChar, isWord_of_isSpace h, hne]

variable {t : Str} {s : St} {i : Nat}

/-- A text after which a version, and then a span, cannot go on. -/
structure Ends (u : Str) : Prop where
  version : inClass isVersionChar u.head? = false
  span : inClass (Re.foldEq 't') (u.dropWhile isSpace).head? = false

/-- What a version pattern takes of a stretch of digits and dots that begins with a digit. -/
theorem longest_version {d : Char} {w u : Str} (h : t.drop s.pos = d :: w ++ u)
    (hd : isAsciiDigit d = true) (hw : ∀ c ∈ w, DottedVersion.isPart c = true)
    (hu : inClass isVersionChar u.head? = false) :
    Longest t rangeVersionRe s (d :: w).length := by
  have hpart : DottedVersion.isPart d = true := by rw [DottedVersion.isPart, hd, Bool.true_or]
  have hget : t[s.pos]? = some d := by
    simpa using getElem?_of_drop (k := 0) h (by simp)
  have hv : run t (.chr (Re.foldEq 'v')) s = [] := by
    rw [run_chr, hget, if_neg]
    simp [inClass, DottedVersion.not_foldEq (show isAsciiLower 'v' = true by decide) hpart]
  have hdigit : run t (.chr isDigit) s = [{ s with pos := s.pos + 1 }] := by
    rw [run_chr, hget]
    exact if_pos (isDigit_of_ascii hd)
  have hdrop : t.drop (s.pos + 1) = w ++ u := by
    rw [← List.drop_drop, h]
    rfl
  refine ⟨(List.range w.length).reverse.map fun k => { s with pos := s.pos + 1 + k }, ?_, ?_⟩
  · show run t (.cat (.alt (.chr (Re.foldEq 'v')) .eps) (.cat (.chr isDigit) (.many true isVersionChar)))
      s = _
    rw [run_cat, run_alt, hv, run_eps, List.nil_append, List.flatMap_singleton, run_cat, hdigit,
      List.flatMap_singleton,
      run_many_of_drop hdrop (fun c hc => isVersionChar_of_isPart (hw c hc)) hu]
    simp only [List.length_cons, Nat.add_assoc, Nat.add_comm 1]
  · intro m hm
    obtain ⟨k, hk, rfl⟩ := List.mem_map.mp hm
    have hlt : k < w.length := by simpa using hk
    refine ⟨k + 1, by omega, by simpa using hlt, ?_⟩
    simp only [Nat.add_assoc, Nat.add_comm 1]

/-- A version pattern fails where there is neither a digit nor a `v`. -/
theorem run_version_nil {caps : List (Nat × Str)} (hd : inClass isDigit t[i]? = false)
    (hv : inClass (Re.foldEq 'v') t[i]? = false) : run t rangeVersionRe ⟨i, caps⟩ = [] := by
  show run t (.cat (.alt (.chr (Re.foldEq 'v')) .eps) (.cat (.chr isDigit) (.many true isVersionChar)))
    ⟨i, caps⟩ = _
  rw [run_cat, run_alt, run_chr, if_neg (by simp [hv]), run_eps, List.nil_append,
    List.flatMap_singleton, run_cat, run_chr, if_neg (by simp [hd])]
  rfl

/-- No span starts where there is neither a digit nor a `v`. -/
theorem span_none_of_start (hd : inClass isDigit t[i]? = false)
    (hv : inClass (Re.foldEq 'v') t[i]? = false) : matchAt spanRe t i = none := by
  apply matchAt_eq_none_of_run
  show run t (.cat (.group 1 rangeVersionRe) _) ⟨i, []⟩ = _
  rw [run_cat, run_group, run_version_nil hd hv]
  rfl

/-- No span starts at a version that is not followed by `through`. -/
theorem span_none_of_ends {d : Char} {w u : Str} (h : t.drop i = d :: w ++ u)
    (hd : isAsciiDigit d = true) (hw : ∀ c ∈ w, DottedVersion.isPart c = true) (hu : Ends u) :
    matchAt spanRe t i = none := by
  have hall : ∀ c ∈ d :: w, DottedVersion.isPart c = true := by
    intro c hc
    rcases List.mem_cons.mp hc with rfl | hc
    · rw [DottedVersion.isPart, hd, Bool.true_or]
    · exact hw c hc
  apply matchAt_eq_none_of_run
  show run t (.cat (.group 1 rangeVersionRe) (.cat (Re.some1 isSpace) (.cat (Re.ilit "through")
    (.cat (Re.some1 isSpace) (.group 2 rangeVersionRe))))) ⟨i, []⟩ = []
  rw [(longest_version (s := ⟨i, []⟩) h hd hw hu.version).run_group_cat h]
  · refine run_spaces_nil (drop_add_length h) (fun m hm => run_through_nil hm) fun m hm => ?_
    apply run_ilit_cat_nil
    rw [← List.head?_drop, hm]
    exact hu.span
  · intro k caps _ hk
    exact run_some1_cat_nil (not_isSpace_inside h hall hk)

/-- No span starts in a stretch without digits and `v`. -/
theorem span_none_stretch {x u : Str} (h : t.drop i = x ++ u)
    (hx : ∀ c ∈ x, isDigit c = false ∧ Re.foldEq 'v' c = false) :
    ∀ j < x.length, matchAt spanRe t (i + j) = none := by
  intro j hj
  have hget := getElem?_of_drop h hj
  rw [List.getElem?_eq_getElem hj] at hget
  obtain ⟨hd, hv⟩ := hx _ (List.getElem_mem hj)
  apply span_none_of_start
  · rw [hget]
    exact hd
  · rw [hget]
    exact hv

/-- No span starts in a version that is not followed by `through`. -/
theorem span_none_version {v : DottedVersion} {u : Str} (h : t.drop i = v.text ++ u) (hu : Ends u) :
    ∀ j < v.text.length, matchAt spanRe t (i + j) = none := by
  intro j hj
  have hdrop := drop_drop_stretch h hj
  rw [List.drop_eq_getElem_cons hj] at hdrop
  have hpart := v.isPart_of_mem (List.getElem_mem hj)
  have htail : ∀ c ∈ v.text.drop (j + 1), DottedVersion.isPart c = true :=
    fun c hc => v.isPart_of_mem (List.mem_of_mem_drop hc)
  by_cases hd : isAsciiDigit v.text[j] = true
  · exact span_none_of_ends hdrop hd htail hu
  · have hdot : v.text[j] = '.' := by simpa [DottedVersion.isPart, hd] using hpart
    rw [hdot] at hdrop
    have hget : t[i + j]? = some '.' := by
      rw [← List.head?_drop, hdrop]
      rfl
    apply span_none_of_start
    · rw [hget, inClass, Option.any_some, isDigit_of_lt (by decide)]
      decide
    · rw [hget]
      decide

theorem longest_text {v : DottedVersion} {u : Str} (h : t.drop s.pos = v.text ++ u)
    (hu : inClass isVersionChar u.head? = false) : Longest t rangeVersionRe s v.text.length := by
  obtain ⟨d, w, htext, hd⟩ := v.text_head
  have hw : ∀ c ∈ w, DottedVersion.isPart c = true :=
    fun c hc => v.isPart_of_mem (htext ▸ List.mem_cons_of_mem d hc)
  rw [htext] at h ⊢
  exact longest_version h hd hw hu

/-- What follows a gap that is not empty does not go on a version. -/
theorem not_version_of_gap {gap : Gap} {u : Str} (hne : gap.text ≠ []) :
    inClass isVersionChar (gap.text ++ u).head? = false := by
  obtain ⟨c, w, htext⟩ := List.exists_cons_of_ne_nil hne
  rw [htext]
  exact not_isVersionChar_of_isSpace (gap.blank c (htext ▸ List.mem_cons_self))

/-- A captured version cannot start with white space. -/
theorem run_version_group_nil {n : Nat} {m : St} (h : inClass isSpace t[m.pos]? = true) :
    run t (.group n rangeVersionRe) m = [] := by
  obtain ⟨c, hget, hc⟩ := inClass_iff.mp h
  rw [run_group, run_version_nil]
  · rfl
  · rw [hget]
    exact isDigit_of_isSpace hc
  · rw [hget]
    exact not_foldEq_of_isSpace (by decide) hc

/-- A gap and a version after it: the end of either pattern. -/
theorem run_gap_version {gap : Gap} {v : DottedVersion} {u : Str} {n : Nat} (hgap : gap.text ≠ [])
    (h : t.drop s.pos = gap.text ++ (v.text ++ u)) (hu : inClass isVersionChar u.head? = false) :
    (run t (.cat (Re.some1 isSpace) (.group n rangeVersionRe)) s).head? =
      some ⟨s.pos + gap.text.length + v.text.length, (n, v.text) :: s.caps⟩ := by
  have hdrop := drop_add_length h
  rw [run_gap_cat hgap h not_isSpace_of_text fun m hm => run_version_group_nil hm]
  exact (longest_text (s := ⟨s.pos + gap.text.length, s.caps⟩) hdrop hu).head?_group hdrop

/-- A span in the text is matched, with its versions. -/
theorem span_match {lower upper : DottedVersion} {gap gap' : Gap} {u : Str} (hgap : gap.text ≠ [])
    (hgap' : gap'.text ≠ [])
    (h : t.drop i = lower.text ++ (gap.text ++ ("through".toList ++ (gap'.text ++ (upper.text ++ u)))))
    (hu : inClass isVersionChar u.head? = false) :
    matchAt spanRe t i = some ⟨i, i + lower.text.length + gap.text.length + "through".toList.length +
      gap'.text.length + upper.text.length, [(2, upper.text), (1, lower.text)]⟩ := by
  have h₁ := drop_add_length h
  have h₂ := drop_add_length h₁
  have h₃ := drop_add_length h₂
  have h₄ := drop_add_length h₃
  have hrun : (run t spanRe ⟨i, []⟩).head? = some ⟨i + lower.text.length + gap.text.length +
      "through".toList.length + gap'.text.length + upper.text.length,
        [(2, upper.text), (1, lower.text)]⟩ := by
    show (run t (.cat (.group 1 rangeVersionRe) (.cat (Re.some1 isSpace) (.cat (Re.ilit "through")
      (.cat (Re.some1 isSpace) (.group 2 rangeVersionRe))))) ⟨i, []⟩).head? = _
    rw [(longest_text (s := ⟨i, []⟩) h (not_version_of_gap hgap)).run_group_cat h,
      run_gap_cat hgap h₁ (by rfl) fun m hm => run_through_nil hm, run_cat,
      run_ilit (h₂ ▸ List.prefix_append _ _), List.flatMap_singleton]
    · exact run_gap_version hgap' h₃ hu
    · intro k caps _ hk
      exact run_some1_cat_nil (not_isSpace_inside h (fun c hc => lower.isPart_of_mem hc) hk)
  rw [matchAt, hrun]
  rfl

theorem span_none_end : matchAt spanRe t t.length = none := by
  have hget : t[t.length]? = none := List.getElem?_eq_none le_rfl
  apply span_none_of_start
  all_goals
    rw [hget]
    rfl

theorem not_isVersionChar_comma : isVersionChar ',' = false := by
  simp [isVersionChar, isWord, isAsciiLetter, isAsciiLower, isAsciiUpper, isAsciiDigit]

theorem ends_restText {rest : List (Comma × Item)} : Ends (restText rest) := by
  cases rest with
  | nil => exact ⟨rfl, rfl⟩
  | cons r rest =>
      obtain ⟨comma, item⟩ := r
      have htext : restText ((comma, item) :: rest) =
          comma.left.text ++ ',' :: (comma.right.text ++ item.text ++ restText rest) := by
        simp [restText, Comma.text]
      rw [htext]
      constructor
      · cases hleft : comma.left.text with
        | nil => exact not_isVersionChar_comma
        | cons c w =>
            exact not_isVersionChar_of_isSpace (comma.left.blank c (hleft ▸ List.mem_cons_self))
      · rw [List.dropWhile_append_of_pos comma.left.blank, List.dropWhile_cons_of_neg (by decide)]
        show Re.foldEq 't' ',' = false
        decide

theorem not_start_of_comparator {cmp : Comparator} :
    ∀ c ∈ cmp.text, isDigit c = false ∧ Re.foldEq 'v' c = false := by
  have hall : ∀ c ∈ cmp.text, c.toNat < 128 ∧ isAsciiDigit c = false ∧ Re.foldEq 'v' c = false := by
    cases cmp
    all_goals decide
  intro c hc
  obtain ⟨hlt, hd, hv⟩ := hall c hc
  exact ⟨(isDigit_of_lt hlt).trans hd, hv⟩

theorem not_start_of_gap {gap : Gap} : ∀ c ∈ gap.text, isDigit c = false ∧ Re.foldEq 'v' c = false :=
  fun c hc => ⟨isDigit_of_isSpace (gap.blank c hc), not_foldEq_of_isSpace (by decide) (gap.blank c hc)⟩

theorem not_start_of_comma {comma : Comma} :
    ∀ c ∈ comma.text, isDigit c = false ∧ Re.foldEq 'v' c = false := by
  intro c hc
  rcases List.mem_append.mp hc with hc | hc
  · rcases List.mem_append.mp hc with hc | hc
    · exact not_start_of_gap c hc
    · obtain rfl := List.mem_singleton.mp hc
      exact ⟨isDigit_of_lt (by decide), by decide⟩
  · exact not_start_of_gap c hc

/-- Going on with the spans after a condition, those of the condition come first. -/
theorem span_item {item : Item} {u out : Str} {ms : List Match} (hi : i ≤ t.length)
    (h : t.drop i = item.text ++ u) (hu : Ends u)
    (hrest : Rewrites spanRe (fun _ => " ") t (i + item.text.length) ms out) :
    ∃ ms', Rewrites spanRe (fun _ => " ") t i ms' (item.cutText ++ out) ∧
      ms'.flatMap spanConstraints = item.ofSpan ++ ms.flatMap spanConstraints := by
  cases item with
  | compare cmp gap bound =>
      refine ⟨ms, ?_, rfl⟩
      have hhead : t.drop i = (cmp.text ++ gap.text) ++ (bound.text ++ u) := by
        rw [h, Item.text, List.append_assoc]
      have hle := add_length_le hhead hi
      have hbound := drop_add_length hhead
      rw [Item.cutText, Item.text, List.append_assoc]
      · refine .skip hhead hle (span_none_stretch hhead ?_) (.skip hbound (add_length_le hbound hle)
          (span_none_version hbound hu) ?_)
        · intro c hc
          rcases List.mem_append.mp hc with hc | hc
          · exact not_start_of_comparator c hc
          · exact not_start_of_gap c hc
        · rwa [Item.text, List.length_append, ← Nat.add_assoc] at hrest
      · simp
  | bare bound =>
      exact ⟨ms, .skip h (add_length_le h hi) (span_none_version h hu) hrest, rfl⟩
  | span lower gap gap' nonempty upper =>
      obtain ⟨hgap, hgap'⟩ := nonempty
      have hmatch := span_match (u := u) hgap hgap' (by simpa [Item.text] using h) hu.version
      refine ⟨_, .take hi hmatch ?_ ?_, rfl⟩
      · have hpos := List.length_pos_of_ne_nil (text_ne_nil upper)
        dsimp only
        omega
      · have hlen : (Item.span lower gap gap' ⟨hgap, hgap'⟩ upper).text.length = lower.text.length +
            gap.text.length + "through".toList.length + gap'.text.length + upper.text.length := by
          simp only [Item.text, List.length_append]
        rw [hlen] at hrest
        simpa only [Nat.add_assoc] using hrest

/-- The spans of the conditions after the first. -/
theorem span_rest {rest : List (Comma × Item)} (hi : i ≤ t.length) (h : t.drop i = restText rest) :
    ∃ ms, Rewrites spanRe (fun _ => " ") t i ms (restCut rest) ∧
      ms.flatMap spanConstraints = rest.flatMap fun r => r.2.ofSpan := by
  induction rest generalizing i with
  | nil =>
      have hend : i = t.length := le_antisymm hi (List.drop_eq_nil_iff.mp h)
      subst hend
      exact ⟨[], .stop span_none_end, rfl⟩
  | cons r rest ih =>
      obtain ⟨comma, item⟩ := r
      have hcomma : t.drop i = comma.text ++ (item.text ++ restText rest) := by
        rw [h]
        simp [restText]
      have hle := add_length_le hcomma hi
      have hitem := drop_add_length hcomma
      have hle' := add_length_le hitem hle
      obtain ⟨ms, hms, hcs⟩ := ih hle' (drop_add_length hitem)
      obtain ⟨ms', hms', hcs'⟩ := span_item hle hitem ends_restText hms
      refine ⟨ms', ?_, ?_⟩
      · have hskip := Rewrites.skip hcomma hle (span_none_stretch hcomma not_start_of_comma) hms'
        simpa [restCut] using hskip
      · rw [hcs', hcs]
        rfl

/-- The span pattern finds the spans of a branch, and leaves the rest of it. -/
theorem span_branch (b : Branch) :
    (finditer spanRe b.text).flatMap spanConstraints = b.items.flatMap Item.ofSpan ∧
      sub spanRe (fun _ => " ") b.text = b.first.cutText ++ restCut b.rest := by
  have hfirst : b.text.drop 0 = b.first.text ++ restText b.rest := rfl
  have hrest := drop_add_length hfirst
  obtain ⟨ms, hms, hcs⟩ := span_rest (add_length_le hfirst (Nat.zero_le _)) hrest
  obtain ⟨ms', hms', hcs'⟩ := span_item (Nat.zero_le _) hfirst ends_restText hms
  rw [hms'.finditer_eq, hms'.sub_eq, hcs', hcs]
  refine ⟨?_, rfl⟩
  simp [Branch.items, List.flatMap_map]

end

end HummingbirdRpms
