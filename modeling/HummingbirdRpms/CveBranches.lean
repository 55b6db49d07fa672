/-
# HummingbirdRpms.CveBranches — the branches of an affected range.

Branches are separated by the word `or`, with white space on both sides, or by a semicolon.  A text built
that way (`AffectedRange`) is taken apart again without loss: no separator begins inside a branch, since
what follows white space in a branch is never an `o`.

**`affectedBranches_text`** — the branches the helper works with are those from which something is
read; a branch from which nothing is read is dropped.
-/
import HummingbirdRpms.CveOperators

namespace HummingbirdRpms

open Lib Lib.Text Lib.Regex

/-! ## The grammar -/

/-- What stands between two branches. -/
inductive OrSeparator where
  | word (left right : Gap) (nonempty : left.text ≠ [] ∧ right.text ≠ [])
  | semicolon (left right : Gap)

def OrSeparator.text : OrSeparator → Str
  | word left right _ => left.text ++ ("or".toList ++ right.text)
  | semicolon left right => left.text ++ (';' :: right.text)

/-- Branches, of which one has to hold. -/
structure AffectedRange where
  first : Branch
  rest : List (OrSeparator × Branch)

/-- The text of what follows the first branch. -/
def orText (rest : List (OrSeparator × Branch)) : Str := rest.flatMap fun r => r.1.text ++ r.2.text

namespace AffectedRange

def text (range : AffectedRange) : Str := range.first.text ++ orText range.rest

def branches (range : AffectedRange) : List Branch := range.first :: range.rest.map (·.2)

end AffectedRange

/-- What is read of a branch. -/
def Branch.constraints (b : Branch) : List Constraint :=
  b.items.flatMap Item.ofSpan ++ b.items.flatMap Item.ofComparison

/-! ## Where no separator begins -/

/-- A text that does not go on with an `o` after white space. -/
def Calm (u : Str) : Prop := inClass (Re.foldEq 'o') (u.dropWhile isSpace).head? = false

/-- A text, followed by another, in which no separator begins. -/
def Quiet (u : Str) : Str → Prop
  | [] => True
  | c :: x => c ≠ ';' ∧ (isSpace c = true → Calm (x ++ u)) ∧ Quiet u x

theorem Quiet.append {u x y : Str} (hx : Quiet (y ++ u) x) (hy : Quiet u y) : Quiet u (x ++ y) := by
  induction x with
  | nil => exact hy
  | cons c x ih =>
      obtain ⟨hc, hcalm, hx⟩ := hx
      refine ⟨hc, fun hspace => ?_, ih hx⟩
      show Calm (x ++ y ++ u)
      rw [List.append_assoc]
      exact hcalm hspace

/-- Without white space there is nothing to check but the semicolon. -/
theorem quiet_of_not_isSpace {u x : Str} (h : ∀ c ∈ x, isSpace c = false ∧ c ≠ ';') : Quiet u x := by
  induction x with
  | nil => trivial
  | cons c x ih =>
      obtain ⟨hspace, hc⟩ := h c List.mem_cons_self
      exact ⟨hc, fun hc => absurd hc (by simp [hspace]), ih fun c hc => h c (List.mem_cons_of_mem _ hc)⟩

theorem Calm.gap {gap : Gap} {u : Str} (hu : Calm u) : Calm (gap.text ++ u) := by
  rw [Calm, List.dropWhile_append_of_pos gap.blank]
  exact hu

theorem Calm.cons {c : Char} {u : Str} (hspace : isSpace c = false) (hc : Re.foldEq 'o' c = false) :
    Calm (c :: u) := by
  rw [Calm, List.dropWhile_cons_of_neg (by simp [hspace])]
  exact hc

theorem Quiet.gap {gap : Gap} {u : Str} (hu : Calm u) : Quiet u gap.text := by
  obtain ⟨w, hw⟩ := gap
  dsimp only
  induction w with
  | nil => trivial
  | cons c w ih =>
      have htail : ∀ c ∈ w, isSpace c = true := fun c hc => hw c (List.mem_cons_of_mem _ hc)
      refine ⟨?_, fun _ => @Calm.gap ⟨w, htail⟩ _ hu, ih htail⟩
      rintro rfl
      exact absurd (hw ';' List.mem_cons_self) (by decide)

theorem calm_version {v : DottedVersion} {u : Str} : Calm (v.text ++ u) := by
  obtain ⟨d, w, htext, -⟩ := v.text_head
  have hpart := v.isPart_of_mem (htext ▸ List.mem_cons_self)
  rw [htext]
  exact .cons (DottedVersion.not_isSpace hpart) (DottedVersion.not_foldEq (by decide) hpart)

theorem calm_comparator {cmp : Comparator} {u : Str} : Calm (cmp.text ++ u) := by
  have hhead : ∃ c ∈ cmp.text.head?, isSpace c = false ∧ Re.foldEq 'o' c = false := by
    cases cmp
    all_goals decide
  obtain ⟨c, hc, hspace, ho⟩ := hhead
  obtain ⟨w, hw⟩ := List.head?_eq_some_iff.mp hc
  rw [hw]
  exact .cons hspace ho

theorem quiet_version {v : DottedVersion} {u : Str} : Quiet u v.text := by
  refine quiet_of_not_isSpace fun c hc => ⟨DottedVersion.not_isSpace (v.isPart_of_mem hc), ?_⟩
  rintro rfl
  exact absurd (v.isPart_of_mem hc) (by decide)

theorem quiet_comparator {cmp : Comparator} {u : Str} : Quiet u cmp.text := by
  cases cmp with
  | priorTo =>
      -- the only operator with a space: what follows it is the `t` of `to`
      have hprior : Quiet ([' '] ++ "to".toList ++ u) "prior".toList :=
        quiet_of_not_isSpace (by decide)
      have hto : Quiet u "to".toList := quiet_of_not_isSpace (by decide)
      have hspace : Quiet ("to".toList ++ u) [' '] :=
        ⟨by decide, fun _ => .cons (by decide) (by decide), trivial⟩
      exact hprior.append (hspace.append hto)
  | _ => exact quiet_of_not_isSpace (by decide)

theorem calm_item {item : Item} {u : Str} : Calm (item.text ++ u) := by
  cases item with
  | compare cmp gap bound =>
      rw [Item.text, List.append_assoc, List.append_assoc]
      exact calm_comparator
  | bare bound => exact calm_version
  | span lower gap gap' _ upper =>
      simp only [Item.text, List.append_assoc]
      exact calm_version

theorem quiet_item {item : Item} {u : Str} : Quiet u item.text := by
  cases item with
  | compare cmp gap bound =>
      exact (quiet_comparator.append (.gap calm_version)).append quiet_version
  | bare bound => exact quiet_version
  | span lower gap gap' _ upper =>
      have hthrough : ∀ v, Quiet v "through".toList := fun v => quiet_of_not_isSpace (by decide)
      have hcalm : ∀ v, Calm ("through".toList ++ v) := fun v => .cons (by decide) (by decide)
      exact ((((quiet_version.append (.gap (hcalm _))).append (hthrough _)).append
        (.gap calm_version)).append quiet_version)

theorem quiet_rest {rest : List (Comma × Item)} {u : Str} : Quiet u (restText rest) := by
  induction rest with
  | nil => trivial
  | cons r rest ih =>
      obtain ⟨comma, item⟩ := r
      have hcomma : Quiet (item.text ++ (restText rest ++ u)) comma.text := by
        have hmid : Quiet (comma.right.text ++ (item.text ++ (restText rest ++ u))) [','] :=
          quiet_of_not_isSpace (by decide)
        have hcalm : Calm ([','] ++ (comma.right.text ++ (item.text ++ (restText rest ++ u)))) :=
          .cons (by decide) (by decide)
        refine ((Quiet.gap ?_).append hmid).append (.gap calm_item)
        exact hcalm
      have hitem : Quiet (restText rest ++ u) item.text := quiet_item
      exact (hcomma.append hitem).append ih

theorem quiet_branch {b : Branch} {u : Str} : Quiet u b.text := quiet_item.append quiet_rest

theorem calm_branch {b : Branch} {u : Str} : Calm (b.text ++ u) := by
  rw [Branch.text, List.append_assoc]
  exact calm_item

/-! ## What the separator pattern finds -/

section

variable {t : Str} {i : Nat}

/-- `\s+or\s+` -/
def orRe : Re := Re.seq [Re.some1 isSpace, Re.ilit "or", Re.some1 isSpace]

theorem run_separator {s : St} : run t branchSeparatorRe s = run t orRe s ++ run t (.lit [';']) s := rfl

theorem run_or_nil {r : Re} {m : St} (h : inClass isSpace t[m.pos]? = true) :
    run t (.cat (Re.ilit "or") r) m = [] := by
  obtain ⟨c, hget, hc⟩ := inClass_iff.mp h
  apply run_ilit_cat_nil
  rw [hget]
  exact not_foldEq_of_isSpace (by decide) hc

/-- No separator begins in a quiet text. -/
theorem separator_none {x u : Str} (h : t.drop i = x ++ u) (hx : Quiet u x) :
    ∀ j < x.length, matchAt branchSeparatorRe t (i + j) = none := by
  induction x generalizing i with
  | nil => exact fun j hj => absurd hj (Nat.not_lt_zero j)
  | cons c x ih =>
      obtain ⟨hc, hcalm, hx⟩ := hx
      have hget : t[i]? = some c := getElem?_of_cons h
      have hnext : t.drop (i + 1) = x ++ u := drop_add_length (w := [c]) h
      intro j hj
      cases j with
      | zero =>
          apply matchAt_eq_none_of_run
          rw [run_separator, run_lit_other h (Ne.symm hc), List.append_nil]
          show run t (.cat (Re.some1 isSpace) (.cat (Re.ilit "or") (Re.some1 isSpace))) ⟨i, []⟩ = []
          by_cases hspace : isSpace c = true
          · refine run_spaces_nil h (fun m hm => run_or_nil hm) fun m hm => ?_
            apply run_ilit_cat_nil
            rw [← List.head?_drop, hm, List.cons_append, List.dropWhile_cons_of_pos hspace]
            exact hcalm hspace
          · apply run_some1_cat_nil
            rw [hget]
            exact Bool.not_eq_true _ ▸ hspace
      | succ j =>
          have hnone := ih hnext hx j (by simpa using hj)
          rwa [Nat.add_assoc, Nat.add_comm 1] at hnone

theorem semicolon_match {u : Str} (h : t.drop i = ';' :: u) :
    matchAt branchSeparatorRe t i = some ⟨i, i + 1, []⟩ := by
  have hget : t[i]? = some ';' := getElem?_of_cons h
  have hor : run t orRe ⟨i, []⟩ = [] := by
    show run t (.cat (Re.some1 isSpace) _) ⟨i, []⟩ = []
    apply run_some1_cat_nil
    rw [hget]
    decide
  have hrun : run t branchSeparatorRe ⟨i, []⟩ = [⟨i + 1, []⟩] := by
    rw [run_separator, hor, List.nil_append]
    exact run_lit_of_drop (s := ⟨i, []⟩) (w := [';']) h
  rw [matchAt, hrun]
  rfl

theorem word_match {left right : Gap} {u : Str} (hleft : left.text ≠ []) (hright : right.text ≠ [])
    (h : t.drop i = left.text ++ ("or".toList ++ (right.text ++ u)))
    (hu : inClass isSpace u.head? = false) :
    matchAt branchSeparatorRe t i =
      some ⟨i, i + left.text.length + "or".toList.length + right.text.length, []⟩ := by
  have hword := drop_add_length h
  have hgap := drop_add_length hword
  have hor : (run t orRe ⟨i, []⟩).head? =
      some ⟨i + left.text.length + "or".toList.length + right.text.length, []⟩ := by
    show (run t (.cat (Re.some1 isSpace) (.cat (Re.ilit "or") (Re.some1 isSpace))) ⟨i, []⟩).head? = _
    rw [run_gap_cat hleft h (by rfl) fun m hm => run_or_nil hm, run_cat,
      run_ilit (hword ▸ List.prefix_append _ _), List.flatMap_singleton]
    exact (longest_some1 (s := ⟨i + left.text.length + "or".toList.length, []⟩) hgap hright
      right.blank hu).head?
  have hrun : (run t branchSeparatorRe ⟨i, []⟩).head? =
      some ⟨i + left.text.length + "or".toList.length + right.text.length, []⟩ := by
    rw [run_separator, List.head?_append, hor]
    rfl
  rw [matchAt, hrun]
  rfl

theorem separator_none_end : matchAt branchSeparatorRe t t.length = none := by
  apply matchAt_eq_none_of_run
  have hget : t[t.length]? = none := List.getElem?_eq_none le_rfl
  have hor : run t orRe ⟨t.length, []⟩ = [] := by
    show run t (.cat (Re.some1 isSpace) _) ⟨t.length, []⟩ = []
    apply run_some1_cat_nil
    rw [hget]
    rfl
  rw [run_separator, hor, run_lit, List.drop_length]
  rfl

/-! ## Splitting a range -/

theorem not_isSpace_of_branch {b : Branch} {u : Str} : inClass isSpace (b.text ++ u).head? = false := by
  obtain ⟨c, hc, hspace⟩ := b.solid.head
  obtain ⟨w, hw⟩ := List.head?_eq_some_iff.mp hc
  rw [hw]
  exact hspace

/-- Splitting goes through the branches one by one; `lead` is white space left over from the separator
before. -/
theorem split_branches {rest : List (OrSeparator × Branch)} {lead : Gap} {b : Branch}
    (hi : i ≤ t.length) (h : t.drop i = lead.text ++ (b.text ++ orText rest)) :
    ∃ ms, Scanned branchSeparatorRe t i ms ∧
      (pieces t ms i).map strip = b.text :: rest.map fun r => r.2.text := by
  induction rest generalizing i lead b with
  | nil =>
      have hdrop : t.drop i = (lead.text ++ b.text) ++ [] := by
        rw [h, orText, List.flatMap_nil, List.append_assoc]
      have hle := add_length_le hdrop hi
      have hend : i + (lead.text ++ b.text).length = t.length :=
        le_antisymm hle (List.drop_eq_nil_iff.mp (drop_add_length hdrop))
      have hquiet : Quiet [] (lead.text ++ b.text) := (Quiet.gap calm_branch).append quiet_branch
      refine ⟨[], .skips (by omega) (separator_none hdrop hquiet) ?_, ?_⟩
      · rw [hend]
        exact .skip le_rfl separator_none_end (.stop (Nat.lt_succ_self _))
      · have hstrip := strip_padded lead.blank b.solid (b := []) (by simp)
        rw [pieces, hdrop]
        exact congrArg (· :: []) hstrip
  | cons r rest ih =>
      obtain ⟨sep, next⟩ := r
      cases sep with
      | word left right nonempty =>
          obtain ⟨hleft, hright⟩ := nonempty
          have hdrop : t.drop i = (lead.text ++ b.text) ++
              (left.text ++ ("or".toList ++ (right.text ++ (next.text ++ orText rest)))) := by
            rw [h]
            simp only [orText, OrSeparator.text, List.flatMap_cons, List.append_assoc]
          have hle := add_length_le hdrop hi
          have hsep := drop_add_length hdrop
          have hle₁ := add_length_le hsep hle
          have hword := drop_add_length hsep
          have hle₂ := add_length_le hword hle₁
          have hgap := drop_add_length hword
          have hle₃ := add_length_le hgap hle₂
          obtain ⟨ms, hms, hpieces⟩ := @ih _ ⟨[], by simp⟩ _ hle₃ (drop_add_length hgap)
          have hquiet : Quiet (left.text ++ ("or".toList ++ (right.text ++ (next.text ++ orText rest))))
              (lead.text ++ b.text) := (Quiet.gap calm_branch).append quiet_branch
          have hmatch := word_match hleft hright hsep not_isSpace_of_branch
          have hpos := List.length_pos_of_ne_nil hleft
          refine ⟨_ :: ms, .skips (by omega) (separator_none hdrop hquiet)
            (.take hle hmatch ?_ hms), ?_⟩
          · dsimp only
            omega
          · have hstrip := strip_padded lead.blank b.solid (b := []) (by simp)
            rw [List.append_nil] at hstrip
            rw [pieces, Nat.add_sub_cancel_left, hdrop, List.take_left, List.map_cons, hstrip, hpieces]
            rfl
      | semicolon left right =>
          have hdrop : t.drop i = (lead.text ++ b.text ++ left.text) ++
              ([';'] ++ (right.text ++ (next.text ++ orText rest))) := by
            rw [h]
            simp [orText, OrSeparator.text, List.append_assoc]
          have hle := add_length_le hdrop hi
          have hsep := drop_add_length hdrop
          have hle₁ := add_length_le hsep hle
          obtain ⟨ms, hms, hpieces⟩ := @ih _ right _ hle₁ (drop_add_length hsep)
          have hcalm : Calm ([';'] ++ (right.text ++ (next.text ++ orText rest))) :=
            .cons (by decide) (by decide)
          have hquiet : Quiet ([';'] ++ (right.text ++ (next.text ++ orText rest)))
              (lead.text ++ b.text ++ left.text) := by
            refine ((Quiet.gap ?_).append quiet_branch).append (.gap hcalm)
            exact calm_branch
          refine ⟨_ :: ms, .skips (by omega) (separator_none hdrop hquiet)
            (.take hle (semicolon_match hsep) (Nat.lt_succ_self _) hms), ?_⟩
          have hstrip := strip_padded lead.blank b.solid left.blank
          rw [pieces, Nat.add_sub_cancel_left, hdrop, List.take_left, List.map_cons, hstrip]
          exact congrArg (b.text :: ·) hpieces

theorem AffectedRange.text_ne_nil (range : AffectedRange) : range.text ≠ [] := by
  intro h
  exact range.first.solid.ne_nil (List.append_eq_nil_iff.mp h).1

/-- A range is taken apart into its branches. -/
theorem splitOrBranches_text (range : AffectedRange) :
    splitOrBranches range.text = range.branches.map Branch.text := by
  have hdrop : range.text.drop 0 = ([] : Str) ++ (range.first.text ++ orText range.rest) := rfl
  obtain ⟨ms, hms, hpieces⟩ := @split_branches _ _ _ ⟨[], by simp⟩ _ (Nat.zero_le _) hdrop
  have hsplit : (split branchSeparatorRe range.text).map strip = range.branches.map Branch.text := by
    rw [split, hms.finditer_eq, hpieces, AffectedRange.branches, List.map_cons, List.map_map]
    rfl
  rw [splitOrBranches, if_neg range.text_ne_nil, hsplit, List.filter_eq_self]
  intro x hx
  obtain ⟨b, -, rfl⟩ := List.mem_map.mp hx
  simpa using b.solid.ne_nil

end

/-- **`affectedBranches_text`** — the helper works with the branches of which something is read, and
with what is read of them. -/
theorem affectedBranches_text [UnicodeTables] (range : AffectedRange) :
    affectedBranches range.text = (range.branches.map Branch.constraints).filter (· ≠ []) := by
  rw [affectedBranches, splitOrBranches_text, List.map_map]
  congr 1
  refine List.map_congr_left fun b _ => ?_
  exact parseAffectedConstraints_text b

end HummingbirdRpms
