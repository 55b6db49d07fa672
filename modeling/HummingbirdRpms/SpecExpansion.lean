/-
# HummingbirdRpms.SpecExpansion — `_expand_macros` rewrites the references of a text.

Each of its four substitutions reads a reference off the front of the text.  On a text whose references are
told apart by their braces it is a rewriting pass, and one turn of the loop a round.

**`expandFrom_within`** — as many turns as references are nested give what the text expands to with the
table; further turns change nothing.
-/
import HummingbirdRpms.Lib.MacroExpansion
import HummingbirdRpms.SpecNvr

namespace HummingbirdRpms

open Lib Lib.Text Lib.MacroExpansion
open Lib.MacroExpansion.MacroText (opening render_append)

/-! ## One substitution -/

section

variable {parse : Str → Option (Nat × Str)} {x w u new : Str}

theorem substitute_skip : ∀ x u : Str, substitute parse x.length (x ++ u) = substitute parse 0 u
  | [], u => by
      rw [List.nil_append, List.length_nil]
  | c :: x, u => by
      rw [List.length_cons, List.cons_append, substitute, substitute_skip x u]

/-- What is read off the front is replaced. -/
theorem substitute_take (hx : x ≠ []) (h : parse (x ++ u) = some (x.length, new)) :
    substitute parse 0 (x ++ u) = new ++ substitute parse 0 u := by
  obtain ⟨c, x, rfl⟩ := List.exists_cons_of_ne_nil hx
  rw [List.cons_append] at h ⊢
  rw [substitute, h]
  dsimp only
  rw [List.length_cons, Nat.add_sub_cancel, substitute_skip]

theorem substitute_none {c : Char} (h : parse (c :: u) = none) :
    substitute parse 0 (c :: u) = c :: substitute parse 0 u := by
  rw [substitute, h]

/-- A pattern that begins with a percent sign. -/
def StartsAtPercent (parse : Str → Option (Nat × Str)) : Prop := ∀ c s, c ≠ '%' → parse (c :: s) = none

/-- Text without a percent sign is kept. -/
theorem substitute_plain (hp : StartsAtPercent parse) (hw : '%' ∉ w) :
    substitute parse 0 (w ++ u) = w ++ substitute parse 0 u := by
  induction w with
  | nil => rfl
  | cons c w ih =>
      obtain ⟨hc, hw⟩ := not_or.mp (mt List.mem_cons.mpr hw)
      rw [List.cons_append, substitute_none (hp c _ (Ne.symm hc)), ih hw, List.cons_append]

/-- A percent sign at which nothing is read is kept, with the text behind it. -/
theorem substitute_percent (hp : StartsAtPercent parse) (hw : '%' ∉ w) (h : parse ('%' :: (w ++ u)) = none) :
    substitute parse 0 ('%' :: (w ++ u)) = '%' :: (w ++ substitute parse 0 u) := by
  rw [substitute_none h, substitute_plain hp hw]

end

/-! ## Reading a reference -/

/-- The sign between the brace and the name. -/
inductive Mark where
  | plain
  | ifDefined
  | ifUndefined
  deriving DecidableEq

namespace Mark

def text : Mark → Str
  | plain => []
  | ifDefined => ['?']
  | ifUndefined => ['!', '?']

/-- The front of a reference in braces. -/
def start (m : Mark) : Str := "%\x7b".toList ++ m.text

end Mark

theorem percent_not_mem_name {name : Str} (h : IsName name) : '%' ∉ name :=
  fun hmem => absurd (h.2 _ hmem) (by decide)

section

variable [UnicodeTables] {u name : Str} {T : Table} {t : MacroText}

theorem isWord_of_isNameLetter {c : Char} (h : isNameLetter c = true) : isWord c = true := by
  simp only [isNameLetter, Bool.or_eq_true, decide_eq_true_eq] at h
  rcases h with (h | h) | rfl
  · simp [isWord, h]
  · simp [isWord, h]
  · simp [isWord]

omit [UnicodeTables] in
/-- No name begins with a sign, and none is empty. -/
theorem exists_name_cons (h : IsName name) :
    ∃ c s, name = c :: s ∧ c ≠ '?' ∧ c ≠ '!' ∧ c ≠ '\x7b' := by
  obtain ⟨c, s, rfl⟩ := List.exists_cons_of_ne_nil h.1
  have hc := h.2 c List.mem_cons_self
  refine ⟨c, s, rfl, ?_, ?_, ?_⟩
  all_goals
    rintro rfl
    exact absurd hc (by decide)

/-- The name of a reference is read behind its own sign only. -/
theorem macroName_start {m m' : Mark} {close : Char} (hname : IsName name) (hclose : isWord close = false) :
    macroName m.start (m'.start ++ (name ++ close :: u)) = if m = m' then some name else none := by
  obtain ⟨c, s, hcons, hquestion, hbang, -⟩ := exists_name_cons hname
  have htake : (name ++ close :: u).takeWhile isWord = name := by
    rw [List.takeWhile_append_of_pos fun c hc => isWord_of_isNameLetter (hname.2 c hc),
      List.takeWhile_cons_of_neg (by rw [hclose]; decide), List.append_nil]
  have hsame : macroName m.start (m.start ++ (name ++ close :: u)) = some name := by
    unfold macroName
    rw [List.drop_left, htake]
    exact if_pos ⟨startsWith_iff.mpr (List.prefix_append _ _), hname.1⟩
  by_cases h : m = m'
  · rw [if_pos h, ← h, hsame]
  · rw [if_neg h]
    unfold macroName
    apply if_neg
    rintro ⟨hstart, hne⟩
    rw [startsWith_iff, hcons] at hstart
    cases m with
    | plain =>
        -- behind the brace there is a sign where a name should begin
        cases m' with
        | plain => exact h rfl
        | ifDefined => exact hne (by simp [Mark.start, Mark.text, isWord]; decide)
        | ifUndefined => exact hne (by simp [Mark.start, Mark.text, isWord]; decide)
    | ifDefined =>
        cases m' with
        | plain => simp [Mark.start, Mark.text, hquestion.symm] at hstart
        | ifDefined => exact h rfl
        | ifUndefined => simp [Mark.start, Mark.text] at hstart
    | ifUndefined =>
        cases m' with
        | plain => simp [Mark.start, Mark.text, hbang.symm] at hstart
        | ifDefined => simp [Mark.start, Mark.text] at hstart
        | ifUndefined => exact h rfl

/-- Nothing in braces is read off a name without braces. -/
theorem macroName_bare {m : Mark} (hname : IsName name) : macroName m.start ('%' :: (name ++ u)) = none := by
  obtain ⟨c, s, rfl, -, -, hbrace⟩ := exists_name_cons hname
  unfold macroName
  apply if_neg
  rintro ⟨hstart, -⟩
  rw [startsWith_iff] at hstart
  simp [Mark.start, hbrace.symm] at hstart

theorem macroName_not_percent {m : Mark} {c : Char} (hc : c ≠ '%') : macroName m.start (c :: u) = none := by
  unfold macroName
  apply if_neg
  rintro ⟨hstart, -⟩
  rw [startsWith_iff] at hstart
  simp [Mark.start, hc.symm] at hstart

omit [UnicodeTables] in
theorem drop_start_name {m : Mark} {v : Str} :
    (m.start ++ (name ++ v)).drop (m.start.length + name.length) = v := by
  rw [← List.drop_drop, List.drop_left, List.drop_left]

end

/-! ## Bodies -/

section

variable {u name : Str} {t : MacroText}

theorem macroBody_plain {inner : Bool} {c : Char} (hopen : c ≠ '\x7b') (hclose : c ≠ '\x7d') :
    macroBody inner (c :: u) = (macroBody inner u).map (c :: ·) := by
  conv_lhs => unfold macroBody
  split
  · rename_i heq
    cases heq
  all_goals
    rename_i heq
    try (cases heq; contradiction)
  · obtain ⟨rfl, rfl⟩ := List.cons.inj ‹_›
    rfl

theorem macroBody_text {inner : Bool} {w : Str} (hw : ∀ c ∈ w, c ≠ '\x7b' ∧ c ≠ '\x7d') :
    macroBody inner (w ++ u) = (macroBody inner u).map (w ++ ·) := by
  induction w with
  | nil => simp
  | cons c w ih =>
      obtain ⟨hopen, hclose⟩ := hw c List.mem_cons_self
      rw [List.cons_append, macroBody_plain hopen hclose, ih fun d hd => hw d (List.mem_cons_of_mem c hd),
        Option.map_map]
      rfl

theorem name_braceless (h : IsName name) : ∀ c ∈ name, c ≠ '\x7b' ∧ c ≠ '\x7d' := by
  intro c hc
  have hletter := h.2 c hc
  constructor
  all_goals
    rintro rfl
    exact absurd hletter (by decide)

theorem mark_braceless (m : Mark) : ∀ c ∈ m.text, c ≠ '\x7b' ∧ c ≠ '\x7d' := by
  cases m <;> decide

/-- Inside of braces a body has no others. -/
theorem macroBody_inner (hclean : t.Clean) :
    macroBody true (t.render ++ u) = if t.braceless then (macroBody true u).map (t.render ++ ·) else none := by
  induction t with
  | nil => simp [MacroText.render, MacroText.braceless]
  | chr c rest ih =>
      rw [MacroText.render, List.cons_append, macroBody_plain hclean.1.2.1 hclean.1.2.2, ih hclean.2,
        MacroText.braceless]
      split
      · rw [Option.map_map]
        rfl
      · rfl
  | ref form name rest ih =>
      cases form with
      | bare =>
          rw [MacroText.render, Form.text, List.cons_append, List.cons_append,
            macroBody_plain (by decide) (by decide), List.append_assoc, macroBody_text (name_braceless hclean.1),
            ih hclean.2]
          simp only [MacroText.braceless, decide_true, Bool.true_and]
          split
          · rw [Option.map_map, Option.map_map]
            simp [Function.comp_def]
          · rfl
      | braced =>
          rw [MacroText.render, Form.text]
          show macroBody true ('%' :: '\x7b' :: _) = _
          rw [macroBody_plain (by decide) (by decide)]
          rfl
      | optional =>
          rw [MacroText.render, Form.text]
          show macroBody true ('%' :: '\x7b' :: _) = _
          rw [macroBody_plain (by decide) (by decide)]
          rfl
  | cond negated name body rest _ _ =>
      rw [MacroText.render]
      cases negated
      all_goals
        show macroBody true ('%' :: '\x7b' :: _) = _
        rw [macroBody_plain (by decide) (by decide)]
        rfl

/-- Behind the front of a reference the body goes on inside of its braces. -/
theorem macroBody_start {m : Mark} {v : Str} (hname : IsName name) :
    macroBody false (m.start ++ (name ++ v)) = (macroBody true v).map (m.start ++ name ++ ·) := by
  show macroBody false ('%' :: '\x7b' :: (m.text ++ (name ++ v))) = _
  rw [macroBody_plain (by decide) (by decide)]
  show ((macroBody true (m.text ++ (name ++ v))).map ('\x7b' :: ·)).map _ = _
  rw [macroBody_text (mark_braceless m), macroBody_text (name_braceless hname)]
  simp only [Option.map_map]
  congr 1
  funext v
  simp [Mark.start]

theorem macroBody_close {v : Str} : macroBody true ('\x7d' :: v) = (macroBody false v).map ('\x7d' :: ·) := by
  rw [macroBody]

/-- The mark of a conditional. -/
def Mark.ofNegated (negated : Bool) : Mark := if negated then .ifUndefined else .ifDefined

theorem opening_eq (negated : Bool) : opening negated = (Mark.ofNegated negated).start := by
  cases negated <;> rfl

/-- The mark of a reference in braces. -/
def Mark.ofForm : Form → Mark
  | .optional => .ifDefined
  | _ => .plain

theorem formText_eq {form : Form} (h : form ≠ .bare) : form.text name = (Mark.ofForm form).start ++ (name ++ ['\x7d']) := by
  cases form with
  | bare => exact absurd rfl h
  | braced => rfl
  | optional => rfl

/-- A body is read to its brace if it has one level of braces at most. -/
theorem macroBody_render (hclean : t.Clean) :
    macroBody false (t.render ++ u) = if t.flat then (macroBody false u).map (t.render ++ ·) else none := by
  induction t with
  | nil => simp [MacroText.render, MacroText.flat]
  | chr c rest ih =>
      rw [MacroText.render, List.cons_append, macroBody_plain hclean.1.2.1 hclean.1.2.2, ih hclean.2,
        MacroText.flat]
      split
      · rw [Option.map_map]
        rfl
      · rfl
  | ref form name rest ih =>
      by_cases hform : form = .bare
      · subst hform
        rw [MacroText.render, Form.text, List.cons_append, List.cons_append,
          macroBody_plain (by decide) (by decide), List.append_assoc, macroBody_text (name_braceless hclean.1),
          ih hclean.2, MacroText.flat]
        split
        · simp [Function.comp_def]
        · rfl
      · rw [MacroText.render, formText_eq hform]
        simp only [List.append_assoc]
        rw [macroBody_start hclean.1, List.singleton_append, macroBody_close, ih hclean.2, MacroText.flat]
        split
        · simp [Function.comp_def]
        · rfl
  | cond negated name body rest ihbody ih =>
      rw [MacroText.render, opening_eq]
      simp only [List.append_assoc, List.cons_append]
      rw [macroBody_start hclean.1, macroBody_plain (by decide) (by decide), macroBody_inner hclean.2.1,
        MacroText.flat]
      cases body.braceless with
      | false => rfl
      | true =>
          rw [if_pos rfl, macroBody_close, ih hclean.2.2, Bool.true_and]
          split
          · simp [Function.comp_def]
          · rfl

end

/-! ## A substitution is a pass -/

section

variable [UnicodeTables] {u name : Str} {T : Table} {t body : MacroText} {m m' : Mark}

theorem isWord_colon : isWord ':' = false := by simp [isWord]; decide

theorem isWord_brace : isWord '\x7d' = false := by simp [isWord]; decide

theorem parseConditional_starts {value : Str → Str → Str} : StartsAtPercent (parseConditional m.start value) := by
  intro c s hc
  rw [parseConditional, macroName_not_percent hc]
  rfl

theorem parseReference_starts {value : Str → Str} : StartsAtPercent (parseReference m.start value) := by
  intro c s hc
  rw [parseReference, macroName_not_percent hc]
  rfl

theorem parseConditional_bare {value : Str → Str → Str} (hname : IsName name) :
    parseConditional m.start value ('%' :: (name ++ u)) = none := by
  rw [parseConditional, macroName_bare hname]
  rfl

theorem parseReference_bare {value : Str → Str} (hname : IsName name) :
    parseReference m.start value ('%' :: (name ++ u)) = none := by
  rw [parseReference, macroName_bare hname]
  rfl

theorem parseConditional_ref {value : Str → Str → Str} (hname : IsName name) :
    parseConditional m.start value (m'.start ++ (name ++ '\x7d' :: u)) = none := by
  rw [parseConditional, macroName_start hname isWord_brace]
  split
  · rename_i h
    subst h
    simp only [Option.bind_eq_bind, Option.bind_some, drop_start_name]
    rfl
  · rfl

theorem parseConditional_cond {value : Str → Str → Str} (hname : IsName name) (hclean : body.Clean) :
    parseConditional m.start value (m'.start ++ (name ++ ':' :: (body.render ++ '\x7d' :: u))) =
      if m = m' ∧ body.flat = true then
        some ((m'.start ++ (name ++ ':' :: (body.render ++ ['\x7d']))).length, value name body.render)
      else none := by
  rw [parseConditional, macroName_start hname isWord_colon]
  by_cases h : m = m'
  · subst h
    rw [if_pos rfl]
    simp only [Option.bind_eq_bind, Option.bind_some, drop_start_name, macroBody_render hclean, true_and]
    cases body.flat with
    | false => rfl
    | true =>
        rw [if_pos rfl, if_pos rfl]
        simp only [macroBody, Option.map_some, Option.bind_some, List.append_nil, Option.pure_def, List.length_append,
          List.length_cons, List.length_nil]
        congr 2
        omega
  · rw [if_neg h, if_neg fun hand => h hand.1]
    rfl

theorem parseReference_cond {value : Str → Str} (hname : IsName name) :
    parseReference m.start value (m'.start ++ (name ++ ':' :: u)) = none := by
  rw [parseReference, macroName_start hname isWord_colon]
  split
  · rename_i h
    subst h
    simp only [Option.bind_eq_bind, Option.bind_some, drop_start_name]
    rfl
  · rfl

theorem parseReference_ref {value : Str → Str} (hname : IsName name) :
    parseReference m.start value (m'.start ++ (name ++ '\x7d' :: u)) =
      if m = m' then some ((m'.start ++ (name ++ ['\x7d'])).length, value name) else none := by
  rw [parseReference, macroName_start hname isWord_brace]
  by_cases h : m = m'
  · subst h
    rw [if_pos rfl, if_pos rfl]
    simp only [Option.bind_eq_bind, Option.bind_some, drop_start_name, Option.pure_def, List.length_append,
      List.length_cons, List.length_nil]
    congr 2
  · rw [if_neg h, if_neg h]
    rfl

omit [UnicodeTables] in
/-- The text of a reference that is passed over. -/
theorem substitute_kept {parse : Str → Option (Nat × Str)} {close : Char} (hp : StartsAtPercent parse)
    (hname : IsName name) (hclose : close ≠ '%') (h : parse (m.start ++ (name ++ close :: u)) = none) :
    substitute parse 0 (m.start ++ (name ++ close :: u)) = m.start ++ (name ++ close :: substitute parse 0 u) := by
  have hnot : '%' ∉ '\x7b' :: m.text ++ name ++ [close] := by
    intro hmem
    simp only [List.mem_append, List.mem_cons, List.not_mem_nil, or_false] at hmem
    rcases hmem with ((hmem | hmem) | hmem) | hmem
    · exact absurd hmem (by decide)
    · exact absurd hmem (by cases m <;> decide)
    · exact percent_not_mem_name hname hmem
    · exact hclose hmem.symm
  have hsplit : ∀ v, m.start ++ (name ++ close :: v) = '%' :: ('\x7b' :: m.text ++ name ++ [close] ++ v) := by
    intro v
    simp [Mark.start]
  rw [hsplit] at h ⊢
  rw [substitute_percent hp hnot h, hsplit]

/-- The table as the code has it. -/
def macroTexts (T : Table) : Macros := T.map fun e => (e.1, e.2.render)

omit [UnicodeTables] in
theorem lookup_texts (T : Table) (name : Str) : (macroTexts T).lookup name = (T.lookup name).map MacroText.render := by
  induction T with
  | nil => rfl
  | cons e T ih =>
      rw [macroTexts, List.map_cons, List.lookup_cons, List.lookup_cons]
      split
      · rfl
      · exact ih

/-- What `_expand_macros` puts in the place of a conditional. -/
def condValue (macros : Macros) (negated : Bool) (name body : Str) : Str :=
  if (macros.lookup name).isSome = negated then [] else body

omit [UnicodeTables] in
theorem condValue_eq {negated : Bool} : condValue (macroTexts T) negated name body.render =
    (branch T negated name body).render := by
  rw [condValue, branch, lookup_texts, Option.isSome_map]
  split <;> rfl

omit [UnicodeTables] in
theorem mark_ofNegated_inj {negated neg : Bool} : Mark.ofNegated negated = Mark.ofNegated neg ↔ negated = neg := by
  cases negated <;> cases neg <;> decide

/-- The substitution of conditionals is a pass. -/
theorem substitute_condPass {neg : Bool} (hclean : t.Clean) :
    substitute (parseConditional (opening neg) (condValue (macroTexts T) neg)) 0 (t.render ++ u) =
      (condPass T neg t).render ++ substitute (parseConditional (opening neg) (condValue (macroTexts T) neg)) 0 u := by
  rw [opening_eq]
  induction t generalizing u with
  | nil => rfl
  | chr c rest ih =>
      rw [MacroText.render, List.cons_append, substitute_none (parseConditional_starts c _ hclean.1.1), ih hclean.2]
      rfl
  | ref form name rest ih =>
      rw [condPass, MacroText.render, MacroText.render]
      by_cases hform : form = .bare
      · subst hform
        simp only [Form.text, List.append_assoc, List.cons_append]
        rw [substitute_percent parseConditional_starts (percent_not_mem_name hclean.1) (parseConditional_bare hclean.1),
          ih hclean.2]
      · rw [formText_eq hform]
        simp only [List.append_assoc, List.cons_append, List.nil_append]
        rw [substitute_kept parseConditional_starts hclean.1 (by decide) (parseConditional_ref hclean.1), ih hclean.2]
  | cond negated name body rest ihbody ih =>
      have hparse : ∀ v, parseConditional (Mark.ofNegated neg).start (condValue (macroTexts T) neg)
          ((Mark.ofNegated negated).start ++ (name ++ ':' :: (body.render ++ '\x7d' :: v))) = _ :=
        fun v => parseConditional_cond hclean.1 hclean.2.1
      by_cases h : negated = neg ∧ body.flat = true
      · obtain ⟨rfl, hflat⟩ := h
        rw [condPass_removed hflat, MacroText.render, opening_eq]
        have hsplit : (Mark.ofNegated negated).start ++ name ++ ':' :: (body.render ++ '\x7d' :: rest.render) ++ u =
            ((Mark.ofNegated negated).start ++ (name ++ ':' :: (body.render ++ ['\x7d']))) ++ (rest.render ++ u) := by
          simp
        have htake := hparse (rest.render ++ u)
        rw [if_pos ⟨rfl, hflat⟩] at htake
        rw [hsplit, substitute_take (by simp [Mark.start]) (by simpa using htake), ih hclean.2.2, condValue_eq,
          render_append, List.append_assoc]
      · have hkept : negated = neg → body.flat = false :=
          fun hneg => Bool.eq_false_iff.mpr fun hflat => h ⟨hneg, hflat⟩
        have hnone : ∀ v, parseConditional (Mark.ofNegated neg).start (condValue (macroTexts T) neg)
            ((Mark.ofNegated negated).start ++ (name ++ ':' :: (body.render ++ '\x7d' :: v))) = none := by
          intro v
          rw [hparse, if_neg]
          rintro ⟨hmark, hflat⟩
          exact h ⟨(mark_ofNegated_inj.mp hmark).symm, hflat⟩
        rw [condPass_kept hkept, MacroText.render, MacroText.render, opening_eq]
        simp only [List.append_assoc, List.cons_append]
        rw [substitute_kept parseConditional_starts hclean.1 (by decide) (hnone _), ihbody hclean.2.1,
          substitute_none (parseConditional_starts _ _ (by decide)), ih hclean.2.2]

/-- What `_expand_macros` puts in the place of a reference in braces. -/
def refText (macros : Macros) (form : Form) (name : Str) : Str :=
  (macros.lookup name).getD (if form = .optional then [] else form.text name)

omit [UnicodeTables] in
theorem refText_eq {form : Form} : refText (macroTexts T) form name = (refValue T form name).render := by
  rw [refText, refValue, lookup_texts]
  cases T.lookup name with
  | some body => rfl
  | none =>
      rw [Option.map_none, Option.getD_none]
      split
      · rfl
      · rw [MacroText.render, MacroText.render, List.append_nil]

omit [UnicodeTables] in
theorem mark_ofForm_inj {form form' : Form} (h : form ≠ .bare) (h' : form' ≠ .bare) :
    Mark.ofForm form = Mark.ofForm form' ↔ form = form' := by
  cases form <;> cases form' <;> simp_all [Mark.ofForm]

/-- The substitution of references is a pass. -/
theorem substitute_refPass {form : Form} (hform : form ≠ .bare) (hclean : t.Clean) :
    substitute (parseReference (Mark.ofForm form).start (refText (macroTexts T) form)) 0 (t.render ++ u) =
      (refPass T form t).render ++
        substitute (parseReference (Mark.ofForm form).start (refText (macroTexts T) form)) 0 u := by
  induction t generalizing u with
  | nil => rfl
  | chr c rest ih =>
      rw [MacroText.render, List.cons_append, substitute_none (parseReference_starts c _ hclean.1.1), ih hclean.2]
      rfl
  | ref form' name rest ih =>
      rw [refPass, MacroText.render]
      by_cases hbare : form' = .bare
      · subst hbare
        rw [if_neg hform.symm, MacroText.render]
        simp only [Form.text, List.append_assoc, List.cons_append]
        rw [substitute_percent parseReference_starts (percent_not_mem_name hclean.1) (parseReference_bare hclean.1),
          ih hclean.2]
      · have hparse : ∀ v, parseReference (Mark.ofForm form).start (refText (macroTexts T) form)
            ((Mark.ofForm form').start ++ (name ++ '\x7d' :: v)) = _ := fun v => parseReference_ref hclean.1
        by_cases hsame : form' = form
        · subst hsame
          have htake := hparse (rest.render ++ u)
          rw [if_pos rfl] at htake
          rw [if_pos rfl, formText_eq hform, List.append_assoc,
            substitute_take (by simp [Mark.start]) (by simpa using htake), ih hclean.2, refText_eq, render_append,
            List.append_assoc]
        · have hnone : ∀ v, parseReference (Mark.ofForm form).start (refText (macroTexts T) form)
              ((Mark.ofForm form').start ++ (name ++ '\x7d' :: v)) = none := by
            intro v
            rw [hparse, if_neg]
            exact fun hmark => hsame ((mark_ofForm_inj hform hbare).mp hmark).symm
          rw [if_neg hsame, MacroText.render, formText_eq hbare]
          simp only [List.append_assoc, List.cons_append, List.nil_append]
          rw [substitute_kept parseReference_starts hclean.1 (by decide) (hnone _), ih hclean.2]
  | cond negated name body rest ihbody ih =>
      rw [refPass, MacroText.render, MacroText.render, opening_eq]
      simp only [List.append_assoc, List.cons_append]
      rw [substitute_kept parseReference_starts hclean.1 (by decide) (parseReference_cond hclean.1),
        ihbody hclean.2.1, substitute_none (parseReference_starts _ _ (by decide)), ih hclean.2.2]

/-! ## The loop -/

/-- A turn of the loop is a round. -/
theorem expandOnce_render {n : Nat} (h : Within T n t) :
    expandOnce (macroTexts T) t.render = (MacroExpansion.round T t).render := by
  have hcond : ∀ {neg : Bool} {t}, Within T n t →
      substitute (parseConditional (opening neg) (condValue (macroTexts T) neg)) 0 t.render =
        (condPass T neg t).render := by
    intro neg t h
    have hpass : substitute (parseConditional (opening neg) (condValue (macroTexts T) neg)) 0 (t.render ++ []) = _ :=
      substitute_condPass h.clean
    rwa [List.append_nil, substitute, List.append_nil] at hpass
  have href : ∀ {form : Form} {t}, form ≠ .bare → Within T n t →
      substitute (parseReference (Mark.ofForm form).start (refText (macroTexts T) form)) 0 t.render =
        (refPass T form t).render := by
    intro form t hform h
    have hpass := substitute_refPass (T := T) (u := []) hform h.clean
    rwa [List.append_nil, substitute, List.append_nil] at hpass
  have hneg : Within T n (condPass T true t) := condPass_within h
  have hpos : Within T n (condPass T false (condPass T true t)) := condPass_within hneg
  have hopt : Within T n (refPass T .optional (condPass T false (condPass T true t))) :=
    refPass_within (by decide) hpos
  rw [MacroExpansion.round, ← href (by decide) hopt, ← href (by decide) hpos, ← hcond hneg, ← hcond h]
  have hdefined : condValue (macroTexts T) false =
      fun name body => if ((macroTexts T).lookup name).isSome then body else [] := by
    funext name body
    rw [condValue]
    cases ((macroTexts T).lookup name).isSome <;> rfl
  rw [hdefined]
  rfl

/-- A text that a turn leaves as it is stays so. -/
theorem expandFrom_fixed {macros : Macros} {value : Str} (h : expandOnce macros value = value) :
    ∀ n, expandFrom macros n value = value
  | 0 => rfl
  | n + 1 => by rw [expandFrom, h, if_pos rfl]

/-- **`expandFrom_within`** — as many turns as references are nested give the expansion. -/
theorem expandFrom_within {n : Nat} {out : Str} (hwithin : Within T n t) (h : Expands T t out) :
    expandFrom (macroTexts T) n t.render = out := by
  induction n generalizing t with
  | zero => exact render_of_within_zero hwithin h
  | succ n ih =>
      have hnext := ih (round_within hwithin) (round_expands h)
      rw [expandFrom, expandOnce_render hwithin]
      split
      · rename_i hsame
        -- the loop ends early, and the turns that are left would change nothing
        rw [← hnext]
        have hfixed : expandOnce (macroTexts T) (MacroExpansion.round T t).render =
            (MacroExpansion.round T t).render := by
          rw [hsame, expandOnce_render hwithin, hsame]
        exact (expandFrom_fixed hfixed n).symm
      · exact hnext

end

end HummingbirdRpms
