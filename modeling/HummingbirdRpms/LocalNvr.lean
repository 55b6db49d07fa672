/-
# HummingbirdRpms.LocalNvr — the NVR that the CVE helper reads, and rpm's.

rpm reads a preamble line by line: a `%global` is expanded where it stands, a `%define` where it is used, a
tag with the definitions before it.  `read_local_spec_nvr` collects all definitions first, the last one of
every name, and rewrites the three fields with them, ten rounds at most and references in braces only.

**`local_nvr_rpm`** — it reads what rpm expands if, in rpm's expansion of each field, no reference without
braces is expanded and every macro that is looked up has the definition that is the last one of the
preamble, and if references are nested at most ten deep.
-/
import HummingbirdRpms.Lib.RegexLines
import HummingbirdRpms.Lib.RegexSplit
import HummingbirdRpms.SpecExpansion

namespace HummingbirdRpms

open Lib Lib.Text Lib.Regex Lib.MacroExpansion
open Lib.MacroExpansion.MacroText (ofText render_ofText)

/-! ## Specs -/

/-- The tags that make the NVR. -/
inductive NvrTag where
  | name
  | version
  | release
  deriving DecidableEq

/-- A tag in lower case, which is also the macro that rpm defines behind its line. -/
def NvrTag.text : NvrTag → Str
  | name => "name"
  | version => "version"
  | release => "release"

/-- A line of a preamble. -/
inductive PreambleLine where
  /-- `%global` or `%define` -/
  | definition (byValue : Bool) (gap name gap' : Str) (body : MacroText) (trail : Str)
  | tag (which : NvrTag) (spelled gap : Str) (value : MacroText) (trail : Str)
  | other (text : Str)

namespace PreambleLine

def keyword (byValue : Bool) : Str := if byValue then "global" else "define"

/-- The line as it is written. -/
def render : PreambleLine → Str
  | definition byValue gap name gap' body trail =>
      "%".toList ++ (keyword byValue ++ (gap ++ (name ++ (gap' ++ (body.render ++ trail)))))
  | tag _ spelled gap value trail => spelled ++ (":".toList ++ (gap ++ (value.render ++ trail)))
  | other text => text

end PreambleLine

open PreambleLine

/-- White space inside of a line. -/
def Blank (s : Str) : Prop := ∀ c ∈ s, isSpace c = true ∧ c ≠ '\n'

instance : DecidablePred Blank := fun s => inferInstanceAs (Decidable (∀ c ∈ s, isSpace c = true ∧ c ≠ '\n'))

/-- The text begins with the tag and a colon, up to case. -/
def tagFront : (word text : Str) → Bool
  | [], c :: _ => c = ':'
  | a :: word, c :: text => Re.foldEq a c && tagFront word text
  | _, [] => false

/-- The text begins with the keyword of a definition. -/
def definitionFront (text : Str) : Bool := startsWith "%global" text || startsWith "%define" text

/-- The sections at which a preamble ends. -/
def sectionNames : List Str := ["description", "package", "prep", "build", "install", "files", "changelog"]

section

variable [UnicodeTables]

/-- The text begins with the head of a section. -/
def sectionFront (text : Str) : Bool :=
  sectionNames.any fun s => startsWith ('%' :: s) text && !inClass isWord text[s.length + 1]?

namespace PreambleLine

/-- A definition or a tag with something on its line, or a line that is neither of them nor the head of a
section. -/
def WellFormed : PreambleLine → Prop
  | definition _ gap name gap' body trail =>
      gap ≠ [] ∧ Blank gap ∧ IsName name ∧ gap' ≠ [] ∧ Blank gap' ∧ Solid body.render ∧ '\n' ∉ body.render ∧
        Blank trail
  | tag which spelled gap value trail =>
      lowerAscii spelled = which.text ∧ Blank gap ∧ Solid value.render ∧ '\n' ∉ value.render ∧ value.Legible ∧
        Blank trail
  | other text => '\n' ∉ text ∧ definitionFront text = false ∧ (∀ which : NvrTag, tagFront which.text text = false) ∧
      sectionFront text = false

end PreambleLine

/-- A spec: the lines of its preamble, and what begins with the first section. -/
structure SpecText where
  lines : List PreambleLine
  rest : Str
  nonempty : lines ≠ []
  wellFormed : ∀ l ∈ lines, l.WellFormed
  sections : rest = [] ∨ lines.getLast? = some (.other []) ∧ sectionFront rest = true

/-- The preamble. -/
def SpecText.preamble (spec : SpecText) : Str := join "\n" (spec.lines.map PreambleLine.render)

def SpecText.text (spec : SpecText) : Str := spec.preamble ++ spec.rest

end

/-! ## How rpm reads a preamble -/

/-- What a line defines: a macro, or that of its tag. -/
def PreambleLine.defines : PreambleLine → Option Def
  | definition byValue _ name _ body _ => some ⟨name, byValue, body⟩
  | tag which _ _ value _ => some ⟨which.text, true, value⟩
  | other _ => none

/-- The definitions behind some lines, latest first. -/
def definitionsOf (lines : List PreambleLine) : List Def := (lines.filterMap PreambleLine.defines).reverse

/-- The value that a line gives a tag. -/
def PreambleLine.valueOf (which : NvrTag) : PreambleLine → Option MacroText
  | tag which' _ _ value _ => if which' = which then some value else none
  | _ => none

/-- The value of a tag, and the lines before it. -/
def findTag (which : NvrTag) : List PreambleLine → Option (MacroText × List PreambleLine)
  | [] => none
  | l :: lines =>
      match l.valueOf which with
      | some value => some (value, [])
      | none => (findTag which lines).map fun found => (found.1, l :: found.2)

section

variable [UnicodeTables]

/-- rpm expands the tag to the text. -/
def SpecText.RpmExpands (spec : SpecText) (which : NvrTag) (out : Str) : Prop :=
  ∃ value before, findTag which spec.lines = some (value, before) ∧ ExpandsIn (definitionsOf before) value out

/-- The last definition of every macro, as it is written. -/
def PreambleLine.tableEntry : PreambleLine → Option (Str × MacroText)
  | .definition _ _ name _ body _ => some (name, body)
  | _ => none

def SpecText.table (spec : SpecText) : Table := (spec.lines.filterMap PreambleLine.tableEntry).reverse

/-- With a table, rewriting a tag gives what rpm expands: in rpm's expansion, references are written in braces
and mean what they mean in the table, and they are nested at most ten deep. -/
def SpecText.Settled (spec : SpecText) (which : NvrTag) (T : Table) : Prop :=
  ∀ value before, findTag which spec.lines = some (value, before) →
    InForce T (definitionsOf before) value ∧ Within T 10 value

end

/-! ## What the patterns find on a line -/

section

variable {t : Str} {s : St} {g : Nat} {u : Str} {p : Char → Bool} {byValue : Bool}

theorem run_group_some1_nil (h : inClass p t[s.pos]? = false) : run t (.group g (Re.some1 p)) s = [] := by
  have hnil := run_some1_cat_nil (r := .eps) h
  rw [run_group, List.map_eq_nil_iff]
  rw [run_cat] at hnil
  cases hrun : run t (Re.some1 p) s with
  | nil => rfl
  | cons e es =>
      rw [hrun] at hnil
      cases hnil

theorem inClass_solid {body v : Str} (h : Solid body) : inClass Text.isSpace (body ++ v).head? = false := by
  obtain ⟨c, hc, hspace⟩ := h.head
  rw [List.head?_append, hc]
  exact hspace

/-- Both keywords have six letters. -/
theorem run_keyword (h : t.drop s.pos = keyword byValue ++ u) :
    run t (.alt (.lit "global") (.lit "define")) s = [{ s with pos := s.pos + 6 }] := by
  cases byValue
  · have hnone : ¬ "global".toList <+: t.drop s.pos := by
      rw [h]
      rintro ⟨v, hv⟩
      exact absurd (List.cons.inj hv).1 (by decide)
    rw [run_alt, run_lit_nil hnone, run_lit_of_drop (w := "define") h]
    rfl
  · have hnone : ¬ "define".toList <+: t.drop s.pos := by
      rw [h]
      rintro ⟨v, hv⟩
      exact absurd (List.cons.inj hv).1 (by decide)
    rw [run_alt, run_lit_nil hnone, run_lit_of_drop (w := "global") h]
    rfl

theorem length_keyword (byValue : Bool) : (keyword byValue).length = 6 := by cases byValue <;> rfl

end

section

variable [UnicodeTables] {t : Str} {i : Nat} {rest gap name gap' trail : Str} {byValue : Bool}
  {body value : MacroText}

theorem isSpace_of_isNameLetter {c : Char} (h : isNameLetter c = true) : Text.isSpace c = false := by
  cases hspace : Text.isSpace c with
  | false => rfl
  | true =>
      have hword := isWord_of_isNameLetter h
      rw [isWord_of_isSpace hspace] at hword
      cases hword

/-- A definition is found with its name, and its body to the end of the line. -/
theorem definition_found (h : (PreambleLine.definition byValue gap name gap' body trail).WellFormed) :
    LineMatches macroDefinitionRe (PreambleLine.definition byValue gap name gap' body trail).render
      (some [(2, body.render ++ trail), (1, name)]) := by
  obtain ⟨hgap_ne, hgap, hname, hgap'_ne, hgap', hbody, hone, htrail⟩ := h
  intro t i rest hstart hline
  have h0 := hline.drop
  simp only [PreambleLine.render, List.append_assoc] at h0
  have h1 := drop_add_length h0
  have h2 := drop_add_length h1
  have h3 := drop_add_length h2
  have h4 := drop_add_length h3
  have h5 := drop_add_length h4
  rw [length_keyword, show "%".toList.length = 1 from rfl] at h2 h3 h4 h5
  rw [show "%".toList.length = 1 from rfl] at h1
  have hspace : ∀ c ∈ gap, Text.isSpace c = true := fun c hc => (hgap c hc).1
  have hspace' : ∀ c ∈ gap', Text.isSpace c = true := fun c hc => (hgap' c hc).1
  have hword : ∀ c ∈ name, isWord c = true := fun c hc => isWord_of_isNameLetter (hname.2 c hc)
  have hstop : inClass Text.isSpace (name ++ (gap' ++ (body.render ++ (trail ++ rest)))).head? = false := by
    obtain ⟨c, w, rfl⟩ := List.exists_cons_of_ne_nil hname.1
    exact isSpace_of_isNameLetter (hname.2 c List.mem_cons_self)
  have hstop' : inClass isWord (gap' ++ (body.render ++ (trail ++ rest))).head? = false := by
    obtain ⟨c, w, rfl⟩ := List.exists_cons_of_ne_nil hgap'_ne
    exact isWord_of_isSpace (hspace' c List.mem_cons_self)
  -- what is left of the line behind the second gap
  have htail : LineAt t (i + 1 + 6 + gap.length + name.length + gap'.length) (body.render ++ trail) rest := by
    refine ⟨by rw [h5, List.append_assoc], ?_, hline.rest⟩
    intro hmem
    rcases List.mem_append.mp hmem with hmem | hmem
    · exact hone hmem
    · exact (htrail _ hmem).2 rfl
  have hne : body.render ++ trail ≠ [] := by
    obtain ⟨c, hc, -⟩ := hbody.head
    intro hnil
    rw [(List.append_eq_nil_iff.mp hnil).1] at hc
    cases hc
  have hname_long : Longest t (Re.some1 isWord) ⟨i + 1 + 6 + gap.length, []⟩ name.length :=
    longest_some1 h3 hname.1 hword hstop'
  have hgap_long : Longest t (Re.some1 Text.isSpace) ⟨i + 1 + 6, []⟩ gap.length :=
    longest_some1 h2 hgap_ne hspace hstop
  have hgap'_long : Longest t (Re.some1 Text.isSpace) ⟨i + 1 + 6 + gap.length + name.length, [(1, name)]⟩ gap'.length :=
    longest_some1 h4 hgap'_ne hspace' (inClass_solid hbody)
  have hend : i + 1 + 6 + gap.length + name.length + gap'.length + (body.render ++ trail).length =
      i + (PreambleLine.definition byValue gap name gap' body trail).render.length := by
    simp only [PreambleLine.render, List.length_append, length_keyword, show "%".toList.length = 1 from rfl]
    omega
  have hrun : (run t macroDefinitionRe ⟨i, []⟩).head? =
      some ⟨i + (PreambleLine.definition byValue gap name gap' body trail).render.length,
        [(2, body.render ++ trail), (1, name)]⟩ := by
    have hbol : run t .bol ⟨i, []⟩ = [⟨i, []⟩] := hstart.run_bol
    have hfront : run t macroDefinitionRe ⟨i, []⟩ = run t (.cat (Re.some1 Text.isSpace)
        (.cat (.group 1 (Re.some1 isWord)) (.cat (Re.some1 Text.isSpace)
          (.cat (.group 2 (Re.some1 (· != '\n'))) .eol)))) ⟨i + 1 + 6, []⟩ := by
      have hpercent : run t (.lit "%") ⟨i, []⟩ = [⟨i + 1, []⟩] := run_lit_of_drop h0
      have hkeyword : run t (.alt (.lit "global") (.lit "define")) ⟨i + 1, []⟩ = [⟨i + 1 + 6, []⟩] := run_keyword h1
      rw [macroDefinitionRe, Re.seq, run_cat, hbol, List.flatMap_singleton, Re.seq, run_cat, hpercent,
        List.flatMap_singleton, Re.seq, run_cat, hkeyword, List.flatMap_singleton]
      rfl
    rw [hfront, hgap_long.run_cat, hname_long.run_group_cat h3, head?_cat]
    · obtain ⟨others, hrun, -⟩ := hgap'_long
      rw [hrun, List.findSome?_cons]
      dsimp only
      rw [htail.head?_groupSome hne, hend]
    · -- behind a part of the name there is no white space
      intro k caps _ hk
      apply run_some1_cat_nil
      have hletter := inClass_of_drop h3 hk hname.2
      obtain ⟨c, hc, hc'⟩ := inClass_iff.mp hletter
      rw [hc]
      exact isSpace_of_isNameLetter hc'
    · -- behind a part of the gap no name begins
      intro k _ hk
      rw [run_cat, run_group_some1_nil]
      · rfl
      · obtain ⟨c, hc, hc'⟩ := inClass_iff.mp (inClass_of_drop h2 hk hspace)
        rw [hc]
        exact isWord_of_isSpace hc'
  rw [matchAt_of_head? hrun]
  rfl

/-- Other lines are no definitions. -/
theorem definition_none {line : Str} (h : definitionFront line = false) : LineMatches macroDefinitionRe line none := by
  intro t i rest _ hline
  have hfronts := Bool.or_eq_false_iff.mp h
  have hglobal : ¬ "%global".toList <+: line := mt startsWith_iff.mpr (Bool.eq_false_iff.mp hfronts.1)
  have hdefine : ¬ "%define".toList <+: line := mt startsWith_iff.mpr (Bool.eq_false_iff.mp hfronts.2)
  apply matchAt_none_of_run
  rw [List.eq_nil_iff_forall_not_mem]
  intro e he
  obtain ⟨m, hm, he⟩ := mem_run_seq_cons.mp he
  obtain ⟨-, rfl⟩ := mem_run_bol.mp hm
  obtain ⟨m, hm, he⟩ := mem_run_seq_cons.mp he
  obtain ⟨hpercent, rfl⟩ := mem_run_lit.mp hm
  obtain ⟨m, hm, -⟩ := mem_run_seq_cons.mp he
  rcases mem_run_alt.mp hm with hm | hm
  · have hfront := prefix_drop_append hpercent (mem_run_lit.mp hm).1
    exact hglobal ((hline.prefix_iff (by decide)).mp hfront)
  · have hfront := prefix_drop_append hpercent (mem_run_lit.mp hm).1
    exact hdefine ((hline.prefix_iff (by decide)).mp hfront)

end

/-! ## Tags -/

section

variable {word text s : Str}

/-- A text in lower case is the same as itself, up to case. -/
theorem same_of_lowerAscii (h : lowerAscii s = word) :
    List.Forall₂ (fun c d => Re.foldEq c d = true) word s := by
  rw [← h, lowerAscii, List.forall₂_map_left_iff]
  refine List.forall₂_same.mpr fun c _ => ?_
  simp [Re.foldEq]

/-- What the text begins with where a tag is found. -/
theorem tagFront_iff : tagFront word text = true ↔
    ∃ x, List.Forall₂ (fun c d => Re.foldEq c d = true) word x ∧ x ++ [':'] <+: text := by
  induction word generalizing text with
  | nil =>
      constructor
      · intro h
        cases text with
        | nil => cases h
        | cons c text =>
            have hc : c = ':' := of_decide_eq_true h
            exact ⟨[], .nil, by rw [hc]; exact List.prefix_append [':'] text⟩
      · rintro ⟨x, hx, u, rfl⟩
        cases hx
        rfl
  | cons a word ih =>
      cases text with
      | nil =>
          simp only [tagFront, Bool.false_eq_true, false_iff, not_exists, not_and]
          intro x _ hprefix
          have hlen := hprefix.length_le
          simp at hlen
      | cons c text =>
          rw [tagFront, Bool.and_eq_true, ih]
          constructor
          · rintro ⟨hc, x, hx, hprefix⟩
            exact ⟨c :: x, .cons hc hx, List.cons_prefix_cons.mpr ⟨rfl, hprefix⟩⟩
          · rintro ⟨x, hx, hprefix⟩
            cases hx with
            | cons hc hx =>
                obtain ⟨rfl, htail⟩ := List.cons_prefix_cons.mp hprefix
                exact ⟨hc, _, hx, htail⟩

theorem newline_not_mem_same {x : Str} (hword : '\n' ∉ word)
    (h : List.Forall₂ (fun c d => Re.foldEq c d = true) word x) : '\n' ∉ x := by
  induction h with
  | nil => exact List.not_mem_nil
  | @cons a d word x had _ ih =>
      intro hmem
      rcases List.mem_cons.mp hmem with rfl | hmem
      · have ha : a = '\n' := by
          have hlower : lowerChar '\n' = '\n' := by decide
          simp only [Re.foldEq, hlower, Bool.or_eq_true, Bool.and_eq_true, decide_eq_true_eq] at had
          rcases had with (((h | h) | h) | h) | h
          · exact h.symm
          · exact h.symm
          · exact absurd h.2 (by decide)
          · exact absurd h.2 (by decide)
          · exact absurd h.2 (by decide)
        exact hword (ha ▸ List.mem_cons_self)
      · exact ih (fun h => hword (List.mem_cons_of_mem a h)) hmem

/-- The first letters of the tags are told apart, in either case. -/
theorem foldEq_initial {a b c : Char} (ha : a ∈ ['n', 'v', 'r']) (hc : lowerChar c = b) (hab : a ≠ b) :
    Re.foldEq a c = false := by
  simp only [List.mem_cons, List.not_mem_nil, or_false] at ha
  have hlower : lowerChar a = a := by
    rcases ha with rfl | rfl | rfl <;> decide
  have hs : a ≠ 's' ∧ a ≠ 'k' ∧ a ≠ 'i' := by
    rcases ha with rfl | rfl | rfl <;> decide
  have hca : c ≠ a := by
    rintro rfl
    exact hab (hlower.symm.trans hc)
  simp [Re.foldEq, hca, hc, hab.symm, hs.1, hs.2.1, hs.2.2]

variable {which which' : NvrTag} {spelled : Str}

/-- The line of a tag is not that of another. -/
theorem tagFront_other (h : lowerAscii spelled = which'.text) (hne : which' ≠ which) :
    tagFront which.text (spelled ++ text) = false := by
  obtain ⟨b, w', hb⟩ : ∃ b w', which'.text = b :: w' := by cases which' <;> exact ⟨_, _, rfl⟩
  obtain ⟨a, w, ha⟩ : ∃ a w, which.text = a :: w := by cases which <;> exact ⟨_, _, rfl⟩
  have hmem : a ∈ ['n', 'v', 'r'] := by
    cases which <;> (obtain ⟨rfl, -⟩ := List.cons.inj ha; decide)
  have hab : a ≠ b := by
    rintro rfl
    apply hne
    cases which <;> cases which' <;> first | rfl | (rw [← (List.cons.inj ha).1] at hb; exact absurd (List.cons.inj hb).1 (by decide))
  rw [hb] at h
  cases spelled with
  | nil => cases h
  | cons c s =>
      have hc := (List.cons.inj h).1
      rw [ha, List.cons_append, tagFront, foldEq_initial hmem hc hab, Bool.false_and]

end

section

variable [UnicodeTables] {which : NvrTag} {spelled gap trail : Str} {value : MacroText}

/-- A tag is found on its line, with its value to the end of the line. -/
theorem tag_found (h : (PreambleLine.tag which spelled gap value trail).WellFormed) :
    LineMatches (specFieldRe which.text) (PreambleLine.tag which spelled gap value trail).render
      (some [(1, value.render ++ trail)]) := by
  obtain ⟨hspelled, hgap, hvalue, hone, -, htrail⟩ := h
  intro t i rest hstart hline
  have hsame := same_of_lowerAscii hspelled
  have hlen := hsame.length_eq
  have h0 := hline.drop
  simp only [PreambleLine.render, List.append_assoc] at h0
  have h1 := drop_add_length h0
  have h2 := drop_add_length h1
  have h3 := drop_add_length h2
  rw [← hlen] at h1 h2 h3
  rw [show ":".toList.length = 1 from rfl] at h2 h3
  have hfield : run t (Re.ilit which.text) ⟨i, []⟩ = [⟨i + which.text.length, []⟩] := run_ilit_of_same h0 hsame
  have hcolon : run t (.lit ":") ⟨i + which.text.length, []⟩ = [⟨i + which.text.length + 1, []⟩] :=
    run_lit_of_drop h1
  have hgap_run := run_many_of_drop (s := ⟨i + which.text.length + 1, []⟩) h2 (fun c hc => (hgap c hc).1)
    (inClass_solid hvalue)
  have hne : value.render ++ trail ≠ [] := by
    intro hnil
    exact hvalue.ne_nil (List.append_eq_nil_iff.mp hnil).1
  have htail : LineAt t (i + which.text.length + 1 + gap.length) (value.render ++ trail) rest := by
    refine ⟨by rw [h3, List.append_assoc], ?_, hline.rest⟩
    intro hmem
    rcases List.mem_append.mp hmem with hmem | hmem
    · exact hone hmem
    · exact (htrail _ hmem).2 rfl
  have hend : i + which.text.length + 1 + gap.length + (value.render ++ trail).length =
      i + (PreambleLine.tag which spelled gap value trail).render.length := by
    simp only [PreambleLine.render, List.length_append, ← hlen, show ":".toList.length = 1 from rfl]
    omega
  have hrun : (run t (specFieldRe which.text) ⟨i, []⟩).head? =
      some ⟨i + (PreambleLine.tag which spelled gap value trail).render.length, [(1, value.render ++ trail)]⟩ := by
    have hbol : run t .bol ⟨i, []⟩ = [⟨i, []⟩] := hstart.run_bol
    rw [specFieldRe, Re.seq, run_cat, hbol, List.flatMap_singleton, Re.seq, run_cat, hfield,
      List.flatMap_singleton, Re.seq, run_cat, hcolon, List.flatMap_singleton, Re.seq, head?_cat, hgap_run,
      List.findSome?_cons]
    dsimp only
    rw [Re.seq, Re.seq, htail.head?_groupSome hne, hend]
  rw [matchAt_of_head? hrun]
  rfl

omit [UnicodeTables] in
/-- It is found on no other line. -/
theorem tag_none {line : Str} (h : tagFront which.text line = false) :
    LineMatches (specFieldRe which.text) line none := by
  intro t i rest _ hline
  apply matchAt_none_of_run
  rw [List.eq_nil_iff_forall_not_mem]
  intro e he
  obtain ⟨m, hm, he⟩ := mem_run_seq_cons.mp he
  obtain ⟨-, rfl⟩ := mem_run_bol.mp hm
  obtain ⟨m, hm, he⟩ := mem_run_seq_cons.mp he
  obtain ⟨x, hx, hsame, rfl⟩ := mem_run_ilit.mp hm
  obtain ⟨m, hm, -⟩ := mem_run_seq_cons.mp he
  obtain ⟨hcolon, rfl⟩ := mem_run_lit.mp hm
  rw [hsame.length_eq] at hcolon
  have hfront := prefix_drop_append hx hcolon
  have hword : '\n' ∉ which.text := by cases which <;> decide
  have hx' : '\n' ∉ x ++ ":".toList := by
    intro hmem
    rcases List.mem_append.mp hmem with hmem | hmem
    · exact newline_not_mem_same hword hsame hmem
    · exact absurd hmem (by decide)
  rw [tagFront_iff.mpr ⟨x, hsame, (hline.prefix_iff hx').mp hfront⟩] at h
  cases h

end

/-! ## The lines of a preamble -/

section

variable {c : Char} {s : Str}

theorem definitionFront_cons (hc : c ≠ '%') : definitionFront (c :: s) = false := by
  have hnot : ∀ w : Str, startsWith ('%' :: w) (c :: s) = false := by
    intro w
    rw [Bool.eq_false_iff, ne_eq, startsWith_iff]
    intro hprefix
    exact hc (List.cons_prefix_cons.mp hprefix).1.symm
  show (startsWith ('%' :: "global".toList) (c :: s) || startsWith ('%' :: "define".toList) (c :: s)) = false
  rw [hnot, hnot]
  rfl

/-- The line of a tag begins with a letter. -/
theorem tag_initial {which : NvrTag} {spelled u : Str} (h : lowerAscii spelled = which.text) :
    ∃ c s, spelled ++ u = c :: s ∧ c ≠ '%' := by
  cases spelled with
  | nil => cases which <;> cases h
  | cons c s =>
      refine ⟨c, s ++ u, rfl, ?_⟩
      rintro rfl
      cases which <;> exact absurd (List.cons.inj h).1 (by decide)

/-- What `finditer` captures on a line of the preamble. -/
def PreambleLine.definitionCaps : PreambleLine → Option (List (Nat × Str))
  | definition _ _ name _ body trail => some [(2, body.render ++ trail), (1, name)]
  | _ => none

/-- What the pattern of a tag captures on a line. -/
def PreambleLine.tagCaps (which : NvrTag) : PreambleLine → Option (List (Nat × Str))
  | tag which' _ _ value trail => if which' = which then some [(1, value.render ++ trail)] else none
  | _ => none

theorem newline_not_mem_blank (h : Blank s) : '\n' ∉ s := fun hmem => (h _ hmem).2 rfl

variable [UnicodeTables] {l : PreambleLine} {which : NvrTag}

theorem sectionFront_cons (hc : c ≠ '%') : sectionFront (c :: s) = false := by
  rw [sectionFront, List.any_eq_false]
  intro w _ h
  obtain ⟨ hprefix, -⟩ := (Bool.and_eq_true _ _).mp h
  exact hc (List.cons_prefix_cons.mp (startsWith_iff.mp hprefix)).1.symm

theorem definition_line (h : l.WellFormed) : LineMatches macroDefinitionRe l.render l.definitionCaps := by
  cases l with
  | definition byValue gap name gap' body trail => exact definition_found h
  | tag which' spelled gap value trail =>
      obtain ⟨c, s, hline, hc⟩ := tag_initial (u := ":".toList ++ (gap ++ (value.render ++ trail))) h.1
      apply definition_none
      rw [PreambleLine.render, hline]
      exact definitionFront_cons hc
  | other text => exact definition_none h.2.1

theorem tag_line (h : l.WellFormed) : LineMatches (specFieldRe which.text) l.render (l.tagCaps which) := by
  cases l with
  | definition byValue gap name gap' body trail =>
      apply tag_none
      cases which <;> rfl
  | tag which' spelled gap value trail =>
      by_cases heq : which' = which
      · subst heq
        rw [PreambleLine.tagCaps, if_pos rfl]
        exact tag_found h
      · rw [PreambleLine.tagCaps, if_neg heq]
        exact tag_none (tagFront_other h.1 heq)
  | other text => exact tag_none (h.2.2.1 which)

theorem newline_not_mem_render (h : l.WellFormed) : '\n' ∉ l.render := by
  cases l with
  | definition byValue gap name gap' body trail =>
      obtain ⟨-, hgap, hname, -, hgap', -, hone, htrail⟩ := h
      have hkeyword : '\n' ∉ keyword byValue := by cases byValue <;> decide
      have hname' : '\n' ∉ name := fun hmem => absurd (hname.2 _ hmem) (by decide)
      simp only [PreambleLine.render, List.mem_append, not_or]
      exact ⟨by decide, hkeyword, newline_not_mem_blank hgap, hname', newline_not_mem_blank hgap', hone,
        newline_not_mem_blank htrail⟩
  | tag which' spelled gap value trail =>
      obtain ⟨hspelled, hgap, -, hone, -, htrail⟩ := h
      have hword : '\n' ∉ which'.text := by cases which' <;> decide
      have hspelled' := newline_not_mem_same hword (same_of_lowerAscii hspelled)
      simp only [PreambleLine.render, List.mem_append, not_or]
      exact ⟨hspelled', by decide, newline_not_mem_blank hgap, hone, newline_not_mem_blank htrail⟩
  | other text => exact h.1

theorem sectionFront_render (h : l.WellFormed) : sectionFront l.render = false := by
  cases l with
  | definition byValue gap name gap' body trail =>
      rw [sectionFront, List.any_eq_false]
      intro w hw h
      obtain ⟨ hprefix, -⟩ := (Bool.and_eq_true _ _).mp h
      rw [startsWith_iff, PreambleLine.render] at hprefix
      obtain ⟨-, hprefix⟩ := List.cons_prefix_cons.mp hprefix
      -- no section begins like a keyword
      have hnot : ∀ w' ∈ sectionNames, ¬ w'.take 3 <+: keyword byValue := by cases byValue <;> decide
      have htake : w.take 3 <+: (keyword byValue ++ (gap ++ (name ++ (gap' ++ (body.render ++ trail))))) :=
        (List.take_prefix 3 w).trans hprefix
      refine hnot w hw (List.prefix_of_prefix_length_le htake (List.prefix_append _ _) ?_)
      rw [List.length_take, length_keyword]
      omega
  | tag which' spelled gap value trail =>
      obtain ⟨c, s, hline, hc⟩ := tag_initial (u := ":".toList ++ (gap ++ (value.render ++ trail))) h.1
      rw [PreambleLine.render, hline]
      exact sectionFront_cons hc
  | other text => exact h.2.2.2

end

/-! ## Where the preamble ends -/

section

variable [UnicodeTables] {t line rest : Str} {i : Nat} {spec : SpecText}

omit [UnicodeTables] in
theorem sectionNames_lits : [Re.lit "description", .lit "package", .lit "prep", .lit "build", .lit "install",
    .lit "files", .lit "changelog"] = sectionNames.map Re.lit := rfl

/-- The last letter of a section's name is one. -/
theorem section_last {w : Str} (hw : w ∈ sectionNames) ( hprefix : '%' :: w <+: t.drop i) :
    inClass isWord (prev? t (i + 1 + w.length)) = true := by
  have hletters : ∀ w ∈ sectionNames, inClass isNameLetter ('%' :: w)[w.length]? = true := by decide
  have hget : t[i + w.length]? = ('%' :: w)[w.length]? :=
    getElem?_of_prefix_drop hprefix (by rw [List.length_cons]; omega)
  obtain ⟨c, hc, hletter⟩ := inClass_iff.mp (hletters w hw)
  rw [prev?, if_neg (by omega), show i + 1 + w.length - 1 = i + w.length by omega, hget, hc]
  exact isWord_of_isNameLetter hletter

/-- Ways of the pattern of a section. -/
theorem sectionHead_run_iff : run t sectionHeadRe ⟨i, []⟩ ≠ [] ↔ LineStart t i ∧
    ∃ w ∈ sectionNames, '%' :: w <+: t.drop i ∧ inClass isWord t[i + 1 + w.length]? = false := by
  constructor
  · intro h
    obtain ⟨e, he⟩ := List.exists_mem_of_ne_nil _ h
    obtain ⟨m, hm, he⟩ := mem_run_seq_cons.mp he
    obtain ⟨hstart, rfl⟩ := mem_run_bol.mp hm
    obtain ⟨m, hm, he⟩ := mem_run_seq_cons.mp he
    obtain ⟨hpercent, rfl⟩ := mem_run_lit.mp hm
    obtain ⟨m, hm, he⟩ := mem_run_seq_cons.mp he
    rw [sectionNames_lits] at hm
    obtain ⟨r, hr, hm⟩ := mem_run_oneOf.mp hm
    obtain ⟨w, hw, rfl⟩ := List.mem_map.mp hr
    obtain ⟨hname, rfl⟩ := mem_run_lit.mp hm
    obtain ⟨hbound, -⟩ := mem_run_wordB.mp he
    have hprefix : '%' :: w <+: t.drop i := prefix_drop_append hpercent hname
    refine ⟨hstart, w, hw, hprefix, ?_⟩
    have hlast := section_last hw hprefix
    by_contra hnext
    exact hbound (hlast.trans (Bool.not_eq_false _ ▸ hnext).symm)
  · rintro ⟨hstart, w, hw, hprefix, hnext⟩
    have hpercent : "%".toList <+: t.drop i := (List.prefix_append ['%'] w).trans hprefix
    have hname : w <+: t.drop (i + 1) := by
      obtain ⟨u, hu⟩ := hprefix
      rw [← List.drop_drop, ← hu]
      exact List.prefix_append w u
    have hmem : (⟨i + 1 + w.length, []⟩ : St) ∈ run t (Re.oneOf (sectionNames.map Re.lit)) ⟨i + 1, []⟩ :=
      mem_run_oneOf.mpr ⟨.lit w, List.mem_map_of_mem hw, mem_run_lit.mpr ⟨hname, rfl⟩⟩
    refine List.ne_nil_of_mem (a := ⟨i + 1 + w.length, []⟩) ?_
    refine mem_run_seq_cons.mpr ⟨⟨i, []⟩, mem_run_bol.mpr ⟨hstart, rfl⟩, ?_⟩
    refine mem_run_seq_cons.mpr ⟨⟨i + 1, []⟩, mem_run_lit.mpr ⟨hpercent, rfl⟩, ?_⟩
    refine mem_run_seq_cons.mpr ⟨⟨i + 1 + w.length, []⟩, hmem, ?_⟩
    refine mem_run_wordB.mpr ⟨?_, rfl⟩
    rw [section_last hw hprefix, hnext]
    decide

theorem sectionFront_iff {u : Str} : sectionFront u = true ↔
    ∃ w ∈ sectionNames, '%' :: w <+: u ∧ inClass isWord u[w.length + 1]? = false := by
  simp only [sectionFront, List.any_eq_true, Bool.and_eq_true, startsWith_iff, Bool.not_eq_true']

omit [UnicodeTables] in
theorem newline_not_mem_section {w : Str} (hw : w ∈ sectionNames) : '\n' ∉ '%' :: w := by
  revert w
  decide

/-- No section begins at a line that does not say so. -/
theorem section_none (h : sectionFront line = false) (hline : LineAt t i line rest) :
    run t sectionHeadRe ⟨i, []⟩ = [] := by
  by_contra hrun
  obtain ⟨-, w, hw, hprefix, hnext⟩ := sectionHead_run_iff.mp hrun
  have hfront : '%' :: w <+: line := (hline.prefix_iff (newline_not_mem_section hw)).mp hprefix
  have hlen : w.length + 1 ≤ line.length := hfront.length_le
  rw [Bool.eq_false_iff] at h
  refine h (sectionFront_iff.mpr ⟨w, hw, hfront, ?_⟩)
  by_cases hlt : w.length + 1 < line.length
  · rwa [Nat.add_assoc, Nat.add_comm 1, getElem?_of_drop hline.drop hlt] at hnext
  · rw [List.getElem?_eq_none (by omega)]
    rfl

/-- A section is found where it begins. -/
theorem section_found (hstart : LineStart t i) (hdrop : t.drop i = rest) (h : sectionFront rest = true) :
    run t sectionHeadRe ⟨i, []⟩ ≠ [] := by
  obtain ⟨w, hw, hprefix, hnext⟩ := sectionFront_iff.mp h
  refine sectionHead_run_iff.mpr ⟨hstart, w, hw, hdrop ▸ hprefix, ?_⟩
  rw [← hdrop, List.getElem?_drop] at hnext
  rwa [Nat.add_assoc, Nat.add_comm 1]

/-- The lines of a preamble. -/
theorem SpecText.lines_unbroken (spec : SpecText) : ∀ l ∈ spec.lines.map PreambleLine.render, '\n' ∉ l :=
  List.forall_mem_map.mpr fun l hl => newline_not_mem_render (spec.wellFormed l hl)

omit [UnicodeTables] in
/-- A last line that is empty stands behind a newline. -/
theorem join_ends {ls : List Str} (h : ls.getLast? = some []) :
    join "\n" ls = [] ∨ (join "\n" ls).getLast? = some '\n' := by
  induction ls with
  | nil => cases h
  | cons l ls ih =>
      cases ls with
      | nil =>
          obtain rfl : l = [] := by simpa using h
          exact Or.inl rfl
      | cons l' ls =>
          rw [List.getLast?_cons_cons] at h
          have hjoin : join "\n" (l :: l' :: ls) = (l ++ ['\n']) ++ join "\n" (l' :: ls) := rfl
          right
          rcases ih h with hnil | hlast
          · rw [hjoin, hnil, List.append_nil, List.getLast?_concat]
          · rw [hjoin, List.getLast?_append, hlast]
            rfl

/-- In front of a section the preamble is empty or ends with a newline. -/
theorem SpecText.preamble_ends (hrest : spec.rest ≠ []) :
    sectionFront spec.rest = true ∧ (spec.preamble = [] ∨ spec.preamble.getLast? = some '\n') := by
  rcases spec.sections with hnil | ⟨hlast, hfront⟩
  · exact absurd hnil hrest
  · refine ⟨hfront, join_ends ?_⟩
    rw [List.getLast?_map, hlast]
    rfl

theorem SpecText.text_drop {j : Nat} (hj : j ≤ spec.preamble.length) :
    spec.text.drop j = spec.preamble.drop j ++ spec.rest := List.drop_append_of_le_length hj

/-- Within a preamble no section begins. -/
theorem SpecText.no_section {j : Nat} (hj : j < spec.preamble.length ∨ spec.rest = []) :
    run spec.text sectionHeadRe ⟨j, []⟩ = [] := by
  by_contra hrun
  obtain ⟨hstart, w, -, ⟨v, hprefix⟩, -⟩ := sectionHead_run_iff.mp hrun
  have hle : j ≤ spec.preamble.length := by
    rcases hj with hj | hnil
    · omega
    · have hlen := congrArg List.length hprefix
      rw [SpecText.text, hnil, List.append_nil, List.length_append, List.length_cons, List.length_drop] at hlen
      omega
  obtain ⟨l, hl, rest', hdrop, hrest'⟩ :=
    Regex.exists_line spec.lines_unbroken (mt List.map_eq_nil_iff.mp spec.nonempty) hle hstart
  obtain ⟨line, hmem, rfl⟩ := List.mem_map.mp hl
  have hwell := spec.wellFormed line hmem
  have hat : LineAt spec.text j line.render (rest' ++ spec.rest) := by
    refine ⟨?_, newline_not_mem_render hwell, ?_⟩
    · rw [SpecText.text_drop hle, ← List.append_assoc, ← hdrop]
      rfl
    · rcases hrest' with rfl | hnewline
      · by_cases hnil : spec.rest = []
        · exact Or.inl hnil
        · -- the last line is empty, and this one is not
          have hlt : j < spec.preamble.length := hj.resolve_right hnil
          rcases (SpecText.preamble_ends hnil).2 with hempty | hlast
          · rw [hempty] at hlt
            exact absurd hlt (Nat.not_lt_zero j)
          · have hline : spec.preamble.drop j = line.render := by rw [← List.append_nil line.render, ← hdrop]; rfl
            have hnewline : line.render.getLast? = some '\n' := by
              rw [← hline, List.getLast?_drop, if_neg (by omega), hlast]
            exact absurd (List.mem_of_getLast? hnewline) (newline_not_mem_render hwell)
      · right
        rw [List.head?_append, hnewline]
        rfl
  exact hrun (section_none (sectionFront_render hwell) hat)

/-- The preamble is found. -/
theorem SpecText.specPreamble_text (spec : SpecText) : specPreamble spec.text = spec.preamble := by
  by_cases hnil : spec.rest = []
  · have hsearch : search sectionHeadRe spec.text = none :=
      search_eq_none_iff.mpr fun j _ => SpecText.no_section (Or.inr hnil)
    rw [specPreamble, hsearch]
    show spec.preamble ++ spec.rest = spec.preamble
    rw [hnil, List.append_nil]
  · obtain ⟨hfront, hends⟩ := SpecText.preamble_ends hnil
    have hprev : LineStart spec.text spec.preamble.length := by
      rcases hends with hempty | hlast
      · left
        rw [hempty]
        rfl
      · right
        rw [SpecText.text, prev?_length_append, hlast]
    have hdrop : spec.text.drop spec.preamble.length = spec.rest := List.drop_left
    obtain ⟨m, hm⟩ := Option.isSome_iff_exists.mp (matchAt_isSome_iff.mpr (section_found hprev hdrop hfront))
    have hle : spec.preamble.length ≤ spec.text.length := by
      rw [SpecText.text, List.length_append]
      omega
    have hsearch : search sectionHeadRe spec.text = some m :=
      search_eq_some hle (fun j hj => matchAt_none_of_run (SpecText.no_section (Or.inl hj))) hm
    rw [specPreamble, hsearch]
    show spec.text.take m.start = spec.preamble
    rw [matchAt_start hm]
    exact List.take_left

end

/-! ## What is read off the preamble -/

section

variable [UnicodeTables]

omit [UnicodeTables] in
theorem strip_trail {body trail : Str} (hbody : Solid body) (htrail : Blank trail) : strip (body ++ trail) = body := by
  have hstrip := strip_padded (a := []) (by simp) hbody fun c hc => (htrail c hc).1
  rwa [List.nil_append] at hstrip

/-- What is put into the table for a match with these captures. -/
def macroEntry (caps : List (Nat × Str)) : Str × Str := ((caps.lookup 1).getD [], strip ((caps.lookup 2).getD []))

/-- The table of macros is that of the definitions, as they are written. -/
theorem SpecText.preambleMacros_eq (spec : SpecText) : preambleMacros spec.preamble = macroTexts spec.table := by
  have hempty : ∀ l ∈ spec.lines, l.render = [] → l.definitionCaps = none := by
    intro l _ hnil
    cases l with
    | definition byValue gap name gap' body trail => cases hnil
    | tag which spelled gap value trail => rfl
    | other text => rfl
  have hfound := finditer_lines (r := macroDefinitionRe) anchored_bol hempty
    (fun l hl => newline_not_mem_render (spec.wellFormed l hl)) (fun l hl => definition_line (spec.wellFormed l hl))
    spec.nonempty (t := spec.preamble) rfl
  have hentries : ∀ l ∈ spec.lines, l.definitionCaps.map macroEntry = l.tableEntry.map fun e => (e.1, e.2.render) := by
    intro l hl
    cases l with
    | definition byValue gap name gap' body trail =>
        obtain ⟨-, -, -, -, -, hbody, -, htrail⟩ := spec.wellFormed _ hl
        show some (name, strip (body.render ++ trail)) = some (name, body.render)
        rw [strip_trail hbody htrail]
    | tag which spelled gap value trail => rfl
    | other text => rfl
  calc preambleMacros spec.preamble
      = ((finditer macroDefinitionRe spec.preamble).map fun m => (m.group 1, strip (m.group 2))).reverse := by
        rw [preambleMacros]
        exact (List.foldl_flip_cons_eq_append).trans (List.append_nil _)
    _ = (((finditer macroDefinitionRe spec.preamble).map Match.caps).map macroEntry).reverse := by
        rw [List.map_map]
        rfl
    _ = ((spec.lines.filterMap fun l => l.definitionCaps.map macroEntry)).reverse := by
        rw [hfound, List.map_filterMap]
    _ = (spec.lines.filterMap fun l => l.tableEntry.map fun e => (e.1, e.2.render)).reverse := by
        rw [List.filterMap_congr hentries]
    _ = macroTexts spec.table := by
        rw [macroTexts, SpecText.table, List.map_reverse, List.map_filterMap]

variable {which : NvrTag} {value : MacroText} {before : List PreambleLine}

omit [UnicodeTables] in
/-- The first line of a tag, which rpm reads, is the first one of which something is captured. -/
theorem filterMap_tagCaps {lines : List PreambleLine} (h : findTag which lines = some (value, before)) :
    ∃ spelled gap trail, PreambleLine.tag which spelled gap value trail ∈ lines ∧
      (lines.filterMap (PreambleLine.tagCaps which)).head? = some [(1, value.render ++ trail)] := by
  induction lines generalizing before with
  | nil => cases h
  | cons l lines ih =>
      have hlater : l.valueOf which = none → l.tagCaps which = none →
          ∃ spelled gap trail, PreambleLine.tag which spelled gap value trail ∈ l :: lines ∧
            ((l :: lines).filterMap (PreambleLine.tagCaps which)).head? = some [(1, value.render ++ trail)] := by
        intro hvalue hcaps
        rw [findTag, hvalue] at h
        obtain ⟨⟨value', before'⟩, hfind, heq⟩ := Option.map_eq_some_iff.mp h
        obtain ⟨rfl, -⟩ := Prod.mk.inj heq
        obtain ⟨spelled, gap, trail, hmem, hhead⟩ := ih hfind
        refine ⟨spelled, gap, trail, List.mem_cons_of_mem l hmem, ?_⟩
        rw [List.filterMap_cons_none hcaps, hhead]
      cases l with
      | definition byValue gap name gap' body trail => exact hlater rfl rfl
      | other text => exact hlater rfl rfl
      | tag which' spelled gap value' trail =>
          by_cases heq : which' = which
          · subst heq
            have hvalue : (PreambleLine.tag which' spelled gap value' trail).valueOf which' = some value' := if_pos rfl
            have hcaps : (PreambleLine.tag which' spelled gap value' trail).tagCaps which' =
                some [(1, value'.render ++ trail)] := if_pos rfl
            rw [findTag, hvalue] at h
            obtain ⟨rfl, -⟩ := Prod.mk.inj (Option.some.inj h)
            refine ⟨spelled, gap, trail, List.mem_cons_self, ?_⟩
            rw [List.filterMap_cons_some hcaps, List.head?_cons]
          · exact hlater (if_neg heq) (if_neg heq)

/-- A tag's value is found as it is written. -/
theorem SpecText.specField_eq {spec : SpecText} (h : findTag which spec.lines = some (value, before)) :
    specField which.text spec.preamble = value.render := by
  obtain ⟨spelled, gap, trail, hmem, hhead⟩ := filterMap_tagCaps h
  obtain ⟨-, -, hvalue, -, -, htrail⟩ := spec.wellFormed _ hmem
  have hempty : ∀ l ∈ spec.lines, l.render = [] → l.tagCaps which = none := by
    intro l hl hnil
    cases l with
    | definition byValue gap name gap' body trail => rfl
    | tag which' spelled gap value trail =>
        rw [PreambleLine.render, List.append_eq_nil_iff] at hnil
        cases hnil.2
    | other text => rfl
  have hsearch := search_lines (r := specFieldRe which.text) anchored_bol hempty
    (fun l hl => newline_not_mem_render (spec.wellFormed l hl)) (fun l hl => tag_line (spec.wellFormed l hl))
    spec.nonempty (t := spec.preamble) rfl
  rw [hhead] at hsearch
  obtain ⟨m, hm, hcaps⟩ := Option.map_eq_some_iff.mp hsearch
  have hgroup : m.group 1 = value.render ++ trail := by
    rw [Match.group, hcaps]
    rfl
  rw [specField, hm]
  show strip (m.group 1) = value.render
  rw [hgroup, strip_trail hvalue htrail]

end

/-! ## The NVR -/

section

variable [UnicodeTables] {spec : SpecText} {name version release : Str} {which : NvrTag} {T : Table} {out : Str}

/-- A settled tag is rewritten to what rpm expands. -/
theorem SpecText.expandMacros_eq (h : spec.RpmExpands which out) (hsettled : spec.Settled which T) :
    expandMacros (specField which.text spec.preamble) (macroTexts T) = out := by
  obtain ⟨value, before, hfind, hexpands⟩ := h
  obtain ⟨hforce, hwithin⟩ := hsettled value before hfind
  rw [spec.specField_eq hfind, expandMacros]
  exact expandFrom_within hwithin (hforce.expands hexpands)

end

/-! ## Two specs -/

/-- The definition of the version. -/
def mainverLine : PreambleLine := .definition true " " "mainver" " " (ofText "2.5.1") []

def mypkgLine : PreambleLine := .tag .name "Name" " " (ofText "mypkg") []

/-- The version's line, with a reference of the form. -/
def mainverTag (form : Form) : PreambleLine := .tag .version "Version" " " (.ref form "mainver" .nil) []

def distTag : PreambleLine := .tag .release "Release" " " (.chr '3' (.ref .optional "dist" .nil)) []

theorem mainver_wellFormed : letI := asciiTables
    mainverLine.WellFormed := by
  let _ := asciiTables
  refine ⟨by decide, by decide, ⟨by decide, by decide⟩, by decide, by decide, ⟨?_, ?_⟩, by decide, by decide⟩
  · exact ⟨'2', rfl, by decide⟩
  · exact ⟨'1', rfl, by decide⟩

theorem mypkg_wellFormed : letI := asciiTables
    mypkgLine.WellFormed := by
  let _ := asciiTables
  refine ⟨by decide, by decide, ⟨?_, ?_⟩, by decide, MacroText.legible_ofText (by decide), by decide⟩
  · exact ⟨'m', rfl, by decide⟩
  · exact ⟨'g', rfl, by decide⟩

theorem mainverTag_wellFormed (form : Form) : letI := asciiTables
    (mainverTag form).WellFormed := by
  let _ := asciiTables
  refine ⟨by decide, by decide, ⟨⟨'%', ?_, by decide⟩, ?_⟩, ?_, ?_, by decide⟩
  · cases form <;> rfl
  · cases form
    · exact ⟨'r', rfl, by decide⟩
    · exact ⟨'\x7d', rfl, by decide⟩
    · exact ⟨'\x7d', rfl, by decide⟩
  · cases form <;> decide
  · exact ⟨⟨by decide, by decide⟩, fun _ c hc => absurd hc (by simp [MacroText.render]), trivial⟩

theorem distTag_wellFormed : letI := asciiTables
    distTag.WellFormed := by
  let _ := asciiTables
  refine ⟨by decide, by decide, ⟨⟨'3', rfl, by decide⟩, ⟨'\x7d', rfl, by decide⟩⟩, by decide, ?_, by decide⟩
  exact ⟨by decide, ⟨by decide, by decide⟩, fun h => absurd h (by decide), trivial⟩

theorem blankLine_wellFormed : letI := asciiTables
    (PreambleLine.other []).WellFormed := by
  let _ := asciiTables
  refine ⟨by decide, by decide, ?_, by decide⟩
  intro which
  cases which <;> rfl

/-- A spec whose version is defined on a line of its own. -/
def mainverSpec (form : Form) : letI := asciiTables
    SpecText :=
  letI := asciiTables
  { lines := [mainverLine, mypkgLine, mainverTag form, distTag, .other []]
    rest := "%description\n"
    nonempty := List.cons_ne_nil _ _
    wellFormed := by
      simp only [List.forall_mem_cons]
      exact ⟨mainver_wellFormed, mypkg_wellFormed, mainverTag_wellFormed form, distTag_wellFormed,
        blankLine_wellFormed, fun _ h => nomatch h⟩
    sections := Or.inr ⟨rfl, by decide⟩ }

theorem mainverSpec_name (form : Form) : letI := asciiTables
    (mainverSpec form).RpmExpands .name "mypkg".toList := by
  let _ := asciiTables
  exact ⟨ofText "mypkg", [mainverLine], rfl, expandsIn_ofText _⟩

theorem mainverSpec_version (form : Form) : letI := asciiTables
    (mainverSpec form).RpmExpands .version "2.5.1".toList := by
  let _ := asciiTables
  refine ⟨.ref form "mainver" .nil, [mainverLine, mypkgLine], rfl, ?_⟩
  have hbody : ExpandsIn [] (ofText "2.5.1") "2.5.1".toList := expandsIn_ofText _
  have hlegible : (ofText "2.5.1").Legible := MacroText.legible_ofText (by decide)
  exact ExpandsIn.ref (d := ⟨"mainver", true, ofText "2.5.1"⟩) rfl hlegible hbody .nil

theorem mainverSpec_release (form : Form) : letI := asciiTables
    (mainverSpec form).RpmExpands .release "3".toList := by
  let _ := asciiTables
  exact ⟨.chr '3' (.ref .optional "dist" .nil), [mainverLine, mypkgLine, mainverTag form], rfl,
    .chr (.absent rfl .nil)⟩

end HummingbirdRpms
