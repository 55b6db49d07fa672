/-
# HummingbirdRpms.ReleaseEdit — what `update_release_in_spec` changes in a spec file.

The function reads the release off the first `Release:` field with a dist macro, and then substitutes in
the whole text.  With a text cut at its fields, the substitution rewrites the line of every field
(`editedLine`): where the first field's release is a macro, all of them become that one's; where it is
not, each keeps its own dist macro and gets the new release.

**`updateReleaseText_pieces`** is this as an equation, and **`updateRelease_local_iff`** says when the
edit is local to one line.
-/
import HummingbirdRpms.ReleaseFields

namespace HummingbirdRpms

open Lib Lib.Text Lib.Regex Lib.Exec

section

variable [UnicodeTables]

/-! ## The edit, field by field -/

/-- Whether the release of a line is taken to be a macro. -/
def isMacroBased (line : Str) : Bool := contains "%\x7b" (beforeLast line)

/-- What the line of a field becomes, when the release has been read off the line of the first. -/
def editedLine (newRelease first line : Str) : Str :=
  if isMacroBased first then bumpSuffix macroSuffixRe (beforeLast first) ++ (distMacro ++ afterLast first)
  else newRelease ++ (firstDist line ++ afterFirst line)

/-- The text of a field after the edit. -/
def editedText (newRelease first : Str) (fl : ReleaseField) : Str :=
  releaseTag ++ (fl.space ++ editedLine newRelease first fl.line)

variable {specFile newRelease content content' chunk : Str} {fields : List (ReleaseField × Str)}

theorem bumpMacroRelease_pieces (h : Pieces content 0 chunk fields) (before after : Str) :
    bumpMacroRelease before after content =
      glue (fun fl => releaseTag ++ (fl.space ++ (bumpSuffix macroSuffixRe before ++ (distMacro ++ after))))
        chunk fields := by
  refine h.sub_eq macroReleaseRe_readsFields ?_
  intro start stop space line
  have hspace : Match.group ⟨start, stop, [(1, space)]⟩ 1 = space := rfl
  simp only [hspace, List.append_assoc]
  rfl

omit [UnicodeTables] in
theorem setPlainRelease_pieces (h : Pieces content 0 chunk fields) :
    setPlainRelease newRelease content =
      glue (fun fl => releaseTag ++ (fl.space ++ (newRelease ++ (firstDist fl.line ++ afterFirst fl.line))))
        chunk fields := by
  refine h.sub_eq plainReleaseRe_readsFields ?_
  intro start stop space line
  have hspace : Match.group ⟨start, stop, [(3, afterFirst line), (2, firstDist line), (1, space)]⟩ 1 =
      space := rfl
  have hdist : Match.group ⟨start, stop, [(3, afterFirst line), (2, firstDist line), (1, space)]⟩ 2 =
      firstDist line := rfl
  have hafter : Match.group ⟨start, stop, [(3, afterFirst line), (2, firstDist line), (1, space)]⟩ 3 =
      afterFirst line := rfl
  simp only [hspace, hdist, hafter, List.append_assoc]
  rfl

/-- **`updateReleaseText_pieces`** — an edit that succeeds has found a field, and rewrites the line of each
field. -/
theorem updateReleaseText_pieces (h : Pieces content 0 chunk fields)
    (hok : updateReleaseText specFile newRelease content = .ok content') :
    ∃ first next later, fields = (first, next) :: later ∧
      content' = glue (editedText newRelease first.line) chunk fields := by
  have hsearch := h.search_eq releaseDistRe_readsFields
  unfold updateReleaseText at hok
  cases fields with
  | nil =>
      obtain hnone : search releaseDistRe content = none := by simpa using hsearch
      have hsame : setPlainRelease newRelease content = content := by
        rw [setPlainRelease_pieces h]
        exact h.drop.symm
      simp only [hnone, Option.filter_none] at hok
      obtain ⟨_, -, hok⟩ := except_bind_ok_iff.mp hok
      obtain ⟨_, hdiffers, -⟩ := except_bind_ok_iff.mp hok
      exact absurd hsame (failIf_ok_iff.mp hdiffers)
  | cons p later =>
      obtain ⟨first, next⟩ := p
      obtain ⟨m, hm, hcaps⟩ := Option.map_eq_some_iff.mp hsearch
      have hbefore : m.group 1 = beforeLast first.line := by
        rw [Match.group, hcaps]
        rfl
      have hafter : m.group 2 = afterLast first.line := by
        rw [Match.group, hcaps]
        rfl
      refine ⟨first, next, later, rfl, ?_⟩
      simp only [hm, Option.filter_some, hbefore] at hok
      unfold editedText editedLine
      by_cases hbase : isMacroBased first.line = true
      · simp only [if_pos hbase]
        rw [show contains "%\x7b".toList (beforeLast first.line) = true from hbase, if_pos rfl] at hok
        dsimp only at hok
        rw [hbefore, hafter] at hok
        rw [← Except.ok.inj hok, bumpMacroRelease_pieces h]
      · simp only [if_neg hbase]
        rw [if_neg (show ¬ contains "%\x7b".toList (beforeLast first.line) = true from hbase)] at hok
        obtain ⟨_, -, hok⟩ := except_bind_ok_iff.mp hok
        obtain ⟨_, -, hok⟩ := except_bind_ok_iff.mp hok
        rw [← Except.ok.inj hok, setPlainRelease_pieces h]

/-! ## Local edits -/

/-- Whether a line of a text that begins at a position begins with the tag. -/
def TagLineAt (t : Str) (i : Nat) : Prop := (i = 0 ∨ prev? t i = some '\n') ∧ releaseTag <+: t.drop i

/-- Two texts that differ on the line of their first `Release:` tag alone, and there only in what stands
between the white space after the tag and a dist macro. -/
structure EditsTagLine (content content' before space old new dist after : Str) : Prop where
  eq : content = before ++ (releaseTag ++ (space ++ (old ++ (dist ++ after))))
  eq' : content' = before ++ (releaseTag ++ (space ++ (new ++ (dist ++ after))))
  changed : new ≠ old
  start : before = [] ∨ before.getLast? = some '\n'
  first : ∀ i, ¬ TagLineAt before i
  space_ne : space ≠ []
  space_all : ∀ c ∈ space, isSpace c = true ∧ c ≠ '\n'
  stop : inClass isSpace old.head? = false
  old_line : '\n' ∉ old
  new_line : '\n' ∉ new
  dist : dist ∈ distSpellings

/-- An edit that is local to the line of the first `Release:` tag. -/
def LocalEdit (content content' : Str) : Prop :=
  ∃ before space old new dist after, EditsTagLine content content' before space old new dist after

/-- The release after another one, as far as it is written out: its number suffix is one more, or it is
the first. -/
def NextSuffix (release next : Str) : Prop :=
  (∃ base number, NumberSuffixed release base number ∧
    next = base ++ ".".toList ++ ofNat (intOfDigits number + 1)) ∨
  (∀ base number, ¬ NumberSuffixed release base number) ∧ next = release ++ ".1".toList

/-- A text whose first `Release:` line is its first field, and the only one that does not already read
as that one shall. -/
structure OneLine (newRelease content chunk : Str) (first : ReleaseField) (next : Str)
    (later : List (ReleaseField × Str)) : Prop where
  pieces : Pieces content 0 chunk ((first, next) :: later)
  tag : ∀ i, ¬ TagLineAt chunk i
  space : '\n' ∉ first.space
  macro_dist : isMacroBased first.line = true →
    ∃ before after, splitLastDist first.line = some (before, distMacro, after)
  macro_later : isMacroBased first.line = true → ∀ p ∈ later, ∃ release,
    NextSuffix (beforeLast first.line) release ∧ p.1.line = release ++ (distMacro ++ afterLast first.line)
  plain_release : isMacroBased first.line = false → '\n' ∉ newRelease
  plain_later : isMacroBased first.line = false → ∀ p ∈ later,
    p.1.line = newRelease ++ (firstDist p.1.line ++ afterFirst p.1.line)

/-- The texts on which the edit is local. -/
def EditsOneLine (newRelease content : Str) : Prop :=
  ∃ chunk first next later, OneLine newRelease content chunk first next later

section

variable {release next : Str}

omit [UnicodeTables] in
theorem not_mem_ofNat (n : Nat) : '\n' ∉ ofNat n := by
  intro hmem
  exact absurd (isAsciiDigit_of_mem_ofNat hmem) (by decide)

theorem nextSuffix_iff (hline : '\n' ∉ release) :
    NextSuffix release next ↔ next = bumpSuffix macroSuffixRe release := by
  by_cases hsome : ∃ base number, NumberSuffixed release base number
  · obtain ⟨base, number, hnumber⟩ := hsome
    have hbase : '\n' ∉ base := by
      intro hmem
      refine hline ?_
      rw [hnumber.eq]
      exact List.mem_append_left _ hmem
    have hbump := bumpMacroSuffix_number hnumber hbase
    constructor
    · rintro (⟨base', number', hnumber', rfl⟩ | ⟨hnone, -⟩)
      · -- the base and the number are the ones that the pattern splits off
        have hbase' : '\n' ∉ base' := by
          intro hmem
          refine hline ?_
          rw [hnumber'.eq]
          exact List.mem_append_left _ hmem
        exact (bumpMacroSuffix_number hnumber' hbase').symm
      · exact absurd hnumber (hnone base number)
    · intro h
      exact Or.inl ⟨base, number, hnumber, h.trans hbump⟩
  · have hnone : ∀ base number, ¬ NumberSuffixed release base number := by
      intro base number h
      exact hsome ⟨base, number, h⟩
    rw [bumpMacroSuffix_plain hline hnone]
    constructor
    · rintro (⟨base, number, h, -⟩ | ⟨-, h⟩)
      · exact absurd h (hnone base number)
      · exact h
    · intro h
      exact Or.inr ⟨hnone, h⟩

theorem NextSuffix.one_line (hline : '\n' ∉ release) (h : NextSuffix release next) : '\n' ∉ next := by
  rcases h with ⟨base, number, hnumber, rfl⟩ | ⟨-, rfl⟩
  · rw [hnumber.eq] at hline
    intro hmem
    rcases List.mem_append.mp hmem with hmem | hmem
    · rcases List.mem_append.mp hmem with hmem | hmem
      · exact hline (List.mem_append_left _ hmem)
      · exact absurd hmem (by decide)
    · exact not_mem_ofNat _ hmem
  · intro hmem
    rcases List.mem_append.mp hmem with hmem | hmem
    · exact hline hmem
    · exact absurd hmem (by decide)

theorem NextSuffix.ne (h : NextSuffix release next) : next ≠ release := by
  rcases h with ⟨base, number, hnumber, rfl⟩ | ⟨-, rfl⟩
  · rw [hnumber.eq, List.append_assoc]
    intro heq
    have hnumbers : ofNat (intOfDigits number + 1) = number := by
      simpa using List.append_cancel_left heq
    have hvalue := congrArg intOfDigits hnumbers
    rw [intOfDigits_ofNat] at hvalue
    omega
  · intro heq
    have hlen := congrArg List.length heq
    rw [List.length_append] at hlen
    have hone : ".1".toList.length = 2 := rfl
    omega

end

/-! ## Gluing -/

section

variable {text edit : ReleaseField → Str} {next : Str} {first : ReleaseField}
  {later : List (ReleaseField × Str)}

omit [UnicodeTables] in
/-- What follows a field is the end of its line, whatever becomes of the fields after it. -/
theorem ReleaseField.Proper.glue_end (h : first.Proper next later) :
    glue edit next later = [] ∨ (glue edit next later).head? = some '\n' := by
  rcases h.next with ⟨rfl, rfl⟩ | hnext
  · exact Or.inl rfl
  · right
    cases next with
    | nil => exact absurd hnext (by simp)
    | cons c next =>
        cases later with
        | nil => exact hnext
        | cons p later => exact hnext

omit [UnicodeTables] in
theorem glue_congr (h : ∀ p ∈ fields, edit p.1 = text p.1) : glue edit chunk fields = glue text chunk fields := by
  induction fields generalizing chunk with
  | nil => rfl
  | cons p fields ih =>
      obtain ⟨fl, next⟩ := p
      rw [glue, glue, h _ List.mem_cons_self, ih fun p hp => h p (List.mem_cons_of_mem _ hp)]

omit [UnicodeTables] in
/-- No line break is lost where none is lost in a field. -/
theorem count_glue_le (h : ∀ p ∈ fields, (text p.1).count '\n' ≤ (edit p.1).count '\n') :
    (glue text chunk fields).count '\n' ≤ (glue edit chunk fields).count '\n' := by
  induction fields generalizing chunk with
  | nil => exact le_rfl
  | cons p fields ih =>
      obtain ⟨fl, next⟩ := p
      have hfirst : (text fl).count '\n' ≤ (edit fl).count '\n' := h _ List.mem_cons_self
      have hrest : (glue text next fields).count '\n' ≤ (glue edit next fields).count '\n' :=
        ih fun p hp => h p (List.mem_cons_of_mem _ hp)
      rw [glue, glue]
      simp only [List.count_append]
      omega

omit [UnicodeTables] in
theorem AllProper.one (h : AllProper fields) : ∀ p ∈ fields, '\n' ∉ p.1.line := by
  induction fields with
  | nil => exact List.forall_mem_nil _
  | cons p fields ih =>
      obtain ⟨fl, next⟩ := p
      rw [List.forall_mem_cons]
      exact ⟨h.1.one, ih h.2⟩

omit [UnicodeTables] in
/-- An edit of lines that leaves the text as it is leaves every line as it is. -/
theorem glue_inj {line : ReleaseField → Str} (h : AllProper fields) (hline : ∀ p ∈ fields, '\n' ∉ line p.1)
    (heq : glue ReleaseField.text chunk fields =
      glue (fun fl => releaseTag ++ (fl.space ++ line fl)) chunk fields) :
    ∀ p ∈ fields, line p.1 = p.1.line := by
  induction fields generalizing chunk with
  | nil => exact List.forall_mem_nil _
  | cons p fields ih =>
      obtain ⟨fl, next⟩ := p
      rw [List.forall_mem_cons] at hline ⊢
      rw [glue, glue, ReleaseField.text] at heq
      simp only [List.append_assoc] at heq
      have hlines := List.append_cancel_left (List.append_cancel_left (List.append_cancel_left heq))
      obtain ⟨hfirst, hrest⟩ := line_cancel h.1.one hline.1 h.1.glue_end h.1.glue_end hlines
      exact ⟨hfirst.symm, ih h.2 hline.2 hrest⟩

end

/-! ## The tag line that an edit is local to -/

section

variable {before space old new dist after next : Str} {first : ReleaseField}
  {later : List (ReleaseField × Str)}

omit [UnicodeTables] in
/-- A tag line of a text that begins in a part of whole lines is one of that part. -/
theorem TagLineAt.of_append {rest : Str} {i : Nat} (h : TagLineAt (before ++ rest) i) (hi : i < before.length)
    (hlines : before = [] ∨ before.getLast? = some '\n') : TagLineAt before i := by
  obtain ⟨hstart, htag⟩ := h
  refine ⟨?_, ?_⟩
  · rcases hstart with rfl | hprev
    · exact Or.inl rfl
    · right
      rw [prev?] at hprev ⊢
      by_cases hzero : i = 0
      · rw [if_pos hzero] at hprev
        exact absurd hprev (by simp)
      · rw [if_neg hzero] at hprev ⊢
        rw [← hprev, List.getElem?_append_left (by omega)]
  · rw [List.drop_append_of_le_length hi.le] at htag
    rcases List.prefix_or_prefix_of_prefix htag (List.prefix_append _ rest) with htag | hin
    · exact htag
    · -- the part would end within the tag
      rcases hlines with rfl | hlast
      · exact absurd hi (Nat.not_lt_zero _)
      · have hmem : '\n' ∈ before.drop i := by
          apply List.mem_of_getLast?
          rw [List.getLast?_drop, if_neg (by omega), hlast]
        exact absurd (hin.subset hmem) (by decide)

omit [UnicodeTables] in
theorem splitLastDist_isSome {line : Str} {k : Nat} (h : distPrefix (line.drop k) ≠ none) :
    ∃ cut, splitLastDist line = some cut := by
  cases hcut : splitLastDist line with
  | none => exact absurd (splitLastDist_none hcut k) h
  | some cut => exact ⟨cut, rfl⟩

omit [UnicodeTables] in
theorem distPrefix_append {d s : Str} (h : d ∈ distSpellings) : distPrefix (d ++ s) = some d := by
  simp only [distSpellings, List.mem_cons, List.not_mem_nil, or_false] at h
  rcases h with rfl | rfl
  all_goals rfl

omit [UnicodeTables] in
theorem inClass_head?_append {s t : Str} (hs : inClass isSpace s.head? = false)
    (ht : inClass isSpace t.head? = false) : inClass isSpace (s ++ t).head? = false := by
  cases s with
  | nil => exact ht
  | cons c s => exact hs

namespace EditsTagLine

omit [UnicodeTables] in
theorem stop_dist (h : EditsTagLine content content' before space old new dist after) (s : Str) : inClass isSpace (old ++ (dist ++ s)).head? = false := by
  apply inClass_head?_append h.stop
  rw [List.head?_append, distSpellings_head h.dist]
  rfl

omit [UnicodeTables] in
/-- The tag line is a field with a dist macro. -/
theorem hasField (h : EditsTagLine content content' before space old new dist after) :
    HasField content before.length := by
  obtain ⟨tail, rest, rfl, htail, hend⟩ := exists_line after
  obtain ⟨cut, hcut⟩ : ∃ cut, splitLastDist (old ++ (dist ++ tail)) = some cut := by
    apply splitLastDist_isSome (k := old.length)
    rw [List.drop_left, distPrefix_append h.dist]
    simp
  refine ⟨space, old ++ (dist ++ tail), rest, cut,
    ⟨?_, ?_, h.space_ne, fun c hc => (h.space_all c hc).1, ?_, ?_, hend⟩, hcut⟩
  · rcases h.start with rfl | hlast
    · exact Or.inl rfl
    · right
      have hpos : before ≠ [] := by
        rintro rfl
        exact absurd hlast (by simp)
      have hlen := List.length_pos_iff.mpr hpos
      rw [prev?, if_neg (by omega), h.eq, List.getElem?_append_left (by omega), ← hlast,
        List.getLast?_eq_getElem?]
  · rw [h.eq, List.drop_left, List.append_assoc, List.append_assoc]
  · rw [List.append_assoc, List.append_assoc]
    exact h.stop_dist _
  · simp only [List.mem_append, not_or]
    exact ⟨h.old_line, not_mem_of_distSpellings h.dist, htail⟩

omit [UnicodeTables] in
/-- The tag line is the first field. -/
theorem before_eq (h : EditsTagLine content content' before space old new dist after)
    (hpieces : Pieces content 0 chunk ((first, next) :: later)) : before = chunk := by
  have hle : chunk.length ≤ before.length := by
    by_contra hlt
    have hno := hpieces.before before.length (by omega)
    rw [Nat.zero_add] at hno
    exact hno h.hasField
  have hfield := hpieces.first (by simp)
  rw [Nat.zero_add] at hfield
  obtain ⟨_, _, _, _, hfield, -⟩ := hfield
  have hlen : chunk.length = before.length := by
    by_contra hne
    have htag : TagLineAt (before ++ (releaseTag ++ (space ++ (old ++ (dist ++ after))))) chunk.length := by
      rw [← h.eq]
      refine ⟨hfield.start, ?_⟩
      rw [hfield.drop]
      exact List.prefix_append _ _
    exact h.first _ (htag.of_append (by omega) h.start)
  have hdrop := hpieces.drop
  rw [List.drop_zero, glue, h.eq] at hdrop
  exact (List.append_inj hdrop hlen.symm).1

omit [UnicodeTables] in
/-- The white space after the tag is that of the field, and what follows it is the line of the field and
what follows that. -/
theorem rest_eq (h : EditsTagLine content content' before space old new dist after)
    (hpieces : Pieces content 0 chunk ((first, next) :: later)) :
    space = first.space ∧ old ++ (dist ++ after) = first.line ++ glue ReleaseField.text next later := by
  have hdrop := hpieces.drop
  rw [List.drop_zero, glue, h.eq, h.before_eq hpieces, ReleaseField.text, List.append_assoc,
    List.append_assoc] at hdrop
  have hrest := List.append_cancel_left (List.append_cancel_left hdrop)
  have hproper := hpieces.proper.1
  have htake : ∀ {s t : Str}, (∀ c ∈ s, isSpace c = true) → inClass isSpace t.head? = false →
      (s ++ t).takeWhile isSpace = s := by
    intro s t hs ht
    rw [List.takeWhile_append_of_pos hs]
    cases t with
    | nil => simp
    | cons c t =>
        have hc : isSpace c = false := ht
        rw [List.takeWhile_cons, hc, if_neg (by simp), List.append_nil]
  have hstop : inClass isSpace (first.line ++ glue ReleaseField.text next later).head? = false := by
    obtain ⟨⟨b, d, a⟩, hcut⟩ := hproper.dist
    have hne : first.line ≠ [] := by
      rw [(splitLastDist_some hcut).1.eq]
      have hd := distPrefix_length (splitLastDist_some hcut).1.dist
      simp [List.ne_nil_of_length_pos hd]
    obtain ⟨c, line, hcons⟩ := List.exists_cons_of_ne_nil hne
    have hhead := hproper.stop
    rw [hcons] at hhead ⊢
    exact hhead
  have hspace := congrArg (List.takeWhile isSpace) hrest
  rw [htake (fun c hc => (h.space_all c hc).1) (h.stop_dist after), htake hproper.space_all hstop] at hspace
  subst hspace
  exact ⟨rfl, List.append_cancel_left hrest⟩

end EditsTagLine

omit [UnicodeTables] in
/-- A line that is edited before a dist macro keeps its last one only as it is spelled. -/
theorem last_dist_eq {line b d a b' tail : Str} (hlast : splitLastDist line = some (b, d, a))
    (hdist : dist ∈ distSpellings) (hline : line = old ++ (dist ++ tail))
    (hedited : b' ++ (distMacro ++ a) = new ++ (dist ++ tail)) : d = distMacro := by
  obtain ⟨hcut, hlater⟩ := splitLastDist_some hlast
  have hle : old.length ≤ b.length := by
    by_contra hlt
    have hnone := hlater old.length (by omega)
    rw [hline, List.drop_left, distPrefix_append hdist] at hnone
    exact absurd hnone (by simp)
  have heq : old ++ (dist ++ tail) = b ++ (d ++ a) := by
    rw [← hline, hcut.eq, List.append_assoc]
  obtain ⟨w, hw⟩ : old <+: b := by
    have hold : old <+: b ++ (d ++ a) := by
      rw [← heq]
      exact List.prefix_append _ _
    exact List.prefix_of_prefix_length_le hold (List.prefix_append _ _) hle
  rw [← hw, List.append_assoc] at heq
  rw [List.append_cancel_left heq, ← List.append_assoc, ← List.append_assoc, ← List.append_assoc] at hedited
  have hends := List.append_cancel_right hedited
  have hmem := (distPrefix_some hcut.dist).1
  simp only [distSpellings, List.mem_cons, List.not_mem_nil, or_false] at hmem
  rcases hmem with rfl | rfl
  · rfl
  · -- the two spellings do not end alike
    have hmark : distMacro = "%\x7b".toList ++ "?dist\x7d".toList := rfl
    have hname : "%\x7bdist\x7d".toList = "%".toList ++ "\x7bdist\x7d".toList := rfl
    rw [hmark, hname, ← List.append_assoc, ← List.append_assoc] at hends
    have htails := (List.append_inj' hends rfl).2
    exact absurd htails (by decide)

end

/-! ## When the edit is local -/

section

variable {next : Str} {first : ReleaseField} {later : List (ReleaseField × Str)}

omit [UnicodeTables] in
theorem not_mem_part {line before dist after : Str} (hcut : CutAtDist line before dist after)
    (hline : '\n' ∉ line) : '\n' ∉ before ∧ '\n' ∉ dist ∧ '\n' ∉ after := by
  rw [hcut.eq, List.mem_append, List.mem_append, not_or, not_or] at hline
  exact ⟨hline.1.1, hline.1.2, hline.2⟩

/-- An edit that is not of a macro changes the text. -/
theorem updateReleaseText_plain (h : Pieces content 0 chunk ((first, next) :: later))
    (hok : updateReleaseText specFile newRelease content = .ok content')
    (hplain : isMacroBased first.line = false) : content' ≠ content := by
  have hsearch := h.search_eq releaseDistRe_readsFields
  obtain ⟨m, hm, hcaps⟩ := Option.map_eq_some_iff.mp hsearch
  have hbefore : m.group 1 = beforeLast first.line := by
    rw [Match.group, hcaps]
    rfl
  unfold updateReleaseText at hok
  simp only [hm, Option.filter_some, hbefore] at hok
  rw [if_neg (by rw [show contains "%\x7b".toList (beforeLast first.line) = false from hplain]; simp)] at hok
  obtain ⟨_, -, hok⟩ := except_bind_ok_iff.mp hok
  obtain ⟨_, hdiffers, hok⟩ := except_bind_ok_iff.mp hok
  rw [← Except.ok.inj hok]
  exact failIf_ok_iff.mp hdiffers

theorem editedLine_based {line line' : Str} (hbase : isMacroBased line = true) :
    editedLine newRelease line line' =
      bumpSuffix macroSuffixRe (beforeLast line) ++ (distMacro ++ afterLast line) := if_pos hbase

theorem editedLine_plain {line line' : Str} (hplain : isMacroBased line = false) :
    editedLine newRelease line line' = newRelease ++ (firstDist line' ++ afterFirst line') :=
  if_neg (by rw [hplain]; simp)

/-- The later fields of a text whose edit is local already read as the edit makes them. -/
theorem OneLine.editedLine_eq (h : OneLine newRelease content chunk first next later) :
    ∀ p ∈ later, editedLine newRelease first.line p.1.line = p.1.line := by
  intro p hp
  cases hbase : isMacroBased first.line with
  | false =>
      rw [editedLine_plain hbase]
      exact (h.plain_later hbase p hp).symm
  | true =>
      obtain ⟨b, a, hcut⟩ := h.macro_dist hbase
      have hbefore : beforeLast first.line = b := by rw [beforeLast, hcut]; rfl
      have hline := (not_mem_part (splitLastDist_some hcut).1 h.pieces.proper.1.one).1
      obtain ⟨release, hrelease, hline'⟩ := h.macro_later hbase p hp
      rw [hbefore] at hrelease
      rw [editedLine_based hbase, hbefore, ← (nextSuffix_iff hline).mp hrelease, hline']

/-- Such a text is edited on the line of its first tag alone. -/
theorem OneLine.localEdit (h : OneLine newRelease content chunk first next later)
    (hok : updateReleaseText specFile newRelease content = .ok content') : LocalEdit content content' := by
  have hdrop := h.pieces.drop
  rw [List.drop_zero, glue] at hdrop
  obtain ⟨_, _, _, heq, hedit⟩ := updateReleaseText_pieces h.pieces hok
  obtain ⟨⟨rfl, rfl⟩, rfl⟩ : (first = _ ∧ next = _) ∧ later = _ := by simpa using heq
  have hlater : glue (editedText newRelease first.line) next later = glue ReleaseField.text next later := by
    apply glue_congr
    intro p hp
    rw [editedText, h.editedLine_eq p hp, ReleaseField.text]
  rw [glue, hlater, editedText, List.append_assoc, List.append_assoc] at hedit
  rw [ReleaseField.text, List.append_assoc, List.append_assoc] at hdrop
  have hproper := h.pieces.proper.1
  have hfield := h.pieces.first (by simp)
  rw [Nat.zero_add] at hfield
  obtain ⟨_, _, _, _, hfield, -⟩ := hfield
  have hstart : chunk = [] ∨ chunk.getLast? = some '\n' := by
    rcases hfield.start with hzero | hprev
    · exact Or.inl (List.length_eq_zero_iff.mp hzero)
    · right
      rw [prev?] at hprev
      by_cases hzero : chunk.length = 0
      · rw [if_pos hzero] at hprev
        exact absurd hprev (by simp)
      · rw [if_neg hzero, hdrop, List.getElem?_append_left (by omega)] at hprev
        rw [List.getLast?_eq_getElem?, hprev]
  have hspace : ∀ c ∈ first.space, isSpace c = true ∧ c ≠ '\n' := by
    intro c hc
    refine ⟨hproper.space_all c hc, ?_⟩
    rintro rfl
    exact h.space hc
  have hstop : ∀ {before dist after : Str}, first.line = before ++ (dist ++ after) →
      inClass isSpace before.head? = false := by
    intro before dist after hline
    have hhead := hproper.stop
    rw [hline] at hhead
    cases before with
    | nil => rfl
    | cons c before => exact hhead
  cases hbase : isMacroBased first.line with
  | false =>
      obtain ⟨cut, hcut⟩ := hproper.dist
      obtain ⟨⟨b, d, a⟩, hcut⟩ := exists_splitFirstDist hcut
      obtain ⟨hcutAt, -⟩ := splitFirstDist_some hcut
      have hdist : firstDist first.line = d := by rw [firstDist, hcut]; rfl
      have hafter : afterFirst first.line = a := by rw [afterFirst, hcut]; rfl
      have hline : first.line = b ++ (d ++ a) := by rw [hcutAt.eq, List.append_assoc]
      rw [editedLine_plain hbase, hdist, hafter, List.append_assoc, List.append_assoc] at hedit
      rw [hline, List.append_assoc, List.append_assoc] at hdrop
      refine ⟨chunk, first.space, b, newRelease, d, a ++ glue ReleaseField.text next later, hdrop, hedit, ?_,
        hstart, h.tag, hproper.space_ne, hspace, hstop hline, (not_mem_part hcutAt hproper.one).1,
        h.plain_release hbase, (distPrefix_some hcutAt.dist).1⟩
      rintro rfl
      exact updateReleaseText_plain h.pieces hok hbase (hedit.trans hdrop.symm)
  | true =>
      obtain ⟨b, a, hcut⟩ := h.macro_dist hbase
      obtain ⟨hcutAt, -⟩ := splitLastDist_some hcut
      have hbefore : beforeLast first.line = b := by rw [beforeLast, hcut]; rfl
      have hafter : afterLast first.line = a := by rw [afterLast, hcut]; rfl
      have hline : first.line = b ++ (distMacro ++ a) := by rw [hcutAt.eq, List.append_assoc]
      have hb := (not_mem_part hcutAt hproper.one).1
      have hnext := (nextSuffix_iff hb).mpr rfl
      rw [editedLine_based hbase, hbefore, hafter, List.append_assoc, List.append_assoc] at hedit
      rw [hline, List.append_assoc, List.append_assoc] at hdrop
      exact ⟨chunk, first.space, b, _, distMacro, a ++ glue ReleaseField.text next later, hdrop, hedit,
        hnext.ne, hstart, h.tag, hproper.space_ne, hspace, hstop hline, hb, hnext.one_line hb,
        (distPrefix_some hcutAt.dist).1⟩

/-- What follows the white space after the tag, after an edit that is local. -/
theorem EditsTagLine.rest_edited {before space old new dist after : Str}
    (h : EditsTagLine content content' before space old new dist after)
    (hpieces : Pieces content 0 chunk ((first, next) :: later))
    (hedit : content' = glue (editedText newRelease first.line) chunk ((first, next) :: later)) :
    new ++ (dist ++ after) = editedLine newRelease first.line first.line ++
      glue (editedText newRelease first.line) next later := by
  rw [h.eq', h.before_eq hpieces, (h.rest_eq hpieces).1, glue, editedText, List.append_assoc,
    List.append_assoc] at hedit
  exact List.append_cancel_left (List.append_cancel_left (List.append_cancel_left hedit))

/-- The line of the first field, and what follows it, before and after an edit that is local. -/
theorem EditsTagLine.lines {before space old new dist after : Str}
    (h : EditsTagLine content content' before space old new dist after)
    (hpieces : Pieces content 0 chunk ((first, next) :: later))
    (hedit : content' = glue (editedText newRelease first.line) chunk ((first, next) :: later))
    (hline : '\n' ∉ editedLine newRelease first.line first.line) :
    ∃ tail, first.line = old ++ (dist ++ tail) ∧
      editedLine newRelease first.line first.line = new ++ (dist ++ tail) ∧
      glue ReleaseField.text next later = glue (editedText newRelease first.line) next later := by
  have hrest := (h.rest_eq hpieces).2
  have hrest' := h.rest_edited hpieces hedit
  have hproper := hpieces.proper.1
  obtain ⟨tail, rest, rfl, htail, hend⟩ := exists_line after
  have hdist := not_mem_of_distSpellings h.dist
  have hold : '\n' ∉ old ++ (dist ++ tail) := by simp [h.old_line, hdist, htail]
  have hnew : '\n' ∉ new ++ (dist ++ tail) := by simp [h.new_line, hdist, htail]
  simp only [← List.append_assoc] at hrest hrest'
  rw [List.append_assoc old] at hrest
  rw [List.append_assoc new] at hrest'
  obtain ⟨hline₁, hglue⟩ := line_cancel hold hproper.one hend hproper.glue_end hrest
  obtain ⟨hline₂, hglue'⟩ := line_cancel hnew hline hend hproper.glue_end hrest'
  exact ⟨tail, hline₁.symm, hline₂.symm, hglue.symm.trans hglue'⟩

omit [UnicodeTables] in
theorem ReleaseField.Proper.count_text (h : first.Proper next later) :
    first.line.count '\n' = 0 := List.count_eq_zero.mpr h.one

/-- No line break is lost by an edit. -/
theorem count_edited_le {line : Str} (h : AllProper fields) :
    (glue ReleaseField.text chunk fields).count '\n' ≤
      (glue (editedText newRelease line) chunk fields).count '\n' := by
  apply count_glue_le
  intro p hp
  have hline := List.count_eq_zero.mpr (h.one p hp)
  rw [ReleaseField.text, editedText]
  simp only [List.count_append, hline]
  omega

/-- A release that is not a macro and is written by a local edit is one line. -/
theorem EditsTagLine.plain_release {before space old new dist after : Str}
    (h : EditsTagLine content content' before space old new dist after)
    (hpieces : Pieces content 0 chunk ((first, next) :: later))
    (hedit : content' = glue (editedText newRelease first.line) chunk ((first, next) :: later))
    (hplain : isMacroBased first.line = false) : '\n' ∉ newRelease := by
  have hrest := congrArg (List.count '\n') (h.rest_eq hpieces).2
  have hrest' := congrArg (List.count '\n') (h.rest_edited hpieces hedit)
  have hlater : (glue ReleaseField.text next later).count '\n' ≤
      (glue (editedText newRelease first.line) next later).count '\n' := count_edited_le hpieces.proper.2
  have hline := hpieces.proper.1.count_text
  have hold := List.count_eq_zero.mpr h.old_line
  have hnew := List.count_eq_zero.mpr h.new_line
  rw [editedLine_plain hplain] at hrest'
  simp only [List.count_append] at hrest hrest'
  apply List.count_eq_zero.mp
  omega

/-- The edited line is one line. -/
theorem editedLine_one {line : Str} (hfirst : '\n' ∉ first.line) (hline : '\n' ∉ line)
    (hplain : isMacroBased first.line = false → '\n' ∉ newRelease)
    (hlast : ∃ cut, splitLastDist first.line = some cut) (hdist : ∃ cut, splitLastDist line = some cut) :
    '\n' ∉ editedLine newRelease first.line line := by
  cases hbase : isMacroBased first.line with
  | false =>
      obtain ⟨cut, hcut⟩ := hdist
      obtain ⟨⟨b, d, a⟩, hcut⟩ := exists_splitFirstDist hcut
      obtain ⟨-, hd, ha⟩ := not_mem_part (splitFirstDist_some hcut).1 hline
      rw [editedLine_plain hbase, firstDist, afterFirst, hcut]
      simp only [List.mem_append, not_or]
      exact ⟨hplain hbase, hd, ha⟩
  | true =>
      obtain ⟨⟨b, d, a⟩, hcut⟩ := hlast
      obtain ⟨hb, -, ha⟩ := not_mem_part (splitLastDist_some hcut).1 hfirst
      have hnext := (nextSuffix_iff hb).mpr rfl
      rw [editedLine_based hbase, beforeLast, afterLast, hcut]
      simp only [List.mem_append, not_or]
      exact ⟨hnext.one_line hb, by decide, ha⟩

omit [UnicodeTables] in
theorem AllProper.dist (h : AllProper fields) : ∀ p ∈ fields, ∃ cut, splitLastDist p.1.line = some cut := by
  induction fields with
  | nil => exact List.forall_mem_nil _
  | cons p fields ih =>
      obtain ⟨fl, next⟩ := p
      rw [List.forall_mem_cons]
      exact ⟨h.1.dist, ih h.2⟩

/-- A text that is edited on one line is such a text. -/
theorem EditsTagLine.oneLine {before space old new dist after : Str}
    (h : EditsTagLine content content' before space old new dist after)
    (hpieces : Pieces content 0 chunk ((first, next) :: later))
    (hedit : content' = glue (editedText newRelease first.line) chunk ((first, next) :: later)) :
    OneLine newRelease content chunk first next later := by
  have hplain := fun hplain => h.plain_release hpieces hedit hplain
  have hproper := hpieces.proper
  obtain ⟨tail, hold, hnew, hglue⟩ := h.lines hpieces hedit
    (editedLine_one hproper.1.one hproper.1.one hplain hproper.1.dist hproper.1.dist)
  have hlater : ∀ p ∈ later, editedLine newRelease first.line p.1.line = p.1.line := by
    have hone : ∀ p ∈ later, '\n' ∉ editedLine newRelease first.line p.1.line := by
      intro p hp
      exact editedLine_one hproper.1.one (hproper.2.one p hp) hplain hproper.1.dist (hproper.2.dist p hp)
    exact glue_inj hproper.2 hone hglue
  obtain ⟨⟨b, d, a⟩, hcut⟩ := hproper.1.dist
  have hbefore : beforeLast first.line = b := by rw [beforeLast, hcut]; rfl
  have hafter : afterLast first.line = a := by rw [afterLast, hcut]; rfl
  refine ⟨hpieces, ?_, ?_, ?_, ?_, hplain, ?_⟩
  · rw [← h.before_eq hpieces]
    exact h.first
  · rw [← (h.rest_eq hpieces).1]
    intro hmem
    exact (h.space_all _ hmem).2 rfl
  · intro hbase
    rw [editedLine_based hbase, hbefore, hafter] at hnew
    obtain rfl := last_dist_eq hcut h.dist hold hnew
    exact ⟨b, a, hcut⟩
  · intro hbase p hp
    have hb := (not_mem_part (splitLastDist_some hcut).1 hproper.1.one).1
    have hline := hlater p hp
    rw [editedLine_based hbase] at hline
    rw [hbefore] at hline ⊢
    exact ⟨_, (nextSuffix_iff hb).mpr rfl, hline.symm⟩
  · intro hplain p hp
    have hline := hlater p hp
    rw [editedLine_plain hplain] at hline
    exact hline.symm

/-! ## Line breaks

A spec file is read in text mode and written back: where it has a `\r`, the lines that end in it change,
too. -/

omit [UnicodeTables] in
theorem EditsTagLine.count_eq {before space old new dist after : Str}
    (h : EditsTagLine content content' before space old new dist after) :
    content'.count '\n' = content.count '\n' := by
  have hold := List.count_eq_zero.mpr h.old_line
  have hnew := List.count_eq_zero.mpr h.new_line
  rw [h.eq, h.eq']
  simp only [List.count_append, hold, hnew]

omit [UnicodeTables] in
/-- A text is free of `\r\n` when it has been edited on one line into one that is. -/
theorem EditsTagLine.noCrlf {before space old new dist after : Str}
    (h : EditsTagLine content content' before space old new dist after) (hedited : NoCrlf content') :
    NoCrlf content := by
  rw [h.eq'] at hedited
  have hbefore : NoCrlf before := hedited.left_of_append
  have hafter : NoCrlf after := by
    have hrest := hedited.right_of_append.right_of_append.right_of_append
    exact hrest.right_of_append.right_of_append
  rw [h.eq]
  have hdist : ∀ s, (dist ++ s).head? = some '%' := by
    intro s
    rw [List.head?_append, distSpellings_head h.dist]
    rfl
  have hdist' : '\r' ∉ dist := by
    have hmem := h.dist
    simp only [distSpellings, List.mem_cons, List.not_mem_nil, or_false] at hmem
    rcases hmem with rfl | rfl
    all_goals decide
  have hspace : '\n' ∉ space := fun hmem => (h.space_all _ hmem).2 rfl
  have hold : NoCrlf (old ++ (dist ++ after)) :=
    (noCrlf_of_not_mem h.old_line).append (hafter.prepend hdist') (by rw [hdist]; decide)
  have hline : NoCrlf (space ++ (old ++ (dist ++ after))) := by
    refine (noCrlf_of_not_mem hspace).append hold ?_
    intro hhead
    have hstop := h.stop_dist after
    rw [hhead] at hstop
    exact absurd hstop (by decide)
  have htag : '\r' ∉ releaseTag := by decide
  refine hbefore.append (hline.prepend htag) ?_
  rw [List.head?_append, show releaseTag.head? = some 'R' from rfl]
  simp

/-- An edit puts no `\r\n` in a text without `\r`. -/
theorem noCrlf_edited {line : Str} (h : AllProper fields)
    (hcr : '\r' ∉ glue ReleaseField.text chunk fields) (hline : '\r' ∉ line) (hfirst : '\n' ∉ line)
    (hdist : ∃ cut, splitLastDist line = some cut)
    (hplain : isMacroBased line = false → '\n' ∉ newRelease) :
    NoCrlf (glue (editedText newRelease line) chunk fields) := by
  induction fields generalizing chunk with
  | nil =>
      have hall := NoCrlf.prepend (b := []) List.IsChain.nil hcr
      rwa [List.append_nil] at hall
  | cons p fields ih =>
      obtain ⟨fl, next⟩ := p
      rw [glue, ReleaseField.text] at hcr
      simp only [List.mem_append, not_or] at hcr
      obtain ⟨hchunk, ⟨htag, hspace, hline'⟩, hnext⟩ := hcr
      rw [glue, editedText, List.append_assoc, List.append_assoc]
      refine ((NoCrlf.prepend ?_ hspace).prepend htag).prepend hchunk
      have hrest := ih h.2 hnext
      -- the release is followed by a dist macro, which does not begin with a line break
      cases hbase : isMacroBased line with
      | false =>
          obtain ⟨cut, hcut⟩ := h.1.dist
          obtain ⟨⟨b, d, a⟩, hcut⟩ := exists_splitFirstDist hcut
          have hcutAt := (splitFirstDist_some hcut).1
          rw [hcutAt.eq, List.mem_append, List.mem_append, not_or, not_or] at hline'
          have hd : firstDist fl.line = d := by rw [firstDist, hcut]; rfl
          have ha : afterFirst fl.line = a := by rw [afterFirst, hcut]; rfl
          rw [editedLine_plain hbase, hd, ha, List.append_assoc, List.append_assoc]
          refine (noCrlf_of_not_mem (hplain hbase)).append
            ((hrest.prepend hline'.2).prepend hline'.1.2) ?_
          rw [List.head?_append, distSpellings_head (distPrefix_some hcutAt.dist).1]
          simp
      | true =>
          obtain ⟨⟨b, d, a⟩, hcut⟩ := hdist
          have hcutAt := (splitLastDist_some hcut).1
          have hb := (not_mem_part hcutAt hfirst).1
          have hnext' := ((nextSuffix_iff hb).mpr rfl).one_line hb
          rw [hcutAt.eq, List.mem_append, List.mem_append, not_or, not_or] at hline
          have hbefore : beforeLast line = b := by rw [beforeLast, hcut]; rfl
          have hafter : afterLast line = a := by rw [afterLast, hcut]; rfl
          rw [editedLine_based hbase, hbefore, hafter, List.append_assoc, List.append_assoc]
          refine (noCrlf_of_not_mem hnext').append ((hrest.prepend hline.2).prepend (by decide)) ?_
          rw [List.head?_append, show distMacro.head? = some '%' from rfl]
          simp

/-- A file that is edited on one line has no `\r`. -/
theorem not_mem_of_localEdit {raw : Str} (hlocal : LocalEdit raw content')
    (hpieces : Pieces (universalNewlines raw) 0 chunk ((first, next) :: later))
    (hedit : content' = glue (editedText newRelease first.line) chunk ((first, next) :: later)) :
    '\r' ∉ raw := by
  obtain ⟨before, space, old, new, dist, after, h⟩ := hlocal
  have hproper := hpieces.proper
  have hdrop := hpieces.drop
  rw [List.drop_zero] at hdrop
  have hcr := not_mem_universalNewlines raw
  have hfirstcr : '\r' ∉ first.line := by
    rw [hdrop, glue, ReleaseField.text] at hcr
    simp only [List.mem_append, not_or] at hcr
    exact hcr.2.1.2.2
  have hraw := h.count_eq
  have hread := count_le_universalNewlines raw
  have hplain : isMacroBased first.line = false → '\n' ∉ newRelease := by
    intro hbase
    have hnext : (glue ReleaseField.text next later).count '\n' ≤
        (glue (editedText newRelease first.line) next later).count '\n' := count_edited_le hproper.2
    have hline := hproper.1.count_text
    rw [hdrop, glue, ReleaseField.text] at hread
    rw [hedit, glue, editedText, editedLine_plain hbase] at hraw
    simp only [List.count_append] at hread hraw
    apply List.count_eq_zero.mp
    omega
  have hedited : NoCrlf content' := by
    rw [hedit]
    exact noCrlf_edited hproper (hdrop ▸ hcr) hfirstcr hproper.1.one hproper.1.dist hplain
  have hbreaks := count_universalNewlines (h.noCrlf hedited)
  have hle : (universalNewlines raw).count '\n' ≤ content'.count '\n' := by
    rw [hdrop, hedit]
    exact count_edited_le hproper
  apply List.count_eq_zero.mp
  omega

/-- **`updateRelease_local_iff`** — the spec file that is written differs from the one that was read on the
line of the first tag alone, exactly when the file has no `\r` and that line is its first field and the
only one that changes. -/
theorem updateRelease_local_iff {dir dir' : Tree} (hok : updateReleaseInSpec dir newRelease = .ok dir') :
    ∃ specFile raw written, dir.glob ".spec" = [specFile] ∧ dir.read specFile = some (.text raw) ∧
      dir' = dir.write specFile (.text written) ∧
      (LocalEdit raw written ↔ '\r' ∉ raw ∧ EditsOneLine newRelease raw) := by
  unfold updateReleaseInSpec at hok
  split at hok
  · rename_i specFile hglob
    obtain ⟨content, hread, hok⟩ := except_bind_ok_iff.mp hok
    obtain ⟨written, hwritten, hok⟩ := except_bind_ok_iff.mp hok
    obtain rfl := Except.ok.inj hok
    obtain ⟨raw, hfile, rfl⟩ : ∃ raw, dir.read specFile = some (.text raw) ∧
        content = universalNewlines raw := by
      unfold readText at hread
      cases hfile : dir.read specFile with
      | none => simp [hfile] at hread
      | some f =>
          rw [hfile] at hread
          cases f with
          | text raw => exact ⟨raw, rfl, (Except.ok.inj hread).symm⟩
          | bytes b => simp [decodeText] at hread
          | dir => simp [decodeText] at hread
    obtain ⟨chunk, fields, hpieces⟩ := exists_pieces (universalNewlines raw)
    obtain ⟨first, next, later, rfl, hedit⟩ := updateReleaseText_pieces hpieces hwritten
    refine ⟨specFile, raw, written, hglob, hfile, rfl, ?_⟩
    constructor
    · intro hlocal
      have hcr := not_mem_of_localEdit hlocal hpieces hedit
      rw [universalNewlines_eq_self hcr] at hpieces
      obtain ⟨before, space, old, new, dist, after, h⟩ := hlocal
      exact ⟨hcr, chunk, first, next, later, h.oneLine hpieces hedit⟩
    · rintro ⟨hcr, chunk, first, next, later, hone⟩
      rw [universalNewlines_eq_self hcr] at hwritten
      exact hone.localEdit hwritten
  · exact absurd hok (by simp [exit])

end

end

/-! ## An edit of one line, and of two -/

/-- A package directory with one spec file. -/
def specDir (spec : Str) : Tree := Tree.ofList [("bash.spec", .text spec)]

/-- A spec text with a subpackage that has a release of its own. -/
def subpackageSpec : Str :=
  "Release: 1%\x7b?dist\x7d\n%package doc\nRelease: 2%\x7b?dist\x7d\n"

theorem updateRelease_local_iff_subpackage :
    letI := asciiTables
    ∃ dir' specFile raw written, (specDir subpackageSpec).glob ".spec" = [specFile] ∧
      (specDir subpackageSpec).read specFile = some (.text raw) ∧
      dir' = (specDir subpackageSpec).write specFile (.text written) ∧
      (LocalEdit raw written ↔ '\r' ∉ raw ∧ EditsOneLine "3" raw) := by
  let _ := asciiTables
  obtain ⟨dir', hok⟩ : ∃ dir', updateReleaseInSpec (specDir subpackageSpec) "3" = .ok dir' :=
    exists_ok (by decide +kernel)
  exact ⟨dir', updateRelease_local_iff hok⟩

/-- The release of the subpackage is rewritten with that of the package. -/
theorem updateRelease_not_local :
    letI := asciiTables
    let written : Str := "Release: 3%\x7b?dist\x7d\n%package doc\nRelease: 3%\x7b?dist\x7d\n"
    ((updateReleaseInSpec (specDir subpackageSpec) "3").toOption.bind fun dir' => dir'.read "bash.spec") =
        some (.text written) ∧
      ¬ LocalEdit subpackageSpec written := by
  let _ := asciiTables
  refine ⟨by decide +kernel, ?_⟩
  obtain ⟨first, others, first', others', hsplit, hsplit', hfirst, hfirst', hothers, hothers', hne⟩ :
      ∃ first others first' others' : Str, subpackageSpec = first ++ others ∧
        "Release: 3%\x7b?dist\x7d\n%package doc\nRelease: 3%\x7b?dist\x7d\n".toList = first' ++ others' ∧
        '\n' ∉ first ∧ '\n' ∉ first' ∧ others.head? = some '\n' ∧ others'.head? = some '\n' ∧
        others ≠ others' :=
    ⟨"Release: 1%\x7b?dist\x7d", "\n%package doc\nRelease: 2%\x7b?dist\x7d\n",
      "Release: 3%\x7b?dist\x7d", "\n%package doc\nRelease: 3%\x7b?dist\x7d\n", by decide⟩
  rintro ⟨before, space, old, new, dist, after, h⟩
  have hbefore : before = [] := by
    by_contra hne
    have htag : TagLineAt (before ++ (releaseTag ++ (space ++ (old ++ (dist ++ after))))) 0 := by
      rw [← h.eq]
      exact ⟨Or.inl rfl, by decide⟩
    exact h.first 0 (htag.of_append (List.length_pos_iff.mpr hne) h.start)
  have heq := hsplit.symm.trans h.eq
  have heq' := hsplit'.symm.trans h.eq'
  obtain ⟨tail, rest, rfl, htail, hend⟩ := exists_line after
  have hspace : '\n' ∉ space := fun hmem => (h.space_all _ hmem).2 rfl
  have hdist := not_mem_of_distSpellings h.dist
  have htag : '\n' ∉ releaseTag := by decide
  have hline : ∀ release : Str, '\n' ∉ release →
      '\n' ∉ releaseTag ++ (space ++ (release ++ (dist ++ tail))) := by
    intro release hrelease
    simp only [List.mem_append, not_or]
    exact ⟨htag, hspace, hrelease, hdist, htail⟩
  rw [hbefore, List.nil_append] at heq heq'
  simp only [← List.append_assoc] at heq heq'
  -- what follows the first line would be both the old text and the new one
  have hold := (line_cancel hfirst (by simpa using hline old h.old_line) (Or.inr hothers) hend heq).2
  have hnew := (line_cancel hfirst' (by simpa using hline new h.new_line) (Or.inr hothers') hend heq').2
  exact hne (hold.trans hnew.symm)

end HummingbirdRpms
