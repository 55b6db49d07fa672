/-
# HummingbirdRpms.CveVersionOrder — the order of versions (`.cursor/skills/cve/lib/spec.py`).

The key of a version is the tuple of all its numbers, and a suffix that puts a pre-release below its final
version.  A marker of a pre-release counts where it follows a digit, with one separator at most in between,
and no letter follows it; other letters do not count at all.

**`versionCmp_text`** — for dotted versions with a mark, a letter suffix and a pre-release tag, the key that
the regular expressions come to.  **`version_order`** — the order that follows: it is total, the numbers
compare one by one and a version with fewer of them comes first, and a pre-release comes before its final
version.  Letters make no difference, and hide a tag that follows them.
-/
import Mathlib.Data.List.Lex
import Mathlib.Data.Prod.Lex
import Mathlib.Order.Compare
import HummingbirdRpms.CveVersions
import HummingbirdRpms.Lib.RegexLines
import HummingbirdRpms.Lib.RegexSplit

namespace HummingbirdRpms.CveVersionOrder

open Lib Lib.Text Lib.Regex

/-! ## Versions with letters and tags -/

/-- The words of a tag. -/
def tagWords : List Str := prereleaseRank.map Prod.fst

/-- Letters that are no word of a tag. -/
structure IsLetters (letters : Str) : Prop where
  ascii : ∀ c ∈ letters, isAsciiLetter c = true
  noTag : lowerAscii letters ∉ tagWords

/-- `[-._~]` -/
def isSeparator (c : Char) : Bool := c = '-' || c = '.' || c = '_' || c = '~'

/-- The tag of a pre-release, such as `-rc.1`; letters may follow its number. -/
structure PrereleaseTag where
  separator : Option Char
  word : Str
  dot : Bool
  number : Str
  letters : Str
  isSeparator : ∀ c ∈ separator, isSeparator c = true
  isWord : lowerAscii word ∈ tagWords
  isNumber : ∀ c ∈ number, isAsciiDigit c = true
  isLetters : IsLetters letters
  numbered : letters ≠ [] → number ≠ []

/-- A dotted version behind a mark, with a letter suffix and a tag, each of which it may lack.  Behind letters
a tag has a separator. -/
structure TaggedVersion where
  mark : Str
  numbers : DottedVersion
  letters : Str
  tag : Option PrereleaseTag
  isMark : ∀ c ∈ mark, c = 'v' ∨ c = 'V'
  isLetters : IsLetters letters
  separated : letters ≠ [] → ∀ t ∈ tag, t.separator ≠ none

/-- What follows the word of a tag. -/
def PrereleaseTag.rest (t : PrereleaseTag) : Str :=
  (if t.dot then ['.'] else []) ++ (t.number ++ t.letters)

def PrereleaseTag.text (t : PrereleaseTag) : Str := t.separator.toList ++ (t.word ++ t.rest)

/-- A version without its mark. -/
def TaggedVersion.bare (v : TaggedVersion) : Str :=
  v.numbers.text ++ (v.letters ++ (v.tag.map PrereleaseTag.text).getD [])

def TaggedVersion.text (v : TaggedVersion) : Str := v.mark ++ v.bare

/-- The rank of a tag, by its word. -/
def PrereleaseTag.rank (t : PrereleaseTag) : Nat := (prereleaseRank.lookup (lowerAscii t.word)).getD 0

/-- The final version of a pre-release. -/
def TaggedVersion.final (v : TaggedVersion) : TaggedVersion :=
  { v with tag := none, separated := fun _ _ h => by cases h }

section

variable [UnicodeTables]

/-- The numbers that count: those of the version, and that of a tag behind letters. -/
def TaggedVersion.counted (v : TaggedVersion) : List Nat :=
  match v.letters, v.tag with
  | _ :: _, some t => v.numbers.nums ++ if t.number = [] then [] else [intOfDigits t.number]
  | _, _ => v.numbers.nums

/-- The suffix of the key: a tag counts where no letters precede it. -/
def TaggedVersion.suffix (v : TaggedVersion) : List Nat :=
  match v.letters, v.tag with
  | [], some t => [0, t.rank, intOfDigits t.number]
  | _, _ => [1]

/-! ## Characters -/

omit [UnicodeTables] in
theorem tagWords_letters : ∀ w ∈ tagWords, w ≠ [] ∧ ∀ c ∈ w, isAsciiLower c = true := by decide

/-- What can match a letter under `re.IGNORECASE`. -/
def isTagLetter (c : Char) : Bool := isAsciiLetter c || [0x17F, 0x212A, 0x130, 0x131].contains c.toNat

omit [UnicodeTables] in
theorem isLetter_of_tagLetter {c : Char} (h : isTagLetter c = true) : isLetterOrUnderscore c = true := by
  rw [isTagLetter, Bool.or_eq_true] at h
  rw [isLetterOrUnderscore, Bool.or_eq_true, Bool.or_eq_true]
  rcases h with h | h
  · exact Or.inl (Or.inl h)
  · exact Or.inr h

omit [UnicodeTables] in
theorem isTagLetter_of_foldEq {a c : Char} (ha : isAsciiLower a = true) (h : Re.foldEq a c = true) :
    isTagLetter c = true := by
  have hupper : lowerChar c = a → isAsciiLetter c = true := by
    intro hlower
    rw [lowerChar] at hlower
    split at hlower
    · rename_i hc
      rw [isAsciiLetter, hc, Bool.or_true]
    · rw [hlower, isAsciiLetter, ha, Bool.true_or]
  simp only [Re.foldEq, Bool.or_eq_true, Bool.and_eq_true, decide_eq_true_eq] at h
  rw [isTagLetter, Bool.or_eq_true]
  rcases h with (((rfl | hlower) | ⟨-, hc⟩) | ⟨-, hc⟩) | ⟨-, hc | hc⟩
  · exact Or.inl (by rw [isAsciiLetter, ha, Bool.true_or])
  · exact Or.inl (hupper hlower)
  all_goals exact Or.inr (by rw [hc]; decide)

omit [UnicodeTables] in
theorem lowerChar_of_foldEq {a c : Char} (ha : isAsciiLower a = true) (hc : isAsciiLetter c = true)
    (h : Re.foldEq a c = true) : lowerChar c = a := by
  have hsmall : c.toNat < 128 := by
    simp only [isAsciiLetter, isAsciiLower, isAsciiUpper, Bool.or_eq_true, Bool.and_eq_true,
      decide_eq_true_eq] at hc
    omega
  simp only [Re.foldEq, Bool.or_eq_true, Bool.and_eq_true, decide_eq_true_eq] at h
  rcases h with (((rfl | hlower) | ⟨-, hc⟩) | ⟨-, hc⟩) | ⟨-, hc | hc⟩
  · rw [lowerChar, if_neg]
    simp only [isAsciiLower, isAsciiUpper, Bool.and_eq_true, decide_eq_true_eq] at ha ⊢
    omega
  · exact hlower
  all_goals omega

omit [UnicodeTables] in
theorem isTagLetter_of_ascii {c : Char} (hc : isAsciiLetter c = true) : isTagLetter c = true := by
  rw [isTagLetter, hc, Bool.true_or]

omit [UnicodeTables] in
theorem not_isLetter_of_isPart {c : Char} (hc : DottedVersion.isPart c = true) :
    isLetterOrUnderscore c = false := by
  have hn := DottedVersion.isPart_toNat hc
  have hne : c ≠ '_' := by
    rintro rfl
    exact absurd hn (by decide)
  simp only [isLetterOrUnderscore, isAsciiLetter, isAsciiLower, isAsciiUpper, Bool.or_eq_false_iff,
    Bool.and_eq_false_iff, decide_eq_false_iff_not, List.contains_eq_mem, List.mem_cons, List.not_mem_nil, or_false]
  refine ⟨⟨by omega, hne⟩, by omega⟩

omit [UnicodeTables] in
theorem inClass_mono {o : Option Char} (h : inClass isLetterOrUnderscore o = false) :
    inClass isTagLetter o = false := by
  rw [← Bool.not_eq_true] at h ⊢
  intro ho
  obtain ⟨c, hc, hletter⟩ := inClass_iff.mp ho
  exact h (inClass_iff.mpr ⟨c, hc, isLetter_of_tagLetter hletter⟩)

omit [UnicodeTables] in
theorem not_isTagLetter {c : Char} (hc : isLetterOrUnderscore c = false) : isTagLetter c = false := by
  rw [← Bool.not_eq_true] at hc ⊢
  exact fun h => hc (isLetter_of_tagLetter h)

omit [UnicodeTables] in
theorem not_isTagLetter_of_separator {c : Char} (hc : isSeparator c = true) : isTagLetter c = false := by
  simp only [isSeparator, Bool.or_eq_true, decide_eq_true_eq] at hc
  rcases hc with ((rfl | rfl) | rfl) | rfl
  all_goals decide

theorem not_isDigit_of_letter {c : Char} (hc : isAsciiLetter c = true) : isDigit c = false := by
  simp only [isAsciiLetter, isAsciiLower, isAsciiUpper, Bool.or_eq_true, Bool.and_eq_true,
    decide_eq_true_eq] at hc
  rw [isDigit_of_lt (by omega), isAsciiDigit, Bool.and_eq_false_iff, decide_eq_false_iff_not,
    decide_eq_false_iff_not]
  omega

theorem not_isDigit_of_separator {c : Char} (hc : isSeparator c = true) : isDigit c = false := by
  simp only [isSeparator, Bool.or_eq_true, decide_eq_true_eq] at hc
  rcases hc with ((rfl | rfl) | rfl) | rfl
  all_goals exact isDigit_of_lt (by decide)

omit [UnicodeTables] in
theorem isAsciiLetter_of_lowerAscii {w : Str} (hw : lowerAscii w ∈ tagWords) :
    ∀ c ∈ w, isAsciiLetter c = true := by
  intro c hc
  have hlower := (tagWords_letters _ hw).2 _ (List.mem_map_of_mem hc)
  rw [isAsciiLetter, Bool.or_eq_true]
  rw [lowerChar] at hlower
  split at hlower
  · rename_i hupper
    exact Or.inr hupper
  · exact Or.inl hlower

omit [UnicodeTables] in
theorem lowerAscii_of_forall₂ {w x : Str} (hw : ∀ c ∈ w, isAsciiLower c = true)
    (hx : ∀ c ∈ x, isAsciiLetter c = true)
    (h : List.Forall₂ (fun a c => Re.foldEq a c = true) w x) : lowerAscii x = w := by
  induction h with
  | nil => rfl
  | cons hhead _ ih =>
      obtain ⟨ha, hw⟩ := List.forall_mem_cons.mp hw
      obtain ⟨hc, hx⟩ := List.forall_mem_cons.mp hx
      rw [lowerAscii, List.map_cons, lowerChar_of_foldEq ha hc hhead]
      exact congrArg _ (ih hw hx)

/-! ## Where the pattern of a tag matches -/

variable {t u rest : Str} {s : St} {c d : Char}

/-- The number of a tag, in the pattern. -/
def numberRe : Re := .cat (Re.opt (.lit ".")) (.group 3 (.many true isDigit))

/-- The word of a tag. -/
def wordRe : Re := .group 2 (Re.oneOf (tagWords.map Re.ilit))

/-- What follows the digit. -/
def afterDigitRe : Re :=
  .cat (Re.opt (.chr isSeparator)) (.cat wordRe (.cat (.notBefore isLetterOrUnderscore) numberRe))

theorem versionPrereleaseRe_eq : versionPrereleaseRe = .cat (.group 1 (.chr isDigit)) afterDigitRe := by
  have hwords : Re.oneOf (prereleaseRank.map fun w => Re.ilit w.1) = Re.oneOf (tagWords.map Re.ilit) := by
    rw [tagWords, List.map_map]
    rfl
  rw [versionPrereleaseRe, hwords]
  rfl

/-- The pattern goes on from a digit. -/
theorem run_prerelease_digit (hdrop : t.drop s.pos = d :: u) (hd : isDigit d = true) :
    run t versionPrereleaseRe s = run t afterDigitRe ⟨s.pos + 1, (1, [d]) :: s.caps⟩ := by
  have hget : inClass isDigit t[s.pos]? = true := by
    rw [← List.head?_drop, hdrop]
    exact hd
  rw [versionPrereleaseRe_eq, run_cat, run_group, run_chr, if_pos hget, List.map_singleton,
    List.flatMap_singleton]
  simp only [Nat.add_sub_cancel_left, hdrop]
  rfl

theorem run_prerelease_nil (hdrop : inClass isDigit (t.drop s.pos).head? = false) :
    run t versionPrereleaseRe s = [] := by
  rw [List.head?_drop] at hdrop
  rw [versionPrereleaseRe_eq, run_cat, run_group, run_chr, if_neg (by rw [hdrop]; exact Bool.false_ne_true)]
  rfl

omit [UnicodeTables] in
theorem isTagLetter_of_forall₂ {w x : Str} (hw : ∀ c ∈ w, isAsciiLower c = true)
    (h : List.Forall₂ (fun a c => Re.foldEq a c = true) w x) : ∀ c ∈ x, isTagLetter c = true := by
  induction h with
  | nil => exact List.forall_mem_nil _
  | cons hhead _ ih =>
      obtain ⟨ha, hw⟩ := List.forall_mem_cons.mp hw
      exact List.forall_mem_cons.mpr ⟨isTagLetter_of_foldEq ha hhead, ih hw⟩

omit [UnicodeTables] in
/-- A word of a tag that no letter follows is the whole stretch of letters. -/
theorem word_of_mem {r : Re} {letters : Str} {m : St} (hm : m ∈ run t wordRe s)
    (hnext : run t (.cat (.notBefore isLetterOrUnderscore) r) m ≠ [])
    (hdrop : t.drop s.pos = letters ++ rest) (hletters : ∀ c ∈ letters, isAsciiLetter c = true)
    (hrest : inClass isTagLetter rest.head? = false) :
    m = ⟨s.pos + letters.length, (2, letters) :: s.caps⟩ ∧ lowerAscii letters ∈ tagWords := by
  obtain ⟨m', hm', rfl⟩ := mem_run_group.mp hm
  obtain ⟨r', hr, hm'⟩ := mem_run_oneOf.mp hm'
  obtain ⟨w, hw, rfl⟩ := List.mem_map.mp hr
  obtain ⟨x, ⟨y, hxy⟩, hall, rfl⟩ := mem_run_ilit.mp hm'
  have hlower := (tagWords_letters w hw).2
  -- behind the word stands no letter, or the pattern would not go on
  have hy : inClass isTagLetter y.head? = false := by
    rw [← Bool.not_eq_true]
    intro hletter
    obtain ⟨c, hc, hletter⟩ := inClass_iff.mp hletter
    apply hnext
    have hget : inClass isLetterOrUnderscore t[s.pos + w.length]? = true := by
      rw [← List.head?_drop, ← List.drop_drop, ← hxy, hall.length_eq, List.drop_left]
      exact inClass_iff.mpr ⟨c, hc, isLetter_of_tagLetter hletter⟩
    rw [run_cat]
    show (if inClass isLetterOrUnderscore t[s.pos + w.length]? then ([] : List St) else [_]).flatMap _ = []
    rw [if_pos hget]
    rfl
  obtain ⟨rfl, -⟩ := word_cancel (isTagLetter_of_forall₂ hlower hall)
    (fun c hc => isTagLetter_of_ascii (hletters c hc)) hy hrest (hxy.trans hdrop)
  refine ⟨?_, ?_⟩
  · simp only [Nat.add_sub_cancel_left, hall.length_eq, ← hxy, List.take_left]
  · rw [lowerAscii_of_forall₂ hlower hletters hall]
    exact hw

/-- No tag begins where the letters are no word of a tag. -/
theorem run_word_nil {letters : Str} (hdrop : t.drop s.pos = letters ++ rest) (hletters : IsLetters letters)
    (hrest : inClass isTagLetter rest.head? = false) :
    run t (.cat wordRe (.cat (.notBefore isLetterOrUnderscore) numberRe)) s = [] := by
  rw [List.eq_nil_iff_forall_not_mem]
  intro e he
  obtain ⟨m, hm, he⟩ := mem_run_cat.mp he
  obtain ⟨-, hword⟩ := word_of_mem hm (List.ne_nil_of_mem he) hdrop hletters.ascii hrest
  exact hletters.noTag hword

omit [UnicodeTables] in
theorem isLetters_nil : IsLetters [] := ⟨List.forall_mem_nil _, by decide⟩

/-- No tag begins at a digit that other letters follow, or none. -/
theorem run_prerelease_letters {letters : Str} (hdrop : t.drop s.pos = d :: (letters ++ rest))
    (hletters : IsLetters letters) (hrest : inClass isTagLetter rest.head? = false)
    (hseparator : letters = [] → ∀ c y, rest = c :: y → isSeparator c = true →
      inClass isTagLetter y.head? = false) : run t versionPrereleaseRe s = [] := by
  by_cases hd : isDigit d = true
  · rw [run_prerelease_digit hdrop hd, List.eq_nil_iff_forall_not_mem]
    intro e he
    obtain ⟨m, hm, he⟩ := mem_run_cat.mp he
    have hnext : t.drop (s.pos + 1) = letters ++ rest := by
      rw [← List.drop_drop, hdrop]
      rfl
    rcases mem_run_opt.mp hm with hm | rfl
    · obtain ⟨hc, rfl⟩ := mem_run_chr.mp hm
      rw [← List.head?_drop, hnext] at hc
      obtain ⟨c, hhead, hc⟩ := inClass_iff.mp hc
      cases letters with
      | cons l letters =>
          -- a letter is no separator
          obtain rfl := Option.some.inj hhead
          have hl := isTagLetter_of_ascii (hletters.ascii l List.mem_cons_self)
          rw [not_isTagLetter_of_separator hc] at hl
          cases hl
      | nil =>
          obtain ⟨y, rfl⟩ := List.head?_eq_some_iff.mp hhead
          have hy := hseparator rfl c y rfl hc
          have hdrop' : t.drop (s.pos + 1 + 1) = [] ++ y := by
            rw [← List.drop_drop, hnext]
            rfl
          rw [run_word_nil (s := ⟨s.pos + 1 + 1, _⟩) hdrop' isLetters_nil hy] at he
          cases he
    · rw [run_word_nil (s := ⟨s.pos + 1, _⟩) hnext hletters hrest] at he
      cases he
  · refine run_prerelease_nil ?_
    rw [hdrop]
    exact Bool.eq_false_iff.mpr hd

/-! ## The match of a tag -/

omit [UnicodeTables] in
/-- A concatenation goes on from the only way of its first part that its second part can follow. -/
theorem head?_cat_only {r r' : Re} {m : St} (hm : m ∈ run t r s)
    (honly : ∀ e ∈ run t r s, e = m ∨ run t r' e = []) : (run t (.cat r r') s).head? = (run t r' m).head? := by
  rw [head?_cat]
  revert hm honly
  induction run t r s with
  | nil => exact fun hm => absurd hm List.not_mem_nil
  | cons e es ih =>
      intro hm honly
      rw [List.findSome?_cons]
      cases hhead : (run t r' e).head? with
      | some first =>
          rcases honly e List.mem_cons_self with rfl | hnil
          · exact hhead.symm
          · rw [hnil] at hhead
            cases hhead
      | none =>
          dsimp only
          rcases List.mem_cons.mp hm with rfl | hm
          · -- the way is a dead end, and so are all others
            rw [hhead, List.findSome?_eq_none_iff]
            intro e' he'
            rcases honly e' (List.mem_cons_of_mem _ he') with rfl | hnil
            · exact hhead
            · rw [hnil]
              rfl
          · exact ih hm fun e' he' => honly e' (List.mem_cons_of_mem _ he')

variable {tag : PrereleaseTag}

omit [UnicodeTables] in
/-- The number of a tag comes first, if anything follows. -/
theorem numbered_head : ∀ c ∈ (tag.number ++ tag.letters).head?, isAsciiDigit c = true := by
  intro c hc
  cases hnumber : tag.number with
  | nil =>
      cases hletters : tag.letters with
      | nil =>
          rw [hnumber, hletters] at hc
          cases hc
      | cons l letters =>
          exact absurd hnumber (tag.numbered (by rw [hletters]; exact List.cons_ne_nil _ _))
  | cons n number =>
      rw [hnumber] at hc
      obtain rfl := Option.some.inj hc
      exact tag.isNumber n (hnumber ▸ List.mem_cons_self)

omit [UnicodeTables] in
/-- No letter follows the word of a tag. -/
theorem rest_head : inClass isLetterOrUnderscore tag.rest.head? = false := by
  rw [← Bool.not_eq_true]
  intro h
  obtain ⟨c, hc, hletter⟩ := inClass_iff.mp h
  have hpart : DottedVersion.isPart c = true := by
    rw [PrereleaseTag.rest] at hc
    cases hdot : tag.dot with
    | true =>
        rw [hdot, if_pos rfl] at hc
        obtain rfl := Option.some.inj hc
        decide
    | false =>
        rw [hdot, if_neg Bool.false_ne_true, List.nil_append] at hc
        rw [DottedVersion.isPart, numbered_head c hc, Bool.true_or]
  rw [not_isLetter_of_isPart hpart] at hletter
  cases hletter

/-- The number of a tag is taken as a whole, behind a dot if there is one. -/
theorem head?_number (hdrop : t.drop s.pos = tag.rest) :
    ∃ p, (run t numberRe s).head? = some ⟨p, (3, tag.number) :: s.caps⟩ := by
  have hletters : inClass isDigit tag.letters.head? = false := by
    cases hlist : tag.letters with
    | nil => rfl
    | cons l letters => exact not_isDigit_of_letter (tag.isLetters.ascii l (hlist ▸ List.mem_cons_self))
  have hnumber : ∀ s : St, t.drop s.pos = tag.number ++ tag.letters →
      (run t (.group 3 (.many true isDigit)) s).head? =
        some ⟨s.pos + tag.number.length, (3, tag.number) :: s.caps⟩ := by
    intro s hs
    rw [head?_group, head?_many_greedy,
      spanLen_of_drop hs (fun c hc => isDigit_of_ascii (tag.isNumber c hc)) hletters, Option.map_some]
    simp only [Nat.add_sub_cancel_left, hs, List.take_left]
  unfold numberRe
  rw [PrereleaseTag.rest] at hdrop
  cases hdot : tag.dot with
  | true =>
      rw [hdot, if_pos rfl] at hdrop
      have hrun : run t (Re.opt (.lit ".")) s = [{ s with pos := s.pos + 1 }, s] := by
        have hlit : t.drop s.pos = ".".toList ++ (tag.number ++ tag.letters) := hdrop
        rw [Re.opt, run_alt, run_lit_of_drop hlit]
        rfl
      refine ⟨s.pos + 1 + tag.number.length, ?_⟩
      rw [run_cat, hrun, List.flatMap_cons, List.head?_append, hnumber { s with pos := s.pos + 1 }]
      · rfl
      · show t.drop (s.pos + 1) = _
        rw [← List.drop_drop, hdrop]
        rfl
  | false =>
      rw [hdot, if_neg Bool.false_ne_true, List.nil_append] at hdrop
      have hnot : ¬ ".".toList <+: t.drop s.pos := by
        rintro ⟨u, hu⟩
        rw [← hu] at hdrop
        have hdigit := @numbered_head tag '.' (by rw [← hdrop]; rfl)
        exact absurd hdigit (by decide)
      have hrun : run t (Re.opt (.lit ".")) s = [s] := by
        rw [Re.opt, run_alt, run_lit_nil hnot]
        rfl
      refine ⟨s.pos + tag.number.length, ?_⟩
      rw [run_cat, hrun, List.flatMap_singleton, hnumber s hdrop]

/-- The pattern finds a tag behind a digit, with its word and its number. -/
theorem head?_tag (hdrop : t.drop s.pos = d :: tag.text) (hd : isDigit d = true) :
    ∃ p, (run t versionPrereleaseRe s).head? =
      some ⟨p, (3, tag.number) :: (2, tag.word) :: (1, [d]) :: s.caps⟩ := by
  have hletters := isAsciiLetter_of_lowerAscii tag.isWord
  have hnonempty : tag.word ≠ [] := by
    intro hnil
    exact (tagWords_letters _ tag.isWord).1 (by rw [hnil]; rfl)
  -- the word can match, and no other word can go on
  have hword : ∀ s : St, t.drop s.pos = tag.word ++ tag.rest →
      ∃ p, (run t (.cat wordRe (.cat (.notBefore isLetterOrUnderscore) numberRe)) s).head? =
        some ⟨p, (3, tag.number) :: (2, tag.word) :: s.caps⟩ := by
    intro s hs
    have hsame : List.Forall₂ (fun a c => Re.foldEq a c = true) (lowerAscii tag.word) tag.word := by
      rw [lowerAscii, List.forall₂_map_left_iff, List.forall₂_same]
      intro c _
      simp [Re.foldEq]
    have hlength : (lowerAscii tag.word).length = tag.word.length := List.length_map _
    have hmem : (⟨s.pos + tag.word.length, (2, tag.word) :: s.caps⟩ : St) ∈ run t wordRe s := by
      refine mem_run_group.mpr ⟨{ s with pos := s.pos + tag.word.length }, ?_, ?_⟩
      · refine mem_run_oneOf.mpr ⟨_, List.mem_map_of_mem tag.isWord, mem_run_ilit.mpr ⟨tag.word, ?_, hsame, ?_⟩⟩
        · rw [hs]
          exact List.prefix_append _ _
        · rw [hlength]
      · simp only [Nat.add_sub_cancel_left, hs, List.take_left]
    have honly : ∀ e ∈ run t wordRe s, e = ⟨s.pos + tag.word.length, (2, tag.word) :: s.caps⟩ ∨
        run t (.cat (.notBefore isLetterOrUnderscore) numberRe) e = [] := by
      intro e he
      by_cases hnil : run t (.cat (.notBefore isLetterOrUnderscore) numberRe) e = []
      · exact Or.inr hnil
      · exact Or.inl (word_of_mem he hnil hs hletters (inClass_mono rest_head)).1
    have hnext : t.drop (s.pos + tag.word.length) = tag.rest := drop_add_length hs
    obtain ⟨p, hnumber⟩ := head?_number (s := ⟨s.pos + tag.word.length, (2, tag.word) :: s.caps⟩) hnext
    refine ⟨p, ?_⟩
    rw [head?_cat_only hmem honly, run_cat]
    have hpass : run t (.notBefore isLetterOrUnderscore) ⟨s.pos + tag.word.length, (2, tag.word) :: s.caps⟩ =
        [⟨s.pos + tag.word.length, (2, tag.word) :: s.caps⟩] := by
      have hget : inClass isLetterOrUnderscore t[s.pos + tag.word.length]? = false := by
        rw [← List.head?_drop, hnext]
        exact rest_head
      show (if inClass isLetterOrUnderscore t[s.pos + tag.word.length]? then _ else _) = _
      rw [if_neg (by rw [hget]; exact Bool.false_ne_true)]
    rw [hpass, List.flatMap_singleton, hnumber]
  rw [run_prerelease_digit hdrop hd]
  have hnext : t.drop (s.pos + 1) = tag.text := by
    rw [← List.drop_drop, hdrop]
    rfl
  rw [PrereleaseTag.text] at hnext
  unfold afterDigitRe
  cases hseparator : tag.separator with
  | none =>
      rw [hseparator, Option.toList_none, List.nil_append] at hnext
      obtain ⟨p, hfound⟩ := hword ⟨s.pos + 1, (1, [d]) :: s.caps⟩ hnext
      refine ⟨p, ?_⟩
      rw [head?_cat_only (m := ⟨s.pos + 1, (1, [d]) :: s.caps⟩) (mem_run_opt.mpr (Or.inr rfl)), hfound]
      intro e he
      rcases mem_run_opt.mp he with he | rfl
      · -- the word begins with a letter
        obtain ⟨hc, -⟩ := mem_run_chr.mp he
        obtain ⟨w, ws, hw⟩ := List.exists_cons_of_ne_nil hnonempty
        rw [← List.head?_drop, hnext, hw] at hc
        have hletter := isTagLetter_of_ascii (hletters w (hw ▸ List.mem_cons_self))
        rw [not_isTagLetter_of_separator hc] at hletter
        cases hletter
      · exact Or.inl rfl
  | some c =>
      have hc := tag.isSeparator c hseparator
      rw [hseparator] at hnext
      have hbehind : t.drop (s.pos + 1 + 1) = tag.word ++ tag.rest := by
        rw [← List.drop_drop, hnext]
        rfl
      obtain ⟨p, hfound⟩ := hword ⟨s.pos + 1 + 1, (1, [d]) :: s.caps⟩ hbehind
      have hget : inClass isSeparator t[s.pos + 1]? = true := by
        rw [← List.head?_drop, hnext]
        exact hc
      refine ⟨p, ?_⟩
      rw [head?_cat_only (m := ⟨s.pos + 1 + 1, (1, [d]) :: s.caps⟩)
        (mem_run_opt.mpr (Or.inl (mem_run_chr.mpr ⟨hget, rfl⟩))), hfound]
      intro e he
      rcases mem_run_opt.mp he with he | rfl
      · exact Or.inl (mem_run_chr.mp he).2
      · -- the word cannot begin with the separator
        have hstart : t.drop (s.pos + 1) = [] ++ c :: (tag.word ++ tag.rest) := hnext
        exact Or.inr (run_word_nil (s := ⟨s.pos + 1, _⟩) hstart isLetters_nil (not_isTagLetter_of_separator hc))

/-! ## The key of a version -/

variable {v w : TaggedVersion}

omit [UnicodeTables] in
/-- A dotted version, up to its last digit. -/
theorem exists_last (n : DottedVersion) : ∃ front d, n.text = front ++ [d] ∧ isAsciiDigit d = true := by
  obtain ⟨parts, part, hparts⟩ : ∃ parts part, n.parts = parts ++ [part] := by
    exact ⟨_, _, (List.dropLast_append_getLast n.nonempty).symm⟩
  obtain ⟨hne, hdigits⟩ := n.digits part (hparts ▸ List.mem_append_right _ (List.mem_singleton_self _))
  obtain ⟨ds, d, rfl⟩ : ∃ ds d, part = ds ++ [d] := ⟨_, _, (List.dropLast_append_getLast hne).symm⟩
  have hlast : ∀ ps : List Str, ∃ front, join ".".toList (ps ++ [ds ++ [d]]) = front ++ [d] := by
    intro ps
    induction ps with
    | nil => exact ⟨ds, rfl⟩
    | cons p ps ih =>
        obtain ⟨front, hfront⟩ := ih
        obtain ⟨q, qs, hqs⟩ := List.exists_cons_of_ne_nil (List.append_ne_nil_of_right_ne_nil ps
          (List.cons_ne_nil (ds ++ [d]) []))
        refine ⟨p ++ ".".toList ++ front, ?_⟩
        rw [List.cons_append, hqs, join, ← hqs, hfront, List.append_assoc, List.append_assoc, List.append_assoc]
  obtain ⟨front, hfront⟩ := hlast parts
  exact ⟨front, d, by rw [DottedVersion.text, hparts, hfront],
    hdigits d (List.mem_append_right _ (List.mem_singleton_self _))⟩

omit [UnicodeTables] in
theorem not_isSeparator_of_digit (hd : isAsciiDigit d = true) : isSeparator d = false := by
  rw [← Bool.not_eq_true]
  intro h
  simp only [isSeparator, Bool.or_eq_true, decide_eq_true_eq] at h
  rcases h with ((rfl | rfl) | rfl) | rfl
  all_goals exact absurd hd (by decide)

omit [UnicodeTables] in
theorem not_isTagLetter_of_isPart (hc : DottedVersion.isPart c = true) : isTagLetter c = false :=
  not_isTagLetter (not_isLetter_of_isPart hc)

omit [UnicodeTables] in
theorem isPart_of_digit (hd : isAsciiDigit d = true) : DottedVersion.isPart d = true := by
  rw [DottedVersion.isPart, hd, Bool.true_or]

/-- No tag begins where the rest of the text is this. -/
def Quiet (u : Str) : Prop := ∀ t s, t.drop s.pos = u → run t versionPrereleaseRe s = []

/-- Nor anywhere in it. -/
def AllQuiet (u : Str) : Prop := ∀ x y, u = x ++ y → Quiet y

theorem quiet_nil : Quiet [] := fun _ _ hdrop => run_prerelease_nil (by rw [hdrop]; rfl)

theorem quiet_cons (hc : isDigit c = false) : Quiet (c :: u) :=
  fun _ _ hdrop => run_prerelease_nil (by rw [hdrop]; exact hc)

theorem allQuiet_nil : AllQuiet [] := by
  intro x y h
  rw [(List.nil_eq_append_iff.mp h).2]
  exact quiet_nil

theorem allQuiet_cons (hhead : Quiet (c :: u)) (htail : AllQuiet u) : AllQuiet (c :: u) := by
  intro x y h
  cases x with
  | nil =>
      rw [List.nil_append] at h
      exact h ▸ hhead
  | cons b x =>
      obtain ⟨-, hu⟩ := List.cons.inj h
      exact htail x y hu

theorem allQuiet_append {a : Str} (ha : ∀ c ∈ a, isDigit c = false) (hu : AllQuiet u) : AllQuiet (a ++ u) := by
  induction a with
  | nil => exact hu
  | cons c a ih =>
      obtain ⟨hc, ha⟩ := List.forall_mem_cons.mp ha
      exact allQuiet_cons (quiet_cons hc) (ih ha)

/-- A digit is quiet where no letter follows, not even behind a separator. -/
theorem quiet_digit (hrest : inClass isTagLetter u.head? = false)
    (hseparator : ∀ c y, u = c :: y → isSeparator c = true → inClass isTagLetter y.head? = false) :
    Quiet (d :: u) := by
  intro t s hdrop
  have hdrop' : t.drop s.pos = d :: ([] ++ u) := hdrop
  exact run_prerelease_letters hdrop' isLetters_nil hrest fun _ => hseparator

/-- The number of a tag with its letters. -/
theorem allQuiet_number {number letters : Str} (hnumber : ∀ c ∈ number, isAsciiDigit c = true)
    (hletters : IsLetters letters) : AllQuiet (number ++ letters) := by
  induction number with
  | nil =>
      have h := allQuiet_append (fun c hc => not_isDigit_of_letter (hletters.ascii c hc)) allQuiet_nil
      rwa [List.append_nil] at h
  | cons d number ih =>
      obtain ⟨-, hnumber⟩ := List.forall_mem_cons.mp hnumber
      refine allQuiet_cons ?_ (ih hnumber)
      cases number with
      | nil =>
          intro t s hdrop
          have hdrop' : t.drop s.pos = d :: (letters ++ []) := by rw [hdrop, List.append_nil]; rfl
          exact run_prerelease_letters hdrop' hletters rfl fun _ c y h => by cases h
      | cons d' number =>
          have hd' := hnumber d' List.mem_cons_self
          refine quiet_digit (not_isTagLetter_of_isPart (isPart_of_digit hd')) ?_
          rintro c y h hc
          obtain ⟨rfl, -⟩ := List.cons.inj h
          rw [not_isSeparator_of_digit hd'] at hc
          cases hc

/-- The numbers of a version are quiet up to the last digit. -/
theorem quiet_inside {front : Str} (hfront : ∀ c ∈ front, DottedVersion.isPart c = true)
    (hd : isAsciiDigit d = true) : Quiet (c :: (front ++ d :: u)) := by
  have hhead : ∀ front' : Str, (∀ c ∈ front', DottedVersion.isPart c = true) →
      inClass isTagLetter (front' ++ d :: u).head? = false := by
    intro front' hfront'
    cases front' with
    | nil => exact not_isTagLetter_of_isPart (isPart_of_digit hd)
    | cons c front' => exact not_isTagLetter_of_isPart (hfront' c List.mem_cons_self)
  refine quiet_digit (hhead front hfront) ?_
  intro c y h hc
  cases front with
  | nil =>
      obtain ⟨rfl, -⟩ := List.cons.inj h
      rw [not_isSeparator_of_digit hd] at hc
      cases hc
  | cons c' front =>
      obtain ⟨rfl, rfl⟩ := List.cons.inj h
      exact hhead front fun c hc => hfront c (List.mem_cons_of_mem _ hc)

/-- No tag begins before the last digit of the numbers. -/
theorem matchAt_inside {front : Str} {i : Nat} (hfront : ∀ c ∈ front, DottedVersion.isPart c = true)
    (hd : isAsciiDigit d = true) (hi : i < front.length) :
    matchAt versionPrereleaseRe (front ++ d :: u) i = none := by
  have hquiet : Quiet (front[i] :: (front.drop (i + 1) ++ d :: u)) :=
    quiet_inside (fun c hc => hfront c (List.mem_of_mem_drop hc)) hd
  refine matchAt_none_of_run (hquiet _ _ ?_)
  show (front ++ d :: u).drop i = _
  rw [List.drop_append_of_le_length hi.le, List.drop_eq_getElem_cons hi]
  rfl

/-- A text without a tag. -/
theorem search_none {front : Str} (hfront : ∀ c ∈ front, DottedVersion.isPart c = true)
    (hd : isAsciiDigit d = true) (hlast : Quiet (d :: u)) (hu : AllQuiet u) :
    search versionPrereleaseRe (front ++ d :: u) = none := by
  rw [search_eq_none_iff]
  intro i hi
  by_cases hinside : i < front.length
  · have hnone := matchAt_inside (u := u) hfront hd hinside
    exact List.head?_eq_none_iff.mp (Option.map_eq_none_iff.mp hnone)
  · have hdrop : (front ++ d :: u).drop i = (d :: u).drop (i - front.length) := by
      rw [List.drop_append, List.drop_eq_nil_of_le (by omega), List.nil_append]
    exact allQuiet_cons hlast hu _ _ (List.take_append_drop (i - front.length) (d :: u)).symm _ _ hdrop

/-! ## The numbers of a text -/

theorem digitRuns_append_cons {a : Str} (hc : isDigit c = false) :
    digitRuns (a ++ c :: u) = digitRuns a ++ digitRuns u := by
  rw [digitRuns, digitRuns, digitRuns, List.splitOnP_append_cons a u (by rw [hc]; rfl), List.filter_append]

theorem digitRuns_skip {a : Str} (ha : ∀ c ∈ a, isDigit c = false) : digitRuns (a ++ u) = digitRuns u := by
  induction a with
  | nil => rfl
  | cons c a ih =>
      obtain ⟨hc, ha⟩ := List.forall_mem_cons.mp ha
      have h := digitRuns_append_cons (u := a ++ u) (a := []) hc
      rw [List.nil_append] at h
      rw [List.cons_append, h, ih ha]
      rfl

/-- The numbers are taken apart where what follows does not begin with a digit. -/
theorem digitRuns_append {a b : Str} (hb : inClass isDigit b.head? = false) :
    digitRuns (a ++ b) = digitRuns a ++ digitRuns b := by
  cases b with
  | nil =>
      rw [List.append_nil]
      exact (List.append_nil _).symm
  | cons c b =>
      have hc : isDigit c = false := hb
      have hskip := digitRuns_skip (u := b) (List.forall_mem_singleton.mpr hc)
      rw [digitRuns_append_cons hc, ← hskip]
      rfl

theorem digitRuns_number {a : Str} (ha : ∀ c ∈ a, isAsciiDigit c = true) :
    digitRuns a = if a = [] then [] else [a] := by
  rw [digitRuns, List.splitOnP_eq_singleton fun c hc => by rw [isDigit_of_ascii (ha c hc)]; rfl]
  split
  · rename_i h
    rw [h]
    rfl
  · rename_i h
    rw [List.filter_cons_of_pos (by simpa using h)]
    rfl

theorem digitRuns_text (n : DottedVersion) : digitRuns n.text = n.parts := by
  rw [digitRuns, DottedVersion.text, DottedVersion.splitOnP_join n.nonempty n.digits, List.filter_eq_self]
  intro part hpart
  simpa using (n.digits part hpart).1

/-! ## The key -/

/-- What stands before the number of a tag has no digit. -/
theorem not_isDigit_before : ∀ c ∈ tag.separator.toList ++ (tag.word ++ if tag.dot then ['.'] else []),
    isDigit c = false := by
  intro c hc
  rcases List.mem_append.mp hc with hc | hc
  · exact not_isDigit_of_separator (tag.isSeparator c (Option.mem_toList.mp hc))
  · rcases List.mem_append.mp hc with hc | hc
    · exact not_isDigit_of_letter (isAsciiLetter_of_lowerAscii tag.isWord c hc)
    · split at hc
      · rw [List.mem_singleton.mp hc]
        exact isDigit_of_lt (by decide)
      · cases hc

omit [UnicodeTables] in
theorem text_eq : tag.text = (tag.separator.toList ++ (tag.word ++ if tag.dot then ['.'] else [])) ++
    (tag.number ++ tag.letters) := by
  rw [PrereleaseTag.text, PrereleaseTag.rest, List.append_assoc, List.append_assoc]

/-- The text of a tag has the number of the tag. -/
theorem digitRuns_tag : digitRuns tag.text = if tag.number = [] then [] else [tag.number] := by
  have hletters : ∀ c ∈ tag.letters, isDigit c = false := fun c hc =>
    not_isDigit_of_letter (tag.isLetters.ascii c hc)
  have hnone : digitRuns tag.letters = [] := by
    have h := digitRuns_skip (u := []) hletters
    rw [List.append_nil] at h
    exact h
  have hhead : inClass isDigit tag.letters.head? = false := by
    cases hlist : tag.letters with
    | nil => rfl
    | cons l letters => exact hletters l (hlist ▸ List.mem_cons_self)
  rw [text_eq, digitRuns_skip not_isDigit_before, digitRuns_append hhead, digitRuns_number tag.isNumber,
    hnone, List.append_nil]

theorem releaseAndSuffix_tag (n : DottedVersion) :
    releaseAndSuffix (n.text ++ tag.text) = (n.text, [0, tag.rank, intOfDigits tag.number]) := by
  obtain ⟨front, d, htext, hd⟩ := exists_last n
  have hfront : ∀ c ∈ front, DottedVersion.isPart c = true := fun c hc =>
    n.isPart_of_mem (htext ▸ List.mem_append_left _ hc)
  have hall : n.text ++ tag.text = front ++ d :: tag.text := by
    rw [htext, List.append_assoc]
    rfl
  have hdrop : (front ++ d :: tag.text).drop front.length = d :: tag.text := List.drop_left
  obtain ⟨p, hhead⟩ := head?_tag (s := ⟨front.length, []⟩) hdrop (isDigit_of_ascii hd)
  have hsearch := search_eq_some (by rw [List.length_append]; omega)
    (fun j hj => matchAt_inside (u := tag.text) hfront hd hj) (matchAt_of_head? hhead)
  rw [releaseAndSuffix, hall, hsearch]
  have htake : (front ++ d :: tag.text).take (front.length + 1) = n.text := by
    rw [htext, List.take_length_add_append]
    rfl
  show ((front ++ d :: tag.text).take (front.length + 1), _) = _
  rw [htake]
  rfl

theorem releaseAndSuffix_quiet (n : DottedVersion) {tail : Str}
    (hlast : ∀ d, isAsciiDigit d = true → Quiet (d :: tail)) (htail : AllQuiet tail) :
    releaseAndSuffix (n.text ++ tail) = (n.text ++ tail, [1]) := by
  obtain ⟨front, d, htext, hd⟩ := exists_last n
  have hfront : ∀ c ∈ front, DottedVersion.isPart c = true := fun c hc =>
    n.isPart_of_mem (htext ▸ List.mem_append_left _ hc)
  have hall : n.text ++ tail = front ++ d :: tail := by
    rw [htext, List.append_assoc]
    rfl
  rw [releaseAndSuffix, hall, search_none hfront hd (hlast d hd) htail]

theorem not_isDigit_of_letters {letters : Str} (h : IsLetters letters) : ∀ c ∈ letters, isDigit c = false :=
  fun c hc => not_isDigit_of_letter (h.ascii c hc)

/-- The key of a version, from the text behind its mark. -/
theorem releaseAndSuffix_bare (v : TaggedVersion) :
    ∃ releaseText, releaseAndSuffix v.bare = (releaseText, v.suffix) ∧
      (digitRuns releaseText).map intOfDigits = v.counted := by
  obtain ⟨mark, n, letters, tag, -, hletters, hseparated⟩ := v
  have hnums : (digitRuns n.text).map intOfDigits = n.nums := by rw [digitRuns_text]; rfl
  have hdigits := not_isDigit_of_letters hletters
  cases letters with
  | nil =>
      cases tag with
      | some t => exact ⟨n.text, releaseAndSuffix_tag n, hnums⟩
      | none =>
          have h := releaseAndSuffix_quiet n (fun d _ => quiet_digit rfl fun c y h => by cases h) allQuiet_nil
          exact ⟨n.text ++ [], h, by rw [List.append_nil]; exact hnums⟩
  | cons l letters =>
      have hhead : ∀ u, inClass isDigit (l :: letters ++ u).head? = false := fun u =>
        hdigits l List.mem_cons_self
      cases tag with
      | none =>
          have hlast : ∀ d, isAsciiDigit d = true → Quiet (d :: (l :: letters ++ [])) :=
            fun d _ t s hdrop => run_prerelease_letters hdrop hletters rfl fun h => by cases h
          have hquiet := allQuiet_append hdigits allQuiet_nil
          refine ⟨n.text ++ (l :: letters ++ []), releaseAndSuffix_quiet n hlast hquiet, ?_⟩
          rw [digitRuns_append (hhead []), digitRuns_skip hdigits, List.map_append, hnums]
          exact List.append_nil _
      | some t =>
          have htag : inClass isTagLetter t.text.head? = false := by
            obtain ⟨c, hc⟩ := Option.ne_none_iff_exists'.mp (hseparated (List.cons_ne_nil _ _) t rfl)
            rw [PrereleaseTag.text, hc]
            exact not_isTagLetter_of_separator (t.isSeparator c hc)
          have hlast : ∀ d, isAsciiDigit d = true → Quiet (d :: (l :: letters ++ t.text)) :=
            fun d _ _ s hdrop => run_prerelease_letters hdrop hletters htag fun h => by cases h
          have hquiet : AllQuiet (l :: letters ++ t.text) := by
            refine allQuiet_append hdigits ?_
            rw [text_eq]
            exact allQuiet_append not_isDigit_before (allQuiet_number t.isNumber t.isLetters)
          refine ⟨n.text ++ (l :: letters ++ t.text), releaseAndSuffix_quiet n hlast hquiet, ?_⟩
          rw [digitRuns_append (hhead t.text), digitRuns_skip hdigits, digitRuns_tag, List.map_append, hnums]
          show _ = n.nums ++ _
          split <;> rfl

omit [UnicodeTables] in
theorem not_isSpace_of_letter (hc : isAsciiLetter c = true) : isSpace c = false := by
  simp only [isAsciiLetter, isAsciiLower, isAsciiUpper, Bool.or_eq_true, Bool.and_eq_true,
    decide_eq_true_eq] at hc
  simp only [isSpace, Bool.or_eq_false_iff, Bool.and_eq_false_iff, decide_eq_false_iff_not,
    beq_eq_false_iff_ne]
  omega

omit [UnicodeTables] in
theorem not_isSpace_of_mem (v : TaggedVersion) : ∀ c ∈ v.text, isSpace c = false := by
  have hdigit : ∀ c, isAsciiDigit c = true → isSpace c = false := fun c hc =>
    DottedVersion.not_isSpace (isPart_of_digit hc)
  intro c hc
  rcases List.mem_append.mp hc with hc | hc
  · rcases v.isMark c hc with rfl | rfl
    · decide
    · decide
  · rcases List.mem_append.mp hc with hc | hc
    · exact DottedVersion.not_isSpace (v.numbers.isPart_of_mem hc)
    · rcases List.mem_append.mp hc with hc | hc
      · exact not_isSpace_of_letter (v.isLetters.ascii c hc)
      · cases htag : v.tag with
        | none =>
            rw [htag] at hc
            cases hc
        | some t =>
            rw [htag] at hc
            have hc : c ∈ t.text := hc
            rw [text_eq] at hc
            rcases List.mem_append.mp hc with hc | hc
            · rcases List.mem_append.mp hc with hc | hc
              · have hseparator := t.isSeparator c (Option.mem_toList.mp hc)
                simp only [isSeparator, Bool.or_eq_true, decide_eq_true_eq] at hseparator
                rcases hseparator with ((rfl | rfl) | rfl) | rfl
                all_goals decide
              · rcases List.mem_append.mp hc with hc | hc
                · exact not_isSpace_of_letter (isAsciiLetter_of_lowerAscii t.isWord c hc)
                · split at hc
                  · rw [List.mem_singleton.mp hc]
                    decide
                  · cases hc
            · rcases List.mem_append.mp hc with hc | hc
              · exact hdigit c (t.isNumber c hc)
              · exact not_isSpace_of_letter (t.isLetters.ascii c hc)

omit [UnicodeTables] in
/-- A version starts with a digit, behind its mark. -/
theorem bare_head (v : TaggedVersion) : ∃ d u, v.bare = d :: u ∧ isAsciiDigit d = true := by
  obtain ⟨d, u, htext, hd⟩ := v.numbers.text_head
  exact ⟨d, _, by rw [TaggedVersion.bare, htext]; rfl, hd⟩

/-- The key of a version. -/
theorem parseVersionKey_text (v : TaggedVersion) : parseVersionKey v.text = some (v.counted, v.suffix) := by
  obtain ⟨d, u, hbare, hd⟩ := bare_head v
  have hstrip : lstripBy (fun c => c = 'v' || c = 'V') (strip v.text) = v.bare := by
    have hsolid : strip v.text = v.text := by
      have hspace := not_isSpace_of_mem v
      have hne : v.text ≠ [] := by
        rw [TaggedVersion.text, hbare]
        exact List.append_ne_nil_of_right_ne_nil _ (List.cons_ne_nil _ _)
      refine strip_solid ⟨⟨v.text.head hne, List.head?_eq_some_head hne, hspace _ (List.head_mem hne)⟩,
        ⟨v.text.getLast hne, List.getLast?_eq_some_getLast hne, hspace _ (List.getLast_mem hne)⟩⟩
    have hmark : ∀ c ∈ v.mark, (c = 'v' || c = 'V') = true := by
      intro c hc
      rw [Bool.or_eq_true, decide_eq_true_iff, decide_eq_true_iff]
      exact v.isMark c hc
    have hdigit : ¬ (d = 'v' || d = 'V') = true := by
      rw [Bool.or_eq_true, decide_eq_true_iff, decide_eq_true_iff]
      rintro (rfl | rfl)
      all_goals exact absurd hd (by decide)
    rw [hsolid, lstripBy, TaggedVersion.text, List.dropWhile_append_of_pos hmark, hbare]
    exact List.dropWhile_cons_of_neg hdigit
  have hany : v.bare.any isDigit = true := by
    rw [hbare, List.any_cons, isDigit_of_ascii hd, Bool.true_or]
  obtain ⟨releaseText, hrelease, hcounted⟩ := releaseAndSuffix_bare v
  have hne : v.counted ≠ [] := by
    have hnums : v.numbers.nums ≠ [] := fun h => v.numbers.nonempty (List.map_eq_nil_iff.mp h)
    unfold TaggedVersion.counted
    split
    · exact List.append_ne_nil_of_left_ne_nil hnums _
    · exact hnums
  rw [parseVersionKey]
  -- the numbers are not empty, by `hne`
  simp only [hstrip, hany, hrelease, hcounted, Bool.not_true, Bool.false_eq_true, if_false]

/-- **`versionCmp_text`** — versions compare by the numbers that count, and then by their suffix. -/
theorem versionCmp_text (v w : TaggedVersion) :
    versionCmp v.text w.text = some (compareKeys (v.counted, v.suffix) (w.counted, w.suffix)) := by
  rw [versionCmp, parseVersionKey_text, parseVersionKey_text]
  rfl

/-! ## The order -/

/-- The lexicographic order of keys. -/
abbrev orderKey (key : VersionKey) : List Nat ×ₗ List Nat := toLex key

section

omit [UnicodeTables]

variable {a b : VersionKey}

theorem orderKey_lt_iff : orderKey a < orderKey b ↔ a.1 < b.1 ∨ a.1 = b.1 ∧ a.2 < b.2 := Prod.Lex.toLex_lt_toLex

/-- Keys compare in a linear order. -/
theorem compareKeys_cases (a b : VersionKey) :
    (compareKeys a b = .lt ∧ orderKey a < orderKey b) ∨ (compareKeys a b = .eq ∧ a = b) ∨
      (compareKeys a b = .gt ∧ orderKey b < orderKey a) := by
  by_cases hlt : a.1 < b.1 ∨ a.1 = b.1 ∧ a.2 < b.2
  · exact Or.inl ⟨if_pos hlt, orderKey_lt_iff.mpr hlt⟩
  · by_cases heq : a = b
    · exact Or.inr (Or.inl ⟨by rw [compareKeys, if_neg hlt, if_pos heq], heq⟩)
    · refine Or.inr (Or.inr ⟨by rw [compareKeys, if_neg hlt, if_neg heq], ?_⟩)
      exact lt_of_le_of_ne (not_lt.mp fun h => hlt (orderKey_lt_iff.mp h)) fun h => heq h.symm

theorem compareKeys_swap (a b : VersionKey) : compareKeys b a = (compareKeys a b).swap := by
  rcases compareKeys_cases a b with ⟨hab, hlt⟩ | ⟨hab, rfl⟩ | ⟨hab, hgt⟩
  · rw [hab]
    rcases compareKeys_cases b a with ⟨-, h⟩ | ⟨-, rfl⟩ | ⟨hba, -⟩
    · exact absurd h hlt.asymm
    · exact absurd hlt (lt_irrefl _)
    · exact hba
  · rw [hab]
    rfl
  · rw [hab]
    rcases compareKeys_cases b a with ⟨hba, -⟩ | ⟨-, rfl⟩ | ⟨-, h⟩
    · exact hba
    · exact absurd hgt (lt_irrefl _)
    · exact absurd h hgt.asymm

theorem compareKeys_ne_gt_iff : compareKeys a b ≠ .gt ↔ orderKey a ≤ orderKey b := by
  rcases compareKeys_cases a b with ⟨hab, hlt⟩ | ⟨hab, rfl⟩ | ⟨hab, hgt⟩
  · exact iff_of_true (by rw [hab]; decide) hlt.le
  · exact iff_of_true (by rw [hab]; decide) le_rfl
  · exact iff_of_false (not_not_intro hab) hgt.not_ge

/-- A list comes before one that it begins. -/
theorem lt_of_isPrefix {xs ys : List Nat} (h : xs <+: ys) (hne : xs ≠ ys) : xs < ys := by
  obtain ⟨zs, rfl⟩ := h
  induction xs with
  | nil =>
      obtain ⟨z, zs, rfl⟩ := List.exists_cons_of_ne_nil fun hnil : zs = [] => hne (by rw [hnil]; rfl)
      exact List.nil_lt_cons z zs
  | cons x xs ih =>
      rw [List.cons_append, List.cons_lt_cons_iff]
      exact Or.inr ⟨rfl, ih fun heq => hne (congrArg (List.cons x) heq)⟩

end

/-- The order of two lists of numbers, one by one; a list comes before one that it begins. -/
def compareNumbers (xs ys : List Nat) : Ordering := if xs < ys then .lt else if xs = ys then .eq else .gt

/-- What the comparison of versions is. -/
structure IsReleaseOrder : Prop where
  total : ∀ v w : TaggedVersion, ∃ o, versionCmp v.text w.text = some o ∧ versionCmp w.text v.text = some o.swap
  transitive : ∀ u v w : TaggedVersion, versionCmp u.text v.text ≠ some .gt →
    versionCmp v.text w.text ≠ some .gt → versionCmp u.text w.text ≠ some .gt
  /-- Final versions compare by their numbers; letters make no difference. -/
  finals : ∀ v w : TaggedVersion, v.tag = none → w.tag = none →
    versionCmp v.text w.text = some (compareNumbers v.numbers.nums w.numbers.nums)
  /-- A trailing component that is missing is less than zero. -/
  fewer : ∀ v w : TaggedVersion, v.tag = none → w.tag = none → v.numbers.nums <+: w.numbers.nums →
    v.numbers.nums ≠ w.numbers.nums → versionCmp v.text w.text = some .lt
  prerelease : ∀ v : TaggedVersion, v.tag ≠ none → v.letters = [] → versionCmp v.text v.final.text = some .lt
  /-- Pre-releases of one version compare by the word of their tag, and then by its number. -/
  tags : ∀ (v w : TaggedVersion) (s t : PrereleaseTag), v.tag = some s → w.tag = some t → v.letters = [] →
    w.letters = [] → v.numbers.nums = w.numbers.nums →
    versionCmp v.text w.text =
      some (compareNumbers [s.rank, intOfDigits s.number] [t.rank, intOfDigits t.number])

theorem counted_final (h : v.tag = none) : v.counted = v.numbers.nums ∧ v.suffix = [1] := by
  unfold TaggedVersion.counted TaggedVersion.suffix
  rw [h]
  cases v.letters with
  | nil => exact ⟨rfl, rfl⟩
  | cons l letters => exact ⟨rfl, rfl⟩

theorem counted_tag {t : PrereleaseTag} (h : v.tag = some t) (hletters : v.letters = []) :
    v.counted = v.numbers.nums ∧ v.suffix = [0, t.rank, intOfDigits t.number] := by
  unfold TaggedVersion.counted TaggedVersion.suffix
  rw [h, hletters]
  exact ⟨rfl, rfl⟩

omit [UnicodeTables] in
/-- With one suffix, the numbers decide. -/
theorem compareKeys_numbers {xs ys suffix : List Nat} :
    compareKeys (xs, suffix) (ys, suffix) = compareNumbers xs ys := by
  have hsuffix : (xs < ys ∨ xs = ys ∧ suffix < suffix) ↔ xs < ys :=
    or_iff_left fun h => absurd h.2 (lt_irrefl _)
  rw [compareKeys, compareNumbers]
  simp only [hsuffix, Prod.mk.injEq, and_true]

omit [UnicodeTables] in
/-- With the same numbers, the suffixes decide. -/
theorem compareKeys_suffix {xs s t : List Nat} : compareKeys (xs, s) (xs, t) = compareNumbers s t := by
  rw [compareKeys, compareNumbers]
  simp only [lt_irrefl, false_or, Prod.mk.injEq, true_and]

/-- **`version_order`** — the comparison is a total order of dotted versions, as far as their texts tell them
apart by their numbers and tags. -/
theorem version_order : IsReleaseOrder where
  total v w := by
    refine ⟨_, versionCmp_text v w, ?_⟩
    rw [versionCmp_text, compareKeys_swap]
  transitive u v w huv hvw := by
    rw [versionCmp_text, ne_eq, Option.some.injEq, ← ne_eq, compareKeys_ne_gt_iff] at huv hvw ⊢
    exact huv.trans hvw
  finals v w hv hw := by
    obtain ⟨hvn, hvs⟩ := counted_final hv
    obtain ⟨hwn, hws⟩ := counted_final hw
    rw [versionCmp_text, hvn, hvs, hwn, hws, compareKeys_numbers]
  fewer v w hv hw hprefix hne := by
    obtain ⟨hvn, hvs⟩ := counted_final hv
    obtain ⟨hwn, hws⟩ := counted_final hw
    rw [versionCmp_text, hvn, hvs, hwn, hws, compareKeys_numbers, compareNumbers,
      if_pos (lt_of_isPrefix hprefix hne)]
  prerelease v hv hletters := by
    obtain ⟨t, ht⟩ := Option.ne_none_iff_exists'.mp hv
    obtain ⟨hvn, hvs⟩ := counted_tag ht hletters
    obtain ⟨hfn, hfs⟩ := @counted_final _ v.final rfl
    have hnums : v.final.numbers.nums = v.numbers.nums := rfl
    rw [versionCmp_text, hvn, hvs, hfn, hfs, hnums, compareKeys_suffix, compareNumbers, if_pos]
    exact List.cons_lt_cons_iff.mpr (Or.inl Nat.zero_lt_one)
  tags v w s t hv hw hvl hwl hnums := by
    obtain ⟨hvn, hvs⟩ := counted_tag hv hvl
    obtain ⟨hwn, hws⟩ := counted_tag hw hwl
    have hlt : ([0, s.rank, intOfDigits s.number] : List Nat) < [0, t.rank, intOfDigits t.number] ↔
        ([s.rank, intOfDigits s.number] : List Nat) < [t.rank, intOfDigits t.number] := by
      rw [List.cons_lt_cons_iff]
      exact (or_iff_right (lt_irrefl 0)).trans (and_iff_right rfl)
    rw [versionCmp_text, hvn, hvs, hwn, hws, hnums, compareKeys_suffix]
    simp only [compareNumbers, hlt, List.cons.injEq, true_and]

end

/-- **`versions_not_padded`** — a missing component is not zero, and a letter is no patch. -/
theorem versions_not_padded :
    letI := asciiTables
    versionCmp "1.0" "1.0.0" = some .lt ∧ versionCmp "1.1.1" "1.1.1a" = some .eq := by
  let _ := asciiTables
  exact ⟨by decide +kernel, by decide +kernel⟩

end HummingbirdRpms.CveVersionOrder
