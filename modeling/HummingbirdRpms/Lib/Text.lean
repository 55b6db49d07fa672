/-
# HummingbirdRpms.Lib.Text — the string operations of a scripting language, over character lists.

A `Str` is the list of its code points.  The functions below are the `str` methods a script leans on
(`in`, `startswith`, `strip`, `splitlines`, `join`, `partition`, …), each structurally recursive so
that it evaluates, with the lemmas that turn the Boolean tests into Mathlib's prefix / suffix / infix
relations.

White space is the exact set `str.isspace` accepts.  What counts as a letter or a digit beyond ASCII
is a table of the Unicode standard: `UnicodeTables` carries it, and everything that depends on it is
stated for every table.
-/
import Mathlib.Data.Char
import Mathlib.Data.List.Chain
import Mathlib.Data.List.DropRight
import Mathlib.Data.List.Infix
import Mathlib.Data.List.Lex

namespace HummingbirdRpms.Lib

/-- A string, as its list of code points. -/
abbrev Str := List Char

instance : Coe String Str := ⟨String.toList⟩

namespace Text

/-! ## Deciding a statement about a text

A statement about the characters of a text is decided by going through the text, also where a library
decides statements about all characters. -/

instance (priority := high) decidableMem (s : Str) (l : List Str) : Decidable (s ∈ l) :=
  inferInstance

instance (priority := high) decidableForallMem {p : Char → Prop} [DecidablePred p] (s : Str) :
    Decidable (∀ c ∈ s, p c) := List.decidableBAll p s

instance (priority := high) decidableExistsMem {p : Char → Prop} [DecidablePred p] (s : Str) :
    Decidable (∃ c ∈ s, p c) := List.decidableBEx p s

instance (priority := high) decidableExistsMemOption {p : Char → Prop} [DecidablePred p]
    (o : Option Char) : Decidable (∃ c ∈ o, p c) := o.decidableExistsMem

/-! ## Character classes -/

/-- The non-ASCII part of the classes `\w` and `\d`, of `str.isdigit` and of `int`. -/
class UnicodeTables where
  word : Char → Bool
  digit : Char → Bool
  digitLike : Char → Bool
  /-- The value of a digit. -/
  digitValue : Char → Nat

/-- The tables that know no letter and no digit beyond ASCII. -/
@[reducible] def asciiTables : UnicodeTables :=
  ⟨fun _ => false, fun _ => false, fun _ => false, fun _ => 0⟩

def isAsciiLower (c : Char) : Bool := 97 ≤ c.toNat && c.toNat ≤ 122

def isAsciiUpper (c : Char) : Bool := 65 ≤ c.toNat && c.toNat ≤ 90

def isAsciiLetter (c : Char) : Bool := isAsciiLower c || isAsciiUpper c

def isAsciiDigit (c : Char) : Bool := 48 ≤ c.toNat && c.toNat ≤ 57

/-- `[0-9a-fA-F]`. -/
def isHex (c : Char) : Bool :=
  isAsciiDigit c || (97 ≤ c.toNat && c.toNat ≤ 102) || (65 ≤ c.toNat && c.toNat ≤ 70)

/-- The lower case of an ASCII letter, any other character itself. -/
def lowerChar (c : Char) : Char := if isAsciiUpper c then Char.ofNat (c.toNat + 32) else c

theorem toNat_ofNat {n : Nat} (h : n.isValidChar) : (Char.ofNat n).toNat = n := by
  rw [Char.ofNat, dif_pos h]
  rfl

/-- Lower case maps no character into a class without letters that it was not in. -/
theorem lowerChar_cases (c : Char) : lowerChar c = c ∨ isAsciiLower (lowerChar c) = true := by
  unfold lowerChar
  split
  · rename_i h
    right
    simp only [isAsciiUpper, Bool.and_eq_true, decide_eq_true_eq] at h
    have hval : (Char.ofNat (c.toNat + 32)).toNat = c.toNat + 32 := toNat_ofNat (Or.inl (by omega))
    simp only [isAsciiLower, hval, Bool.and_eq_true, decide_eq_true_eq]
    omega
  · exact Or.inl rfl

/-- `str.isspace` on one code point, which is also the class `\s`. -/
def isSpace (c : Char) : Bool :=
  let n := c.toNat
  (9 ≤ n && n ≤ 13) || (28 ≤ n && n ≤ 32) || n == 0x85 || n == 0xa0 || n == 0x1680 ||
    (0x2000 ≤ n && n ≤ 0x200a) || n == 0x2028 || n == 0x2029 || n == 0x202f || n == 0x205f ||
    n == 0x3000

/-- The line boundaries of `str.splitlines`. -/
def isLineBreak (c : Char) : Bool :=
  let n := c.toNat
  (10 ≤ n && n ≤ 13) || (28 ≤ n && n ≤ 30) || n == 0x85 || n == 0x2028 || n == 0x2029

section Classes

variable [U : UnicodeTables]

/-- The class `\d`. -/
def isDigit (c : Char) : Bool :=
  isAsciiDigit c || (128 ≤ c.toNat && !isSpace c && U.digit c)

/-- `str.isdigit` on one code point. -/
def isDigitLike (c : Char) : Bool :=
  isAsciiDigit c || (128 ≤ c.toNat && U.digitLike c)

/-- The class `\w`. -/
def isWord (c : Char) : Bool :=
  isAsciiLetter c || isAsciiDigit c || c.toNat == 95 ||
    (128 ≤ c.toNat && !isSpace c && U.word c)

/-- `int(s)` of a string of `\d`. -/
def intOfDigits (s : Str) : Nat :=
  s.foldl (fun n c => 10 * n + if isAsciiDigit c then c.toNat - 48 else U.digitValue c) 0

theorem isDigit_of_ascii {c : Char} (h : isAsciiDigit c = true) : isDigit c = true := by
  rw [isDigit, h, Bool.true_or]

theorem isDigit_of_lt {c : Char} (h : c.toNat < 128) : isDigit c = isAsciiDigit c := by
  simp [isDigit, Nat.not_le.mpr h]

/-- No white space is a digit, whatever the tables say beyond ASCII. -/
theorem isDigit_of_isSpace {c : Char} (h : isSpace c = true) : isDigit c = false := by
  have hn : isAsciiDigit c = false := by
    simp only [isSpace, isAsciiDigit, Bool.or_eq_true, Bool.and_eq_true, decide_eq_true_eq, beq_iff_eq,
      Bool.and_eq_false_iff, decide_eq_false_iff_not] at h ⊢
    omega
  simp [isDigit, hn, h]

theorem isWord_of_isAsciiLower {c : Char} (h : isAsciiLower c = true) : isWord c = true := by
  simp [isWord, isAsciiLetter, h]

/-- No white space is a word character, whatever the tables say beyond ASCII. -/
theorem isWord_of_isSpace {c : Char} (h : isSpace c = true) : isWord c = false := by
  have hn : isAsciiLetter c = false ∧ isAsciiDigit c = false ∧ c.toNat ≠ 95 := by
    simp only [isSpace, isAsciiLetter, isAsciiLower, isAsciiUpper, isAsciiDigit, Bool.or_eq_true,
      Bool.and_eq_true, decide_eq_true_eq, beq_iff_eq, Bool.or_eq_false_iff, Bool.and_eq_false_iff,
      decide_eq_false_iff_not] at h ⊢
    omega
  simp [isWord, hn, h]

end Classes

/-! ## Tests -/

/-- `pat in s`. -/
def contains (pat s : Str) : Bool := decide (pat <:+: s)

/-- `s.startswith(pat)`. -/
def startsWith (pat s : Str) : Bool := decide (pat <+: s)

/-- `s.endswith(pat)`. -/
def endsWith (pat s : Str) : Bool := decide (pat <:+ s)

@[simp] theorem contains_iff {pat s : Str} : contains pat s = true ↔ pat <:+: s := by
  simp [contains]

@[simp] theorem startsWith_iff {pat s : Str} : startsWith pat s = true ↔ pat <+: s := by
  simp [startsWith]

@[simp] theorem endsWith_iff {pat s : Str} : endsWith pat s = true ↔ pat <:+ s := by
  simp [endsWith]

/-! ## Trimming and splitting -/

/-- `s.lstrip(chars)` for a class of characters. -/
def lstripBy (p : Char → Bool) (s : Str) : Str := s.dropWhile p

/-- `s.rstrip(chars)` for a class of characters. -/
def rstripBy (p : Char → Bool) (s : Str) : Str := s.rdropWhile p

/-- Stripping the end of a text stops at the last character that is not stripped. -/
theorem rstripBy_append {p : Char → Bool} {a : Str} {c : Char} (hc : p c = false) (b : Str) :
    ∃ b', rstripBy p (a ++ c :: b) = a ++ c :: b' := by
  unfold rstripBy List.rdropWhile
  rw [List.reverse_append, List.reverse_cons, List.append_assoc, List.dropWhile_append]
  split
  · refine ⟨[], ?_⟩
    rw [List.singleton_append, List.dropWhile_cons_of_neg (by simp [hc]), List.reverse_cons,
      List.reverse_reverse]
  · exact ⟨(b.reverse.dropWhile p).reverse, by simp⟩

/-- What is left ends with a character that is not stripped. -/
theorem rstripBy_getLast? {p : Char → Bool} {s : Str} : ∀ c ∈ (rstripBy p s).getLast?, p c = false := by
  intro c hc
  have hne : rstripBy p s ≠ [] := by
    intro h
    rw [h] at hc
    cases hc
  have hnot := List.rdropWhile_last_not p s hne
  rw [List.getLast?_eq_getLast_of_ne_nil hne] at hc
  cases hc
  exact Bool.eq_false_iff.mpr hnot

/-- `s.strip()`. -/
def strip (s : Str) : Str := rstripBy isSpace (lstripBy isSpace s)

theorem strip_sublist (s : Str) : (strip s).Sublist s := by
  rw [strip, rstripBy, lstripBy]
  exact (List.rdropWhile_prefix _ _).sublist.trans (List.dropWhile_sublist _)

/-- A text with something other than white space at both ends. -/
structure Solid (s : Str) : Prop where
  head : ∃ c ∈ s.head?, isSpace c = false
  last : ∃ c ∈ s.getLast?, isSpace c = false

theorem Solid.ne_nil {s : Str} (h : Solid s) : s ≠ [] := by
  rintro rfl
  obtain ⟨c, hc, -⟩ := h.head
  exact absurd hc (by simp)

theorem Solid.append {a b m : Str} (ha : ∃ c ∈ a.head?, isSpace c = false)
    (hb : ∃ c ∈ b.getLast?, isSpace c = false) : Solid (a ++ m ++ b) where
  head := by
    obtain ⟨c, hc, hspace⟩ := ha
    exact ⟨c, by simp [Option.mem_def.mp hc], hspace⟩
  last := by
    obtain ⟨c, hc, hspace⟩ := hb
    exact ⟨c, by simp [Option.mem_def.mp hc], hspace⟩

/-- Stripping takes the padding off and nothing else. -/
theorem strip_padded {a s b : Str} (ha : ∀ c ∈ a, isSpace c = true) (hs : Solid s)
    (hb : ∀ c ∈ b, isSpace c = true) : strip (a ++ s ++ b) = s := by
  obtain ⟨c, hc, hcs⟩ := hs.head
  obtain ⟨d, hd, hds⟩ := hs.last
  have hleft : lstripBy isSpace (a ++ s ++ b) = s ++ b := by
    obtain ⟨w, rfl⟩ := List.head?_eq_some_iff.mp hc
    rw [lstripBy, List.append_assoc, List.dropWhile_append_of_pos ha, List.cons_append,
      List.dropWhile_cons_of_neg (by simp [hcs])]
  rw [strip, hleft]
  obtain ⟨w, rfl⟩ := List.getLast?_eq_some_iff.mp hd
  rw [rstripBy, List.rdropWhile, List.reverse_append,
    List.dropWhile_append_of_pos (fun c hc => hb c (List.mem_reverse.mp hc)), List.reverse_append,
    List.reverse_singleton, List.singleton_append, List.dropWhile_cons_of_neg (by simp [hds]),
    List.reverse_cons, List.reverse_reverse]

theorem strip_solid {s : Str} (hs : Solid s) : strip s = s := by
  have h := strip_padded (a := []) (b := []) (by simp) hs (by simp)
  rwa [List.nil_append, List.append_nil] at h

/-- What is left of a text has something other than white space at both ends. -/
theorem solid_strip {s : Str} (h : strip s ≠ []) : Solid (strip s) where
  head := by
    obtain ⟨c, w, hw⟩ := List.exists_cons_of_ne_nil h
    obtain ⟨v, hv⟩ : strip s <+: lstripBy isSpace s := List.rdropWhile_prefix _ _
    have hnot := List.head?_dropWhile_not isSpace s
    rw [show s.dropWhile isSpace = lstripBy isSpace s from rfl, ← hv, hw] at hnot
    exact ⟨c, by rw [hw]; rfl, by simpa using hnot⟩
  last := by
    have hlast := List.getLast?_eq_some_getLast h
    exact ⟨_, hlast, rstripBy_getLast? _ hlast⟩

theorem strip_strip (s : Str) : strip (strip s) = strip s := by
  by_cases h : strip s = []
  · rw [h]
    rfl
  · exact strip_solid (solid_strip h)

/-- `s.lower()` on ASCII text. -/
def lowerAscii (s : Str) : Str := s.map lowerChar

/-- `s.splitlines()`: a line ends at a line break, `\r\n` counting as one, and a break at the very
end starts no further line.  `acc` is the current line, reversed. -/
def splitlinesAux : Str → Str → List Str
  | [], [] => []
  | [], acc => [acc.reverse]
  | '\r' :: '\n' :: cs, acc => acc.reverse :: splitlinesAux cs []
  | c :: cs, acc =>
      if isLineBreak c then acc.reverse :: splitlinesAux cs [] else splitlinesAux cs (c :: acc)

def splitlines (s : Str) : List Str := splitlinesAux s []

/-- The lines of a text as a line-oriented tool sees them: cut at every `\n`. -/
def newlineSplit : Str → List Str
  | [] => [[]]
  | '\n' :: cs => [] :: newlineSplit cs
  | c :: cs =>
      match newlineSplit cs with
      | [] => [[c]]
      | l :: ls => (c :: l) :: ls

/-- `sep.join(parts)`. -/
def join (sep : Str) : List Str → Str
  | [] => []
  | [s] => s
  | s :: t :: ss => s ++ sep ++ join sep (t :: ss)

/-- Reading a file in text mode turns `\r\n` and `\r` into `\n`. -/
def universalNewlines : Str → Str
  | [] => []
  | '\r' :: '\n' :: cs => '\n' :: universalNewlines cs
  | '\r' :: cs => '\n' :: universalNewlines cs
  | c :: cs => c :: universalNewlines cs

attribute [local simp] universalNewlines

theorem universalNewlines_cons {c : Char} (hc : c ≠ '\r') (cs : Str) :
    universalNewlines (c :: cs) = c :: universalNewlines cs := by
  rw [universalNewlines]
  · intro cs'
    rintro rfl
    exact absurd rfl hc
  · rintro rfl
    exact hc rfl

/-- A text that has been read once reads the same again. -/
theorem universalNewlines_idem (s : Str) :
    universalNewlines (universalNewlines s) = universalNewlines s := by
  induction s using universalNewlines.induct with
  | case1 => rfl
  | case2 cs ih =>
      rw [universalNewlines, universalNewlines_cons (by decide), ih]
  | case3 cs hcs ih =>
      rw [universalNewlines, universalNewlines_cons (by decide), ih]
      exact hcs
  | case4 c cs h₁ h₂ ih =>
      rw [universalNewlines_cons h₂, universalNewlines_cons h₂, ih]

theorem not_mem_universalNewlines (s : Str) : '\r' ∉ universalNewlines s := by
  induction s using universalNewlines.induct with
  | case1 => exact List.not_mem_nil
  | case2 cs ih =>
      rw [universalNewlines, List.mem_cons]
      rintro (heq | hmem)
      · exact absurd heq (by decide)
      · exact ih hmem
  | case3 cs hcs ih =>
      rw [universalNewlines, List.mem_cons]
      · rintro (heq | hmem)
        · exact absurd heq (by decide)
        · exact ih hmem
      · exact hcs
  | case4 c cs h₁ h₂ ih =>
      rw [universalNewlines_cons h₂, List.mem_cons]
      rintro (heq | hmem)
      · exact h₂ heq.symm
      · exact ih hmem

theorem universalNewlines_eq_self {s : Str} (h : '\r' ∉ s) : universalNewlines s = s := by
  induction s with
  | nil => rfl
  | cons c cs ih =>
      rw [List.mem_cons, not_or] at h
      rw [universalNewlines_cons (Ne.symm h.1), ih h.2]

/-- A text in which no `\r` stands before a `\n`. -/
def NoCrlf (s : Str) : Prop := s.IsChain fun c d => ¬ (c = '\r' ∧ d = '\n')

theorem noCrlf_of_not_mem {s : Str} (h : '\n' ∉ s) : NoCrlf s := by
  induction s with
  | nil => exact List.IsChain.nil
  | cons c s ih =>
      rw [List.mem_cons, not_or] at h
      refine List.isChain_cons.mpr ⟨?_, ih h.2⟩
      rintro d hd ⟨-, rfl⟩
      exact h.2 (List.mem_of_mem_head? hd)

theorem NoCrlf.append {a b : Str} (ha : NoCrlf a) (hb : NoCrlf b) (hhead : b.head? ≠ some '\n') :
    NoCrlf (a ++ b) := by
  refine List.IsChain.append ha hb ?_
  rintro c - d hd ⟨-, rfl⟩
  exact hhead hd

theorem NoCrlf.prepend {a b : Str} (hb : NoCrlf b) (ha : '\r' ∉ a) : NoCrlf (a ++ b) := by
  induction a with
  | nil => exact hb
  | cons c a ih =>
      rw [List.mem_cons, not_or] at ha
      refine List.isChain_cons.mpr ⟨?_, ih ha.2⟩
      rintro d - ⟨rfl, -⟩
      exact ha.1 rfl

theorem count_le_universalNewlines (s : Str) : s.count '\n' ≤ (universalNewlines s).count '\n' := by
  induction s using universalNewlines.induct with
  | case1 => exact le_rfl
  | case2 cs ih =>
      rw [universalNewlines]
      simp only [List.count_cons]
      simp
      omega
  | case3 cs hcs ih =>
      rw [universalNewlines]
      · simp only [List.count_cons]
        simp
        omega
      · exact hcs
  | case4 c cs h₁ h₂ ih =>
      rw [universalNewlines_cons h₂, List.count_cons, List.count_cons]
      omega

/-- Each `\r` of such a text becomes one more line break. -/
theorem count_universalNewlines {s : Str} (h : NoCrlf s) :
    (universalNewlines s).count '\n' = s.count '\n' + s.count '\r' := by
  induction s using universalNewlines.induct with
  | case1 => rfl
  | case2 cs ih => exact absurd ⟨rfl, rfl⟩ (List.isChain_cons_cons.mp h).1
  | case3 cs hcs ih =>
      rw [universalNewlines]
      · have hrest := ih (List.isChain_of_isChain_cons h)
        rw [List.count_cons, List.count_cons, List.count_cons, hrest]
        simp
        omega
      · exact hcs
  | case4 c cs h₁ h₂ ih =>
      have hrest := ih (List.isChain_of_isChain_cons h)
      rw [universalNewlines_cons h₂, List.count_cons, List.count_cons, List.count_cons, hrest]
      rw [if_neg (show ¬ (c == '\r') = true by simpa using h₂)]
      omega

/-- Every text begins with a line. -/
theorem exists_line (s : Str) :
    ∃ line rest, s = line ++ rest ∧ '\n' ∉ line ∧ (rest = [] ∨ rest.head? = some '\n') := by
  refine ⟨s.takeWhile (· != '\n'), s.dropWhile (· != '\n'), List.takeWhile_append_dropWhile.symm, ?_, ?_⟩
  · intro hmem
    have hne := List.mem_takeWhile_imp hmem
    simp at hne
  · cases hrest : s.dropWhile (· != '\n') with
    | nil => exact Or.inl rfl
    | cons c rest =>
        have hnot := List.head?_dropWhile_not (· != '\n') s
        rw [hrest] at hnot
        exact Or.inr (by simpa using hnot)

/-- Two texts that are the same, cut at the end of their first line, have the same first line. -/
theorem line_cancel {a b r s : Str} (ha : '\n' ∉ a) (hb : '\n' ∉ b) (hr : r = [] ∨ r.head? = some '\n')
    (hs : s = [] ∨ s.head? = some '\n') (h : a ++ r = b ++ s) : a = b ∧ r = s := by
  have htake : ∀ {x y : Str}, '\n' ∉ x → (y = [] ∨ y.head? = some '\n') →
      (x ++ y).takeWhile (· != '\n') = x := by
    intro x y hx hy
    have hall : ∀ c ∈ x, (c != '\n') = true := by
      intro c hc
      rw [bne_iff_ne]
      rintro rfl
      exact hx hc
    rw [List.takeWhile_append_of_pos hall]
    cases y with
    | nil => simp
    | cons c y =>
        obtain rfl : c = '\n' := by simpa using hy
        simp
  have hline := congrArg (List.takeWhile (· != '\n')) h
  rw [htake ha hr, htake hb hs] at hline
  subst hline
  exact ⟨rfl, List.append_cancel_left h⟩

/-- `s.partition(sep)` for a one-character separator: what stands before its first occurrence, and
what stands after it when there is one. -/
def partitionChar (sep : Char) : Str → Str × Option Str
  | [] => ([], none)
  | c :: cs =>
      if c = sep then ([], some cs)
      else
        let r := partitionChar sep cs
        (c :: r.1, r.2)

/-- `s.partition(sep)`: what stands before the first occurrence of `sep`, and after it when there is
one. -/
def partition (sep : Str) : Str → Str × Option Str
  | [] => if sep.isEmpty then ([], some []) else ([], none)
  | c :: cs =>
      if sep.isPrefixOf (c :: cs) then ([], some ((c :: cs).drop sep.length))
      else
        let r := partition sep cs
        (c :: r.1, r.2)

/-- `s.replace(old, new)` for a non-empty `old`; `skip` characters belong to the occurrence just
replaced. -/
def replaceFrom (old new : Str) : Nat → Str → Str
  | _, [] => []
  | skip + 1, _ :: cs => replaceFrom old new skip cs
  | 0, c :: cs =>
      if old.isPrefixOf (c :: cs) then new ++ replaceFrom old new (old.length - 1) cs
      else c :: replaceFrom old new 0 cs

/-- `s.replace(old, new)` -/
def replace (old new s : Str) : Str :=
  if old = [] then new ++ s.flatMap fun c => c :: new else replaceFrom old new 0 s

/-- Replacing one character by one character goes through the text character by character. -/
theorem replace_single {a b : Char} {s : Str} :
    replace [a] [b] s = s.map fun c => if c = a then b else c := by
  have hfrom : ∀ s : Str, replaceFrom [a] [b] 0 s = s.map fun c => if c = a then b else c := by
    intro s
    induction s with
    | nil => rfl
    | cons c cs ih =>
        rw [replaceFrom, List.map_cons, ← ih]
        by_cases hc : c = a
        · simp [hc, List.isPrefixOf]
        · simp [hc, List.isPrefixOf, Ne.symm hc]
  rw [replace, if_neg (List.cons_ne_nil _ _), hfrom]

theorem replaceFrom_length {old new s : Str} : replaceFrom old new s.length s = [] := by
  induction s with
  | nil => rfl
  | cons c s ih => exact ih

/-- An occurrence at the end, whose first character is nowhere before it. -/
theorem replace_last {a : Char} {old new s : Str} (ha : a ∉ s) :
    replace (a :: old) new (s ++ a :: old) = s ++ new := by
  rw [replace, if_neg (List.cons_ne_nil a old)]
  induction s with
  | nil =>
      have hprefix : (a :: old).isPrefixOf (a :: old) = true := by simp
      rw [List.nil_append, replaceFrom, if_pos hprefix, List.length_cons, Nat.add_sub_cancel,
        replaceFrom_length, List.append_nil, List.nil_append]
  | cons c s ih =>
      obtain ⟨hc, hs⟩ := not_or.mp (mt List.mem_cons.mpr ha)
      have hprefix : ¬ (a :: old).isPrefixOf (c :: (s ++ a :: old)) = true := by simp [hc]
      rw [List.cons_append, replaceFrom, if_neg hprefix, ih hs, List.cons_append]

/-- The value of a run of digits, single underscores allowed between them; `acc` is the value so far,
absent before the first digit and after an underscore. -/
def digitsValue : Option Nat → Nat → Str → Option Nat
  | seen, acc, [] => seen.map fun _ => acc
  | seen, acc, c :: cs =>
      if isAsciiDigit c then digitsValue (some 0) (10 * acc + (c.toNat - 48)) cs
      else if c = '_' && seen.isSome then digitsValue none acc cs
      else none

/-- `int(s)` of ASCII text; none where it raises. -/
def parseInt (s : Str) : Option Int :=
  match strip s with
  | '-' :: cs => (digitsValue none 0 cs).map fun n => -(n : Int)
  | '+' :: cs => (digitsValue none 0 cs).map fun n => (n : Int)
  | cs => (digitsValue none 0 cs).map fun n => (n : Int)

/-- `str(n)` for a natural number. -/
def ofNat (n : Nat) : Str := (Nat.repr n).toList

theorem ofNat_eq (n : Nat) : ofNat n = Nat.toDigits 10 n := Nat.toList_repr

theorem ofNat_ne_nil (n : Nat) : ofNat n ≠ [] := by
  rw [ofNat_eq]
  exact Nat.toDigits_ne_nil

theorem isAsciiDigit_of_mem_ofNat {n : Nat} {c : Char} (h : c ∈ ofNat n) : isAsciiDigit c = true := by
  rw [ofNat_eq] at h
  have hdigit := Nat.isDigit_of_mem_toDigits (by decide) le_rfl h
  simp only [Char.isDigit, Bool.and_eq_true, decide_eq_true_eq, ge_iff_le] at hdigit
  simp only [isAsciiDigit, Bool.and_eq_true, decide_eq_true_eq]
  exact hdigit

/-- The value of a text of ASCII digits. -/
theorem intOfDigits_ascii [UnicodeTables] {s : Str} (hs : ∀ c ∈ s, isAsciiDigit c = true) :
    intOfDigits s = Nat.ofDigitChars 10 s 0 := by
  unfold intOfDigits Nat.ofDigitChars
  apply List.foldl_ext
  intro n c hc
  rw [if_pos (hs c hc)]
  rfl

theorem intOfDigits_ofNat [UnicodeTables] (n : Nat) : intOfDigits (ofNat n) = n := by
  rw [intOfDigits_ascii fun c => isAsciiDigit_of_mem_ofNat, ofNat_eq]
  exact Nat.ofDigitChars_ten_toDigits

/-- `os.path.basename`: what follows the last `/`. -/
def basename (s : Str) : Str := s.rtakeWhile (· ≠ '/')

example : splitlines "a\r\nb\n\nc" = ["a".toList, "b".toList, [], "c".toList] := by decide
example : strip " x y\t\n" = "x y".toList := by decide
example : universalNewlines "a\r\nb\rc\n" = "a\nb\nc\n".toList := by decide
example : partition "://" "https://h/p" = ("https".toList, some "h/p".toList) := by decide
example : replace "1.2" "1.10" "p-1.2-v1.2.tar" = "p-1.10-v1.10.tar".toList := by decide
example : basename "https://host/dir/x-1.tar.gz" = "x-1.tar.gz".toList := by decide

end Text

end HummingbirdRpms.Lib
