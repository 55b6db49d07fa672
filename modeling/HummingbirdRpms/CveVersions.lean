/-
# HummingbirdRpms.CveVersions — comparing versions, and the fixed version that counts.

The version utilities of the CVE helper (`.cursor/skills/cve/lib/spec.py`).  A version is compared by
the numbers in it, with a pre-release below its final version; a list of fixed versions names one for
each release line, and the one to compare with is picked by the major number.

**`versionCmp_dotted`** — dotted numeric versions compare by their numbers, component by component.
**`selectFixed_perm`** — what is picked does not depend on the order of the list, as long as the
fixed versions of the compared major line are all the same.
-/
import Mathlib.Data.List.Perm.Basic
import HummingbirdRpms.Lib.Regex

namespace HummingbirdRpms

open Lib Lib.Text Lib.Regex

/-! ## Version keys -/

section

variable [UnicodeTables]

/-- The words of `_PRERELEASE_RE`, with `_PRERELEASE_RANK`. -/
def prereleaseRank : List (Str × Nat) :=
  [("dev", 0), ("alpha", 1), ("beta", 2), ("preview", 3), ("pre", 3), ("rc", 4)]

/-- `[a-zA-Z_]` under `re.IGNORECASE` -/
def isLetterOrUnderscore (c : Char) : Bool :=
  isAsciiLetter c || c = '_' || [0x17F, 0x212A, 0x130, 0x131].contains c.toNat

/-- `_PRERELEASE_RE` -/
def versionPrereleaseRe : Re :=
  Re.seq [.group 1 (.chr isDigit), Re.opt (.chr fun c => c = '-' || c = '.' || c = '_' || c = '~'),
    .group 2 (Re.oneOf (prereleaseRank.map fun w => Re.ilit w.1)), .notBefore isLetterOrUnderscore,
    Re.opt (.lit "."), .group 3 (.many true isDigit)]

/-- `re.findall(r"\d+", text)` -/
def digitRuns (text : Str) : List Str := (text.splitOnP fun c => !isDigit c).filter (· ≠ [])

/-- The key of a version: its numbers, and a suffix that puts a pre-release below its release. -/
abbrev VersionKey := List Nat × List Nat

/-- The text a version key is read from, and its suffix. -/
def releaseAndSuffix (text : Str) : Str × List Nat :=
  match search versionPrereleaseRe text with
  | some pre =>
      (text.take (pre.start + 1),
        [0, (prereleaseRank.lookup (lowerAscii (pre.group 2))).getD 0, intOfDigits (pre.group 3)])
  | none => (text, [1])

/-- `parse_version_key` -/
def parseVersionKey (value : Str) : Option VersionKey :=
  let text := lstripBy (fun c => c = 'v' || c = 'V') (strip value)
  if !text.any isDigit then none
  else
    let (releaseText, suffix) := releaseAndSuffix text
    match (digitRuns releaseText).map intOfDigits with
    | [] => none
    | nums => some (nums, suffix)

/-- `version_major` -/
def versionMajor (value : Str) : Option Nat := (parseVersionKey value).bind fun key => key.1.head?

/-- The order of tuples of version keys. -/
def compareKeys (left right : VersionKey) : Ordering :=
  if left.1 < right.1 ∨ (left.1 = right.1 ∧ left.2 < right.2) then .lt
  else if left = right then .eq else .gt

/-- `version_cmp` -/
def versionCmp (left right : Str) : Option Ordering := do
  return compareKeys (← parseVersionKey left) (← parseVersionKey right)

/-! ## Fixed versions -/

/-- `\s+or\s+|[,;\s]+` under `re.IGNORECASE` -/
def fixedSeparatorRe : Re :=
  .alt (Re.seq [Re.some1 isSpace, Re.ilit "or", Re.some1 isSpace])
    (Re.some1 fun c => c = ',' || c = ';' || isSpace c)

/-- `split_fixed_versions` -/
def splitFixedVersions (text : Str) : List Str :=
  if text = [] then []
  else ((split fixedSeparatorRe text).filter fun t => strip t ≠ [] && t.any isDigit).map strip

/-- `select_fixed_for_version` -/
def selectFixedForVersion (fixed version : Str) : Str :=
  match splitFixedVersions fixed with
  | [] => []
  | [only] => only
  | versions =>
      match versionMajor version with
      | none => []
      | some target => (versions.find? fun candidate => versionMajor candidate = some target).getD []

end

/-! ## Dotted numeric versions -/

/-- A version that consists of numbers with dots in between. -/
structure DottedVersion where
  parts : List Str
  nonempty : parts ≠ []
  digits : ∀ part ∈ parts, part ≠ [] ∧ ∀ c ∈ part, isAsciiDigit c = true

namespace DottedVersion

variable (v : DottedVersion)

def text : Str := join ".".toList v.parts

/-- The numbers of a version. -/
def nums [UnicodeTables] : List Nat := v.parts.map intOfDigits

/-- A character of a dotted version. -/
def isPart (c : Char) : Bool := isAsciiDigit c || c = '.'

theorem isPart_of_mem_join {parts : List Str} (h : ∀ part ∈ parts, ∀ c ∈ part, isAsciiDigit c = true)
    {c : Char} (hc : c ∈ join ".".toList parts) : isPart c = true := by
  induction parts with
  | nil => exact absurd hc List.not_mem_nil
  | cons part parts ih =>
      have htail := ih fun q hq => h q (List.mem_cons_of_mem _ hq)
      have hhead : ∀ c ∈ part, isPart c = true := by
        intro c hc
        rw [isPart, h part List.mem_cons_self c hc, Bool.true_or]
      cases parts with
      | nil => exact hhead c hc
      | cons part' parts' =>
          rcases List.mem_append.mp hc with hc | hc
          · rcases List.mem_append.mp hc with hc | hc
            · exact hhead c hc
            · obtain rfl := List.mem_singleton.mp hc
              decide
          · exact htail hc

theorem isPart_of_mem {c : Char} (hc : c ∈ v.text) : isPart c = true :=
  isPart_of_mem_join (fun part hpart => (v.digits part hpart).2) hc

/-- A dotted version starts with a digit. -/
theorem text_head : ∃ d rest, v.text = d :: rest ∧ isAsciiDigit d = true := by
  obtain ⟨part, parts, hparts⟩ := List.exists_cons_of_ne_nil v.nonempty
  obtain ⟨hne, hdigits⟩ := v.digits part (hparts ▸ List.mem_cons_self)
  obtain ⟨d, ds, rfl⟩ := List.exists_cons_of_ne_nil hne
  have hd := hdigits d List.mem_cons_self
  rw [text, hparts]
  cases parts with
  | nil => exact ⟨d, ds, rfl, hd⟩
  | cons part' parts' => exact ⟨d, _, rfl, hd⟩

theorem isPart_toNat {c : Char} (h : isPart c = true) : 46 ≤ c.toNat ∧ c.toNat ≤ 57 := by
  simp only [isPart, isAsciiDigit, Bool.or_eq_true, Bool.and_eq_true, decide_eq_true_eq] at h
  rcases h with h | rfl
  · omega
  · decide

theorem not_isSpace {c : Char} (h : isPart c = true) : isSpace c = false := by
  have hn := isPart_toNat h
  simp only [isSpace, Bool.or_eq_false_iff, Bool.and_eq_false_iff, decide_eq_false_iff_not,
    beq_eq_false_iff_ne]
  omega

/-- No letter, in either case, is part of a dotted version. -/
theorem not_foldEq {a c : Char} (ha : isAsciiLower a = true) (h : isPart c = true) :
    Re.foldEq a c = false := by
  have hn := isPart_toNat h
  simp only [isAsciiLower, Bool.and_eq_true, decide_eq_true_eq] at ha
  have hne : c ≠ a := by
    rintro rfl
    omega
  have hlower : lowerChar c = c := by
    rw [lowerChar, if_neg]
    simp only [isAsciiUpper, Bool.and_eq_true, decide_eq_true_eq, not_and]
    omega
  simp only [Re.foldEq, hlower, Bool.or_eq_false_iff, Bool.and_eq_false_iff, decide_eq_false_iff_not]
  refine ⟨⟨⟨⟨hne, hne⟩, Or.inr ?_⟩, Or.inr ?_⟩, Or.inr ⟨?_, ?_⟩⟩
  all_goals omega

section

variable [UnicodeTables]

/-- A dotted version has no pre-release marker. -/
theorem search_prerelease : search versionPrereleaseRe v.text = none := by
  rw [search_eq_none_iff]
  intro i _
  rw [List.eq_nil_iff_forall_not_mem]
  intro e he
  obtain ⟨m₁, -, he⟩ := mem_run_seq_cons.mp he
  obtain ⟨m₂, -, he⟩ := mem_run_seq_cons.mp he
  obtain ⟨m₃, hword, -⟩ := mem_run_seq_cons.mp he
  obtain ⟨m₄, hword, -⟩ := mem_run_group.mp hword
  obtain ⟨r, hr, hword⟩ := mem_run_oneOf.mp hword
  obtain ⟨⟨w, rank⟩, hw, rfl⟩ := List.mem_map.mp hr
  -- the word would begin with a letter
  obtain ⟨x, hx, hall, -⟩ := mem_run_ilit.mp hword
  have hletter : ∃ a w', w = a :: w' ∧ isAsciiLower a = true := by
    simp only [prereleaseRank, List.mem_cons, Prod.mk.injEq, List.not_mem_nil, or_false] at hw
    rcases hw with ⟨rfl, -⟩ | ⟨rfl, -⟩ | ⟨rfl, -⟩ | ⟨rfl, -⟩ | ⟨rfl, -⟩ | ⟨rfl, -⟩
    all_goals exact ⟨_, _, rfl, by decide⟩
  obtain ⟨a, w', rfl, ha⟩ := hletter
  cases hall with
  | cons heq htail =>
      rename_i c x
      have hc : c ∈ v.text := List.mem_of_mem_drop (hx.subset List.mem_cons_self)
      rw [not_foldEq ha (v.isPart_of_mem hc)] at heq
      exact absurd heq Bool.false_ne_true

theorem splitOnP_join {parts : List Str} (hne : parts ≠ [])
    (h : ∀ part ∈ parts, part ≠ [] ∧ ∀ c ∈ part, isAsciiDigit c = true) :
    (join ".".toList parts).splitOnP (fun c => !isDigit c) = parts := by
  induction parts with
  | nil => exact absurd rfl hne
  | cons part parts ih =>
      have hpart : ∀ c ∈ part, (!isDigit c) = false := by
        intro c hc
        rw [isDigit_of_ascii ((h part List.mem_cons_self).2 c hc), Bool.not_true]
      cases parts with
      | nil => exact List.splitOnP_eq_singleton hpart
      | cons part' parts' =>
          have htail := ih (by simp) fun q hq => h q (List.mem_cons_of_mem _ hq)
          rw [join, show ".".toList = ['.'] from rfl, List.append_assoc, List.singleton_append,
            List.splitOnP_append_cons_of_forall_mem hpart '.' rfl]
          exact congrArg _ htail

theorem parseVersionKey_text : parseVersionKey v.text = some (v.nums, [1]) := by
  have hstrip : lstripBy (fun c => c = 'v' || c = 'V') (strip v.text) = v.text := by
    have hspace : ∀ c ∈ v.text, isSpace c = false := fun c hc => not_isSpace (v.isPart_of_mem hc)
    have hleft : lstripBy isSpace v.text = v.text := by
      rw [lstripBy, List.dropWhile_eq_self_iff]
      intro hl
      simp [hspace _ (List.getElem_mem hl)]
    have hright : rstripBy isSpace v.text = v.text := by
      rw [rstripBy, List.rdropWhile_eq_self_iff]
      intro hl
      simp [hspace _ (List.getLast_mem hl)]
    rw [strip, hleft, hright, lstripBy, List.dropWhile_eq_self_iff]
    intro hl
    have hn := isPart_toNat (v.isPart_of_mem (List.getElem_mem hl))
    simp only [Bool.or_eq_true, decide_eq_true_eq, not_or]
    constructor
    all_goals
      intro heq
      rw [heq] at hn
      exact absurd hn (by decide)
  have hruns : digitRuns v.text = v.parts := by
    rw [digitRuns, text, splitOnP_join v.nonempty v.digits, List.filter_eq_self]
    intro part hpart
    simpa using (v.digits part hpart).1
  have hdigit : v.text.any isDigit = true := by
    obtain ⟨d, rest, htext, hd⟩ := v.text_head
    rw [htext, List.any_cons, isDigit_of_ascii hd, Bool.true_or]
  rw [parseVersionKey]
  simp only [hstrip, hdigit, Bool.not_true, Bool.false_eq_true, if_false, releaseAndSuffix,
    v.search_prerelease, hruns]
  cases hnums : v.parts.map intOfDigits with
  | nil => exact absurd (List.map_eq_nil_iff.mp hnums) v.nonempty
  | cons n ns => simp only [nums, hnums]

end

end DottedVersion

section

variable [UnicodeTables]

/-- **`versionCmp_dotted`** — dotted versions compare by their numbers, component by component. -/
theorem versionCmp_dotted (v w : DottedVersion) :
    versionCmp v.text w.text =
      some (if v.nums < w.nums then .lt else if v.nums = w.nums then .eq else .gt) := by
  have hsuffix : ¬ ([1] : List Nat) < [1] := by decide
  simp only [versionCmp, v.parseVersionKey_text, w.parseVersionKey_text, compareKeys, Option.bind_eq_bind,
    Option.bind_some, Prod.mk.injEq, and_true, hsuffix, and_false, or_false, Option.pure_def]

/-- What is picked from a list of fixed versions is listed: alone, or as the first of the major line of
the version. -/
theorem selectFixed_mem {fixed version : Str} (h : selectFixedForVersion fixed version ≠ []) :
    splitFixedVersions fixed = [selectFixedForVersion fixed version] ∨
      ∃ before after, splitFixedVersions fixed =
          before ++ selectFixedForVersion fixed version :: after ∧
        versionMajor (selectFixedForVersion fixed version) = versionMajor version ∧
        ∀ candidate ∈ before, versionMajor candidate ≠ versionMajor version := by
  generalize hs : selectFixedForVersion fixed version = s at h ⊢
  unfold selectFixedForVersion at hs
  split at hs
  · exact absurd hs.symm h
  · rename_i only hversions
    rw [hversions, hs]
    exact Or.inl rfl
  · right
    split at hs
    · exact absurd hs.symm h
    · rename_i target htarget
      cases hfind : (splitFixedVersions fixed).find? fun candidate =>
          versionMajor candidate = some target with
      | none =>
          rw [hfind] at hs
          exact absurd hs.symm h
      | some found =>
          rw [hfind] at hs
          obtain rfl : found = s := hs
          obtain ⟨hmajor, before, after, hlist, hbefore⟩ := List.find?_eq_some_iff_append.mp hfind
          rw [htarget]
          refine ⟨before, after, hlist, by simpa using hmajor, fun candidate hc => ?_⟩
          simpa using hbefore candidate hc

/-- The fixed versions of the major line of a version are all the same. -/
def OneFixPerMajor (fixed version : Str) : Prop :=
  ∀ a ∈ splitFixedVersions fixed, ∀ b ∈ splitFixedVersions fixed,
    versionMajor a = versionMajor version → versionMajor b = versionMajor version → a = b

/-- **`selectFixed_perm`** — listing the fixed versions in another order picks the same one, when the
major line of the version has only one. -/
theorem selectFixed_perm {fixed fixed' version : Str}
    (hperm : (splitFixedVersions fixed).Perm (splitFixedVersions fixed'))
    (hone : OneFixPerMajor fixed version) :
    selectFixedForVersion fixed version = selectFixedForVersion fixed' version := by
  unfold selectFixedForVersion
  match hv : splitFixedVersions fixed, hv' : splitFixedVersions fixed' with
  | [], _ =>
      rw [hv, hv'] at hperm
      rw [hperm.symm.eq_nil]
  | [only], _ =>
      rw [hv, hv'] at hperm
      rw [List.perm_singleton.mp hperm.symm]
  | a :: b :: rest, [] =>
      rw [hv, hv'] at hperm
      exact absurd hperm.eq_nil (by simp)
  | a :: b :: rest, [only] =>
      rw [hv, hv'] at hperm
      exact absurd (List.perm_singleton.mp hperm) (by simp)
  | a :: b :: rest, a' :: b' :: rest' =>
      rw [hv, hv'] at hperm
      dsimp only
      cases htarget : versionMajor version with
      | none => rfl
      | some target =>
          dsimp only
          congr 1
          rw [OneFixPerMajor, hv, htarget] at hone
          cases hfind : (a :: b :: rest).find? fun c => versionMajor c = some target with
          | none =>
              symm
              rw [List.find?_eq_none] at hfind ⊢
              exact fun c hc => hfind c (hperm.mem_iff.mpr hc)
          | some found =>
              cases hfind' : (a' :: b' :: rest').find? fun c => versionMajor c = some target with
              | none =>
                  rw [List.find?_eq_none] at hfind'
                  exact absurd (List.find?_some hfind)
                    (hfind' found (hperm.mem_iff.mp (List.mem_of_find?_eq_some hfind)))
              | some found' =>
                  have hmajor := List.find?_some hfind
                  have hmajor' := List.find?_some hfind'
                  rw [hone found (List.mem_of_find?_eq_some hfind) found'
                    (hperm.mem_iff.mpr (List.mem_of_find?_eq_some hfind')) (by simpa using hmajor)
                    (by simpa using hmajor')]

end

end HummingbirdRpms
