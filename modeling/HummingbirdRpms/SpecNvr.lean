/-
# HummingbirdRpms.SpecNvr — the name, version and release of a local spec.

The CVE helper reads them without rpm (`.cursor/skills/cve/lib/spec.py`): `read_local_spec_nvr` takes the
`Name`, `Version` and `Release` lines of the preamble, expands macros by rewriting, and joins what it gets
with hyphens.  `split_nvr` takes the result apart again, from the right.

**`nvr_splits_iff`** — what is read is taken apart into the same three parts exactly if the version is not
empty, the last part has nothing at its end that `normalize_nvr` takes off, and the release is not empty or
the name has no hyphen.
-/
import HummingbirdRpms.CveCheck
import HummingbirdRpms.History
import HummingbirdRpms.Lib.Pieces

namespace HummingbirdRpms

open Lib Lib.Text Lib.Regex

/-! ## Macros -/

section

variable [UnicodeTables]

/-- `re.sub` with a pattern that is read off the front of the text: `parse` says how many characters it
takes and what they are replaced by.  The first argument counts the characters that a match still takes. -/
def substitute (parse : Str → Option (Nat × Str)) : Nat → Str → Str
  | _, [] => []
  | skip + 1, _ :: cs => substitute parse skip cs
  | 0, c :: cs =>
      match parse (c :: cs) with
      | some (len, new) => new ++ substitute parse (len - 1) cs
      | none => c :: substitute parse 0 cs

/-- `_MACRO_BODY` and the brace that closes it: the text up to the brace, with one level of braces inside. -/
def macroBody : (inner : Bool) → Str → Option Str
  | _, [] => none
  | false, '}' :: _ => some []
  | false, '{' :: cs => (macroBody true cs).map ('{' :: ·)
  | true, '}' :: cs => (macroBody false cs).map ('}' :: ·)
  | true, '{' :: _ => none
  | inner, c :: cs => (macroBody inner cs).map (c :: ·)

/-- The table of macros, the latest definition first. -/
abbrev Macros := List (Str × Str)

/-- `start` and a macro's name at the front of a text. -/
def macroName (start s : Str) : Option Str :=
  let name := (s.drop start.length).takeWhile isWord
  if startsWith start s ∧ name ≠ [] then some name else none

/-- `start`, a name, a colon, a body and a brace: what they are replaced by depends on the name and body. -/
def parseConditional (start : Str) (value : Str → Str → Str) (s : Str) : Option (Nat × Str) := do
  let name ← macroName start s
  match s.drop (start.length + name.length) with
  | ':' :: rest =>
      let body ← macroBody false rest
      return (start.length + name.length + body.length + 2, value name body)
  | _ => none

/-- `start`, a name and a brace. -/
def parseReference (start : Str) (value : Str → Str) (s : Str) : Option (Nat × Str) := do
  let name ← macroName start s
  match s.drop (start.length + name.length) with
  | '}' :: _ => return (start.length + name.length + 1, value name)
  | _ => none

/-- One round of `_expand_macros`. -/
def expandOnce (macros : Macros) (value : Str) : Str :=
  let isDefined name := (macros.lookup name).isSome
  let value := substitute (parseConditional "%\x7b!?" fun name body => if isDefined name then [] else body) 0 value
  let value := substitute (parseConditional "%\x7b?" fun name body => if isDefined name then body else []) 0 value
  let value := substitute (parseReference "%\x7b?" fun name => (macros.lookup name).getD []) 0 value
  substitute (parseReference "%\x7b" fun name =>
    (macros.lookup name).getD ("%\x7b".toList ++ name ++ ['}'])) 0 value

/-- The rounds that are left. -/
def expandFrom (macros : Macros) : Nat → Str → Str
  | 0, value => value
  | n + 1, value =>
      let expanded := expandOnce macros value
      if expanded = value then expanded else expandFrom macros n expanded

/-- `_expand_macros` -/
def expandMacros (value : Str) (macros : Macros) : Str := expandFrom macros 10 value

/-! ## Reading a spec -/

/-- `^%(?:description|package|prep|build|install|files|changelog)\b` -/
def sectionHeadRe : Re :=
  Re.seq [.bol, .lit "%",
    Re.oneOf [.lit "description", .lit "package", .lit "prep", .lit "build", .lit "install", .lit "files",
      .lit "changelog"], .wordB isWord]

/-- The preamble of a spec. -/
def specPreamble (text : Str) : Str :=
  match search sectionHeadRe text with
  | some m => text.take m.start
  | none => text

/-- `^%(?:global|define)\s+(\w+)\s+(.+)$` -/
def macroDefinitionRe : Re :=
  Re.seq [.bol, .lit "%", .alt (.lit "global") (.lit "define"), Re.some1 isSpace, .group 1 (Re.some1 isWord),
    Re.some1 isSpace, .group 2 (Re.some1 (· != '\n')), .eol]

/-- The macros that a preamble defines. -/
def preambleMacros (preamble : Str) : Macros :=
  (finditer macroDefinitionRe preamble).foldl (fun macros m => (m.group 1, strip (m.group 2)) :: macros) []

/-- `^<field>:\s*(.+)$` under `re.IGNORECASE` -/
def specFieldRe (field : Str) : Re :=
  Re.seq [.bol, Re.ilit field, .lit ":", .many true isSpace, .group 1 (Re.some1 (· != '\n')), .eol]

/-- `get_field`; the field is given in lower case -/
def specField (field preamble : Str) : Str :=
  match search (specFieldRe field) preamble with
  | some m => strip (m.group 1)
  | none => []

/-- The name that a spec expands to. -/
def expandedName (preamble : Str) : Str := expandMacros (specField "name" preamble) (preambleMacros preamble)

/-- The version that a spec expands to. -/
def expandedVersion (preamble : Str) : Str :=
  expandMacros (specField "version" preamble) (preambleMacros preamble)

/-- The release that a spec expands to, where `%{version}` is its version. -/
def expandedRelease (preamble : Str) : Str :=
  expandMacros (specField "release" preamble)
    (("version".toList, expandedVersion preamble) :: preambleMacros preamble)

/-- `f"{name}-{version}-{release}" if release else f"{name}-{version}"` -/
def joinNvr (name version release : Str) : Str :=
  if release = [] then name ++ '-' :: version else name ++ '-' :: (version ++ '-' :: release)

/-- `read_local_spec_nvr`, on the text of the spec if there is one. -/
def readLocalSpecNvr (spec : Option Str) : Str :=
  match spec with
  | none => []
  | some text =>
      let preamble := specPreamble text
      let name := expandedName preamble
      let version := expandedVersion preamble
      if name = [] ∨ version = [] then [] else joinNvr name version (expandedRelease preamble)

end

/-! ## Taking it apart -/

variable {name version release s a v r : Str}

theorem splitNvr_three (hs : normalizeNvr s = a ++ '-' :: (v ++ '-' :: r)) (hv : '-' ∉ v) (hr : '-' ∉ r) :
    splitNvr s = (a, v, r) := by
  obtain ⟨part, parts, hparts⟩ := List.exists_cons_of_ne_nil
    (mt List.reverse_eq_nil_iff.mp (List.splitOn_ne_nil '-' a))
  have hcut : ((normalizeNvr s).splitOn '-').reverse = r :: v :: part :: parts := by
    rw [hs, List.splitOn_append_cons_self, List.splitOn_append_cons_self_of_not_mem hv,
      List.splitOn_eq_singleton hr, List.reverse_append, ← hparts]
    rfl
  have hfront : (part :: parts).reverse = a.splitOn '-' := by rw [← hparts, List.reverse_reverse]
  unfold splitNvr
  simp only [hcut, hfront]
  rw [show join "-" (a.splitOn '-') = a from join_splitOn '-' a]

theorem splitNvr_two (hs : normalizeNvr s = a ++ '-' :: v) (ha : '-' ∉ a) (hv : '-' ∉ v) :
    splitNvr s = (a, v, []) := by
  have hcut : ((normalizeNvr s).splitOn '-').reverse = [v, a] := by
    rw [hs, List.splitOn_append_cons_self_of_not_mem ha, List.splitOn_eq_singleton hv]
    rfl
  unfold splitNvr
  simp only [hcut]

theorem splitNvr_one (hs : '-' ∉ normalizeNvr s) : splitNvr s = (normalizeNvr s, [], []) := by
  have hcut : ((normalizeNvr s).splitOn '-').reverse = [normalizeNvr s] := by
    rw [List.splitOn_eq_singleton hs]
    rfl
  unfold splitNvr
  simp only [hcut]

/-- What taking apart gives, put together, is the text that `normalize_nvr` leaves: with a hyphen more
where the release is missing behind a third part. -/
theorem splitNvr_cases (h : splitNvr s = (name, version, release)) (hversion : version ≠ []) :
    normalizeNvr s = name ++ '-' :: (version ++ '-' :: release) ∨
      release = [] ∧ '-' ∉ name ∧ normalizeNvr s = name ++ '-' :: version := by
  rcases exists_last '-' (normalizeNvr s) with hnone | ⟨front, r, hfront, hr⟩
  · rw [splitNvr_one hnone] at h
    simp only [Prod.mk.injEq] at h
    exact absurd h.2.1.symm hversion
  · rcases exists_last '-' front with hnone | ⟨a, v, rfl, hv⟩
    · rw [splitNvr_two hfront hnone hr] at h
      simp only [Prod.mk.injEq] at h
      obtain ⟨rfl, rfl, rfl⟩ := h
      exact Or.inr ⟨rfl, hnone, hfront⟩
    · rw [List.append_assoc, List.cons_append] at hfront
      rw [splitNvr_three hfront hv hr] at h
      simp only [Prod.mk.injEq] at h
      obtain ⟨rfl, rfl, rfl⟩ := h
      exact Or.inl hfront

/-! ## What is taken off -/

/-- The last component of a path. -/
theorem lastPart_spec (path : Str) : '/' ∉ ((pathParts path).getLast?).getD [] ∧
    (((pathParts path).getLast?).getD []).Sublist path := by
  cases h : (pathParts path).getLast? with
  | none => exact ⟨List.not_mem_nil, List.nil_sublist _⟩
  | some part => exact mem_splitOn (List.mem_of_mem_filter (List.mem_of_getLast? h))

theorem lastPart_self (hslash : '/' ∉ s) (hne : s ≠ []) (hdot : s ≠ ".".toList) :
    ((pathParts s).getLast?).getD [] = s := by
  have hkeep : pathParts s = [s] := by
    rw [pathParts, List.splitOn_eq_singleton hslash, List.filter_eq_self]
    intro part hpart
    rw [List.mem_singleton.mp hpart]
    simpa using ⟨hne, hdot⟩
  rw [hkeep]
  rfl

/-- `normalize_nvr` leaves a text alone exactly if there is no white space around it, no slash in it and no
`.src.rpm` at its end. -/
theorem normalizeNvr_self_iff (hne : s ≠ []) (hdot : s ≠ ".".toList) :
    normalizeNvr s = s ↔ strip s = s ∧ '/' ∉ s ∧ ¬ ".src.rpm".toList <:+ s := by
  obtain ⟨hslash, hsub⟩ := lastPart_spec (strip s)
  constructor
  · intro h
    rw [normalizeNvr] at h
    generalize ((pathParts (strip s)).getLast?).getD [] = part at h hslash hsub
    have hlen : part.length ≤ s.length := hsub.length_le.trans (strip_sublist s).length_le
    split at h
    · rename_i hsuffix
      -- a text that has lost something is shorter
      have hshort := congrArg List.length h
      rw [List.length_take] at hshort
      have hle := (endsWith_iff.mp hsuffix).length_le
      have height : ".src.rpm".toList.length = 8 := rfl
      omega
    · rename_i hsuffix
      subst h
      have hstrip : strip part = part :=
        (strip_sublist part).eq_of_length (le_antisymm (strip_sublist part).length_le hsub.length_le)
      refine ⟨hstrip, hslash, fun h => hsuffix (endsWith_iff.mpr h)⟩
  · rintro ⟨hstrip, hslash, hsuffix⟩
    rw [normalizeNvr, hstrip, lastPart_self hslash hne hdot, if_neg fun h => hsuffix (endsWith_iff.mp h)]

/-! ## Reading and taking apart -/

/-- The part at the end of what is joined. -/
def lastPart (version release : Str) : Str := if release = [] then version else release

/-- The condition: the version is not empty, the missing of a release can be seen, and nothing is taken off
by `normalize_nvr`. -/
structure NvrSplits (name version release : Str) : Prop where
  version_ne : version ≠ []
  told : release ≠ [] ∨ '-' ∉ name
  noSlash : '/' ∉ version ∧ '/' ∉ release
  noSpace : ∀ c ∈ (lastPart version release).getLast?, isSpace c = false
  noSuffix : ¬ ".src.rpm".toList <:+ lastPart version release

/-- The last part stands behind a hyphen. -/
theorem exists_joinNvr (name version release : Str) :
    ∃ front, joinNvr name version release = name ++ front ++ '-' :: lastPart version release := by
  unfold joinNvr lastPart
  split
  · exact ⟨[], by rw [List.append_nil]⟩
  · exact ⟨'-' :: version, by simp⟩

theorem suffix_cons_iff {x last : Str} (hx : '-' ∉ x) {front : Str} : x <:+ front ++ '-' :: last ↔ x <:+ last := by
  have hlast : last <:+ front ++ '-' :: last := (List.suffix_cons '-' last).trans (List.suffix_append _ _)
  constructor
  · intro h
    rcases List.suffix_or_suffix_of_suffix h ((List.suffix_append front ('-' :: last)) : '-' :: last <:+ _) with h | h
    · rcases List.suffix_cons_iff.mp h with rfl | h
      · exact absurd List.mem_cons_self hx
      · exact h
    · exact absurd (h.subset List.mem_cons_self) hx
  · intro h
    exact h.trans hlast

/-- `normalize_nvr` leaves what was read alone exactly if the last part ends well and no part has a slash. -/
theorem normalizeNvr_joinNvr_iff (p : PackageName) (hversion : version ≠ []) :
    normalizeNvr (joinNvr p.name version release) = joinNvr p.name version release ↔
      ('/' ∉ version ∧ '/' ∉ release) ∧ (∀ c ∈ (lastPart version release).getLast?, isSpace c = false) ∧
        ¬ ".src.rpm".toList <:+ lastPart version release := by
  obtain ⟨front, hjoin⟩ := exists_joinNvr p.name version release
  obtain ⟨c, cs, hp⟩ := List.exists_cons_of_ne_nil p.nonempty
  have hc : isSpace c = false := isSpace_of_isNameChar (p.chars c (by rw [hp]; exact List.mem_cons_self))
  have hlast : lastPart version release ≠ [] := by
    unfold lastPart
    split
    · exact hversion
    · assumption
  have hne : joinNvr p.name version release ≠ [] := by rw [hjoin]; simp
  have hdot : joinNvr p.name version release ≠ ".".toList := by
    intro h
    rw [hjoin] at h
    have hmem : '-' ∈ ".".toList := by rw [← h]; simp
    exact absurd hmem (by decide)
  have hends : strip (joinNvr p.name version release) = joinNvr p.name version release ↔
      ∀ c ∈ (lastPart version release).getLast?, isSpace c = false := by
    have hend : (joinNvr p.name version release).getLast? = (lastPart version release).getLast? := by
      rw [hjoin, List.getLast?_append_of_ne_nil _ (List.cons_ne_nil _ _), List.getLast?_cons_of_ne_nil hlast]
    rw [← hend]
    constructor
    · intro h d hd
      have hstripped := rstripBy_getLast? (p := isSpace) (s := lstripBy isSpace (joinNvr p.name version release))
      rw [show rstripBy isSpace (lstripBy isSpace (joinNvr p.name version release)) =
        joinNvr p.name version release from h] at hstripped
      exact hstripped d hd
    · intro h
      refine strip_solid ⟨⟨c, ?_, hc⟩, ?_⟩
      · rw [hjoin, hp]
        rfl
      · obtain ⟨d, hd⟩ := Option.isSome_iff_exists.mp (List.getLast?_isSome.mpr hne)
        exact ⟨d, hd, h d hd⟩
  have hslashes : '/' ∉ joinNvr p.name version release ↔ '/' ∉ version ∧ '/' ∉ release := by
    have hname : '/' ∉ p.name := p.not_mem (by decide)
    unfold joinNvr
    split
    · rename_i hnil
      simp [hname, hnil]
    · simp [hname]
  have hsuffix : ".src.rpm".toList <:+ joinNvr p.name version release ↔
      ".src.rpm".toList <:+ lastPart version release := by
    rw [hjoin]
    exact suffix_cons_iff (by decide)
  rw [normalizeNvr_self_iff hne hdot, hends, hslashes, hsuffix]
  constructor
  · rintro ⟨hspace, hslash, hrpm⟩
    exact ⟨hslash, hspace, hrpm⟩
  · rintro ⟨hslash, hspace, hrpm⟩
    exact ⟨hspace, hslash, hrpm⟩

/-- `normalize_nvr` only takes off. -/
theorem normalizeNvr_sublist (s : Str) : (normalizeNvr s).Sublist s := by
  have hpart := (lastPart_spec (strip s)).2.trans (strip_sublist s)
  rw [normalizeNvr]
  split
  · exact (List.take_sublist _ _).trans hpart
  · exact hpart

section

variable [UnicodeTables] {text : Str}

theorem readLocalSpecNvr_eq {p : PackageName} (hname : expandedName (specPreamble text) = p.name)
    (hversion : expandedVersion (specPreamble text) = version)
    (hrelease : expandedRelease (specPreamble text) = release) :
    readLocalSpecNvr (some text) = if version = [] then [] else joinNvr p.name version release := by
  simp only [readLocalSpecNvr, hname, hversion, hrelease, p.nonempty, false_or]

omit [UnicodeTables] in
/-- What was read is taken apart into the parts that it is made of only if nothing is taken off first. -/
theorem normalized_of_split {p : PackageName} (hversion : version ≠ [])
    (h : splitNvr (joinNvr p.name version release) = (p.name, version, release)) :
    (release ≠ [] ∨ '-' ∉ p.name) ∧
      normalizeNvr (joinNvr p.name version release) = joinNvr p.name version release := by
  have hlen := (normalizeNvr_sublist (joinNvr p.name version release)).length_le
  rcases splitNvr_cases h hversion with hthree | ⟨rfl, hhyphen, htwo⟩
  · have hrelease : release ≠ [] := by
      -- three parts with an empty one at the end are longer than what was read
      rintro rfl
      rw [hthree, joinNvr, if_pos rfl] at hlen
      simp only [List.length_append, List.length_cons, List.length_nil] at hlen
      omega
    exact ⟨Or.inl hrelease, by rw [hthree, joinNvr, if_neg hrelease]⟩
  · exact ⟨Or.inr hhyphen, by rw [htwo, joinNvr, if_pos rfl]⟩

/-- **`nvr_splits_iff`** — for a spec whose name is that of a package and whose version and release have no
hyphen, taking apart what was read gives the three back exactly under the condition. -/
theorem nvr_splits_iff (p : PackageName) (hname : expandedName (specPreamble text) = p.name)
    (hversion : expandedVersion (specPreamble text) = version)
    (hrelease : expandedRelease (specPreamble text) = release) (hv : '-' ∉ version) (hr : '-' ∉ release) :
    splitNvr (readLocalSpecNvr (some text)) = (p.name, version, release) ↔
      NvrSplits p.name version release := by
  rw [readLocalSpecNvr_eq hname hversion hrelease]
  constructor
  · intro h
    have hne : version ≠ [] := by
      intro hnil
      rw [if_pos hnil, splitNvr_one (by decide)] at h
      exact p.nonempty (congrArg Prod.fst h).symm
    rw [if_neg hne] at h
    obtain ⟨htold, hsame⟩ := normalized_of_split hne h
    obtain ⟨hslash, hspace, hsuffix⟩ := (normalizeNvr_joinNvr_iff p hne).mp hsame
    exact ⟨hne, htold, hslash, hspace, hsuffix⟩
  · intro h
    have hsame := (normalizeNvr_joinNvr_iff p h.version_ne).mpr ⟨h.noSlash, h.noSpace, h.noSuffix⟩
    rw [if_neg h.version_ne]
    by_cases hnil : release = []
    · rcases h.told with hrelease | hhyphen
      · exact absurd hnil hrelease
      · rw [hnil] at hsame ⊢
        exact splitNvr_two (by rw [hsame, joinNvr, if_pos rfl]) hhyphen hv
    · exact splitNvr_three (by rw [hsame, joinNvr, if_neg hnil]) hv hr

end

/-! ## Examples -/

/-- A spec with macros in its fields. -/
def packagedSpec : Str :=
  ("%global mainver 2.5.1\nName: mypkg\nVersion: %{mainver}\nRelease: 3%\x7b?dist\x7d\n%description\nText\n").toList

theorem nvr_splits_packaged : letI := asciiTables
    splitNvr (readLocalSpecNvr (some packagedSpec)) = ("mypkg".toList, "2.5.1".toList, "3".toList) ↔
      NvrSplits "mypkg".toList "2.5.1".toList "3".toList := by
  let _ := asciiTables
  exact nvr_splits_iff ⟨"mypkg".toList, by decide, by decide⟩ (by decide +kernel) (by decide +kernel)
    (by decide +kernel) (by decide) (by decide)

/-- A spec without a release. -/
def releaselessSpec : Str := "Name: java-21-openjdk\nVersion: 21.0.12\n".toList

/-- The last part of a hyphenated name is taken for the version, and the version for the release. -/
theorem releaseless_split_wrong : letI := asciiTables
    ∃ p : PackageName, expandedName (specPreamble releaselessSpec) = p.name ∧
      expandedVersion (specPreamble releaselessSpec) = "21.0.12".toList ∧
      expandedRelease (specPreamble releaselessSpec) = [] ∧
      splitNvr (readLocalSpecNvr (some releaselessSpec)) =
        ("java-21".toList, "openjdk".toList, "21.0.12".toList) ∧
      splitNvr (readLocalSpecNvr (some releaselessSpec)) ≠ (p.name, "21.0.12".toList, []) := by
  let _ := asciiTables
  exact ⟨⟨"java-21-openjdk".toList, by decide, by decide⟩, by decide +kernel, by decide +kernel,
    by decide +kernel, by decide +kernel, by decide +kernel⟩

end HummingbirdRpms
