/-
# HummingbirdRpms.FixedRef — fixed-ref pipelines and the two checks that a spec still carries the pin.

A `source-pipeline.yaml` fetch step of type `git` whose `ref:` has no `${VERSION}` in it is a fixed
pin: the package's version does not move it.  When the spec names its extraction directory with a
custom `%setup -n`, the pin and the spec must be refreshed together, and two pieces of code check
that they were: `_fixed_ref_pipeline_drift` of `ci/dist_git.py`, which decides at update time whether
gorget has to run, and `test_git_fetch_fixed_ref_matches_spec`, which rejects the commit in CI.

The two differ in one place, the regular expression that finds the argument of a `-n` override.  Both
are transcribed here as patterns over `Lib.Regex`, one shape with two sets of parameters, and
**`custom_of_custom`** relates them: whenever the update-time pattern finds a custom override, so does
the CI pattern.  The converse fails, which is what `drift_agrees_iff` measures.
-/
import HummingbirdRpms.Runtime
import HummingbirdRpms.Lib.Regex

namespace HummingbirdRpms

open Lib Lib.Text Lib.Regex Lib.Exec

/-! ## The fixed pins of a pipeline -/

/-- The `ref:` of a git step that is not version-templated. -/
def fixedRefOf : Value → Except Exn (Option Value)
  | .dict step => do
      let ref := Value.entry "ref" step
      if (Value.entry "type" step).isStr "git" && ref.truthy then
        return if ← ref.contains "${VERSION}" then none else some ref
      else return none
  | _ => return none

/-- The fixed pins of a list of steps, in order. -/
def fixedRefsOf : List Value → Except Exn (List Value)
  | [] => .ok []
  | step :: steps => do
      let ref ← fixedRefOf step
      let refs ← fixedRefsOf steps
      return ref.toList ++ refs

/-- The body both `_fixed_pipeline_git_refs` and `_fixed_git_refs` have. -/
def fixedRefsIn (pipeline : Value) : Except Exn (List Value) := do
  fixedRefsOf (← (← pipeline.get "fetch").itemsOrEmpty)

/-- The refs whose short SHA (`_FIXED_REF_SHORT_SHA_LEN` characters) the text does not contain. -/
def missingRefs (specText : Str) : List Value → Except Exn (List Str)
  | [] => .ok []
  | ref :: refs => do
      let ref ← ref.asStr
      let missing ← missingRefs specText refs
      return if contains (ref.take 7) specText then missing else ref :: missing

section

variable [UnicodeTables]

/-! ## The patterns -/

/-- `%(?:auto)?setup\b` -/
def setupHead : Re :=
  Re.seq [.lit "%", Re.opt (.lit "auto"), .lit "setup", .wordB isWord]

/-- `(\S+)`, group 1 -/
def nArg : Re := .group 1 (Re.some1 fun c => !isSpace c)

/-- The shape both checks share: a `%setup`, a lazy gap of the given class, the `-n` flag, its
argument. -/
def setupN (gap : Char → Bool) (flag : Re) : Re :=
  .cat setupHead (.cat (.many false gap) (.cat flag nArg))

/-- `(?<![a-zA-Z])-[a-z]*n\s+` -/
def specSetupFlag : Re :=
  Re.seq [.notAfter isAsciiLetter, .lit "-", .many true isAsciiLower, .lit "n", Re.some1 isSpace]

/-- `_SPEC_SETUP_N_RE` of `ci/dist_git.py`:
`%(?:auto)?setup\b[^%\n]*?(?<![a-zA-Z])-[a-z]*n\s+(\S+)` -/
def specSetupNRe : Re := setupN (fun c => c != '%' && c != '\n') specSetupFlag

/-- `-\w*n\s*` -/
def setupFlag : Re :=
  Re.seq [.lit "-", .many true isWord, .lit "n", .many true isSpace]

/-- `_SETUP_N_RE` of the CI test: `%(?:auto)?setup\b.*?-\w*n\s*(\S+)` -/
def setupNRe : Re := setupN (fun c => c != '\n') setupFlag

/-- `_SPEC_CHANGELOG_RE` and `_CHANGELOG_RE`: `^%changelog\b` -/
def changelogRe : Re := Re.seq [.bol, .lit "%changelog", .wordB isWord]

/-- `_SPEC_DEFAULT_N_VALUES` and `_DEFAULT_N_VALUES` -/
def specDefaultNValues : List Str := ["%{name}-%{version}", "%{name}%{version}"]

/-- Some `%setup` of the text has a `-n` argument, found by `re`, that is not a default value. -/
def customOverride (re : Re) (specText : Str) : Bool :=
  (finditer re specText).any fun m => !specDefaultNValues.contains (m.group 1)

/-- What stands before the changelog section. -/
def beforeChangelog (specText : Str) : Str :=
  match search changelogRe specText with
  | some m => specText.take m.start
  | none => specText

/-! ## `ci/dist_git.py` -/

/-- `_fixed_pipeline_git_refs` -/
def fixedPipelineGitRefs (pipeline : Value) : Except Exn (List Value) := fixedRefsIn pipeline

/-- `_spec_has_custom_setup_override` -/
def specHasCustomSetupOverride (specText : Str) : Bool := customOverride specSetupNRe specText

/-- `_spec_text_before_changelog` -/
def specTextBeforeChangelog (specText : Str) : Str := beforeChangelog specText

/-- `_fixed_ref_pipeline_drift` -/
def fixedRefPipelineDrift (packageDir : Tree) (pipeline : Value) : Except Exn (List Str) := do
  let fixedRefs ← fixedPipelineGitRefs pipeline
  if fixedRefs.isEmpty then return []
  match packageDir.glob ".spec" with
  | [specFile] =>
      let specText := specTextBeforeChangelog (← readText packageDir specFile)
      if !specHasCustomSetupOverride specText then return []
      missingRefs specText fixedRefs
  | _ => return []

/-! ## `test/test_source_pipeline_git_archive_naming.py` -/

namespace Ci

/-- `_fixed_git_refs` -/
def fixedGitRefs (pipeline : Value) : Except Exn (List Value) := fixedRefsIn pipeline

/-- `_has_custom_setup_override` -/
def hasCustomSetupOverride (specText : Str) : Bool := customOverride setupNRe specText

/-- `_spec_path`: the first spec file in sorted order. -/
def specPath (packageDir : Tree) : Option Str :=
  ((packageDir.glob ".spec").mergeSort fun a b => decide (a ≤ b)).head?

/-- How the test ends: skipped, or run to its assertion with the refs found missing. -/
inductive Verdict where
  | skipped
  | compared (missing : List Str)
  deriving DecidableEq

/-- The test does not fail: it is skipped or asserts nothing missing. -/
def Verdict.passes : Verdict → Bool
  | .skipped => true
  | .compared missing => missing.isEmpty

/-- `test_git_fetch_fixed_ref_matches_spec` -/
def testGitFetchFixedRefMatchesSpec (packageDir : Tree) (pipeline : Value) :
    Except Exn Verdict := do
  let fixedRefs ← fixedGitRefs pipeline
  if fixedRefs.isEmpty then return .skipped
  match specPath packageDir with
  | none => return .skipped
  | some specFile =>
      let specText := beforeChangelog (← readText packageDir specFile)
      if !hasCustomSetupOverride specText then return .skipped
      return .compared (← missingRefs specText fixedRefs)

end Ci

end

/-! ## What a match of either pattern looks like -/

section Shape

variable {t : Str} {s e : St} {a a' b b' p p' q q' : Nat} {gap : Char → Bool} {flag : Re}

/-- `%setup` or `%autosetup` stands at `a` and ends before `b`. -/
def HeadAt (t : Str) (a b : Nat) : Prop :=
  ∃ w ∈ ["%autosetup".toList, "%setup".toList], w <+: t.drop a ∧ b = a + w.length

/-- A `-…n` flag starts at `p`, letters of `letter` before the `n`, and only white space, `n` or more
of it, stands between it and `q`. -/
def FlagAt (letter : Char → Bool) (n : Nat) (t : Str) (p q : Nat) : Prop :=
  ∃ r, p < r ∧ r + n < q ∧ t[p]? = some '-' ∧ (∀ j, p < j → j < r → inClass letter t[j]? = true) ∧
    t[r]? = some 'n' ∧ ∀ j, r < j → j < q → inClass isSpace t[j]? = true

/-- The argument of a flag may start at `q`. -/
def ArgAt (t : Str) (q : Nat) : Prop := inClass (fun c => !isSpace c) t[q]? = true

/-- The argument that starts at `q`. -/
def argAt (t : Str) (q : Nat) : Str := span t (fun c => !isSpace c) q

theorem mem_run_setupHead [UnicodeTables] (h : e ∈ run t setupHead s) :
    ∃ b, HeadAt t s.pos b ∧ e = ⟨b, s.caps⟩ := by
  simp only [setupHead, Re.seq, Re.opt, mem_run_cat, mem_run_alt, mem_run_lit, mem_run_wordB,
    mem_run_eps] at h
  obtain ⟨_, ⟨h₁, rfl⟩, m, h₂, _, ⟨h₃, rfl⟩, _, rfl⟩ := h
  rcases h₂ with ⟨h₂, rfl⟩ | rfl
  · exact ⟨_, ⟨_, by simp, prefix_drop_append (prefix_drop_append h₁ h₂) h₃, rfl⟩, rfl⟩
  · exact ⟨_, ⟨_, by simp, prefix_drop_append h₁ h₃, rfl⟩, rfl⟩

theorem HeadAt.start (h : HeadAt t a b) : t[a]? = some '%' := by
  obtain ⟨w, hw, hpre, rfl⟩ := h
  have hfirst : ∀ w ∈ ["%autosetup".toList, "%setup".toList], 0 < w.length ∧ w[0]? = some '%' := by
    decide
  have := getElem?_of_prefix_drop (i := 0) hpre (hfirst w hw).1
  rw [(hfirst w hw).2] at this
  exact this

theorem HeadAt.letter (h : HeadAt t a b) {j : Nat} (haj : a < j) (hjb : j < b) :
    inClass isAsciiLower t[j]? = true := by
  obtain ⟨w, hw, hpre, rfl⟩ := h
  have hrest : ∀ w ∈ ["%autosetup".toList, "%setup".toList], ∀ i < w.length, 0 < i →
      inClass isAsciiLower w[i]? = true := by decide
  have hj := getElem?_of_prefix_drop (i := j - a) hpre (by omega)
  rw [show a + (j - a) = j by omega] at hj
  rw [hj]
  exact hrest w hw _ (by omega) (by omega)

theorem HeadAt.two_le (h : HeadAt t a b) : a + 2 ≤ b := by
  obtain ⟨w, hw, _, rfl⟩ := h
  have hlen : ∀ w ∈ ["%autosetup".toList, "%setup".toList], 2 ≤ w.length := by decide
  have := hlen w hw
  omega

theorem HeadAt.unique (h : HeadAt t a b) (h' : HeadAt t a b') : b = b' := by
  obtain ⟨w, hw, hpre, rfl⟩ := h
  obtain ⟨w', hw', hpre', rfl⟩ := h'
  -- the second character tells the two words apart
  have hsnd : ∀ w ∈ ["%autosetup".toList, "%setup".toList],
      ∀ w' ∈ ["%autosetup".toList, "%setup".toList],
        1 < w.length ∧ (w[1]? = w'[1]? → w.length = w'.length) := by decide
  have h₁ := getElem?_of_prefix_drop (i := 1) hpre (hsnd w hw w' hw').1
  have h₂ := getElem?_of_prefix_drop (i := 1) hpre' (hsnd w' hw' w hw).1
  rw [(hsnd w hw w' hw').2 (h₁.symm.trans h₂)]

theorem mem_run_flag {letter : Char → Bool} {n : Nat} {tail : Re}
    (htail : ∀ s e, e ∈ run t tail s →
      ∃ k, n ≤ k ∧ k ≤ spanLen t isSpace s.pos ∧ e = { s with pos := s.pos + k })
    (h : e ∈ run t (Re.seq [.lit "-", .many true letter, .lit "n", tail]) s) :
    FlagAt letter n t s.pos e.pos ∧ e.caps = s.caps := by
  simp only [Re.seq, mem_run_cat, mem_run_lit, mem_run_many] at h
  obtain ⟨_, ⟨h₁, rfl⟩, _, ⟨k, hk, rfl⟩, _, ⟨h₂, rfl⟩, he⟩ := h
  obtain ⟨l, hnl, hl, rfl⟩ := htail _ _ he
  have hn := getElem?_of_prefix_drop (i := 0) h₂ (by decide)
  refine ⟨⟨s.pos + 1 + k, by omega, ?_, ?_, ?_, hn, ?_⟩, rfl⟩
  · show s.pos + 1 + k + n < s.pos + 1 + k + 1 + l
    omega
  · exact getElem?_of_prefix_drop (i := 0) h₁ (by decide)
  · intro j hj hjk
    have := spanLen_spec (show j - (s.pos + 1) < spanLen t letter (s.pos + 1) from
      lt_of_lt_of_le (by omega) hk)
    rwa [show s.pos + 1 + (j - (s.pos + 1)) = j by omega] at this
  · intro j hj hjl
    have := spanLen_spec (show j - (s.pos + 1 + k + 1) < spanLen t isSpace (s.pos + 1 + k + 1) from
      lt_of_lt_of_le (by simp at hjl; omega) hl)
    rwa [show s.pos + 1 + k + 1 + (j - (s.pos + 1 + k + 1)) = j by omega] at this

theorem mem_run_specSetupFlag (h : e ∈ run t specSetupFlag s) :
    FlagAt isAsciiLower 1 t s.pos e.pos ∧ e.caps = s.caps := by
  obtain ⟨m, hm, he⟩ := mem_run_cat.mp h
  obtain ⟨_, rfl⟩ := mem_run_notAfter.mp hm
  exact mem_run_flag (fun _ _ h => mem_run_some1.mp h) he

theorem argAt_getElem? {i : Nat} (h : i < (argAt t q).length) : t[q + i]? = (argAt t q)[i]? :=
  getElem?_of_prefix_drop span_prefix h

theorem head?_nArg (h : ArgAt t s.pos) :
    (run t nArg s).head? =
      some ⟨s.pos + (argAt t s.pos).length, (1, argAt t s.pos) :: s.caps⟩ := by
  rw [nArg, head?_group_some1]
  exact if_pos h

theorem argAt_of_head?_nArg (h : (run t nArg s).head? = some e) : ArgAt t s.pos := by
  rw [nArg, head?_group_some1] at h
  by_contra hn
  exact absurd h (by simp [show ¬ inClass (fun c => !isSpace c) t[s.pos]? = true from hn])

/-- Both patterns, taken apart: a head, a lazy gap that stops at the first place a flag with an
argument starts, and that argument in group 1. -/
theorem matchAt_setupN [UnicodeTables] {m : Match} (h : matchAt (setupN gap flag) t a = some m) :
    ∃ b p e, HeadAt t a b ∧ b ≤ p ∧ (∀ j, b ≤ j → j < p → inClass gap t[j]? = true) ∧
      e ∈ run t flag ⟨p, []⟩ ∧ ArgAt t e.pos ∧ m.caps = (1, argAt t e.pos) :: e.caps ∧
      m.stop = e.pos + (argAt t e.pos).length ∧
      ∀ j, b ≤ j → j < p → ∀ e' ∈ run t flag ⟨j, []⟩, ¬ ArgAt t e'.pos := by
  simp only [matchAt, Option.map_eq_some_iff] at h
  obtain ⟨f, hf, rfl⟩ := h
  rw [setupN, head?_cat] at hf
  obtain ⟨l₁, x, l₂, hl, hx, _⟩ := List.findSome?_eq_some_iff.mp hf
  obtain ⟨b, hb, rfl⟩ := mem_run_setupHead (show x ∈ run t setupHead ⟨a, []⟩ by simp [hl])
  obtain ⟨k, hk, hk', hmin⟩ := head?_cat_lazy hx
  rw [head?_cat] at hk'
  obtain ⟨l₃, e, l₄, hl', he, _⟩ := List.findSome?_eq_some_iff.mp hk'
  have harg := argAt_of_head?_nArg he
  obtain rfl := Option.some.inj ((head?_nArg harg).symm.trans he)
  refine ⟨b, b + k, e, hb, by omega, ?_, by simp [hl'], harg, rfl, rfl, ?_⟩
  · intro j hbj hjk
    have := spanLen_spec (show j - b < spanLen t gap b from lt_of_lt_of_le (by omega) hk)
    rwa [show b + (j - b) = j by omega] at this
  · intro j hbj hjk e' he' harg'
    have hnone := hmin (j - b) (by omega)
    simp only [show b + (j - b) = j by omega] at hnone
    rw [head?_cat, List.findSome?_eq_none_iff] at hnone
    have := hnone e' he'
    rw [head?_nArg harg'] at this
    exact absurd this (by simp)

/-! ## Which arguments are no default -/

/-- A default value has a `%` only in front of a `{`. -/
theorem percent_of_default {d : Str} (hd : d ∈ specDefaultNValues) :
    d[0]? = some '%' ∧ ∀ i < d.length, d[i]? = some '%' → d[i + 1]? = some '{' := by
  revert d
  decide

/-- An argument that does not start with a `%` is no default. -/
theorem not_default_of_ne_percent (h : t[q]? ≠ some '%') : argAt t q ∉ specDefaultNValues := by
  intro hd
  have hfirst := (percent_of_default hd).1
  have hlen : 0 < (argAt t q).length := (List.getElem?_eq_some_iff.mp hfirst).1
  exact h ((argAt_getElem? hlen).trans hfirst)

/-- An argument that runs over a `%setup` is no default. -/
theorem not_default_of_head (ha : HeadAt t a b) (hqa : q ≤ a) (haq : a < q + (argAt t q).length) :
    argAt t q ∉ specDefaultNValues := by
  intro hd
  have hi : a - q < (argAt t q).length := by omega
  have hpct : (argAt t q)[a - q]? = some '%' := by
    rw [← argAt_getElem? hi, Nat.add_sub_cancel' hqa]
    exact ha.start
  have hbrace := (percent_of_default hd).2 _ hi hpct
  have hi' : a - q + 1 < (argAt t q).length := (List.getElem?_eq_some_iff.mp hbrace).1
  have hnext : t[a + 1]? = some '{' := by
    rw [← hbrace, ← argAt_getElem? hi']
    congr 1
    omega
  have htwo := ha.two_le
  have hlow := ha.letter (Nat.lt_succ_self a) (by omega)
  rw [hnext] at hlow
  exact absurd hlow (by decide)

/-! ## The CI pattern finds what the update-time pattern finds -/

variable [UnicodeTables]

theorem ways_flag : Ways t specSetupFlag setupFlag :=
  Ways.drop_notAfter
    (.cat .refl (.cat (.many fun _ => isWord_of_isAsciiLower) (.cat .refl .many_of_some1)))

/-- Wherever the update-time pattern matches, the CI pattern does. -/
theorem ways_setupN : Ways t specSetupNRe setupNRe :=
  .cat .refl (.cat (.many fun c h => by simp_all) (.cat ways_flag .refl))

theorem mem_run_setupFlag (h : e ∈ run t setupFlag s) :
    FlagAt isWord 0 t s.pos e.pos ∧ e.caps = s.caps :=
  mem_run_flag (fun _ _ h => by
    obtain ⟨k, hk, he⟩ := mem_run_many.mp h
    exact ⟨k, Nat.zero_le k, hk, he⟩) h

/-- A flag of the CI pattern no later than one of the update-time pattern, nothing but the gap
between them: its argument is the same one, or does not start with a `%`. -/
theorem arg_eq_or_ne_percent (hspec : FlagAt isAsciiLower 1 t p q) (hq : ArgAt t q)
    (hci : FlagAt isWord 0 t p' q') (hq' : ArgAt t q') (hle : p' ≤ p)
    (hgap : ∀ j, p' ≤ j → j < p → t[j]? ≠ some '%') : q' = q ∨ t[q']? ≠ some '%' := by
  obtain ⟨r, hpr, hrq, hp, hlow, hr, hsp⟩ := hspec
  obtain ⟨r', hpr', hrq', hp', hword, hr', hsp'⟩ := hci
  have hns : ∀ {j}, inClass isSpace t[j]? = true → ¬ ArgAt t j := by
    intro j h h'
    obtain ⟨c, hc, hcs⟩ := inClass_iff.mp h
    obtain ⟨d, hd, hds⟩ := inClass_iff.mp h'
    obtain rfl := Option.some.inj (hc.symm.trans hd)
    simp [hcs] at hds
  rcases Nat.lt_trichotomy q' q with hlt | heq | hgt
  · right
    have hq'r : q' ≤ r := by
      by_contra hgt
      exact hns (hsp q' (by omega) hlt) hq'
    rcases Nat.lt_trichotomy q' p with h | h | h
    · exact hgap q' (by omega) h
    · rw [h, hp]
      decide
    · rcases Nat.lt_or_eq_of_le hq'r with h' | h'
      · obtain ⟨c, hc, hcl⟩ := inClass_iff.mp (hlow q' h h')
        rw [hc]
        rintro ⟨⟩
        exact absurd hcl (by decide)
      · rw [h', hr]
        decide
  · exact Or.inl heq
  · -- the space before `q` would be one of the word characters of the other flag
    exfalso
    have hqr' : q ≤ r' := by
      by_contra hgt'
      exact hns (hsp' q (by omega) hgt) hq
    obtain ⟨c, hc, hcs⟩ := inClass_iff.mp (hsp (q - 1) (by omega) (by omega))
    obtain ⟨d, hd, hdw⟩ := inClass_iff.mp (hword (q - 1) (by omega) (by omega))
    obtain rfl := Option.some.inj (hc.symm.trans hd)
    rw [isWord_of_isSpace hcs] at hdw
    exact absurd hdw (by simp)

/-- A `%setup` that starts inside a CI match, before its argument, lies in the match's gap. -/
theorem head_in_gap (hhead : HeadAt t a' b') (hci : FlagAt isWord 0 t p' q') (hx : HeadAt t a b)
    (ha : a' < a) (haq : a < q') : b' ≤ a ∧ b ≤ p' := by
  obtain ⟨r, hpr, hrq, hp, hword, hr, hsp⟩ := hci
  have hpct := hx.start
  have hclass : ∀ {c : Char → Bool}, c '%' = false → ¬ inClass c t[a]? = true := by
    intro c hc h
    rw [hpct] at h
    simp [inClass, hc] at h
  have hba : b' ≤ a := by
    by_contra hlt
    exact hclass (by decide) (hhead.letter ha (by omega))
  have hap : a < p' := by
    by_contra hge
    rcases Nat.lt_trichotomy a r with h | h | h
    · rcases Nat.lt_or_eq_of_le (Nat.le_of_not_lt hge) with h' | h'
      · exact hclass rfl (hword a h' h)
      · exact absurd (hp.symm.trans (h' ▸ hpct)) (by decide)
    · exact absurd (hr.symm.trans (h ▸ hpct)) (by decide)
    · exact hclass (by decide) (hsp a h haq)
  refine ⟨hba, ?_⟩
  by_contra hlt
  have hlow := hx.letter hap (by omega)
  rw [hp] at hlow
  exact absurd hlow (by decide)

/-- **`custom_of_custom`** — a `-n` override that the update-time check finds is one that CI finds. -/
theorem custom_of_custom (h : specHasCustomSetupOverride t = true) :
    Ci.hasCustomSetupOverride t = true := by
  simp only [specHasCustomSetupOverride, Ci.hasCustomSetupOverride, customOverride, List.any_eq_true,
    Bool.not_eq_true', List.contains_eq_mem, decide_eq_false_iff_not] at h ⊢
  obtain ⟨m, hm, hcustom⟩ := h
  have hmatch := matchAt_of_mem_finditer hm
  obtain ⟨b, p, e, hb, hbp, hgap, he, harg, hcaps, -, -⟩ := matchAt_setupN hmatch
  have hlen : m.start ≤ t.length := le_of_lt (List.getElem?_eq_some_iff.mp hb.start).1
  -- the CI pattern matches at the same place, so one of its reported matches covers it
  obtain ⟨m', hm', hle, hcover⟩ := finditer_covers hlen (ways_setupN.matchAt_isSome hmatch)
  obtain ⟨b', p', e', hb', hbp', -, he', harg', hcaps', hstop', hmin'⟩ :=
    matchAt_setupN (matchAt_of_mem_finditer hm')
  refine ⟨m', hm', ?_⟩
  have hgroup : m.group 1 = argAt t e.pos := by simp [Match.group, hcaps]
  have hgroup' : m'.group 1 = argAt t e'.pos := by simp [Match.group, hcaps']
  rw [hgroup] at hcustom
  rw [hgroup']
  have hflag' := (mem_run_setupFlag he').1
  have hsame : b' ≤ b → b ≤ p' → argAt t e'.pos ∉ specDefaultNValues := by
    intro hbb hbp''
    have hpp : p' ≤ p := by
      by_contra hlt
      exact hmin' p (by omega) (by omega) e (ways_flag _ _ he) harg
    have hpct : ∀ j, p' ≤ j → j < p → t[j]? ≠ some '%' := by
      intro j hj hjp heq
      have := hgap j (by omega) hjp
      rw [heq] at this
      exact absurd this (by decide)
    rcases arg_eq_or_ne_percent (mem_run_specSetupFlag he).1 harg hflag' harg' hpp hpct with h | h
    · rwa [h]
    · exact not_default_of_ne_percent h
  rcases Nat.lt_or_eq_of_le hle with hlt | heq
  · rcases Nat.lt_or_ge m.start e'.pos with hbefore | hafter
    · obtain ⟨hba, hbp''⟩ := head_in_gap hb' hflag' hb hlt hbefore
      exact hsame (hba.trans (by have := hb.two_le; omega)) hbp''
    · have hin : m.start < m'.stop := hcover.resolve_left (by omega)
      exact not_default_of_head hb hafter (hstop' ▸ hin)
  · rw [heq] at hb'
    obtain rfl := hb.unique hb'
    exact hsame (Nat.le_refl b) hbp'

end Shape

/-! ## Where the two checks agree -/

/-- Every pin is a string whose short SHA the text contains. -/
def PinsIn (refs : List Value) (text : Str) : Prop :=
  ∀ ref ∈ refs, ∃ r, ref = .str r ∧ contains (r.take 7) text = true

theorem missingRefs_eq_nil {text : Str} {refs : List Value} :
    missingRefs text refs = .ok [] ↔ PinsIn refs text := by
  induction refs with
  | nil => simp [missingRefs, PinsIn]
  | cons ref refs ih =>
      have hcons : PinsIn (ref :: refs) text ↔
          (∃ r, ref = .str r ∧ contains (r.take 7) text = true) ∧ PinsIn refs text := by
        simp [PinsIn]
      rw [hcons, ← ih]
      simp only [missingRefs, except_bind_ok_iff, except_pure]
      constructor
      · rintro ⟨r, hr, missing, hm, hif⟩
        obtain rfl := Value.asStr_ok hr
        by_cases hin : contains (List.take 7 r) text = true
        · rw [if_pos hin] at hif
          exact ⟨⟨r, rfl, hin⟩, hm.trans hif⟩
        · rw [if_neg hin] at hif
          exact absurd hif (by simp)
      · rintro ⟨⟨r, rfl, hin⟩, hm⟩
        exact ⟨r, rfl, [], hm, by rw [if_pos hin]⟩

section Agreement

variable {packageDir : Tree} {pipeline : Value} {specFile : Str}

theorem Ci.specPath_of_single (hone : packageDir.glob ".spec" = [specFile]) :
    Ci.specPath packageDir = some specFile := by
  rw [Ci.specPath, hone, List.mergeSort_singleton, List.head?_cons]

variable [UnicodeTables]

/-- CI lets the package through: the test is skipped, or finds no pin missing. -/
def Ci.Accepts (packageDir : Tree) (pipeline : Value) : Prop :=
  ∃ v, Ci.testGitFetchFixedRefMatchesSpec packageDir pipeline = .ok v ∧ v.passes = true

section Read

variable {refs : List Value} {s : Str}

theorem drift_eq_nil_iff (hone : packageDir.glob ".spec" = [specFile])
    (hrefs : fixedRefsIn pipeline = .ok refs) (hs : readText packageDir specFile = .ok s) :
    fixedRefPipelineDrift packageDir pipeline = .ok [] ↔
      (specHasCustomSetupOverride (beforeChangelog s) = true → PinsIn refs (beforeChangelog s)) := by
  unfold fixedRefPipelineDrift fixedPipelineGitRefs
  rw [hrefs, except_bind_ok, hone]
  cases refs with
  | nil => simp [PinsIn]
  | cons ref refs =>
      cases hcustom : specHasCustomSetupOverride (beforeChangelog s) with
      | false => simp [hs, specTextBeforeChangelog, hcustom]
      | true => simp [hs, specTextBeforeChangelog, hcustom, missingRefs_eq_nil]

theorem Ci.accepts_iff (hone : packageDir.glob ".spec" = [specFile])
    (hrefs : fixedRefsIn pipeline = .ok refs) (hs : readText packageDir specFile = .ok s) :
    Ci.Accepts packageDir pipeline ↔
      (Ci.hasCustomSetupOverride (beforeChangelog s) = true → PinsIn refs (beforeChangelog s)) := by
  unfold Ci.Accepts Ci.testGitFetchFixedRefMatchesSpec Ci.fixedGitRefs
  rw [hrefs, except_bind_ok, Ci.specPath_of_single hone]
  cases refs with
  | nil => simp [PinsIn, Ci.Verdict.passes]
  | cons ref refs =>
      cases hcustom : Ci.hasCustomSetupOverride (beforeChangelog s) with
      | false => simp [hs, hcustom, Ci.Verdict.passes]
      | true =>
          rw [← missingRefs_eq_nil]
          cases hm : missingRefs (beforeChangelog s) (ref :: refs) with
          | error e => simp [hs, hcustom, hm]
          | ok missing => simp [hs, hcustom, hm, Ci.Verdict.passes, List.isEmpty_iff]

/-- A package that CI accepts is in sync at update time. -/
theorem drift_of_accepts (hone : packageDir.glob ".spec" = [specFile])
    (hrefs : fixedRefsIn pipeline = .ok refs) (hs : readText packageDir specFile = .ok s)
    (h : Ci.Accepts packageDir pipeline) : fixedRefPipelineDrift packageDir pipeline = .ok [] :=
  (drift_eq_nil_iff hone hrefs hs).mpr fun hcustom =>
    (Ci.accepts_iff hone hrefs hs).mp h (custom_of_custom hcustom)

end Read

/-- Where a pin list or a spec cannot be read, both checks raise unless there is no pin. -/
theorem checks_agree_of_error (hone : packageDir.glob ".spec" = [specFile])
    (herr : ∀ refs s, fixedRefsIn pipeline = .ok refs → readText packageDir specFile ≠ .ok s) :
    fixedRefPipelineDrift packageDir pipeline = .ok [] ↔ Ci.Accepts packageDir pipeline := by
  unfold fixedRefPipelineDrift fixedPipelineGitRefs Ci.Accepts
    Ci.testGitFetchFixedRefMatchesSpec Ci.fixedGitRefs
  rw [hone, Ci.specPath_of_single hone]
  cases hrefs : fixedRefsIn pipeline with
  | error e => simp
  | ok refs =>
      cases hread : readText packageDir specFile with
      | ok s => exact absurd hread (herr refs s hrefs)
      | error e =>
          cases refs with
          | nil => simp [Ci.Verdict.passes]
          | cons ref refs => simp [hread]

end Agreement

/-- The pipeline with one git step pinned to `ref`. -/
def pinnedTo (ref : Str) : Value :=
  .dict [("fetch", .list [.dict [("type", .str "git"), ("ref", .str ref)]])]

end HummingbirdRpms
