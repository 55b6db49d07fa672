/-
# HummingbirdRpms.ReleaseBumpers — the two release bumpers, `apply_release_bump` of
`.cursor/skills/cve/lib/spec.py` and `rebuild_package` of `ci/dist_git.py`.

The `bump_release` of the helper is that of `dist_git.py`.  What differs is what it is called with, and where
the result goes.  The helper bumps the text before the dist macro, against the release of the metadata, and
writes the first `Release` line anew.  A rebuild bumps what rpm prints, against the release of the metadata only
where the package has a Fedora source, and rewrites the lines that it finds with a dist macro.

**`bumpers_agree_iff`** — after the two, the first `Release` line has one release exactly if it is one that both
find, has no percent sign before its dist macro, and what the two bump is the same rebuild of the same base.
-/
import HummingbirdRpms.CveReleaseBump

namespace HummingbirdRpms.ReleaseBumpers

open Lib Lib.Text Lib.Regex Lib.Exec
open Value (entry)
open CveReleaseBump

/-! ## What the two work on -/

/-- The spec file of a package, in its directory. -/
def specName (package : Str) : Path := package ++ ".spec".toList

section

variable [UnicodeTables]

/-- The spec and the metadata of a package are the same for both. -/
structure SamePackage (loads : Str → Except Str Value) (c : CveReleaseBump.Checkout) (w : World)
    (package text : Str) (metadata : PackageMetadata) : Prop where
  spec : c.spec package = some text
  specs : (w.packageDir package).glob ".spec" = [specName package]
  content : readText (w.packageDir package) (specName package) = .ok text
  recorded : w.metadata package = some metadata
  release : ∀ data, readPackageMetadata loads c package = .ok data →
    entry "release" data = (metadata.release.map Value.str).getD .none

/-- What rpm prints for a spec that it takes: an empty tag is an error, and the release is expanded, with no
white space around it. -/
structure RpmPrints (text release : Str) : Prop where
  filled : ∀ front line rest, ReleaseLine text front line rest → fieldValue line ≠ []
  expanded : '%' ∉ release
  solid : Solid release

/-- The release of a spec, as the helper reads it off the first `Release` line. -/
def specRelease (text : Str) : Option Str :=
  (search (specFieldRe "release") text).map fun m => releaseBeforeDist (strip (m.group 1))

/-- A release as a bump sees it: what it is a rebuild of, and how often that has been rebuilt. -/
inductive RebuildOf (upstream : Option Str) (release : Str) : Str → Nat → Prop
  | first : (given upstream = some release ∨ ∀ base number, base ≠ [] → ¬ NumberSuffixed release base number) →
      RebuildOf upstream release release 0
  | later {base number : Str} : given upstream ≠ some release → base ≠ [] → NumberSuffixed release base number →
      RebuildOf upstream release base (intOfDigits number)

/-- The first `Release` line of a text is one that both find, and before its dist macro there is no percent
sign. -/
structure CommonRelease (text front space release dist after rest : Str) : Prop where
  line : ReleaseLine text front (releaseTag ++ (space ++ (release ++ (dist ++ after)))) rest
  space_ne : space ≠ []
  space_all : ∀ c ∈ space, isSpace c = true
  plain : '%' ∉ release
  dist : dist ∈ distSpellings
  last : splitLastDist after = none

/-- The condition: such a line, whose release is the same rebuild for the helper as the one that rpm prints is
for `rebuild_package`. -/
def SameRebuild (text printed : Str) (metadata : PackageMetadata) : Prop :=
  ∃ front space release dist after rest, CommonRelease text front space release dist after rest ∧
    ∃ base number, RebuildOf metadata.release (strip release) base number ∧
      RebuildOf (baseRelease metadata) printed base number

end

/-! ## Bumps -/

section

variable [UnicodeTables] {release release' : Str} {upstream upstream' : Option Str} {base : Str} {number : Nat}

/-- A bump writes the number of the next rebuild behind the base. -/
theorem RebuildOf.bump (h : RebuildOf upstream release base number) (hline : '\n' ∉ release) :
    bumpRelease release upstream = base ++ ".".toList ++ ofNat (number + 1) := by
  cases h with
  | first hcase =>
      rcases bumpRelease_cases hline upstream with ⟨-, hbump⟩ | ⟨hupstream, base', number', hbase', h', -⟩
      · rw [hbump, List.append_assoc]
        rfl
      · rcases hcase with hsame | hplain
        · exact absurd hsame hupstream
        · exact absurd h' (hplain base' number' hbase')
  | later hupstream hbase hnumber =>
      rcases bumpRelease_cases hline upstream with ⟨hcase, -⟩ | ⟨-, base', number', -, h', hbump⟩
      · rcases hcase with hsame | hplain
        · exact absurd hsame hupstream
        · exact absurd hnumber (hplain _ _ hbase)
      · obtain ⟨rfl, rfl⟩ := hnumber.unique h'
        exact hbump

theorem exists_rebuildOf (release : Str) (upstream : Option Str) :
    ∃ base number, RebuildOf upstream release base number := by
  by_cases hupstream : given upstream = some release
  · exact ⟨release, 0, .first (Or.inl hupstream)⟩
  · by_cases hnumbered : ∃ base number, base ≠ [] ∧ NumberSuffixed release base number
    · obtain ⟨base, number, hbase, hnumber⟩ := hnumbered
      exact ⟨base, intOfDigits number, .later hupstream hbase hnumber⟩
    · refine ⟨release, 0, .first (Or.inr ?_)⟩
      intro base number hbase h
      exact hnumbered ⟨base, number, hbase, h⟩

/-- **`bumpRelease_eq_iff`** — two releases are bumped to one exactly if they are the same rebuild of the same
base. -/
theorem bumpRelease_eq_iff (hline : '\n' ∉ release) (hline' : '\n' ∉ release') :
    bumpRelease release upstream = bumpRelease release' upstream' ↔
      ∃ base number, RebuildOf upstream release base number ∧ RebuildOf upstream' release' base number := by
  constructor
  · intro heq
    obtain ⟨base, number, h⟩ := exists_rebuildOf release upstream
    obtain ⟨base', number', h'⟩ := exists_rebuildOf release' upstream'
    rw [h.bump hline, h'.bump hline'] at heq
    have hnumber := numberSuffixed_ofNat base (number + 1)
    rw [heq] at hnumber
    obtain ⟨rfl, hdigits⟩ := hnumber.unique (numberSuffixed_ofNat base' (number' + 1))
    have hvalue := congrArg intOfDigits hdigits
    rw [intOfDigits_ofNat, intOfDigits_ofNat] at hvalue
    obtain rfl : number = number' := by omega
    exact ⟨base, number, h, h'⟩
  · rintro ⟨base, number, h, h'⟩
    rw [h.bump hline, h'.bump hline']

/-- An empty upstream release is none. -/
theorem bumpRelease_given : bumpRelease release (given upstream) = bumpRelease release upstream := by
  have hgiven : given (given upstream) = given upstream := by
    rw [given, given, Option.filter_filter]
    simp
  rw [bumpRelease, hgiven, bumpRelease]

/-- One release is the same rebuild for both unless it ends in a number and is the upstream one of one of them
alone. -/
theorem sameRebuild_self (hline : '\n' ∉ release) :
    (∃ base number, RebuildOf upstream release base number ∧ RebuildOf upstream' release base number) ↔
      ((given upstream = some release ↔ given upstream' = some release) ∨
        ∀ base number, base ≠ [] → ¬ NumberSuffixed release base number) := by
  rw [← bumpRelease_eq_iff hline hline]
  unfold bumpRelease
  by_cases hplain : ∀ base number, base ≠ [] → ¬ NumberSuffixed release base number
  · rw [bumpSuffix_plain hline hplain, ite_self, ite_self]
    exact iff_of_true rfl (Or.inr hplain)
  · have hne : release ++ ".1".toList ≠ bumpSuffix numberSuffixRe release := by
      simp only [not_forall, not_not] at hplain
      obtain ⟨base, number, hbase, hnumber⟩ := hplain
      have hone : '\n' ∉ base := by
        intro hmem
        rw [hnumber.eq] at hline
        exact hline (List.mem_append_left _ hmem)
      rw [bumpSuffix_number hnumber hone hbase]
      intro heq
      -- the one counts from the release, the other from its base
      have hfirst := numberSuffixed_one release
      rw [heq] at hfirst
      have hbases := (hfirst.unique (numberSuffixed_ofNat base (intOfDigits number + 1))).1
      have hlen := hnumber.length
      rw [hbases] at hlen
      omega
    by_cases h : given upstream = some release
    · by_cases h' : given upstream' = some release
      · rw [if_pos h, if_pos h']
        exact iff_of_true rfl (Or.inl (iff_of_true h h'))
      · rw [if_pos h, if_neg h']
        exact iff_of_false hne (not_or.mpr ⟨fun hiff => h' (hiff.mp h), hplain⟩)
    · by_cases h' : given upstream' = some release
      · rw [if_neg h, if_pos h']
        exact iff_of_false hne.symm (not_or.mpr ⟨fun hiff => h (hiff.mpr h'), hplain⟩)
      · rw [if_neg h, if_neg h']
        exact iff_of_true rfl (Or.inl (iff_of_false h h'))

end

/-! ## What follows a release in text -/

section

variable [UnicodeTables]

/-- A text with a first number suffix, or with another one. -/
inductive Follows (release : Str) : Str → Prop
  | first : Follows release (release ++ ".1".toList)
  | next {base number : Str} (n : Nat) : NumberSuffixed release base number →
      Follows release (base ++ ".".toList ++ ofNat n)

variable {release next base number : Str} {a : Char} {n : Nat}

theorem follows_bumpRelease (hline : '\n' ∉ release) (upstream : Option Str) :
    Follows release (bumpRelease release upstream) := by
  rcases bumpRelease_cases hline upstream with ⟨-, hbump⟩ | ⟨-, base, number, -, hnumber, hbump⟩
  · rw [hbump]
    exact .first
  · rw [hbump]
    exact .next _ hnumber

theorem follows_of_nextSuffix (h : NextSuffix release next) : Follows release next := by
  rcases h with ⟨base, number, hnumber, rfl⟩ | ⟨-, rfl⟩
  · exact .next _ hnumber
  · exact .first

theorem bumpRelease_ne (hline : '\n' ∉ release) (upstream : Option Str) : bumpRelease release upstream ≠ release := by
  rcases bumpRelease_cases hline upstream with ⟨-, hbump⟩ | ⟨-, base, number, -, hnumber, hbump⟩
  · rw [hbump]
    intro heq
    have hone := List.append_right_eq_self.mp heq
    exact absurd hone (by decide)
  · rw [hbump]
    exact NextSuffix.ne (Or.inl ⟨base, number, hnumber, rfl⟩)

theorem isDigit_percent : isDigit '%' = false := isDigit_of_lt (by decide)

/-- What is no digit and no dot stays. -/
theorem Follows.count_eq (h : Follows release next) (hdigit : isDigit a = false) (hdot : a ≠ '.') :
    next.count a = release.count a := by
  have hno : ∀ {number : Str}, (∀ c ∈ number, isDigit c = true) → number.count a = 0 := by
    intro number hdigits
    refine List.count_eq_zero.mpr fun hmem => ?_
    rw [hdigits a hmem] at hdigit
    cases hdigit
  have hsign : ".".toList.count a = 0 := List.count_eq_zero.mpr fun hmem => hdot (List.mem_singleton.mp hmem)
  cases h with
  | first =>
      have hone := numberSuffixed_one release
      rw [hone.eq, List.count_append, show '.' :: "1".toList = ".".toList ++ "1".toList from rfl,
        List.count_append, hsign, hno hone.digits]
      omega
  | @next base number n hnumber =>
      have hnew : (ofNat n).count a = 0 := hno (numberSuffixed_ofNat base n).digits
      rw [hnumber.eq, show base ++ '.' :: number = base ++ ".".toList ++ number by simp]
      simp only [List.count_append, hnew, hno hnumber.digits]

theorem Follows.head_eq (h : Follows release next) (hne : release ≠ []) : next.head? = release.head? := by
  cases h with
  | first => rw [List.head?_append_of_ne_nil _ hne]
  | @next base number n hnumber =>
      rw [hnumber.eq]
      cases base with
      | nil => rfl
      | cons c base => rfl

end

/-! ## The last dist macro -/

section

variable {s rest line before dist after release d : Str}

/-- A character that does not go on with a dist macro ends what comes before it. -/
theorem distPrefix_append_stop (hs : s ≠ []) (hrest : ∀ c ∈ rest.head?, c ∉ "\x7b?dist\x7d".toList) :
    distPrefix (s ++ rest) = distPrefix s := by
  have hiff : ∀ d ∈ distSpellings, d.isPrefixOf (s ++ rest) = d.isPrefixOf s := by
    intro d hd
    rw [Bool.eq_iff_iff, List.isPrefixOf_iff_prefix, List.isPrefixOf_iff_prefix]
    constructor
    · intro h
      rcases List.prefix_or_prefix_of_prefix h (List.prefix_append s rest) with hd' | ⟨w, hw⟩
      · exact hd'
      · -- the macro would go on past the end of the text
        rw [← hw] at h
        have hmore : w <+: rest := (List.prefix_append_right_inj s).mp h
        cases w with
        | nil =>
            rw [← hw, List.append_nil]
        | cons c w =>
            obtain ⟨u, hu⟩ := hmore
            have hhead : c ∈ rest.head? := by rw [← hu]; rfl
            obtain ⟨b, s', rfl⟩ := List.exists_cons_of_ne_nil hs
            refine absurd ?_ (hrest c hhead)
            simp only [distSpellings, List.mem_cons, List.not_mem_nil, or_false] at hd
            have hmem : c ∈ s' ++ c :: w := List.mem_append_right _ List.mem_cons_self
            rw [List.cons_append] at hw
            rcases hd with rfl | rfl
            · rw [(List.cons.inj hw).2] at hmem
              exact hmem
            · have hname : ∀ a ∈ "\x7bdist\x7d".toList, a ∈ "\x7b?dist\x7d".toList := by decide
              rw [(List.cons.inj hw).2] at hmem
              exact hname c hmem
    · intro h
      exact h.trans (List.prefix_append _ _)
  rw [distPrefix, distPrefix, distSpellings, List.find?_cons, List.find?_cons, List.find?_cons,
    List.find?_cons, hiff _ (by simp [distSpellings]), hiff _ (by simp [distSpellings])]
  rfl

/-- What comes behind a text without making a dist macro with it or of its own goes to what follows the last
one. -/
theorem splitLastDist_append_stop (hrest : ∀ c ∈ rest.head?, c ∉ "\x7b?dist\x7d".toList)
    (hnone : splitLastDist rest = none) :
    splitLastDist (s ++ rest) = (splitLastDist s).map fun cut => (cut.1, cut.2.1, cut.2.2 ++ rest) := by
  induction s with
  | nil => rw [List.nil_append, hnone, splitLastDist, Option.map_none]
  | cons c s ih =>
      rw [List.cons_append, splitLastDist, ih, splitLastDist, ← List.cons_append,
        distPrefix_append_stop (List.cons_ne_nil c s) hrest]
      cases splitLastDist s with
      | some cut => rfl
      | none =>
          cases hd : distPrefix (c :: s) with
          | none => rfl
          | some d =>
              have hle := (distPrefix_some hd).2.length_le
              show some (([] : Str), d, (c :: s ++ rest).drop d.length) =
                some ([], d, (c :: s).drop d.length ++ rest)
              rw [List.drop_append_of_le_length hle]

theorem splitLastDist_of_not_mem (h : '%' ∉ s) : splitLastDist s = none := by
  have happend := splitLastDist_append (v := []) h
  rwa [List.append_nil] at happend

/-- No dist macro follows the last one. -/
theorem splitLastDist_after (h : splitLastDist line = some (before, dist, after)) : splitLastDist after = none := by
  cases hcut : splitLastDist after with
  | none => rfl
  | some cut =>
      obtain ⟨b, d, a⟩ := cut
      have hat := (splitLastDist_some h).1
      have hlater := splitLastDist_append_some (u := before ++ dist) hcut
      rw [← hat.eq, h] at hlater
      have hsame : before = before ++ dist ++ b := congrArg Prod.fst (Option.some.inj hlater)
      have hlen := congrArg List.length hsame
      have hpos := distPrefix_length hat.dist
      simp only [List.length_append] at hlen
      omega

theorem splitLastDist_dist (hd : d ∈ distSpellings) (hafter : splitLastDist after = none) :
    splitLastDist (d ++ after) = some ([], d, after) := by
  have hdist := distPrefix_append (s := after) hd
  obtain ⟨w, rfl⟩ := List.head?_eq_some_iff.mp (distSpellings_head hd)
  have hw : '%' ∉ w := by
    simp only [distSpellings, List.mem_cons, List.not_mem_nil, or_false] at hd
    rcases hd with h | h
    all_goals
      obtain rfl := (List.cons.inj h).2
      decide
  rw [List.cons_append, splitLastDist, splitLastDist_append hw, hafter, Option.map_none]
  rw [List.cons_append] at hdist
  dsimp only
  rw [hdist, Option.map_some, ← List.cons_append, List.drop_left]

theorem beforeDist_dist (hd : d ∈ distSpellings) (hafter : splitLastDist after = none) :
    beforeDist (release ++ (d ++ after)) = release := by
  rw [beforeDist, splitLastDist_append_some (splitLastDist_dist hd hafter), List.append_nil]

end

/-! ## Reading a release -/

section

variable [UnicodeTables] {text front tag gap line rest s trail before dist after : Str} {a : Char}

omit [UnicodeTables] in
theorem splitLastDist_trail (htrail : ∀ c ∈ trail, isSpace c = true) :
    splitLastDist (s ++ trail) = (splitLastDist s).map fun cut => (cut.1, cut.2.1, cut.2.2 ++ trail) := by
  apply splitLastDist_append_stop
  · intro c hc hmem
    have hnone : ∀ a ∈ "\x7b?dist\x7d".toList, isSpace a = false := by decide
    have hspace := htrail c (List.mem_of_mem_head? hc)
    rw [hnone c hmem] at hspace
    cases hspace
  · apply splitLastDist_of_not_mem
    intro hmem
    exact absurd (htrail _ hmem) (by decide)

omit [UnicodeTables] in
/-- White space at the end of a value does not matter. -/
theorem strip_beforeDist_strip (hhead : ∃ c ∈ line.head?, isSpace c = false) :
    strip (beforeDist (strip line)) = strip (beforeDist line) := by
  obtain ⟨trail, hline, -, htrail⟩ := exists_trail hhead
  have hcut := splitLastDist_trail (s := strip line) htrail
  rw [← hline] at hcut
  unfold beforeDist
  rw [hcut]
  cases splitLastDist (strip line) with
  | some cut => rfl
  | none => exact strip_strip line

omit [UnicodeTables] in
/-- The release of a text is read off its first field. -/
theorem specRelease_field (h : Field text front tag gap line rest) :
    specRelease text = some (strip (beforeDist line)) := by
  have hone : '\n' ∉ strip line := fun hmem => h.one ((strip_sublist line).subset hmem)
  rw [specRelease, h.search_field]
  show some (releaseBeforeDist (strip line)) = _
  rw [releaseBeforeDist_eq hone (strip_strip line), strip_beforeDist_strip h.head]

omit [UnicodeTables] in
theorem count_strip (ha : isSpace a = false) : (strip s).count a = s.count a := by
  have hno : ∀ {u : Str}, (∀ c ∈ u, isSpace c = true) → u.count a = 0 := by
    intro u hspaces
    refine List.count_eq_zero.mpr fun hmem => ?_
    rw [hspaces a hmem] at ha
    cases ha
  have hleft : (lstripBy isSpace s).count a = s.count a := by
    have hcut : s.takeWhile isSpace ++ lstripBy isSpace s = s := List.takeWhile_append_dropWhile
    rw [← congrArg (List.count a) hcut, List.count_append, hno fun c hc => List.mem_takeWhile_imp hc, Nat.zero_add]
  have hcut : strip s ++ (lstripBy isSpace s).rtakeWhile isSpace = lstripBy isSpace s :=
    List.rdropWhile_append_rtakeWhile ..
  rw [← hleft, ← congrArg (List.count a) hcut, List.count_append,
    hno fun c hc => List.mem_rtakeWhile_imp hc, Nat.add_zero]

omit [UnicodeTables] in
/-- The white space after a tag is not part of the release. -/
theorem strip_append_left (hgap : ∀ c ∈ gap, isSpace c = true) : strip (gap ++ s) = strip s := by
  rw [strip, strip, lstripBy, lstripBy, List.dropWhile_append_of_pos hgap]

end

/-! ## The helper -/

section

variable [UnicodeTables] {text new p front tag gap s₁ s₂ trail rest trail' : Str} {upstream : Option Str}

theorem newline_not_mem_read (h : Bumped text new p front tag gap s₁ s₂ trail rest trail') :
    '\n' ∉ strip (beforeDist (s₁ ++ s₂)) := by
  intro hmem
  refine h.field.one (List.mem_append_left _ ?_)
  exact (beforeDist_begins _).subset ((strip_sublist _).subset hmem)

/-- The helper writes every percent sign before the dist macro twice. -/
theorem count_read (h : Bumped text new p front tag gap s₁ s₂ trail rest trail')
    (hp : p = bumpRelease (strip (beforeDist (s₁ ++ s₂))) upstream) :
    (beforeDist (p ++ s₂)).count '%' = 2 * (beforeDist (s₁ ++ s₂)).count '%' := by
  have hfollows : Follows (strip (beforeDist (s₁ ++ s₂))) p := by
    rw [hp]
    exact follows_bumpRelease (newline_not_mem_read h) upstream
  have hcount : p.count '%' = (beforeDist (s₁ ++ s₂)).count '%' := by
    rw [hfollows.count_eq isDigit_percent (by decide), count_strip (by decide)]
  have hkept : (beforeDist (s₁ ++ s₂)).count '%' = (beforeDist s₂).count '%' := by
    rw [beforeDist_append h.before, List.count_append, List.count_eq_zero.mpr h.before, Nat.zero_add]
  have hread : beforeDist (p ++ s₂) = p ++ beforeDist s₂ := by
    unfold beforeDist
    cases hcut : splitLastDist s₂ with
    | some cut => rw [splitLastDist_append_some hcut]
    | none =>
        -- no dist macro in the old value, and none in the new one
        have hold : splitLastDist (s₁ ++ s₂) = none := by rw [splitLastDist_append h.before, hcut, Option.map_none]
        have hwhole : strip (beforeDist (s₁ ++ s₂)) = s₁ ++ s₂ := by
          rw [beforeDist, hold]
          exact strip_solid h.solid
        have hstop : ∀ u {digits : Str}, (∀ c ∈ digits, isDigit c = true) → splitLastDist (u ++ '.' :: digits) =
            (splitLastDist u).map fun cut => (cut.1, cut.2.1, cut.2.2 ++ '.' :: digits) := by
          intro u digits hdigits
          refine splitLastDist_append_stop (fun c hc => ?_) (splitLastDist_of_not_mem ?_)
          · rw [← Option.some.inj hc]
            decide
          · intro hmem
            rcases List.mem_cons.mp hmem with heq | hmem
            · exact absurd heq (by decide)
            · have hdigit := hdigits _ hmem
              rw [isDigit_percent] at hdigit
              cases hdigit
        have hnone : splitLastDist p = none := by
          rw [hwhole] at hfollows
          cases hfollows with
          | first =>
              have hone := numberSuffixed_one (s₁ ++ s₂)
              rw [hone.eq, hstop _ hone.digits, hold, Option.map_none]
          | @next base number n hnumber =>
              have hbase : splitLastDist base = none := by
                rw [hnumber.eq, hstop _ hnumber.digits, Option.map_eq_none_iff] at hold
                exact hold
              have hnew := numberSuffixed_ofNat base n
              rw [hnew.eq, hstop _ hnew.digits, hbase, Option.map_none]
        have hhead : ∀ c ∈ s₂.head?, c ∉ "\x7b?dist\x7d".toList := by
          intro c hc
          rcases h.percent with rfl | hpercent
          · cases hc
          · rw [hpercent] at hc
            rw [← Option.some.inj hc]
            decide
        rw [splitLastDist_append_stop hhead hcut, hnone, Option.map_none]
  rw [hread, List.count_append, hcount, ← hkept]
  omega

/-- The helper never leaves the release that it has read. -/
theorem read_ne (h : Bumped text new p front tag gap s₁ s₂ trail rest trail')
    (hp : p = bumpRelease (strip (beforeDist (s₁ ++ s₂))) upstream) :
    strip (beforeDist (p ++ s₂)) ≠ strip (beforeDist (s₁ ++ s₂)) := by
  intro heq
  by_cases hplain : '%' ∉ beforeDist (s₁ ++ s₂)
  · rw [(reads_back_iff h.before h.percent h.release h.plain).mpr hplain, hp] at heq
    exact bumpRelease_ne (newline_not_mem_read h) upstream heq
  · have hcount := congrArg (List.count '%') heq
    rw [count_strip (by decide), count_strip (by decide), count_read h hp] at hcount
    have hpos := List.count_pos_iff.mpr (not_not.mp hplain)
    omega

/-- What the helper writes is read as the release that is proposed, and what the old value has from its first
percent sign on. -/
theorem specRelease_new (h : Bumped text new p front tag gap s₁ s₂ trail rest trail') :
    specRelease new = some (strip (beforeDist (p ++ s₂))) := by
  rw [specRelease, h.written.search_field]
  exact congrArg some h.read_eq

end

/-! ## The rebuild -/

section

variable [UnicodeTables] {newRelease line before dist after : Str}

/-- What a rebuild makes of a line is read with no more percent signs than before, and as the new release where
there were none. -/
theorem editedLine_read (hcut : splitLastDist line = some (before, dist, after)) (hone : '\n' ∉ line)
    (hmark : '%' ∉ newRelease) :
    (beforeDist (editedLine newRelease line line)).count '%' ≤ before.count '%' ∧
      ('%' ∉ before → beforeDist (editedLine newRelease line line) = newRelease) := by
  have hat := (splitLastDist_some hcut).1
  have hbefore : beforeLast line = before := by rw [beforeLast, hcut]; rfl
  have hafter : afterLast line = after := by rw [afterLast, hcut]; rfl
  cases hbase : isMacroBased line with
  | true =>
      have hnext := follows_of_nextSuffix ((nextSuffix_iff (not_mem_part hat hone).1).mpr rfl)
      rw [editedLine_based hbase, hbefore, hafter, beforeDist_dist (by decide) (splitLastDist_after hcut)]
      refine ⟨(hnext.count_eq isDigit_percent (by decide)).le, fun hplain => ?_⟩
      rw [isMacroBased, hbefore, contains_iff] at hbase
      obtain ⟨u, v, huv⟩ := hbase
      refine absurd ?_ hplain
      rw [← huv]
      simp
  | false =>
      obtain ⟨⟨b, d, a⟩, hfirst⟩ := exists_splitFirstDist hcut
      have hfirstAt := (splitFirstDist_some hfirst).1
      rw [editedLine_plain hbase, firstDist, afterFirst, hfirst]
      show (beforeDist (newRelease ++ (d ++ a))).count '%' ≤ _ ∧ (_ → beforeDist (newRelease ++ (d ++ a)) = _)
      -- from the first dist macro on there is a last one
      obtain ⟨⟨b', d', a'⟩, hlast⟩ : ∃ cut, splitLastDist (d ++ a) = some cut := by
        cases hnone : splitLastDist (d ++ a) with
        | some cut => exact ⟨cut, rfl⟩
        | none =>
            have hno := splitLastDist_none hnone 0
            rw [List.drop_zero, hfirstAt.dist] at hno
            cases hno
      have hwhole := splitLastDist_append_some (u := b) hlast
      rw [← List.append_assoc, ← hfirstAt.eq, hcut] at hwhole
      have hb : before = b ++ b' := congrArg Prod.fst (Option.some.inj hwhole)
      have hread : beforeDist (newRelease ++ (d ++ a)) = newRelease ++ b' := by
        rw [beforeDist, splitLastDist_append_some hlast]
      rw [hread, List.count_append, List.count_eq_zero.mpr hmark, hb, List.count_append]
      refine ⟨by omega, fun hplain => ?_⟩
      rw [List.mem_append, not_or] at hplain
      have hnil : b' = [] := by
        cases b' with
        | nil => rfl
        | cons c b' =>
            obtain ⟨w, hw⟩ := List.head?_eq_some_iff.mp (distSpellings_head (distPrefix_some hfirstAt.dist).1)
            have heq := (splitLastDist_some hlast).1.eq
            rw [hw, List.cons_append, List.append_assoc, List.cons_append] at heq
            rw [← (List.cons.inj heq).1] at hplain
            exact absurd List.mem_cons_self hplain.2
      rw [hnil, List.append_nil]

/-- And it begins like a release. -/
theorem editedLine_head (hcut : splitLastDist line = some (before, dist, after)) (hone : '\n' ∉ line)
    (hhead : ∃ c ∈ line.head?, isSpace c = false) (hnew : ∃ c ∈ newRelease.head?, isSpace c = false) :
    ∃ c ∈ (editedLine newRelease line line).head?, isSpace c = false := by
  have hat := (splitLastDist_some hcut).1
  cases hbase : isMacroBased line with
  | true =>
      have hbefore : beforeLast line = before := by rw [beforeLast, hcut]; rfl
      have hne : before ≠ [] := by
        rintro rfl
        rw [isMacroBased, hbefore] at hbase
        cases hbase
      have hnext := follows_of_nextSuffix ((nextSuffix_iff (not_mem_part hat hone).1).mpr rfl)
      obtain ⟨c, hc, hspace⟩ := hhead
      refine ⟨c, ?_, hspace⟩
      rw [hat.eq, List.append_assoc, List.head?_append_of_ne_nil _ hne, ← hnext.head_eq hne] at hc
      rw [editedLine_based hbase, hbefore, List.head?_append, hc]
      rfl
  | false =>
      obtain ⟨c, hc, hspace⟩ := hnew
      refine ⟨c, ?_, hspace⟩
      rw [editedLine_plain hbase, List.head?_append, hc]
      rfl

end

/-! ## The first field of a rebuilt text -/

section

variable [UnicodeTables] {text text' new front front' tag gap line rest space line' rest' release dist after : Str}
  {specFile newRelease : Str}

omit [UnicodeTables] in
theorem stop_of_field (h : Field text front tag gap line rest) : inClass isSpace (line ++ rest).head? = false := by
  obtain ⟨c, hc, hspace⟩ := h.head
  rw [List.head?_append, hc]
  exact hspace

omit [UnicodeTables] in
theorem tagStart_of_hasField {i : Nat} (h : HasField text i) : TagStart text i := by
  obtain ⟨hstart, hprefix⟩ := h.tagLineAt
  exact ⟨hstart, tagFront_iff.mpr ⟨"Release".toList, by decide, hprefix⟩⟩

omit [UnicodeTables] in
/-- A field of the rebuild in the place of the first field is that field. -/
theorem fieldAt_unique (h : Field text front tag gap line rest) (h' : FieldAt text front.length space line' rest') :
    tag = "Release".toList ∧ space = gap ∧ line' = line ∧ rest' = rest := by
  have heq : tag ++ (':' :: (gap ++ (line ++ rest))) =
      "Release".toList ++ (':' :: (space ++ (line' ++ rest'))) := by
    rw [← h.tagAt.drop, h'.drop]
    rfl
  obtain ⟨htag, htail⟩ := List.append_inj heq h.tagAt.length_tag
  have hlen : gap.length = space.length := by
    rw [← spanLen_of_drop h.tagAt.drop_gap h.gap_all (stop_of_field h), h'.spanLen]
  obtain ⟨hgap, hline⟩ := List.append_inj (List.cons.inj htail).2 hlen
  obtain ⟨hvalue, hrest⟩ := line_cancel h.one h'.one h.rest h'.rest hline
  exact ⟨htag, hgap.symm, hvalue.symm, hrest.symm⟩

omit [UnicodeTables] in
/-- The first field is one of the rebuild if it is spelled like it and has a dist macro. -/
theorem hasField_of_field (h : Field text front tag gap line rest) (htag : tag = "Release".toList) (hgap : gap ≠ [])
    {cut : Str × Str × Str} (hcut : splitLastDist line = some cut) : HasField text front.length := by
  refine ⟨gap, line, rest, cut, ⟨h.tagAt.start, ?_, hgap, h.gap_all, stop_of_field h, h.one, h.rest⟩, hcut⟩
  rw [h.tagAt.drop, htag]
  rfl

omit [UnicodeTables] in
/-- A tag with a value somewhere has it on its line. -/
theorem gap_of_filled (h : Field text front tag gap line rest)
    (hfilled : ∀ front line rest, ReleaseLine text front line rest → fieldValue line ≠ []) : '\n' ∉ gap := by
  intro hmem
  obtain ⟨g, g', hg, hno⟩ := List.eq_append_cons_of_mem hmem
  have htag := newline_not_mem_same (by decide) h.same
  have hempty : ReleaseLine text front (tag ++ (':' :: g)) ('\n' :: (g' ++ (line ++ rest))) := by
    refine ⟨?_, h.ends, h.first, tagFront_iff.mpr ⟨tag, h.same, ⟨g, by simp⟩⟩, ?_, Or.inr rfl⟩
    · rw [h.eq, hg]
      simp
    · simp [htag, hno]
  exact h.not_newline hempty (hfilled _ _ _ hempty) hmem

/-- A rebuild either edits the line of the first field, or it leaves that alone. -/
theorem rebuilt_first (h : Field text front tag gap line rest) (hgap : '\n' ∉ gap)
    (hok : updateReleaseText specFile newRelease text = .ok text') :
    (tag = "Release".toList ∧ gap ≠ [] ∧ (∃ cut, splitLastDist line = some cut) ∧
      ∃ rest', (rest' = [] ∨ rest'.head? = some '\n') ∧
        text' = front ++ (tag ++ (':' :: (gap ++ (editedLine newRelease line line ++ rest'))))) ∨
    (¬ HasField text front.length ∧ ∃ rest', Field text' front tag gap line rest') := by
  obtain ⟨chunk, fields, hpieces⟩ := exists_pieces text
  obtain ⟨first, next, later, rfl, htext'⟩ := updateReleaseText_pieces hpieces hok
  obtain ⟨hproper, -⟩ := hpieces.proper
  have hfirst := hpieces.first (List.cons_ne_nil _ _)
  have hbefore := hpieces.before
  have htext := hpieces.drop
  rw [Nat.zero_add] at hfirst
  rw [List.drop_zero, glue] at htext
  rw [glue] at htext'
  have hle : front.length ≤ chunk.length := by
    by_contra hlt
    have hstart := tagStart_of_hasField hfirst
    rw [h.eq, tagStart_append h.ends (by omega)] at hstart
    exact h.first _ (by omega) hstart
  rcases Classical.em (HasField text front.length) with hhas | hhas
  · left
    have hlen : chunk.length = front.length := by
      by_contra hne
      have hno := hbefore front.length (by omega)
      rw [Nat.zero_add] at hno
      exact hno hhas
    obtain ⟨hchunk, -⟩ := List.append_inj (htext.symm.trans h.eq) hlen
    have hat : FieldAt text front.length first.space first.line (glue ReleaseField.text next later) := by
      refine ⟨h.tagAt.start, ?_, hproper.space_ne, hproper.space_all, ?_, hproper.one, hproper.glue_end⟩
      · rw [← hlen]
        conv_lhs => rw [htext]
        rw [List.drop_left, ReleaseField.text]
        simp
      · have hne : first.line ≠ [] := by
          intro hnil
          obtain ⟨cut, hcut⟩ := hproper.dist
          rw [hnil] at hcut
          cases hcut
        rw [List.head?_append_of_ne_nil _ hne]
        exact hproper.stop
    obtain ⟨htag, hspace, hline, -⟩ := fieldAt_unique h hat
    refine ⟨htag, hspace ▸ hproper.space_ne, hline ▸ hproper.dist, glue (editedText newRelease first.line) next later,
      hproper.glue_end, ?_⟩
    have hspelled : ∀ u : Str, releaseTag ++ u = "Release".toList ++ (':' :: u) := fun u => rfl
    rw [htext', hchunk, editedText, hspace, hline, htag, List.append_assoc, hspelled, List.append_assoc]
  · right
    refine ⟨hhas, ?_⟩
    -- the first field of the rebuild is on a later line
    have hwhole : text.drop front.length = (tag ++ (':' :: (gap ++ line))) ++ rest := by
      rw [h.tagAt.drop]
      simp
    have hone := (h.releaseLine hgap).one
    have hlater : (front ++ (tag ++ (':' :: (gap ++ line)))).length < chunk.length := by
      by_contra hshort
      rw [List.length_append] at hshort
      have hne : chunk.length ≠ front.length := fun heq => hhas (heq ▸ hfirst)
      obtain ⟨k, hk⟩ := Nat.exists_eq_add_of_le hle
      have hstart := (tagStart_of_hasField hfirst).1
      rw [hk] at hstart hshort hne
      exact not_lineStart hwhole hone (by omega) (by omega) hstart
    have hcut : (front ++ (tag ++ (':' :: (gap ++ line)))) ++ rest =
        chunk ++ (first.text ++ glue ReleaseField.text next later) := by
      rw [← htext, h.eq]
      simp
    rcases List.append_eq_append_iff.mp hcut with ⟨r, hchunk, hrest⟩ | ⟨r, hfront, -⟩
    · refine ⟨r ++ (editedText newRelease first.line first ++ glue (editedText newRelease first.line) next later),
        ?_, h.ends, h.first, h.same, h.gap_all, h.head, h.one, Or.inr ?_⟩
      · rw [htext', hchunk]
        simp
      · have hr : r ≠ [] := by
          rintro rfl
          rw [hchunk, List.append_nil] at hlater
          exact absurd hlater (lt_irrefl _)
        rcases h.rest with hnil | hhead
        · rw [hnil] at hrest
          exact absurd (List.append_eq_nil_iff.mp hrest.symm).1 hr
        · rw [hrest, List.head?_append_of_ne_nil _ hr] at hhead
          rw [List.head?_append_of_ne_nil _ hr]
          exact hhead
    · rw [hfront, List.length_append] at hlater
      omega

end

/-! ## The two of them -/

section

variable [UnicodeTables] {text front front' tag gap line rest space rest' release dist before after : Str}

omit [UnicodeTables] in
/-- Such a line is where the first field is, and gives its release. -/
theorem CommonRelease.field (hc : CommonRelease text front' space release dist after rest')
    (h : Field text front tag gap line rest) (hgap : '\n' ∉ gap) : HasField text front.length ∧
      ∃ before, splitLastDist line = some (before, dist, after) ∧ '%' ∉ before ∧ strip before = strip release := by
  obtain ⟨rfl, hcut⟩ := h.front_eq hc.line
  obtain ⟨hline, rfl⟩ := line_cancel hc.line.one (h.releaseLine hgap).one hc.line.rest h.rest
    (hcut.trans (by simp))
  have hspelled : "Release".toList ++ (':' :: (space ++ (release ++ (dist ++ after)))) =
      tag ++ (':' :: (gap ++ line)) := hline
  obtain ⟨htag, htail⟩ := List.append_inj hspelled h.tagAt.length_tag.symm
  have hvalue : space ++ (release ++ (dist ++ after)) = gap ++ line := (List.cons.inj htail).2
  have hpercent : '%' ∉ gap := fun hmem => absurd (h.gap_all _ hmem) (by decide)
  have hlast := splitLastDist_append_some (u := space ++ release) (splitLastDist_dist hc.dist hc.last)
  rw [List.append_assoc, hvalue, splitLastDist_append hpercent, Option.map_eq_some_iff] at hlast
  obtain ⟨⟨before, d, a⟩, hlast, heq⟩ := hlast
  obtain ⟨hbefore, hrest⟩ := Prod.mk.inj heq
  obtain ⟨rfl, rfl⟩ := Prod.mk.inj hrest
  rw [List.append_nil] at hbefore
  have hgapNe : gap ≠ [] := by
    rintro rfl
    obtain ⟨c, hhead, hsolid⟩ := h.head
    obtain ⟨b, w, rfl⟩ := List.exists_cons_of_ne_nil hc.space_ne
    rw [List.nil_append] at hvalue
    rw [← hvalue] at hhead
    rw [← Option.some.inj hhead, hc.space_all b List.mem_cons_self] at hsolid
    cases hsolid
  refine ⟨hasField_of_field h htag.symm hgapNe hlast, before, hlast, ?_, ?_⟩
  · intro hmem
    have hwhole : '%' ∈ space ++ release := hbefore ▸ List.mem_append_right _ hmem
    rcases List.mem_append.mp hwhole with hmem | hmem
    · exact absurd (hc.space_all _ hmem) (by decide)
    · exact hc.plain hmem
  · rw [← strip_append_left h.gap_all, hbefore, strip_append_left hc.space_all]

omit [UnicodeTables] in
/-- A first field that the rebuild edits, with no percent sign before its last dist macro, is such a line. -/
theorem commonRelease_of_field (h : Field text front tag gap line rest) (hgap : '\n' ∉ gap)
    (htag : tag = "Release".toList) (hne : gap ≠ []) (hcut : splitLastDist line = some (before, dist, after))
    (hplain : '%' ∉ before) : CommonRelease text front gap before dist after rest := by
  have hat := (splitLastDist_some hcut).1
  refine ⟨?_, hne, h.gap_all, hplain, (distPrefix_some hat.dist).1, splitLastDist_after hcut⟩
  have hline := h.releaseLine hgap
  rw [htag, hat.eq, List.append_assoc] at hline
  exact hline

end

section

variable [UnicodeTables] {loads : Str → Except Str Value} {c : CveReleaseBump.Checkout} {w w' : World}
  {env : Env} {package reason text new : Str} {dryRun : Bool} {metadata : PackageMetadata}
  {payload : ReleaseBump} {current : Str × Str} {u : Unit}

omit [UnicodeTables] in
/-- What the helper takes for the release of the metadata. -/
theorem SamePackage.given_release (h : SamePackage loads c w package text metadata) {data : Value.Entries}
    (hdata : readPackageMetadata loads c package = .ok data) :
    given (some (fieldText "release" data)) = given metadata.release := by
  have hentry := h.release data hdata
  rw [fieldText, hentry]
  cases metadata.release with
  | none => rfl
  | some release =>
      cases release with
      | nil => rfl
      | cons a release => rfl

/-- What a rebuild writes of the spec. -/
theorem SamePackage.rebuilt (h : SamePackage loads c w package text metadata)
    (hrebuild : rebuildPackage env package reason dryRun w = .ok u w')
    (hauto : usesAutorelease (w.packageDir package) = .ok false)
    (hcurrent : parseSpecVersion env (w.packageDir package) = .ok current) : ∃ text',
      (w'.packageDir package).read (specName package) = some (.text text') ∧
      updateReleaseText (specName package) (bumpRelease current.2 (baseRelease metadata)) text = .ok text' := by
  have hresolved : resolveAutorelease env package metadata (w.packageDir package) = .ok (w.packageDir package) := by
    rw [resolveAutorelease, hauto]
    rfl
  obtain ⟨rebuilt, hrebuilt, hdir⟩ := rebuildPackage_ok hrebuild h.recorded hresolved
  obtain ⟨current', hcurrent', hrebuilt⟩ := except_bind_ok_iff.mp hrebuilt
  obtain rfl := Except.ok.inj (hcurrent.symm.trans hcurrent')
  have hupdate : updateReleaseInSpec (w.packageDir package) (bumpRelease current.2 (baseRelease metadata)) =
      .ok rebuilt := hrebuilt
  unfold updateReleaseInSpec at hupdate
  rw [h.specs] at hupdate
  obtain ⟨content, hcontent, hupdate⟩ := except_bind_ok_iff.mp hupdate
  obtain rfl := Except.ok.inj (h.content.symm.trans hcontent)
  obtain ⟨text', htext', hupdate⟩ := except_bind_ok_iff.mp hupdate
  refine ⟨text', ?_, htext'⟩
  rw [hdir, ← Except.ok.inj hupdate, Tree.read_write_self]

/-- **`bumpers_agree_iff`** — after the two bumpers the first `Release` line has one release exactly if it is one
that both find, with no percent sign before its dist macro, and its release is the same rebuild of the same base for
the helper as the one that rpm prints is for `rebuild_package`. -/
theorem bumpers_agree_iff (hbump : applyReleaseBump loads c package = .ok (payload, some new))
    (hrebuild : rebuildPackage env package reason dryRun w = .ok u w')
    (hsame : SamePackage loads c w package text metadata)
    (hauto : usesAutorelease (w.packageDir package) = .ok false)
    (hcurrent : parseSpecVersion env (w.packageDir package) = .ok current) (hrpm : RpmPrints text current.2) :
    ∃ text', (w'.packageDir package).read (specName package) = some (.text text') ∧
      (specRelease new = specRelease text' ↔ SameRebuild text current.2 metadata) := by
  obtain ⟨text', hread, hupdate⟩ := hsame.rebuilt hrebuild hauto hcurrent
  obtain ⟨data, front, tag, gap, s₁, s₂, trail, rest, trail', hdata, hproposed, hb⟩ := exists_bumped hbump hsame.spec
  generalize payload.proposedSpecRelease = p at hproposed hb
  refine ⟨text', hread, ?_⟩
  have hfield := hb.field
  have hgap := gap_of_filled hfield hrpm.filled
  -- the release of the rebuild
  have hline : '\n' ∉ current.2 := fun hmem => absurd (isLineBreak_of_parse hcurrent _ hmem) (by decide)
  have hfollows := follows_bumpRelease hline (baseRelease metadata)
  have hmark : '%' ∉ bumpRelease current.2 (baseRelease metadata) :=
    bumpRelease_not_mem hline hrpm.expanded (by decide) (by decide)
  have hnewLine : '\n' ∉ bumpRelease current.2 (baseRelease metadata) :=
    bumpRelease_not_mem hline hline (by decide) (by decide)
  have hstripped : strip (bumpRelease current.2 (baseRelease metadata)) =
      bumpRelease current.2 (baseRelease metadata) := by
    have hself := strip_solid hrpm.solid
    have hbumped : strip (bumpRelease (strip current.2) (baseRelease metadata)) =
        bumpRelease (strip current.2) (baseRelease metadata) := strip_bumpRelease (by rw [hself]; exact hline)
    rwa [hself] at hbumped
  have hhead : ∃ a ∈ (bumpRelease current.2 (baseRelease metadata)).head?, isSpace a = false := by
    rw [hfollows.head_eq hrpm.solid.ne_nil]
    exact hrpm.solid.head
  rw [specRelease_new hb]
  rcases rebuilt_first hfield hgap hupdate with ⟨htag, hgapNe, ⟨⟨before, dist, after⟩, hcut⟩, rest', hrest', htext'⟩ |
    ⟨hno, rest', hfield'⟩
  · have hfield' : Field text' front tag gap
        (editedLine (bumpRelease current.2 (baseRelease metadata)) ((s₁ ++ s₂) ++ trail) ((s₁ ++ s₂) ++ trail))
        rest' := by
      refine ⟨htext', hfield.ends, hfield.first, hfield.same, hfield.gap_all,
        editedLine_head hcut hfield.one hfield.head hhead, ?_, hrest'⟩
      exact @editedLine_one _ _ ⟨gap, _⟩ _ hfield.one hfield.one (fun _ => hnewLine) ⟨_, hcut⟩ ⟨_, hcut⟩
    obtain ⟨hcount, hplainRead⟩ := editedLine_read hcut hfield.one hmark
    have hbefore : beforeDist (s₁ ++ s₂) = before := by
      have htrail := splitLastDist_trail (s := s₁ ++ s₂) hb.trail_space
      rw [hcut] at htrail
      obtain ⟨cut, hvalue, heq⟩ := Option.map_eq_some_iff.mp htrail.symm
      rw [beforeDist, hvalue]
      exact congrArg Prod.fst heq
    rw [specRelease_field hfield', Option.some.injEq]
    by_cases hplain : '%' ∉ before
    · have hp : p = bumpRelease (strip before) metadata.release := by
        rw [hproposed, hbefore, ← bumpRelease_given, hsame.given_release hdata, bumpRelease_given]
      have hone : '\n' ∉ strip before := hbefore ▸ newline_not_mem_read hb
      rw [hplainRead hplain, hstripped, (reads_back_iff hb.before hb.percent hb.release hb.plain).mpr
        (hbefore ▸ hplain), hp, bumpRelease_eq_iff hone hline]
      constructor
      · intro hboth
        exact ⟨front, gap, before, dist, after, rest,
          commonRelease_of_field hfield hgap htag hgapNe hcut hplain, hboth⟩
      · rintro ⟨_, _, release, _, _, _, hc, hboth⟩
        obtain ⟨-, before', hcut', -, hsameRelease⟩ := hc.field hfield hgap
        obtain rfl : before = before' := congrArg Prod.fst (Option.some.inj (hcut.symm.trans hcut'))
        rw [hsameRelease]
        exact hboth
    · refine iff_of_false ?_ ?_
      · intro heq
        have hcounts := congrArg (List.count '%') heq
        rw [count_strip (by decide), count_strip (by decide), count_read hb hproposed, hbefore] at hcounts
        have hpos := List.count_pos_iff.mpr (not_not.mp hplain)
        omega
      · rintro ⟨_, _, release, _, _, _, hc, -⟩
        obtain ⟨-, before', hcut', hplain', -⟩ := hc.field hfield hgap
        obtain rfl : before = before' := congrArg Prod.fst (Option.some.inj (hcut.symm.trans hcut'))
        exact hplain hplain'
  · -- a rebuild that edits other lines
    refine iff_of_false ?_ ?_
    · rw [specRelease_field hfield', ← strip_beforeDist_strip hfield.head]
      have hvalue := strip_padded (a := []) (by simp) hb.solid hb.trail_space
      rw [List.nil_append] at hvalue
      rw [hvalue]
      intro heq
      exact read_ne hb hproposed (Option.some.inj heq)
    · rintro ⟨_, _, release, _, _, _, hc, -⟩
      exact hno (hc.field hfield hgap).1

end

/-! ## Runs -/

/-- A spec with one release. -/
def oneRelease (release : Str) : Str := "Name: a\nRelease: ".toList ++ release ++ "%\x7b?dist\x7d\n".toList

/-- The metadata of a package without a Fedora source, as text. -/
def independentJson (release : Str) : Str := "\x7b\"release\": \"".toList ++ release ++ "\"\x7d".toList

/-- A parser for this text. -/
def loadsIndependent (release : Str) : Str → Except Str Value := fun text =>
  if text = independentJson release then .ok (.dict [("release".toList, .str release)]) else .error "".toList

def independentCheckout (release : Str) : CveReleaseBump.Checkout where
  root := []
  spec := fun _ => some (oneRelease release)
  metadata := fun _ => some (independentJson release)

def independentMetadata (release : Str) : PackageMetadata := { version := "1", release := some release }

def independentWorld (release : Str) : World :=
  { World.empty with
    metadata := fun _ => some (independentMetadata release)
    rpms := fun _ => some (Tree.ofList [("a.spec", .text (oneRelease release))]) }

/-- rpm prints the release of this spec. -/
def independentEnv (release : Str) : Env :=
  { Env.offline with
    commitOk := true
    rpmspec := fun dir _ =>
      if (readText dir "a.spec").toOption = some (oneRelease release) then printRelease release
      else .exited 1 [] [] }

theorem filled_of_field {text front tag gap line rest : Str} (h : Field text front tag gap line rest)
    (hgap : '\n' ∉ gap) : ∀ front line rest, ReleaseLine text front line rest → fieldValue line ≠ [] := by
  intro front' line' rest' hl
  obtain ⟨rfl, hcut⟩ := h.front_eq hl
  obtain ⟨rfl, -⟩ := line_cancel hl.one (h.releaseLine hgap).one hl.rest h.rest (hcut.trans (by simp))
  obtain ⟨trail, -, hsolid, -⟩ := exists_trail h.head
  rw [h.fieldValue_eq]
  exact hsolid.ne_nil

/-- Both bump the release 5 to 5.1. -/
theorem bumpers_agree_five :
    letI := asciiTables
    ∃ payload new w' text',
      applyReleaseBump (loadsIndependent "5") (independentCheckout "5") "a" = .ok (payload, some new) ∧
      rebuildPackage (independentEnv "5") "a" "CVE" false (independentWorld "5") = .ok () w' ∧
      (w'.packageDir "a").read (specName "a") = some (.text text') ∧ specRelease new = specRelease text' := by
  let _ := asciiTables
  obtain ⟨payload, hbump, -⟩ : ∃ payload,
      applyReleaseBump (loadsIndependent "5") (independentCheckout "5") "a" =
        .ok (payload, some "Name: a\nRelease:        5.1%\x7b?dist\x7d\n".toList) ∧
      payload.proposedSpecRelease = "5.1".toList := exists_payload (by decide +kernel)
  have hrun : returns (rebuildPackage (independentEnv "5") "a" "CVE" false) (independentWorld "5")
      (fun _ _ => true) = true := by decide +kernel
  obtain ⟨⟨⟩, w', hrebuild, -⟩ := returns_iff.mp hrun
  have hfield : Field (oneRelease "5") "Name: a\n" "Release" " " "5%\x7b?dist\x7d" "\n" :=
    ⟨rfl, Or.inr rfl, by decide, by decide, by decide, ⟨'5', rfl, by decide⟩, by decide, Or.inr rfl⟩
  have hsame : SamePackage (loadsIndependent "5") (independentCheckout "5") (independentWorld "5") "a"
      (oneRelease "5") (independentMetadata "5") :=
    ⟨rfl, by decide +kernel, by decide +kernel, rfl, by rintro data ⟨⟩; rfl⟩
  obtain ⟨text', hread, hiff⟩ := bumpers_agree_iff hbump hrebuild hsame (by decide +kernel)
    (show parseSpecVersion (independentEnv "5") _ = .ok ("1".toList, "5".toList) by decide +kernel)
    ⟨filled_of_field hfield (by decide), by decide, ⟨⟨'5', rfl, by decide⟩, ⟨'5', rfl, by decide⟩⟩⟩
  have hplain : ∀ base number, base ≠ [] → ¬ NumberSuffixed "5" base number := by
    intro base number hbase h
    have hlen := h.length
    have hpos := List.length_pos_iff.mpr hbase
    have hfive : "5".toList.length = 1 := rfl
    have hnumber := List.length_pos_iff.mpr h.nonempty
    omega
  have hcommon := commonRelease_of_field hfield (by decide) rfl (by decide)
    (show splitLastDist "5%\x7b?dist\x7d" = some ("5".toList, "%\x7b?dist\x7d".toList, []) by decide) (by decide)
  exact ⟨payload, _, w', text', hbump, hrebuild, hread, hiff.mpr
    ⟨_, _, _, _, _, _, hcommon, "5", 0, .first (Or.inr hplain), .first (Or.inr hplain)⟩⟩

/-- Where the metadata of a package without a Fedora source has the release 1.5, the helper takes that for the
base, and writes 1.5.1; a rebuild writes 1.6. -/
theorem numbered_release_differs :
    letI := asciiTables
    ¬ ∀ (loads : Str → Except Str Value) (c : CveReleaseBump.Checkout) (w w' : World) (env : Env)
        (package reason text new : Str) (dryRun : Bool) (metadata : PackageMetadata) (payload : ReleaseBump) (current : Str × Str),
      applyReleaseBump loads c package = .ok (payload, some new) →
      rebuildPackage env package reason dryRun w = .ok () w' →
      SamePackage loads c w package text metadata → usesAutorelease (w.packageDir package) = .ok false →
      parseSpecVersion env (w.packageDir package) = .ok current → RpmPrints text current.2 →
        ∃ text', (w'.packageDir package).read (specName package) = some (.text text') ∧
          specRelease new = specRelease text' := by
  let _ := asciiTables
  intro hall
  obtain ⟨payload, hbump, -⟩ : ∃ payload,
      applyReleaseBump (loadsIndependent "1.5") (independentCheckout "1.5") "a" =
        .ok (payload, some "Name: a\nRelease:        1.5.1%\x7b?dist\x7d\n".toList) ∧
      payload.proposedSpecRelease = "1.5.1".toList := exists_payload (by decide +kernel)
  have hrun : returns (rebuildPackage (independentEnv "1.5") "a" "CVE" false) (independentWorld "1.5")
      (fun _ w' => (w'.packageDir "a").read (specName "a") =
        some (.text "Name: a\nRelease: 1.6%\x7b?dist\x7d\n".toList)) = true := by decide +kernel
  obtain ⟨⟨⟩, w', hrebuild, hwritten⟩ := returns_iff.mp hrun
  rw [decide_eq_true_eq] at hwritten
  have hfield : Field (oneRelease "1.5") "Name: a\n" "Release" " " "1.5%\x7b?dist\x7d" "\n" :=
    ⟨rfl, Or.inr rfl, by decide, by decide, by decide, ⟨'1', rfl, by decide⟩, by decide, Or.inr rfl⟩
  obtain ⟨text', hread, hsame⟩ := hall _ _ _ _ _ _ _ _ _ _ (independentMetadata "1.5") _ _ hbump hrebuild
    ⟨rfl, by decide +kernel, by decide +kernel, rfl, by rintro data ⟨⟩; rfl⟩ (by decide +kernel)
    (show parseSpecVersion (independentEnv "1.5") _ = .ok ("1".toList, "1.5".toList) by decide +kernel)
    ⟨filled_of_field hfield (by decide), by decide, ⟨⟨'1', rfl, by decide⟩, ⟨'5', rfl, by decide⟩⟩⟩
  obtain rfl : _ = text' := File.text.inj (Option.some.inj (hwritten.symm.trans hread))
  have hnew : specRelease "Name: a\nRelease:        1.5.1%\x7b?dist\x7d\n" = some "1.5.1".toList := by decide +kernel
  have hold : specRelease "Name: a\nRelease: 1.6%\x7b?dist\x7d\n" = some "1.6".toList := by decide +kernel
  have hequal := hnew.symm.trans (hsame.trans hold)
  exact absurd (Option.some.inj hequal) (by decide)

end HummingbirdRpms.ReleaseBumpers
