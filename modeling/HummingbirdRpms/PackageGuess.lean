/-
# HummingbirdRpms.PackageGuess — the package that a ticket is taken to be about.

The CVE helper looks for a package's name in the summary of a ticket, then in its labels, and last in the
build that has the fix (`extract_package_guess` of `.cursor/skills/cve/lib/models.py`).  In the build it is
what stands before a hyphen and a digit, as long as it can be.  `split_nvr` counts two hyphens from the right.

**`guess_is_name_iff`** — the two give the same name exactly if the release does not begin with a digit, or
the version has a character that a package's name cannot have.
-/
import HummingbirdRpms.SpecNvr

namespace HummingbirdRpms

open Lib Lib.Text Lib.Regex

/-! ## The guess -/

section

variable [UnicodeTables]

/-- `r{0,n}` -/
def atMost : Nat → Re → Re
  | 0, _ => .eps
  | n + 1, r => Re.opt (.cat r (atMost n r))

/-- `CVE-\d{4}-\d{4,8}\s+([A-Za-z0-9+_.-]+)\s*:` -/
def summaryRe : Re :=
  Re.seq [.lit "CVE-", Re.times 4 (.chr isDigit), .lit "-", Re.times 4 (.chr isDigit), atMost 4 (.chr isDigit),
    Re.some1 isSpace, .group 1 (Re.some1 isNameChar), .many true isSpace, .lit ":"]

/-- `pscomponent:([A-Za-z0-9+_.-]+)` -/
def labelsRe : Re := Re.seq [.lit "pscomponent:", .group 1 (Re.some1 isNameChar)]

/-- `([A-Za-z0-9+_.-]+)-\d` -/
def fixedInBuildRe : Re := Re.seq [.group 1 (Re.some1 isNameChar), .lit "-", .chr isDigit]

/-- `extract_package_guess` -/
def extractPackageGuess (summary labels fixedInBuild : Str) : Str :=
  match search summaryRe summary with
  | some m => m.group 1
  | none =>
      match search labelsRe labels with
      | some m => m.group 1
      | none =>
          if fixedInBuild = [] then []
          else
            match matchAt fixedInBuildRe fixedInBuild 0 with
            | some m => m.group 1
            | none => []

end

/-! ## Builds -/

section

variable [UnicodeTables]

/-- The build of a package: a name, a version that begins with a digit, and a release.  Neither of the last
two has a hyphen, which is what the parts are told apart by, or a slash, which is what a path is. -/
structure Build extends PackageName where
  version : Str
  release : Str
  digit : ∃ d v, version = d :: v ∧ isDigit d = true
  version_hyphen : '-' ∉ version
  release_hyphen : '-' ∉ release
  version_slash : '/' ∉ version
  release_slash : '/' ∉ release

namespace Build

/-- `<name>-<version>-<release>`, with `.src.rpm` behind it if the build is given by its source package. -/
def nvr (b : Build) (source : Bool) : Str :=
  b.name ++ '-' :: (b.version ++ '-' :: (b.release ++ if source then ".src.rpm".toList else []))

/-- What stands behind the last hyphen. -/
theorem tail_hyphen (b : Build) (source : Bool) :
    '-' ∉ b.release ++ if source then ".src.rpm".toList else [] := by
  rw [List.mem_append, not_or]
  refine ⟨b.release_hyphen, ?_⟩
  cases source <;> decide

theorem nvr_slash (b : Build) (source : Bool) : '/' ∉ b.nvr source := by
  have hname : '/' ∉ b.name := fun hmem => isNameChar_ne (b.chars _ hmem) (by decide) rfl
  have hsuffix : '/' ∉ (if source then ".src.rpm".toList else []) := by cases source <;> decide
  simp only [nvr, List.mem_append, List.mem_cons, not_or]
  exact ⟨hname, by decide, b.version_slash, by decide, b.release_slash, hsuffix⟩

end Build

end

/-! ## Taking it apart -/

section

variable [UnicodeTables] {a u summary labels : Str} {d : Char}

omit [UnicodeTables] in
/-- Around the last hyphen a text is cut one way only. -/
theorem hyphen_cut {v r x y : Str} (hv : '-' ∉ v) (hr : '-' ∉ r) (h : v ++ '-' :: r = x ++ '-' :: y) :
    x = v ∧ y = r := by
  obtain ⟨hx, -, hy⟩ := (List.append_cons_inj_of_notMem hv hr).mp h
  exact ⟨hx.symm, hy.symm⟩

omit [UnicodeTables] in
/-- An end without a hyphen is an end of what stands behind the last one. -/
theorem suffix_cut {front r w suffix : Str} (hsuffix : '-' ∉ suffix) (h : front ++ '-' :: r = w ++ suffix) :
    ∃ r', w = front ++ '-' :: r' ∧ r = r' ++ suffix := by
  rcases List.append_eq_append_iff.mp h with ⟨x, rfl, hx⟩ | ⟨x, -, hx⟩
  · cases x with
    | nil =>
        rw [List.nil_append] at hx
        exact absurd (hx ▸ List.mem_cons_self) hsuffix
    | cons c x =>
        obtain ⟨rfl, rfl⟩ := List.cons_eq_cons.mp hx
        exact ⟨x, rfl, rfl⟩
  · exact absurd (hx ▸ List.mem_append_right _ List.mem_cons_self) hsuffix

/-- `normalize_nvr` takes nothing off a build but the end of its release. -/
theorem normalizeNvr_build (b : Build) (source : Bool) :
    ∃ r, '-' ∉ r ∧ normalizeNvr (b.nvr source) = b.name ++ '-' :: (b.version ++ '-' :: r) := by
  obtain ⟨c, name, hname⟩ := List.exists_cons_of_ne_nil b.nonempty
  have hc : isSpace c = false := isSpace_of_isNameChar (b.chars c (by rw [hname]; exact List.mem_cons_self))
  have hleft : lstripBy isSpace (b.nvr source) = b.nvr source := by
    rw [Build.nvr, hname]
    exact List.dropWhile_cons_of_neg (by simp [hc])
  have hfront : b.nvr source = (b.name ++ '-' :: b.version) ++
      '-' :: (b.release ++ if source then ".src.rpm".toList else []) := by
    rw [Build.nvr, List.append_assoc, List.cons_append]
  obtain ⟨r, hstrip⟩ := rstripBy_append (p := isSpace) (a := b.name ++ '-' :: b.version) (c := '-') (by decide)
    (b.release ++ if source then ".src.rpm".toList else [])
  rw [← hfront] at hstrip
  have hr : '-' ∉ r := by
    have hsub := strip_sublist (b.nvr source)
    rw [strip, hleft, hstrip, hfront, List.append_sublist_append_left, List.cons_sublist_cons] at hsub
    exact fun hmem => b.tail_hyphen source (hsub.subset hmem)
  have hslash : '/' ∉ rstripBy isSpace (b.nvr source) := fun hmem =>
    b.nvr_slash source ((List.rdropWhile_prefix _ _).subset hmem)
  have hlast : ((pathParts (strip (b.nvr source))).getLast?).getD [] =
      b.name ++ '-' :: b.version ++ '-' :: r := by
    rw [strip, hleft]
    rw [lastPart_self hslash (by rw [hstrip]; simp) ?_, hstrip]
    intro hdot
    rw [hstrip] at hdot
    have hlen := congrArg List.length hdot
    rw [hname] at hlen
    simp at hlen
  rw [normalizeNvr]
  simp only [hlast]
  by_cases hends : endsWith ".src.rpm".toList (b.name ++ '-' :: b.version ++ '-' :: r)
  · obtain ⟨w, hw⟩ := endsWith_iff.mp hends
    obtain ⟨r', rfl, rfl⟩ := suffix_cut (by decide) hw.symm
    rw [if_pos hends, ← hw, List.length_append, Nat.add_sub_cancel, List.take_left]
    exact ⟨r', fun hmem => hr (List.mem_append_left _ hmem), by rw [List.append_assoc, List.cons_append]⟩
  · rw [if_neg hends]
    exact ⟨r, hr, by rw [List.append_assoc, List.cons_append]⟩

theorem splitNvr_build (b : Build) (source : Bool) : (splitNvr (b.nvr source)).1 = b.name := by
  obtain ⟨r, hr, hnormal⟩ := normalizeNvr_build b source
  rw [splitNvr_three hnormal b.version_hyphen hr]

/-! ## Guessing -/

/-- A hyphen and a digit. -/
theorem run_hyphenDigit {t : Str} {s : St} (h : t.drop s.pos = '-' :: d :: u) (hd : isDigit d = true) :
    run t (.cat (.lit "-".toList) (.chr isDigit)) s = [⟨s.pos + 2, s.caps⟩] := by
  have hdigit : t[s.pos + 1]? = some d := by
    rw [← List.getElem?_drop, h]
    rfl
  rw [run_cat, run_lit_of_drop (w := "-".toList) (u := d :: u) h, List.flatMap_singleton, run_chr]
  show (if inClass isDigit t[s.pos + 1]? = true then _ else _ : List St) = _
  rw [hdigit, if_pos (show inClass isDigit (some d) = true from hd)]
  rfl

theorem mem_run_hyphenDigit {t : Str} {s e : St} (h : e ∈ run t (.cat (.lit "-".toList) (.chr isDigit)) s) :
    ∃ d u, t.drop s.pos = '-' :: d :: u ∧ isDigit d = true := by
  obtain ⟨m, hm, he⟩ := mem_run_cat.mp h
  obtain ⟨⟨v, hv⟩, rfl⟩ := mem_run_lit.mp hm
  obtain ⟨d, hd, hdigit⟩ := inClass_iff.mp (mem_run_chr.mp he).1
  have hhead : v[0]? = some d := by
    rw [← hd]
    show v[0]? = t[s.pos + 1]?
    rw [← List.getElem?_drop, ← hv]
    rfl
  cases v with
  | nil => cases hhead
  | cons c v =>
      cases hhead
      exact ⟨d, v, hv.symm, hdigit⟩

/-- The guess is what stands before a hyphen and a digit, if no other hyphen and digit can be reached. -/
theorem matchAt_guess (hne : a ≠ []) (hchars : ∀ c ∈ a, isNameChar c = true) (hd : isDigit d = true)
    (hlast : ∀ x e y, d :: u = x ++ '-' :: e :: y → (∀ c ∈ x, isNameChar c = true) → isDigit e = false) :
    matchAt fixedInBuildRe (a ++ '-' :: d :: u) 0 = some ⟨0, a.length + 2, [(1, a)]⟩ := by
  have hgreedy := (greedy_some1 (t := a ++ '-' :: d :: u) (p := isNameChar) (s := ⟨0, []⟩)).group (i := 1)
    fun _ => rfl
  have hspan : a.length ≤ spanLen (a ++ '-' :: d :: u) isNameChar 0 := by
    rw [spanLen, List.drop_zero, List.takeWhile_append_of_pos hchars, List.length_append]
    omega
  have hdrop : (a ++ '-' :: d :: u).drop a.length = '-' :: d :: u := List.drop_left
  have hfirst : (run (a ++ '-' :: d :: u) fixedInBuildRe ⟨0, []⟩).head? = some ⟨a.length + 2, [(1, a)]⟩ := by
    refine hgreedy.head?_cat (List.length_pos_of_ne_nil hne) hspan ?_ ?_
    · have hnext := run_hyphenDigit (s := ⟨a.length, [(1, a)]⟩) hdrop hd
      show (run _ (.cat (.lit "-".toList) (.chr isDigit))
        ⟨0 + a.length, [(1, (List.drop 0 (a ++ '-' :: d :: u)).take a.length)]⟩).head? = _
      rw [Nat.zero_add, List.drop_zero, List.take_left, hnext]
      rfl
    · -- another hyphen with a digit behind it, in reach of the name
      intro j hj hreach
      apply List.eq_nil_iff_forall_not_mem.mpr
      intro s hs
      obtain ⟨e, y, hcut, he⟩ := mem_run_hyphenDigit hs
      replace hcut : (a ++ '-' :: d :: u).drop (0 + j) = '-' :: e :: y := hcut
      obtain ⟨k, rfl⟩ := Nat.exists_eq_add_of_lt hj
      have hrest : (d :: u).drop k = '-' :: e :: y := by
        rw [← hcut, Nat.zero_add, Nat.add_assoc, ← List.drop_drop, hdrop, List.drop_succ_cons]
      have hsplit : d :: u = (d :: u).take k ++ '-' :: e :: y := by rw [← hrest, List.take_append_drop]
      have hinside : ∀ c ∈ (d :: u).take k, isNameChar c = true := by
        intro c hc
        obtain ⟨i, hi⟩ := List.mem_iff_getElem?.mp hc
        rw [List.getElem?_take] at hi
        split at hi
        · have hin : inClass isNameChar (a ++ '-' :: d :: u)[0 + (a.length + (i + 1))]? = true :=
            spanLen_spec (lt_of_lt_of_le (by omega) hreach)
          rw [Nat.zero_add, ← List.getElem?_drop, hdrop, List.getElem?_cons_succ, hi] at hin
          exact hin
        · cases hi
      rw [hlast _ e y hsplit hinside] at he
      cases he
  exact matchAt_of_head? hfirst

/-- The release reads as the continuation of a name: the version has nothing but characters of a name, and
the release begins with a digit. -/
def Build.RunsOn (b : Build) : Prop :=
  (∀ c ∈ b.version, isNameChar c = true) ∧ ∃ d ∈ b.release.head?, isDigit d = true

/-- Where summary and labels name no package, the guess is what is found in the build. -/
theorem extract_of_match {t : Str} {m : Match} (hsummary : search summaryRe summary = none)
    (hlabels : search labelsRe labels = none) (hne : t ≠ []) (hmatch : matchAt fixedInBuildRe t 0 = some m) :
    extractPackageGuess summary labels t = m.group 1 := by
  unfold extractPackageGuess
  simp only [hsummary, hlabels, hmatch, if_neg hne]

theorem Build.nvr_ne_nil (b : Build) (source : Bool) : b.nvr source ≠ [] :=
  List.append_ne_nil_of_left_ne_nil b.nonempty _

/-- The name, where the release does not run on. -/
theorem guess_name (b : Build) (source : Bool) (hsummary : search summaryRe summary = none)
    (hlabels : search labelsRe labels = none) (hends : ¬ b.RunsOn) :
    extractPackageGuess summary labels (b.nvr source) = b.name := by
  obtain ⟨d, v, hversion, hd⟩ := b.digit
  have hmatch := matchAt_guess (u := v ++ '-' :: (b.release ++ if source then ".src.rpm".toList else []))
    b.nonempty b.chars hd ?_
  · refine extract_of_match hsummary hlabels (b.nvr_ne_nil source) (Eq.trans ?_ hmatch)
    rw [Build.nvr, hversion, List.cons_append]
  · intro x e y hcut hx
    rw [← List.cons_append, ← hversion] at hcut
    obtain ⟨rfl, htail⟩ := hyphen_cut b.version_hyphen (b.tail_hyphen source) hcut
    -- the digit would be the first character of the release, or of the suffix if there is no release
    by_contra he
    rw [Bool.not_eq_false] at he
    cases hrelease : b.release with
    | nil =>
        rw [hrelease, List.nil_append] at htail
        cases source with
        | true =>
            have hdot : e = '.' := Option.some.inj (congrArg List.head? htail)
            rw [hdot, show isDigit '.' = false from rfl] at he
            cases he
        | false => cases htail
    | cons c r =>
        rw [hrelease, List.cons_append] at htail
        obtain ⟨rfl, -⟩ := List.cons_eq_cons.mp htail
        exact hends ⟨hx, e, by rw [hrelease]; rfl, he⟩

/-- The name and the version, where it does. -/
theorem guess_name_version (b : Build) (source : Bool) (hsummary : search summaryRe summary = none)
    (hlabels : search labelsRe labels = none) (hruns : b.RunsOn) :
    extractPackageGuess summary labels (b.nvr source) = b.name ++ '-' :: b.version := by
  obtain ⟨hversion, d, hhead, hd⟩ := hruns
  obtain ⟨r, hrelease⟩ := List.head?_eq_some_iff.mp hhead
  have hchars : ∀ c ∈ b.name ++ '-' :: b.version, isNameChar c = true := by
    intro c hc
    rcases List.mem_append.mp hc with hc | hc
    · exact b.chars c hc
    · rcases List.mem_cons.mp hc with rfl | hc
      · decide
      · exact hversion c hc
  have hmatch := matchAt_guess (u := r ++ if source then ".src.rpm".toList else [])
    (List.append_ne_nil_of_left_ne_nil b.nonempty ('-' :: b.version)) hchars hd ?_
  · refine extract_of_match hsummary hlabels (b.nvr_ne_nil source) (Eq.trans ?_ hmatch)
    rw [Build.nvr, hrelease, List.append_assoc, List.cons_append, List.cons_append]
  · intro x e y hcut hx
    have htail := b.tail_hyphen source
    rw [hrelease, List.cons_append, hcut] at htail
    exact absurd (List.mem_append_right _ List.mem_cons_self) htail

/-- **`guess_is_name_iff`** — the package guessed from the build that has the fix is the one that
`split_nvr` names exactly if the release does not run on. -/
theorem guess_is_name_iff (b : Build) (source : Bool) (hsummary : search summaryRe summary = none)
    (hlabels : search labelsRe labels = none) :
    extractPackageGuess summary labels (b.nvr source) = (splitNvr (b.nvr source)).1 ↔ ¬ b.RunsOn := by
  rw [splitNvr_build]
  constructor
  · intro hsame hruns
    rw [guess_name_version b source hsummary hlabels hruns] at hsame
    have hlen := congrArg List.length hsame
    rw [List.length_append, List.length_cons] at hlen
    omega
  · exact guess_name b source hsummary hlabels

/-! ## Two builds -/

/-- `rust-1.90.0~beta.2-1.hum1`: the tilde ends what can be a name. -/
def betaBuild : Build where
  name := "rust".toList
  nonempty := by decide
  chars := by decide
  version := "1.90.0~beta.2".toList
  release := "1.hum1".toList
  digit := ⟨'1', ".90.0~beta.2".toList, rfl, rfl⟩
  version_hyphen := by decide
  release_hyphen := by decide
  version_slash := by decide
  release_slash := by decide

/-- `rust-1.90.0-1.hum1` -/
def finalBuild : Build where
  name := "rust".toList
  nonempty := by decide
  chars := by decide
  version := "1.90.0".toList
  release := "1.hum1".toList
  digit := ⟨'1', ".90.0".toList, rfl, rfl⟩
  version_hyphen := by decide
  release_hyphen := by decide
  version_slash := by decide
  release_slash := by decide

theorem betaBuild_ends : ¬ betaBuild.RunsOn := by
  rintro ⟨hchars, -⟩
  have hmem : '~' ∈ betaBuild.version := by
    show '~' ∈ "1.90.0~beta.2".toList
    decide
  exact absurd (hchars '~' hmem) (by decide)

end

theorem guess_is_name_beta : letI := asciiTables
    extractPackageGuess [] "Security".toList (betaBuild.nvr true) = (splitNvr (betaBuild.nvr true)).1 := by
  let _ := asciiTables
  exact (guess_is_name_iff betaBuild true (by decide +kernel) (by decide +kernel)).mpr betaBuild_ends

/-- The version is taken for a part of the name. -/
theorem rust_guessed_with_version : letI := asciiTables
    finalBuild.nvr true = "rust-1.90.0-1.hum1.src.rpm".toList ∧
      extractPackageGuess [] "Security".toList (finalBuild.nvr true) = "rust-1.90.0".toList ∧
      (splitNvr (finalBuild.nvr true)).1 = "rust".toList := by
  let _ := asciiTables
  refine ⟨by decide, ?_, splitNvr_build finalBuild true⟩
  refine guess_name_version finalBuild true (by decide +kernel) (by decide +kernel) ⟨by decide, '1', rfl, rfl⟩

end HummingbirdRpms
