/-
# HummingbirdRpms.Releases — the releases that repeated rebuilds give a package.

`bump_release` of `ci/dist_git.py` is given the release a package has and, where it ships Fedora's, the
Fedora release it is based on.  The first rebuild of a base takes the branch that compares the two, every
later one the branch that splits off a number suffix; what ties them together is that the split finds
the base again, also where the base ends in a number suffix of its own.

**`bumpSuffix_number`** and **`bumpSuffix_plain`** say what the split does.  **`rebuilds_increase`** puts
the steps together: the releases are the base with `.1`, `.2` and so on, each newer than those before it,
and all of them older than the next integer release.
-/
import HummingbirdRpms.Lib.RpmVersion
import HummingbirdRpms.Rebuild

namespace HummingbirdRpms

open Lib Lib.Text Lib.Regex Lib.RpmVersion

section

variable [UnicodeTables]

/-! ## Splitting off a number suffix -/

/-- A text that ends in a number suffix. -/
structure NumberSuffixed (release base number : Str) : Prop where
  eq : release = base ++ '.' :: number
  nonempty : number ≠ []
  digits : ∀ c ∈ number, isDigit c = true

/-- `\.(\d+)$` -/
def numberTail : Re := Re.seq [.lit ".", .group 2 (Re.some1 isDigit), .eot]

variable {release base number : Str}

theorem isDigit_ne_dot {c : Char} (h : isDigit c = true) : c ≠ '.' := by
  rintro rfl
  rw [isDigit_of_lt (by decide)] at h
  exact absurd h (by decide)

theorem isDigit_ne_newline {c : Char} (h : isDigit c = true) : c ≠ '\n' := by
  rintro rfl
  rw [isDigit_of_isSpace (by decide)] at h
  exact Bool.false_ne_true h

theorem NumberSuffixed.drop_length (h : NumberSuffixed release base number) :
    release.drop base.length = '.' :: number := by
  rw [h.eq, List.drop_left]

theorem NumberSuffixed.drop_succ (h : NumberSuffixed release base number) :
    release.drop (base.length + 1) = number := by
  rw [← List.drop_drop, h.drop_length]
  rfl

theorem NumberSuffixed.length (h : NumberSuffixed release base number) :
    release.length = base.length + 1 + number.length := by
  rw [h.eq, List.length_append, List.length_cons]
  omega

theorem NumberSuffixed.no_newline (h : NumberSuffixed release base number) (hline : '\n' ∉ base) :
    '\n' ∉ release := by
  rw [h.eq, List.mem_append, List.mem_cons]
  rintro (hmem | heq | hmem)
  · exact hline hmem
  · exact absurd heq (by decide)
  · exact isDigit_ne_newline (h.digits _ hmem) rfl

/-- From the end of the base the number suffix matches. -/
theorem NumberSuffixed.head?_tail (h : NumberSuffixed release base number) (caps : List (Nat × Str)) :
    (run release numberTail ⟨base.length, caps⟩).head? = some ⟨release.length, (2, number) :: caps⟩ := by
  have hdot : run release (.lit ".") ⟨base.length, caps⟩ = [⟨base.length + 1, caps⟩] := by
    rw [run_lit, h.drop_length, if_pos (by simp [List.isPrefixOf])]
    rfl
  have hlongest : Longest release (Re.some1 isDigit) ⟨base.length + 1, caps⟩ number.length :=
    longest_some1 (u := []) (by rw [h.drop_succ, List.append_nil]) h.nonempty h.digits rfl
  have hgroup := hlongest.head?_group (i := 2) (u := []) (by rw [h.drop_succ, List.append_nil])
  have hend : base.length + 1 + number.length = release.length := h.length.symm
  unfold numberTail
  rw [Re.seq, run_cat, hdot, List.flatMap_singleton, Re.seq, Regex.head?_cat]
  obtain ⟨others, hrun⟩ := List.head?_eq_some_iff.mp hgroup
  have heot : run release .eot ⟨base.length + 1 + number.length, (2, number) :: caps⟩ =
      [⟨release.length, (2, number) :: caps⟩] := by
    rw [run_eot, if_pos (Or.inl hend.ge), hend]
  rw [hrun, List.findSome?_cons, Re.seq, heot]
  rfl

/-- What follows the base inside its number suffix is not another one. -/
theorem NumberSuffixed.run_tail_nil (h : NumberSuffixed release base number) {j : Nat}
    (hj : base.length < j) (caps : List (Nat × Str)) : run release numberTail ⟨j, caps⟩ = [] := by
  rw [List.eq_nil_iff_forall_not_mem]
  intro e he
  obtain ⟨m, hm, -⟩ := mem_run_seq_cons.mp he
  obtain ⟨hdot, -⟩ := mem_run_lit.mp hm
  have hmem : '.' ∈ release.drop j := hdot.subset List.mem_cons_self
  have hsuffix : release.drop j <:+ number := by
    rw [← h.drop_succ]
    exact List.drop_suffix_drop_left _ hj
  exact isDigit_ne_dot (h.digits _ (hsuffix.subset hmem)) rfl

omit [UnicodeTables] in
theorem spanLen_line {t : Str} (hline : '\n' ∉ t) : spanLen t (· != '\n') 0 = t.length := by
  have hall : ∀ c ∈ t, (c != '\n') = true := by
    intro c hc
    simp only [bne_iff_ne, ne_eq]
    rintro rfl
    exact hline hc
  rw [spanLen, List.drop_zero, List.takeWhile_eq_self_iff.mpr hall]

/-- A way that the number suffix matches splits the text. -/
theorem numberSuffixed_of_tail {t : Str} {s e : St} (hline : '\n' ∉ t) (he : e ∈ run t numberTail s) :
    ∃ number, NumberSuffixed t (t.take s.pos) number := by
  obtain ⟨m, hm, he⟩ := mem_run_seq_cons.mp he
  obtain ⟨⟨u, hu⟩, rfl⟩ := mem_run_lit.mp hm
  obtain ⟨m, hm, he⟩ := mem_run_seq_cons.mp he
  obtain ⟨d, hd, rfl⟩ := mem_run_group.mp hm
  obtain ⟨k, hk1, hk, rfl⟩ := mem_run_some1.mp hd
  have hk : k ≤ spanLen t isDigit (s.pos + 1) := hk
  have hdrop : t.drop (s.pos + 1) = u := by
    rw [← List.drop_drop, ← hu]
    rfl
  have hlen : u.length = t.length - (s.pos + 1) := by rw [← hdrop, List.length_drop]
  have hpos : s.pos < t.length := by
    by_contra hge
    rw [List.drop_eq_nil_of_le (by omega)] at hu
    exact absurd hu (by simp)
  -- the pattern ends where the text does, because no line break ends it
  have hend : t.length ≤ s.pos + 1 + k := by
    rcases (mem_run_eot.mp he).1 with hend | hbreak
    · exact hend
    · exact absurd (List.mem_of_mem_drop (hbreak ▸ List.mem_singleton_self '\n')) hline
  have hspan : spanLen t isDigit (s.pos + 1) ≤ u.length := by
    rw [spanLen, hdrop]
    exact (List.takeWhile_prefix _).length_le
  have hku : k = u.length := by omega
  refine ⟨u, ?_, ?_, ?_⟩
  · rw [← List.singleton_append, show ['.'] = ".".toList from rfl, hu, List.take_append_drop]
  · intro hnil
    rw [hnil, List.length_nil] at hku
    omega
  · intro c hc
    obtain ⟨i, hi, rfl⟩ := List.getElem_of_mem hc
    obtain ⟨c, hget, hdigit⟩ := inClass_iff.mp (spanLen_spec (lt_of_lt_of_le (hku ▸ hi) hk))
    rw [← List.getElem?_drop, hdrop, List.getElem?_eq_getElem hi] at hget
    exact Option.some.inj hget ▸ hdigit

/-! ## The two patterns of a number suffix -/

/-- What a pattern that begins with a captured base says of a text that ends in a number suffix. -/
theorem matchAt_numberSuffixed {r : Re} {lo : Nat} (h : NumberSuffixed release base number)
    (hlo : lo ≤ base.length)
    (hr : Greedy release r ⟨0, []⟩ lo release.length fun k => ⟨0 + k, []⟩) :
    matchAt (.cat (.group 1 r) numberTail) release 0 =
      some ⟨0, release.length, [(2, number), (1, base)]⟩ := by
  have hgroup := hr.group (i := 1) fun k => rfl
  have hbase : (release.drop 0).take base.length = base := by
    rw [List.drop_zero, h.eq, List.take_left]
  have hle : base.length ≤ release.length := by
    have := h.length
    omega
  have hhead : (run release (.cat (.group 1 r) numberTail) ⟨0, []⟩).head? =
      some ⟨release.length, [(2, number), (1, base)]⟩ := by
    refine hgroup.head?_cat hlo hle ?_ fun j hj _ => ?_
    · rw [Nat.zero_add, hbase]
      exact h.head?_tail _
    · rw [Nat.zero_add]
      exact h.run_tail_nil hj _
  rw [matchAt, hhead]
  rfl

/-- The pattern does not match a line that does not end in a number suffix. -/
theorem matchAt_plain {r : Re} {lo : Nat} (hline : '\n' ∉ release)
    (hplain : ∀ base number, lo ≤ base.length → ¬ NumberSuffixed release base number)
    (hr : Greedy release r ⟨0, []⟩ lo release.length fun k => ⟨0 + k, []⟩) :
    matchAt (.cat (.group 1 r) numberTail) release 0 = none := by
  have hnil : run release (.cat (.group 1 r) numberTail) ⟨0, []⟩ = [] := by
    refine (hr.group fun k => rfl).run_cat_nil fun j hlo hj => ?_
    rw [List.eq_nil_iff_forall_not_mem]
    intro e he
    obtain ⟨number, hnumber⟩ := numberSuffixed_of_tail hline he
    refine hplain _ number ?_ hnumber
    show lo ≤ (release.take (0 + j)).length
    rw [Nat.zero_add, List.length_take]
    omega
  rw [matchAt, hnil]
  rfl

omit [UnicodeTables] in
theorem greedy_numberSuffixRe {t : Str} (hline : '\n' ∉ t) :
    Greedy t (Re.some1 (· != '\n')) ⟨0, []⟩ 1 t.length fun k => ⟨0 + k, []⟩ := by
  have h : Greedy t (Re.some1 (· != '\n')) ⟨0, []⟩ 1 (spanLen t (· != '\n') 0) fun k => ⟨0 + k, []⟩ :=
    greedy_some1
  rwa [spanLen_line hline] at h

omit [UnicodeTables] in
theorem greedy_macroSuffixRe {t : Str} (hline : '\n' ∉ t) :
    Greedy t (.many true (· != '\n')) ⟨0, []⟩ 0 t.length fun k => ⟨0 + k, []⟩ := by
  have h : Greedy t (.many true (· != '\n')) ⟨0, []⟩ 0 (spanLen t (· != '\n') 0) fun k => ⟨0 + k, []⟩ :=
    greedy_many
  rwa [spanLen_line hline] at h

/-- **`bumpSuffix_number`** — a number suffix of a line is incremented, when there is a base before it. -/
theorem bumpSuffix_number (h : NumberSuffixed release base number) (hline : '\n' ∉ base)
    (hbase : base ≠ []) :
    bumpSuffix numberSuffixRe release = base ++ ".".toList ++ ofNat (intOfDigits number + 1) := by
  have hmatch := matchAt_numberSuffixed h (List.length_pos_iff.mpr hbase)
    (greedy_numberSuffixRe (h.no_newline hline))
  rw [bumpSuffix, show matchAt numberSuffixRe release 0 = _ from hmatch]
  rfl

/-- **`bumpSuffix_plain`** — a line without a number suffix after a base gets its first one. -/
theorem bumpSuffix_plain (hline : '\n' ∉ release)
    (hplain : ∀ base number, base ≠ [] → ¬ NumberSuffixed release base number) :
    bumpSuffix numberSuffixRe release = release ++ ".1".toList := by
  have hmatch := matchAt_plain hline
    (fun base number hlo => hplain base number (List.length_pos_iff.mp hlo)) (greedy_numberSuffixRe hline)
  rw [bumpSuffix, show matchAt numberSuffixRe release 0 = _ from hmatch]

/-- The same for the suffix of an unexpanded release, which needs no base. -/
theorem bumpMacroSuffix_number (h : NumberSuffixed release base number) (hline : '\n' ∉ base) :
    bumpSuffix macroSuffixRe release = base ++ ".".toList ++ ofNat (intOfDigits number + 1) := by
  have hmatch := matchAt_numberSuffixed h (Nat.zero_le _) (greedy_macroSuffixRe (h.no_newline hline))
  rw [bumpSuffix, show matchAt macroSuffixRe release 0 = _ from hmatch]
  rfl

theorem bumpMacroSuffix_plain (hline : '\n' ∉ release)
    (hplain : ∀ base number, ¬ NumberSuffixed release base number) :
    bumpSuffix macroSuffixRe release = release ++ ".1".toList := by
  have hmatch := matchAt_plain hline (fun base number _ => hplain base number) (greedy_macroSuffixRe hline)
  rw [bumpSuffix, show matchAt macroSuffixRe release 0 = _ from hmatch]

/-! ## Repeated rebuilds -/

/-- The release after `n` rebuilds of a base. -/
def rebuilds (base : Str) (n : Nat) : Str := (fun release => bumpRelease release (some base))^[n] base

theorem rebuilds_add_one (n : Nat) : rebuilds base (n + 1) = bumpRelease (rebuilds base n) (some base) :=
  Function.iterate_succ_apply' _ _ _

theorem numberSuffixed_ofNat (base : Str) (n : Nat) :
    NumberSuffixed (base ++ ".".toList ++ ofNat n) base (ofNat n) where
  eq := by
    rw [List.append_assoc]
    rfl
  nonempty := ofNat_ne_nil n
  digits := fun _ hc => isDigit_of_ascii (isAsciiDigit_of_mem_ofNat hc)

/-- The first rebuild of a base. -/
theorem bumpRelease_base (hbase : base ≠ []) : bumpRelease base (some base) = base ++ ".".toList ++ ofNat 1 := by
  have hgiven : given (some base) = some base := by
    rw [given, Option.filter_some, if_pos (by simpa using hbase)]
  rw [bumpRelease, if_pos hgiven, List.append_assoc]
  rfl

/-- A later rebuild of a base. -/
theorem bumpRelease_rebuilt (hbase : base ≠ []) (hline : '\n' ∉ base) (n : Nat) :
    bumpRelease (base ++ ".".toList ++ ofNat n) (some base) = base ++ ".".toList ++ ofNat (n + 1) := by
  have hother : given (some base) ≠ some (base ++ ".".toList ++ ofNat n) := by
    intro h
    obtain ⟨heq, -⟩ := Option.filter_eq_some_iff.mp h
    have hlen := congrArg List.length (Option.some.inj heq)
    rw [List.append_assoc, List.length_append, List.length_append] at hlen
    have hone : ".".toList.length = 1 := rfl
    omega
  rw [bumpRelease, if_neg hother, bumpSuffix_number (numberSuffixed_ofNat base n) hline hbase,
    intOfDigits_ofNat]

/-- **`rebuilds_eq`** — the release after some rebuilds is the base with their number as its suffix. -/
theorem rebuilds_eq (hbase : base ≠ []) (hline : '\n' ∉ base) (n : Nat) :
    rebuilds base (n + 1) = base ++ ".".toList ++ ofNat (n + 1) := by
  induction n with
  | zero => exact bumpRelease_base hbase
  | succ n ih => rw [rebuilds_add_one, ih, bumpRelease_rebuilt hbase hline]

/-! ## Their order -/

omit [UnicodeTables] in
theorem sections_rebuilt (base : Str) (n : Nat) :
    sections (base ++ ".".toList ++ ofNat n) = sections base ++ [.digits (ofNat n)] := by
  rw [List.append_assoc, show ".".toList = ['.'] from rfl, List.singleton_append,
    sections_separated (by decide), sections_digits (ofNat_ne_nil n) fun _ => isAsciiDigit_of_mem_ofNat]

omit [UnicodeTables] in
theorem decimal_ofNat (n : Nat) : decimal (ofNat n) = n := by
  rw [decimal, ofNat_eq, Nat.ofDigitChars_ten_toDigits]

/-- **`rebuilds_increase`** — rebuilding a base that is one line gives it the suffixes `.1`, `.2` and so
on; each release is newer than those before it, the base among them, and where the base is an integer,
all of them are older than the next one. -/
theorem rebuilds_increase {compareVersions : Str → Str → Ordering} (hversions : FollowsSections compareVersions)
    (hbase : base ≠ []) (hline : '\n' ∉ base) :
    (∀ n, 1 ≤ n → rebuilds base n = base ++ ".".toList ++ ofNat n) ∧
      (∀ i j, i < j → compareVersions (rebuilds base i) (rebuilds base j) = .lt) ∧
      ((∀ c ∈ base, isAsciiDigit c = true) → ∀ n,
        compareVersions (rebuilds base n) (ofNat (intOfDigits base + 1)) = .lt) := by
  have hrebuilt : ∀ n, 1 ≤ n → rebuilds base n = base ++ ".".toList ++ ofNat n := by
    intro n hn
    obtain ⟨k, rfl⟩ := Nat.exists_eq_add_of_le' hn
    exact rebuilds_eq hbase hline k
  refine ⟨hrebuilt, ?_, ?_⟩
  · intro i j hij
    rw [hrebuilt j (by omega)]
    cases i with
    | zero => exact hversions.longer (sections_rebuilt base j)
    | succ i =>
        rw [hrebuilt (i + 1) (by omega)]
        refine hversions.larger (sections_rebuilt base (i + 1)) (sections_rebuilt base j) ?_
        rw [decimal_ofNat, decimal_ofNat]
        exact hij
  · intro hdigits n
    have hnext : sections (ofNat (intOfDigits base + 1)) = [] ++ .digits (ofNat (intOfDigits base + 1)) :: [] :=
      sections_digits (ofNat_ne_nil _) fun _ => isAsciiDigit_of_mem_ofNat
    have hlt : decimal base < decimal (ofNat (intOfDigits base + 1)) := by
      rw [decimal_ofNat, intOfDigits_ascii hdigits]
      exact Nat.lt_succ_self _
    cases n with
    | zero =>
        have hsections : sections base = [] ++ .digits base :: [] := sections_digits hbase hdigits
        exact hversions.larger hsections hnext hlt
    | succ n =>
        rw [hrebuilt (n + 1) (by omega)]
        have hsections : sections (base ++ ".".toList ++ ofNat (n + 1)) =
            [] ++ .digits base :: [.digits (ofNat (n + 1))] := by
          rw [sections_rebuilt, sections_digits hbase hdigits]
          rfl
        exact hversions.larger hsections hnext hlt

end

/-- The releases of a package that Fedora ships with release 3. -/
theorem rebuilds_increase_three :
    letI := asciiTables
    (∀ n, 1 ≤ n → rebuilds "3" n = "3".toList ++ ".".toList ++ ofNat n) ∧
      (∀ i j, i < j → vercmp (rebuilds "3" i) (rebuilds "3" j) = .lt) ∧
      ((∀ c ∈ "3".toList, isAsciiDigit c = true) → ∀ n,
        vercmp (rebuilds "3" n) (ofNat (intOfDigits "3" + 1)) = .lt) := by
  let _ := asciiTables
  exact rebuilds_increase vercmp_followsSections (by decide) (by decide)

example : letI := asciiTables; rebuilds "3.1" 2 = "3.1.2".toList := by decide +kernel

end HummingbirdRpms
