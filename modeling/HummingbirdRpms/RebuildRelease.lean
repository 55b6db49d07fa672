/-
# HummingbirdRpms.RebuildRelease — whether a rebuild writes the release that it has computed.

`rebuild_package` computes the new release from what rpm makes of the spec file, and from the base that
the metadata records.  `update_release_in_spec` writes that release where the spec file spells its release
out; where a macro stands in it, it increments the text and does not look at the base.

rpm is a parameter: `RpmReads` says of it that it expands the text of the release and strips it, that it
leaves a text without macros as it is, and that a number suffix which follows the macros stays.  With
that, **`rebuild_computes_iff`** says for which releases and bases the two agree.
-/
import HummingbirdRpms.Lib.Lines
import HummingbirdRpms.ReleaseEdit

namespace HummingbirdRpms

open Lib Lib.Text Lib.Regex Lib.Exec

/-! ## Lines and white space -/

theorem lstripBy_suffix {p : Char → Bool} {s rest : Str} {c : Char} (hc : p c = false) :
    lstripBy p (s ++ c :: rest) = lstripBy p s ++ c :: rest := by
  unfold lstripBy
  rw [List.dropWhile_append]
  split
  · rename_i hempty
    rw [List.isEmpty_iff.mp hempty, List.dropWhile_cons_of_neg (by simp [hc]), List.nil_append]
  · rfl

theorem rstripBy_self {p : Char → Bool} {s : Str} (h : ∀ c ∈ s.getLast?, p c = false) : rstripBy p s = s := by
  rw [rstripBy, List.rdropWhile_eq_self_iff]
  intro hne
  rw [h _ (List.getLast?_eq_some_getLast hne)]
  simp

section

variable [UnicodeTables]

theorem isSpace_of_isDigit {c : Char} (h : isDigit c = true) : isSpace c = false := by
  cases hspace : isSpace c with
  | false => rfl
  | true =>
      rw [isDigit_of_isSpace hspace] at h
      exact absurd h (by simp)

/-- A number suffix stands where a text is stripped no further. -/
theorem strip_number {s number : Str} (hne : number ≠ []) (hdigits : ∀ c ∈ number, isDigit c = true) :
    strip (s ++ '.' :: number) = lstripBy isSpace s ++ '.' :: number := by
  rw [strip, lstripBy_suffix (by decide)]
  apply rstripBy_self
  intro c hc
  have hlast : number.getLast? = some c := by
    rw [List.getLast?_append, List.getLast?_cons_of_ne_nil hne] at hc
    cases hnumber : number.getLast? with
    | none => exact absurd (List.getLast?_eq_none_iff.mp hnumber) hne
    | some d =>
        rw [hnumber] at hc
        exact hc
  exact isSpace_of_isDigit (hdigits c (List.mem_of_getLast? hlast))

variable {release base number base' number' : Str}

/-- A text ends in one number suffix only. -/
theorem NumberSuffixed.unique (h : NumberSuffixed release base number)
    (h' : NumberSuffixed release base' number') : base = base' ∧ number = number' := by
  have hno : ∀ {number as number' : Str}, (∀ c ∈ number, isDigit c = true) →
      '.' :: number = as ++ '.' :: number' → as = [] := by
    intro number as number' hdigits heq
    cases as with
    | nil => rfl
    | cons c as =>
        have hmem : '.' ∈ number := by
          rw [List.cons_append] at heq
          rw [(List.cons.inj heq).2]
          exact List.mem_append_right _ List.mem_cons_self
        exact absurd rfl (isDigit_ne_dot (hdigits _ hmem))
  rcases List.append_eq_append_iff.mp (h.eq.symm.trans h'.eq) with ⟨as, rfl, heq⟩ | ⟨as, rfl, heq⟩
  · obtain rfl := hno h.digits heq
    rw [List.append_nil]
    exact ⟨rfl, (List.cons.inj heq).2⟩
  · obtain rfl := hno h'.digits heq
    rw [List.append_nil]
    exact ⟨rfl, (List.cons.inj heq).2.symm⟩

/-! ## What the text of a release becomes -/

theorem numberSuffixed_one (release : Str) : NumberSuffixed (release ++ ".1".toList) release "1".toList where
  eq := rfl
  nonempty := by decide
  digits := by
    intro c hc
    obtain rfl := List.mem_singleton.mp hc
    exact isDigit_of_ascii (by decide)

/-- The cases of `bump_release`. -/
theorem bumpRelease_cases (hline : '\n' ∉ release) (upstream : Option Str) :
    (given upstream = some release ∨ ∀ base number, base ≠ [] → ¬ NumberSuffixed release base number) ∧
        bumpRelease release upstream = release ++ ".1".toList ∨
      given upstream ≠ some release ∧ ∃ base number, base ≠ [] ∧ NumberSuffixed release base number ∧
        bumpRelease release upstream = base ++ ".".toList ++ ofNat (intOfDigits number + 1) := by
  unfold bumpRelease
  by_cases hupstream : given upstream = some release
  · left
    exact ⟨Or.inl hupstream, if_pos hupstream⟩
  · rw [if_neg hupstream]
    by_cases hnumbered : ∃ base number, base ≠ [] ∧ NumberSuffixed release base number
    · right
      obtain ⟨base, number, hbase, hnumber⟩ := hnumbered
      refine ⟨hupstream, base, number, hbase, hnumber, bumpSuffix_number hnumber ?_ hbase⟩
      intro hmem
      refine hline ?_
      rw [hnumber.eq]
      exact List.mem_append_left _ hmem
    · left
      have hplain : ∀ base number, base ≠ [] → ¬ NumberSuffixed release base number := by
        intro base number hbase h
        exact hnumbered ⟨base, number, hbase, h⟩
      exact ⟨Or.inr hplain, bumpSuffix_plain hline hplain⟩

/-- The macros of a release and its number suffix are bumped as the expanded release is. -/
structure BumpsAlike (expand : Str → Str) (value current : Str) (upstream : Option Str) : Prop where
  numbered : ∀ base number, NumberSuffixed value base number →
    given upstream ≠ some current ∧ lstripBy isSpace (expand base) ≠ []
  plain : (∀ base number, ¬ NumberSuffixed value base number) →
    (given upstream = some current ∨ ∀ base number, base ≠ [] → ¬ NumberSuffixed current base number) ∧
      strip (expand value) = lstripBy isSpace (expand value)

variable {expand : Str → Str} {value current : Str} {upstream : Option Str}

/-- A release that ends in a number suffix. -/
theorem bumpsAlike_number (hcurrent : current = strip (expand value)) (hline : '\n' ∉ current)
    (hnumber : NumberSuffixed value base number)
    (hsuffix : ∀ number, (∀ c ∈ number, isDigit c = true) →
      expand (base ++ '.' :: number) = expand base ++ '.' :: number) :
    strip (expand (base ++ '.' :: ofNat (intOfDigits number + 1))) = bumpRelease current upstream ↔
      given upstream ≠ some current ∧ lstripBy isSpace (expand base) ≠ [] := by
  have hdigits : ∀ c ∈ ofNat (intOfDigits number + 1), isDigit c = true := fun c hc =>
    isDigit_of_ascii (isAsciiDigit_of_mem_ofNat hc)
  have hexpanded : NumberSuffixed current (lstripBy isSpace (expand base)) number := by
    refine ⟨?_, hnumber.nonempty, hnumber.digits⟩
    rw [hcurrent, hnumber.eq, hsuffix number hnumber.digits, strip_number hnumber.nonempty hnumber.digits]
  rw [hsuffix _ hdigits, strip_number (ofNat_ne_nil _) hdigits]
  rcases bumpRelease_cases hline upstream with ⟨hcase, hbump⟩ | ⟨hupstream, base', number', hbase', h', hbump⟩
  · rw [hbump]
    constructor
    · intro heq
      -- the one has the base of the release before it, the other that release as its base
      have h₁ : NumberSuffixed (current ++ ".1".toList) (lstripBy isSpace (expand base))
          (ofNat (intOfDigits number + 1)) := ⟨heq.symm, ofNat_ne_nil _, hdigits⟩
      have hbase := (h₁.unique (numberSuffixed_one current)).1
      have hlen := hexpanded.length
      rw [hbase] at hlen
      omega
    · rintro ⟨hupstream, hbase⟩
      rcases hcase with hupstream' | hplain
      · exact absurd hupstream' hupstream
      · exact absurd hexpanded (hplain _ _ hbase)
  · obtain ⟨rfl, rfl⟩ := hexpanded.unique h'
    rw [hbump]
    refine iff_of_true ?_ ⟨hupstream, hbase'⟩
    rw [List.append_assoc]
    rfl

/-- A release that does not. -/
theorem bumpsAlike_plain (hcurrent : current = strip (expand value)) (hline : '\n' ∉ current)
    (hsuffix : ∀ number, (∀ c ∈ number, isDigit c = true) →
      expand (value ++ '.' :: number) = expand value ++ '.' :: number) :
    strip (expand (value ++ ".1".toList)) = bumpRelease current upstream ↔
      (given upstream = some current ∨ ∀ base number, base ≠ [] → ¬ NumberSuffixed current base number) ∧
        strip (expand value) = lstripBy isSpace (expand value) := by
  have hone := numberSuffixed_one value
  have hstrip : strip (expand (value ++ ".1".toList)) = lstripBy isSpace (expand value) ++ ".1".toList := by
    rw [hone.eq, hsuffix _ hone.digits, strip_number hone.nonempty hone.digits]
    rfl
  rw [hstrip]
  rcases bumpRelease_cases hline upstream with ⟨hcase, hbump⟩ | ⟨hupstream, base, number, hbase, h, hbump⟩
  · rw [hbump, List.append_left_inj, hcurrent]
    constructor
    · intro heq
      exact ⟨hcurrent ▸ hcase, heq.symm⟩
    · intro h
      exact h.2.symm
  · rw [hbump]
    constructor
    · intro heq
      have h₁ : NumberSuffixed (base ++ ".".toList ++ ofNat (intOfDigits number + 1))
          (lstripBy isSpace (expand value)) "1".toList := heq ▸ numberSuffixed_one _
      obtain ⟨hvalue, hnumber⟩ := h₁.unique (numberSuffixed_ofNat _ _)
      -- stripping on the right would make the release longer
      have hle : current.length ≤ (lstripBy isSpace (expand value)).length := by
        rw [hcurrent, strip, rstripBy]
        exact (List.rdropWhile_prefix _ _).length_le
      rw [hvalue, h.length] at hle
      omega
    · rintro ⟨hupstream' | hplain, -⟩
      · exact absurd hupstream' hupstream
      · exact absurd h (hplain _ _ hbase)

/-- **`bumpsAlike_iff`** — the macro text that is written expands to the release that was computed exactly
where the two are bumped alike. -/
theorem bumpsAlike_iff {next : Str} (hcurrent : current = strip (expand value)) (hline : '\n' ∉ current)
    (hnext : NextSuffix value next)
    (hsuffix : ∀ base number, (base = value ∨ ∃ old, NumberSuffixed value base old) →
      (∀ c ∈ number, isDigit c = true) → expand (base ++ '.' :: number) = expand base ++ '.' :: number) :
    strip (expand next) = bumpRelease current upstream ↔ BumpsAlike expand value current upstream := by
  rcases hnext with ⟨base, number, hnumber, rfl⟩ | ⟨hplain, rfl⟩
  · rw [List.append_assoc, show ".".toList ++ ofNat (intOfDigits number + 1) =
      '.' :: ofNat (intOfDigits number + 1) from rfl, bumpsAlike_number hcurrent hline hnumber
        fun number' => hsuffix base number' (Or.inr ⟨number, hnumber⟩)]
    constructor
    · intro h
      refine ⟨?_, fun hno => absurd hnumber (hno base number)⟩
      intro base' number' h'
      obtain ⟨rfl, rfl⟩ := hnumber.unique h'
      exact h
    · intro h
      exact h.numbered base number hnumber
  · rw [bumpsAlike_plain hcurrent hline fun number => hsuffix value number (Or.inl rfl)]
    constructor
    · intro h
      exact ⟨fun base number hnumber => absurd hnumber (hplain base number), fun _ => h⟩
    · intro h
      exact h.plain hplain

end

/-! ## A spec text with one `Release:` line -/

/-- A spec text with one line that begins with `Release:`, which ends in a dist macro. -/
structure SingleRelease (content pre space value dist post : Str) : Prop where
  eq : content = pre ++ (releaseTag ++ (space ++ (value ++ (dist ++ post))))
  start : pre = [] ∨ pre.getLast? = some '\n'
  single : ∀ i, TagLineAt content i → i = pre.length
  space_ne : space ≠ []
  space_all : ∀ c ∈ space, isSpace c = true ∧ c ≠ '\n'
  stop : inClass isSpace value.head? = false
  value_line : '\n' ∉ value
  dist : dist ∈ distSpellings
  post : post = [] ∨ post.head? = some '\n'

theorem HasField.tagLineAt {t : Str} {i : Nat} (h : HasField t i) : TagLineAt t i := by
  obtain ⟨space, line, rest, cut, hfield, -⟩ := h
  refine ⟨hfield.start, ?_⟩
  rw [hfield.drop]
  exact List.prefix_append _ _

theorem distPrefix_head {s d : Str} (h : distPrefix s = some d) : ∃ u, s = '%' :: '\x7b' :: u := by
  obtain ⟨hmem, u, rfl⟩ := distPrefix_some h
  simp only [distSpellings, List.mem_cons, List.not_mem_nil, or_false] at hmem
  rcases hmem with rfl | rfl
  · exact ⟨"?dist\x7d".toList ++ u, rfl⟩
  · exact ⟨"dist\x7d".toList ++ u, rfl⟩

/-- Within a dist macro no other one begins. -/
theorem distPrefix_drop_dist {d : Str} (hd : d ∈ distSpellings) {k : Nat} (hk : 0 < k) :
    distPrefix (d.drop k) = none := by
  cases hpre : distPrefix (d.drop k) with
  | none => rfl
  | some e =>
      have htail : '%' ∈ d.tail := by
        obtain ⟨u, hu⟩ := distPrefix_head hpre
        have hmem : '%' ∈ d.drop k := by
          rw [hu]
          exact List.mem_cons_self
        rw [← Nat.sub_add_cancel hk, Nat.add_comm, ← List.drop_drop, List.drop_one] at hmem
        exact List.mem_of_mem_drop hmem
      simp only [distSpellings, List.mem_cons, List.not_mem_nil, or_false] at hd
      rcases hd with rfl | rfl
      all_goals exact absurd htail (by decide)

/-- The last dist macro of a line that ends in one. -/
theorem splitLastDist_end {value d : Str} (hd : d ∈ distSpellings) :
    splitLastDist (value ++ d) = some (value, d, []) := by
  have hpre : distPrefix ((value ++ d).drop value.length) = some d := by
    rw [List.drop_left, ← List.append_nil d, distPrefix_append hd, List.append_nil]
  have hsome : distPrefix ((value ++ d).drop value.length) ≠ none := by
    rw [hpre]
    exact Option.some_ne_none d
  obtain ⟨⟨b, e, a⟩, hcut⟩ := splitLastDist_isSome hsome
  obtain ⟨hcutAt, hlater⟩ := splitLastDist_some hcut
  have hle : value.length ≤ b.length := by
    by_contra hlt
    have hnone := hlater value.length (by omega)
    rw [hpre] at hnone
    exact absurd hnone (by simp)
  have hdrop : (value ++ d).drop b.length = e ++ a := by
    rw [hcutAt.eq, List.append_assoc, List.drop_left]
  have hlen : b.length = value.length := by
    by_contra hne
    have hnone := distPrefix_drop_dist hd (k := b.length - value.length) (by omega)
    rw [List.drop_append, List.drop_of_length_le hle, List.nil_append] at hdrop
    rw [hdrop, hcutAt.dist] at hnone
    exact absurd hnone (by simp)
  have heq : value ++ d = b ++ (e ++ a) := by rw [hcutAt.eq, List.append_assoc]
  obtain ⟨rfl, rfl⟩ := List.append_inj heq hlen.symm
  have hdist := hcutAt.dist
  rw [← List.append_nil (e ++ a), distPrefix_append hd] at hdist
  have hnil : a = [] := by simpa using Option.some.inj hdist
  subst hnil
  rw [List.append_nil] at hcut ⊢
  exact hcut

/-- The first one, where no other macro stands before it. -/
theorem splitFirstDist_end {value d : Str} (hd : d ∈ distSpellings)
    (hplain : contains "%\x7b" value = false) : splitFirstDist (value ++ d) = some (value, d, []) := by
  obtain ⟨⟨b, e, a⟩, hcut⟩ := exists_splitFirstDist (@splitLastDist_end value d hd)
  obtain ⟨hcutAt, hearlier⟩ := splitFirstDist_some hcut
  have heq : value ++ d = b ++ (e ++ a) := by rw [hcutAt.eq, List.append_assoc]
  have hge : value.length ≤ b.length := by
    by_contra hlt
    -- a macro that begins earlier would stand in the text, or go on from its last character
    obtain ⟨u, hu⟩ := distPrefix_head hcutAt.dist
    obtain ⟨w, hw⟩ : b <+: value := by
      have hb : b <+: value ++ d := by
        rw [heq]
        exact List.prefix_append _ _
      exact List.prefix_of_prefix_length_le hb (List.prefix_append _ _) (by omega)
    rw [← hw, List.append_assoc, hu] at heq
    have hrest := List.append_cancel_left heq
    rw [← hw] at hplain hlt
    cases w with
    | nil => simp at hlt
    | cons c w =>
        rw [List.cons_append] at hrest
        obtain ⟨rfl, hrest'⟩ := List.cons.inj hrest
        cases w with
        | nil =>
            have hhead := congrArg List.head? hrest'
            rw [List.nil_append, distSpellings_head hd] at hhead
            exact absurd hhead (by simp)
        | cons c w =>
            rw [List.cons_append] at hrest'
            obtain ⟨rfl, -⟩ := List.cons.inj hrest'
            have hin : contains "%\x7b" (b ++ '%' :: '\x7b' :: w) = true := by
              rw [contains_iff]
              exact ⟨b, w, by simp⟩
            rw [hplain] at hin
            exact absurd hin (by simp)
  have hle : b.length ≤ value.length := by
    by_contra hlt
    have hnone := hearlier value.length (by omega)
    rw [List.drop_left, ← List.append_nil d, distPrefix_append hd] at hnone
    exact absurd hnone (by simp)
  obtain ⟨rfl, rfl⟩ := List.append_inj heq (by omega)
  have hdist := hcutAt.dist
  rw [← List.append_nil (e ++ a), distPrefix_append hd] at hdist
  have hnil : a = [] := by simpa using Option.some.inj hdist
  subst hnil
  rw [List.append_nil] at hcut ⊢
  exact hcut

section

variable {content pre space value dist post : Str}

theorem SingleRelease.fieldAt (h : SingleRelease content pre space value dist post) :
    FieldAt content pre.length space (value ++ dist) post where
  start := by
    rcases h.start with rfl | hlast
    · exact Or.inl rfl
    · right
      have hpos : pre ≠ [] := by
        rintro rfl
        exact absurd hlast (by simp)
      have hlen := List.length_pos_iff.mpr hpos
      rw [prev?, if_neg (by omega), h.eq, List.getElem?_append_left (by omega), ← hlast,
        List.getLast?_eq_getElem?]
  drop := by rw [h.eq, List.drop_left, List.append_assoc]
  space_ne := h.space_ne
  space_all := fun c hc => (h.space_all c hc).1
  stop := by
    rw [List.append_assoc]
    apply inClass_head?_append h.stop
    rw [List.head?_append, distSpellings_head h.dist]
    rfl
  one := by
    rw [List.mem_append, not_or]
    exact ⟨h.value_line, not_mem_of_distSpellings h.dist⟩
  rest := h.post

/-- The one line is the one field. -/
theorem SingleRelease.pieces (h : SingleRelease content pre space value dist post) :
    Pieces content 0 pre [(⟨space, value ++ dist⟩, post)] := by
  have hfield := h.fieldAt
  have hspace := List.length_pos_iff.mpr h.space_ne
  have hno : ∀ k, k ≠ pre.length → ¬ HasField content k := by
    intro k hk hhas
    exact hk (h.single k hhas.tagLineAt)
  have hend := (hfield.lineAt.tail le_rfl).drop
  rw [List.drop_length, List.nil_append] at hend
  have hstop : pre.length + 8 + space.length + (value ++ dist).length ≤ content.length := by
    have hlen := congrArg List.length hfield.drop
    simp only [List.length_append, List.length_drop, releaseTag_length] at hlen
    rw [List.length_append]
    omega
  have hrest := pieces_of_none hstop fun k hk => hno k (by omega)
  rw [hend] at hrest
  have hall := hrest.cons (i := 0) (Nat.zero_le _) (fun k _ hk => hno k (by omega)) hfield
    (splitLastDist_end h.dist)
  rw [Nat.sub_zero, List.drop_zero, h.eq, List.take_left, ← h.eq] at hall
  exact hall

variable [UnicodeTables] {specFile : Path} {newRelease content' : Str}

omit [UnicodeTables] in
theorem SingleRelease.beforeLast_eq (h : SingleRelease content pre space value dist post) :
    beforeLast (value ++ dist) = value := by
  rw [beforeLast, splitLastDist_end h.dist]
  rfl

/-- What becomes of the text: a macro is bumped as it is written, any other release is replaced. -/
theorem SingleRelease.edited (h : SingleRelease content pre space value dist post)
    (hok : updateReleaseText specFile newRelease content = .ok content') :
    ∃ release spelling, content' = pre ++ (releaseTag ++ (space ++ (release ++ (spelling ++ post)))) ∧
      spelling ∈ distSpellings ∧ (contains "%\x7b" value = true → NextSuffix value release) ∧
      (contains "%\x7b" value = false → release = newRelease) := by
  obtain ⟨_, _, _, heq, hedit⟩ := updateReleaseText_pieces h.pieces hok
  obtain ⟨⟨rfl, rfl⟩, rfl⟩ : (_ = _ ∧ _ = _) ∧ _ = _ := by simpa using heq
  rw [glue, glue, editedText] at hedit
  cases hmac : contains "%\x7b" value with
  | true =>
      have hbased : isMacroBased (value ++ dist) = true := by rw [isMacroBased, h.beforeLast_eq, hmac]
      have hafter : afterLast (value ++ dist) = [] := by
        rw [afterLast, splitLastDist_end h.dist]
        rfl
      rw [editedLine_based hbased, h.beforeLast_eq, hafter, List.append_nil] at hedit
      refine ⟨_, distMacro, ?_, by decide, fun _ => (nextSuffix_iff h.value_line).mpr rfl, by simp⟩
      rw [hedit]
      simp only [List.append_assoc]
  | false =>
      have hbased : isMacroBased (value ++ dist) = false := by rw [isMacroBased, h.beforeLast_eq, hmac]
      have hfirst := splitFirstDist_end h.dist hmac
      rw [editedLine_plain hbased, firstDist, afterFirst, hfirst] at hedit
      refine ⟨newRelease, dist, ?_, h.dist, by simp, fun _ => rfl⟩
      rw [hedit]
      simp only [Option.map_some, Option.getD_some, List.append_nil, List.append_assoc]

end

/-! ## What rpm makes of it -/

/-- What rpm does with the text of a release, in a spec file that is given but for that text: it expands
and strips it, a text without macros is its own expansion, a number suffix stays what it is, and the
expansion of the release has no macro left. -/
structure RpmReads [UnicodeTables] (env : Env) (dir : Tree) (specFile : Path) (pre space value post : Str)
    (expand : Str → Str) : Prop where
  reads (t : Tree) (release dist : Str) (printed : Str × Str) : (∀ q, q ≠ specFile → t.read q = dir.read q) →
    readText t specFile = .ok (pre ++ (releaseTag ++ (space ++ (release ++ (dist ++ post))))) →
    dist ∈ distSpellings → parseSpecVersion env t = .ok printed → printed.2 = strip (expand release)
  literal (s : Str) : '%' ∉ s → expand s = s
  suffix (base number : Str) : (base = value ∨ ∃ old, NumberSuffixed value base old) →
    (∀ c ∈ number, isDigit c = true) → expand (base ++ '.' :: number) = expand base ++ '.' :: number
  expanded : '%' ∉ expand value

theorem isLineBreak_of_parse {env : Env} {dir : Tree} {printed : Str × Str}
    (h : parseSpecVersion env dir = .ok printed) : ∀ c ∈ printed.2, isLineBreak c = false := by
  unfold parseSpecVersion at h
  split at h
  · obtain ⟨proc, -, h⟩ := except_bind_ok_iff.mp h
    obtain ⟨_, -, h⟩ := except_bind_ok_iff.mp h
    split at h
    · rename_i version release rest hlines
      obtain rfl := Except.ok.inj h
      have hmem : release ∈ splitlines (strip proc.stdout) := by
        rw [hlines]
        simp
      exact isLineBreak_of_mem_splitlines hmem
    · exact absurd h (by simp)
  · exact absurd h (by simp [exit])

/-- What a stripped text begins with is not white space. -/
theorem lstripBy_of_prefix {s base rest : Str} (h : strip s = base ++ rest) : lstripBy isSpace base = base := by
  cases base with
  | nil => rfl
  | cons c base =>
      have hhead : (lstripBy isSpace s).head? = some c := by
        obtain ⟨u, hu⟩ := List.rdropWhile_prefix isSpace (lstripBy isSpace s)
        rw [show List.rdropWhile isSpace (lstripBy isSpace s) = strip s from rfl, h] at hu
        rw [← hu]
        rfl
      have hnot := List.head?_dropWhile_not isSpace s
      rw [show (List.dropWhile isSpace s).head? = some c from hhead] at hnot
      rw [lstripBy, List.dropWhile_cons_of_neg (by simpa using hnot)]

section

variable [UnicodeTables] {env : Env} {package reason : Str} {dryRun : Bool} {w w' : World}
  {metadata : PackageMetadata} {resolved : Tree} {specFile : Path}
  {content pre space value dist post version release : Str} {expand : Str → Str} {upstream : Option Str}

theorem NextSuffix.not_mem {next : Str} {c : Char} (h : NextSuffix value next) (hc : c ∉ value)
    (hdigit : isAsciiDigit c = false) (hdot : c ≠ '.') : c ∉ next := by
  have hone : c ∉ ".1".toList := by
    intro hmem
    rcases List.mem_cons.mp hmem with rfl | hmem
    · exact hdot rfl
    · obtain rfl := List.mem_singleton.mp hmem
      exact absurd hdigit (by decide)
  rcases h with ⟨base, number, hnumber, rfl⟩ | ⟨-, rfl⟩
  · rw [hnumber.eq] at hc
    intro hmem
    rcases List.mem_append.mp hmem with hmem | hmem
    · rcases List.mem_append.mp hmem with hmem | hmem
      · exact hc (List.mem_append_left _ hmem)
      · exact hdot (List.mem_singleton.mp hmem)
    · rw [isAsciiDigit_of_mem_ofNat hmem] at hdigit
      exact absurd hdigit (by simp)
  · intro hmem
    rcases List.mem_append.mp hmem with hmem | hmem
    · exact hc hmem
    · exact hone hmem

/-- The release that is computed is the next one in text, of the release or of its base. -/
theorem bumpRelease_not_mem {current : Str} {c : Char} (hline : '\n' ∉ current) (hc : c ∉ current)
    (hdigit : isAsciiDigit c = false) (hdot : c ≠ '.') : c ∉ bumpRelease current upstream := by
  have hone : c ∉ ".1".toList := by
    intro hmem
    rcases List.mem_cons.mp hmem with rfl | hmem
    · exact hdot rfl
    · obtain rfl := List.mem_singleton.mp hmem
      exact absurd hdigit (by decide)
  rcases bumpRelease_cases hline upstream with ⟨-, hbump⟩ | ⟨-, base, number, -, hnumber, hbump⟩
  · rw [hbump, List.mem_append, not_or]
    exact ⟨hc, hone⟩
  · rw [hbump]
    exact NextSuffix.not_mem (Or.inl ⟨base, number, hnumber, rfl⟩) hc hdigit hdot

/-- A release that has been computed from a stripped one is stripped. -/
theorem strip_bumpRelease {s : Str} (hline : '\n' ∉ strip s) :
    strip (bumpRelease (strip s) upstream) = bumpRelease (strip s) upstream := by
  rcases bumpRelease_cases hline upstream with ⟨-, hbump⟩ | ⟨-, base, number, -, hnumber, hbump⟩
  · have hone := numberSuffixed_one (strip s)
    rw [hbump, hone.eq, strip_number hone.nonempty hone.digits,
      lstripBy_of_prefix (List.append_nil _).symm]
  · have hnext := numberSuffixed_ofNat base (intOfDigits number + 1)
    rw [hbump, hnext.eq, strip_number hnext.nonempty hnext.digits, lstripBy_of_prefix hnumber.eq]

omit [UnicodeTables] in
theorem readText_write {t : Tree} {text : Str} (h : '\r' ∉ text) :
    readText (t.write specFile (.text text)) specFile = .ok text := by
  rw [readText, Tree.read_write_self]
  exact congrArg Except.ok (universalNewlines_eq_self h)

omit [UnicodeTables] in
theorem not_mem_of_readText {t : Tree} {text : Str} (h : readText t specFile = .ok text) : '\r' ∉ text := by
  unfold readText at h
  cases hfile : t.read specFile with
  | none => simp [hfile] at h
  | some f =>
      rw [hfile] at h
      cases f with
      | text raw =>
          obtain rfl := Except.ok.inj h
          exact not_mem_universalNewlines raw
      | bytes b => simp [decodeText] at h
      | dir => simp [decodeText] at h

/-- What a rebuild that succeeds has gone through. -/
theorem rebuildPackage_ok {u : Unit} (h : rebuildPackage env package reason dryRun w = .ok u w')
    (hmeta : w.metadata package = some metadata)
    (hresolved : resolveAutorelease env package metadata (w.packageDir package) = .ok resolved) :
    ∃ rebuilt, rebuiltDir env metadata resolved = .ok rebuilt ∧ w'.packageDir package = rebuilt := by
  unfold rebuildPackage at h
  rw [run_bind_of_ok (run_get w)] at h
  simp only [hmeta] at h
  rw [run_bind_of_ok (run_get w)] at h
  obtain ⟨-, h⟩ := raiseIf_bind_ok_iff.mp h
  rw [run_bind_of_ok (run_get w)] at h
  obtain ⟨_, hresolved', h⟩ := lift_bind_ok_iff.mp h
  obtain rfl := Except.ok.inj (hresolved.symm.trans hresolved')
  rw [run_bind_of_ok (run_modify _ w)] at h
  obtain ⟨rebuilt, hrebuilt, h⟩ := lift_bind_ok_iff.mp h
  rw [run_bind_of_ok (run_modify _ _)] at h
  refine ⟨rebuilt, hrebuilt, ?_⟩
  cases dryRun with
  | true =>
      obtain ⟨-, rfl⟩ := EStateM.Result.ok.inj h
      exact packageDir_setRpms
  | false =>
      rw [if_neg Bool.false_ne_true, run_bind_of_ok run_gitAddPackage] at h
      rw [gitCommit_ok h]
      exact packageDir_setRpms

/-- The Fedora release that a package is based on, where it ships Fedora's. -/
def baseRelease (metadata : PackageMetadata) : Option Str :=
  if metadata.source.isSome then metadata.release else none

/-- **`rebuild_computes_iff`** — after a rebuild of a package whose spec file has one `Release:` line, rpm
prints the release that was computed, exactly when the text before the dist macro has no macro in it or
is bumped like its expansion. -/
theorem rebuild_computes_iff {u : Unit} {printed : Str × Str}
    (hrun : rebuildPackage env package reason dryRun w = .ok u w')
    (hmeta : w.metadata package = some metadata)
    (hresolved : resolveAutorelease env package metadata (w.packageDir package) = .ok resolved)
    (hglob : resolved.glob ".spec" = [specFile]) (hspec : readText resolved specFile = .ok content)
    (hsingle : SingleRelease content pre space value dist post)
    (hrpm : RpmReads env resolved specFile pre space value post expand)
    (hread : parseSpecVersion env (w'.packageDir package) = .ok printed) :
    ∃ current, parseSpecVersion env resolved = .ok current ∧
      (printed.2 = bumpRelease current.2 (baseRelease metadata) ↔
        (contains "%\x7b" value = true → BumpsAlike expand value current.2 (baseRelease metadata))) := by
  obtain ⟨rebuilt, hrebuilt, hdir⟩ := rebuildPackage_ok hrun hmeta hresolved
  rw [hdir] at hread
  obtain ⟨current, hcurrent, hrebuilt⟩ := except_bind_ok_iff.mp hrebuilt
  refine ⟨current, hcurrent, ?_⟩
  -- the release before is the expanded text, on one line
  have hbefore : current.2 = strip (expand value) :=
    hrpm.reads resolved value dist current (fun _ _ => rfl) (by rw [hspec, hsingle.eq]) hsingle.dist hcurrent
  have hbreak := isLineBreak_of_parse hcurrent
  have hline : '\n' ∉ current.2 := fun hmem => absurd (hbreak _ hmem) (by decide)
  have hreturn : '\r' ∉ current.2 := fun hmem => absurd (hbreak _ hmem) (by decide)
  have hmark : '%' ∉ current.2 := by
    rw [hbefore]
    exact fun hmem => hrpm.expanded ((strip_sublist _).subset hmem)
  -- the text after it is what the edit has made of it
  have hrebuilt : updateReleaseInSpec resolved (bumpRelease current.2 (baseRelease metadata)) = .ok rebuilt :=
    hrebuilt
  unfold updateReleaseInSpec at hrebuilt
  rw [hglob] at hrebuilt
  obtain ⟨content', hcontent', hrebuilt⟩ := except_bind_ok_iff.mp hrebuilt
  obtain rfl := Except.ok.inj (hspec.symm.trans hcontent')
  obtain ⟨written, hwritten, hrebuilt⟩ := except_bind_ok_iff.mp hrebuilt
  obtain rfl := Except.ok.inj hrebuilt
  obtain ⟨release, spelling, htext, hspelling, hmac, hplain⟩ := hsingle.edited hwritten
  have hcr := not_mem_of_readText hspec
  rw [hsingle.eq] at hcr
  simp only [List.mem_append, not_or] at hcr
  obtain ⟨hpre, htag, hspace, hvalue, -, hpost⟩ := hcr
  have hrelease : '\r' ∉ release := by
    cases hcase : contains "%\x7b" value with
    | true => exact (hmac hcase).not_mem hvalue (by decide) (by decide)
    | false =>
        rw [hplain hcase]
        exact bumpRelease_not_mem hline hreturn (by decide) (by decide)
  have hspelling' : '\r' ∉ spelling := by
    simp only [distSpellings, List.mem_cons, List.not_mem_nil, or_false] at hspelling
    rcases hspelling with rfl | rfl
    all_goals decide
  have hwrittenCr : '\r' ∉ written := by
    rw [htext]
    simp only [List.mem_append, not_or]
    exact ⟨hpre, htag, hspace, hrelease, hspelling', hpost⟩
  have hafter : printed.2 = strip (expand release) := by
    refine hrpm.reads _ release spelling printed (fun q hq => Tree.read_write_ne hq) ?_ hspelling hread
    rw [readText_write hwrittenCr, htext]
  rw [hafter]
  cases hcase : contains "%\x7b" value with
  | true =>
      rw [bumpsAlike_iff hbefore hline (hmac hcase) hrpm.suffix]
      simp
  | false =>
      rw [hplain hcase, hrpm.literal _ (bumpRelease_not_mem hline hmark (by decide) (by decide)), hbefore,
        strip_bumpRelease (hbefore ▸ hline)]
      simp

end

/-! ## A base release in a macro -/

section

/-- `%{baserelease}` -/
def baseMacro : Str := "%\x7bbaserelease\x7d"

/-- The definition of the macro. -/
def basePre (base : Str) : Str := "%global baserelease ".toList ++ base ++ "\n".toList

/-- A spec text whose release is the macro. -/
def baseSpec (base : Str) : Str :=
  basePre base ++ (releaseTag ++ (" ".toList ++ (baseMacro ++ (distMacro ++ "\n".toList))))

/-- A text with the macro expanded where it begins with it. -/
def expandBase (base s : Str) : Str :=
  if startsWith baseMacro s then base ++ s.drop baseMacro.length else s

/-- The text of the release in such a spec text. -/
def readBase (base text : Str) : Option Str :=
  (text.dropPrefix? (basePre base ++ releaseTag ++ " ".toList)).bind fun rest =>
    distSpellings.findSome? fun dist => rest.dropSuffix? (dist ++ "\n".toList)

/-- What rpm prints of a release: a release with white space in it is an error. -/
def printRelease (release : Str) : Proc :=
  if release ≠ [] ∧ ∀ c ∈ release, isSpace c = false then
    .exited 0 ("1\n".toList ++ release ++ "\n".toList) []
  else .exited 1 [] []

/-- An environment in which rpm reads such spec files. -/
def baseEnv (base : Str) : Env :=
  { Env.offline with
    commitOk := true
    rpmspec := fun dir _ =>
      match (readText dir "bash.spec").toOption.bind (readBase base) with
      | some release => printRelease (strip (expandBase base release))
      | none => .exited 1 [] [] }

variable {base text release dist : Str}

theorem splitlines_printed (hne : release ≠ []) (hspace : ∀ c ∈ release, isSpace c = false) :
    splitlines (strip ("1\n".toList ++ release ++ "\n".toList)) = ["1".toList, release] := by
  obtain ⟨last, hlast⟩ : ∃ c, release.getLast? = some c := by
    cases h : release.getLast? with
    | none => exact absurd (List.getLast?_eq_none_iff.mp h) hne
    | some c => exact ⟨c, rfl⟩
  have hsolid : Solid ("1\n".toList ++ release) := by
    refine ⟨⟨'1', rfl, by decide⟩, last, ?_, hspace _ (List.mem_of_getLast? hlast)⟩
    rw [List.getLast?_append, hlast]
    rfl
  have hstrip := strip_padded (a := []) (List.forall_mem_nil _) hsolid
    (show ∀ c ∈ "\n".toList, isSpace c = true by decide)
  rw [List.nil_append] at hstrip
  rw [hstrip]
  show ['1'] :: splitlinesAux release [] = _
  rw [splitlinesAux_line (fun c hc => isLineBreak_of_not_isSpace (hspace c hc)) (Or.inl hne)]
  rfl

/-- The text of the release is found, whichever way the dist macro is spelled. -/
theorem readBase_eq (hdist : dist ∈ distSpellings) :
    readBase base (basePre base ++ (releaseTag ++ (" ".toList ++ (release ++ (dist ++ "\n".toList))))) =
      some release := by
  have hpre : (basePre base ++ (releaseTag ++ (" ".toList ++ (release ++ (dist ++ "\n".toList))))).dropPrefix?
      (basePre base ++ releaseTag ++ " ".toList) = some (release ++ (dist ++ "\n".toList)) := by
    rw [← List.append_assoc, ← List.append_assoc]
    have hbeq : (basePre base ++ releaseTag ++ " ".toList == basePre base ++ releaseTag ++ " ".toList) = true :=
      beq_self_eq_true _
    exact List.dropPrefix?_append_of_beq _ hbeq
  have hself : (release ++ (dist ++ "\n".toList)).dropSuffix? (dist ++ "\n".toList) = some release :=
    List.dropSuffix?_eq_some_iff.mpr ⟨_, rfl, beq_self_eq_true _⟩
  rw [readBase, hpre, Option.bind_some]
  simp only [distSpellings, List.mem_cons, List.not_mem_nil, or_false] at hdist
  rcases hdist with rfl | rfl
  · rw [distSpellings, List.findSome?_cons, hself]
  · have hother : (release ++ ("%\x7bdist\x7d".toList ++ "\n".toList)).dropSuffix?
        ("%\x7b?dist\x7d".toList ++ "\n".toList) = none := by
      cases hdrop : (release ++ ("%\x7bdist\x7d".toList ++ "\n".toList)).dropSuffix?
          ("%\x7b?dist\x7d".toList ++ "\n".toList) with
      | none => rfl
      | some release' =>
          obtain ⟨s', heq, hs'⟩ := List.dropSuffix?_eq_some_iff.mp hdrop
          obtain rfl := eq_of_beq hs'
          have hmark : "%\x7b?dist\x7d".toList ++ "\n".toList = "%\x7b".toList ++ "?dist\x7d\n".toList := rfl
          have hname : "%\x7bdist\x7d".toList ++ "\n".toList = "%".toList ++ "\x7bdist\x7d\n".toList := rfl
          rw [hmark, hname, ← List.append_assoc, ← List.append_assoc] at heq
          have htails := (List.append_inj' heq rfl).2
          exact absurd htails (by decide)
    rw [distSpellings, List.findSome?_cons, hother, List.findSome?_cons, hself]

theorem baseEnv_reads [UnicodeTables] (dir : Tree) (hbase : '%' ∉ base) :
    RpmReads (baseEnv base) dir "bash.spec" (basePre base) " " baseMacro "\n" (expandBase base) where
  reads := by
    intro t release dist printed _ htext hdist hparse
    unfold parseSpecVersion at hparse
    split at hparse
    · obtain ⟨proc, hproc, hparse⟩ := except_bind_ok_iff.mp hparse
      obtain ⟨_, hcode, hparse⟩ := except_bind_ok_iff.mp hparse
      have hrelease : (readText t "bash.spec").toOption.bind (readBase base) = some release := by
        rw [htext]
        exact readBase_eq hdist
      have hrun : (printRelease (strip (expandBase base release))).run = .ok proc := by
        rw [← hproc]
        simp only [baseEnv, hrelease]
      unfold printRelease at hrun
      split at hrun
      · rename_i hprinted
        obtain rfl := Except.ok.inj hrun
        dsimp only at hparse
        rw [splitlines_printed hprinted.1 hprinted.2] at hparse
        obtain rfl := Except.ok.inj hparse
        rfl
      · obtain rfl := Except.ok.inj hrun
        exact absurd hcode (by simp [failIf])
    · exact absurd hparse (by simp [exit])
  literal := by
    intro s hs
    rw [expandBase, if_neg]
    rw [startsWith_iff]
    intro hpre
    exact hs (hpre.subset (by decide))
  suffix := by
    intro base' number hvalue _
    rcases hvalue with rfl | ⟨old, hold⟩
    · have hpre : startsWith baseMacro (baseMacro ++ '.' :: number) = true :=
        startsWith_iff.mpr (List.prefix_append _ _)
      have hself : startsWith baseMacro baseMacro = true := startsWith_iff.mpr List.prefix_rfl
      rw [expandBase, expandBase, if_pos hpre, if_pos hself, List.drop_left, List.drop_length,
        List.append_nil]
    · -- the macro does not end in a number
      have hmem : '.' ∈ baseMacro := by
        rw [hold.eq]
        exact List.mem_append_right _ List.mem_cons_self
      exact absurd hmem (by decide)
  expanded := by
    have hself : startsWith baseMacro baseMacro = true := startsWith_iff.mpr List.prefix_rfl
    rw [expandBase, if_pos hself, List.drop_length, List.append_nil]
    exact hbase

theorem TagLineAt.lt {t : Str} {i : Nat} (h : TagLineAt t i) : i < t.length := by
  have hlen := h.2.length_le
  rw [List.length_drop, releaseTag_length] at hlen
  omega

instance {t : Str} {i : Nat} : Decidable (TagLineAt t i) :=
  inferInstanceAs (Decidable ((i = 0 ∨ prev? t i = some '\n') ∧ releaseTag <+: t.drop i))

/-- The spec text has one `Release:` line. -/
theorem baseSpec_single (hstart : (basePre base).getLast? = some '\n')
    (hsingle : ∀ i < (baseSpec base).length, TagLineAt (baseSpec base) i → i = (basePre base).length) :
    SingleRelease (baseSpec base) (basePre base) " " baseMacro distMacro "\n" where
  eq := rfl
  start := Or.inr hstart
  single := fun i h => hsingle i h.lt h
  space_ne := by decide
  space_all := by decide
  stop := by decide
  value_line := by decide
  dist := by decide
  post := Or.inr rfl

/-- A package with such a spec file. -/
def baseMetadata (release : Str) : PackageMetadata :=
  { source := some "https://src.fedoraproject.org/rpms/bash.git", version := "1", release := some release }

def baseWorld (base release : Str) : World :=
  { World.empty with
    metadata := fun _ => some (baseMetadata release)
    rpms := fun _ => some (specDir (baseSpec base)) }

theorem rebuild_computes_iff_base :
    letI := asciiTables
    ∃ w' printed, rebuildPackage (baseEnv "3") "bash" "CVE" false (baseWorld "3" "3") = .ok () w' ∧
      parseSpecVersion (baseEnv "3") (w'.packageDir "bash") = .ok printed ∧
      ∃ current, parseSpecVersion (baseEnv "3") (specDir (baseSpec "3")) = .ok current ∧
        (printed.2 = bumpRelease current.2 (baseRelease (baseMetadata "3")) ↔
          (contains "%\x7b" baseMacro = true →
            BumpsAlike (expandBase "3") baseMacro current.2 (baseRelease (baseMetadata "3")))) := by
  let _ := asciiTables
  have hrun : returns (rebuildPackage (baseEnv "3") "bash" "CVE" false) (baseWorld "3" "3")
      (fun _ w' => (parseSpecVersion (baseEnv "3") (w'.packageDir "bash")).toOption.isSome) = true := by
    decide +kernel
  obtain ⟨⟨⟩, w', hok, hparse⟩ := returns_iff.mp hrun
  obtain ⟨printed, hprinted⟩ := exists_ok hparse
  have hauto : usesAutorelease (specDir (baseSpec "3")) = .ok false := by decide +kernel
  have hresolved : resolveAutorelease (baseEnv "3") "bash" (baseMetadata "3") (specDir (baseSpec "3")) =
      .ok (specDir (baseSpec "3")) := by
    rw [resolveAutorelease, hauto]
    rfl
  refine ⟨w', printed, hok, hprinted, ?_⟩
  exact rebuild_computes_iff hok rfl hresolved (by decide +kernel) (by decide +kernel)
    (baseSpec_single (by decide) (by decide +kernel)) (baseEnv_reads _ (by decide)) hprinted

/-- A base release of 3.1 is rebuilt as 3.1.1, where 3.2 has been computed for the Fedora release 3. -/
theorem rebuild_writes_other :
    letI := asciiTables
    SingleRelease (baseSpec "3.1") (basePre "3.1") " " baseMacro distMacro "\n" ∧
      ∃ w' current printed,
        rebuildPackage (baseEnv "3.1") "bash" "CVE" false (baseWorld "3.1" "3") = .ok () w' ∧
        parseSpecVersion (baseEnv "3.1") (specDir (baseSpec "3.1")) = .ok current ∧
        parseSpecVersion (baseEnv "3.1") (w'.packageDir "bash") = .ok printed ∧
        bumpRelease current.2 (baseRelease (baseMetadata "3")) = "3.2".toList ∧
        printed.2 = "3.1.1".toList := by
  let _ := asciiTables
  refine ⟨baseSpec_single (by decide) (by decide +kernel), ?_⟩
  have hrun : returns (rebuildPackage (baseEnv "3.1") "bash" "CVE" false) (baseWorld "3.1" "3")
      (fun _ w' => parseSpecVersion (baseEnv "3.1") (w'.packageDir "bash") = .ok ("1".toList, "3.1.1".toList))
        = true := by
    decide +kernel
  obtain ⟨⟨⟩, w', hok, hparse⟩ := returns_iff.mp hrun
  rw [decide_eq_true_eq] at hparse
  exact ⟨w', ("1", "3.1"), _, hok, by decide +kernel, hparse, by decide +kernel, rfl⟩

end

end HummingbirdRpms
