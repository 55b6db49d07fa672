/-
# HummingbirdRpms.VersionOrder — the order of upstream versions.

`ci/check_upstream_versions.py` compares a package's version with upstream's.  The tags of OpenJDK are
taken to RPM's scheme first: `_openjdk_to_rpm` writes `21.0.12+8` as `21.0.12.0.8`.  Then
`compare_versions` asks `rpm.labelCompare`, or, where RPM's bindings are missing, the `packaging` library;
and texts that the library does not take for versions are compared as texts.

**`openjdk_order`** — the transform keeps the order of versions, as long as the digits in front of the plus
sign are ASCII digits, which RPM's comparison knows.
**`compareVersions_order`** — `compare_versions` is antisymmetric; with RPM's order it is a total preorder,
and without it exactly where no text that is no version comes between two versions that stand in another
order than their texts.
-/
import HummingbirdRpms.Lib.RegexSplit
import HummingbirdRpms.UpstreamCheck

namespace HummingbirdRpms

open Lib Lib.Text Lib.Regex Lib.RpmVersion

/-! ## OpenJDK versions -/

section

variable [UnicodeTables]

/-- A version that `_openjdk_to_rpm` accepts: `a.b.c+n` or `a.b.c.p+n`. -/
structure OpenJdkVersion where
  a : Str
  b : Str
  c : Str
  patch : Option Str
  build : Str
  a_digits : WordOver isDigit a
  b_digits : WordOver isDigit b
  c_digits : WordOver isDigit c
  patch_digits : ∀ p ∈ patch, WordOver isDigit p
  build_digits : WordOver isDigit build

namespace OpenJdkVersion

/-- `a.b.c` -/
def base (v : OpenJdkVersion) : Str := v.a ++ (".".toList ++ (v.b ++ (".".toList ++ v.c)))

/-- The version as upstream writes it. -/
def text (v : OpenJdkVersion) : Str :=
  v.base ++ ((v.patch.elim [] fun p => ".".toList ++ p) ++ ("+".toList ++ v.build))

/-- The version in RPM's scheme. -/
def rpm (v : OpenJdkVersion) : Str :=
  join ".".toList [v.a, v.b, v.c, v.patch.getD "0".toList, ofNat (intOfDigits v.build)]

/-- The numbers `(a, b, c, p, n)`, where a missing `p` is zero. -/
def numbers (v : OpenJdkVersion) : List Nat :=
  [intOfDigits v.a, intOfDigits v.b, intOfDigits v.c, (v.patch.map intOfDigits).getD 0, intOfDigits v.build]

/-- What the groups of the pattern capture. -/
def captures (v : OpenJdkVersion) : List (Nat × Str) :=
  (3, v.build) :: ((v.patch.elim [] fun p => [(2, p)]) ++ [(1, v.base)])

end OpenJdkVersion

variable {v w : OpenJdkVersion} {s t r u : Str}

/-- The two signs are no digits. -/
theorem isDigit_dot (x : Str) : inClass isDigit (".".toList ++ x).head? = false :=
  (isDigit_of_lt (by decide : '.'.toNat < 128)).trans rfl

theorem isDigit_plus (x : Str) : inClass isDigit ("+".toList ++ x).head? = false :=
  (isDigit_of_lt (by decide : '+'.toNat < 128)).trans rfl

theorem way_base {x z y : Str} {caps caps' : List (Nat × Str)} :
    Way x (Re.seq [Re.some1 isDigit, .lit ".", Re.some1 isDigit, .lit ".", Re.some1 isDigit]) z y caps caps' ↔
      ∃ a b c, z = a ++ (".".toList ++ (b ++ (".".toList ++ c))) ∧ WordOver isDigit a ∧ WordOver isDigit b ∧
        WordOver isDigit c ∧ caps' = caps := by
  constructor
  · intro h
    obtain ⟨a, w₁, c₁, rfl, ha, h₁⟩ := way_seq_cons.mp h
    obtain ⟨ha', rfl⟩ := way_some1.mp ha
    obtain ⟨_, w₂, c₂, rfl, ⟨rfl, rfl⟩, h₂⟩ := way_seq_cons.mp h₁
    obtain ⟨b, w₃, c₃, rfl, hb, h₃⟩ := way_seq_cons.mp h₂
    obtain ⟨hb', rfl⟩ := way_some1.mp hb
    obtain ⟨_, c, c₄, rfl, ⟨rfl, rfl⟩, hc⟩ := way_seq_cons.mp h₃
    obtain ⟨hc', rfl⟩ := way_some1.mp hc
    exact ⟨a, b, c, rfl, ha', hb', hc', rfl⟩
  · rintro ⟨a, b, c, rfl, ha, hb, hc, rfl⟩
    refine way_seq_cons.mpr ⟨_, _, _, rfl, way_some1.mpr ⟨ha, rfl⟩, ?_⟩
    refine way_seq_cons.mpr ⟨_, _, _, rfl, ⟨rfl, rfl⟩, ?_⟩
    refine way_seq_cons.mpr ⟨_, _, _, rfl, way_some1.mpr ⟨hb, rfl⟩, ?_⟩
    exact way_seq_cons.mpr ⟨_, _, _, rfl, ⟨rfl, rfl⟩, way_some1.mpr ⟨hc, rfl⟩⟩

/-- The ways the pattern matches are the versions. -/
theorem way_openjdk {z y : Str} {caps' : List (Nat × Str)} (ht : t = z ++ y) :
    Way [] openjdkRe z y [] caps' ↔ y = [] ∧ ∃ v : OpenJdkVersion, t = v.text ∧ caps' = v.captures := by
  subst ht
  constructor
  · intro h
    obtain ⟨_, w₁, c₁, rfl, ⟨c₂, hbase, rfl⟩, h₁⟩ := way_seq_cons.mp h
    obtain ⟨a, b, c, rfl, ha, hb, hc, rfl⟩ := way_base.mp hbase
    obtain ⟨_, w₂, c₃, rfl, hpatch, h₂⟩ := way_seq_cons.mp h₁
    obtain ⟨_, w₃, c₄, rfl, ⟨rfl, rfl⟩, h₃⟩ := way_seq_cons.mp h₂
    obtain ⟨build, w₄, c₅, rfl, hbuild, rfl, rfl, rfl⟩ := way_seq_cons.mp h₃
    obtain ⟨hbuild', rfl⟩ := way_group_word.mp hbuild
    refine ⟨rfl, ?_⟩
    rcases hpatch with ⟨_, p, c₆, rfl, ⟨rfl, rfl⟩, hp⟩ | ⟨rfl, rfl⟩
    · obtain ⟨hp', rfl⟩ := way_group_word.mp hp
      refine ⟨⟨a, b, c, some p, build, ha, hb, hc, ?_, hbuild'⟩, ?_, rfl⟩
      · rintro _ ⟨⟩
        exact hp'
      · simp [OpenJdkVersion.text, OpenJdkVersion.base]
    · refine ⟨⟨a, b, c, none, build, ha, hb, hc, by simp, hbuild'⟩, ?_, rfl⟩
      simp [OpenJdkVersion.text, OpenJdkVersion.base]
  · rintro ⟨rfl, v, htext, rfl⟩
    rw [List.append_nil] at htext
    subst htext
    refine way_seq_cons.mpr ⟨v.base, _, _, rfl, ⟨_, way_base.mpr ⟨v.a, v.b, v.c, rfl, v.a_digits, v.b_digits, v.c_digits, rfl⟩, rfl⟩, ?_⟩
    refine way_seq_cons.mpr ⟨v.patch.elim [] fun p => ".".toList ++ p, _, (v.patch.elim [] fun p => [(2, p)]) ++ [(1, v.base)], rfl, ?_, ?_⟩
    · cases hp : v.patch with
      | none => exact Or.inr ⟨rfl, rfl⟩
      | some p => exact Or.inl ⟨_, _, _, rfl, ⟨rfl, rfl⟩, way_group_word.mpr ⟨v.patch_digits p hp, rfl⟩⟩
    · refine way_seq_cons.mpr ⟨_, _, _, rfl, ⟨rfl, rfl⟩, ?_⟩
      exact way_seq_cons.mpr ⟨v.build, [], _, (List.append_nil _).symm, way_group_word.mpr ⟨v.build_digits, rfl⟩, rfl, rfl, rfl⟩

/-- What follows `c`: a sign. -/
theorem isDigit_tail (v : OpenJdkVersion) :
    inClass isDigit ((v.patch.elim [] fun p => ".".toList ++ p) ++ ("+".toList ++ v.build)).head? = false := by
  cases v.patch with
  | none => exact isDigit_plus v.build
  | some p => exact isDigit_dot (p ++ ("+".toList ++ v.build))

/-- A text is one version at most. -/
theorem openjdk_unique (h : v.text = w.text) : v = w := by
  obtain ⟨a, b, c, patch, build, ha, hb, hc, hpatch, hbuild⟩ := v
  obtain ⟨a', b', c', patch', build', ha', hb', hc', hpatch', hbuild'⟩ := w
  have htail := isDigit_tail ⟨a, b, c, patch, build, ha, hb, hc, hpatch, hbuild⟩
  have htail' := isDigit_tail ⟨a', b', c', patch', build', ha', hb', hc', hpatch', hbuild'⟩
  dsimp only at htail htail'
  simp only [OpenJdkVersion.text, OpenJdkVersion.base, List.append_assoc] at h
  obtain ⟨rfl, h₁⟩ := word_cancel ha.2 ha'.2 (isDigit_dot _) (isDigit_dot _) h
  obtain ⟨rfl, h₂⟩ := word_cancel hb.2 hb'.2 (isDigit_dot _) (isDigit_dot _) (List.append_cancel_left h₁)
  obtain ⟨rfl, h₃⟩ := word_cancel hc.2 hc'.2 htail htail' (List.append_cancel_left h₂)
  cases patch with
  | none =>
      cases patch' with
      | none =>
          obtain rfl : build = build' := List.append_cancel_left (List.append_cancel_left h₃)
          rfl
      | some p' => exact absurd (List.cons.inj h₃).1 (by decide)
  | some p =>
      cases patch' with
      | none => exact absurd (List.cons.inj h₃).1 (by decide)
      | some p' =>
          have h₄ : ".".toList ++ (p ++ ("+".toList ++ build)) = ".".toList ++ (p' ++ ("+".toList ++ build')) := by
            simpa using h₃
          obtain ⟨rfl, h₅⟩ := word_cancel (hpatch p rfl).2 (hpatch' p' rfl).2 (isDigit_plus _) (isDigit_plus _)
            (List.append_cancel_left h₄)
          obtain rfl := List.append_cancel_left h₅
          rfl

/-- `_openjdk_to_rpm` accepts the versions, and writes their numbers between dots. -/
theorem openjdkToRpm_iff : openjdkToRpm t = some r ↔ ∃ v : OpenJdkVersion, t = v.text ∧ r = v.rpm := by
  have hmatch : ∀ m, matchAt openjdkRe t 0 = some m ↔
      ∃ v : OpenJdkVersion, t = v.text ∧ m = ⟨0, t.length, v.captures⟩ := fun m =>
    matchAt_zero_iff (fun _ _ _ ht => way_openjdk ht) fun v w hv hw => openjdk_unique (hv.symm.trans hw)
  have hgroups : ∀ v : OpenJdkVersion, (let m : Match := ⟨0, t.length, v.captures⟩
      m.group 1 ++ ".".toList ++ (if m.group 2 = [] then "0".toList else m.group 2) ++ ".".toList ++
        ofNat (intOfDigits (m.group 3))) = v.rpm := by
    intro v
    have hbase : Match.group ⟨0, t.length, v.captures⟩ 1 = v.base := by
      rw [Match.group, OpenJdkVersion.captures]
      cases v.patch <;> rfl
    have hbuild : Match.group ⟨0, t.length, v.captures⟩ 3 = v.build := rfl
    have hpatch : (if Match.group ⟨0, t.length, v.captures⟩ 2 = [] then "0".toList
        else Match.group ⟨0, t.length, v.captures⟩ 2) = v.patch.getD "0".toList := by
      rw [Match.group, OpenJdkVersion.captures]
      cases hp : v.patch with
      | none => rfl
      | some p => exact if_neg (v.patch_digits p hp).1
    simp only [hbase, hbuild, hpatch, OpenJdkVersion.rpm, OpenJdkVersion.base, join, List.append_assoc]
  rw [openjdkToRpm, Option.map_eq_some_iff]
  constructor
  · rintro ⟨m, hm, rfl⟩
    obtain ⟨v, htext, rfl⟩ := (hmatch m).mp hm
    exact ⟨v, htext, hgroups v⟩
  · rintro ⟨v, htext, rfl⟩
    exact ⟨_, (hmatch _).mpr ⟨v, htext, rfl⟩, hgroups v⟩

/-- The digits in front of the plus sign are ASCII digits. -/
def AsciiNumbers (version : Str) : Prop :=
  ∀ c ∈ version.takeWhile (· ≠ '+'), isDigit c = true → isAsciiDigit c = true

theorem takeWhile_text (v : OpenJdkVersion) :
    v.text.takeWhile (· ≠ '+') = v.base ++ v.patch.elim [] fun p => ".".toList ++ p := by
  have hplus : isDigit '+' = false := isDigit_of_lt (by decide)
  have hword : ∀ {w : Str}, WordOver isDigit w → ∀ c ∈ w, c ≠ '+' := by
    rintro w hw c hc rfl
    rw [hw.2 _ hc] at hplus
    exact Bool.noConfusion hplus
  have hfront : ∀ c ∈ v.base ++ v.patch.elim [] fun p => ".".toList ++ p, c ≠ '+' := by
    have hdot : ∀ c ∈ ".".toList, c ≠ '+' := by decide
    intro c hc
    simp only [OpenJdkVersion.base, List.mem_append] at hc
    rcases hc with (hc | hc | hc | hc | hc) | hc
    · exact hword v.a_digits c hc
    · exact hdot c hc
    · exact hword v.b_digits c hc
    · exact hdot c hc
    · exact hword v.c_digits c hc
    · cases hp : v.patch with
      | none =>
          rw [hp] at hc
          exact absurd hc List.not_mem_nil
      | some p =>
          rw [hp] at hc
          rcases List.mem_append.mp hc with hc | hc
          · exact hdot c hc
          · exact hword (v.patch_digits p hp) c hc
  rw [OpenJdkVersion.text, ← List.append_assoc, List.takeWhile_append_of_pos (by simpa using hfront)]
  exact List.append_nil _

/-- The numbers of a version, as `_openjdk_to_rpm` writes them. -/
def OpenJdkVersion.parts (v : OpenJdkVersion) : List Str :=
  [v.a, v.b, v.c, v.patch.getD "0".toList, ofNat (intOfDigits v.build)]

theorem decimal_eq_intOfDigits {ds : Str} (h : ∀ c ∈ ds, isAsciiDigit c = true) : decimal ds = intOfDigits ds :=
  (intOfDigits_ascii h).symm

theorem isNumeral_parts (h : AsciiNumbers v.text) : ∀ ds ∈ v.parts, IsNumeral ds := by
  have hnumeral : ∀ {ds : Str}, WordOver isDigit ds →
      (∀ c ∈ ds, c ∈ v.base ++ v.patch.elim [] fun p => ".".toList ++ p) → IsNumeral ds := by
    intro ds hds hmem
    refine ⟨hds.1, fun c hc => h c ?_ (hds.2 c hc)⟩
    rw [takeWhile_text]
    exact hmem c hc
  intro ds hds
  simp only [OpenJdkVersion.parts, List.mem_cons, List.not_mem_nil, or_false] at hds
  rcases hds with rfl | rfl | rfl | rfl | rfl
  · exact hnumeral v.a_digits fun c hc => by simp [OpenJdkVersion.base, hc]
  · exact hnumeral v.b_digits fun c hc => by simp [OpenJdkVersion.base, hc]
  · exact hnumeral v.c_digits fun c hc => by simp [OpenJdkVersion.base, hc]
  · cases hp : v.patch with
    | none => exact ⟨by decide, by decide⟩
    | some p =>
        refine hnumeral (v.patch_digits p hp) fun c hc => List.mem_append_right v.base ?_
        rw [hp]
        exact List.mem_append_right ".".toList hc
  · exact ⟨ofNat_ne_nil _, fun c => isAsciiDigit_of_mem_ofNat⟩

/-- What stands between the dots are the numbers of the version. -/
theorem decimal_parts (h : AsciiNumbers v.text) : v.parts.map decimal = v.numbers := by
  have hdecimal : ∀ ds ∈ v.parts, decimal ds = intOfDigits ds :=
    fun ds hds => decimal_eq_intOfDigits (isNumeral_parts h ds hds).2
  have hpatch : intOfDigits (v.patch.getD "0".toList) = (v.patch.map intOfDigits).getD 0 := by
    cases v.patch <;> rfl
  rw [List.map_congr_left hdecimal]
  simp only [OpenJdkVersion.parts, OpenJdkVersion.numbers, List.map_cons, List.map_nil, hpatch, intOfDigits_ofNat]

/-- **`openjdk_order`** — versions whose digits in front of the plus sign are ASCII digits compare after the
transform as the tuples of their numbers do, and are equal only if these are. -/
theorem openjdk_order {rpmvercmp : Str → Str → Ordering} (hrpm : ∀ a b, rpmvercmp a b = vercmp a b)
    (hs : openjdkToRpm s = some r) (ht : openjdkToRpm t = some u) (hsascii : AsciiNumbers s)
    (htascii : AsciiNumbers t) :
    ∃ v w : OpenJdkVersion, s = v.text ∧ t = w.text ∧ (rpmvercmp r u = .lt ↔ v.numbers < w.numbers) ∧
      (rpmvercmp r u = .gt ↔ w.numbers < v.numbers) ∧ (rpmvercmp r u = .eq ↔ v.numbers = w.numbers) := by
  obtain ⟨v, rfl, rfl⟩ := openjdkToRpm_iff.mp hs
  obtain ⟨w, rfl, rfl⟩ := openjdkToRpm_iff.mp ht
  refine ⟨v, w, rfl, rfl, ?_⟩
  rw [hrpm, ← decimal_parts hsascii, ← decimal_parts htascii]
  exact vercmp_dotted (isNumeral_parts hsascii) (isNumeral_parts htascii) rfl

end

/-- A version in ASCII digits with a patch number, and one without. -/
theorem openjdk_order_patch : letI := asciiTables
    ∃ v w : OpenJdkVersion, "21.0.12+08".toList = v.text ∧ "21.0.12.1+0".toList = w.text ∧
      (vercmp "21.0.12.0.8" "21.0.12.1.0" = .lt ↔ v.numbers < w.numbers) ∧
      (vercmp "21.0.12.0.8" "21.0.12.1.0" = .gt ↔ w.numbers < v.numbers) ∧
      (vercmp "21.0.12.0.8" "21.0.12.1.0" = .eq ↔ v.numbers = w.numbers) :=
  letI := asciiTables
  openjdk_order (fun _ _ => rfl) (by decide +kernel) (by decide +kernel)
    (by unfold AsciiNumbers; decide +kernel) (by unfold AsciiNumbers; decide +kernel)

/-- The tables with the Arabic-Indic digits, which `\d` matches and `int` reads. -/
@[reducible] def arabicTables : UnicodeTables where
  word _ := false
  digit c := 0x660 ≤ c.toNat && c.toNat ≤ 0x669
  digitLike c := 0x660 ≤ c.toNat && c.toNat ≤ 0x669
  digitValue c := c.toNat - 0x660

/-- `d.0.0+1` -/
def featureVersion [UnicodeTables] (d : Char) (hd : isDigit d = true) : OpenJdkVersion where
  a := [d]
  b := "0".toList
  c := "0".toList
  patch := none
  build := "1".toList
  a_digits := ⟨List.cons_ne_nil d [], List.forall_mem_singleton.mpr hd⟩
  b_digits := ⟨by decide, fun c hc => isDigit_of_ascii ((by decide : ∀ c ∈ "0".toList, isAsciiDigit c = true) c hc)⟩
  c_digits := ⟨by decide, fun c hc => isDigit_of_ascii ((by decide : ∀ c ∈ "0".toList, isAsciiDigit c = true) c hc)⟩
  patch_digits := by simp
  build_digits :=
    ⟨by decide, fun c hc => isDigit_of_ascii ((by decide : ∀ c ∈ "1".toList, isAsciiDigit c = true) c hc)⟩

/-- **`arabic_digits_unread`** — RPM's comparison does not read an Arabic-Indic three or four, which the
transform accepts and leaves as it is: such a version comes before `2.0.0+1`, and two of them are equal. -/
theorem arabic_digits_unread : letI := arabicTables
    ∃ three four two : OpenJdkVersion,
      openjdkToRpm three.text = some three.rpm ∧ openjdkToRpm four.text = some four.rpm ∧
      openjdkToRpm two.text = some two.rpm ∧ two.text = "2.0.0+1".toList ∧
      two.numbers < three.numbers ∧ vercmp three.rpm two.rpm = .lt ∧
      three.numbers ≠ four.numbers ∧ vercmp three.rpm four.rpm = .eq :=
  letI := arabicTables
  ⟨featureVersion (Char.ofNat 0x663) (by decide), featureVersion (Char.ofNat 0x664) (by decide),
    featureVersion '2' (by decide), openjdkToRpm_iff.mpr ⟨_, rfl, rfl⟩, openjdkToRpm_iff.mpr ⟨_, rfl, rfl⟩,
    openjdkToRpm_iff.mpr ⟨_, rfl, rfl⟩, rfl, by decide +kernel, by decide +kernel, by decide +kernel,
    by decide +kernel⟩

/-! ## Comparing versions -/

section

variable {V : Type} [LinearOrder V]

/-- `compare_versions` puts the first version not after the second. -/
def NotAfter (tools : UpstreamTools) (a b : Str) : Prop := 0 ≤ compareVersions tools a b

/-- A text that is no version stands between two versions as texts, and the versions are not in this
order. -/
structure Torn (parse : Str → Option V) (x u y : Str) : Prop where
  left : x < u
  right : u < y
  noVersion : parse u = none
  order : ∃ v w, parse x = some v ∧ parse y = some w ∧ w ≤ v

variable {tools : UpstreamTools} {parse : Str → Option V} {a b c : Str}

/-- `compare_versions` where RPM's bindings are installed. -/
theorem compareVersions_rpm {labelCompare : Str → Str → Ordering} (hlabel : tools.labelCompare = some labelCompare)
    (hrpm : ∀ a b, labelCompare a b = vercmp a b) :
    (vercmp a b = .lt → compareVersions tools a b = 1) ∧ (vercmp a b = .eq → compareVersions tools a b = 0) ∧
      (vercmp a b = .gt → compareVersions tools a b = -1) := by
  simp only [compareVersions, hlabel, hrpm]
  refine ⟨?_, ?_, ?_⟩
  · intro h
    rw [h]
  · intro h
    rw [h]
  · intro h
    rw [h]

theorem notAfter_rpm {labelCompare : Str → Str → Ordering} (hlabel : tools.labelCompare = some labelCompare)
    (hrpm : ∀ a b, labelCompare a b = vercmp a b) :
    compareVersions tools a b = -compareVersions tools b a ∧ (NotAfter tools a b ↔ vercmp a b ≠ .gt) := by
  obtain ⟨hlt, heq, hgt⟩ := compareVersions_rpm (a := a) (b := b) hlabel hrpm
  obtain ⟨hlt', heq', hgt'⟩ := compareVersions_rpm (a := b) (b := a) hlabel hrpm
  have hswap := vercmp_swap a b
  rw [NotAfter]
  cases h : vercmp a b with
  | lt =>
      rw [h] at hswap
      rw [hlt h, hgt' hswap.symm]
      exact ⟨rfl, iff_of_true (by decide) (by decide)⟩
  | eq =>
      rw [h] at hswap
      rw [heq h, heq' hswap.symm]
      exact ⟨rfl, iff_of_true (by decide) (by decide)⟩
  | gt =>
      rw [h] at hswap
      rw [hgt h, hlt' hswap.symm]
      exact ⟨rfl, iff_of_false (by decide) (by decide)⟩

/-- The comparison without RPM's bindings, on two versions. -/
theorem compareVersions_versions (hlabel : tools.labelCompare = none)
    (hpackaging : ∀ a b, tools.packaging a b = (parse a).bind fun v => (parse b).map fun w => cmp v w) {v w : V}
    (ha : parse a = some v) (hb : parse b = some w) :
    (v < w → compareVersions tools a b = 1) ∧ (v = w → compareVersions tools a b = 0) ∧
      (w < v → compareVersions tools a b = -1) := by
  have hreply : tools.packaging a b = some (cmp v w) := by
    rw [hpackaging, ha, hb]
    rfl
  refine ⟨?_, ?_, ?_⟩
  · intro h
    rw [(cmp_eq_lt_iff v w).mpr h] at hreply
    simp only [compareVersions, hlabel, hreply]
  · intro h
    rw [(cmp_eq_eq_iff v w).mpr h] at hreply
    simp only [compareVersions, hlabel, hreply]
  · intro h
    rw [(cmp_eq_gt_iff v w).mpr h] at hreply
    simp only [compareVersions, hlabel, hreply]

/-- And on two texts of which one is no version. -/
theorem compareVersions_texts (hlabel : tools.labelCompare = none)
    (hpackaging : ∀ a b, tools.packaging a b = (parse a).bind fun v => (parse b).map fun w => cmp v w)
    (hnone : parse a = none ∨ parse b = none) :
    (a < b → compareVersions tools a b = 1) ∧ (a = b → compareVersions tools a b = 0) ∧
      (b < a → compareVersions tools a b = -1) := by
  have hreply : tools.packaging a b = none := by
    rw [hpackaging]
    rcases hnone with h | h
    · rw [h, Option.bind_none]
    · rw [h]
      cases parse a <;> rfl
  simp only [compareVersions, hlabel, hreply]
  refine ⟨?_, ?_, ?_⟩
  · intro h
    rw [if_pos h]
  · rintro rfl
    rw [if_neg (lt_irrefl _), if_pos rfl]
  · intro h
    rw [if_neg (lt_asymm h), if_neg (ne_of_lt h)]

/-- A comparison that a linear order decides is antisymmetric, and says which of the two is not above. -/
theorem notAfter_of_order {α : Type} [LinearOrder α] {x y : α}
    (hab : (x < y → compareVersions tools a b = 1) ∧ (x = y → compareVersions tools a b = 0) ∧
      (y < x → compareVersions tools a b = -1))
    (hba : (y < x → compareVersions tools b a = 1) ∧ (y = x → compareVersions tools b a = 0) ∧
      (x < y → compareVersions tools b a = -1)) :
    compareVersions tools a b = -compareVersions tools b a ∧ (NotAfter tools a b ↔ ¬ y < x) := by
  obtain ⟨hlt, heq, hgt⟩ := hab
  obtain ⟨hlt', heq', hgt'⟩ := hba
  rw [NotAfter]
  rcases lt_trichotomy x y with h | h | h
  · rw [hlt h, hgt' h]
    exact ⟨rfl, iff_of_true (by decide) (lt_asymm h)⟩
  · rw [heq h, heq' h.symm]
    exact ⟨rfl, iff_of_true (by decide) (h ▸ lt_irrefl x)⟩
  · rw [hgt h, hlt' h]
    exact ⟨rfl, iff_of_false (by decide) (not_not_intro h)⟩

theorem notAfter_versions (hlabel : tools.labelCompare = none)
    (hpackaging : ∀ a b, tools.packaging a b = (parse a).bind fun v => (parse b).map fun w => cmp v w) {v w : V}
    (ha : parse a = some v) (hb : parse b = some w) :
    compareVersions tools a b = -compareVersions tools b a ∧ (NotAfter tools a b ↔ ¬ w < v) :=
  notAfter_of_order (compareVersions_versions hlabel hpackaging ha hb) (compareVersions_versions hlabel hpackaging hb ha)

theorem notAfter_texts (hlabel : tools.labelCompare = none)
    (hpackaging : ∀ a b, tools.packaging a b = (parse a).bind fun v => (parse b).map fun w => cmp v w)
    (hnone : parse a = none ∨ parse b = none) :
    compareVersions tools a b = -compareVersions tools b a ∧ (NotAfter tools a b ↔ ¬ b < a) :=
  notAfter_of_order (compareVersions_texts hlabel hpackaging hnone)
    (compareVersions_texts hlabel hpackaging hnone.symm)

omit [LinearOrder V] in
theorem lt_of_le_of_parse (hle : a ≤ b) (hne : parse a ≠ parse b) : a < b :=
  lt_of_le_of_ne hle fun h => hne (congrArg parse h)

/-- Transitivity at three texts, without RPM's bindings. -/
theorem notAfter_trans (hlabel : tools.labelCompare = none)
    (hpackaging : ∀ a b, tools.packaging a b = (parse a).bind fun v => (parse b).map fun w => cmp v w)
    (h₁ : ¬ Torn parse a b c) (h₂ : ¬ Torn parse c a b) (h₃ : ¬ Torn parse b c a) (hab : NotAfter tools a b)
    (hbc : NotAfter tools b c) : NotAfter tools a c := by
  have htexts : ∀ {x y : Str}, parse x = none ∨ parse y = none → (NotAfter tools x y ↔ x ≤ y) := fun h =>
    (notAfter_texts hlabel hpackaging h).2.trans not_lt
  have hversions : ∀ {x y : Str} {v w : V}, parse x = some v → parse y = some w → (NotAfter tools x y ↔ v ≤ w) :=
    fun hx hy => (notAfter_versions hlabel hpackaging hx hy).2.trans not_lt
  cases ha : parse a with
  | none =>
      rw [htexts (Or.inl ha)] at hab ⊢
      cases hb : parse b with
      | none => exact hab.trans ((htexts (Or.inl hb)).mp hbc)
      | some v =>
          cases hc : parse c with
          | none => exact hab.trans ((htexts (Or.inr hc)).mp hbc)
          | some w =>
              -- `a` is the text that is no version, and would stand between `c` and `b`
              by_contra hca
              exact h₂ ⟨not_le.mp hca, @lt_of_le_of_parse V parse _ _ hab (by rw [ha, hb]; simp), ha, w, v, hc, hb,
                (hversions hb hc).mp hbc⟩
  | some u =>
      cases hb : parse b with
      | none =>
          have hab := (htexts (Or.inr hb)).mp hab
          have hbc := (htexts (Or.inl hb)).mp hbc
          cases hc : parse c with
          | none => exact (htexts (Or.inr hc)).mpr (hab.trans hbc)
          | some w =>
              rw [hversions ha hc]
              by_contra huw
              exact h₁ ⟨@lt_of_le_of_parse V parse _ _ hab (by rw [ha, hb]; simp), @lt_of_le_of_parse V parse _ _ hbc (by rw [hb, hc]; simp),
                hb, u, w, ha, hc, le_of_lt (not_le.mp huw)⟩
      | some v =>
          cases hc : parse c with
          | none =>
              have hbc := (htexts (Or.inr hc)).mp hbc
              rw [htexts (Or.inr hc)]
              by_contra hca
              exact h₃ ⟨@lt_of_le_of_parse V parse _ _ hbc (by rw [hb, hc]; simp), not_le.mp hca, hc, v, u, hb, ha,
                (hversions ha hb).mp hab⟩
          | some w =>
              rw [hversions ha hc]
              exact ((hversions ha hb).mp hab).trans ((hversions hb hc).mp hbc)

/-- **`compareVersions_order`** — `compare_versions` is antisymmetric.  On three texts it is transitive exactly
when RPM's order is used, or none of them is torn between the two others. -/
theorem compareVersions_order (tools : UpstreamTools) (parse : Str → Option V)
    (hrpm : ∀ labelCompare, tools.labelCompare = some labelCompare → ∀ a b, labelCompare a b = vercmp a b)
    (hpackaging : ∀ a b, tools.packaging a b = (parse a).bind fun v => (parse b).map fun w => cmp v w) :
    (∀ a b, compareVersions tools a b = -compareVersions tools b a) ∧
      ∀ texts : List Str,
        (∀ a ∈ texts, ∀ b ∈ texts, ∀ c ∈ texts, NotAfter tools a b → NotAfter tools b c → NotAfter tools a c) ↔
          (tools.labelCompare = none → ∀ x ∈ texts, ∀ u ∈ texts, ∀ y ∈ texts, ¬ Torn parse x u y) := by
  cases hlabel : tools.labelCompare with
  | some labelCompare =>
      have hrpm := hrpm labelCompare hlabel
      refine ⟨fun a b => (notAfter_rpm hlabel hrpm).1, fun texts => iff_of_true ?_ (by simp)⟩
      intro a _ b _ c _ hab hbc
      rw [(notAfter_rpm hlabel hrpm).2] at hab hbc ⊢
      exact vercmp_trans hab hbc
  | none =>
      refine ⟨fun a b => ?_, fun texts => ⟨fun h _ x hx u hu y hy htorn => ?_, fun h a ha b hb c hc => ?_⟩⟩
      · cases ha : parse a with
        | none => exact (notAfter_texts hlabel hpackaging (Or.inl ha)).1
        | some v =>
            cases hb : parse b with
            | none => exact (notAfter_texts hlabel hpackaging (Or.inr hb)).1
            | some w => exact (notAfter_versions hlabel hpackaging ha hb).1
      · -- the three texts form a circle
        obtain ⟨v, w, hxv, hyw, hle⟩ := htorn.order
        have hyx : NotAfter tools y x := (notAfter_versions hlabel hpackaging hyw hxv).2.mpr (not_lt.mpr hle)
        have hxu : NotAfter tools x u :=
          (notAfter_texts hlabel hpackaging (Or.inr htorn.noVersion)).2.mpr (lt_asymm htorn.left)
        have hyu := h y hy x hx u hu hyx hxu
        exact (notAfter_texts hlabel hpackaging (Or.inr htorn.noVersion)).2.mp hyu htorn.right
      · have h := h rfl
        exact notAfter_trans hlabel hpackaging (h a ha b hb c hc) (h c hc a ha b hb) (h b hb c hc a ha)

end

/-- The minor number of the versions `1.9` and `1.10`; `1.1w` is no version to the library. -/
def minorNumber (version : Str) : Option Nat :=
  if version = "1.9" then some 9 else if version = "1.10" then some 10 else none

/-- The tools of a check of these versions, with or without RPM's bindings. -/
def minorTools (labelCompare : Option (Str → Str → Ordering)) : UpstreamTools where
  labelCompare := labelCompare
  packaging a b := (minorNumber a).bind fun v => (minorNumber b).map fun w => cmp v w
  anitya _ _ := .refused []
  anityaById _ := .refused []
  netlocOk _ := true
  replies _ := .urlError []
  head _ _ := .found

/-- **`compareVersions_order_minor`** — both modes on versions of one major number. -/
theorem compareVersions_order_minor :
    (∀ a b, compareVersions (minorTools none) a b = -compareVersions (minorTools none) b a) ∧
      (∀ a ∈ ["1.9".toList, "1.10".toList], ∀ b ∈ ["1.9".toList, "1.10".toList], ∀ c ∈ ["1.9".toList, "1.10".toList],
        NotAfter (minorTools none) a b → NotAfter (minorTools none) b c → NotAfter (minorTools none) a c) ∧
      ∀ texts : List Str, ∀ a ∈ texts, ∀ b ∈ texts, ∀ c ∈ texts, NotAfter (minorTools (some vercmp)) a b →
        NotAfter (minorTools (some vercmp)) b c → NotAfter (minorTools (some vercmp)) a c := by
  obtain ⟨hanti, htrans⟩ := compareVersions_order (minorTools none) minorNumber (fun _ h => nomatch h)
    fun _ _ => rfl
  obtain ⟨-, hrpm⟩ := compareVersions_order (minorTools (some vercmp)) minorNumber
    (fun _ h _ _ => by rw [← Option.some.inj h]) fun _ _ => rfl
  refine ⟨hanti, (htrans _).mpr fun _ x hx u hu y hy htorn => ?_, fun texts => (hrpm texts).mpr fun h => nomatch h⟩
  have hnone := htorn.noVersion
  rcases List.mem_cons.mp hu with rfl | hu
  · exact absurd hnone (by decide)
  · rw [List.mem_singleton.mp hu] at hnone
    exact absurd hnone (by decide)

/-- **`openssl_circle`** — without RPM's bindings, `1.9` is not after `1.10`, which is not after `1.1w`, but
`1.9` is after `1.1w`. -/
theorem openssl_circle : NotAfter (minorTools none) "1.9" "1.10" ∧ NotAfter (minorTools none) "1.10" "1.1w" ∧
    ¬ NotAfter (minorTools none) "1.9" "1.1w" := by
  unfold NotAfter
  decide +kernel

end HummingbirdRpms
