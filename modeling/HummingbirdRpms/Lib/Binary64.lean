/-
# HummingbirdRpms.Lib.Binary64 — reading a numeral as a floating-point number.

`float(s)` of a scripting language accepts decimal numerals with an optional sign, point and exponent,
underscores between digits, and the names of infinity and of the number that is none.  The value is the
binary64 number nearest to the decimal one, ties to even.  It is kept exactly, as a multiple of the
smallest positive number `2 ^ -1074` (`round`), so whether it is an integer can be decided.

**`readFloat_digits`** — a string of digits is read as an integer, or as infinity when it is too long:
rounding takes integers to integers (`dvd_round_nat`).

Nothing here names a particular program.
-/
import Mathlib.Tactic.Ring
import HummingbirdRpms.Lib.Text

namespace HummingbirdRpms.Lib.Binary64

open HummingbirdRpms.Lib.Text

/-! ## Rounding -/

/-- `n / d` to the nearest integer, ties to even. -/
def roundHalfEven (n d : Nat) : Nat :=
  if 2 * (n % d) < d ∨ (2 * (n % d) = d ∧ n / d % 2 = 0) then n / d else n / d + 1

/-- The number of units in one. -/
def one : Nat := 2 ^ 1074

/-- The distance between neighbouring numbers near `n` units: 53 bits are kept. -/
def spacing (n : Nat) : Nat := 2 ^ (Nat.log2 n - 52)

/-- `num / den`, rounded, in units of `2 ^ -1074`. -/
def round (num den : Nat) : Nat :=
  let n := num * one
  let u := spacing (n / den)
  roundHalfEven n (den * u) * u

theorem roundHalfEven_of_dvd {n d : Nat} (hd : 0 < d) (h : d ∣ n) : roundHalfEven n d * d = n := by
  have hmod : n % d = 0 := Nat.mod_eq_zero_of_dvd h
  rw [roundHalfEven, if_pos (by omega), Nat.div_mul_cancel h]

/-- Rounding takes an integer to an integer. -/
theorem dvd_round_nat (n : Nat) : one ∣ round n 1 := by
  unfold round
  simp only [Nat.div_one, Nat.one_mul]
  -- either the integers are multiples of the spacing, or the spacing is a multiple of one
  rcases Nat.le_total (Nat.log2 (n * one) - 52) 1074 with hle | hle
  · have hdvd : spacing (n * one) ∣ n * one :=
      Dvd.dvd.mul_left (Nat.pow_dvd_pow 2 hle) n
    have hpos : 0 < spacing (n * one) := Nat.two_pow_pos _
    rw [roundHalfEven_of_dvd hpos hdvd]
    exact Nat.dvd_mul_left one n
  · exact Dvd.dvd.mul_left (Nat.pow_dvd_pow 2 hle) _

/-! ## Numbers -/

/-- What a numeral is read as. -/
inductive Number where
  | nan
  | infinite (negative : Bool)
  | finite (negative : Bool) (units : Nat)
  deriving DecidableEq

/-- The integer a number is equal to, if there is one. -/
def Number.toInt? : Number → Option Int
  | .finite negative units =>
      if units % one = 0 then
        some (if negative then -((units / one : Nat) : Int) else ((units / one : Nat) : Int))
      else none
  | _ => none

/-- The largest finite number is below this many units. -/
def limit : Nat := 2 ^ 2098

/-- `mantissa * 10 ^ exponent` -/
def ofDecimal (negative : Bool) (mantissa : Nat) (exponent : Int) : Number :=
  let units :=
    if 0 ≤ exponent then round (mantissa * 10 ^ exponent.toNat) 1
    else round mantissa (10 ^ (-exponent).toNat)
  if limit ≤ units then .infinite negative else .finite negative units

/-- Without a negative exponent, a decimal is an integer or too large. -/
theorem ofDecimal_nat {negative : Bool} {mantissa : Nat} :
    ofDecimal negative mantissa 0 = .infinite negative ∨
      ∃ n, (ofDecimal negative mantissa 0).toInt? = some n := by
  unfold ofDecimal
  simp only [if_pos (le_refl (0 : Int))]
  split
  · exact Or.inl rfl
  · right
    rw [Number.toInt?, if_pos (Nat.mod_eq_zero_of_dvd (dvd_round_nat _))]
    exact ⟨_, rfl⟩

/-! ## Numerals -/

/-- The value of a string of ASCII digits. -/
def digitsValue (s : Str) : Nat := s.foldl (fun n c => 10 * n + (c.toNat - 48)) 0

/-- The underscores of a numeral dropped, where each stands between two digits; `prev` is the character
before. -/
def dropUnderscores (prev : Char) : Str → Option Str
  | [] => if prev = '_' then none else some []
  | c :: cs =>
      if c = '_' then if isAsciiDigit prev then dropUnderscores c cs else none
      else if prev = '_' && !isAsciiDigit c then none
      else (dropUnderscores c cs).map (c :: ·)

/-- A sign, if there is one: whether it is a minus, and what follows. -/
def readSign : Str → Bool × Str
  | '-' :: cs => (true, cs)
  | '+' :: cs => (false, cs)
  | cs => (false, cs)

/-- What follows the digits of a mantissa: nothing, or an exponent. -/
def readExponent : Str → Option Int
  | [] => some 0
  | c :: cs =>
      if c = 'e' || c = 'E' then
        let (negative, digits) := readSign cs
        if digits ≠ [] ∧ digits.all isAsciiDigit then
          some (if negative then -(digitsValue digits : Int) else digitsValue digits)
        else none
      else none

/-- An unsigned numeral: digits with a point somewhere, and an exponent. -/
def readDecimal (negative : Bool) (s : Str) : Option Number :=
  let whole := s.takeWhile isAsciiDigit
  let rest := s.dropWhile isAsciiDigit
  let frac := if rest.head? = some '.' then rest.tail.takeWhile isAsciiDigit else []
  let rest := if rest.head? = some '.' then rest.tail.dropWhile isAsciiDigit else rest
  if whole ++ frac = [] then none
  else (readExponent rest).map fun e => ofDecimal negative (digitsValue (whole ++ frac)) (e - frac.length)

/-- A numeral without spaces and underscores around it. -/
def readNumber (s : Str) : Option Number :=
  let (negative, s) := readSign s
  if lowerAscii s = "inf" ∨ lowerAscii s = "infinity" then some (.infinite negative)
  else if lowerAscii s = "nan" then some .nan
  else readDecimal negative s

section

variable [U : UnicodeTables]

/-- A decimal digit of any script as an ASCII digit; what is not ASCII otherwise fits nowhere. -/
def asciiDigit (c : Char) : Char :=
  if c.toNat < 128 then c
  else if isDigit c then Char.ofNat (48 + U.digitValue c)
  else if isSpace c then ' '
  else '?'

/-- `float(s)`; `none` for a `ValueError`. -/
def readFloat (s : Str) : Option Number := do
  let s := strip (s.map asciiDigit)
  readNumber (← dropUnderscores ' ' s)

end

section Digits

variable {s : Str}

theorem isAsciiDigit_iff {c : Char} : isAsciiDigit c = true ↔ 48 ≤ c.toNat ∧ c.toNat ≤ 57 := by
  simp [isAsciiDigit]

theorem ne_of_isAsciiDigit {c d : Char} (hc : isAsciiDigit c = true) (hd : isAsciiDigit d = false) :
    c ≠ d := by
  rintro rfl
  rw [hc] at hd
  exact Bool.noConfusion hd

theorem dropUnderscores_digits {prev : Char} (hprev : prev ≠ '_') (hs : ∀ c ∈ s, isAsciiDigit c = true) :
    dropUnderscores prev s = some s := by
  induction s generalizing prev with
  | nil => rw [dropUnderscores, if_neg hprev]
  | cons c cs ih =>
      have hc := hs c List.mem_cons_self
      have hne : c ≠ '_' := ne_of_isAsciiDigit hc (by decide)
      rw [dropUnderscores, if_neg hne, if_neg (by simp [hprev]),
        ih hne fun d hd => hs d (List.mem_cons_of_mem c hd)]
      rfl

theorem readDecimal_digits {negative : Bool} (hne : s ≠ []) (hs : ∀ c ∈ s, isAsciiDigit c = true) :
    readDecimal negative s = some (ofDecimal negative (digitsValue s) 0) := by
  have htake : s.takeWhile isAsciiDigit = s := List.takeWhile_eq_self_iff.mpr hs
  have hdrop : s.dropWhile isAsciiDigit = [] := List.dropWhile_eq_nil_iff.mpr hs
  unfold readDecimal
  simp only [htake, hdrop, List.head?_nil, reduceCtorEq, if_false, List.append_nil, if_neg hne,
    readExponent, Option.map_some, List.length_nil, Nat.cast_zero, sub_zero]

/-- A digit begins neither a sign nor the name of a number. -/
theorem readNumber_digits (hne : s ≠ []) (hs : ∀ c ∈ s, isAsciiDigit c = true) :
    readNumber s = some (ofDecimal false (digitsValue s) 0) := by
  obtain ⟨c, cs, rfl⟩ := List.exists_cons_of_ne_nil hne
  have hc := hs c List.mem_cons_self
  have hsign : readSign (c :: cs) = (false, c :: cs) := by
    rw [readSign.eq_def]
    split
    · rename_i heq
      exact absurd (List.cons.inj heq).1 (ne_of_isAsciiDigit hc (by decide))
    · rename_i heq
      exact absurd (List.cons.inj heq).1 (ne_of_isAsciiDigit hc (by decide))
    · rfl
  have hlower : lowerChar c = c := by
    have hupper : isAsciiUpper c = false := by
      have hrange := isAsciiDigit_iff.mp hc
      simp only [isAsciiUpper, Bool.and_eq_false_iff, decide_eq_false_iff_not]
      omega
    rw [lowerChar, hupper, if_neg Bool.false_ne_true]
  have hname : ∀ d ds, isAsciiDigit d = false → lowerAscii (c :: cs) ≠ d :: ds := by
    intro d ds hd heq
    rw [lowerAscii, List.map_cons, hlower] at heq
    exact ne_of_isAsciiDigit hc hd (List.cons.inj heq).1
  unfold readNumber
  rw [hsign]
  have hinf : ¬ (lowerAscii (c :: cs) = "inf" ∨ lowerAscii (c :: cs) = "infinity") := by
    rintro (h | h)
    · exact hname 'i' _ (by decide) h
    · exact hname 'i' _ (by decide) h
  have hnan : ¬ lowerAscii (c :: cs) = "nan" := hname 'n' _ (by decide)
  simp only [if_neg hinf, if_neg hnan]
  exact readDecimal_digits hne hs

theorem solid_digits (hne : s ≠ []) (hs : ∀ c ∈ s, isAsciiDigit c = true) : Solid s := by
  have hspace : ∀ c ∈ s, isSpace c = false := by
    intro c hc
    have hrange := isAsciiDigit_iff.mp (hs c hc)
    simp only [isSpace, Bool.or_eq_false_iff, Bool.and_eq_false_iff, decide_eq_false_iff_not,
      beq_eq_false_iff_ne]
    omega
  exact ⟨⟨_, List.head?_eq_some_head hne, hspace _ (List.head_mem hne)⟩,
    ⟨_, List.getLast?_eq_some_getLast hne, hspace _ (List.getLast_mem hne)⟩⟩

variable [UnicodeTables]

/-- **`readFloat_digits`** — a string of digits is an integer, or too large for a finite number. -/
theorem readFloat_digits (hne : s ≠ []) (hs : ∀ c ∈ s, isAsciiDigit c = true) :
    ∃ n, readFloat s = some n ∧ (n = .infinite false ∨ ∃ i, n.toInt? = some i) := by
  have hmap : s.map asciiDigit = s := by
    have hsame : ∀ c ∈ s, asciiDigit c = id c := by
      intro c hc
      have hrange := isAsciiDigit_iff.mp (hs c hc)
      rw [asciiDigit, if_pos (by omega)]
      rfl
    rw [List.map_congr_left hsame, List.map_id]
  refine ⟨ofDecimal false (digitsValue s) 0, ?_, ofDecimal_nat⟩
  unfold readFloat
  simp only [hmap, strip_solid (solid_digits hne hs)]
  rw [dropUnderscores_digits (by decide) hs]
  exact readNumber_digits hne hs

end Digits

end HummingbirdRpms.Lib.Binary64
