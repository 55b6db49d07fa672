/-
# HummingbirdRpms.Lib.Url — taking URLs apart and quoting their parts.

`urlsplit` / `urlparse` of a scripting language's standard library, the percent encoding `quote` and
its inverse `unquote` (which decodes UTF-8, replacing what is malformed), and the second, coarser view
of a URL that an HTTP client library takes when it decides where a request goes (`requestTarget`).

**`requestTarget_of_parse`** connects the two views: a URL put back together from a parsed scheme and
network location is sent to exactly that network location, percent-decoded.
-/
import Mathlib.Data.List.TakeWhile
import HummingbirdRpms.Lib.Text

namespace HummingbirdRpms.Lib.Url

open HummingbirdRpms.Lib.Text

/-! ## `urlparse` -/

/-- A C0 control character or a space. -/
def isC0OrSpace (c : Char) : Bool := c.toNat ≤ 32

/-- The characters removed wherever they stand. -/
def isUnsafe (c : Char) : Bool := c = '\t' || c = '\r' || c = '\n'

/-- `scheme_chars` -/
def isSchemeChar (c : Char) : Bool :=
  isAsciiLetter c || isAsciiDigit c || c = '+' || c = '-' || c = '.'

def isNetlocEnd (c : Char) : Bool := c = '/' || c = '?' || c = '#'

/-- The parts the tools read of a parsed URL. -/
structure Parsed where
  scheme : Str
  netloc : Str
  path : Str
  deriving DecidableEq

/-- The scheme and what follows its colon. -/
def splitScheme (url : Str) : Str × Str :=
  match partitionChar ':' url with
  | (c :: cs, some rest) =>
      if isAsciiLetter c && (c :: cs).all isSchemeChar then (lowerAscii (c :: cs), rest) else ([], url)
  | _ => ([], url)

/-- The network location, when there is one, and what follows it. -/
def splitNetloc : Str → Str × Str
  | '/' :: '/' :: rest => (rest.takeWhile (!isNetlocEnd ·), rest.dropWhile (!isNetlocEnd ·))
  | url => ([], url)

/-- What stands before the first `c`. -/
def before (c : Char) (s : Str) : Str := s.takeWhile (· != c)

/-- The path without the parameters of its last segment, which `urlparse` splits off. -/
def dropParams (path : Str) : Str :=
  let dir := path.rdropWhile (· != '/')
  dir ++ before ';' (path.drop dir.length)

/-- `urlparse`; the schemes of the URLs met here are among those that have parameters. -/
def urlparse (url : Str) : Parsed :=
  let url := (lstripBy isC0OrSpace url).filter (!isUnsafe ·)
  let (scheme, rest) := splitScheme url
  let (netloc, rest) := splitNetloc rest
  ⟨scheme, netloc, dropParams (before '?' (before '#' rest))⟩

/-! ## Percent encoding -/

/-- The UTF-8 bytes of a character. -/
def utf8 (c : Char) : List Nat :=
  let n := c.toNat
  if n < 0x80 then [n]
  else if n < 0x800 then [0xC0 + n / 64, 0x80 + n % 64]
  else if n < 0x10000 then [0xE0 + n / 4096, 0x80 + n / 64 % 64, 0x80 + n % 64]
  else [0xF0 + n / 262144, 0x80 + n / 4096 % 64, 0x80 + n / 64 % 64, 0x80 + n % 64]

def hexDigit (n : Nat) : Char := Char.ofNat (if n < 10 then 48 + n else 55 + n)

/-- Letters, digits and `_.-~`. -/
def isUnreserved (c : Char) : Bool :=
  isAsciiLetter c || isAsciiDigit c || c = '_' || c = '.' || c = '-' || c = '~'

/-- `quote(s, safe)` -/
def quote (safe s : Str) : Str :=
  s.flatMap fun c =>
    if isUnreserved c || safe.contains c then [c]
    else (utf8 c).flatMap fun b => ['%', hexDigit (b / 16), hexDigit (b % 16)]

def hexVal (c : Char) : Nat :=
  if isAsciiDigit c then c.toNat - 48
  else if isAsciiLower c then c.toNat - 87
  else c.toNat - 55

/-- The bytes a percent-encoded text stands for; a character beyond ASCII stands for itself. -/
def percentDecode : Str → List (Nat ⊕ Char)
  | [] => []
  | '%' :: h :: l :: cs =>
      if isHex h && isHex l then .inl (16 * hexVal h + hexVal l) :: percentDecode cs
      else .inl 37 :: percentDecode (h :: l :: cs)
  | c :: cs => (if c.toNat < 128 then .inl c.toNat else .inr c) :: percentDecode cs

def isCont (b : Nat) : Bool := 0x80 ≤ b && b ≤ 0xBF

/-- Whether `b` may follow the lead byte of a sequence of three or four bytes. -/
def secondOk (lead b : Nat) : Bool :=
  isCont b && (lead != 0xE0 || 0xA0 ≤ b) && (lead != 0xED || b ≤ 0x9F) &&
    (lead != 0xF0 || 0x90 ≤ b) && (lead != 0xF4 || b ≤ 0x8F)

/-- The replacement character. -/
def replacement : Char := Char.ofNat 0xFFFD

/-- The first character of a byte sequence, and how many bytes it takes; a malformed start becomes the
replacement character. -/
def decodeStep : List (Nat ⊕ Char) → Char × Nat
  | .inr c :: _ => (c, 1)
  | .inl a :: .inl b :: .inl c :: .inl d :: _ =>
      if a < 0x80 then (Char.ofNat a, 1)
      else if 0xC2 ≤ a && a ≤ 0xDF && isCont b then
        (Char.ofNat ((a - 0xC0) * 64 + (b - 0x80)), 2)
      else if !(0xE0 ≤ a && a ≤ 0xF4 && secondOk a b) then (replacement, 1)
      else if !isCont c then (replacement, 2)
      else if a ≤ 0xEF then
        (Char.ofNat ((a - 0xE0) * 4096 + (b - 0x80) * 64 + (c - 0x80)), 3)
      else if !isCont d then (replacement, 3)
      else
        (Char.ofNat ((a - 0xF0) * 262144 + (b - 0x80) * 4096 + (c - 0x80) * 64 + (d - 0x80)), 4)
  | .inl a :: .inl b :: .inl c :: _ =>
      if a < 0x80 then (Char.ofNat a, 1)
      else if 0xC2 ≤ a && a ≤ 0xDF && isCont b then
        (Char.ofNat ((a - 0xC0) * 64 + (b - 0x80)), 2)
      else if !(0xE0 ≤ a && a ≤ 0xF4 && secondOk a b) then (replacement, 1)
      else if !isCont c then (replacement, 2)
      else if a ≤ 0xEF then
        (Char.ofNat ((a - 0xE0) * 4096 + (b - 0x80) * 64 + (c - 0x80)), 3)
      else (replacement, 3)
  | .inl a :: .inl b :: _ =>
      if a < 0x80 then (Char.ofNat a, 1)
      else if 0xC2 ≤ a && a ≤ 0xDF && isCont b then
        (Char.ofNat ((a - 0xC0) * 64 + (b - 0x80)), 2)
      else if 0xE0 ≤ a && a ≤ 0xF4 && secondOk a b then (replacement, 2)
      else (replacement, 1)
  | .inl a :: _ => (if a < 0x80 then Char.ofNat a else replacement, 1)
  | [] => (replacement, 0)

/-- UTF-8 decoding with `errors='replace'`, of at most `n` characters. -/
def decodeUtf8 : Nat → List (Nat ⊕ Char) → Str
  | 0, _ => []
  | _, [] => []
  | n + 1, t :: ts =>
      let step := decodeStep (t :: ts)
      step.1 :: decodeUtf8 n ((t :: ts).drop step.2)

/-- `unquote` -/
def unquote (s : Str) : Str :=
  if '%' ∈ s then decodeUtf8 s.length (percentDecode s) else s

/-! ## Where a request goes -/

/-- The scheme and the host of a request for `url`; none when it has no scheme. -/
def requestTarget (url : Str) : Option (Str × Str) :=
  let scheme := url.takeWhile fun c => c != '/' && c != ':'
  match scheme, url.drop scheme.length with
  | _ :: _, ':' :: '/' :: '/' :: rest =>
      some (lowerAscii scheme, unquote (rest.takeWhile (!isNetlocEnd ·)))
  | _ :: _, ':' :: _ => some (lowerAscii scheme, [])
  | _, _ => none

example : urlparse "https://gitlab.com/redhat/x;a" = ⟨"https", "gitlab.com", "/redhat/x"⟩ := by decide
example : unquote "gitlab%2ecom%C3%A9" = "gitlab.comé".toList := by decide
example : quote [] "redhat/x y" = "redhat%2Fx%20y".toList := by decide

/-! ## The parts of a parsed URL -/

theorem scheme_chars {url : Str} {c : Char} (h : c ∈ (splitScheme url).1) :
    c ≠ '/' ∧ c ≠ ':' := by
  unfold splitScheme at h
  split at h
  · rename_i d ds rest hpart
    split at h
    · rename_i hall
      obtain ⟨x, hx, rfl⟩ := List.mem_map.mp h
      rw [Bool.and_eq_true] at hall
      have hsc := List.all_eq_true.mp hall.2 x hx
      rcases lowerChar_cases x with heq | hlow
      · rw [heq]
        exact ⟨fun h => absurd (h ▸ hsc) (by decide), fun h => absurd (h ▸ hsc) (by decide)⟩
      · exact ⟨fun h => absurd (h ▸ hlow) (by decide), fun h => absurd (h ▸ hlow) (by decide)⟩
    · simp at h
  · simp at h

theorem netloc_chars {rest : Str} {c : Char} (h : c ∈ (splitNetloc rest).1) :
    isNetlocEnd c = false := by
  unfold splitNetloc at h
  split at h
  · have := List.mem_takeWhile_imp h
    simpa using this
  · simp at h

theorem urlparse_scheme_chars {url : Str} : ∀ c ∈ (urlparse url).scheme, c ≠ '/' ∧ c ≠ ':' :=
  fun _ => scheme_chars

theorem urlparse_netloc_chars {url : Str} : ∀ c ∈ (urlparse url).netloc, isNetlocEnd c = false :=
  fun _ => netloc_chars

theorem takeWhile_append_stop {p : Char → Bool} {w rest : Str} (hw : ∀ c ∈ w, p c = true)
    (hrest : ∀ c ∈ rest.head?, p c = false) : (w ++ rest).takeWhile p = w := by
  rw [List.takeWhile_append_of_pos hw]
  cases rest with
  | nil => simp
  | cons c cs => rw [List.takeWhile_cons_of_neg (by simp [hrest c rfl]), List.append_nil]

/-- **`requestTarget_of_parse`** — a URL made of a scheme without `/` and `:`, a network location and a
path is sent to that network location. -/
theorem requestTarget_of_parse {scheme netloc path : Str} (hs : scheme ≠ [])
    (hsc : ∀ c ∈ scheme, c ≠ '/' ∧ c ≠ ':') (hn : ∀ c ∈ netloc, isNetlocEnd c = false) :
    requestTarget (scheme ++ "://".toList ++ netloc ++ '/' :: path) =
      some (lowerAscii scheme, unquote netloc) := by
  have htake : (scheme ++ (':' :: '/' :: '/' :: (netloc ++ '/' :: path))).takeWhile
      (fun c => c != '/' && c != ':') = scheme :=
    takeWhile_append_stop (fun c hc => by simp [hsc c hc]) (by simp)
  have hnet : (netloc ++ '/' :: path).takeWhile (!isNetlocEnd ·) = netloc :=
    takeWhile_append_stop (fun c hc => by simp [hn c hc]) (by simp [isNetlocEnd])
  have happ : scheme ++ "://".toList ++ netloc ++ '/' :: path =
      scheme ++ (':' :: '/' :: '/' :: (netloc ++ '/' :: path)) := by simp
  cases scheme with
  | nil => exact absurd rfl hs
  | cons c cs =>
      unfold requestTarget
      rw [happ]
      simp only [htake, List.drop_left, hnet]

end HummingbirdRpms.Lib.Url
