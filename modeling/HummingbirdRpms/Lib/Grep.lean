/-
# HummingbirdRpms.Lib.Grep — line-oriented matching, and first hits in a list.

A line tool takes a text apart at its line breaks (`newlineSplit`) and asks of each line whether a
basic regular expression matches it.  The expressions here consist of literal characters, `.` and
ranges `[a-b]`, with an optional `^` in front; each item stands for one character, so a match is a
stretch of the line that fits the items one by one (**`matchesHere_append`**).

**`find?_map_eq_iff`** compares two tests by their first hit in a list: they find the same element
exactly when each element that they judge differently comes after one that passes both.

Nothing here names a particular program.
-/
import Mathlib.Data.List.Forall2
import HummingbirdRpms.Lib.Text

namespace HummingbirdRpms.Lib.Grep

open HummingbirdRpms.Lib.Text

/-! ## Lines -/

/-- A text without a line break. -/
def OneLine (s : Str) : Prop := '\n' ∉ s

instance : DecidablePred OneLine := fun s => inferInstanceAs (Decidable ('\n' ∉ s))

section Lines

variable {a b : Str}

theorem OneLine.append (ha : OneLine a) (hb : OneLine b) : OneLine (a ++ b) := by
  intro h
  rcases List.mem_append.mp h with h | h
  · exact ha h
  · exact hb h

theorem OneLine.of_cons {c : Char} (h : OneLine (c :: a)) : c ≠ '\n' ∧ OneLine a := by
  constructor
  · rintro rfl
    exact h List.mem_cons_self
  · intro ha
    exact h (List.mem_cons_of_mem c ha)

attribute [local simp] newlineSplit

theorem newlineSplit_cons {c : Char} (hc : c ≠ '\n') :
    newlineSplit (c :: a) =
      match newlineSplit a with
      | [] => [[c]]
      | l :: ls => (c :: l) :: ls := by
  rw [newlineSplit.eq_def]
  split
  · rename_i heq
    exact absurd heq (by simp)
  · rename_i heq
    exact absurd (List.cons.inj heq).1 hc
  · rename_i heq
    obtain ⟨rfl, rfl⟩ := List.cons.inj heq
    rfl

/-- A line and its break are taken off the front. -/
theorem newlineSplit_line (ha : OneLine a) :
    newlineSplit (a ++ '\n' :: b) = a :: newlineSplit b := by
  induction a with
  | nil => rfl
  | cons c a ih =>
      have hc := ha.of_cons
      rw [List.cons_append, newlineSplit_cons hc.1, ih hc.2]

theorem newlineSplit_oneLine (ha : OneLine a) : newlineSplit a = [a] := by
  induction a with
  | nil => rfl
  | cons c a ih =>
      have hc := ha.of_cons
      rw [newlineSplit_cons hc.1, ih hc.2]

/-- The first line of what is left of a text that begins with a whole line. -/
theorem head?_newlineSplit_of_prefix (ha : OneLine a) {s : Str} (hs : s <+: '\n' :: b) :
    (newlineSplit (a ++ s)).head? = some a := by
  cases s with
  | nil =>
      rw [List.append_nil, newlineSplit_oneLine ha]
      rfl
  | cons c s =>
      obtain rfl := (List.cons_prefix_cons.mp hs).1
      rw [newlineSplit_line ha]
      rfl

end Lines

/-! ## Basic regular expressions -/

/-- The items of an expression: a class of characters for each. -/
def items : Str → List (Char → Bool)
  | [] => []
  | '.' :: cs => (fun _ => true) :: items cs
  | '[' :: lo :: '-' :: hi :: ']' :: cs =>
      (fun c => lo.toNat ≤ c.toNat && c.toNat ≤ hi.toNat) :: items cs
  | c :: cs => (fun d => d = c) :: items cs

/-- Whether a line begins with one character for each item. -/
def matchesHere : List (Char → Bool) → Str → Bool
  | [], _ => true
  | _ :: _, [] => false
  | p :: ps, c :: cs => p c && matchesHere ps cs

/-- Whether an expression matches somewhere in a line. -/
def matchesLine (pattern line : Str) : Bool :=
  match pattern with
  | '^' :: rest => matchesHere (items rest) line
  | pattern => line.tails.any (matchesHere (items pattern))

/-- Whether a literal character or `.` stands for a character. -/
def wild (c d : Char) : Prop := c = '.' ∨ d = c

/-- A text whose characters are in the classes, one by one. -/
abbrev Fits (ps : List (Char → Bool)) (text : Str) : Prop := List.Forall₂ (fun p c => p c = true) ps text

/-- A text that a name stands for when it is read as a pattern. -/
abbrev LooksLike (name text : Str) : Prop := List.Forall₂ wild name text

section Matching

variable {p : Char → Bool} {ps qs : List (Char → Bool)} {name text line rest : Str} {c : Char}

theorem items_cons (rest : Str) (hc : c ≠ '[') :
    ∃ p, items (c :: rest) = p :: items rest ∧ ∀ d, p d = true ↔ wild c d := by
  rw [items.eq_def]
  split
  · rename_i heq
    exact absurd heq (by simp)
  · rename_i heq
    obtain ⟨rfl, rfl⟩ := List.cons.inj heq
    exact ⟨_, rfl, by simp [wild]⟩
  · rename_i heq
    exact absurd (List.cons.inj heq).1 hc
  · rename_i hdot _ heq
    obtain ⟨rfl, rfl⟩ := List.cons.inj heq
    -- the first case of `items` took the dots, so this character is literal
    have hne : c ≠ '.' := fun h => hdot h
    exact ⟨_, rfl, by simp [wild, hne]⟩

/-- The items a name contributes in front of an expression fit what it looks like. -/
theorem items_name (rest : Str) (hname : '[' ∉ name) :
    ∃ ps, items (name ++ rest) = ps ++ items rest ∧ ∀ text, Fits ps text ↔ LooksLike name text := by
  induction name with
  | nil => exact ⟨[], rfl, fun text => List.forall₂_nil_left_iff.trans List.forall₂_nil_left_iff.symm⟩
  | cons c name ih =>
      obtain ⟨ps, hitems, hps⟩ := ih fun h => hname (List.mem_cons_of_mem c h)
      obtain ⟨p, hcons, hp⟩ := items_cons (name ++ rest)
        (fun h => hname (by rw [h]; exact List.mem_cons_self) : c ≠ '[')
      refine ⟨p :: ps, by rw [List.cons_append, hcons, hitems, List.cons_append], fun text => ?_⟩
      cases text with
      | nil => simp only [Fits, LooksLike, List.forall₂_nil_right_iff, reduceCtorEq]
      | cons d text =>
          rw [Fits, LooksLike, List.forall₂_cons, List.forall₂_cons, hp]
          exact and_congr_right' (hps text)

theorem matchesHere_append :
    matchesHere (ps ++ qs) line = true ↔
      ∃ text tail, line = text ++ tail ∧ Fits ps text ∧ matchesHere qs tail = true := by
  induction ps generalizing line with
  | nil =>
      constructor
      · intro h
        exact ⟨[], line, rfl, .nil, h⟩
      · rintro ⟨text, tail, rfl, ⟨⟩, h⟩
        exact h
  | cons p ps ih =>
      cases line with
      | nil =>
          refine iff_of_false (by simp [matchesHere]) ?_
          rintro ⟨text, tail, hline, hfits, -⟩
          cases hfits
          exact absurd hline (by simp)
      | cons c line =>
          rw [List.cons_append, matchesHere, Bool.and_eq_true, ih]
          constructor
          · rintro ⟨hp, text, tail, rfl, hfits, htail⟩
            exact ⟨c :: text, tail, rfl, .cons hp hfits, htail⟩
          · rintro ⟨text, tail, hline, hfits, htail⟩
            cases hfits with
            | cons hp hfits =>
                obtain ⟨rfl, rfl⟩ := List.cons.inj hline
                exact ⟨hp, _, tail, rfl, hfits, htail⟩

/-- A name in front of an expression matches what it looks like, and the rest matches what follows. -/
theorem matchesHere_name (hname : '[' ∉ name) :
    matchesHere (items (name ++ rest)) line = true ↔
      ∃ text tail, line = text ++ tail ∧ LooksLike name text ∧
        matchesHere (items rest) tail = true := by
  obtain ⟨ps, hitems, hps⟩ := items_name rest hname
  rw [hitems, matchesHere_append]
  simp only [hps]

/-- A literal without `.` looks like itself alone. -/
theorem looksLike_literal (hname : '.' ∉ name) : LooksLike name text ↔ text = name := by
  induction name generalizing text with
  | nil => exact List.forall₂_nil_left_iff
  | cons c name ih =>
      have hc : c ≠ '.' := fun h => hname (by rw [h]; exact List.mem_cons_self)
      cases text with
      | nil => simp only [LooksLike, List.forall₂_nil_right_iff, reduceCtorEq]
      | cons d text =>
          have htail : List.Forall₂ wild name text ↔ text = name :=
            ih fun h => hname (List.mem_cons_of_mem c h)
          rw [LooksLike, List.forall₂_cons, htail, List.cons.injEq, wild, or_iff_right hc]

/-- Every name looks like itself. -/
theorem looksLike_self : LooksLike name name := by
  induction name with
  | nil => exact .nil
  | cons c name ih => exact .cons (Or.inr rfl) ih

end Matching

/-! ## First hits -/

section Find

variable {α κ : Type} {f g : α → Bool} {key : α → κ} {l : List α}

/-- Two tests find the same element exactly when whatever they judge differently comes after an
element that passes both. -/
theorem find?_map_eq_iff (hkeys : (l.map key).Nodup) :
    (l.find? f).map key = (l.find? g).map key ↔
      ∀ before a after, l = before ++ a :: after → f a ≠ g a →
        ∃ b ∈ before, f b = true ∧ g b = true := by
  induction l with
  | nil => simp
  | cons x l ih =>
      obtain ⟨hx, hl⟩ := List.nodup_cons.mp hkeys
      by_cases hsame : f x = g x
      · cases hf : f x with
        | true =>
            -- both tests stop here, and everything else comes after
            have hg : g x = true := hsame ▸ hf
            rw [List.find?_cons_of_pos hf, List.find?_cons_of_pos hg]
            refine iff_of_true rfl fun before a after hsplit hdiff => ?_
            cases before with
            | nil =>
                obtain ⟨rfl, -⟩ := List.cons.inj hsplit
                exact absurd hsame hdiff
            | cons y before =>
                obtain ⟨rfl, -⟩ := List.cons.inj hsplit
                exact ⟨x, List.mem_cons_self, hf, hg⟩
        | false =>
            have hg : g x = false := hsame ▸ hf
            rw [List.find?_cons_of_neg (by simp [hf]), List.find?_cons_of_neg (by simp [hg]), ih hl]
            constructor
            · intro h before a after hsplit hdiff
              cases before with
              | nil =>
                  obtain ⟨rfl, -⟩ := List.cons.inj hsplit
                  exact absurd hsame hdiff
              | cons y before =>
                  obtain ⟨rfl, hrest⟩ := List.cons.inj hsplit
                  obtain ⟨b, hb, hboth⟩ := h before a after hrest hdiff
                  exact ⟨b, List.mem_cons_of_mem _ hb, hboth⟩
            · intro h before a after hsplit hdiff
              obtain ⟨b, hb, hboth⟩ := h (x :: before) a after (congrArg (x :: ·) hsplit) hdiff
              rcases List.mem_cons.mp hb with rfl | hb
              · rw [hf] at hboth
                exact absurd hboth.1 (by simp)
              · exact ⟨b, hb, hboth⟩
      · -- one of them stops here, and the other cannot find this element further on
        refine iff_of_false (fun heq => ?_) fun h => ?_
        · have hkey : ∀ t : α → Bool, (l.find? t).map key ≠ some (key x) := by
            intro t ht
            obtain ⟨y, hy, hyx⟩ := Option.map_eq_some_iff.mp ht
            exact hx (hyx ▸ List.mem_map_of_mem (List.mem_of_find?_eq_some hy))
          cases hf : f x with
          | true =>
              have hg : g x = false := by simpa [hf] using Ne.symm hsame
              rw [List.find?_cons_of_pos hf, List.find?_cons_of_neg (by simp [hg])] at heq
              exact hkey g heq.symm
          | false =>
              have hg : g x = true := by simpa [hf] using Ne.symm hsame
              rw [List.find?_cons_of_neg (by simp [hf]), List.find?_cons_of_pos hg] at heq
              exact hkey f heq
        · obtain ⟨b, hb, -⟩ := h [] x l rfl hsame
          exact absurd hb List.not_mem_nil

end Find

end HummingbirdRpms.Lib.Grep
