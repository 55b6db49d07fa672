/-
# HummingbirdRpms.WikiMono — what a field can do to its monospace (`.cursor/skills/cve/lib/comments.py`).

Jira shows what stands between a pair of opening braces and a pair of closing ones in monospace, so
`wiki_mono` takes the pairs out of a value before it puts its own around it: first the opening pairs, then
the closing ones.  Taking out the closing pairs can bring two opening braces together, and a single brace
that is left at an end makes a pair with the outer ones.

**`wiki_mono_contained_iff`** — the outer pairs are the only ones exactly if the value keeps its braces apart,
which one scan of the value decides.
-/
import HummingbirdRpms.Comments

namespace HummingbirdRpms.WikiMono

open Lib Lib.Text Comments

/-! ## What is asked, and when it is so -/

/-- `wiki_mono` gives a text whose only opening pair is where it begins and whose only closing pair is where
it ends. -/
def Contained (value : Str) : Prop :=
  (∀ i, "\x7b\x7b".toList <+: (wikiMono value).drop i → i = 0) ∧
    ∀ i, "\x7d\x7d".toList <+: (wikiMono value).drop i → i + 2 = (wikiMono value).length

/-- A scan of the value.  Opening pairs are passed over; `opened` says that nothing but closing braces has come
since the last single opening brace, or since the start, and `odd` that their number is odd.  A single opening
brace must not follow such braces in even number, and at the end their number must not be odd. -/
def keepsApart : (opened odd : Bool) → Str → Bool
  | _, odd, [] => !odd
  | opened, odd, '\x7b' :: '\x7b' :: cs => keepsApart opened odd cs
  | opened, odd, '\x7b' :: cs => !(opened && !odd) && keepsApart true false cs
  | opened, odd, '\x7d' :: cs => keepsApart opened (!odd) cs
  | _, _, _ :: cs => keepsApart false false cs

/-! ## Taking out pairs -/

variable {a b c : Char} {s t u : Str}

/-- A text without the pairs of a character. -/
def dropPairs (a : Char) : Str → Str
  | [] => []
  | [c] => [c]
  | c :: d :: cs => if c = a ∧ d = a then dropPairs a cs else c :: dropPairs a (d :: cs)

theorem dropPairs_pair : dropPairs a (a :: a :: s) = dropPairs a s := by
  rw [dropPairs, if_pos ⟨rfl, rfl⟩]

theorem dropPairs_cons (h : c ≠ a ∨ s.head? ≠ some a) : dropPairs a (c :: s) = c :: dropPairs a s := by
  cases s with
  | nil => rfl
  | cons d s =>
      rw [dropPairs, if_neg]
      rintro ⟨rfl, rfl⟩
      rcases h with h | h
      · exact h rfl
      · exact h rfl

/-- `str.replace` takes them out. -/
theorem replace_pair (a : Char) (s : Str) : replace [a, a] [] s = dropPairs a s := by
  have hfrom : ∀ s : Str, replaceFrom [a, a] [] 0 s = dropPairs a s := by
    intro s
    induction s using dropPairs.induct a with
    | case1 => rfl
    | case2 c =>
        have hprefix : ¬ [a, a].isPrefixOf [c] = true := by simp [List.isPrefixOf]
        rw [replaceFrom, if_neg hprefix]
        rfl
    | case3 c d cs h ih =>
        obtain ⟨rfl, rfl⟩ := h
        have hprefix : [d, d].isPrefixOf (d :: d :: cs) = true := by simp [List.isPrefixOf]
        rw [replaceFrom, if_pos hprefix, dropPairs_pair, ← ih]
        rfl
    | case4 c d cs h ih =>
        have hprefix : ¬ [a, a].isPrefixOf (c :: d :: cs) = true := by
          simp only [List.isPrefixOf, Bool.and_true, Bool.and_eq_true, beq_iff_eq]
          rintro ⟨rfl, rfl⟩
          exact h ⟨rfl, rfl⟩
        rw [replaceFrom, if_neg hprefix, ih, dropPairs, if_neg h]
  rw [replace, if_neg (List.cons_ne_nil _ _), hfrom]

/-- What is put between the outer braces. -/
theorem wikiMono_eq (value : Str) :
    wikiMono value = '\x7b' :: '\x7b' :: (dropPairs '\x7d' (dropPairs '\x7b' value) ++ ['\x7d', '\x7d']) := by
  have hopen : replace "\x7b\x7b".toList "".toList value = dropPairs '\x7b' value := replace_pair _ _
  have hclose : ∀ s, replace "\x7d\x7d".toList "".toList s = dropPairs '\x7d' s := replace_pair _
  rw [wikiMono, hopen, hclose]
  rfl

/-! ## Pairs in a text -/

theorem pair_cons_iff : [a, a] <:+: c :: s ↔ (c = a ∧ s.head? = some a) ∨ [a, a] <:+: s := by
  rw [List.infix_cons_iff]
  apply or_congr_left
  rw [List.cons_prefix_cons]
  cases s with
  | nil => simp
  | cons d s => simp [eq_comm]

/-- A character in front of which, or behind which, no pair begins. -/
theorem pair_cons_of_ne (h : c ≠ a) : [a, a] <:+: c :: s ↔ [a, a] <:+: s := by
  rw [pair_cons_iff]
  exact or_iff_right fun hc => h hc.1

theorem pair_concat_of_ne (h : c ≠ a) : [a, a] <:+: s ++ [c] ↔ [a, a] <:+: s := by
  rw [List.infix_concat_iff]
  refine or_iff_right fun hsuffix => h ?_
  obtain ⟨x, hx⟩ := hsuffix
  have hlast := congrArg List.getLast? hx
  rw [List.getLast?_concat, List.getLast?_append] at hlast
  exact (Option.some.inj hlast).symm

theorem exists_prefix_drop (h : [a, a] <:+: s) : ∃ i, [a, a] <+: s.drop i := by
  obtain ⟨x, y, rfl⟩ := h
  refine ⟨x.length, ?_⟩
  rw [List.append_assoc, List.drop_left]
  exact List.prefix_append _ _

theorem infix_of_drop {i : Nat} (h : [a, a] <+: s.drop i) : [a, a] <:+: s :=
  h.isInfix.trans (List.drop_suffix i s).isInfix

/-- The outer pairs are the only ones if the inner text makes none, with an outer brace before or behind it. -/
theorem contained_iff (value : Str) : Contained value ↔
    ¬ ['\x7b', '\x7b'] <:+: '\x7b' :: dropPairs '\x7d' (dropPairs '\x7b' value) ∧
      ¬ ['\x7d', '\x7d'] <:+: dropPairs '\x7d' (dropPairs '\x7b' value) ++ ['\x7d'] := by
  unfold Contained
  rw [wikiMono_eq]
  generalize dropPairs '\x7d' (dropPairs '\x7b' value) = text
  refine and_congr ⟨fun h hpair => ?_, fun h i hi => ?_⟩ ⟨fun h hpair => ?_, fun h i hi => ?_⟩
  · obtain ⟨i, hi⟩ := exists_prefix_drop hpair
    have hzero := h (i + 1) ?_
    · cases hzero
    · rw [List.drop_succ_cons, ← List.cons_append]
      obtain ⟨rest, hrest⟩ := hi
      by_cases hle : i ≤ ('\x7b' :: text).length
      · rw [List.drop_append_of_le_length hle, ← hrest, List.append_assoc]
        exact List.prefix_append _ _
      · rw [List.drop_eq_nil_of_le (by omega)] at hrest
        cases hrest
  · cases i with
    | zero => rfl
    | succ i =>
        have hinfix := infix_of_drop (s := '\x7b' :: (text ++ ['\x7d', '\x7d'])) hi
        have hsplit : '\x7b' :: (text ++ ['\x7d', '\x7d']) = ('\x7b' :: text ++ ['\x7d']) ++ ['\x7d'] := by simp
        rw [hsplit, pair_concat_of_ne (by decide), pair_concat_of_ne (by decide)] at hinfix
        exact absurd hinfix h
  · obtain ⟨x, y, hxy⟩ := hpair
    have hlen := congrArg List.length hxy
    simp only [List.length_append, List.length_cons, List.length_nil] at hlen
    have hend := h (x.length + 2) ?_
    · simp only [List.length_append, List.length_cons, List.length_nil] at hend
      omega
    · have hsplit : text ++ ['\x7d', '\x7d'] = x ++ (['\x7d', '\x7d'] ++ (y ++ ['\x7d'])) := by
        rw [show text ++ ['\x7d', '\x7d'] = (text ++ ['\x7d']) ++ ['\x7d'] by simp, ← hxy]
        simp
      rw [List.drop_succ_cons, List.drop_succ_cons, hsplit, List.drop_left]
      exact List.prefix_append _ _
  · by_contra hne
    replace hi : ['\x7d', '\x7d'] <+: _ := hi
    have hle := hi.length_le
    have hsplit : '\x7b' :: '\x7b' :: (text ++ ['\x7d', '\x7d']) =
        ('\x7b' :: '\x7b' :: (text ++ ['\x7d'])) ++ ['\x7d'] := by simp
    rw [hsplit] at hi hne hle
    generalize hw : '\x7b' :: '\x7b' :: (text ++ ['\x7d']) = w at hi hne hle
    simp only [List.length_drop, List.length_append, List.length_cons, List.length_nil] at hle hne
    -- it ends before the last brace
    have hi' : ['\x7d', '\x7d'] <+: w.drop i := by
      rw [List.drop_append_of_le_length (by omega)] at hi
      refine List.prefix_of_prefix_length_le hi (List.prefix_append _ _) ?_
      rw [List.length_drop]
      simp only [List.length_cons, List.length_nil]
      omega
    have hinfix := infix_of_drop hi'
    rw [← hw, pair_cons_of_ne (by decide), pair_cons_of_ne (by decide)] at hinfix
    exact h hinfix

/-! ## The scan -/

/-- The closing brace that is left of those that have been passed. -/
def pending (odd : Bool) : Str := if odd then ['\x7d'] else []

/-- An opening brace, if nothing but pairs of closing braces has come since. -/
def before (opened : Bool) : Str := if opened then ['\x7b'] else []

theorem dropPairs_pending (odd : Bool) (h : s.head? ≠ some '\x7d') :
    dropPairs '\x7d' (pending odd ++ s) = pending odd ++ dropPairs '\x7d' s := by
  cases odd with
  | false => rfl
  | true => exact dropPairs_cons (Or.inr h)

/-- The scan looks for pairs that come about: of opening braces with what has come, and of closing braces with
the one behind. -/
theorem keepsApart_iff (opened odd : Bool) (s : Str) : keepsApart opened odd s = true ↔
    ¬ ['\x7b', '\x7b'] <:+: before opened ++ dropPairs '\x7d' (pending odd ++ dropPairs '\x7b' s) ∧
      ¬ ['\x7d', '\x7d'] <:+: dropPairs '\x7d' (pending odd ++ dropPairs '\x7b' s) ++ ['\x7d'] := by
  induction opened, odd, s using keepsApart.induct with
  | case1 opened odd =>
      cases opened <;> cases odd <;> decide
  | case2 opened odd cs ih =>
      rw [keepsApart, ih, dropPairs_pair]
  | case3 opened odd cs hcs ih =>
      -- a single brace makes a pair with an opening brace that has nothing between
      have hhead : cs.head? ≠ some '\x7b' := by
        intro h
        obtain ⟨w, rfl⟩ := List.head?_eq_some_iff.mp h
        exact hcs w rfl
      rw [keepsApart.eq_3 opened odd cs hcs, Bool.and_eq_true, ih, dropPairs_cons (Or.inr hhead),
        dropPairs_pending odd (by simp), dropPairs_cons (Or.inl (by decide))]
      cases opened <;> cases odd <;> simp [before, pending, pair_cons_iff]
  | case4 opened odd cs ih =>
      rw [keepsApart, ih, dropPairs_cons (Or.inl (by decide))]
      cases odd with
      | false => rfl
      | true =>
          show _ ↔ ¬ _ <:+: before opened ++ dropPairs '\x7d' ('\x7d' :: '\x7d' :: dropPairs '\x7b' cs) ∧
            ¬ _ <:+: dropPairs '\x7d' ('\x7d' :: '\x7d' :: dropPairs '\x7b' cs) ++ ['\x7d']
          rw [dropPairs_pair]
          rfl
  | case5 opened odd c cs h1 h2 h3 ih =>
      have hopen : c ≠ '\x7b' := h2
      have hclose : c ≠ '\x7d' := h3
      rw [keepsApart.eq_5 opened odd c cs h1 h2 h3, ih, dropPairs_cons (Or.inl hopen),
        dropPairs_pending odd (by simpa using hclose), dropPairs_cons (Or.inl hclose)]
      cases opened <;> cases odd <;> simp [before, pending, pair_cons_iff, hopen, hclose]

/-- **`wiki_mono_contained_iff`** — the outer braces are the only pairs exactly for the values that the scan
accepts. -/
theorem wiki_mono_contained_iff (value : Str) : Contained value ↔ keepsApart true false value = true := by
  rw [contained_iff, keepsApart_iff]
  rfl

/-- Of closing braces between two opening ones a pair of opening ones is left, and a brace at the end makes a pair
with the outer ones, which ends the span before it. -/
theorem wiki_mono_broken_out : ¬ Contained "\x7b\x7d\x7d\x7b" ∧ ¬ Contained "a\x7d" := by
  constructor
  · intro h
    exact absurd (h.1 1 (by decide)) (by decide)
  · intro h
    exact absurd (h.2 3 (by decide)) (by decide)

end HummingbirdRpms.WikiMono
