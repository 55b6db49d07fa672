/-
# HummingbirdRpms.Lib.RpmVersion — the order of versions and releases that rpm documents.

A version is read as a list of sections: a run of digits, a run of letters, a tilde or a caret.
Everything else separates sections and counts for nothing.  Versions compare section by section: runs
of digits as numbers, runs of letters as texts, digits above letters, a tilde below everything and
the end, a caret below everything but the end; and what still has sections when the other has none is
newer.

`FollowsSections` is as much of that order as numbers decide, for any function that compares versions;
**`vercmp_followsSections`** says that the documented order is one.  It is the lexicographic order of the
ranks of the sections (**`compareSections_iff`**), and so a total preorder (**`vercmp_swap`**,
**`vercmp_trans`**).  **`sections_separated`** keeps the sections on the two sides of a separator apart, and
**`vercmp_dotted`** compares numbers between dots.

Nothing here names a particular program.
-/
import Mathlib.Data.List.Lex
import Mathlib.Data.List.SplitBy
import Mathlib.Data.Prod.Lex
import HummingbirdRpms.Lib.Text

namespace HummingbirdRpms.Lib.RpmVersion

open HummingbirdRpms.Lib.Text

/-! ## Sections -/

/-- A section of a version. -/
inductive Section where
  | digits (ds : Str)
  | letters (ls : Str)
  | tilde
  | caret
  deriving DecidableEq

/-- Whether two characters in a row belong to one section. -/
def adjoin (c d : Char) : Bool :=
  (isAsciiDigit c && isAsciiDigit d) || (isAsciiLetter c && isAsciiLetter d)

/-- The section that a run is, unless it is a separator. -/
def sectionOf : Str → Option Section
  | [] => none
  | c :: cs =>
      if isAsciiDigit c then some (.digits (c :: cs))
      else if isAsciiLetter c then some (.letters (c :: cs))
      else if c = '~' then some .tilde
      else if c = '^' then some .caret
      else none

/-- The sections of a version. -/
def sections (s : Str) : List Section := (s.splitBy adjoin).filterMap sectionOf

/-- The number that a run of ASCII digits stands for. -/
def decimal (ds : Str) : Nat := Nat.ofDigitChars 10 ds 0

/-! ## The order -/

/-- The order of two lists of sections. -/
def compareSections : List Section → List Section → Ordering
  | [], [] => .eq
  | .tilde :: a, .tilde :: b => compareSections a b
  | .tilde :: _, _ => .lt
  | _, .tilde :: _ => .gt
  | [], _ :: _ => .lt
  | _ :: _, [] => .gt
  | .caret :: a, .caret :: b => compareSections a b
  | .caret :: _, _ :: _ => .lt
  | _ :: _, .caret :: _ => .gt
  | .digits x :: a, .digits y :: b =>
      if decimal x < decimal y then .lt else if decimal y < decimal x then .gt else compareSections a b
  | .letters x :: a, .letters y :: b =>
      if x < y then .lt else if y < x then .gt else compareSections a b
  | .digits _ :: _, .letters _ :: _ => .gt
  | .letters _ :: _, .digits _ :: _ => .lt

attribute [local simp] compareSections

/-- The documented order of versions. -/
def vercmp (a b : Str) : Ordering := compareSections (sections a) (sections b)

/-- A comparison of versions that goes by sections where numbers decide: a version that goes on with a
number is newer, and of two versions with the same sections up to two numbers, the one with the larger
number is. -/
structure FollowsSections (compareVersions : Str → Str → Ordering) : Prop where
  longer {a b : Str} {x : Str} {rest : List Section} :
    sections b = sections a ++ .digits x :: rest → compareVersions a b = .lt
  larger {a b : Str} {common : List Section} {x y : Str} {s t : List Section} :
    sections a = common ++ .digits x :: s → sections b = common ++ .digits y :: t →
      decimal x < decimal y → compareVersions a b = .lt

theorem compareSections_append {a b : List Section} : ∀ common : List Section,
    compareSections (common ++ a) (common ++ b) = compareSections a b
  | [] => rfl
  | .tilde :: common => compareSections_append common
  | .caret :: common => compareSections_append common
  | .digits x :: common => by
      rw [List.cons_append, List.cons_append, compareSections, if_neg (lt_irrefl _), if_neg (lt_irrefl _)]
      exact compareSections_append common
  | .letters x :: common => by
      rw [List.cons_append, List.cons_append, compareSections, if_neg (lt_irrefl x), if_neg (lt_irrefl x)]
      exact compareSections_append common

theorem vercmp_followsSections : FollowsSections vercmp where
  longer {a b x rest} h := by
    have hsplit : sections a = sections a ++ [] := (List.append_nil _).symm
    rw [vercmp, h, hsplit, List.append_assoc, compareSections_append]
    rfl
  larger {a b common x y s t} ha hb hlt := by
    rw [vercmp, ha, hb, compareSections_append, compareSections, if_pos hlt]

/-! ## A total preorder -/

/-- Where a section stands among the sections: by its kind, then by its number, then by its letters. -/
def rank : Section → Nat ×ₗ Nat ×ₗ Str
  | .tilde => toLex (0, toLex (0, []))
  | .caret => toLex (2, toLex (0, []))
  | .letters w => toLex (3, toLex (0, w))
  | .digits ds => toLex (4, toLex (decimal ds, []))

/-- The ranks of a list of sections.  The end has one too, between a tilde and a caret. -/
def ranks : List Section → List (Nat ×ₗ Nat ×ₗ Str)
  | [] => [toLex (1, toLex (0, []))]
  | s :: ss => rank s :: ranks ss

attribute [local simp] rank ranks

theorem lt_of_kind {m n : Nat} (h : m < n) {x y : Nat ×ₗ Str} : toLex (m, x) < toLex (n, y) :=
  Prod.Lex.toLex_lt_toLex.mpr (Or.inl h)

/-- Two lists whose first sections rank differently are in the order of these ranks. -/
theorem compare_of_rank_lt {s t : Nat ×ₗ Nat ×ₗ Str} {ss ts : List (Nat ×ₗ Nat ×ₗ Str)} (h : s < t) :
    (Ordering.lt = .lt ↔ s :: ss < t :: ts) ∧ (Ordering.lt = .gt ↔ t :: ts < s :: ss) := by
  have hlt : s :: ss < t :: ts := List.cons_lt_cons_iff.mpr (Or.inl h)
  exact ⟨iff_of_true rfl hlt, iff_of_false (by decide) (lt_asymm hlt)⟩

theorem compare_of_rank_gt {s t : Nat ×ₗ Nat ×ₗ Str} {ss ts : List (Nat ×ₗ Nat ×ₗ Str)} (h : t < s) :
    (Ordering.gt = .lt ↔ s :: ss < t :: ts) ∧ (Ordering.gt = .gt ↔ t :: ts < s :: ss) := by
  have hlt : t :: ts < s :: ss := List.cons_lt_cons_iff.mpr (Or.inl h)
  exact ⟨iff_of_false (by decide) (lt_asymm hlt), iff_of_true rfl hlt⟩

/-- Two lists with the same first rank are in the order of their rests. -/
theorem compare_of_rank_eq {s : Nat ×ₗ Nat ×ₗ Str} {ss ts : List (Nat ×ₗ Nat ×ₗ Str)} {o : Ordering}
    (h : (o = .lt ↔ ss < ts) ∧ (o = .gt ↔ ts < ss)) :
    (o = .lt ↔ s :: ss < s :: ts) ∧ (o = .gt ↔ s :: ts < s :: ss) := by
  rw [h.1, h.2, List.cons_lt_cons_iff, List.cons_lt_cons_iff]
  exact ⟨⟨fun h => Or.inr ⟨rfl, h⟩, fun h => (h.resolve_left (lt_irrefl s)).2⟩,
    ⟨fun h => Or.inr ⟨rfl, h⟩, fun h => (h.resolve_left (lt_irrefl s)).2⟩⟩

/-- **`compareSections_iff`** — the order of sections is the lexicographic order of their ranks. -/
theorem compareSections_iff (a b : List Section) :
    (compareSections a b = .lt ↔ ranks a < ranks b) ∧ (compareSections a b = .gt ↔ ranks b < ranks a) := by
  induction a generalizing b with
  | nil =>
      cases b with
      | nil => exact ⟨iff_of_false (by decide) (lt_irrefl _), iff_of_false (by decide) (lt_irrefl _)⟩
      | cons t b =>
          cases t with
          | tilde => exact compare_of_rank_gt (lt_of_kind (by decide))
          | caret => exact compare_of_rank_lt (lt_of_kind (by decide))
          | letters y => exact compare_of_rank_lt (lt_of_kind (by decide))
          | digits y => exact compare_of_rank_lt (lt_of_kind (by decide))
  | cons s a ih =>
      cases b with
      | nil =>
          cases s with
          | tilde => exact compare_of_rank_lt (lt_of_kind (by decide))
          | caret => exact compare_of_rank_gt (lt_of_kind (by decide))
          | letters x => exact compare_of_rank_gt (lt_of_kind (by decide))
          | digits x => exact compare_of_rank_gt (lt_of_kind (by decide))
      | cons t b =>
          cases s with
          | tilde =>
              cases t with
              | tilde => exact compare_of_rank_eq (ih b)
              | caret => exact compare_of_rank_lt (lt_of_kind (by decide))
              | letters y => exact compare_of_rank_lt (lt_of_kind (by decide))
              | digits y => exact compare_of_rank_lt (lt_of_kind (by decide))
          | caret =>
              cases t with
              | tilde => exact compare_of_rank_gt (lt_of_kind (by decide))
              | caret => exact compare_of_rank_eq (ih b)
              | letters y => exact compare_of_rank_lt (lt_of_kind (by decide))
              | digits y => exact compare_of_rank_lt (lt_of_kind (by decide))
          | letters x =>
              cases t with
              | tilde => exact compare_of_rank_gt (lt_of_kind (by decide))
              | caret => exact compare_of_rank_gt (lt_of_kind (by decide))
              | letters y =>
                  have hrank : ∀ {x y : Str}, x < y → rank (.letters x) < rank (.letters y) := fun h =>
                    Prod.Lex.toLex_lt_toLex.mpr (Or.inr ⟨rfl, Prod.Lex.toLex_lt_toLex.mpr (Or.inr ⟨rfl, h⟩)⟩)
                  rw [compareSections]
                  split
                  · rename_i h
                    exact compare_of_rank_lt (hrank h)
                  · rename_i hxy
                    split
                    · rename_i h
                      exact compare_of_rank_gt (hrank h)
                    · rename_i hyx
                      obtain rfl : x = y := le_antisymm (not_lt.mp hyx) (not_lt.mp hxy)
                      exact compare_of_rank_eq (ih b)
              | digits y => exact compare_of_rank_lt (lt_of_kind (by decide))
          | digits x =>
              cases t with
              | tilde => exact compare_of_rank_gt (lt_of_kind (by decide))
              | caret => exact compare_of_rank_gt (lt_of_kind (by decide))
              | letters y => exact compare_of_rank_gt (lt_of_kind (by decide))
              | digits y =>
                  have hrank : ∀ {x y : Str}, decimal x < decimal y → rank (.digits x) < rank (.digits y) := fun h =>
                    Prod.Lex.toLex_lt_toLex.mpr (Or.inr ⟨rfl, Prod.Lex.toLex_lt_toLex.mpr (Or.inl h)⟩)
                  rw [compareSections]
                  split
                  · rename_i h
                    exact compare_of_rank_lt (hrank h)
                  · rename_i hxy
                    split
                    · rename_i h
                      exact compare_of_rank_gt (hrank h)
                    · rename_i hyx
                      -- different spellings of one number have one rank
                      have hsame : rank (.digits x) = rank (.digits y) := by
                        rw [rank, rank, Nat.le_antisymm (not_lt.mp hyx) (not_lt.mp hxy)]
                      rw [ranks, ranks, hsame]
                      exact compare_of_rank_eq (ih b)

variable {a b c : Str}

theorem vercmp_eq_lt_iff : vercmp a b = .lt ↔ ranks (sections a) < ranks (sections b) :=
  (compareSections_iff _ _).1

theorem vercmp_eq_gt_iff : vercmp a b = .gt ↔ ranks (sections b) < ranks (sections a) :=
  (compareSections_iff _ _).2

/-- **`vercmp_swap`** — the order of versions is the same from both sides. -/
theorem vercmp_swap (a b : Str) : (vercmp a b).swap = vercmp b a := by
  cases h : vercmp a b with
  | lt => exact (vercmp_eq_gt_iff.mpr (vercmp_eq_lt_iff.mp h)).symm
  | gt => exact (vercmp_eq_lt_iff.mpr (vercmp_eq_gt_iff.mp h)).symm
  | eq =>
      cases h' : vercmp b a with
      | lt =>
          rw [vercmp_eq_gt_iff.mpr (vercmp_eq_lt_iff.mp h')] at h
          exact absurd h (by decide)
      | gt =>
          rw [vercmp_eq_lt_iff.mpr (vercmp_eq_gt_iff.mp h')] at h
          exact absurd h (by decide)
      | eq => rfl

/-- **`vercmp_trans`** — a version not above a second, which is not above a third, is not above the
third. -/
theorem vercmp_trans (hab : vercmp a b ≠ .gt) (hbc : vercmp b c ≠ .gt) : vercmp a c ≠ .gt := by
  rw [Ne, vercmp_eq_gt_iff, not_lt] at hab hbc ⊢
  exact hab.trans hbc

/-! ## Reading sections -/

theorem adjoin_eq_false_left {c d : Char} (h : sectionOf [c] = none) : adjoin c d = false := by
  unfold sectionOf at h
  unfold adjoin
  cases hd : isAsciiDigit c with
  | true => simp [hd] at h
  | false =>
      cases hl : isAsciiLetter c with
      | true => simp [hd, hl] at h
      | false => rfl

theorem adjoin_comm (c d : Char) : adjoin c d = adjoin d c := by
  rw [adjoin, adjoin, Bool.and_comm, Bool.and_comm (isAsciiLetter c)]

/-- **`sections_separated`** — a separator stands between the sections on its two sides, and is none. -/
theorem sections_separated {c : Char} (hc : sectionOf [c] = none) (a b : Str) :
    sections (a ++ c :: b) = sections a ++ sections b := by
  have hright : (c :: b).splitBy adjoin = [c] :: b.splitBy adjoin := by
    cases b with
    | nil => rfl
    | cons d b =>
        apply List.splitBy_append_cons (l := [c])
        intro x hx
        obtain rfl : c = x := by simpa using hx
        exact adjoin_eq_false_left hc
  have hleft : (a ++ c :: b).splitBy adjoin = a.splitBy adjoin ++ (c :: b).splitBy adjoin := by
    apply List.splitBy_append_cons
    intro x _
    rw [adjoin_comm]
    exact adjoin_eq_false_left hc
  rw [sections, hleft, hright, List.filterMap_append, List.filterMap_cons, hc]
  rfl

/-- A run of digits is one section. -/
theorem sections_digits {ds : Str} (hne : ds ≠ []) (hds : ∀ c ∈ ds, isAsciiDigit c = true) :
    sections ds = [.digits ds] := by
  have hchain : ds.IsChain fun c d => adjoin c d = true := by
    apply List.Pairwise.isChain
    apply List.pairwise_of_forall_mem_list
    intro c hc d hd
    rw [adjoin, hds c hc, hds d hd]
    rfl
  obtain ⟨c, cs, rfl⟩ := List.exists_cons_of_ne_nil hne
  rw [sections, List.splitBy_of_isChain hne hchain, List.filterMap_cons, sectionOf,
    if_pos (hds c List.mem_cons_self)]
  rfl

/-! ## Numbers between dots -/

/-- A number, written with any leading zeros. -/
def IsNumeral (ds : Str) : Prop := ds ≠ [] ∧ ∀ c ∈ ds, isAsciiDigit c = true

theorem sections_dotted : ∀ parts : List Str, (∀ ds ∈ parts, IsNumeral ds) →
    sections (join ".".toList parts) = parts.map .digits
  | [], _ => rfl
  | [ds], h => by
      have hds := h ds List.mem_cons_self
      exact sections_digits hds.1 hds.2
  | ds :: es :: parts, h => by
      rw [List.forall_mem_cons] at h
      rw [join, List.append_assoc, show ".".toList = ['.'] from rfl, List.singleton_append,
        sections_separated (by decide), sections_digits h.1.1 h.1.2]
      exact congrArg (Section.digits ds :: ·) (sections_dotted (es :: parts) h.2)

/-- Runs of digits compare as their numbers do. -/
theorem compareSections_digits (xs ys : List Str) (hlen : xs.length = ys.length) :
    (compareSections (xs.map .digits) (ys.map .digits) = .lt ↔ xs.map decimal < ys.map decimal) ∧
      (compareSections (xs.map .digits) (ys.map .digits) = .gt ↔ ys.map decimal < xs.map decimal) := by
  induction xs generalizing ys with
  | nil =>
      obtain rfl := List.length_eq_zero_iff.mp hlen.symm
      exact ⟨iff_of_false (by decide) (lt_irrefl _), iff_of_false (by decide) (lt_irrefl _)⟩
  | cons x xs ih =>
      cases ys with
      | nil => exact absurd hlen (by simp)
      | cons y ys =>
          have ih := ih ys (Nat.succ.inj hlen)
          rw [List.map_cons, List.map_cons, List.map_cons, List.map_cons, compareSections, List.cons_lt_cons_iff,
            List.cons_lt_cons_iff]
          rcases Nat.lt_trichotomy (decimal x) (decimal y) with h | h | h
          · rw [if_pos h]
            exact ⟨iff_of_true rfl (Or.inl h), iff_of_false (by decide) (by omega)⟩
          · rw [if_neg (by omega), if_neg (by omega), ih.1, ih.2]
            exact ⟨⟨fun hl => Or.inr ⟨h, hl⟩, fun hl => (hl.resolve_left (by omega)).2⟩,
              ⟨fun hl => Or.inr ⟨h.symm, hl⟩, fun hl => (hl.resolve_left (by omega)).2⟩⟩
          · rw [if_neg (by omega), if_pos h]
            exact ⟨iff_of_false (by decide) (by omega), iff_of_true rfl (Or.inl h)⟩

/-- **`vercmp_dotted`** — versions of equally many numbers between dots compare as the lists of these
numbers, and are equal only if the lists are. -/
theorem vercmp_dotted {xs ys : List Str} (hxs : ∀ ds ∈ xs, IsNumeral ds) (hys : ∀ ds ∈ ys, IsNumeral ds)
    (hlen : xs.length = ys.length) :
    (vercmp (join ".".toList xs) (join ".".toList ys) = .lt ↔ xs.map decimal < ys.map decimal) ∧
      (vercmp (join ".".toList xs) (join ".".toList ys) = .gt ↔ ys.map decimal < xs.map decimal) ∧
      (vercmp (join ".".toList xs) (join ".".toList ys) = .eq ↔ xs.map decimal = ys.map decimal) := by
  rw [vercmp, sections_dotted xs hxs, sections_dotted ys hys]
  obtain ⟨hlt, hgt⟩ := compareSections_digits xs ys hlen
  refine ⟨hlt, hgt, ?_⟩
  rcases lt_trichotomy (xs.map decimal) (ys.map decimal) with h | h | h
  · rw [hlt.mpr h]
    exact iff_of_false (by decide) (ne_of_lt h)
  · refine iff_of_true ?_ h
    cases hcmp : compareSections (xs.map .digits) (ys.map .digits) with
    | eq => rfl
    | lt => exact absurd (hlt.mp hcmp) (by rw [h]; exact lt_irrefl _)
    | gt => exact absurd (hgt.mp hcmp) (by rw [h]; exact lt_irrefl _)
  · rw [hgt.mpr h]
    exact iff_of_false (by decide) (ne_of_gt h)

end HummingbirdRpms.Lib.RpmVersion
