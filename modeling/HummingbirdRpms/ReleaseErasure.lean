/-
# HummingbirdRpms.ReleaseErasure — what normalising the releases of a spec erases.

`normalize_release_in_specs` of `ci/dist_git.py` rewrites the `Release:` lines of a spec as a whole, and of the
`%global` and `%define` lines of the macros that hold a release the first word of the value.  White space in
its second pattern goes past the end of a line: where such a line has no value, the first word of a later line
is taken for it.

**`normalize_erases_iff`** — two spec texts that differ only in these values become the same text, with all
other lines as they were, exactly if in both every definition that is found stands on one line, and where the
values differ the same text stands behind their first words.  Normalising twice is the same as normalising
once for every text (**`normalizeRelease_idem`**).
-/
import HummingbirdRpms.Lib.Pieces
import HummingbirdRpms.ReleaseDefs

namespace HummingbirdRpms.ReleaseErasure

open Lib Lib.Text Lib.Regex

/-! ## The lines of a spec -/

/-- The lines of a text. -/
def lines (text : Str) : List Str := text.splitOn '\n'

/-- A `Release:` line. -/
def IsRelease (l : Str) : Prop := "Release:".toList <+: l

/-- A line with a release: a `Release:` line, or the definition of a macro that holds one. -/
def IsListed (l : Str) : Prop := IsRelease l ∨ ∃ h tail, IsHead h ∧ Ends tail ∧ l = h ++ tail

/-- The text behind the first word of a value, if there is a word. -/
def behindWord (tail : Str) : Option Str :=
  if tail.all isSpace then none else some ((tail.dropWhile isSpace).dropWhile fun c => !isSpace c)

/-- Two lines that differ at most in the value of a release. -/
inductive SameButValue : Str → Str → Prop
  | same (l : Str) : SameButValue l l
  | release {l l' : Str} (h : IsRelease l) (h' : IsRelease l') : SameButValue l l'
  | definition {h tail tail' : Str} (hhead : IsHead h) (ht : Ends tail) (ht' : Ends tail') :
      SameButValue (h ++ tail) (h ++ tail')

/-- Two such lines with the same text behind the first words of their values. -/
inductive SameButWord : Str → Str → Prop
  | same (l : Str) : SameButWord l l
  | release {l l' : Str} (h : IsRelease l) (h' : IsRelease l') : SameButWord l l'
  | definition {h tail tail' rest : Str} (hhead : IsHead h) (ht : Ends tail) (ht' : Ends tail')
      (hrest : behindWord tail = some rest) (hrest' : behindWord tail' = some rest) :
      SameButWord (h ++ tail) (h ++ tail')

/-! ## What normalising should do, and when it does -/

/-- Every line without a release is as it was. -/
def OthersKept (x : Str) : Prop :=
  List.Forall₂ (fun l l' => IsListed l ∨ l' = l) (lines x) (lines (normalizeRelease x))

/-- Normalising is done once and for all, makes two texts the same, and leaves their other lines alone. -/
structure Erases (x y : Str) : Prop where
  idem : normalizeRelease (normalizeRelease x) = normalizeRelease x ∧
    normalizeRelease (normalizeRelease y) = normalizeRelease y
  same : normalizeRelease x = normalizeRelease y
  kept : OthersKept x ∧ OthersKept y

/-- Every definition that is found stands on one line, or is one that is rewritten to itself. -/
def OneLine (x : Str) : Prop :=
  ∀ i h gap word rest, DefAt x i h gap word rest → '\n' ∉ h ++ gap ∨ gap ++ word = " 0".toList

/-! ## Lines -/

section

variable {t u a b l x y h g w rest : Str} {front : List Str} {i : Nat}

theorem join_lines (t : Str) : join "\n" (lines t) = t := join_splitOn '\n' t

theorem lines_join {ls : List Str} (hlines : ∀ l ∈ ls, '\n' ∉ l) (hne : ls ≠ []) : lines (join "\n" ls) = ls :=
  splitOn_join hlines hne

theorem lines_ne_nil (t : Str) : lines t ≠ [] := List.splitOn_ne_nil '\n' t

theorem newline_not_mem (hl : l ∈ lines t) : '\n' ∉ l := (mem_splitOn hl).1

/-- What stands before the start of a line is made of lines. -/
theorem lineStart_cut (hcut : t = a ++ b) (hstart : LineStart t a.length) : a = [] ∨ a.getLast? = some '\n' := by
  rcases hstart with hzero | hprev
  · exact Or.inl (List.length_eq_zero_iff.mp hzero)
  · right
    rw [hcut, prev?_length_append] at hprev
    exact hprev

theorem lineStart_of_cut (hcut : t = a ++ b) (ha : a = [] ∨ a.getLast? = some '\n') : LineStart t a.length := by
  rcases ha with rfl | ha
  · exact Or.inl rfl
  · right
    rw [hcut, prev?_length_append]
    exact ha

theorem DefAt.text (hd : DefAt t 0 h g w rest) : t = h ++ (g ++ (w ++ rest)) := hd.drop

/-- A definition on a line is one in the text. -/
theorem DefAt.of_line (hcut : t = a ++ (l ++ b)) (ha : a = [] ∨ a.getLast? = some '\n') (hb : Ends b)
    (hd : DefAt l 0 h g w rest) : DefAt t a.length h g w (rest ++ b) where
  start := lineStart_of_cut hcut ha
  drop := by rw [hcut, List.drop_left, hd.text]; simp
  head := hd.head
  gap_space := hd.gap_space
  word_solid := hd.word_solid
  ends := by
    cases rest with
    | nil => exact hb
    | cons c rest => exact hd.ends

/-- What one line becomes: a definition with a value is rewritten. -/
inductive Becomes : Str → Str → Prop
  | plain {l : Str} (hno : ∀ h g w rest, ¬ DefAt l 0 h g w rest) : Becomes l l
  | word {l h g w rest : Str} (hdef : DefAt l 0 h g w rest) : Becomes l (h ++ (" 0".toList ++ rest))

theorem Becomes.unique {l m m' : Str} (hm : Becomes l m) (hm' : Becomes l m') : m = m' := by
  cases hm with
  | plain hno =>
      cases hm' with
      | plain => rfl
      | word hdef => exact absurd hdef (hno _ _ _ _)
  | word hdef =>
      cases hm' with
      | plain hno => exact absurd hdef (hno _ _ _ _)
      | word hdef' =>
          obtain ⟨rfl, rfl, rfl, rfl⟩ := hdef.unique hdef'
          rfl

theorem not_defAt_of_ends (hl : Ends l) : ¬ DefAt l 0 h g w rest := by
  intro hd
  rw [hd.text] at hl
  exact not_ends_head hd.head hl

/-- A text that does not begin with a word has a first line that does not either. -/
theorem ends_first {others : List Str} (hu : Ends u) (hlines : lines u = l :: others) : Ends l := by
  have hjoin := join_lines u
  rw [hlines] at hjoin
  cases l with
  | nil => rfl
  | cons c l =>
      cases others with
      | nil =>
          rw [← hjoin] at hu
          exact hu
      | cons m others =>
          rw [← hjoin] at hu
          exact hu

/-- The lines before the first definition have none. -/
theorem NoDef.front_lines (hno : NoDef t a.length) (hcut : t = a ++ b) (hfront : a = front.flatMap (· ++ ['\n'])) :
    ∀ l ∈ front, ∀ h g w rest, ¬ DefAt l 0 h g w rest := by
  intro l hl h g w rest hdef
  obtain ⟨pre, post, rfl⟩ := List.append_of_mem hl
  have htext : t = pre.flatMap (· ++ ['\n']) ++ (l ++ ('\n' :: (post.flatMap (· ++ ['\n']) ++ b))) := by
    rw [hcut, hfront]
    simp
  refine hno (pre.flatMap (· ++ ['\n'])).length ?_ _ _ _ _ (hdef.of_line htext (flatMap_end _ _) rfl)
  rw [hfront, List.flatMap_append, List.flatMap_cons, List.length_append, List.length_append, List.length_append]
  simp only [List.length_singleton]
  omega

/-- Nor has any line of a text without definitions. -/
theorem NoDef.lines (hno : NoDef t t.length) : ∀ l ∈ lines t, ∀ h g w rest, ¬ DefAt l 0 h g w rest := by
  intro l hl h g w rest hdef
  obtain ⟨pre, post, hcut⟩ := List.append_of_mem hl
  have hjoin := join_lines t
  have hpieces := @join_append_cons '\n' l pre post
  rw [hcut] at hjoin
  have hpost : Ends (post.flatMap ('\n' :: ·)) := by
    cases post with
    | nil => rfl
    | cons p post => rfl
  have hdef' := hdef.of_line (hjoin.symm.trans hpieces) (flatMap_end _ _) hpost
  exact hno _ hdef'.lt _ _ _ _ hdef'

end

/-! ## Definitions on one line -/

section

variable {t u out front h g w rest : Str} {i : Nat}

theorem OneLine.of_rest (hone : OneLine (front ++ (h ++ (g ++ (w ++ rest))))) (hends : Ends rest) :
    OneLine rest := by
  intro j h' g' w' rest' hdef
  have hdrop : (front ++ (h ++ (g ++ (w ++ rest)))).drop (front ++ (h ++ (g ++ w))).length = rest := by
    rw [show front ++ (h ++ (g ++ (w ++ rest))) = (front ++ (h ++ (g ++ w))) ++ rest by simp, List.drop_left]
  exact hone _ _ _ _ _ ((defAt_drop hdrop (Or.inr hends)).mpr hdef)

/-- The first line of a text that does not begin with a word is left alone. -/
theorem Rewritten.first_line (hr : Rewritten u out) (hu : Ends u) :
    ∃ l ls ls', lines u = l :: ls ∧ lines out = l :: ls' := by
  cases hr with
  | plain =>
      obtain ⟨l, ls, hls⟩ := List.exists_cons_of_ne_nil (lines_ne_nil u)
      exact ⟨l, ls, ls, hls, hls⟩
  | @step front h g w rest out hno hdef hrest =>
      obtain ⟨pieces, hfront, hlines⟩ := splitOn_append_of_end (lineStart_cut rfl hdef.start)
      cases pieces with
      | nil =>
          rw [show front = [] from hfront] at hu
          exact absurd hu (not_ends_head (u := g ++ (w ++ rest)) hdef.head)
      | cons l pieces => exact ⟨l, _, _, hlines _, hlines _⟩

theorem not_defAt_of_head {l : Str} (hl : ∀ c ∈ l.head?, c ≠ '%') : ¬ DefAt l 0 h g w rest := by
  intro hdef
  obtain ⟨v, rfl, -⟩ := hdef.head.cons
  rw [hdef.text] at hl
  exact hl '%' rfl rfl

/-- The lines of a head that does not stand on one line: the first has no name, the others no percent sign. -/
theorem IsHead.lines (hh : IsHead h) (hbroken : '\n' ∈ h) : ∃ p ls last,
    (∀ b first others, lines b = first :: others → lines (h ++ b) = p :: (ls ++ (last ++ first) :: others)) ∧
    (∀ h' g w rest, ¬ DefAt p 0 h' g w rest) ∧ (∀ l ∈ ls, ∀ c ∈ l, c ≠ '%') ∧ ∀ c ∈ last, c ≠ '%' ∧ c ≠ 'R' := by
  obtain ⟨p, q, hcut, hp⟩ := List.eq_append_cons_of_mem hbroken
  obtain ⟨u, hu, hletters⟩ := hh.cons
  have hq : ∀ c ∈ q, c ≠ '%' ∧ c ≠ 'R' := by
    intro c hc
    refine hletters c ?_
    cases p with
    | nil => exact absurd (List.cons.inj (hu.symm.trans hcut)).1 (by decide)
    | cons a p =>
        rw [(List.cons.inj (hu.symm.trans hcut)).2]
        exact List.mem_append_right _ (List.mem_cons_of_mem _ hc)
  obtain ⟨ls, last, hlast, hlines⟩ := splitOn_append '\n' q
  have hpieces : ∀ l ∈ ls ++ [last], ∀ c ∈ l, c ≠ '%' ∧ c ≠ 'R' := by
    intro l hl c hc
    rw [← hlast] at hl
    exact hq c ((mem_splitOn hl).2.subset hc)
  refine ⟨p, ls, last, ?_, ?_, ?_, hpieces last (by simp)⟩
  · intro b first others hb
    have hwhole := List.splitOn_append_cons_self_of_not_mem hp (q ++ b)
    rw [hlines b first others hb] at hwhole
    rw [hcut, ReleaseErasure.lines, List.append_assoc, List.cons_append]
    exact hwhole
  · intro h' g w rest hdef
    -- a head on the first line would be the one that goes on past it
    have heq : h' ++ (g ++ (w ++ rest) ++ '\n' :: q) = h ++ [] := by
      rw [List.append_nil, hcut, hdef.text]
      simp
    have hends : Ends (g ++ (w ++ rest) ++ '\n' :: q) := by
      rw [List.append_assoc]
      exact ends_of_space hdef.gap_space
    obtain ⟨rfl, -⟩ := hdef.head.unique hh hends (show Ends [] from rfl) heq
    rw [hdef.text] at hp
    exact hp (List.mem_append_left _ hbroken)
  · intro l hl c hc
    exact (hpieces l (List.mem_append_left _ hl) c hc).1

/-- **`Rewritten.lines`** — if every definition stands on one line, rewriting them rewrites their lines. -/
theorem Rewritten.lines (hr : Rewritten u out) (hone : OneLine u) :
    List.Forall₂ Becomes (lines u) (lines out) := by
  induction hr with
  | plain hno => exact List.forall₂_same.mpr fun l hl => .plain (hno.lines l hl)
  | @step front h g w rest out hno hdef hrest ih =>
      have hrest' := ih (hone.of_rest hdef.ends)
      obtain ⟨y, ys, ys', hy, hy'⟩ := hrest.first_line hdef.ends
      rw [hy, hy'] at hrest'
      obtain ⟨-, hrest'⟩ := List.forall₂_cons.mp hrest'
      obtain ⟨pieces, hfront, hlines⟩ := splitOn_append_of_end (lineStart_cut rfl hdef.start)
      have hbefore : List.Forall₂ Becomes pieces pieces :=
        List.forall₂_same.mpr fun l hl => .plain (hno.front_lines rfl hfront l hl)
      have hends : Ends y := ends_first hdef.ends hy
      have hword : '\n' ∉ w := fun hmem => absurd (hdef.word_solid.2 _ hmem) (by decide)
      have hat : DefAt (h ++ (g ++ (w ++ y))) 0 h g w y :=
        ⟨Or.inl rfl, rfl, hdef.head, hdef.gap_space, hdef.word_solid, hends⟩
      rw [ReleaseErasure.lines, ReleaseErasure.lines, hlines, hlines]
      refine List.rel_append hbefore ?_
      by_cases hgap : '\n' ∈ h ++ g
      · -- the definition is rewritten to itself
        have hsame := (hone _ _ _ _ _ hdef).resolve_left (not_not_intro hgap)
        have hbroken : '\n' ∈ h := by
          rcases List.mem_append.mp hgap with hmem | hmem
          · exact hmem
          · have hmem' : '\n' ∈ " 0".toList := hsame ▸ List.mem_append_left w hmem
            exact absurd hmem' (by decide)
        obtain ⟨p, ls, last, hcut, hp, hls, hlast⟩ := hdef.head.lines hbroken
        have hzero : ∀ {b first others}, ReleaseErasure.lines b = first :: others →
            ReleaseErasure.lines (" 0".toList ++ b) = (" 0".toList ++ first) :: others :=
          fun hb => splitOn_append_of_not_mem (by decide) hb
        have hold := hcut _ _ _ (hzero hy)
        have hnew := hcut _ _ _ (hzero hy')
        rw [← hsame] at hold
        rw [List.append_assoc] at hold
        simp only [ReleaseErasure.lines] at hold hnew
        rw [hold, hnew, hsame]
        have hbetween : List.Forall₂ Becomes ls ls := by
          refine List.forall₂_same.mpr fun l hl => .plain fun h' g' w' rest' => ?_
          exact not_defAt_of_head fun c hc => hls l hl c (List.mem_of_head? hc)
        have hend : Becomes (last ++ (" 0".toList ++ y)) (last ++ (" 0".toList ++ y)) := by
          refine .plain fun h' g' w' rest' => not_defAt_of_head fun c hc => ?_
          cases last with
          | nil =>
              obtain rfl : ' ' = c := Option.some.inj hc
              decide
          | cons a last =>
              obtain rfl : a = c := Option.some.inj hc
              exact (hlast a List.mem_cons_self).1
        exact .cons (.plain hp) (List.rel_append hbetween (.cons hend hrest'))
      · have hunbroken : '\n' ∉ h ++ (g ++ w) := by
          simpa [or_assoc, hword] using hgap
        have hzero : '\n' ∉ h ++ " 0".toList := by
          simp only [List.mem_append, not_or] at hgap ⊢
          exact ⟨hgap.1, by decide⟩
        have hold := splitOn_append_of_not_mem hunbroken hy
        have hnew := splitOn_append_of_not_mem hzero hy'
        simp only [List.append_assoc] at hold hnew
        rw [hold, hnew]
        exact .cons (.word hat) hrest'

end

/-! ## If the other lines are kept, definitions stand on one line -/

section

variable {t u out front h g w rest : Str} {i : Nat}

theorem Rewritten.count_le (hr : Rewritten u out) : out.count '\n' ≤ u.count '\n' := by
  induction hr with
  | plain => exact le_rfl
  | @step front h g w rest out hno hdef hrest ih =>
      have hzero : " 0".toList.count '\n' = 0 := by decide
      simp only [List.count_append, hzero]
      omega

/-- Behind a definition whose white space is on its line, the next one begins behind the word. -/
theorem DefAt.next {h' g' w' rest' : Str} (hd : DefAt (front ++ (h ++ (g ++ (w ++ rest)))) front.length h g w rest)
    (hgap : '\n' ∉ g) (hd' : DefAt (front ++ (h ++ (g ++ (w ++ rest)))) i h' g' w' rest')
    (hlt : front.length < i) : (front ++ (h ++ (g ++ w))).length ≤ i := by
  by_contra hshort
  obtain ⟨k, rfl⟩ := Nat.exists_eq_add_of_lt hlt
  have hlen : k + 1 < (h ++ (g ++ w)).length := by
    rw [List.length_append] at hshort
    omega
  have hdrop : (front ++ (h ++ (g ++ (w ++ rest)))).drop front.length = (h ++ (g ++ w)) ++ rest := by
    rw [List.drop_left]
    simp
  -- the definition begins with a percent sign, behind the end of a line
  have hnewline : (h ++ (g ++ w))[k]? = some '\n' := by
    rcases hd'.start with hzero | hprev
    · omega
    · rw [prev?, if_neg (by omega), Nat.add_sub_cancel, getElem?_of_drop hdrop (by omega)] at hprev
      exact hprev
  have hpercent : (h ++ (g ++ w))[k + 1]? = some '%' := by
    obtain ⟨v, rfl, -⟩ := hd'.head.cons
    have hhead := congrArg List.head? hd'.drop
    rw [List.head?_drop, Nat.add_assoc, getElem?_of_drop hdrop hlen] at hhead
    exact hhead
  obtain ⟨v, rfl, hletters⟩ := hd.head.cons
  have hword : '\n' ∉ w := fun hmem => absurd (hd.word_solid.2 _ hmem) (by decide)
  have hin : k < ('%' :: v).length := by
    by_contra hout
    rw [List.getElem?_append_right (by omega)] at hnewline
    rcases List.mem_append.mp (List.mem_of_getElem? hnewline) with hmem | hmem
    · exact hgap hmem
    · exact hword hmem
  have hg : 0 < g.length := List.length_pos_iff.mpr hd.gap_space.1
  rw [← List.append_assoc, List.getElem?_append_left (by rw [List.length_append]; omega), List.cons_append,
    List.getElem?_cons_succ] at hpercent
  rcases List.mem_append.mp (List.mem_of_getElem? hpercent) with hmem | hmem
  · exact (hletters _ hmem).1 rfl
  · exact absurd (hd.gap_space.2 _ hmem) (by decide)

/-- A line that begins with another character has no release. -/
theorem not_isListed {l : Str} (hl : ∀ c ∈ l.head?, c ≠ '%' ∧ c ≠ 'R') : ¬ IsListed l := by
  rintro (hrelease | ⟨h, tail, hh, -, rfl⟩)
  · obtain ⟨v, rfl⟩ := hrelease
    exact (hl 'R' rfl).2 rfl
  · obtain ⟨v, rfl, -⟩ := hh.cons
    exact (hl '%' rfl).1 rfl

/-- **`Rewritten.oneLine`** — if only definitions change when a text is rewritten line by line, every definition
stands on one line. -/
theorem Rewritten.oneLine (hr : Rewritten u out)
    (hkept : List.Forall₂ (fun l l' => IsListed l ∨ l' = l) (ReleaseErasure.lines u) (ReleaseErasure.lines out)) :
    OneLine u := by
  induction hr with
  | plain hno => exact fun i h g w rest hdef => absurd hdef (hno i hdef.lt _ _ _ _)
  | @step front h g w rest out hno hdef hrest ih =>
      have hword : '\n' ∉ w := fun hmem => absurd (hdef.word_solid.2 _ hmem) (by decide)
      -- there are as many lines as before, so that no end of a line was taken
      have hgap : '\n' ∉ g := by
        have hlength := hkept.length_eq
        rw [ReleaseErasure.lines, ReleaseErasure.lines, length_splitOn, length_splitOn] at hlength
        have hle := hrest.count_le
        have hzero : " 0".toList.count '\n' = 0 := by decide
        simp only [List.count_append, hzero] at hlength
        exact List.count_eq_zero.mp (by omega)
      obtain ⟨y, ys, ys', hy, hy'⟩ := hrest.first_line hdef.ends
      obtain ⟨ls, last, hcut, hlast⟩ : ∃ ls last,
          (∀ b first others, ReleaseErasure.lines b = first :: others →
            ReleaseErasure.lines (h ++ b) = ls ++ (last ++ first) :: others) ∧
          ('\n' ∈ h → ∀ c ∈ last, c ≠ '%' ∧ c ≠ 'R') := by
        by_cases hbroken : '\n' ∈ h
        · obtain ⟨p, ls, last, hcut, -, -, hlast⟩ := hdef.head.lines hbroken
          exact ⟨p :: ls, last, hcut, fun _ => hlast⟩
        · exact ⟨[], h, fun b first others hb => splitOn_append_of_not_mem hbroken hb,
            fun hmem => absurd hmem hbroken⟩
      obtain ⟨pieces, -, hlines⟩ := splitOn_append_of_end (lineStart_cut rfl hdef.start)
      have hold := hcut _ _ _ (splitOn_append_of_not_mem (a := g ++ w) (by simp [hgap, hword]) hy)
      have hnew := hcut _ _ _ (splitOn_append_of_not_mem (a := " 0".toList) (by decide) hy')
      rw [List.append_assoc] at hold
      rw [ReleaseErasure.lines, ReleaseErasure.lines, hlines, hlines] at hkept
      simp only [ReleaseErasure.lines] at hold hnew
      rw [hold, hnew, ← List.append_assoc pieces, ← List.append_assoc pieces] at hkept
      have hbehind := List.forall₂_drop (pieces ++ ls).length hkept
      rw [List.drop_left, List.drop_left] at hbehind
      obtain ⟨hline, hothers⟩ := List.forall₂_cons.mp hbehind
      have hone : OneLine rest := by
        refine ih ?_
        rw [hy, hy']
        exact .cons (Or.inr rfl) hothers
      intro i h' g' w' rest' hdef'
      rcases lt_trichotomy i front.length with hlt | rfl | hlt
      · exact absurd hdef' (hno i hlt _ _ _ _)
      · obtain ⟨rfl, rfl, rfl, -⟩ := hdef.unique hdef'
        by_cases hbroken : '\n' ∈ h
        · right
          have hnot : ¬ IsListed (last ++ (g ++ w ++ y)) := by
            refine not_isListed fun c hc => ?_
            cases last with
            | nil =>
                rw [List.nil_append, List.append_assoc, List.head?_append_of_ne_nil _ hdef.gap_space.1] at hc
                have hspace := hdef.gap_space.2 c (List.mem_of_head? hc)
                constructor
                · rintro rfl
                  exact absurd hspace (by decide)
                · rintro rfl
                  exact absurd hspace (by decide)
            | cons a last =>
                obtain rfl : a = c := Option.some.inj hc
                exact hlast hbroken a List.mem_cons_self
          have heq := List.append_cancel_left (hline.resolve_left hnot)
          exact (List.append_cancel_right heq).symm
        · left
          simp [hbroken, hgap]
      · obtain ⟨j, rfl⟩ := Nat.exists_eq_add_of_le (hdef.next hgap hdef' hlt)
        have hdrop : (front ++ (h ++ (g ++ (w ++ rest)))).drop (front ++ (h ++ (g ++ w))).length = rest := by
          rw [show front ++ (h ++ (g ++ (w ++ rest))) = (front ++ (h ++ (g ++ w))) ++ rest by simp, List.drop_left]
        exact hone _ _ _ _ _ ((defAt_drop hdrop (Or.inr hdef.ends)).mp hdef')

end

/-! ## Release lines -/

section

variable {t u out x y front h g w rest : Str} {i : Nat}

instance (l : Str) : Decidable (IsRelease l) := inferInstanceAs (Decidable ("Release:".toList <+: l))

/-- What a line becomes when releases are normalised. -/
def releaseLine (l : Str) : Str := if IsRelease l then normalRelease else l

/-- A text with its `Release:` lines normalised. -/
def normalReleases (x : Str) : Str := sub releaseLineRe (fun _ => normalRelease) x

theorem normalizeRelease_eq (x : Str) : normalizeRelease x = rewriteDefs (normalReleases x) := rfl

theorem isRelease_normalRelease : IsRelease normalRelease := by decide

theorem releaseLine_of_isRelease {l : Str} (hl : IsRelease l) : releaseLine l = normalRelease := if_pos hl

theorem releaseLine_of_not {l : Str} (hl : ¬ IsRelease l) : releaseLine l = l := if_neg hl

/-- The captures on a `Release:` line. -/
def releaseCaps (l : Str) : Option (List (Nat × Str)) := if IsRelease l then some [] else none

/-- The pattern takes a line that begins with the tag as a whole. -/
theorem releaseLine_matches (l : Str) : LineMatches releaseLineRe l (releaseCaps l) := by
  intro t i rest hstart hline
  have hrun : run t releaseLineRe ⟨i, []⟩ =
      (run t (.lit "Release:") ⟨i, []⟩).flatMap (run t (.cat (.many true (· != '\n')) .eol)) := by
    rw [releaseLineRe, Re.seq, run_cat, hstart.run_bol]
    simp only [List.flatMap_cons, List.flatMap_nil, List.append_nil]
    rfl
  rw [releaseCaps]
  by_cases hl : IsRelease l
  · rw [if_pos hl]
    obtain ⟨v, rfl⟩ := hl
    have htail := hline.tail (k := "Release:".toList.length) (by rw [List.length_append]; omega)
    rw [List.drop_left] at htail
    have hlit := run_lit_of_drop (s := ⟨i, []⟩) (by rw [← List.append_assoc]; exact hline.drop)
    rw [hlit] at hrun
    have hfirst : (run t releaseLineRe ⟨i, []⟩).head? =
        some ⟨i + "Release:".toList.length + v.length, []⟩ := by
      rw [hrun, List.flatMap_cons, List.flatMap_nil, List.append_nil]
      exact htail.head?_toEnd []
    rw [matchAt_of_head? hfirst, List.length_append, Nat.add_assoc]
    rfl
  · rw [if_neg hl]
    apply matchAt_none_of_run
    rw [hrun, run_lit_nil (mt (hline.prefix_iff (by decide)).mp hl)]
    rfl

/-- Normalising releases works line by line. -/
theorem lines_normalReleases (x : Str) : lines (normalReleases x) = (lines x).map releaseLine := by
  have hsub : sub releaseLineRe (fun _ => normalRelease) x =
      join "\n" ((lines x).map (lineWith (fun _ => normalRelease) (fun l => l) releaseCaps)) :=
    sub_lines (r := releaseLineRe) (f := fun _ => normalRelease) (t := x) anchored_bol
      (fun l _ hl => by rw [show l = [] from hl]; rfl) (fun l hl => newline_not_mem hl)
      (fun l _ => releaseLine_matches l) (lines_ne_nil x) (by rw [List.map_id', join_lines])
  have heach : lineWith (fun _ => normalRelease) (fun l => l) releaseCaps = releaseLine := by
    funext l
    by_cases hl : IsRelease l
    · rw [lineWith, releaseCaps, if_pos hl, releaseLine_of_isRelease hl]
      rfl
    · rw [lineWith, releaseCaps, if_neg hl, releaseLine_of_not hl]
      rfl
  rw [heach] at hsub
  rw [normalReleases, hsub]
  refine lines_join (fun l hl => ?_) (by simp [lines_ne_nil])
  obtain ⟨m, hm, rfl⟩ := List.mem_map.mp hl
  unfold releaseLine
  split
  · decide
  · exact newline_not_mem hm

/-- All `Release:` lines are normal. -/
def Normal (x : Str) : Prop := ∀ l ∈ lines x, IsRelease l → l = normalRelease

theorem normal_normalReleases (x : Str) : Normal (normalReleases x) := by
  intro l hl hrelease
  rw [lines_normalReleases] at hl
  obtain ⟨m, -, rfl⟩ := List.mem_map.mp hl
  unfold releaseLine at hrelease ⊢
  split
  · rfl
  · rename_i hnot
    rw [if_neg hnot] at hrelease
    exact absurd hrelease hnot

theorem Normal.normalReleases_eq (hx : Normal x) : normalReleases x = x := by
  have hsame : (lines x).map releaseLine = lines x := by
    rw [List.map_congr_left (g := id), List.map_id]
    intro l hl
    by_cases hrelease : IsRelease l
    · rw [releaseLine_of_isRelease hrelease, hx l hl hrelease]
      rfl
    · exact releaseLine_of_not hrelease
  rw [← join_lines (normalReleases x), lines_normalReleases, hsame, join_lines]

theorem not_isRelease_of_head {l : Str} (hl : ∀ c ∈ l.head?, c ≠ 'R') : ¬ IsRelease l := by
  rintro ⟨v, rfl⟩
  exact hl 'R' rfl rfl

theorem not_isRelease_of_ends {l : Str} (hl : Ends l) : ¬ IsRelease l := by
  rintro ⟨v, rfl⟩
  exact Bool.noConfusion (show true = false from hl)

theorem not_isRelease_of_not_mem {l : Str} (hl : 'R' ∉ l) : ¬ IsRelease l :=
  not_isRelease_of_head fun c hc => by
    rintro rfl
    exact hl (List.mem_of_head? hc)

/-- Rewriting definitions makes no `Release:` lines, also where a definition is spread over lines. -/
theorem Rewritten.normal (hr : Rewritten u out) (hu : Normal u) : Normal out := by
  induction hr with
  | plain => exact hu
  | @step front h g w rest out hno hdef hrest ih =>
      obtain ⟨v, hv, hletters⟩ := hdef.head.cons
      have hhead : ∀ c ∈ h, c ≠ 'R' := by
        rw [hv]
        intro c hc
        rcases List.mem_cons.mp hc with rfl | hc
        · decide
        · exact (hletters c hc).2
      obtain ⟨y, ys, ys', hy, hy'⟩ := hrest.first_line hdef.ends
      obtain ⟨pieces, -, hlines⟩ := splitOn_append_of_end (lineStart_cut rfl hdef.start)
      obtain ⟨ls, last, hpieces, hcut⟩ := splitOn_append '\n' h
      obtain ⟨ls', last', -, hcut'⟩ := splitOn_append '\n' (h ++ (g ++ w))
      have hold := hcut' rest y ys hy
      have hnew := hcut _ _ _ (splitOn_append_of_not_mem (a := " 0".toList) (by decide) hy')
      simp only [List.append_assoc] at hold
      have hrestNormal : Normal rest := by
        intro l hl hrelease
        rw [hy] at hl
        rcases List.mem_cons.mp hl with rfl | hl
        · exact absurd hrelease (not_isRelease_of_ends (ends_first hdef.ends hy))
        · refine hu l ?_ hrelease
          rw [ReleaseErasure.lines, hlines, hold]
          simp [hl]
      intro l hl hrelease
      rw [ReleaseErasure.lines, hlines, hnew] at hl
      have hletter : ∀ m ∈ ls ++ [last], ∀ c ∈ m, c ≠ 'R' := by
        intro m hm c hc
        rw [← hpieces] at hm
        exact hhead c ((mem_splitOn hm).2.subset hc)
      rcases List.mem_append.mp hl with hl | hl
      · refine hu l ?_ hrelease
        rw [ReleaseErasure.lines, hlines]
        exact List.mem_append_left _ hl
      · rcases List.mem_append.mp hl with hl | hl
        · exact absurd hrelease (not_isRelease_of_not_mem fun hmem => hletter l (by simp [hl]) _ hmem rfl)
        · rcases List.mem_cons.mp hl with rfl | hl
          · refine absurd hrelease (not_isRelease_of_head fun c hc => ?_)
            cases last with
            | nil =>
                obtain rfl : ' ' = c := Option.some.inj hc
                decide
            | cons a last =>
                obtain rfl : a = c := Option.some.inj hc
                exact hletter (a :: last) (by simp) a List.mem_cons_self
          · exact ih hrestNormal l (by rw [hy']; exact List.mem_cons_of_mem _ hl) hrelease

/-- **`normalizeRelease_idem`** — normalising twice is normalising once. -/
theorem normalizeRelease_idem (x : Str) : normalizeRelease (normalizeRelease x) = normalizeRelease x := by
  have hnormal : Normal (normalizeRelease x) :=
    (rewritten_rewriteDefs (normalReleases x)).normal (normal_normalReleases x)
  rw [normalizeRelease_eq (normalizeRelease x), hnormal.normalReleases_eq, normalizeRelease_eq, rewriteDefs_idem]

end

/-! ## Releases do not decide where definitions stand -/

section

variable {t u out x y h g w rest p s : Str} {ls ls' : List Str} {c : Char} {i : Nat}

/-- Two lists of lines that differ in releases only. -/
def SameButRelease (ls ls' : List Str) : Prop :=
  List.Forall₂ (fun l l' => l' = l ∨ IsRelease l ∧ IsRelease l') ls ls'

theorem SameButRelease.symm (hls : SameButRelease ls ls') : SameButRelease ls' ls := by
  refine List.Forall₂.flip (hls.imp fun l l' hl => ?_)
  rcases hl with rfl | ⟨hl, hl'⟩
  · exact Or.inl rfl
  · exact Or.inr ⟨hl', hl⟩

/-- What has no `R` and something behind it is in the one text if it is in the other. -/
theorem SameButRelease.begins (hls : SameButRelease ls ls') (hp : 'R' ∉ p) (heq : join "\n" ls' = p ++ c :: s) :
    ∃ s', join "\n" ls = p ++ c :: s' := by
  induction hls generalizing p with
  | nil => exact absurd heq (by simp [join])
  | @cons l l' ls ls' hl hrest ih =>
      rw [show join "\n" (l' :: ls') = l' ++ ls'.flatMap ('\n' :: ·) from join_cons] at heq
      rw [show join "\n" (l :: ls) = l ++ ls.flatMap ('\n' :: ·) from join_cons]
      rcases hl with rfl | ⟨⟨v, rfl⟩, ⟨v', rfl⟩⟩
      · -- what follows the line begins in the same way
        have hbehind : ∀ q, 'R' ∉ q → ls'.flatMap ('\n' :: ·) = q ++ c :: s →
            ∃ s', ls.flatMap ('\n' :: ·) = q ++ c :: s' := by
          intro q hq hcut
          cases hrest with
          | nil => exact absurd hcut (by simp)
          | @cons m m' ls ls' hm hrest =>
              rw [List.flatMap_cons, List.cons_append] at hcut ⊢
              cases q with
              | nil => exact ⟨_, by rw [(List.cons.inj hcut).1]; rfl⟩
              | cons a q =>
                  obtain ⟨rfl, hcut'⟩ := List.cons.inj hcut
                  obtain ⟨s', hs'⟩ := ih (p := q) (fun hmem => hq (List.mem_cons_of_mem _ hmem))
                    (show join ['\n'] (m' :: ls') = _ by rw [join_cons]; exact hcut')
                  refine ⟨s', ?_⟩
                  rw [show join "\n" (m :: ls) = m ++ ls.flatMap ('\n' :: ·) from join_cons] at hs'
                  rw [hs']
                  rfl
        rcases List.append_eq_append_iff.mp heq with ⟨as, rfl, hcut⟩ | ⟨as, rfl, hcut⟩
        · obtain ⟨s', hs'⟩ := hbehind as (fun hmem => hp (List.mem_append_right _ hmem)) hcut
          exact ⟨s', by rw [hs', List.append_assoc]⟩
        · cases as with
          | nil =>
              obtain ⟨s', hs'⟩ := hbehind [] List.not_mem_nil hcut.symm
              exact ⟨s', by rw [hs', List.append_nil]; rfl⟩
          | cons a as =>
              rw [(List.cons.inj hcut).1]
              exact ⟨as ++ ls.flatMap ('\n' :: ·), by simp⟩
      · cases p with
        | nil => exact ⟨_, by rw [← (List.cons.inj heq).1]; rfl⟩
        | cons a p => exact absurd (by rw [← (List.cons.inj heq).1]; exact List.mem_cons_self) hp

theorem IsHead.not_mem (hh : IsHead h) (hg : WordOver isSpace g) : 'R' ∉ h ++ g := by
  intro hmem
  rcases List.mem_append.mp hmem with hmem | hmem
  · obtain ⟨v, rfl, hletters⟩ := hh.cons
    rcases List.mem_cons.mp hmem with heq | hmem
    · exact absurd heq (by decide)
    · exact (hletters _ hmem).2 rfl
  · exact absurd (hg.2 _ hmem) (by decide)

theorem OneLine.of_same (hxy : SameButRelease (lines x) (lines y)) (hone : OneLine x) : OneLine y := by
  intro i h g w rest hdef
  have hcut : y = y.take i ++ y.drop i := (List.take_append_drop i y).symm
  have hlen : (y.take i).length = i := List.length_take_of_le hdef.lt.le
  obtain ⟨pieces, -, hlines⟩ := splitOn_append_of_end (lineStart_cut hcut (by rw [hlen]; exact hdef.start))
  have hy : lines y = pieces ++ lines (y.drop i) := by
    conv_lhs => rw [hcut]
    exact hlines _
  rw [hy] at hxy
  -- the part of the other text that stands in the same place
  have hbehind := List.forall₂_drop pieces.length hxy
  rw [List.drop_left] at hbehind
  obtain ⟨l, ls, hl⟩ : ∃ l ls, (lines x).drop pieces.length = l :: ls := by
    obtain ⟨m, ms, hm⟩ := List.exists_cons_of_ne_nil (lines_ne_nil (y.drop i))
    rw [hm] at hbehind
    obtain ⟨l, ls, -, -, hl⟩ := List.forall₂_cons_right_iff.mp hbehind
    exact ⟨l, ls, hl⟩
  rw [hl] at hbehind
  obtain ⟨before, hbefore, hx⟩ : ∃ before : Str, (before = [] ∨ before.getLast? = some '\n') ∧
      x = before ++ join "\n" (l :: ls) := by
    refine ⟨((lines x).take pieces.length).flatMap (· ++ ['\n']), flatMap_end _ _, ?_⟩
    conv_lhs => rw [← join_lines x, ← List.take_append_drop pieces.length (lines x), hl]
    rw [show join "\n" (l :: ls) = l ++ ls.flatMap ('\n' :: ·) from join_cons]
    exact join_append_cons
  have hdrop : x.drop before.length = join "\n" (l :: ls) := by rw [hx, List.drop_left]
  have hp := hdef.head.not_mem hdef.gap_space
  obtain ⟨a, w', rfl⟩ := List.exists_cons_of_ne_nil hdef.word_solid.1
  have hjoin : join "\n" (lines (y.drop i)) = (h ++ g) ++ a :: (w' ++ rest) := by
    rw [join_lines, hdef.drop]
    simp
  obtain ⟨s', hs'⟩ := SameButRelease.begins hbehind hp hjoin
  obtain ⟨word, rest', hdef'⟩ := exists_defAt (lineStart_of_cut hx hbefore)
    (show x.drop before.length = h ++ (g ++ a :: s') by rw [hdrop, hs', List.append_assoc]) hdef.head hdef.gap_space
    (by simpa using hdef.word_solid.2 a List.mem_cons_self)
  rcases hone _ _ _ _ _ hdef' with hgap | hsame
  · exact Or.inl hgap
  · -- a word on a line that begins with the definition is in both texts
    right
    obtain ⟨rfl, rfl⟩ : g = " ".toList ∧ word = "0".toList :=
      word_cancel hdef.gap_space.2 (by decide) (head_of_solid_self hdef'.word_solid) rfl hsame
    have hline : join "\n" (l :: ls) = (h ++ " ".toList) ++ '0' :: rest' := by
      rw [← hdrop, hdef'.drop]
      simp
    obtain ⟨s₁, hs₁⟩ := SameButRelease.begins (SameButRelease.symm hbehind) hp hline
    have hword : (a :: w') ++ rest = "0".toList ++ s₁ := by
      rw [join_lines, hdef.drop, List.append_assoc] at hs₁
      exact List.append_cancel_left (List.append_cancel_left hs₁)
    have hends : Ends s₁ := by
      cases s₁ with
      | nil => rfl
      | cons d s₁ =>
          have hzero : 'R' ∉ h ++ " 0".toList := by
            intro hmem
            rw [show h ++ " 0".toList = (h ++ " ".toList) ++ "0".toList by simp] at hmem
            rcases List.mem_append.mp hmem with hmem | hmem
            · exact hp hmem
            · exact absurd hmem (by decide)
          obtain ⟨s₂, hs₂⟩ := SameButRelease.begins hbehind hzero (show _ = (h ++ " 0".toList) ++ d :: s₁ by
            rw [hs₁]
            simp)
          have hrest : rest' = d :: s₂ := by
            have hcancel : (h ++ " ".toList) ++ '0' :: rest' = (h ++ " ".toList) ++ '0' :: d :: s₂ := by
              rw [← hline, hs₂]
              simp
            exact (List.cons.inj (List.append_cancel_left hcancel)).2
          have hends' := hdef'.ends
          rw [hrest] at hends'
          exact hends'
    obtain ⟨hsame', -⟩ := word_cancel hdef.word_solid.2 (by decide) hdef.ends hends hword
    rw [hsame']
    rfl

theorem sameButRelease_normalReleases (x : Str) : SameButRelease (lines x) (lines (normalReleases x)) := by
  rw [lines_normalReleases]
  refine List.forall₂_map_right_iff.mpr (List.forall₂_same.mpr fun l _ => ?_)
  by_cases hl : IsRelease l
  · exact Or.inr ⟨hl, by rw [releaseLine_of_isRelease hl]; exact isRelease_normalRelease⟩
  · exact Or.inl (releaseLine_of_not hl)

end

/-! ## What is erased -/

section

variable {x y l l' m h tail rest : Str}

theorem isListed_releaseLine (hl : IsListed l) : IsListed (releaseLine l) := by
  by_cases hrelease : IsRelease l
  · rw [releaseLine_of_isRelease hrelease]
    exact Or.inl isRelease_normalRelease
  · rwa [releaseLine_of_not hrelease]

theorem behindWord_of_word {g w : Str} (hg : WordOver isSpace g) (hw : WordOver (fun c => !isSpace c) w)
    (hrest : Ends rest) : behindWord (g ++ (w ++ rest)) = some rest := by
  have hspace : (w ++ rest).dropWhile isSpace = w ++ rest := by
    obtain ⟨a, v, rfl⟩ := List.exists_cons_of_ne_nil hw.1
    exact List.dropWhile_cons_of_neg (by simpa using hw.2 a List.mem_cons_self)
  have hsolid : rest.dropWhile (fun c => !isSpace c) = rest := by
    cases rest with
    | nil => rfl
    | cons c rest => exact List.dropWhile_cons_of_neg (by simpa [Ends, inClass] using hrest)
  have hnot : ¬ (g ++ (w ++ rest)).all isSpace := by
    obtain ⟨a, v, rfl⟩ := List.exists_cons_of_ne_nil hw.1
    intro hall
    have hspace := List.all_eq_true.mp hall a (by simp)
    have hsolid : (!isSpace a) = true := hw.2 a List.mem_cons_self
    rw [hspace] at hsolid
    cases hsolid
  rw [behindWord, if_neg hnot, List.dropWhile_append_of_pos hg.2, hspace, List.dropWhile_append_of_pos hw.2, hsolid]

/-- The parts of a value: white space, the first word, and what stands behind it. -/
theorem exists_word (htail : Ends tail) (hrest : behindWord tail = some rest) : ∃ g w, tail = g ++ (w ++ rest) ∧
    WordOver isSpace g ∧ WordOver (fun c => !isSpace c) w ∧ Ends rest := by
  unfold behindWord at hrest
  split at hrest
  · cases hrest
  · rename_i hnot
    obtain rfl := Option.some.inj hrest
    obtain ⟨a, u, hau⟩ := List.exists_cons_of_ne_nil
      (mt List.dropWhile_eq_nil_iff.mp (fun hall => hnot (List.all_eq_true.mpr hall)))
    have ha : isSpace a = false := by
      have hhead := List.head?_dropWhile_not isSpace tail
      rw [hau] at hhead
      simpa using hhead
    obtain ⟨hword, hends⟩ := first_word (u := u) ha
    refine ⟨tail.takeWhile isSpace, _, ?_, ⟨?_, fun c hc => @List.mem_takeWhile_imp _ isSpace _ _ hc⟩, hword, ?_⟩
    · rw [← hau, List.takeWhile_append_dropWhile, List.takeWhile_append_dropWhile]
    · cases tail with
      | nil => cases hau
      | cons c tail =>
          rw [List.takeWhile_cons_of_pos (by simpa [Ends, inClass] using htail)]
          exact List.cons_ne_nil _ _
    · rw [hau]
      exact hends

theorem behindWord_none (htail : behindWord tail = none) : ∀ c ∈ tail, isSpace c = true := by
  unfold behindWord at htail
  split at htail
  · rename_i hall
    exact List.all_eq_true.mp hall
  · cases htail

/-- What a definition becomes. -/
theorem Becomes.definition (hh : IsHead h) (htail : Ends tail) (hm : Becomes (h ++ tail) m) :
    behindWord tail = none ∧ m = h ++ tail ∨
      ∃ rest, behindWord tail = some rest ∧ m = h ++ (" 0".toList ++ rest) := by
  cases hm with
  | plain hno =>
      left
      refine ⟨?_, rfl⟩
      cases hword : behindWord tail with
      | none => rfl
      | some rest =>
          obtain ⟨g, w, rfl, hg, hw, hrest⟩ := exists_word htail hword
          exact absurd ⟨Or.inl rfl, rfl, hh, hg, hw, hrest⟩ (hno h g w rest)
  | word hdef =>
      right
      obtain ⟨rfl, rfl⟩ := hh.unique hdef.head htail (ends_of_space hdef.gap_space) hdef.text
      exact ⟨_, behindWord_of_word hdef.gap_space hdef.word_solid hdef.ends, rfl⟩

theorem releaseLine_definition (hh : IsHead h) : releaseLine (h ++ tail) = h ++ tail := by
  refine releaseLine_of_not (not_isRelease_of_head fun c hc => ?_)
  obtain ⟨v, rfl, -⟩ := hh.cons
  obtain rfl : '%' = c := Option.some.inj hc
  decide

/-- Two lines that become the same have the same text behind their words. -/
theorem SameButValue.word (hl : SameButValue l l') (hm : Becomes (releaseLine l) m)
    (hm' : Becomes (releaseLine l') m) : SameButWord l l' := by
  cases hl with
  | same => exact .same l
  | release h h' => exact .release h h'
  | @definition h tail tail' hh ht ht' =>
      rw [releaseLine_definition hh] at hm hm'
      rcases hm.definition hh ht with ⟨hnone, rfl⟩ | ⟨rest, hrest, rfl⟩
      · rcases hm'.definition hh ht' with ⟨-, heq⟩ | ⟨rest', hrest', heq⟩
        · rw [List.append_cancel_left heq]
          exact .same _
        · -- a value of white space is left as it is
          have hzero : '0' ∈ tail := by
            rw [List.append_cancel_left heq]
            exact List.mem_append_left _ (by decide)
          exact absurd (behindWord_none hnone _ hzero) (by decide)
      · rcases hm'.definition hh ht' with ⟨hnone, heq⟩ | ⟨rest', hrest', heq⟩
        · have hzero : '0' ∈ tail' := by
            rw [← List.append_cancel_left heq]
            exact List.mem_append_left _ (by decide)
          exact absurd (behindWord_none hnone _ hzero) (by decide)
        · have hsame := List.append_cancel_left (List.append_cancel_left heq)
          rw [← hsame] at hrest'
          exact .definition hh ht ht' hrest hrest'

/-- And the other way. -/
theorem SameButWord.becomes_eq {m' : Str} (hl : SameButWord l l') (hm : Becomes (releaseLine l) m)
    (hm' : Becomes (releaseLine l') m') : m = m' := by
  cases hl with
  | same => exact hm.unique hm'
  | release h h' =>
      rw [releaseLine_of_isRelease h] at hm
      rw [releaseLine_of_isRelease h'] at hm'
      exact hm.unique hm'
  | @definition h tail tail' rest hh ht ht' hrest hrest' =>
      rw [releaseLine_definition hh] at hm hm'
      rcases hm.definition hh ht with ⟨hnone, -⟩ | ⟨s, hs, rfl⟩
      · rw [hnone] at hrest
        cases hrest
      · rcases hm'.definition hh ht' with ⟨hnone, -⟩ | ⟨s', hs', rfl⟩
        · rw [hnone] at hrest'
          cases hrest'
        · rw [hrest] at hs
          rw [hrest'] at hs'
          rw [← Option.some.inj hs, ← Option.some.inj hs']

/-- The lines of the normalised text, if definitions stand on one line. -/
theorem OneLine.becomes (hone : OneLine x) :
    List.Forall₂ (fun l m => Becomes (releaseLine l) m) (lines x) (lines (normalizeRelease x)) := by
  have hlines := (rewritten_rewriteDefs (normalReleases x)).lines (hone.of_same (sameButRelease_normalReleases x))
  rw [lines_normalReleases] at hlines
  exact List.forall₂_map_left_iff.mp hlines

/-- **`othersKept_iff`** — the other lines are kept exactly if every definition stands on one line. -/
theorem othersKept_iff : OthersKept x ↔ OneLine x := by
  constructor
  · intro hkept
    refine OneLine.of_same (SameButRelease.symm (sameButRelease_normalReleases x)) ?_
    refine (rewritten_rewriteDefs (normalReleases x)).oneLine ?_
    rw [lines_normalReleases]
    refine List.forall₂_map_left_iff.mpr (hkept.imp fun l l' hl => ?_)
    by_cases hrelease : IsRelease l
    · rw [releaseLine_of_isRelease hrelease]
      exact Or.inl (Or.inl isRelease_normalRelease)
    · rwa [releaseLine_of_not hrelease]
  · intro hone
    refine hone.becomes.imp fun l m hm => ?_
    by_cases hrelease : IsRelease l
    · exact Or.inl (Or.inl hrelease)
    · rw [releaseLine_of_not hrelease] at hm
      cases hm with
      | plain => exact Or.inr rfl
      | word hdef => exact Or.inl (Or.inr ⟨_, _, hdef.head, ends_of_space hdef.gap_space, hdef.text⟩)

theorem sameButWord_of_becomes {ls ls' ms : List Str} (hls : List.Forall₂ SameButValue ls ls')
    (hm : List.Forall₂ (fun l m => Becomes (releaseLine l) m) ls ms)
    (hm' : List.Forall₂ (fun l m => Becomes (releaseLine l) m) ls' ms) : List.Forall₂ SameButWord ls ls' := by
  induction hls generalizing ms with
  | nil => exact .nil
  | cons hl _ ih =>
      cases hm with
      | cons hfirst hothers =>
          cases hm' with
          | cons hfirst' hothers' => exact .cons (hl.word hfirst hfirst') (ih hothers hothers')

theorem becomes_eq {ls ls' ms ms' : List Str} (hls : List.Forall₂ SameButWord ls ls')
    (hm : List.Forall₂ (fun l m => Becomes (releaseLine l) m) ls ms)
    (hm' : List.Forall₂ (fun l m => Becomes (releaseLine l) m) ls' ms') : ms = ms' := by
  induction hls generalizing ms ms' with
  | nil =>
      cases hm
      cases hm'
      rfl
  | cons hl _ ih =>
      cases hm with
      | cons hfirst hothers =>
          cases hm' with
          | cons hfirst' hothers' => rw [hl.becomes_eq hfirst hfirst', ih hothers hothers']

/-- **`normalize_erases_iff`** — normalising erases exactly the values of the releases of two texts that differ in
nothing else, exactly if in both every definition that is found stands on one line, and where values differ the
same text stands behind their first words. -/
theorem normalize_erases_iff (h : List.Forall₂ SameButValue (lines x) (lines y)) :
    Erases x y ↔ OneLine x ∧ OneLine y ∧ List.Forall₂ SameButWord (lines x) (lines y) := by
  constructor
  · rintro ⟨-, hsame, hx, hy⟩
    have hone := othersKept_iff.mp hx
    have hone' := othersKept_iff.mp hy
    have hlines' := hone'.becomes
    rw [← hsame] at hlines'
    exact ⟨hone, hone', sameButWord_of_becomes h hone.becomes hlines'⟩
  · rintro ⟨hx, hy, hwords⟩
    refine ⟨⟨normalizeRelease_idem x, normalizeRelease_idem y⟩, ?_, othersKept_iff.mpr hx, othersKept_iff.mpr hy⟩
    rw [← join_lines (normalizeRelease x), becomes_eq hwords hx.becomes hy.becomes, join_lines]

theorem isHead_baserelease : IsHead "%global baserelease".toList :=
  ⟨"global".toList, by decide, " ".toList, "baserelease".toList, by decide, ⟨by decide, by decide⟩, rfl⟩

/-- A spec with release five. -/
def five : Str := "%global baserelease 5\nRelease: 5%\x7b?dist\x7d\n".toList

/-- The same spec with release six. -/
def six : Str := "%global baserelease 6\nRelease: 6%\x7b?dist\x7d.1\n".toList

/-- Five and six are erased. -/
theorem erases_numbers : Erases five six := by
  have hfive : lines (normalizeRelease five) = ["%global baserelease 0".toList, normalRelease, []] := by
    decide +kernel
  have hsix : lines (normalizeRelease six) = ["%global baserelease 0".toList, normalRelease, []] := by
    decide +kernel
  refine (normalize_erases_iff ?_).mpr ⟨othersKept_iff.mp ?_, othersKept_iff.mp ?_, ?_⟩
  · exact .cons (@SameButValue.definition _ " 5" " 6" isHead_baserelease rfl rfl)
      (.cons (.release (by decide) (by decide)) (.cons (.same []) .nil))
  · rw [OthersKept, hfive]
    exact .cons (Or.inl (Or.inr ⟨_, " 5", isHead_baserelease, rfl, rfl⟩))
      (.cons (Or.inl (Or.inl (by decide))) (.cons (Or.inr rfl) .nil))
  · rw [OthersKept, hsix]
    exact .cons (Or.inl (Or.inr ⟨_, " 6", isHead_baserelease, rfl, rfl⟩))
      (.cons (Or.inl (Or.inl (by decide))) (.cons (Or.inr rfl) .nil))
  · exact .cons (@SameButWord.definition _ " 5" " 6" [] isHead_baserelease rfl rfl (by decide) (by decide))
      (.cons (.release (by decide) (by decide)) (.cons (.same []) .nil))

/-- The words of an expression are not. -/
theorem expression_left : ¬ ∀ x y, List.Forall₂ SameButValue (lines x) (lines y) → Erases x y := by
  intro hall
  have hlines : List.Forall₂ SameButValue (lines "%global baserelease %\x7bexpr: 1 + 2\x7d".toList)
      (lines "%global baserelease 3".toList) :=
    .cons (@SameButValue.definition _ " %\x7bexpr: 1 + 2\x7d" " 3" isHead_baserelease rfl rfl) .nil
  exact absurd (hall _ _ hlines).same (by decide)

end

end HummingbirdRpms.ReleaseErasure
