/-
# HummingbirdRpms.Lib.RegexLines — patterns that match at the start of a line.

* `LineAt` is a line at a position of a text, with what `.*$` matches there;
* **`rewrites_lines`** — a pattern that matches nowhere but at the start of a line, and there as far as the
  line goes, finds the matches of the lines one after the other, and replaces them.
-/
import Mathlib.Data.Nat.Find
import HummingbirdRpms.Lib.Regex

namespace HummingbirdRpms.Lib.Regex

open HummingbirdRpms.Lib.Text

variable {t : Str} {i k : Nat} {line rest : Str}

/-! ## The rest of a line -/

/-- A line at a position, and what follows it. -/
structure LineAt (t : Str) (i : Nat) (line rest : Str) : Prop where
  drop : t.drop i = line ++ rest
  one : '\n' ∉ line
  rest : rest = [] ∨ rest.head? = some '\n'

theorem LineAt.spanLen (h : LineAt t i line rest) : spanLen t (· != '\n') i = line.length := by
  apply spanLen_of_drop h.drop
  · intro c hc
    simp only [bne_iff_ne, ne_eq]
    rintro rfl
    exact h.one hc
  · rcases h.rest with hrest | hrest
    · rw [hrest]
      rfl
    · rw [hrest]
      rfl

theorem LineAt.tail (h : LineAt t i line rest) (hk : k ≤ line.length) :
    LineAt t (i + k) (line.drop k) rest where
  drop := by rw [← List.drop_drop, h.drop, List.drop_append_of_le_length hk]
  one := fun hmem => h.one (List.mem_of_mem_drop hmem)
  rest := h.rest

/-- At the end of a line `$` matches. -/
theorem LineAt.run_eol (h : LineAt t i line rest) (caps : List (Nat × Str)) :
    run t .eol ⟨i + line.length, caps⟩ = [⟨i + line.length, caps⟩] := by
  have hend := (h.tail le_rfl).drop
  rw [List.drop_length, List.nil_append] at hend
  rw [Regex.run_eol, if_pos]
  rcases h.rest with hrest | hrest
  · rw [hrest, List.drop_eq_nil_iff] at hend
    exact Or.inl hend
  · right
    show t[i + line.length]? = some '\n'
    rw [← hrest, ← hend, List.head?_drop]

/-- A greedy rest of the line is all of it. -/
theorem LineAt.head?_toEnd (h : LineAt t i line rest) (caps : List (Nat × Str)) :
    (run t (.cat (.many true (· != '\n')) .eol) ⟨i, caps⟩).head? = some ⟨i + line.length, caps⟩ := by
  have hmany : Greedy t (.many true (· != '\n')) ⟨i, caps⟩ 0 (Regex.spanLen t (· != '\n') i)
      fun k => ⟨i + k, caps⟩ := greedy_many
  rw [h.spanLen] at hmany
  refine hmany.head?_cat (Nat.zero_le _) le_rfl ?_ fun j hj hle => absurd hle (by omega)
  rw [h.run_eol]
  rfl

/-- The same, captured. -/
theorem LineAt.head?_groupToEnd (h : LineAt t i line rest) (g : Nat) (caps : List (Nat × Str)) :
    (run t (.cat (.group g (.many true (· != '\n'))) .eol) ⟨i, caps⟩).head? =
      some ⟨i + line.length, (g, line) :: caps⟩ := by
  have hmany : Greedy t (.many true (· != '\n')) ⟨i, caps⟩ 0 (Regex.spanLen t (· != '\n') i)
      fun k => ⟨i + k, caps⟩ := greedy_many
  rw [h.spanLen] at hmany
  refine (hmany.group (i := g) fun k => rfl).head?_cat (Nat.zero_le _) le_rfl ?_
    fun j hj hle => absurd hle (by omega)
  have hline : (t.drop i).take line.length = line := by rw [h.drop, List.take_left]
  show (run t .eol ⟨i + line.length, (g, (t.drop i).take line.length) :: caps⟩).head? = _
  rw [h.run_eol, hline]
  rfl

/-- A rest of the line that is not empty is taken as a whole first. -/
theorem LineAt.longest (h : LineAt t i line rest) (hne : line ≠ []) (caps : List (Nat × Str)) :
    Longest t (Re.some1 (· != '\n')) ⟨i, caps⟩ line.length := by
  have hall : ∀ c ∈ line, (c != '\n') = true := by
    intro c hc
    rw [bne_iff_ne]
    rintro rfl
    exact h.one hc
  have hstop : inClass (· != '\n') rest.head? = false := by
    rcases h.rest with hrest | hrest
    · rw [hrest]
      rfl
    · rw [hrest]
      rfl
  exact longest_some1 h.drop hne hall hstop

theorem LineAt.head?_some (h : LineAt t i line rest) (hne : line ≠ []) (caps : List (Nat × Str)) :
    (run t (.cat (Re.some1 (· != '\n')) .eol) ⟨i, caps⟩).head? = some ⟨i + line.length, caps⟩ := by
  have hlongest := (h.longest hne caps).head?
  rw [List.head?_eq_some_iff] at hlongest
  obtain ⟨others, hrun⟩ := hlongest
  rw [head?_cat, hrun, List.findSome?_cons]
  dsimp only
  rw [h.run_eol, List.head?_cons]

/-- The same, captured. -/
theorem LineAt.head?_groupSome (h : LineAt t i line rest) (hne : line ≠ []) (g : Nat) (caps : List (Nat × Str)) :
    (run t (.cat (.group g (Re.some1 (· != '\n'))) .eol) ⟨i, caps⟩).head? =
      some ⟨i + line.length, (g, line) :: caps⟩ := by
  have hgroup := (h.longest hne caps).head?_group (i := g) h.drop
  rw [List.head?_eq_some_iff] at hgroup
  obtain ⟨others, hrun⟩ := hgroup
  rw [head?_cat, hrun, List.findSome?_cons]
  dsimp only
  rw [h.run_eol, List.head?_cons]

/-- What a line begins with does not depend on what follows it. -/
theorem LineAt.prefix_iff {w : Str} (h : LineAt t i line rest) (hw : '\n' ∉ w) : w <+: t.drop i ↔ w <+: line := by
  rw [h.drop]
  constructor
  · intro hprefix
    rcases List.prefix_or_prefix_of_prefix hprefix (List.prefix_append line rest) with hline | ⟨v, rfl⟩
    · exact hline
    · -- it would go on past the end of the line
      have hv : v <+: rest := (List.prefix_append_right_inj line).mp hprefix
      cases v with
      | nil => rw [List.append_nil]
      | cons c v =>
          rcases h.rest with hrest | hrest
          · rw [hrest] at hv
            exact absurd hv (by simp)
          · obtain ⟨u, rfl⟩ := hv
            obtain rfl : c = '\n' := by simpa using hrest
            exact absurd (List.mem_append_right line List.mem_cons_self) hw
  · intro hprefix
    exact hprefix.trans (List.prefix_append _ _)

/-! ## A text of lines -/

/-- A position at which a line starts. -/
def LineStart (t : Str) (i : Nat) : Prop := i = 0 ∨ prev? t i = some '\n'

/-- The text from a position on is made of lines. -/
theorem lineAt_of_join {l : Str} {ls : List Str} (hlines : ∀ l' ∈ l :: ls, '\n' ∉ l')
    (hdrop : t.drop i = join "\n" (l :: ls)) :
    LineAt t i l (if ls = [] then [] else '\n' :: join "\n" ls) := by
  cases ls with
  | nil => exact ⟨by rw [hdrop, if_pos rfl, List.append_nil]; rfl, hlines l List.mem_cons_self, Or.inl rfl⟩
  | cons l' ls =>
      refine ⟨?_, hlines l List.mem_cons_self, Or.inr (by rw [if_neg (List.cons_ne_nil _ _)]; rfl)⟩
      rw [hdrop, if_neg (List.cons_ne_nil _ _), join, List.append_assoc]
      rfl

/-- Inside of a line no line starts. -/
theorem not_lineStart {u : Str} (hdrop : t.drop i = line ++ u) (hone : '\n' ∉ line) (h0 : 0 < k)
    (hk : k ≤ line.length) : ¬ LineStart t (i + k) := by
  rintro (hzero | hprev)
  · omega
  · obtain ⟨j, rfl⟩ := Nat.exists_eq_add_of_lt h0
    rw [prev?, if_neg (by omega), show i + (0 + j + 1) - 1 = i + j by omega, getElem?_of_drop hdrop (by omega),
      List.getElem?_eq_getElem (by omega)] at hprev
    exact hone (by rw [← Option.some.inj hprev]; exact List.getElem_mem _)

/-- What whole lines begin with, they begin with by themselves. -/
theorem prefix_append_lines {w s u : Str} (hw : '\n' ∉ w) (hs : s.getLast? = some '\n') : w <+: s ++ u ↔ w <+: s := by
  constructor
  · intro h
    rcases List.prefix_or_prefix_of_prefix h (List.prefix_append s u) with h | h
    · exact h
    · exact absurd (h.subset (List.mem_of_getLast? hs)) hw
  · intro h
    exact h.trans (List.prefix_append s u)

/-- Whether a line starts within the first part of a text does not depend on what follows that part. -/
theorem lineStart_append {front u : Str} {j : Nat} (hj : j ≤ front.length) :
    LineStart (front ++ u) j ↔ LineStart front j := by
  unfold LineStart
  apply or_congr_right'
  intro hzero
  rw [prev?, prev?, if_neg hzero, if_neg hzero, List.getElem?_append_left (by omega)]

theorem LineStart.run_bol {s : St} (h : LineStart t s.pos) : run t .bol s = [s] := if_pos h

theorem matchAt_none_of_run {r : Re} (h : run t r ⟨i, []⟩ = []) : matchAt r t i = none := by
  rw [matchAt, h]
  rfl

/-- The pattern matches at the start of a line only. -/
def Anchored (r : Re) (t : Str) : Prop := ∀ i, ¬ LineStart t i → matchAt r t i = none

theorem anchored_bol {r : Re} : Anchored (.cat .bol r) t := by
  intro i hi
  have hbol : run t .bol ⟨i, []⟩ = [] := if_neg hi
  apply matchAt_none_of_run
  rw [run_cat, hbol]
  rfl

/-- Wherever the line starts, the pattern matches it as far as it goes with these captures, or not at all. -/
def LineMatches (r : Re) (line : Str) (caps : Option (List (Nat × Str))) : Prop :=
  ∀ t i rest, LineStart t i → LineAt t i line rest →
    matchAt r t i = caps.map fun c => ⟨i, i + line.length, c⟩

section

variable {α : Type} {r : Re} {text : α → Str} {caps : α → Option (List (Nat × Str))} {lines : List α}
  {f : List (Nat × Str) → Str}

/-- What a line becomes when its match is replaced. -/
def lineWith (f : List (Nat × Str) → Str) (text : α → Str) (caps : α → Option (List (Nat × Str))) (a : α) : Str :=
  ((caps a).map f).getD (text a)

/-- **`rewrites_lines`** — the matches are those of the lines, and replacing them replaces these lines. -/
theorem rewrites_lines (hanchored : Anchored r t) (hempty : ∀ a ∈ lines, text a = [] → caps a = none)
    (hlines : ∀ a ∈ lines, '\n' ∉ text a) (hmatch : ∀ a ∈ lines, LineMatches r (text a) (caps a))
    (hne : lines ≠ []) (hstart : LineStart t i) (hle : i ≤ t.length)
    (hdrop : t.drop i = join "\n" (lines.map text)) :
    ∃ ms, Rewrites r (fun m => f m.caps) t i ms (join "\n" (lines.map (lineWith f text caps))) ∧
      ms.map Match.caps = lines.filterMap caps := by
  induction lines generalizing i with
  | nil => exact absurd rfl hne
  | cons a lines ih =>
      have hunbroken : ∀ l ∈ text a :: lines.map text, '\n' ∉ l := by
        rw [← List.map_cons]
        exact List.forall_mem_map.mpr hlines
      have hline := lineAt_of_join hunbroken hdrop
      have hlen : t.length = i + ((text a).length +
          (if lines.map text = [] then [] else '\n' :: join "\n" (lines.map text)).length) := by
        have h := congrArg List.length hline.drop
        rw [List.length_drop, List.length_append] at h
        omega
      have hinside : ∀ k, 0 < k → k ≤ (text a).length → matchAt r t (i + k) = none :=
        fun k h0 hk => hanchored _ (not_lineStart hline.drop hline.one h0 hk)
      have hat := hmatch a List.mem_cons_self t i _ hstart hline
      have hl : ∀ c, caps a = some c → 0 < (text a).length := by
        intro c hc
        rw [List.length_pos_iff]
        intro h
        rw [hempty a List.mem_cons_self h] at hc
        cases hc
      -- from the end of the line on nothing is found on it
      have hend : ∃ ms, Rewrites r (fun m => f m.caps) t (i + (text a).length) ms
            (if lines = [] then [] else '\n' :: join "\n" (lines.map (lineWith f text caps))) ∧
          ms.map Match.caps = lines.filterMap caps := by
        have hnone : matchAt r t (i + (text a).length) = none := by
          by_cases hzero : (text a).length = 0
          · rw [hempty a List.mem_cons_self (List.length_eq_zero_iff.mp hzero)] at hat
            rw [hzero]
            exact hat
          · exact hinside _ (by omega) le_rfl
        cases lines with
        | nil =>
            have hlast : i + (text a).length = t.length := by
              rw [hlen, List.map_nil, if_pos rfl, List.length_nil]
              omega
            rw [hlast] at hnone ⊢
            exact ⟨[], .stop hnone, rfl⟩
        | cons b lines =>
            rw [if_neg (by simp)] at hlen hline
            have hnewline : t.drop (i + (text a).length) = '\n' :: join "\n" ((b :: lines).map text) :=
              drop_add_length hline.drop
            have hprev : prev? t (i + (text a).length + 1) = some '\n' := by
              rw [prev?, if_neg (by omega), Nat.add_sub_cancel]
              have h := congrArg List.head? hnewline
              rwa [List.head?_drop] at h
            obtain ⟨ms, hms, hcaps⟩ := ih (i := i + (text a).length + 1)
              (fun c h => hempty c (List.mem_cons_of_mem a h)) (fun c h => hlines c (List.mem_cons_of_mem a h))
              (fun c h => hmatch c (List.mem_cons_of_mem a h)) (List.cons_ne_nil _ _) (Or.inr hprev)
              (by rw [List.length_cons] at hlen; omega) (by rw [← List.drop_drop, hnewline]; rfl)
            refine ⟨ms, ?_, hcaps⟩
            rw [if_neg (List.cons_ne_nil _ _)]
            refine Rewrites.skip (x := ['\n']) hnewline (by rw [List.length_cons] at hlen; simp; omega) ?_ hms
            intro j hj
            obtain rfl : j = 0 := by simpa using hj
            exact hnone
      obtain ⟨ms, hms, hcaps'⟩ := hend
      have hout : join "\n" ((a :: lines).map (lineWith f text caps)) = lineWith f text caps a ++
          (if lines = [] then [] else '\n' :: join "\n" (lines.map (lineWith f text caps))) := by
        cases lines with
        | nil =>
            rw [if_pos rfl, List.append_nil]
            rfl
        | cons b lines =>
            rw [if_neg (List.cons_ne_nil _ _), List.map_cons, List.map_cons, join, List.append_assoc]
            rfl
      rw [hout]
      cases hcaps : caps a with
      | none =>
          rw [hcaps] at hat
          refine ⟨ms, ?_, by rw [List.filterMap_cons_none hcaps, hcaps']⟩
          have hsame : lineWith f text caps a = text a := by
            rw [lineWith, hcaps]
            rfl
          rw [hsame]
          refine Rewrites.skip hline.drop (by omega) ?_ hms
          intro j hj
          cases j with
          | zero => exact hat
          | succ j => exact hinside (j + 1) (by omega) (by omega)
      | some c =>
          rw [hcaps] at hat
          refine ⟨⟨i, i + (text a).length, c⟩ :: ms, ?_, by rw [List.map_cons, hcaps', List.filterMap_cons_some hcaps]⟩
          have hnew : lineWith f text caps a = f c := by
            rw [lineWith, hcaps]
            rfl
          rw [hnew]
          exact Rewrites.take hle hat (by have := hl c hcaps; show i < i + _; omega) hms

/-- The matches are those of the lines. -/
theorem scanned_lines (hanchored : Anchored r t) (hempty : ∀ a ∈ lines, text a = [] → caps a = none)
    (hlines : ∀ a ∈ lines, '\n' ∉ text a) (hmatch : ∀ a ∈ lines, LineMatches r (text a) (caps a))
    (hne : lines ≠ []) (hstart : LineStart t i) (hle : i ≤ t.length)
    (hdrop : t.drop i = join "\n" (lines.map text)) :
    ∃ ms, Scanned r t i ms ∧ ms.map Match.caps = lines.filterMap caps := by
  obtain ⟨ms, hrewrites, hms⟩ :=
    rewrites_lines (f := fun _ => []) hanchored hempty hlines hmatch hne hstart hle hdrop
  exact ⟨ms, hrewrites.scanned, hms⟩

/-- A text of lines with the matches replaced. -/
theorem sub_lines (hanchored : Anchored r t) (hempty : ∀ a ∈ lines, text a = [] → caps a = none)
    (hlines : ∀ a ∈ lines, '\n' ∉ text a) (hmatch : ∀ a ∈ lines, LineMatches r (text a) (caps a))
    (hne : lines ≠ []) (ht : t = join "\n" (lines.map text)) :
    sub r (fun m => f m.caps) t = join "\n" (lines.map (lineWith f text caps)) := by
  obtain ⟨ms, hrewrites, -⟩ := rewrites_lines (f := f) hanchored hempty hlines hmatch hne (Or.inl rfl)
    (Nat.zero_le _) (by rw [List.drop_zero, ht])
  exact hrewrites.sub_eq

/-- All matches of a text of lines. -/
theorem finditer_lines (hanchored : Anchored r t) (hempty : ∀ a ∈ lines, text a = [] → caps a = none)
    (hlines : ∀ a ∈ lines, '\n' ∉ text a) (hmatch : ∀ a ∈ lines, LineMatches r (text a) (caps a))
    (hne : lines ≠ []) (ht : t = join "\n" (lines.map text)) :
    (finditer r t).map Match.caps = lines.filterMap caps := by
  obtain ⟨ms, hscanned, hms⟩ := scanned_lines hanchored hempty hlines hmatch hne (Or.inl rfl) (Nat.zero_le _)
    (by rw [List.drop_zero, ht])
  rw [hscanned.finditer_eq, hms]

/-- The first match of a text of lines. -/
theorem search_lines (hanchored : Anchored r t) (hempty : ∀ a ∈ lines, text a = [] → caps a = none)
    (hlines : ∀ a ∈ lines, '\n' ∉ text a) (hmatch : ∀ a ∈ lines, LineMatches r (text a) (caps a))
    (hne : lines ≠ []) (ht : t = join "\n" (lines.map text)) :
    (search r t).map Match.caps = (lines.filterMap caps).head? := by
  obtain ⟨ms, hscanned, hms⟩ := scanned_lines hanchored hempty hlines hmatch hne (Or.inl rfl) (Nat.zero_le _)
    (by rw [List.drop_zero, ht])
  rw [hscanned.search_eq, ← List.head?_map, hms]

end

/-- The leftmost match is where no match starts before. -/
theorem search_eq_some {r : Re} {m : Match} (hi : i ≤ t.length) (hnone : ∀ j < i, matchAt r t j = none)
    (hm : matchAt r t i = some m) : search r t = some m := by
  rw [search, List.findSome?_eq_some_iff]
  refine ⟨List.range i, i, List.range' (i + 1) (t.length - i), ?_, hm, fun j hj => hnone j (List.mem_range.mp hj)⟩
  have happend : List.range' 0 i ++ List.range' (0 + i) (t.length - i + 1) = List.range' 0 (i + (t.length - i + 1)) :=
    List.range'_append_1
  rw [Nat.zero_add] at happend
  rw [List.range_eq_range', List.range_eq_range', ← List.range'_succ, happend]
  congr 1
  omega

/-- A search finds the first position that matches. -/
theorem exists_of_search {r : Re} {m : Match} (h : search r t = some m) :
    m.start ≤ t.length ∧ matchAt r t m.start = some m ∧ ∀ j < m.start, matchAt r t j = none := by
  have hsome : ∃ j, j ≤ t.length ∧ (matchAt r t j).isSome := by
    by_contra hnone
    have hsearch : search r t = none := by
      rw [search_eq_none_iff]
      intro j hj
      by_contra hrun
      exact hnone ⟨j, hj, matchAt_isSome_iff.mpr hrun⟩
    rw [h] at hsearch
    cases hsearch
  classical
  obtain ⟨hle, hisSome⟩ := Nat.find_spec hsome
  obtain ⟨m', hm'⟩ := Option.isSome_iff_exists.mp hisSome
  have hbefore : ∀ j < Nat.find hsome, matchAt r t j = none := by
    intro j hj
    by_contra hne
    exact Nat.find_min hsome hj ⟨by omega, Option.isSome_iff_ne_none.mpr hne⟩
  have heq := search_eq_some hle hbefore hm'
  rw [h] at heq
  obtain rfl := Option.some.inj heq
  rw [matchAt_start hm']
  exact ⟨hle, hm', hbefore⟩

/-- The start of a line in a text of lines that goes on. -/
theorem exists_line {ls : List Str} (hlines : ∀ l ∈ ls, '\n' ∉ l) (hne : ls ≠ []) {j : Nat} {u : Str}
    (hj : j ≤ (join "\n" ls).length) (hstart : LineStart (join "\n" ls ++ u) j) :
    ∃ l ∈ ls, ∃ rest, (join "\n" ls).drop j = l ++ rest ∧ (rest = [] ∨ rest.head? = some '\n') := by
  induction ls generalizing j with
  | nil => exact absurd rfl hne
  | cons l ls ih =>
      have hfirst := lineAt_of_join (t := join "\n" (l :: ls)) (i := 0) hlines rfl
      have hone := hlines l List.mem_cons_self
      by_cases hzero : j = 0
      · rw [hzero]
        exact ⟨l, List.mem_cons_self, _, hfirst.drop, hfirst.rest⟩
      by_cases hin : j ≤ l.length
      · have hdrop : (join "\n" (l :: ls) ++ u).drop 0 =
            l ++ ((if ls = [] then [] else '\n' :: join "\n" ls) ++ u) := by
          rw [← List.append_assoc, ← hfirst.drop]
          rfl
        have hnot := not_lineStart (k := j) hdrop hone (by omega) hin
        rw [Nat.zero_add] at hnot
        exact absurd hstart hnot
      cases ls with
      | nil => exact absurd hj hin
      | cons l' ls =>
          obtain ⟨k, rfl⟩ := Nat.exists_eq_add_of_lt (Nat.lt_of_not_le hin)
          rw [Nat.add_right_comm] at hj hstart ⊢
          have hjoin : join "\n" (l :: l' :: ls) = (l ++ ['\n']) ++ join "\n" (l' :: ls) := rfl
          have hlen : l.length + 1 = (l ++ ['\n']).length := by simp
          rw [hjoin, hlen] at hj hstart ⊢
          rw [@List.length_append _ (l ++ ['\n'])] at hj
          have hnext : LineStart (join "\n" (l' :: ls) ++ u) k := by
            cases k with
            | zero => exact Or.inl rfl
            | succ k =>
                right
                rcases hstart with h | h
                · omega
                · rw [prev?, if_neg (by omega), List.append_assoc,
                    show (l ++ ['\n']).length + (k + 1) - 1 = (l ++ ['\n']).length + k by omega,
                    List.getElem?_append_right (by omega), Nat.add_sub_cancel_left] at h
                  rw [prev?, if_neg (by omega), Nat.add_sub_cancel]
                  exact h
          obtain ⟨m, hm, rest, hdrop, hrest⟩ := ih (fun x hx => hlines x (List.mem_cons_of_mem l hx))
            (List.cons_ne_nil _ _) (by omega) hnext
          refine ⟨m, List.mem_cons_of_mem l hm, rest, ?_, hrest⟩
          rw [← List.drop_drop, List.drop_left]
          exact hdrop

end HummingbirdRpms.Lib.Regex
