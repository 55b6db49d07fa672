/-
# HummingbirdRpms.ReleaseFields — the `Release:` fields of a spec text, as `update_release_in_spec` finds
them.

`update_release_in_spec` of `ci/dist_git.py` looks for the release with one pattern and rewrites it with
another, one for releases that are macros and one for those that are not.  All of them match in the same
places: where a line begins with the tag and the next text that is not white space stands on a line with
a dist macro (`fieldAt`).  They differ in what they capture, the last dist macro of the line or the first.

**`exists_pieces`** cuts a text at these fields once and for all: what a substitution with one of the
patterns does is to rewrite the text of each field and to leave what stands between them alone.
-/
import HummingbirdRpms.Lib.RegexLines
import HummingbirdRpms.Releases

namespace HummingbirdRpms

open Lib Lib.Text Lib.Regex

/-! ## The dist macro -/

/-- The two spellings of the dist macro. -/
def distSpellings : List Str := ["%\x7b?dist\x7d", "%\x7bdist\x7d"]

/-- The dist macro that a text begins with. -/
def distPrefix (s : Str) : Option Str := distSpellings.find? fun d => d.isPrefixOf s

/-- A line at its first dist macro: what stands before it, its spelling and what stands after it. -/
def splitFirstDist : Str → Option (Str × Str × Str)
  | [] => none
  | c :: cs =>
      match distPrefix (c :: cs) with
      | some d => some ([], d, (c :: cs).drop d.length)
      | none => (splitFirstDist cs).map fun s => (c :: s.1, s.2)

/-- A line at its last dist macro. -/
def splitLastDist : Str → Option (Str × Str × Str)
  | [] => none
  | c :: cs =>
      match splitLastDist cs with
      | some s => some (c :: s.1, s.2)
      | none => (distPrefix (c :: cs)).map fun d => ([], d, (c :: cs).drop d.length)

/-- A line cut at a dist macro. -/
structure CutAtDist (line before dist after : Str) : Prop where
  eq : line = before ++ dist ++ after
  dist : distPrefix (dist ++ after) = some dist

theorem distPrefix_some {s d : Str} (h : distPrefix s = some d) : d ∈ distSpellings ∧ d <+: s := by
  refine ⟨List.mem_of_find?_eq_some h, ?_⟩
  have hprefix := List.find?_some h
  simpa using hprefix

theorem distPrefix_eq_none_iff {s : Str} :
    distPrefix s = none ↔ ¬ "%\x7b?dist\x7d".toList <+: s ∧ ¬ "%\x7bdist\x7d".toList <+: s := by
  rw [distPrefix, List.find?_eq_none]
  simp only [distSpellings, List.mem_cons, List.not_mem_nil, or_false, forall_eq_or_imp, forall_eq,
    List.isPrefixOf_iff_prefix]

theorem distPrefix_nil : distPrefix [] = none := rfl

theorem distPrefix_length {s d : Str} (h : distPrefix s = some d) : 0 < d.length := by
  have hmem := (distPrefix_some h).1
  simp only [distSpellings, List.mem_cons, List.not_mem_nil, or_false] at hmem
  rcases hmem with rfl | rfl
  all_goals decide

theorem not_mem_of_distSpellings {d : Str} (h : d ∈ distSpellings) : '\n' ∉ d := by
  simp only [distSpellings, List.mem_cons, List.not_mem_nil, or_false] at h
  rcases h with rfl | rfl
  all_goals decide

/-- A dist macro starts with a character that is not white space. -/
theorem distSpellings_head {d : Str} (h : d ∈ distSpellings) : d.head? = some '%' := by
  simp only [distSpellings, List.mem_cons, List.not_mem_nil, or_false] at h
  rcases h with rfl | rfl
  all_goals rfl

/-- What follows a line does not make a dist macro of it. -/
theorem distPrefix_append_line {s rest : Str} (hrest : rest = [] ∨ rest.head? = some '\n') :
    distPrefix (s ++ rest) = distPrefix s := by
  have hiff : ∀ d ∈ distSpellings, d.isPrefixOf (s ++ rest) = d.isPrefixOf s := by
    intro d hd
    rw [Bool.eq_iff_iff, List.isPrefixOf_iff_prefix, List.isPrefixOf_iff_prefix]
    constructor
    · intro h
      rcases List.prefix_or_prefix_of_prefix h (List.prefix_append s rest) with hd' | ⟨w, rfl⟩
      · exact hd'
      · -- the macro would go on past the end of the line
        have hw : w <+: rest := (List.prefix_append_right_inj s).mp h
        cases w with
        | nil => rw [List.append_nil]
        | cons c w =>
            rcases hrest with rfl | hnewline
            · exact absurd hw (by simp)
            · obtain ⟨u, rfl⟩ := hw
              obtain rfl : c = '\n' := by simpa using hnewline
              exact absurd (List.mem_append_right s List.mem_cons_self) (not_mem_of_distSpellings hd)
    · intro h
      exact h.trans (List.prefix_append _ _)
  rw [distPrefix, distPrefix, distSpellings, List.find?_cons, List.find?_cons, List.find?_cons,
    List.find?_cons, hiff _ (by simp [distSpellings]), hiff _ (by simp [distSpellings])]
  rfl

theorem splitFirstDist_some {line : Str} : ∀ {before dist after : Str},
    splitFirstDist line = some (before, dist, after) →
      CutAtDist line before dist after ∧ ∀ k < before.length, distPrefix (line.drop k) = none := by
  induction line with
  | nil =>
      intro before dist after h
      exact absurd h (by simp [splitFirstDist])
  | cons c cs ih =>
      intro before dist after h
      rw [splitFirstDist] at h
      split at h
      · rename_i d hd
        obtain ⟨rfl, heq⟩ := Prod.mk.inj (Option.some.inj h)
        obtain ⟨rfl, rfl⟩ := Prod.mk.inj heq
        obtain ⟨u, hu⟩ := (distPrefix_some hd).2
        have hafter : (c :: cs).drop d.length = u := by rw [← hu, List.drop_left]
        refine ⟨⟨?_, ?_⟩, by simp⟩
        · rw [hafter, List.nil_append, hu]
        · rw [hafter, hu, hd]
      · rename_i hnone
        obtain ⟨⟨b, d, a⟩, hs, heq⟩ := Option.map_eq_some_iff.mp h
        obtain ⟨rfl, hrest⟩ := Prod.mk.inj heq
        obtain ⟨rfl, rfl⟩ := Prod.mk.inj hrest
        obtain ⟨hcut, hfirst⟩ := ih hs
        refine ⟨⟨congrArg (c :: ·) hcut.eq, hcut.dist⟩, ?_⟩
        intro k hk
        cases k with
        | zero => exact hnone
        | succ k => exact hfirst k (by simpa using hk)

theorem splitLastDist_none {line : Str} (h : splitLastDist line = none) (k : Nat) :
    distPrefix (line.drop k) = none := by
  induction line generalizing k with
  | nil => rw [List.drop_nil, distPrefix_nil]
  | cons c cs ih =>
      rw [splitLastDist] at h
      split at h
      · exact absurd h (by simp)
      · rename_i hnone
        cases k with
        | zero => simpa using h
        | succ k => exact ih hnone k

theorem splitLastDist_some {line : Str} : ∀ {before dist after : Str},
    splitLastDist line = some (before, dist, after) →
      CutAtDist line before dist after ∧ ∀ k, before.length < k → distPrefix (line.drop k) = none := by
  induction line with
  | nil =>
      intro before dist after h
      exact absurd h (by simp [splitLastDist])
  | cons c cs ih =>
      intro before dist after h
      rw [splitLastDist] at h
      split at h
      · rename_i s hs
        obtain ⟨b, d, a⟩ := s
        obtain ⟨rfl, heq⟩ := Prod.mk.inj (Option.some.inj h)
        obtain ⟨rfl, rfl⟩ := Prod.mk.inj heq
        obtain ⟨hcut, hlast⟩ := ih hs
        refine ⟨⟨congrArg (c :: ·) hcut.eq, hcut.dist⟩, ?_⟩
        intro k hk
        cases k with
        | zero => exact absurd hk (Nat.not_lt_zero _)
        | succ k => exact hlast k (by simpa using hk)
      · rename_i hnone
        obtain ⟨d, hd, heq⟩ := Option.map_eq_some_iff.mp h
        obtain ⟨rfl, hrest⟩ := Prod.mk.inj heq
        obtain ⟨rfl, rfl⟩ := Prod.mk.inj hrest
        obtain ⟨u, hu⟩ := (distPrefix_some hd).2
        have hafter : (c :: cs).drop d.length = u := by rw [← hu, List.drop_left]
        refine ⟨⟨?_, ?_⟩, ?_⟩
        · rw [hafter, List.nil_append, hu]
        · rw [hafter, hu, hd]
        · intro k hk
          cases k with
          | zero => exact absurd hk (by simp)
          | succ k => exact splitLastDist_none hnone k

/-! ## Matching a dist macro -/

section

variable {t : Str} {s e : St} {w u d : Str}

theorem run_distRe_some (h : distPrefix (t.drop s.pos) = some d) :
    run t distRe s = [{ s with pos := s.pos + d.length }] := by
  obtain ⟨hmem, u, hu⟩ := distPrefix_some h
  simp only [distSpellings, List.mem_cons, List.not_mem_nil, or_false] at hmem
  have hopen : ∀ v, t.drop s.pos = "%\x7b".toList ++ v →
      run t (.lit "%\x7b") s = [{ s with pos := s.pos + 2 }] := fun v hv => run_lit_of_drop hv
  rcases hmem with rfl | rfl
  · have hmark : t.drop (s.pos + 2) = "?".toList ++ ("dist\x7d".toList ++ u) := by
      rw [← List.drop_drop, ← hu]
      rfl
    have hname : t.drop (s.pos + 3) = "dist\x7d".toList ++ u := by
      rw [← List.drop_drop, ← hu]
      rfl
    rw [distRe, Re.seq, run_cat, hopen _ hu.symm, List.flatMap_singleton, Re.seq, run_cat, Re.opt, run_alt,
      run_lit_of_drop (s := { s with pos := s.pos + 2 }) hmark, run_eps, List.singleton_append,
      List.flatMap_cons, List.flatMap_singleton, Re.seq]
    show run t (.lit "dist\x7d") ⟨s.pos + 3, s.caps⟩ ++ _ = _
    rw [run_lit_of_drop (s := ⟨s.pos + 3, s.caps⟩) hname, run_lit_nil]
    · rfl
    · rw [show t.drop _ = _ from hmark]
      rintro ⟨v, hv⟩
      exact absurd (List.cons.inj hv).1 (by decide)
  · have hname : t.drop (s.pos + 2) = "dist\x7d".toList ++ u := by
      rw [← List.drop_drop, ← hu]
      rfl
    rw [distRe, Re.seq, run_cat, hopen _ hu.symm, List.flatMap_singleton, Re.seq, run_cat, Re.opt, run_alt,
      run_lit_nil, run_eps, List.nil_append, List.flatMap_singleton, Re.seq]
    · exact run_lit_of_drop (s := { s with pos := s.pos + 2 }) hname
    · rw [show t.drop _ = _ from hname]
      rintro ⟨v, hv⟩
      exact absurd (List.cons.inj hv).1 (by decide)

theorem run_distRe_none (h : distPrefix (t.drop s.pos) = none) : run t distRe s = [] := by
  obtain ⟨hmark, hname⟩ := distPrefix_eq_none_iff.mp h
  rw [List.eq_nil_iff_forall_not_mem]
  intro e he
  obtain ⟨m, hm, he⟩ := mem_run_seq_cons.mp he
  obtain ⟨hopen, rfl⟩ := mem_run_lit.mp hm
  obtain ⟨m, hm, he⟩ := mem_run_seq_cons.mp he
  rcases mem_run_opt.mp hm with hm | rfl
  · obtain ⟨hquestion, rfl⟩ := mem_run_lit.mp hm
    obtain ⟨hdist, -⟩ := mem_run_lit.mp he
    refine hmark ?_
    have h₁ := prefix_drop_append hopen hquestion
    exact prefix_drop_append (w := "%\x7b?".toList) h₁ hdist
  · obtain ⟨hdist, -⟩ := mem_run_lit.mp he
    exact hname (prefix_drop_append hopen hdist)

/-! ## The rest of a line -/

variable {i k : Nat} {line rest : Str}

theorem Lib.Regex.LineAt.distPrefix (h : LineAt t i line rest) (hk : k ≤ line.length) :
    distPrefix (t.drop (i + k)) = distPrefix (line.drop k) := by
  rw [(h.tail hk).drop]
  exact distPrefix_append_line h.rest

end

/-! ## Fields -/

/-- `Release:` -/
def releaseTag : Str := "Release:"

/-- A `Release:` tag at the start of a line, the white space after it, and the line which that white
space ends in: mostly the tag's own, but white space may span lines. -/
structure FieldAt (t : Str) (i : Nat) (space line rest : Str) : Prop where
  start : i = 0 ∨ prev? t i = some '\n'
  drop : t.drop i = releaseTag ++ (space ++ (line ++ rest))
  space_ne : space ≠ []
  space_all : ∀ c ∈ space, isSpace c = true
  stop : inClass isSpace (line ++ rest).head? = false
  one : '\n' ∉ line
  rest : rest = [] ∨ rest.head? = some '\n'

section

variable {t : Str} {i : Nat} {space line rest : Str}

theorem releaseTag_length : releaseTag.length = 8 := rfl

theorem FieldAt.drop_space (h : FieldAt t i space line rest) : t.drop (i + 8) = space ++ (line ++ rest) := by
  rw [← List.drop_drop, h.drop]
  rfl

theorem FieldAt.lineAt (h : FieldAt t i space line rest) : LineAt t (i + 8 + space.length) line rest where
  drop := by rw [← List.drop_drop, h.drop_space, List.drop_left]
  one := h.one
  rest := h.rest

theorem FieldAt.spanLen (h : FieldAt t i space line rest) : spanLen t isSpace (i + 8) = space.length :=
  spanLen_of_drop h.drop_space h.space_all h.stop

/-- A tag at the start of a line with white space after it begins a field. -/
theorem exists_fieldAt (hstart : i = 0 ∨ prev? t i = some '\n') (htag : releaseTag <+: t.drop i)
    (hspace : 0 < Regex.spanLen t isSpace (i + 8)) : ∃ space line rest, FieldAt t i space line rest := by
  obtain ⟨u, hu⟩ := htag
  have hdrop : t.drop (i + 8) = u := by
    rw [← List.drop_drop, ← hu]
    rfl
  rw [Regex.spanLen, hdrop] at hspace
  refine ⟨u.takeWhile isSpace, (u.dropWhile isSpace).takeWhile (· != '\n'),
    (u.dropWhile isSpace).dropWhile (· != '\n'), hstart, ?_, List.length_pos_iff.mp hspace, ?_, ?_, ?_, ?_⟩
  · rw [List.takeWhile_append_dropWhile, List.takeWhile_append_dropWhile, hu]
  · intro c hc
    exact List.mem_takeWhile_imp hc
  · rw [List.takeWhile_append_dropWhile]
    cases hhead : (u.dropWhile isSpace).head? with
    | none => rfl
    | some c =>
        have hnot := List.head?_dropWhile_not isSpace u
        rw [hhead] at hnot
        simpa [inClass] using hnot
  · intro hmem
    have hne := List.mem_takeWhile_imp hmem
    simp at hne
  · cases hrest : (u.dropWhile isSpace).dropWhile (· != '\n') with
    | nil => exact Or.inl rfl
    | cons c v =>
        have hnot := List.head?_dropWhile_not (· != '\n') (u.dropWhile isSpace)
        rw [hrest] at hnot
        exact Or.inr (by simpa using hnot)

/-! ## Patterns that read fields -/

/-- A pattern finds the fields whose line has a dist macro, and captures `caps` of each. -/
structure ReadsFields (r : Re) (caps : Str → Str → List (Nat × Str)) : Prop where
  some {t : Str} {i : Nat} {space line rest : Str} {cut : Str × Str × Str} :
    FieldAt t i space line rest → splitLastDist line = some cut →
      matchAt r t i = .some ⟨i, i + 8 + space.length + line.length, caps space line⟩
  none {t : Str} {i : Nat} : (∀ space line rest, FieldAt t i space line rest → splitLastDist line = .none) →
    matchAt r t i = .none

/-- `^Release:`, white space, and what follows them. -/
def fieldRe (space rest : Re) : Re := .cat .bol (.cat (.lit releaseTag) (.cat space rest))

theorem FieldAt.run_fieldRe (h : FieldAt t i space line rest) {sp r : Re} :
    run t (fieldRe sp r) ⟨i, []⟩ = run t (.cat sp r) ⟨i + 8, []⟩ := by
  have hbol : run t .bol ⟨i, []⟩ = [⟨i, []⟩] := by rw [run_bol, if_pos h.start]
  have htag : run t (.lit releaseTag) ⟨i, []⟩ = [⟨i + 8, []⟩] := run_lit_of_drop h.drop
  rw [fieldRe, run_cat, hbol, List.flatMap_singleton, run_cat, htag, List.flatMap_singleton]

/-- After all of the white space the rest of the pattern goes on. -/
theorem FieldAt.head?_fieldRe (h : FieldAt t i space line rest) {sp r : Re} {f : Nat → St} {e : St}
    (hsp : Greedy t sp ⟨i + 8, []⟩ 1 (Regex.spanLen t isSpace (i + 8)) f)
    (hr : (run t r (f space.length)).head? = some e) : (run t (fieldRe sp r) ⟨i, []⟩).head? = some e := by
  rw [h.run_fieldRe]
  rw [h.spanLen] at hsp
  exact hsp.head?_cat (List.length_pos_iff.mpr h.space_ne) le_rfl hr fun j hj hle => absurd hle (by omega)

/-- No dist macro begins in the white space or on the line of a field without one. -/
theorem FieldAt.distPrefix_none (h : FieldAt t i space line rest) (hline : splitLastDist line = none)
    {k : Nat} (hk : k ≤ space.length + line.length) : distPrefix (t.drop (i + 8 + k)) = none := by
  by_cases hin : k < space.length
  · cases hd : distPrefix (t.drop (i + 8 + k)) with
    | none => rfl
    | some d =>
        obtain ⟨hmem, hprefix⟩ := distPrefix_some hd
        have hhead : (t.drop (i + 8 + k)).head? = some '%' := by
          obtain ⟨u, hu⟩ := hprefix
          rw [← hu, List.head?_append, distSpellings_head hmem]
          rfl
        rw [List.head?_drop, getElem?_of_drop h.drop_space hin, List.getElem?_eq_getElem hin] at hhead
        have hspace := h.space_all _ (List.getElem_mem hin)
        rw [Option.some.inj hhead] at hspace
        exact absurd hspace (by decide)
  · have hline' := h.lineAt.distPrefix (k := k - space.length) (by omega)
    rw [show i + 8 + space.length + (k - space.length) = i + 8 + k by omega] at hline'
    rw [hline']
    exact splitLastDist_none hline _

/-- The pattern matches nowhere but at a field with a dist macro. -/
theorem matchAt_fieldRe_none {sp mid tail : Re}
    (hsp : ∀ s e, e ∈ run t sp s → ∃ k, 1 ≤ k ∧ k ≤ Regex.spanLen t isSpace s.pos ∧ e.pos = s.pos + k)
    (hmid : ∀ s e, e ∈ run t mid s → ∃ k ≤ Regex.spanLen t (· != '\n') s.pos, e.pos = s.pos + k)
    (htail : ∀ s, distPrefix (t.drop s.pos) = none → run t tail s = [])
    (hno : ∀ space line rest, FieldAt t i space line rest → splitLastDist line = none) :
    matchAt (fieldRe sp (.cat mid tail)) t i = none := by
  have hnil : run t (fieldRe sp (.cat mid tail)) ⟨i, []⟩ = [] := by
    rw [List.eq_nil_iff_forall_not_mem]
    intro e he
    obtain ⟨m, hm, he⟩ := mem_run_cat.mp he
    obtain ⟨hstart, rfl⟩ := mem_run_bol.mp hm
    obtain ⟨m, hm, he⟩ := mem_run_cat.mp he
    obtain ⟨htag, rfl⟩ := mem_run_lit.mp hm
    obtain ⟨m, hm, he⟩ := mem_run_cat.mp he
    obtain ⟨k, hk1, hk, hkpos⟩ := hsp _ _ hm
    obtain ⟨m', hm', he⟩ := mem_run_cat.mp he
    obtain ⟨j, hj, hjpos⟩ := hmid _ _ hm'
    have hk : k ≤ Regex.spanLen t isSpace (i + 8) := hk
    have hkpos : m.pos = i + 8 + k := hkpos
    obtain ⟨space, line, rest, hfield⟩ := exists_fieldAt hstart htag (lt_of_lt_of_le hk1 hk)
    -- the repetition does not get past the end of the line
    have hle : j ≤ space.length - k + line.length := by
      refine hj.trans (spanLen_le ?_)
      rw [hfield.spanLen] at hk
      rw [hkpos, show i + 8 + k + (space.length - k + line.length) = i + 8 + space.length + line.length by omega]
      have hend := (hfield.lineAt.tail le_rfl).drop
      rw [List.drop_length, List.nil_append] at hend
      rw [← List.head?_drop, hend]
      rcases hfield.rest with hrest | hrest
      · rw [hrest]
        rfl
      · rw [hrest]
        rfl
    rw [hfield.spanLen] at hk
    have hnone := hfield.distPrefix_none (hno _ _ _ hfield) (k := k + j) (by omega)
    rw [htail m' (by rw [hjpos, hkpos, show i + 8 + k + j = i + 8 + (k + j) by omega, hnone])] at he
    exact absurd he List.not_mem_nil
  rw [matchAt, hnil]
  rfl

/-! ## The three patterns -/

/-- What stands before the last dist macro of a line. -/
def beforeLast (line : Str) : Str := ((splitLastDist line).map fun s => s.1).getD []

/-- What stands after it. -/
def afterLast (line : Str) : Str := ((splitLastDist line).map fun s => s.2.2).getD []

/-- The first dist macro of a line. -/
def firstDist (line : Str) : Str := ((splitFirstDist line).map fun s => s.2.1).getD []

/-- What stands after it. -/
def afterFirst (line : Str) : Str := ((splitFirstDist line).map fun s => s.2.2).getD []

/-- A line with a last dist macro has a first one. -/
theorem exists_splitFirstDist {cut : Str × Str × Str} (h : splitLastDist line = some cut) :
    ∃ cut', splitFirstDist line = some cut' := by
  induction line generalizing cut with
  | nil => exact absurd h (by simp [splitLastDist])
  | cons c cs ih =>
      rw [splitFirstDist]
      split
      · exact ⟨_, rfl⟩
      · rename_i hnone
        rw [splitLastDist] at h
        split at h
        · rename_i s hs
          obtain ⟨cut', hcut'⟩ := ih hs
          exact ⟨_, by rw [hcut']; rfl⟩
        · rw [hnone] at h
          exact absurd h (by simp)

theorem mem_some1_space {t : Str} (s e : St) (h : e ∈ run t (Re.some1 isSpace) s) :
    ∃ k, 1 ≤ k ∧ k ≤ Regex.spanLen t isSpace s.pos ∧ e.pos = s.pos + k := by
  obtain ⟨k, hk1, hk, rfl⟩ := mem_run_some1.mp h
  exact ⟨k, hk1, hk, rfl⟩

theorem mem_group_space {t : Str} {g : Nat} (s e : St) (h : e ∈ run t (.group g (Re.some1 isSpace)) s) :
    ∃ k, 1 ≤ k ∧ k ≤ Regex.spanLen t isSpace s.pos ∧ e.pos = s.pos + k := by
  obtain ⟨m, hm, rfl⟩ := mem_run_group.mp h
  exact mem_some1_space s m hm

theorem mem_many_line {t : Str} {greedy : Bool} (s e : St)
    (h : e ∈ run t (.many greedy (· != '\n')) s) :
    ∃ k ≤ Regex.spanLen t (· != '\n') s.pos, e.pos = s.pos + k := by
  obtain ⟨k, hk, rfl⟩ := mem_run_many.mp h
  exact ⟨k, hk, rfl⟩

theorem mem_group_line {t : Str} {g : Nat} {greedy : Bool} (s e : St)
    (h : e ∈ run t (.group g (.many greedy (· != '\n'))) s) :
    ∃ k ≤ Regex.spanLen t (· != '\n') s.pos, e.pos = s.pos + k := by
  obtain ⟨m, hm, rfl⟩ := mem_run_group.mp h
  exact mem_many_line s m hm

theorem run_distRe_cat_nil {t : Str} {r : Re} (s : St) (h : distPrefix (t.drop s.pos) = none) :
    run t (.cat distRe r) s = [] := by
  rw [run_cat, run_distRe_none h]
  rfl

theorem run_groupDist_some {t d : Str} {q g : Nat} {caps : List (Nat × Str)}
    (h : distPrefix (t.drop q) = some d) :
    run t (.group g distRe) ⟨q, caps⟩ = [⟨q + d.length, (g, d) :: caps⟩] := by
  obtain ⟨-, u, hu⟩ := distPrefix_some h
  have htake : (t.drop q).take d.length = d := by rw [← hu, List.take_left]
  rw [run_group, run_distRe_some (s := ⟨q, caps⟩) h, List.map_singleton]
  simp only [Nat.add_sub_cancel_left, htake]

theorem run_groupDist_cat_nil {t : Str} {r : Re} {g : Nat} (s : St)
    (h : distPrefix (t.drop s.pos) = none) : run t (.cat (.group g distRe) r) s = [] := by
  rw [run_cat, run_group, run_distRe_none h]
  rfl

section

variable {before dist after : Str} {caps : List (Nat × Str)}

/-- A line that is cut at a dist macro, from that macro on. -/
theorem CutAtDist.lineAt (h : CutAtDist line before dist after) {q : Nat} (hline : LineAt t q line rest) :
    distPrefix (t.drop (q + before.length)) = some dist ∧
      LineAt t (q + before.length + dist.length) after rest ∧
      q + before.length + dist.length + after.length = q + line.length := by
  have hlen : before.length + dist.length + after.length = line.length := by
    rw [h.eq, List.length_append, List.length_append]
  have hbefore : line.drop before.length = dist ++ after := by
    rw [h.eq, List.append_assoc, List.drop_left]
  have hafter : line.drop (before.length + dist.length) = after := by
    rw [← List.drop_drop, hbefore, List.drop_left]
  refine ⟨?_, ?_, by omega⟩
  · rw [hline.distPrefix (by omega), hbefore, h.dist]
  · have htail := hline.tail (k := before.length + dist.length) (by omega)
    rwa [hafter, ← Nat.add_assoc] at htail

/-- From the last dist macro of a line on, after a repetition that has taken all before it. -/
theorem head?_lastDist {q : Nat} (hline : LineAt t q line rest)
    (hlast : splitLastDist line = some (before, dist, after)) {mid r : Re} {f : Nat → St} {e : St}
    (hmid : Greedy t mid ⟨q, caps⟩ 0 (Regex.spanLen t (· != '\n') q) f) (hf : ∀ k, (f k).pos = q + k)
    (hr : (run t r ⟨q + before.length + dist.length, (f before.length).caps⟩).head? = some e) :
    (run t (.cat mid (.cat distRe r)) ⟨q, caps⟩).head? = some e := by
  obtain ⟨hcut, hlater⟩ := splitLastDist_some hlast
  obtain ⟨hdist, -, hlen⟩ := hcut.lineAt hline
  rw [hline.spanLen] at hmid
  have hpos := distPrefix_length hdist
  refine hmid.head?_cat (k := before.length) (Nat.zero_le _) (by omega) ?_ ?_
  · have hrun : run t distRe (f before.length) =
        [⟨q + before.length + dist.length, (f before.length).caps⟩] := by
      rw [run_distRe_some (by rw [hf, hdist]), hf]
    rw [run_cat, hrun, List.flatMap_singleton, hr]
  · intro j hj hle
    apply run_distRe_cat_nil
    rw [hf, hline.distPrefix hle]
    exact hlater j hj

end

/-- **`releaseDistRe_readsFields`** — the search pattern captures what stands before and after the last
dist macro. -/
theorem releaseDistRe_readsFields :
    ReadsFields releaseDistRe fun _ line => [(2, afterLast line), (1, beforeLast line)] where
  some {t i space line rest cut} hfield hlast := by
    obtain ⟨before, dist, after⟩ := cut
    have hline := hfield.lineAt
    obtain ⟨hcut, -⟩ := splitLastDist_some hlast
    obtain ⟨-, hafter, hlen⟩ := hcut.lineAt hline
    have hbefore : (t.drop (i + 8 + space.length)).take before.length = before := by
      rw [hline.drop, hcut.eq, List.append_assoc, List.append_assoc, List.take_left]
    rw [beforeLast, afterLast, hlast]
    have hhead : (run t releaseDistRe ⟨i, []⟩).head? =
        some ⟨i + 8 + space.length + line.length, [(2, after), (1, before)]⟩ := by
      refine hfield.head?_fieldRe greedy_some1 ?_
      refine head?_lastDist hline hlast (greedy_many.group fun k => rfl) (fun k => rfl) ?_
      show (run t _ ⟨_, [(1, (t.drop (i + 8 + space.length)).take before.length)]⟩).head? = _
      rw [hbefore, ← hlen]
      exact hafter.head?_groupToEnd 2 _
    exact matchAt_of_head? hhead
  none hno := matchAt_fieldRe_none mem_some1_space mem_group_line run_distRe_cat_nil hno

/-- **`macroReleaseRe_readsFields`** — the pattern for releases that are macros captures the white
space. -/
theorem macroReleaseRe_readsFields : ReadsFields macroReleaseRe fun space _ => [(1, space)] where
  some {t i space line rest cut} hfield hlast := by
    obtain ⟨before, dist, after⟩ := cut
    have hline := hfield.lineAt
    obtain ⟨hcut, -⟩ := splitLastDist_some hlast
    obtain ⟨-, hafter, hlen⟩ := hcut.lineAt hline
    have hspace : (t.drop (i + 8)).take space.length = space := by
      rw [hfield.drop_space, List.take_left]
    have hhead : (run t macroReleaseRe ⟨i, []⟩).head? =
        some ⟨i + 8 + space.length + line.length, [(1, space)]⟩ := by
      refine hfield.head?_fieldRe (greedy_some1.group fun k => rfl) ?_
      refine head?_lastDist hline hlast greedy_many (fun k => rfl) ?_
      show (run t _ ⟨_, [(1, (t.drop (i + 8)).take space.length)]⟩).head? = _
      rw [hspace, ← hlen]
      exact hafter.head?_toEnd _
    exact matchAt_of_head? hhead
  none hno := matchAt_fieldRe_none mem_group_space mem_many_line run_distRe_cat_nil hno

/-- **`plainReleaseRe_readsFields`** — the pattern for other releases captures the white space, the first
dist macro and what stands after it. -/
theorem plainReleaseRe_readsFields :
    ReadsFields plainReleaseRe fun space line => [(3, afterFirst line), (2, firstDist line), (1, space)] where
  some {t i space line rest cut} hfield hlast := by
    obtain ⟨⟨before, dist, after⟩, hfirst⟩ := exists_splitFirstDist hlast
    have hline := hfield.lineAt
    obtain ⟨hcut, hearlier⟩ := splitFirstDist_some hfirst
    obtain ⟨hdist, hafter, hlen⟩ := hcut.lineAt hline
    have hspace : (t.drop (i + 8)).take space.length = space := by
      rw [hfield.drop_space, List.take_left]
    rw [firstDist, afterFirst, hfirst]
    have hhead : (run t plainReleaseRe ⟨i, []⟩).head? =
        some ⟨i + 8 + space.length + line.length, [(3, after), (2, dist), (1, space)]⟩ := by
      refine hfield.head?_fieldRe (greedy_some1.group fun k => rfl) ?_
      show (run t (.cat (.many false (· != '\n')) (.cat (.group 2 distRe) _))
        ⟨i + 8 + space.length, [(1, (t.drop (i + 8)).take space.length)]⟩).head? = _
      rw [hspace]
      refine head?_cat_lazy_first (k := before.length) ?_ ?_ ?_
      · rw [hline.spanLen]
        omega
      · rw [run_cat, run_groupDist_some hdist, List.flatMap_singleton, ← hlen]
        exact hafter.head?_groupToEnd 3 _
      · intro j hj
        apply run_groupDist_cat_nil
        show distPrefix (t.drop (i + 8 + space.length + j)) = none
        rw [hline.distPrefix (by omega)]
        exact hearlier j hj
    exact matchAt_of_head? hhead
  none hno := matchAt_fieldRe_none mem_group_space mem_many_line run_groupDist_cat_nil hno

end

/-! ## A text cut at its fields -/

/-- What a field holds: the white space after the tag, and the line that it ends in. -/
structure ReleaseField where
  space : Str
  line : Str

/-- The text of a field. -/
def ReleaseField.text (fl : ReleaseField) : Str := releaseTag ++ (fl.space ++ fl.line)

/-- A text put together of a chunk and of fields, each with the chunk that follows it. -/
def glue (text : ReleaseField → Str) : Str → List (ReleaseField × Str) → Str
  | chunk, [] => chunk
  | chunk, (fl, next) :: fields => chunk ++ (text fl ++ glue text next fields)

/-- Whether a field with a dist macro begins at a position. -/
def HasField (t : Str) (i : Nat) : Prop :=
  ∃ space line rest cut, FieldAt t i space line rest ∧ splitLastDist line = some cut

/-- A field with a dist macro that is followed by the end of the text or of the line. -/
structure ReleaseField.Proper (fl : ReleaseField) (next : Str) (fields : List (ReleaseField × Str)) : Prop where
  space_ne : fl.space ≠ []
  space_all : ∀ c ∈ fl.space, isSpace c = true
  stop : inClass isSpace fl.line.head? = false
  one : '\n' ∉ fl.line
  dist : ∃ cut, splitLastDist fl.line = some cut
  next : next = [] ∧ fields = [] ∨ next.head? = some '\n'

/-- The fields of a list are proper. -/
def AllProper : List (ReleaseField × Str) → Prop
  | [] => True
  | (fl, next) :: fields => fl.Proper next fields ∧ AllProper fields

/-- The text from a position on, cut at the fields that the patterns find. -/
structure Pieces (t : Str) (i : Nat) (chunk : Str) (fields : List (ReleaseField × Str)) : Prop where
  drop : t.drop i = glue ReleaseField.text chunk fields
  proper : AllProper fields
  before : ∀ k < chunk.length, ¬ HasField t (i + k)
  first : fields ≠ [] → HasField t (i + chunk.length)
  rewrites {r : Re} {caps : Str → Str → List (Nat × Str)} {f : Match → Str} {text : ReleaseField → Str} :
    ReadsFields r caps →
    (∀ start stop space line, f ⟨start, stop, caps space line⟩ = text ⟨space, line⟩) →
      ∃ ms, Rewrites r f t i ms (glue text chunk fields) ∧
        ms.map (·.caps) = fields.map fun p => caps p.1.space p.1.line

section

variable {t : Str} {i : Nat} {r : Re} {caps : Str → Str → List (Nat × Str)}

theorem ReadsFields.matchAt_none (hr : ReadsFields r caps) (h : ¬ HasField t i) :
    matchAt r t i = .none := by
  apply hr.none
  intro space line rest hfield
  cases hcut : splitLastDist line with
  | none => rfl
  | some cut => exact absurd ⟨space, line, rest, cut, hfield, hcut⟩ h

theorem HasField.lt (h : HasField t i) : i < t.length := by
  obtain ⟨space, line, rest, cut, hfield, -⟩ := h
  by_contra hge
  have hlen := congrArg List.length hfield.drop
  simp only [List.length_append, List.length_drop, releaseTag_length] at hlen
  omega

/-- Where no field is left, the rest of the text is one chunk. -/
theorem pieces_of_none (hi : i ≤ t.length) (h : ∀ k, i ≤ k → ¬ HasField t k) : Pieces t i (t.drop i) [] where
  drop := rfl
  proper := trivial
  before := fun k _ => h (i + k) (by omega)
  first := fun hne => absurd rfl hne
  rewrites {r caps f text} hr hf := by
    have hlen : i + (t.drop i).length = t.length := by rw [List.length_drop]; omega
    have hstop : Rewrites r f t (i + (t.drop i).length) [] [] := by
      rw [hlen]
      exact Rewrites.stop (hr.matchAt_none (h _ hi))
    have hskip := Rewrites.skip (x := t.drop i) (u := []) (List.append_nil _).symm hlen.le
      (fun j _ => hr.matchAt_none (h _ (by omega))) hstop
    rw [List.append_nil] at hskip
    exact ⟨[], hskip, rfl⟩

/-- What follows a field begins with a line break, unless it is all. -/
theorem Pieces.next_of_rest {chunk : Str} {fields : List (ReleaseField × Str)} (h : Pieces t i chunk fields)
    (hrest : t.drop i = [] ∨ (t.drop i).head? = some '\n') :
    chunk = [] ∧ fields = [] ∨ chunk.head? = some '\n' := by
  rw [h.drop] at hrest
  cases chunk with
  | cons c chunk =>
      right
      cases fields with
      | nil => simpa [glue] using hrest
      | cons p fields => simpa [glue] using hrest
  | nil =>
      left
      cases fields with
      | nil => exact ⟨rfl, rfl⟩
      | cons p fields =>
          obtain ⟨fl, next⟩ := p
          have hhead : (glue ReleaseField.text [] ((fl, next) :: fields)).head? = some 'R' := rfl
          rcases hrest with hrest | hrest
          · rw [hrest] at hhead
            exact absurd hhead (by simp)
          · rw [hrest] at hhead
            exact absurd hhead (by decide)

/-- A field and what stands before it, added to the pieces of what follows it. -/
theorem Pieces.cons {j : Nat} {space line rest chunk : Str} {fields : List (ReleaseField × Str)}
    {cut : Str × Str × Str} (hij : i ≤ j) (hbefore : ∀ k, i ≤ k → k < j → ¬ HasField t k)
    (hfield : FieldAt t j space line rest) (hcut : splitLastDist line = some cut)
    (h : Pieces t (j + 8 + space.length + line.length) chunk fields) :
    Pieces t i ((t.drop i).take (j - i)) ((⟨space, line⟩, chunk) :: fields) := by
  have hhas : HasField t j := ⟨space, line, rest, cut, hfield, hcut⟩
  have hlt := hhas.lt
  have hlen : ((t.drop i).take (j - i)).length = j - i := by
    rw [List.length_take, List.length_drop]
    omega
  have hend := (hfield.lineAt.tail le_rfl).drop
  rw [List.drop_length, List.nil_append] at hend
  have hdropj : t.drop j = ReleaseField.text ⟨space, line⟩ ++ t.drop (j + 8 + space.length + line.length) := by
    rw [hend, hfield.drop, ReleaseField.text, List.append_assoc, List.append_assoc]
  have hsplit : t.drop i = (t.drop i).take (j - i) ++ t.drop j := by
    have h := List.take_append_drop (j - i) (t.drop i)
    rwa [List.drop_drop, Nat.add_sub_cancel' hij, eq_comm] at h
  have hline : inClass isSpace line.head? = false := by
    cases line with
    | nil => rfl
    | cons c line => exact hfield.stop
  refine ⟨?_, ⟨⟨hfield.space_ne, hfield.space_all, hline, hfield.one, ⟨cut, hcut⟩, ?_⟩, h.proper⟩, ?_, ?_, ?_⟩
  · rw [glue, ← h.drop, ← hdropj, ← hsplit]
  · apply h.next_of_rest
    rw [hend]
    exact hfield.rest
  · intro k hk
    rw [hlen] at hk
    exact hbefore _ (by omega) (by omega)
  · intro _
    rw [hlen, Nat.add_sub_cancel' hij]
    exact hhas
  · intro r caps f text hr hf
    obtain ⟨ms, hms, hcaps⟩ := h.rewrites hr hf
    have htake := Rewrites.take (i := j) (by omega) (hr.some hfield hcut) (by
      have hspace := List.length_pos_iff.mpr hfield.space_ne
      show j < j + 8 + space.length + line.length
      omega) hms
    rw [hf] at htake
    have hskip := Rewrites.skip (i := i) (x := (t.drop i).take (j - i)) hsplit (by omega)
      (fun k hk => hr.matchAt_none (hbefore _ (by omega) (by rw [hlen] at hk; omega)))
      (by rw [hlen, Nat.add_sub_cancel' hij]; exact htake)
    exact ⟨_, hskip, by rw [List.map_cons, List.map_cons, hcaps]⟩

/-- **`exists_pieces`** — every text can be cut at its fields. -/
theorem exists_pieces_from (t : Str) : ∀ (n i : Nat), i ≤ t.length → t.length - i < n →
    ∃ chunk fields, Pieces t i chunk fields
  | 0, _, _, hn => absurd hn (Nat.not_lt_zero _)
  | n + 1, i, hi, hn => by
      classical
      by_cases hsome : ∃ j, i ≤ j ∧ HasField t j
      · -- the first field from here on, and then what follows it
        obtain ⟨hij, space, line, rest, cut, hfield, hcut⟩ := Nat.find_spec hsome
        have hbefore : ∀ k, i ≤ k → k < Nat.find hsome → ¬ HasField t k := by
          intro k hik hk hfield
          exact Nat.find_min hsome hk ⟨hik, hfield⟩
        have hstop : Nat.find hsome + 8 + space.length + line.length ≤ t.length := by
          have hlen := congrArg List.length hfield.drop
          simp only [List.length_append, List.length_drop, releaseTag_length] at hlen
          omega
        obtain ⟨chunk, fields, h⟩ := exists_pieces_from t n
          (Nat.find hsome + 8 + space.length + line.length) hstop (by omega)
        exact ⟨_, _, h.cons hij hbefore hfield hcut⟩
      · exact ⟨_, _, pieces_of_none hi fun k hk hfield => hsome ⟨k, hk, hfield⟩⟩

theorem exists_pieces (t : Str) : ∃ chunk fields, Pieces t 0 chunk fields :=
  exists_pieces_from t (t.length + 1) 0 (Nat.zero_le _) (by omega)

variable {chunk : Str} {fields : List (ReleaseField × Str)}

/-- A substitution rewrites each field. -/
theorem Pieces.sub_eq (h : Pieces t 0 chunk fields) (hr : ReadsFields r caps) {f : Match → Str}
    {text : ReleaseField → Str}
    (hf : ∀ start stop space line, f ⟨start, stop, caps space line⟩ = text ⟨space, line⟩) :
    sub r f t = glue text chunk fields := by
  obtain ⟨ms, hms, -⟩ := h.rewrites hr hf
  exact hms.sub_eq

/-- A search finds the first field. -/
theorem Pieces.search_eq (h : Pieces t 0 chunk fields) (hr : ReadsFields r caps) :
    (search r t).map (·.caps) = fields.head?.map fun p => caps p.1.space p.1.line := by
  have hnothing : ∃ ms, Rewrites r (fun _ => []) t 0 ms (glue (fun _ => []) chunk fields) ∧
      ms.map (·.caps) = fields.map fun p => caps p.1.space p.1.line := h.rewrites hr fun _ _ _ _ => rfl
  obtain ⟨ms, hms, hcaps⟩ := hnothing
  rw [hms.scanned.search_eq, ← List.head?_map, hcaps, List.head?_map]

end

end HummingbirdRpms
