/-
# HummingbirdRpms.ReleaseDefs — the definitions of the macros that hold a release, as they are found and rewritten.

The second pattern of `normalize_release_in_specs` of `ci/dist_git.py` finds `%global` and `%define` lines of the
macros that hold a release: the head at the start of a line, white space, and the first word of the value
(`DefAt`).  White space in the pattern goes past the end of a line.

A text is rewritten definition by definition (**`rewritten_rewriteDefs`**): what stands before the first one is
kept, its word is replaced, and what follows it is a text of its own (`Rewritten`).  What has been rewritten is
rewritten to itself (**`rewriteDefs_idem`**).
-/
import HummingbirdRpms.Lib.RegexLines
import HummingbirdRpms.Lib.RegexSplit
import HummingbirdRpms.Merge

namespace HummingbirdRpms.ReleaseErasure

open Lib Lib.Text Lib.Regex

/-- The text ends here or goes on with white space. -/
def Ends (s : Str) : Prop := inClass (fun c => !isSpace c) s.head? = false

/-- The names of the macros that hold a release. -/
def releaseNames : List Str := releaseMacros.map String.toList

/-- `%global` or `%define`, and one of these names. -/
def IsHead (h : Str) : Prop :=
  ∃ keyword ∈ ["global".toList, "define".toList], ∃ gap, ∃ name ∈ releaseNames, WordOver isSpace gap ∧
    h = '%' :: (keyword ++ (gap ++ name))

/-- A definition of a macro that holds a release, as the pattern finds it: the head at the start of a line,
white space, and the first word of the value. -/
structure DefAt (t : Str) (i : Nat) (h gap word rest : Str) : Prop where
  start : LineStart t i
  drop : t.drop i = h ++ (gap ++ (word ++ rest))
  head : IsHead h
  gap_space : WordOver isSpace gap
  word_solid : WordOver (fun c => !isSpace c) word
  ends : Ends rest

/-! ## Heads -/

section

variable {x h h' g w v s t t' rest : Str} {c c' : List (Nat × Str)} {i : Nat}

/-- The pattern of a head. -/
def headRe : Re :=
  Re.seq [.lit "%", .alt (.lit "global") (.lit "define"), Re.some1 isSpace,
    Re.oneOf (releaseNames.map Re.lit)]

theorem releaseMacroRe_eq : releaseMacroRe =
    .cat .bol (.cat (.group 1 headRe) (.cat (Re.some1 isSpace) (Re.some1 fun c => !isSpace c))) := rfl

theorem way_headRe : Way x headRe h v c c' ↔ IsHead h ∧ c' = c := by
  constructor
  · rintro ⟨_, w₁, _, rfl, ⟨rfl, rfl⟩, keyword, w₂, c₂, rfl, hkeyword, gap, name, c₃, rfl, hgap, hname⟩
    obtain ⟨hspace, rfl⟩ := way_some1.mp hgap
    obtain ⟨r, hr, hname⟩ := way_oneOf.mp hname
    obtain ⟨m, hm, rfl⟩ := List.mem_map.mp hr
    obtain ⟨rfl, rfl⟩ := hname
    rcases hkeyword with ⟨rfl, rfl⟩ | ⟨rfl, rfl⟩
    · exact ⟨⟨_, by simp, gap, name, hm, hspace, rfl⟩, rfl⟩
    · exact ⟨⟨_, by simp, gap, name, hm, hspace, rfl⟩, rfl⟩
  · rintro ⟨⟨keyword, hkeyword, gap, name, hname, hgap, rfl⟩, rfl⟩
    refine ⟨"%".toList, _, _, rfl, ⟨rfl, rfl⟩, keyword, _, _, rfl, ?_, gap, name, _, rfl,
      way_some1.mpr ⟨hgap, rfl⟩, way_oneOf.mpr ⟨.lit name, List.mem_map_of_mem hname, rfl, rfl⟩⟩
    simp only [List.mem_cons, List.not_mem_nil, or_false] at hkeyword
    rcases hkeyword with rfl | rfl
    · exact Or.inl ⟨rfl, rfl⟩
    · exact Or.inr ⟨rfl, rfl⟩

theorem isSpace_of_mem (hg : WordOver isSpace g) {a : Char} (ha : a ∈ g) : isSpace a = true := hg.2 a ha

/-- A character that is no white space and in no keyword or name is not in a head, behind its percent sign. -/
theorem IsHead.cons (hh : IsHead h) : ∃ u, h = '%' :: u ∧ ∀ a ∈ u, a ≠ '%' ∧ a ≠ 'R' := by
  obtain ⟨keyword, hkeyword, gap, name, hname, hgap, rfl⟩ := hh
  have hkeywords : ∀ k ∈ ["global".toList, "define".toList], ∀ a ∈ k, a ≠ '%' ∧ a ≠ 'R' := by decide
  have hnames : ∀ n ∈ releaseNames, ∀ a ∈ n, a ≠ '%' ∧ a ≠ 'R' := by decide
  refine ⟨_, rfl, fun a ha => ?_⟩
  rcases List.mem_append.mp ha with ha | ha
  · exact hkeywords keyword hkeyword a ha
  · rcases List.mem_append.mp ha with ha | ha
    · have hspace := hgap.2 a ha
      constructor
      · rintro rfl
        exact absurd hspace (by decide)
      · rintro rfl
        exact absurd hspace (by decide)
    · exact hnames name hname a ha

theorem ends_of_space {u : Str} (hg : WordOver isSpace g) : Ends (g ++ u) :=
  hg.head?_append (fun a ha => by rw [ha]; rfl) u

theorem head_of_solid (hw : WordOver (fun a => !isSpace a) w) (u : Str) : inClass isSpace (w ++ u).head? = false :=
  hw.head?_append (fun a ha => by simpa using ha) u

theorem head_of_solid_self (hw : WordOver (fun a => !isSpace a) w) : inClass isSpace w.head? = false := by
  have hhead := head_of_solid hw []
  rwa [List.append_nil] at hhead

theorem solid_of_name {n : Str} (hn : n ∈ releaseNames) : WordOver (fun a => !isSpace a) n := by
  have hnames : ∀ n ∈ releaseNames, n ≠ [] ∧ ∀ a ∈ n, (!isSpace a) = true := by decide
  exact hnames n hn

/-- A line has one head at most. -/
theorem IsHead.unique (hh : IsHead h) (hh' : IsHead h') (ht : Ends t) (ht' : Ends t') (heq : h ++ t = h' ++ t') :
    h = h' ∧ t = t' := by
  obtain ⟨keyword, hkeyword, gap, name, hname, hgap, rfl⟩ := hh
  obtain ⟨keyword', hkeyword', gap', name', hname', hgap', rfl⟩ := hh'
  have hlength : ∀ k ∈ ["global".toList, "define".toList], k.length = 6 := by decide
  simp only [List.cons_append, List.append_assoc, List.cons.injEq, true_and] at heq
  obtain ⟨rfl, hgaps⟩ := List.append_inj heq ((hlength _ hkeyword).trans (hlength _ hkeyword').symm)
  obtain ⟨rfl, hnames⟩ := word_cancel hgap.2 hgap'.2 (head_of_solid (solid_of_name hname) t)
    (head_of_solid (solid_of_name hname') t') hgaps
  obtain ⟨rfl, rfl⟩ := word_cancel (solid_of_name hname).2 (solid_of_name hname').2 ht ht' hnames
  exact ⟨rfl, rfl⟩

/-! ## What the pattern finds -/

/-- The cut at a definition is the only one. -/
theorem DefAt.unique {h₂ g₂ w₂ rest₂ : Str} {t : Str} (hd : DefAt t i h g w rest)
    (hd₂ : DefAt t i h₂ g₂ w₂ rest₂) : h = h₂ ∧ g = g₂ ∧ w = w₂ ∧ rest = rest₂ := by
  have heq := hd.drop.symm.trans hd₂.drop
  obtain ⟨rfl, hgaps⟩ := hd.head.unique hd₂.head (ends_of_space hd.gap_space) (ends_of_space hd₂.gap_space) heq
  obtain ⟨rfl, hwords⟩ := word_cancel hd.gap_space.2 hd₂.gap_space.2 (head_of_solid hd.word_solid rest)
    (head_of_solid hd₂.word_solid rest₂) hgaps
  obtain ⟨rfl, rfl⟩ := word_cancel hd.word_solid.2 hd₂.word_solid.2 hd.ends hd₂.ends hwords
  exact ⟨rfl, rfl, rfl, rfl⟩

/-- The first word of a text that does not begin with white space. -/
theorem first_word {u : Str} {a : Char} (ha : isSpace a = false) :
    WordOver (fun c => !isSpace c) ((a :: u).takeWhile fun c => !isSpace c) ∧
      Ends ((a :: u).dropWhile fun c => !isSpace c) := by
  refine ⟨⟨?_, fun c hc => @List.mem_takeWhile_imp _ (fun c => !isSpace c) _ _ hc⟩, ?_⟩
  · rw [List.takeWhile_cons_of_pos (by simp [ha])]
    exact List.cons_ne_nil _ _
  · unfold Ends
    cases hrest : (a :: u).dropWhile (fun c => !isSpace c) with
    | nil => rfl
    | cons c v =>
        have hnot := List.head?_dropWhile_not (fun c => !isSpace c) (a :: u)
        rw [hrest] at hnot
        simpa [inClass] using hnot

/-- Where a head, white space and anything else stand at the start of a line, there is a definition. -/
theorem exists_defAt {u : Str} {a : Char} (hstart : LineStart t i) (hdrop : t.drop i = h ++ (g ++ a :: u))
    (hh : IsHead h) (hg : WordOver isSpace g) (ha : isSpace a = false) :
    ∃ word rest, DefAt t i h g word rest := by
  obtain ⟨hword, hends⟩ := first_word (u := u) ha
  refine ⟨_, _, hstart, ?_, hh, hg, hword, hends⟩
  rw [List.takeWhile_append_dropWhile, hdrop]

/-- The pattern matches where there is a definition. -/
theorem exists_defAt_of_run (hi : i ≤ t.length) (hrun : run t releaseMacroRe ⟨i, []⟩ ≠ []) :
    ∃ h g w rest, DefAt t i h g w rest := by
  obtain ⟨e, he⟩ := List.exists_mem_of_ne_nil _ hrun
  have hlen : (t.take i).length = i := List.length_take_of_le hi
  obtain ⟨w, v, c', hcut, hway, -⟩ := (mem_run_at hi).mp he
  rw [releaseMacroRe_eq] at hway
  obtain ⟨_, _, _, rfl, ⟨hstart, rfl, rfl⟩, h, _, _, rfl, ⟨_, hhead, rfl⟩, g, word, _, rfl, hgap, hword⟩ := hway
  obtain ⟨hh, -⟩ := way_headRe.mp hhead
  obtain ⟨hg, rfl⟩ := way_some1.mp hgap
  obtain ⟨hword, -⟩ := way_some1.mp hword
  obtain ⟨a, u, rfl⟩ := List.exists_cons_of_ne_nil hword.1
  have hlineStart : LineStart t i := by
    rcases hstart with hnil | hlast
    · left
      rw [← hlen, hnil]
      rfl
    · right
      have hprev := prev?_length_append (x := t.take i) (u := t.drop i)
      rwa [List.take_append_drop, hlen, hlast] at hprev
  have hdrop : t.drop i = h ++ (g ++ a :: (u ++ v)) := by
    rw [hcut]
    simp
  obtain ⟨word, rest, hdef⟩ := exists_defAt hlineStart hdrop hh hg (by simpa using hword.2 a List.mem_cons_self)
  exact ⟨h, g, word, rest, hdef⟩

theorem DefAt.lt (hd : DefAt t i h g w rest) : i < t.length := by
  obtain ⟨u, rfl, -⟩ := hd.head.cons
  have hlen := congrArg List.length hd.drop
  rw [List.length_drop, List.length_append, List.length_cons] at hlen
  omega

/-- And it takes the head, the white space and the word. -/
theorem DefAt.matchAt (hd : DefAt t i h g w rest) :
    matchAt releaseMacroRe t i = some ⟨i, i + h.length + g.length + w.length, [(1, h)]⟩ := by
  have hi := hd.lt.le
  have hsome : run t releaseMacroRe ⟨i, []⟩ ≠ [] := by
    have hlen : (t.take i).length = i := List.length_take_of_le hi
    refine List.ne_nil_of_mem (a := ⟨i + (h ++ (g ++ w)).length, [(1, h)]⟩) ((mem_run_at hi).mpr ?_)
    refine ⟨h ++ (g ++ w), rest, [(1, h)], by rw [hd.drop]; simp, ?_, rfl⟩
    rw [releaseMacroRe_eq]
    refine ⟨[], _, [], rfl, ⟨?_, rfl, rfl⟩, h, _, _, rfl, ⟨[], way_headRe.mpr ⟨hd.head, rfl⟩, rfl⟩, g, w, _, rfl,
      way_some1.mpr ⟨hd.gap_space, rfl⟩, way_some1.mpr ⟨hd.word_solid, rfl⟩⟩
    rcases hd.start with hzero | hprev
    · left
      rw [hzero, List.take_zero]
    · right
      have hlast := prev?_length_append (x := t.take i) (u := t.drop i)
      rw [List.take_append_drop, hlen, hprev] at hlast
      exact hlast.symm
  obtain ⟨e, others, hrun⟩ := List.exists_cons_of_ne_nil hsome
  have hfirst : (run t releaseMacroRe ⟨i, []⟩).head? = some e := by rw [hrun, List.head?_cons]
  have heq : e = ⟨i + h.length + g.length + w.length, [(1, h)]⟩ := by
    rw [releaseMacroRe_eq, head?_cat] at hfirst
    obtain ⟨m₁, hm₁, hfirst⟩ := List.exists_of_findSome?_eq_some hfirst
    obtain ⟨-, rfl⟩ := mem_run_bol.mp hm₁
    rw [head?_cat] at hfirst
    obtain ⟨m₂, hm₂, hfirst⟩ := List.exists_of_findSome?_eq_some hfirst
    obtain ⟨m, hm, rfl⟩ := mem_run_group.mp hm₂
    obtain ⟨h', v, _, hcut, hway, rfl⟩ := (mem_run_at hi).mp hm
    obtain ⟨hh', rfl⟩ := way_headRe.mp hway
    rw [head?_cat] at hfirst
    obtain ⟨m₃, hm₃, hfirst⟩ := List.exists_of_findSome?_eq_some hfirst
    have hv : t.drop (i + h'.length) = v := drop_add_length hcut
    have hle : i + h'.length ≤ t.length := by
      have hlen := congrArg List.length hcut
      rw [List.length_drop, List.length_append] at hlen
      omega
    obtain ⟨g', v', _, hcut', hway', rfl⟩ := (mem_run_at hle).mp hm₃
    obtain ⟨hg', rfl⟩ := way_some1.mp hway'
    have hv' : t.drop (i + h'.length + g'.length) = v' := drop_add_length hcut'
    rw [head?_some1] at hfirst
    split at hfirst
    · rename_i hclass
      obtain ⟨a, ha, hsolid⟩ := inClass_iff.mp hclass
      dsimp only at ha
      rw [← List.head?_drop, hv', List.head?_eq_some_iff] at ha
      obtain ⟨u, rfl⟩ := ha
      have hdrop : t.drop i = h' ++ (g' ++ a :: u) := by rw [hcut, ← hv, hcut']
      obtain ⟨word, rest', hd'⟩ := exists_defAt hd.start hdrop hh' hg' (by simpa using hsolid)
      obtain ⟨rfl, rfl, rfl, rfl⟩ := hd.unique hd'
      have hspan : spanLen t (fun c => !isSpace c) (i + h.length + g.length) = w.length := by
        refine spanLen_of_drop (u := rest) ?_ hd.word_solid.2 hd.ends
        rw [← List.drop_drop, ← List.drop_drop, hd.drop, List.drop_left, List.drop_left]
      have htake : (t.drop i).take h.length = h := by rw [hd.drop, List.take_left]
      rw [spanLen_of_inClass hclass] at hspan
      obtain rfl := Option.some.inj hfirst
      dsimp only at hspan
      simp only [Nat.add_sub_cancel_left, htake]
      congr 1
      omega
    · cases hfirst
  rw [Regex.matchAt, hfirst, heq]
  rfl

theorem matchAt_none (hno : ∀ h g w rest, ¬ DefAt t i h g w rest) (hi : i ≤ t.length) :
    Regex.matchAt releaseMacroRe t i = none := by
  apply matchAt_none_of_run
  by_contra hrun
  obtain ⟨h, g, w, rest, hd⟩ := exists_defAt_of_run hi hrun
  exact hno h g w rest hd

end

/-! ## The definitions of a text, rewritten one after the other -/

section

variable {t u out front h g w rest : Str} {i j : Nat}

/-- A text with its definitions rewritten. -/
def rewriteDefs (t : Str) : Str := sub releaseMacroRe (fun m => m.group 1 ++ " 0".toList) t

/-- The text has no definition before the position. -/
def NoDef (t : Str) (n : Nat) : Prop := ∀ j < n, ∀ h g w rest, ¬ DefAt t j h g w rest

/-- What rewriting makes of a text: its first definition is rewritten, and the rest of the text is a text of its
own. -/
inductive Rewritten : Str → Str → Prop
  | plain {u : Str} (hno : NoDef u u.length) : Rewritten u u
  | step {front h g w rest out : Str} (hno : NoDef (front ++ (h ++ (g ++ (w ++ rest)))) front.length)
      (hdef : DefAt (front ++ (h ++ (g ++ (w ++ rest)))) front.length h g w rest) (hrest : Rewritten rest out) :
      Rewritten (front ++ (h ++ (g ++ (w ++ rest)))) (front ++ (h ++ (" 0".toList ++ out)))

theorem not_ends_head {u : Str} (hh : IsHead h) : ¬ Ends (h ++ u) := by
  obtain ⟨v, rfl, -⟩ := hh.cons
  exact fun hends => Bool.noConfusion (show true = false from hends)

/-- The definitions of a part of the text are those of the text, if the part begins with a line or does not begin
with a word. -/
theorem defAt_drop (hdrop : t.drop i = u) (hctx : LineStart t i ∨ Ends u) :
    DefAt t (i + j) h g w rest ↔ DefAt u j h g w rest := by
  have hdrops : t.drop (i + j) = u.drop j := by rw [← List.drop_drop, hdrop]
  have hprev : j ≠ 0 → prev? t (i + j) = prev? u j := by
    intro hj
    rw [prev?, prev?, if_neg hj, if_neg (by omega), show i + j - 1 = i + (j - 1) by omega, ← hdrop,
      List.getElem?_drop]
  have hfront : (DefAt t (i + j) h g w rest ∨ DefAt u j h g w rest) → (LineStart t (i + j) ↔ LineStart u j) := by
    intro hdef
    by_cases hj : j = 0
    · subst hj
      refine iff_of_true ?_ (Or.inl rfl)
      rcases hctx with hstart | hends
      · exact hstart
      · -- a definition begins with a percent sign
        exfalso
        rcases hdef with hdef | hdef
        · have hcut := hdef.drop
          rw [Nat.add_zero, hdrop] at hcut
          exact not_ends_head hdef.head (hcut ▸ hends)
        · have hcut := hdef.drop
          rw [List.drop_zero] at hcut
          exact not_ends_head hdef.head (hcut ▸ hends)
    · unfold LineStart
      rw [hprev hj]
      simp [hj]
  constructor
  · intro hdef
    exact ⟨(hfront (Or.inl hdef)).mp hdef.start, hdrops ▸ hdef.drop, hdef.head, hdef.gap_space, hdef.word_solid,
      hdef.ends⟩
  · intro hdef
    exact ⟨(hfront (Or.inr hdef)).mpr hdef.start, hdrops ▸ hdef.drop, hdef.head, hdef.gap_space, hdef.word_solid,
      hdef.ends⟩

/-- The substitution does what the relation says, from wherever the text stands. -/
theorem Rewritten.rewrites (hr : Rewritten u out) : ∀ {i : Nat}, t.drop i = u → i ≤ t.length →
    LineStart t i ∨ Ends u → ∃ ms, Rewrites releaseMacroRe (fun m => m.group 1 ++ " 0".toList) t i ms out := by
  induction hr with
  | @plain u hno =>
      intro i hdrop hle hctx
      have hlen : i + u.length = t.length := by
        rw [← hdrop, List.length_drop]
        omega
      have hend : matchAt releaseMacroRe t t.length = none :=
        matchAt_none (fun _ _ _ _ hd => absurd hd.lt (Nat.lt_irrefl _)) le_rfl
      have hstop := Rewrites.stop (f := fun m => m.group 1 ++ " 0".toList) hend
      rw [← hlen] at hstop
      have hskip := Rewrites.skip (x := u) (u := []) (by rw [hdrop, List.append_nil]) hlen.le ?_ hstop
      · rw [List.append_nil] at hskip
        exact ⟨_, hskip⟩
      · intro j hj
        refine matchAt_none (fun h g w rest hd => ?_) (by omega)
        exact hno j hj h g w rest ((defAt_drop hdrop hctx).mp hd)
  | @step front h g w rest out hno hdef hrest ih =>
      intro i hdrop hle hctx
      have hdef' := (defAt_drop hdrop hctx).mpr hdef
      have hmatch := hdef'.matchAt
      have hstop : t.drop (i + front.length + h.length + g.length + w.length) = rest := by
        have hd := drop_add_length (drop_add_length (drop_add_length hdef'.drop))
        exact hd
      have hlen := congrArg List.length hdef'.drop
      rw [List.length_drop, List.length_append, List.length_append, List.length_append] at hlen
      have hh : 0 < h.length := by
        obtain ⟨v, rfl, -⟩ := hdef.head.cons
        exact Nat.succ_pos _
      have hlt := hdef'.lt
      obtain ⟨ms, hms⟩ := ih hstop (by omega) (Or.inr hdef.ends)
      have htake := Rewrites.take hlt.le hmatch (by
        show i + front.length < i + front.length + h.length + g.length + w.length
        omega) hms
      have hnew :
          (⟨i + front.length, i + front.length + h.length + g.length + w.length, [(1, h)]⟩ : Match).group 1 = h := rfl
      rw [hnew, List.append_assoc] at htake
      have hnone : ∀ j < front.length, matchAt releaseMacroRe t (i + j) = none := by
        intro j hj
        refine matchAt_none (fun h g w rest hd => ?_) (by omega)
        exact hno j hj h g w rest ((defAt_drop hdrop hctx).mp hd)
      exact ⟨_, htake.skip hdrop (by omega) hnone⟩

/-- A text is cut at its first definition. -/
theorem Rewritten.of_first {k : Nat} (hno : NoDef u k) (hdef : DefAt u k h g w rest) (hrest : Rewritten rest out) :
    Rewritten u (u.take k ++ (h ++ (" 0".toList ++ out))) := by
  have hlen : (u.take k).length = k := List.length_take_of_le hdef.lt.le
  have hcut : u.take k ++ (h ++ (g ++ (w ++ rest))) = u := by rw [← hdef.drop, List.take_append_drop]
  have hstep := @Rewritten.step (u.take k) h g w rest out (by rw [hcut, hlen]; exact hno)
    (by rw [hcut, hlen]; exact hdef) hrest
  rwa [hcut] at hstep

theorem exists_rewritten (u : Str) : ∃ out, Rewritten u out := by
  induction hlen : u.length using Nat.strong_induction_on generalizing u with
  | _ n ih =>
      subst hlen
      by_cases hsome : ∃ j h g w rest, DefAt u j h g w rest
      · classical
        obtain ⟨h, g, w, rest, hdef⟩ := Nat.find_spec hsome
        have hno : NoDef u (Nat.find hsome) := by
          intro j hj h g w rest hd
          exact Nat.find_min hsome hj ⟨h, g, w, rest, hd⟩
        have hshort : rest.length < u.length := by
          obtain ⟨v, rfl, -⟩ := hdef.head.cons
          have hlen := congrArg List.length hdef.drop
          simp only [List.length_drop, List.length_append, List.length_cons] at hlen
          omega
        obtain ⟨out, hout⟩ := ih rest.length hshort rest rfl
        exact ⟨_, .of_first hno hdef hout⟩
      · refine ⟨u, .plain ?_⟩
        intro j _ h g w rest hd
        exact hsome ⟨j, h, g, w, rest, hd⟩

/-- **`rewritten_rewriteDefs`** — the substitution rewrites the definitions one after the other. -/
theorem rewritten_rewriteDefs (t : Str) : Rewritten t (rewriteDefs t) := by
  obtain ⟨out, hout⟩ := exists_rewritten t
  obtain ⟨ms, hms⟩ := hout.rewrites (List.drop_zero) (Nat.zero_le _) (Or.inl (Or.inl rfl))
  rw [rewriteDefs, hms.sub_eq]
  exact hout

theorem Rewritten.rewriteDefs_eq (hr : Rewritten u out) : rewriteDefs u = out := by
  obtain ⟨ms, hms⟩ := hr.rewrites (List.drop_zero) (Nat.zero_le _) (Or.inl (Or.inl rfl))
  rw [rewriteDefs, hms.sub_eq]

/-! ## Twice is once -/

/-- Whether a definition begins in the first part of a text depends on what follows that part only in that it begins
with a percent sign. -/
theorem NoDef.congr {x y : Str} (hno : NoDef (front ++ '%' :: x) front.length) :
    NoDef (front ++ '%' :: y) front.length := by
  intro j hj h g w rest hdef
  have hcut := hdef.drop
  rw [List.drop_append_of_le_length hj.le, ← List.append_assoc] at hcut
  obtain ⟨v, hv, hletters⟩ := hdef.head.cons
  -- the percent sign that follows is not in the head or the gap
  have hsplit : ∃ as, front.drop j = (h ++ g) ++ as ∧ w ++ rest = as ++ '%' :: y := by
    rcases List.append_eq_append_iff.mp hcut with ⟨as, has, hrest⟩ | ⟨as, has, hrest⟩
    · cases as with
      | nil => exact ⟨[], by rw [List.append_nil, has, List.append_nil], hrest.symm⟩
      | cons a as =>
          obtain ⟨p, ps, hp⟩ := List.exists_cons_of_ne_nil (mt List.drop_eq_nil_iff.mp (Nat.not_le.mpr hj))
          rw [hp, hv, List.cons_append, List.cons_append] at has
          obtain ⟨-, htail⟩ := List.cons.inj has
          have ha : a = '%' := (List.cons.inj hrest).1.symm
          have hmem : '%' ∈ v ++ g := by
            rw [htail, ha]
            exact List.mem_append_right _ List.mem_cons_self
          rcases List.mem_append.mp hmem with hmem | hmem
          · exact absurd rfl (hletters _ hmem).1
          · exact absurd (hdef.gap_space.2 _ hmem) (by decide)
    · exact ⟨as, has, hrest⟩
  obtain ⟨as, hfront, hword⟩ := hsplit
  have hdrop : (front ++ '%' :: x).drop j = h ++ (g ++ (as ++ '%' :: x)) := by
    rw [List.drop_append_of_le_length hj.le, hfront, List.append_assoc, List.append_assoc]
  have hstart : LineStart (front ++ '%' :: x) j :=
    (lineStart_append hj.le).mpr ((lineStart_append hj.le).mp hdef.start)
  obtain ⟨a, u, hau, hsolid⟩ : ∃ a u, as ++ '%' :: x = a :: u ∧ isSpace a = false := by
    cases as with
    | nil => exact ⟨'%', x, rfl, by decide⟩
    | cons a as =>
        obtain ⟨b, ws, rfl⟩ := List.exists_cons_of_ne_nil hdef.word_solid.1
        obtain ⟨rfl, -⟩ := List.cons.inj hword
        exact ⟨b, _, rfl, by simpa using hdef.word_solid.2 b List.mem_cons_self⟩
  rw [hau] at hdrop
  obtain ⟨word, rest', hdef'⟩ := exists_defAt hstart hdrop hdef.head hdef.gap_space hsolid
  exact hno j hj _ _ _ _ hdef'

theorem Rewritten.ends (hr : Rewritten u out) (hu : Ends u) : Ends out := by
  cases hr with
  | plain => exact hu
  | @step front h g w rest out hno hdef hrest =>
      cases front with
      | nil => exact absurd hu (not_ends_head (u := g ++ (w ++ rest)) hdef.head)
      | cons c front => exact hu

/-- What has been rewritten is rewritten to itself. -/
theorem Rewritten.twice (hr : Rewritten u out) : Rewritten out out := by
  induction hr with
  | plain hno => exact .plain hno
  | @step front h g w rest out hno hdef hrest ih =>
      obtain ⟨v, rfl, -⟩ := hdef.head.cons
      have hdef' : DefAt (front ++ ('%' :: v ++ (" ".toList ++ ("0".toList ++ out)))) front.length ('%' :: v) " " "0"
          out := by
        refine ⟨?_, List.drop_left, hdef.head, ⟨by decide, by decide⟩, ⟨by decide, by decide⟩,
          hrest.ends hdef.ends⟩
        exact (lineStart_append le_rfl).mpr ((lineStart_append le_rfl).mp hdef.start)
      exact .step (NoDef.congr hno) hdef' ih

theorem rewriteDefs_idem (t : Str) : rewriteDefs (rewriteDefs t) = rewriteDefs t :=
  (rewritten_rewriteDefs t).twice.rewriteDefs_eq

end

end HummingbirdRpms.ReleaseErasure
