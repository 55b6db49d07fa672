/-
# HummingbirdRpms.Autorelease — what replacing `%autorelease` makes of the lines of a spec file.

`replace_autorelease_in_spec` of `ci/dist_git.py` reads the spec file as text, which turns carriage
returns into line breaks, and replaces the macro, in any of its four spellings and with the rest of its
line, by a release and the dist macro.  This goes line by line (**`sub_autorelease`**), and a line that
was replaced is not replaced again.

The comparison of a package with its upstream, which ignores blank lines and lines that begin with
`Release:`, then sees nothing of it exactly when each line either is left as it is or is such a line:
**`same_resolved_iff`**, for a `diff` that leaves as few lines as it can in its changes.
-/
import HummingbirdRpms.Lib.Grep
import HummingbirdRpms.Gates
import HummingbirdRpms.ReleaseOnly

namespace HummingbirdRpms

open Lib Lib.Text Lib.Regex Lib.LineDiff

/-! ## The macro -/

/-- The spellings of the macro, before its arguments. -/
def autoreleaseForms : List Str :=
  ["%\x7b?autorelease".toList, "%\x7bautorelease".toList, "%?autorelease".toList, "%autorelease".toList]

/-- Whether a text begins with the macro. -/
def startsAutorelease (u : Str) : Bool := autoreleaseForms.any fun w => startsWith w u

section Match

variable {t u w : Str} {i : Nat} {e : St}

theorem startsAutorelease_iff : startsAutorelease u = true ↔ ∃ w ∈ autoreleaseForms, w <+: u := by
  simp only [startsAutorelease, List.any_eq_true, startsWith_iff]

theorem mem_autoreleaseForms (h : w ∈ autoreleaseForms) :
    (∀ c ∈ w, isCSpace c = false) ∧ ∃ name, w = '%' :: name ∧
      ∀ c ∈ name, c ≠ '%' ∧ isAsciiDigit c = false := by
  simp only [autoreleaseForms, List.mem_cons, List.not_mem_nil, or_false] at h
  rcases h with rfl | rfl | rfl | rfl
  · exact ⟨by decide, _, rfl, by decide⟩
  · exact ⟨by decide, _, rfl, by decide⟩
  · exact ⟨by decide, _, rfl, by decide⟩
  · exact ⟨by decide, _, rfl, by decide⟩

/-- The first way the pattern matches, taken apart: a spelling, and the rest of the line. -/
theorem head?_run_autorelease (h : (run t autoreleaseRe ⟨i, []⟩).head? = some e) :
    ∃ w ∈ autoreleaseForms, w <+: t.drop i ∧
      e = ⟨i + w.length + spanLen t (· != '\n') (i + w.length), []⟩ := by
  simp only [autoreleaseRe, Re.seq, head?_cat, head?_many_greedy] at h
  obtain ⟨m₁, h₁, h⟩ := List.exists_of_findSome?_eq_some h
  obtain ⟨hpercent, rfl⟩ := mem_run_lit.mp h₁
  obtain ⟨m₂, h₂, h⟩ := List.exists_of_findSome?_eq_some h
  obtain ⟨m₃, h₃, h⟩ := List.exists_of_findSome?_eq_some h
  obtain ⟨m₄, h₄, h⟩ := List.exists_of_findSome?_eq_some h
  obtain ⟨hname, rfl⟩ := mem_run_lit.mp h₄
  obtain rfl := Option.some.inj h
  rcases mem_run_opt.mp h₂ with h₂ | rfl
  · obtain ⟨hbrace, rfl⟩ := mem_run_lit.mp h₂
    have hopen := prefix_drop_append hpercent hbrace
    rcases mem_run_opt.mp h₃ with h₃ | rfl
    · obtain ⟨hmark, rfl⟩ := mem_run_lit.mp h₃
      exact ⟨_, by decide, prefix_drop_append (prefix_drop_append hopen hmark) hname, rfl⟩
    · exact ⟨_, by decide, prefix_drop_append hopen hname, rfl⟩
  · rcases mem_run_opt.mp h₃ with h₃ | rfl
    · obtain ⟨hmark, rfl⟩ := mem_run_lit.mp h₃
      exact ⟨_, by decide, prefix_drop_append (prefix_drop_append hpercent hmark) hname, rfl⟩
    · exact ⟨_, by decide, prefix_drop_append hpercent hname, rfl⟩

/-- The pattern matches where one of the spellings stands. -/
theorem run_autorelease_ne_nil (hw : w ∈ autoreleaseForms) (h : w <+: t.drop i) :
    run t autoreleaseRe ⟨i, []⟩ ≠ [] := by
  have hrest : ∀ s : St, s ∈ run t (.many true (· != '\n')) s := fun s =>
    mem_run_many.mpr ⟨0, Nat.zero_le _, rfl⟩
  -- the parts of a spelling, in turn
  have hparts : ∀ a b c d : Str, a ++ b ++ c ++ d <+: t.drop i → a <+: t.drop i ∧
      b <+: t.drop (i + a.length) ∧ c <+: t.drop (i + a.length + b.length) ∧
        d <+: t.drop (i + a.length + b.length + c.length) := by
    rintro a b c d ⟨rest, hrest⟩
    refine ⟨⟨b ++ c ++ d ++ rest, by rw [← hrest]; simp⟩, ⟨c ++ d ++ rest, ?_⟩, ⟨d ++ rest, ?_⟩, ⟨rest, ?_⟩⟩
    all_goals
      simp only [← List.drop_drop, ← hrest, List.append_assoc, List.drop_left]
  have hway : ∀ b c : Str, (b = [] ∨ b = "\x7b".toList) → (c = [] ∨ c = "?".toList) →
      "%".toList ++ b ++ c ++ "autorelease".toList <+: t.drop i → run t autoreleaseRe ⟨i, []⟩ ≠ [] := by
    intro b c hb hc h
    obtain ⟨h₁, h₂, h₃, h₄⟩ := hparts _ _ _ _ h
    unfold autoreleaseRe
    refine List.ne_nil_of_mem (mem_run_seq_cons.mpr ⟨_, mem_run_lit.mpr ⟨h₁, rfl⟩, mem_run_seq_cons.mpr
      ⟨⟨i + "%".toList.length + b.length, []⟩, ?_, mem_run_seq_cons.mpr
        ⟨⟨i + "%".toList.length + b.length + c.length, []⟩, ?_, mem_run_seq_cons.mpr
          ⟨_, mem_run_lit.mpr ⟨h₄, rfl⟩, hrest _⟩⟩⟩⟩)
    · rcases hb with rfl | rfl
      · exact mem_run_opt.mpr (Or.inr rfl)
      · exact mem_run_opt.mpr (Or.inl (mem_run_lit.mpr ⟨h₂, rfl⟩))
    · rcases hc with rfl | rfl
      · exact mem_run_opt.mpr (Or.inr rfl)
      · exact mem_run_opt.mpr (Or.inl (mem_run_lit.mpr ⟨h₃, rfl⟩))
  simp only [autoreleaseForms, List.mem_cons, List.not_mem_nil, or_false] at hw
  rcases hw with rfl | rfl | rfl | rfl
  · exact hway "\x7b".toList "?".toList (Or.inr rfl) (Or.inr rfl) h
  · exact hway "\x7b".toList [] (Or.inr rfl) (Or.inl rfl) h
  · exact hway [] "?".toList (Or.inl rfl) (Or.inr rfl) h
  · exact hway [] [] (Or.inl rfl) (Or.inl rfl) h

/-- Where the macro stands it matches with the rest of its line. -/
theorem matchAt_autorelease (h : startsAutorelease (t.drop i) = true) :
    matchAt autoreleaseRe t i = some ⟨i, i + spanLen t (· != '\n') i, []⟩ := by
  obtain ⟨w, hw, hform⟩ := startsAutorelease_iff.mp h
  obtain ⟨e, es, hrun⟩ := List.exists_cons_of_ne_nil (run_autorelease_ne_nil hw hform)
  have he : (run t autoreleaseRe ⟨i, []⟩).head? = some e := by
    rw [hrun]
    rfl
  obtain ⟨w', hw', ⟨rest, hrest⟩, rfl⟩ := head?_run_autorelease he
  have hline : '\n' ∉ w' := fun hmem => absurd ((mem_autoreleaseForms hw').1 _ hmem) (by decide)
  have hspan : spanLen t (· != '\n') i = w'.length + spanLen t (· != '\n') (i + w'.length) := by
    rw [spanLen, spanLen, ← List.drop_drop, ← hrest, List.drop_left, List.takeWhile_append_of_pos,
      List.length_append]
    intro c hc
    rw [bne_iff_ne]
    rintro rfl
    exact hline hc
  rw [matchAt_of_head? he, hspan, Nat.add_assoc]

theorem matchAt_autorelease_none (h : startsAutorelease (t.drop i) = false) :
    matchAt autoreleaseRe t i = none := by
  rw [matchAt, Option.map_eq_none_iff, ← Option.not_isSome_iff_eq_none]
  intro hsome
  obtain ⟨e, he⟩ := Option.isSome_iff_exists.mp hsome
  obtain ⟨w, hw, hform, -⟩ := head?_run_autorelease he
  rw [startsAutorelease_iff.mpr ⟨w, hw, hform⟩] at h
  exact Bool.noConfusion h

end Match

/-! ## The replacement -/

/-- A line with the macro, and what follows it, replaced by a release and the dist macro. -/
def resolved (release : Str) : Str → Str
  | [] => []
  | c :: cs => if startsAutorelease (c :: cs) then release ++ distMacro else c :: resolved release cs

section Replacement

variable {t u line rest release : Str} {i : Nat} {ms : List Match} {out : Str}

/-- The macro does not reach into white space. -/
theorem startsAutorelease_append (hrest : ∀ c ∈ rest.head?, isCSpace c = true) :
    startsAutorelease (line ++ rest) = startsAutorelease line := by
  rw [Bool.eq_iff_iff, startsAutorelease_iff, startsAutorelease_iff]
  constructor
  · rintro ⟨w, hw, hform⟩
    refine ⟨w, hw, ?_⟩
    have hle : w.length ≤ line.length := by
      by_contra hlt
      cases rest with
      | nil =>
          have := hform.length_le
          rw [List.append_nil] at this
          omega
      | cons d rest =>
          -- the space would be part of the spelling
          have hlonger : line ++ [d] <+: w := by
            apply List.prefix_of_prefix_length_le (List.prefix_append _ rest) ?_ (by simp; omega)
            simpa using hform
          have hd := (mem_autoreleaseForms hw).1 d
            (hlonger.subset (List.mem_append_right _ (List.mem_singleton_self d)))
          rw [hrest d rfl] at hd
          exact Bool.noConfusion hd
    exact List.prefix_of_prefix_length_le hform (List.prefix_append _ _) hle
  · rintro ⟨w, hw, hform⟩
    exact ⟨w, hw, hform.trans (List.prefix_append _ _)⟩

theorem isCSpace_of_line_end (hrest : rest = [] ∨ rest.head? = some '\n') :
    ∀ c ∈ rest.head?, isCSpace c = true := by
  rcases hrest with rfl | hhead
  · simp
  · rw [hhead]
    rintro c ⟨⟩
    rfl

/-- Scanning a line replaces the macro in it. -/
theorem rewrites_line (hdrop : t.drop i = line ++ rest) (hline : '\n' ∉ line)
    (hrest : rest = [] ∨ rest.head? = some '\n')
    (h : Rewrites autoreleaseRe (fun _ => release ++ distMacro) t (i + line.length) ms out) :
    ∃ ms', Rewrites autoreleaseRe (fun _ => release ++ distMacro) t i ms' (resolved release line ++ out) := by
  induction line generalizing i with
  | nil => exact ⟨ms, h⟩
  | cons c cs ih =>
      have hle : i + (c :: cs).length ≤ t.length := by
        have := congrArg List.length hdrop
        rw [List.length_drop, List.length_append, List.length_cons] at this
        rw [List.length_cons]
        omega
      have hstart : startsAutorelease (t.drop i) = startsAutorelease (c :: cs) := by
        rw [hdrop, startsAutorelease_append (isCSpace_of_line_end hrest)]
      rw [resolved]
      cases hs : startsAutorelease (c :: cs) with
      | true =>
          have hspan : spanLen t (· != '\n') i = (c :: cs).length := by
            apply spanLen_of_drop hdrop
            · intro d hd
              rw [bne_iff_ne]
              rintro rfl
              exact hline hd
            · rcases hrest with rfl | hhead
              · rfl
              · rw [hhead]
                rfl
          have hmatch : matchAt autoreleaseRe t i = some ⟨i, i + (c :: cs).length, []⟩ := by
            rw [matchAt_autorelease (hstart.trans hs), hspan]
          have hlt : i < i + (c :: cs).length := by
            rw [List.length_cons]
            omega
          rw [if_pos rfl]
          exact ⟨_, Rewrites.take (by omega) hmatch hlt h⟩
      | false =>
          rw [List.mem_cons, not_or] at hline
          have hnext : t.drop (i + 1) = cs ++ rest := by
            rw [← List.drop_drop, hdrop]
            rfl
          rw [List.length_cons] at h hle
          obtain ⟨ms', h'⟩ := ih hnext hline.2 (by rwa [Nat.add_assoc, Nat.add_comm 1])
          rw [if_neg Bool.false_ne_true]
          refine ⟨ms', h'.skip (x := [c]) hdrop (by show i + 1 ≤ _; omega) ?_⟩
          intro j hj
          obtain rfl : j = 0 := by simpa using hj
          exact matchAt_autorelease_none (hstart.trans hs)

/-- The lines of a text, with the macro replaced in each. -/
def resolvedText (release t : Str) : Str := join "\n" ((newlineSplit t).map (resolved release))

theorem resolvedText_line (hline : '\n' ∉ line) :
    resolvedText release (line ++ '\n' :: rest) = resolved release line ++ '\n' :: resolvedText release rest := by
  obtain ⟨l, ls, hsplit⟩ : ∃ l ls, newlineSplit rest = l :: ls := by
    obtain ⟨first, after, rfl, hfirst, hafter⟩ := exists_line rest
    rcases hafter with rfl | hhead
    · exact ⟨first, [], by rw [List.append_nil, Grep.newlineSplit_oneLine hfirst]⟩
    · obtain ⟨d, after, rfl⟩ := List.exists_cons_of_ne_nil (List.ne_nil_of_mem (List.mem_of_mem_head? hhead))
      obtain rfl := Option.some.inj hhead
      exact ⟨first, newlineSplit after, Grep.newlineSplit_line hfirst⟩
  rw [resolvedText, resolvedText, Grep.newlineSplit_line hline, hsplit, List.map_cons, List.map_cons, join,
    List.append_assoc]
  rfl

theorem resolvedText_oneLine (hline : '\n' ∉ line) : resolvedText release line = resolved release line := by
  rw [resolvedText, Grep.newlineSplit_oneLine hline]
  rfl

/-- Scanning a text replaces the macro line by line. -/
theorem rewrites_text (n : Nat) : ∀ {i : Nat} {u : Str}, u.length ≤ n → i ≤ t.length → t.drop i = u →
    ∃ ms, Rewrites autoreleaseRe (fun _ => release ++ distMacro) t i ms (resolvedText release u) := by
  induction n with
  | zero =>
      intro i u hn hi hdrop
      obtain rfl : u = [] := List.length_eq_zero_iff.mp (by omega)
      have hend : i = t.length := by
        have := congrArg List.length hdrop
        rw [List.length_drop, List.length_nil] at this
        omega
      subst hend
      exact ⟨[], .stop (matchAt_autorelease_none (by rw [hdrop]; rfl))⟩
  | succ n ih =>
      intro i u hn hi hdrop
      obtain ⟨line, rest, rfl, hline, hrest⟩ := exists_line u
      have hlen := congrArg List.length hdrop
      rw [List.length_drop, List.length_append] at hlen
      have hnext : t.drop (i + line.length) = rest := by
        rw [← List.drop_drop, hdrop, List.drop_left]
      rcases hrest with rfl | hhead
      · -- the last line
        have hend : i + line.length = t.length := by
          rw [List.length_nil] at hlen
          omega
        have hstop : Rewrites autoreleaseRe (fun _ => release ++ distMacro) t (i + line.length) [] [] := by
          rw [hend]
          refine .stop (matchAt_autorelease_none ?_)
          rw [List.drop_length]
          rfl
        obtain ⟨ms, h⟩ := rewrites_line hdrop hline (Or.inl rfl) hstop
        rw [List.append_nil] at h ⊢
        rw [resolvedText_oneLine hline]
        exact ⟨ms, h⟩
      · obtain ⟨d, rest, rfl⟩ := List.exists_cons_of_ne_nil (List.ne_nil_of_mem (List.mem_of_mem_head? hhead))
        obtain rfl := Option.some.inj hhead
        rw [List.length_cons] at hlen
        rw [List.length_append, List.length_cons] at hn
        have hafter : t.drop (i + line.length + 1) = rest := by
          rw [← List.drop_drop, hnext]
          rfl
        obtain ⟨ms, h⟩ := ih (by omega) (by omega) hafter
        have hbreak := h.skip (x := ['\n']) hnext (by show i + line.length + 1 ≤ _; omega) (by
          intro j hj
          obtain rfl : j = 0 := by simpa using hj
          apply matchAt_autorelease_none
          rw [Nat.add_zero, hnext]
          rw [show '\n' :: rest = [] ++ '\n' :: rest from rfl, startsAutorelease_append (isCSpace_of_line_end (Or.inr rfl))]
          rfl)
        obtain ⟨ms', h'⟩ := rewrites_line hdrop hline (Or.inr rfl) hbreak
        rw [resolvedText_line hline]
        exact ⟨ms', h'⟩

/-- **`sub_autorelease`** — the substitution goes line by line. -/
theorem sub_autorelease :
    sub autoreleaseRe (fun _ => release ++ distMacro) t = resolvedText release t := by
  obtain ⟨ms, h⟩ := @rewrites_text t release t.length 0 t le_rfl (Nat.zero_le _) rfl
  exact h.sub_eq

end Replacement

/-! ## A replaced line -/

/-- A release as MDAPI and rpmspec report it: one line that begins with a digit and holds no macro, or
is a macro that rpm does not know. -/
structure IsRelease (release : Str) : Prop where
  first : ∃ d rest, release = d :: rest ∧ (isAsciiDigit d = true ∨ d = '%') ∧ '%' ∉ rest
  line : ∀ c ∈ release, isLineBreak c = false

section Line

variable {x y z w name blank release : Str}

/-- What stands in a line without the characters that a replacement begins with stands in front of it. -/
theorem prefix_resolved {d : Char} {rest : Str} (hd : ∀ c ∈ w, c ≠ '%' ∧ c ≠ d) :
    w <+: resolved (d :: rest) z ↔ w <+: z := by
  induction z generalizing w with
  | nil => exact Iff.rfl
  | cons c z ih =>
      cases w with
      | nil => exact iff_of_true List.nil_prefix List.nil_prefix
      | cons a w =>
          obtain ⟨ha, hw⟩ := List.forall_mem_cons.mp hd
          rw [resolved]
          cases hs : startsAutorelease (c :: z) with
          | true =>
              obtain ⟨form, hform, hpre⟩ := startsAutorelease_iff.mp hs
              obtain ⟨-, name, rfl, -⟩ := mem_autoreleaseForms hform
              obtain rfl := (List.cons_prefix_cons.mp hpre).1
              rw [if_pos rfl, List.cons_append]
              refine iff_of_false (fun h => ha.2 (List.cons_prefix_cons.mp h).1) fun h => ?_
              exact ha.1 (List.cons_prefix_cons.mp h).1
          | false =>
              rw [if_neg Bool.false_ne_true, List.cons_prefix_cons, List.cons_prefix_cons, ih hw]

/-- A text without a percent sign holds no macro. -/
theorem resolved_eq_self (h : '%' ∉ z) : resolved release z = z := by
  induction z with
  | nil => rfl
  | cons c z ih =>
      rw [List.mem_cons, not_or] at h
      have hs : startsAutorelease (c :: z) = false := by
        rw [← Bool.not_eq_true, startsAutorelease_iff]
        rintro ⟨form, hform, hpre⟩
        obtain ⟨-, name, rfl, -⟩ := mem_autoreleaseForms hform
        exact h.1 (List.cons_prefix_cons.mp hpre).1
      rw [resolved, hs, if_neg Bool.false_ne_true, ih h.2]

theorem resolved_dist (h : '%' ∉ z) : resolved release (z ++ distMacro) = z ++ distMacro := by
  induction z with
  | nil =>
      have hdist : startsAutorelease distMacro = false := by decide
      have hrest : '%' ∉ distMacro.tail := by decide
      show (if startsAutorelease distMacro then _ else '%' :: resolved release distMacro.tail) = _
      rw [hdist, if_neg Bool.false_ne_true, resolved_eq_self hrest]
      rfl
  | cons c z ih =>
      rw [List.mem_cons, not_or] at h
      have hs : startsAutorelease (c :: (z ++ distMacro)) = false := by
        rw [← Bool.not_eq_true, startsAutorelease_iff]
        rintro ⟨form, hform, hpre⟩
        obtain ⟨-, name, rfl, -⟩ := mem_autoreleaseForms hform
        exact h.1 (List.cons_prefix_cons.mp hpre).1
      rw [List.cons_append, resolved, hs, if_neg Bool.false_ne_true, ih h.2]

/-- **`resolved_resolved`** — a line is not replaced twice. -/
theorem resolved_resolved (hr : IsRelease release) : resolved release (resolved release z) = resolved release z := by
  obtain ⟨⟨d, rest, rfl, hd, hrest⟩, -⟩ := hr
  induction z with
  | nil => rfl
  | cons c z ih =>
      rw [resolved]
      cases hs : startsAutorelease (c :: z) with
      | true =>
          -- the release may begin with the macro itself, and is then replaced by itself
          rw [if_pos rfl, List.cons_append]
          show (if startsAutorelease (d :: (rest ++ distMacro)) then _
            else d :: resolved (d :: rest) (rest ++ distMacro)) = _
          split
          · rfl
          · rw [resolved_dist hrest]
      | false =>
          have hs' : startsAutorelease (c :: resolved (d :: rest) z) = false := by
            rw [← Bool.not_eq_true, startsAutorelease_iff] at hs ⊢
            rintro ⟨form, hform, hpre⟩
            refine hs ⟨form, hform, ?_⟩
            obtain ⟨-, name, rfl, hname⟩ := mem_autoreleaseForms hform
            obtain ⟨rfl, hrest⟩ := List.cons_prefix_cons.mp hpre
            refine List.cons_prefix_cons.mpr ⟨rfl, (prefix_resolved ?_).mp hrest⟩
            intro a ha
            refine ⟨(hname a ha).1, ?_⟩
            rintro rfl
            rcases hd with hdigit | rfl
            · rw [(hname a ha).2] at hdigit
              exact Bool.noConfusion hdigit
            · exact (hname _ ha).1 rfl
          rw [if_neg Bool.false_ne_true, resolved, hs', if_neg Bool.false_ne_true, ih]

/-- White space at the end is kept, or goes with the macro. -/
theorem resolved_append (hblank : ∀ c ∈ blank, isCSpace c = true) :
    resolved release (x ++ blank) = resolved release x ∨
      resolved release x = x ∧ resolved release (x ++ blank) = x ++ blank := by
  have hpercent : '%' ∉ blank := fun h => absurd (hblank _ h) (by decide)
  induction x with
  | nil => exact Or.inr ⟨rfl, resolved_eq_self hpercent⟩
  | cons c x ih =>
      have hhead : ∀ a ∈ blank.head?, isCSpace a = true := fun a ha => hblank a (List.mem_of_mem_head? ha)
      have hs : startsAutorelease (c :: (x ++ blank)) = startsAutorelease (c :: x) :=
        @startsAutorelease_append (c :: x) blank hhead
      rw [List.cons_append, resolved, resolved, hs]
      split
      · exact Or.inl rfl
      · rcases ih with h | ⟨hx, h⟩
        · exact Or.inl (by rw [h])
        · exact Or.inr ⟨by rw [hx], by rw [h]⟩

/-- A line that is changed ends in the dist macro. -/
theorem resolved_cases : resolved release x = x ∨ ∃ before, resolved release x = before ++ distMacro := by
  induction x with
  | nil => exact Or.inl rfl
  | cons c x ih =>
      rw [resolved]
      split
      · exact Or.inr ⟨release, rfl⟩
      · rcases ih with h | ⟨before, h⟩
        · exact Or.inl (by rw [h])
        · exact Or.inr ⟨c :: before, by rw [h, List.cons_append]⟩

theorem mem_resolved {c : Char} (h : c ∈ resolved release x) : c ∈ x ∨ c ∈ release ∨ c ∈ distMacro := by
  induction x with
  | nil => exact Or.inl h
  | cons a x ih =>
      rw [resolved] at h
      split at h
      · exact Or.inr (List.mem_append.mp h)
      · rcases List.mem_cons.mp h with rfl | h
        · exact Or.inl List.mem_cons_self
        · exact (ih h).imp_left (List.mem_cons_of_mem a)

theorem isReleaseLine_resolved (hr : IsRelease release) :
    isReleaseLine (resolved release x) = isReleaseLine x := by
  obtain ⟨⟨d, rest, rfl, hd, -⟩, -⟩ := hr
  rw [Bool.eq_iff_iff, isReleaseLine, isReleaseLine, startsWith_iff, startsWith_iff]
  apply prefix_resolved
  intro c hc
  have hall : ∀ c ∈ "Release:".toList, c ≠ '%' ∧ isAsciiDigit c = false := by decide
  refine ⟨(hall c hc).1, ?_⟩
  rintro rfl
  rcases hd with hdigit | rfl
  · rw [(hall c hc).2] at hdigit
    exact Bool.noConfusion hdigit
  · exact (hall _ hc).1 rfl

theorem blank_resolved : (resolved release x).all isCSpace = x.all isCSpace := by
  rcases @resolved_cases x release with h | ⟨before, h⟩
  · rw [h]
  · have hleft : (resolved release x).all isCSpace = false := by
      rw [h, List.all_append, show distMacro.all isCSpace = false by decide, Bool.and_false]
    rw [hleft, eq_comm, ← Bool.not_eq_true, List.all_eq_true]
    intro hall
    have hpercent : '%' ∉ x := fun hmem => absurd (hall _ hmem) (by decide)
    rw [resolved_eq_self hpercent, ← Bool.not_eq_true, List.all_eq_true] at hleft
    exact hleft hall

/-- What the comparison ignores it ignores after the replacement, and nothing else. -/
theorem gnuIgnores_resolved (hr : IsRelease release) :
    gnuIgnores true (resolved release x) = gnuIgnores true x := by
  rw [gnuIgnores, gnuIgnores, blank_resolved, isReleaseLine_resolved hr]

end Line

/-! ## The lines of a file -/

/-- The lines of a text file. -/
abbrev textLines (s : Str) : List Str := fileLines (.text s)

/-- What Python reads a line as: a carriage return in it begins another line. -/
def linesRead (line : Str) : List Str := textLines (universalNewlines (line ++ "\n".toList))

section Lines

variable {line rest s t : Str}

theorem newlineSplit_ne_nil (s : Str) : newlineSplit s ≠ [] := by
  obtain ⟨line, rest, rfl, hline, hrest⟩ := exists_line s
  rcases hrest with rfl | hhead
  · rw [List.append_nil, Grep.newlineSplit_oneLine hline]
    exact List.cons_ne_nil _ _
  · obtain ⟨d, rest, rfl⟩ := List.exists_cons_of_ne_nil (List.ne_nil_of_mem (List.mem_of_mem_head? hhead))
    obtain rfl := Option.some.inj hhead
    rw [Grep.newlineSplit_line hline]
    exact List.cons_ne_nil _ _

theorem textLines_line (hline : '\n' ∉ line) :
    textLines (line ++ '\n' :: rest) = line :: textLines rest := by
  obtain ⟨l, ls, hsplit⟩ := List.exists_cons_of_ne_nil (newlineSplit_ne_nil rest)
  show fileLines.trimLast _ = line :: fileLines.trimLast _
  rw [Grep.newlineSplit_line hline, hsplit, fileLines.trimLast, fileLines.trimLast, List.getLast?_cons_cons]
  split
  · rfl
  · rfl

theorem textLines_oneLine (hline : '\n' ∉ line) : textLines line = if line = [] then [] else [line] := by
  show fileLines.trimLast _ = _
  rw [Grep.newlineSplit_oneLine hline, fileLines.trimLast]
  simp

/-- Every text is a line, with a line break and more text if that is not all. -/
theorem line_cases (s : Str) : ∃ line, '\n' ∉ line ∧ (s = line ∨ ∃ rest, s = line ++ '\n' :: rest) := by
  obtain ⟨line, rest, rfl, hline, hrest⟩ := exists_line s
  refine ⟨line, hline, ?_⟩
  rcases hrest with rfl | hhead
  · exact Or.inl (List.append_nil line)
  · obtain ⟨d, rest, rfl⟩ := List.exists_cons_of_ne_nil (List.ne_nil_of_mem (List.mem_of_mem_head? hhead))
    obtain rfl := Option.some.inj hhead
    exact Or.inr ⟨rest, rfl⟩

/-- Induction on the lines of a text. -/
theorem line_induction {P : Str → Prop} (last : ∀ line, '\n' ∉ line → P line)
    (more : ∀ line rest, '\n' ∉ line → P rest → P (line ++ '\n' :: rest)) (s : Str) : P s := by
  induction hn : s.length using Nat.strong_induction_on generalizing s with
  | _ n ih =>
      obtain ⟨line, hline, rfl | ⟨rest, rfl⟩⟩ := line_cases s
      · exact last s hline
      · refine more line rest hline (ih rest.length ?_ rest rfl)
        rw [← hn, List.length_append, List.length_cons]
        omega

/-- A text that is complete ends no line of what follows it. -/
theorem textLines_append (t : Str) : textLines (s ++ '\n' :: t) = textLines (s ++ "\n".toList) ++ textLines t := by
  induction s using line_induction with
  | last line hline =>
      rw [textLines_line hline, show "\n".toList = '\n' :: [] from rfl, textLines_line hline]
      rfl
  | more line rest hline ih =>
      rw [List.append_assoc, List.append_assoc, List.cons_append, List.cons_append, textLines_line hline,
        textLines_line hline, ih, List.cons_append]

/-- A line break at the end begins no further line. -/
theorem textLines_append_break (hne : s ≠ []) (hend : s.getLast? ≠ some '\n') :
    textLines (s ++ "\n".toList) = textLines s := by
  induction s using line_induction with
  | last line hline =>
      rw [show "\n".toList = '\n' :: [] from rfl, textLines_line hline, textLines_oneLine hline, if_neg hne]
      rfl
  | more line rest hline ih =>
      cases rest with
      | nil => exact absurd (by simp) hend
      | cons d rest =>
          rw [List.getLast?_append_of_ne_nil _ (List.cons_ne_nil _ _), List.getLast?_cons_cons] at hend
          rw [List.append_assoc, List.cons_append, textLines_line hline, textLines_line hline,
            ih (List.cons_ne_nil d rest) hend]

theorem universalNewlines_return (ht : t.head? ≠ some '\n') :
    universalNewlines ('\r' :: t) = '\n' :: universalNewlines t := by
  rw [universalNewlines]
  rintro cs rfl
  exact ht rfl

/-- Reading goes piece by piece, unless one ends between the two characters of a line break. -/
theorem universalNewlines_append (hs : ¬ (s.getLast? = some '\r' ∧ t.head? = some '\n')) :
    universalNewlines (s ++ t) = universalNewlines s ++ universalNewlines t := by
  induction s using universalNewlines.induct with
  | case1 => rfl
  | case2 cs ih =>
      rw [List.cons_append, List.cons_append, universalNewlines, universalNewlines, ih, List.cons_append]
      cases cs with
      | nil => simp
      | cons c cs => rwa [List.getLast?_cons_cons, List.getLast?_cons_cons] at hs
  | case3 cs hcs ih =>
      cases cs with
      | nil =>
          have ht : t.head? ≠ some '\n' := fun h => hs ⟨rfl, h⟩
          rw [List.cons_append, List.nil_append, universalNewlines_return ht]
          rfl
      | cons c cs =>
          have hc : (c :: cs).head? ≠ some '\n' := by
            rintro h
            obtain rfl := Option.some.inj h
            exact hcs cs rfl
          have hct : (c :: cs ++ t).head? ≠ some '\n' := hc
          rw [List.getLast?_cons_cons] at hs
          rw [List.cons_append, universalNewlines_return hct, universalNewlines_return hc, ih hs,
            List.cons_append]
  | case4 c cs h₁ h₂ ih =>
      rw [List.cons_append, universalNewlines_cons h₂, universalNewlines_cons h₂, List.cons_append]
      cases cs with
      | nil => rfl
      | cons d cs =>
          rw [List.getLast?_cons_cons] at hs
          rw [ih hs]

theorem universalNewlines_ne_nil (hs : s ≠ []) : universalNewlines s ≠ [] := by
  cases s with
  | nil => exact absurd rfl hs
  | cons c s =>
      by_cases hc : c = '\r'
      · subst hc
        by_cases ht : s.head? = some '\n'
        · obtain ⟨d, s, rfl⟩ := List.exists_cons_of_ne_nil (List.ne_nil_of_mem (List.mem_of_mem_head? ht))
          obtain rfl := Option.some.inj ht
          rw [universalNewlines]
          exact List.cons_ne_nil _ _
        · rw [universalNewlines_return ht]
          exact List.cons_ne_nil _ _
      · rw [universalNewlines_cons hc]
        exact List.cons_ne_nil _ _

/-- A line is read by itself. -/
theorem universalNewlines_line (line : Str) :
    ∃ z, (∀ rest, universalNewlines (line ++ '\n' :: rest) = z ++ '\n' :: universalNewlines rest) ∧
      (universalNewlines line = z ∧ line.getLast? ≠ some '\r' ∨ universalNewlines line = z ++ "\n".toList) := by
  by_cases hr : line.getLast? = some '\r'
  · -- a carriage return before the line break is one with it
    obtain ⟨a, rfl⟩ := List.getLast?_eq_some_iff.mp hr
    have hsplit : ∀ t : Str, universalNewlines (a ++ '\r' :: t) =
        universalNewlines a ++ universalNewlines ('\r' :: t) := fun t =>
      universalNewlines_append fun h => absurd h.2 (by simp)
    refine ⟨universalNewlines a, fun rest => ?_, Or.inr (hsplit [])⟩
    rw [List.append_assoc, List.singleton_append, hsplit, universalNewlines]
  · refine ⟨universalNewlines line, fun rest => ?_, Or.inl ⟨rfl, hr⟩⟩
    rw [universalNewlines_append fun h => hr h.1, universalNewlines_cons (by decide)]

theorem getLast?_universalNewlines (hline : '\n' ∉ s) (hs : s.getLast? ≠ some '\r') :
    (universalNewlines s).getLast? ≠ some '\n' := by
  rcases List.eq_nil_or_concat s with rfl | ⟨a, c, rfl⟩
  · simp [universalNewlines]
  · rw [List.concat_eq_append] at hline hs ⊢
    rw [List.getLast?_concat] at hs
    have hc : c ≠ '\r' := fun h => hs (congrArg some h)
    have hcn : c ≠ '\n' := by
      rintro rfl
      exact hline (List.mem_append_right _ (List.mem_singleton_self _))
    rw [universalNewlines_append fun h => hcn (by simpa using h.2), universalNewlines_cons hc,
      List.getLast?_append_of_ne_nil _ (List.cons_ne_nil _ _)]
    simpa [universalNewlines] using hcn

/-- **`textLines_universalNewlines`** — a file is read line by line. -/
theorem textLines_universalNewlines (raw : Str) :
    textLines (universalNewlines raw) = (textLines raw).flatMap linesRead := by
  induction raw using line_induction with
  | last line hline =>
      obtain ⟨z, hz, hread⟩ := universalNewlines_line line
      rw [textLines_oneLine hline]
      by_cases hnil : line = []
      · subst hnil
        rfl
      rw [if_neg hnil, List.flatMap_singleton, linesRead, show "\n".toList = '\n' :: [] from rfl, hz]
      rcases hread with ⟨hread, hr⟩ | hread
      · have hne : z ≠ [] := hread ▸ universalNewlines_ne_nil hnil
        have hend := getLast?_universalNewlines hline hr
        rw [hread] at hend ⊢
        exact (textLines_append_break hne hend).symm
      · rw [hread]
        rfl
  | more line rest hline ih =>
      obtain ⟨z, hz, -⟩ := universalNewlines_line line
      rw [hz, textLines_append, ih, textLines_line hline, List.flatMap_cons, linesRead,
        show "\n".toList = '\n' :: [] from rfl, hz]
      rfl

theorem mem_universalNewlines {c : Char} (h : c ∈ universalNewlines s) : c = '\n' ∨ c ∈ s := by
  induction s using universalNewlines.induct with
  | case1 => exact absurd h List.not_mem_nil
  | case2 cs ih =>
      rw [universalNewlines, List.mem_cons] at h
      rcases h with rfl | h
      · exact Or.inl rfl
      · exact (ih h).imp_right fun hc => List.mem_cons_of_mem _ (List.mem_cons_of_mem _ hc)
  | case3 cs hcs ih =>
      rw [universalNewlines_return fun hhead => ?_, List.mem_cons] at h
      · rcases h with rfl | h
        · exact Or.inl rfl
        · exact (ih h).imp_right (List.mem_cons_of_mem _)
      · obtain ⟨d, cs, rfl⟩ := List.exists_cons_of_ne_nil (List.ne_nil_of_mem (List.mem_of_mem_head? hhead))
        obtain rfl := Option.some.inj hhead
        exact hcs cs rfl
  | case4 d cs h₁ h₂ ih =>
      rw [universalNewlines_cons h₂, List.mem_cons] at h
      rcases h with rfl | h
      · exact Or.inr List.mem_cons_self
      · exact (ih h).imp_right (List.mem_cons_of_mem _)

theorem mem_of_mem_textLines (hline : line ∈ textLines s) : ∀ c ∈ line, c ∈ s := by
  induction s using line_induction with
  | last l hl =>
      rw [textLines_oneLine hl] at hline
      split at hline
      · exact absurd hline List.not_mem_nil
      · obtain rfl := List.mem_singleton.mp hline
        exact fun c hc => hc
  | more l rest hl ih =>
      rw [textLines_line hl, List.mem_cons] at hline
      rcases hline with rfl | hline
      · exact fun c hc => List.mem_append_left _ hc
      · exact fun c hc => List.mem_append_right _ (List.mem_cons_of_mem _ (ih hline c hc))

theorem not_mem_of_mem_textLines (hline : line ∈ textLines s) : '\n' ∉ line := by
  induction s using line_induction with
  | last l hl =>
      rw [textLines_oneLine hl] at hline
      split at hline
      · exact absurd hline List.not_mem_nil
      · rwa [List.mem_singleton.mp hline]
  | more l rest hl ih =>
      rw [textLines_line hl, List.mem_cons] at hline
      rcases hline with rfl | hline
      · exact hl
      · exact ih hline

/-- No carriage return is left in a line that has been read. -/
theorem not_mem_linesRead {z : Str} (hz : z ∈ linesRead line) : '\r' ∉ z := fun h =>
  not_mem_universalNewlines _ (mem_of_mem_textLines hz _ h)

theorem exists_trimEnd (line : Str) : ∃ blank, line = trimEnd line ++ blank ∧ ∀ c ∈ blank, isCSpace c = true := by
  induction line using List.reverseRecOn with
  | nil => exact ⟨[], rfl, by simp⟩
  | append_singleton line c ih =>
      by_cases hc : isCSpace c = true
      · obtain ⟨blank, hline, hblank⟩ := ih
        refine ⟨blank ++ [c], ?_, ?_⟩
        · rw [trimEnd, rstripBy, List.rdropWhile_concat_pos _ _ _ hc, ← List.append_assoc]
          exact congrArg (· ++ [c]) hline
        · intro d hd
          rcases List.mem_append.mp hd with hd | hd
          · exact hblank d hd
          · rwa [List.mem_singleton.mp hd]
      · refine ⟨[], ?_, by simp⟩
        rw [trimEnd, rstripBy, List.rdropWhile_concat_neg _ _ _ hc, List.append_nil]

theorem trimEnd_append {blank : Str} (hblank : ∀ c ∈ blank, isCSpace c = true) :
    trimEnd (s ++ blank) = trimEnd s := by
  induction blank using List.reverseRecOn with
  | nil => rw [List.append_nil]
  | append_singleton blank c ih =>
      have hc := hblank c (List.mem_append_right _ (List.mem_singleton_self c))
      rw [← List.append_assoc, trimEnd, rstripBy, List.rdropWhile_concat_pos _ _ _ hc]
      exact ih fun d hd => hblank d (List.mem_append_left _ hd)

/-- **`linesRead_kept`** — a line without a carriage return but at its end is read as itself, with blank
lines after it. -/
theorem linesRead_kept (hr : '\r' ∉ trimEnd line) (hline : '\n' ∉ line) :
    ∃ blank rest, linesRead line = (trimEnd line ++ blank) :: rest ∧
      (∀ c ∈ blank, isCSpace c = true) ∧ ∀ z ∈ rest, z.all isCSpace = true := by
  obtain ⟨space, heq, hspace⟩ := exists_trimEnd line
  obtain ⟨z, hz, -⟩ := universalNewlines_line space
  have hread : universalNewlines (line ++ "\n".toList) = trimEnd line ++ (z ++ '\n' :: []) := by
    have hlast : (trimEnd line).getLast? ≠ some '\r' := fun h => hr (List.mem_of_getLast? h)
    conv_lhs => rw [heq]
    rw [List.append_assoc, universalNewlines_append fun h => hlast h.1, universalNewlines_eq_self hr,
      show "\n".toList = '\n' :: [] from rfl, hz]
    rfl
  have hblank : ∀ c ∈ z ++ '\n' :: [], isCSpace c = true := by
    intro c hc
    have hmem : c ∈ universalNewlines (space ++ '\n' :: []) := by
      rw [hz]
      exact hc
    rcases mem_universalNewlines hmem with rfl | hc
    · rfl
    · rcases List.mem_append.mp hc with hc | hc
      · exact hspace c hc
      · rw [List.mem_singleton.mp hc]
        rfl
  have htrim : '\n' ∉ trimEnd line := fun h => hline (heq ▸ List.mem_append_left _ h)
  -- the first line break comes after the text of the line
  obtain ⟨blank, hone, rest, hsplit⟩ : ∃ blank, '\n' ∉ blank ∧ ∃ rest, z ++ '\n' :: [] = blank ++ '\n' :: rest := by
    obtain ⟨blank, hone, rfl | ⟨rest, rfl⟩⟩ := line_cases z
    · exact ⟨z, hone, [], rfl⟩
    · exact ⟨blank, hone, rest ++ '\n' :: [], by simp⟩
  rw [hsplit] at hread hblank
  refine ⟨blank, textLines rest, ?_, fun c hc => hblank c (List.mem_append_left _ hc), ?_⟩
  · rw [linesRead, hread, ← List.append_assoc, textLines_line]
    simp [htrim, hone]
  · intro y hy
    refine List.all_eq_true.mpr fun c hc => hblank c ?_
    exact List.mem_append_right _ (List.mem_cons_of_mem _ (mem_of_mem_textLines hy c hc))

end Lines

/-! ## What the comparison sees of the replacement -/

/-- The changes a tool finds hold as few lines as can be. -/
def DiffTool.Minimal {norm : Str → Str} (tool : DiffTool norm) : Prop :=
  ∀ f g changes, tool.compare f g = .lines changes → Smallest norm (fileLines f) (fileLines g) changes

/-- The replacement leaves a line as it is: it holds no macro, and no carriage return but at its end. -/
def LeftAlone (release line : Str) : Prop :=
  '\r' ∉ trimEnd line ∧ resolved release (trimEnd line) = trimEnd line

instance : DecidableRel LeftAlone := fun release line =>
  inferInstanceAs (Decidable ('\r' ∉ trimEnd line ∧ resolved release (trimEnd line) = trimEnd line))

/-- A line is blank or sets a release, and so is each line that is read in it. -/
def SetsRelease (line : Str) : Prop :=
  gnuIgnores true line = true ∧ ∀ z ∈ linesRead line, gnuIgnores true z = true

/-- What a line of the file becomes. -/
def resolvedLines (release line : Str) : List Str := (linesRead line).map (resolved release)

section Comparison

variable {gnu : GnuDiff} {release raw line : Str} {old : List Str}

theorem IsRelease.ne_nil (hr : IsRelease release) : release ≠ [] := by
  obtain ⟨d, rest, rfl, -⟩ := hr.first
  exact List.cons_ne_nil d rest

theorem IsRelease.not_mem (hr : IsRelease release) {c : Char} (hc : isLineBreak c = true) : c ∉ release := fun h => by
  rw [hr.line c h] at hc
  exact Bool.noConfusion hc

theorem not_mem_resolved (hr : IsRelease release) {c : Char} (hc : isLineBreak c = true) (hdist : c ∉ distMacro)
    (hline : c ∉ line) : c ∉ resolved release line := by
  intro h
  rcases mem_resolved h with h | h | h
  · exact hline h
  · exact hr.not_mem hc h
  · exact hdist h

theorem resolved_eq_nil : resolved release line = [] ↔ line = [] := by
  constructor
  · intro h
    rcases @resolved_cases line release with heq | ⟨before, heq⟩
    · rw [← heq, h]
    · rw [h] at heq
      exact absurd (List.append_eq_nil_iff.mp heq.symm).2 (by decide)
  · rintro rfl
    rfl

/-- The lines of a text are replaced one by one. -/
theorem textLines_resolvedText (hr : IsRelease release) (t : Str) :
    textLines (resolvedText release t) = (textLines t).map (resolved release) := by
  have hone : ∀ {line}, '\n' ∉ line → '\n' ∉ resolved release line := fun h =>
    not_mem_resolved hr rfl (by decide) h
  induction t using line_induction with
  | last line hline =>
      rw [resolvedText_oneLine hline, textLines_oneLine (hone hline), textLines_oneLine hline]
      by_cases hnil : line = []
      · rw [if_pos hnil, if_pos (resolved_eq_nil.mpr hnil)]
        rfl
      · rw [if_neg hnil, if_neg fun h => hnil (resolved_eq_nil.mp h)]
        rfl
  | more line rest hline ih =>
      rw [resolvedText_line hline, textLines_line (hone hline), textLines_line hline, ih, List.map_cons]

/-- A file that is what it is rewritten to holds no carriage return. -/
theorem eq_read_of_eq_raw (hr : IsRelease release)
    (h : resolvedText release (universalNewlines raw) = raw) :
    resolvedText release (universalNewlines raw) = universalNewlines raw := by
  have hreturn : ∀ t : Str, '\r' ∉ t → '\r' ∉ resolvedText release t := by
    intro t
    induction t using line_induction with
    | last line hline =>
        intro ht
        rw [resolvedText_oneLine hline]
        exact not_mem_resolved hr rfl (by decide) ht
    | more line rest hline ih =>
        intro ht
        simp only [List.mem_append, List.mem_cons, not_or] at ht
        rw [resolvedText_line hline]
        simp only [List.mem_append, List.mem_cons, not_or]
        exact ⟨not_mem_resolved hr rfl (by decide) ht.1, ht.2.1, ih ht.2.2⟩
  have hraw : '\r' ∉ raw := h ▸ hreturn _ (not_mem_universalNewlines raw)
  rw [universalNewlines_eq_self hraw] at h ⊢
  exact h

/-- **`textLines_resolved`** — what the file is rewritten to, line by line. -/
theorem textLines_resolved (hr : IsRelease release) :
    textLines (resolvedText release (universalNewlines raw)) = (textLines raw).flatMap (resolvedLines release) := by
  rw [textLines_resolvedText hr, textLines_universalNewlines, List.map_flatMap]
  rfl

theorem keptFirst (hold : ∀ line ∈ old, '\n' ∉ line) :
    KeptFirst trimEnd (resolvedLines release) (fun line => decide (LeftAlone release line)) old := by
  intro line hline hkept
  obtain ⟨hreturn, hsame⟩ := of_decide_eq_true hkept
  obtain ⟨blank, rest, hread, hblank, -⟩ := linesRead_kept hreturn (hold line hline)
  refine ⟨resolved release (trimEnd line ++ blank), rest.map (resolved release), ?_, ?_⟩
  · rw [resolvedLines, hread, List.map_cons]
  · have htrim : trimEnd (trimEnd line) = trimEnd line := List.rdropWhile_idempotent _ _
    rcases @resolved_append (trimEnd line) blank release hblank with h | ⟨-, h⟩
    · rw [h, hsame, htrim]
    · rw [h, trimEnd_append hblank, htrim]

theorem restIgnored (hold : ∀ line ∈ old, '\n' ∉ line) :
    RestIgnored (gnuIgnores true) (resolvedLines release) (fun line => decide (LeftAlone release line)) old := by
  intro line hline hkept y hy
  obtain ⟨hreturn, -⟩ := of_decide_eq_true hkept
  obtain ⟨blank, rest, hread, -, hrest⟩ := linesRead_kept hreturn (hold line hline)
  rw [resolvedLines, hread, List.map_cons, List.tail_cons] at hy
  obtain ⟨z, hz, rfl⟩ := List.mem_map.mp hy
  rw [gnuIgnores, blank_resolved, hrest z hz]
  rfl

/-- A line that has been rewritten reads like a line left alone. -/
theorem leftAlone_of_trimEnd_eq (hr : IsRelease release) {z : Str} (hz : '\r' ∉ z)
    (h : trimEnd line = trimEnd (resolved release z)) : LeftAlone release line := by
  obtain ⟨blank, heq, hblank⟩ := exists_trimEnd (resolved release z)
  have hsub : ∀ c ∈ trimEnd line, c ∈ resolved release z := by
    intro c hc
    rw [h] at hc
    rw [heq]
    exact List.mem_append_left _ hc
  refine ⟨fun hc => not_mem_resolved hr rfl (by decide) hz (hsub _ hc), ?_⟩
  rcases @resolved_cases (trimEnd line) release with hsame | ⟨before, hchanged⟩
  · exact hsame
  · -- the macro would be replaced again
    have htwice := resolved_resolved (z := z) hr
    rcases @resolved_append (trimEnd line) blank release hblank with happend | ⟨hsame, -⟩
    · rw [← h] at heq
      rw [heq, happend, hchanged] at htwice
      have hnil : blank = [] := by
        by_contra hne
        have hlast := congrArg List.getLast? htwice
        rw [List.getLast?_append_of_ne_nil _ (by decide), List.getLast?_append_of_ne_nil _ hne] at hlast
        have hmem : '\x7d' ∈ blank := List.mem_of_getLast? hlast.symm
        exact absurd (hblank _ hmem) (by decide)
      rw [hnil, List.append_nil] at htwice
      rw [hchanged, htwice]
    · exact hsame

theorem apart (hr : IsRelease release) :
    Apart trimEnd (resolvedLines release) (fun line => decide (LeftAlone release line)) old := by
  intro line _ hkept y hy h
  obtain ⟨line', -, hy⟩ := List.mem_flatMap.mp hy
  obtain ⟨z, hz, rfl⟩ := List.mem_map.mp hy
  exact of_decide_eq_false hkept (leftAlone_of_trimEnd_eq hr (not_mem_linesRead hz) h)

theorem forgiven_iff (hr : IsRelease release) :
    Forgiven (gnuIgnores true) (resolvedLines release) line ↔ SetsRelease line := by
  refine and_congr_right fun _ => ?_
  rw [resolvedLines, List.forall_mem_map]
  simp only [gnuIgnores_resolved hr]

/-- **`same_resolved_iff`** — the comparison sees nothing of the replacement exactly when the file is not
rewritten, or is text to the tool and each of its lines is left as it is or sets a release. -/
theorem same_resolved_iff (hminimal : gnu.Minimal) (hr : IsRelease release) :
    gnu.same true (.text (resolvedText release (universalNewlines raw))) (.text raw) = true ↔
      resolvedText release (universalNewlines raw) = raw ∨
        gnu.compare (.text (resolvedText release (universalNewlines raw))) (.text raw) ≠ .binary ∧
          ∀ line ∈ textLines raw, LeftAlone release line ∨ SetsRelease line := by
  rw [GnuDiff.same, Bool.or_eq_true, decide_eq_true_eq, File.text.injEq]
  refine or_congr_right ?_
  cases hcompare : gnu.compare (.text (resolvedText release (universalNewlines raw))) (.text raw) with
  | binary => simp [Comparison.quiet]
  | lines changes =>
      have hsmallest := (hminimal _ _ _ hcompare).swap
      have hnew : fileLines (.text (resolvedText release (universalNewlines raw))) = _ := textLines_resolved hr
      rw [hnew] at hsmallest
      have hold : ∀ line ∈ textLines raw, '\n' ∉ line := fun line hline => not_mem_of_mem_textLines hline
      have hquiet := hsmallest.quiet_iff (keptFirst hold) (apart hr) (restIgnored hold)
        fun _ _ => gnuIgnores_respects
      simp only [forgiven_iff hr, decide_eq_true_eq] at hquiet
      simp only [ne_eq, reduceCtorEq, not_false_eq_true, true_and]
      rw [← hquiet, List.forall_mem_map]
      simp only [Change.mem_swap, Comparison.quiet, gnuDrops, List.all_eq_true]

end Comparison

end HummingbirdRpms
