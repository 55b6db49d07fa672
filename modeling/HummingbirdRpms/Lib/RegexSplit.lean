/-
# HummingbirdRpms.Lib.RegexSplit — what a pattern matches, as a cut of the text.

`Lib.Regex` follows a matcher by positions.  To ask which texts a pattern accepts at all, positions are
in the way: `Way x r w v c c'` says that between the text `x` before it and the text `v` after it the
pattern `r` can match `w`, with the captures `c` becoming `c'` — one clause a constructor, and a
concatenation cuts `w` in two.

**`mem_run_iff`** — the ways a matcher finds from the end of `x` on are these cuts, no more and no fewer.
Which of them comes first is not said here; where a text has only one, this is all there is to say.
-/
import HummingbirdRpms.Lib.Regex

namespace HummingbirdRpms.Lib.Regex

open HummingbirdRpms.Lib.Text

/-- A non-empty word over a class. -/
def WordOver (p : Char → Bool) (w : Str) : Prop := w ≠ [] ∧ ∀ c ∈ w, p c = true

/-- `r` can match `w` between `x` and `v`, with the captures `c` becoming `c'`. -/
def Way (x : Str) : Re → Str → Str → List (Nat × Str) → List (Nat × Str) → Prop
  | .eps, w, _, c, c' => w = [] ∧ c' = c
  | .chr p, w, _, c, c' => (∃ a, w = [a] ∧ p a = true) ∧ c' = c
  | .lit u, w, _, c, c' => w = u ∧ c' = c
  | .cat r r', w, v, c, c' =>
      ∃ w₁ w₂ c₁, w = w₁ ++ w₂ ∧ Way x r w₁ (w₂ ++ v) c c₁ ∧ Way (x ++ w₁) r' w₂ v c₁ c'
  | .alt r r', w, v, c, c' => Way x r w v c c' ∨ Way x r' w v c c'
  | .many _ p, w, _, c, c' => (∀ a ∈ w, p a = true) ∧ c' = c
  | .group i r, w, v, c, c' => ∃ c₁, Way x r w v c c₁ ∧ c' = (i, w) :: c₁
  | .backref i, w, _, c, c' => w = (c.lookup i).getD [] ∧ c' = c
  | .notAfter p, w, _, c, c' => inClass p x.getLast? = false ∧ w = [] ∧ c' = c
  | .notBefore p, w, v, c, c' => inClass p v.head? = false ∧ w = [] ∧ c' = c
  | .wordB q, w, v, c, c' => inClass q x.getLast? ≠ inClass q v.head? ∧ w = [] ∧ c' = c
  | .bos, w, _, c, c' => x = [] ∧ w = [] ∧ c' = c
  | .bol, w, _, c, c' => (x = [] ∨ x.getLast? = some '\n') ∧ w = [] ∧ c' = c
  | .eol, w, v, c, c' => (v = [] ∨ v.head? = some '\n') ∧ w = [] ∧ c' = c
  | .eos, w, v, c, c' => v = [] ∧ w = [] ∧ c' = c
  | .eot, w, v, c, c' => (v = [] ∨ v = ['\n']) ∧ w = [] ∧ c' = c

section

variable {x u v w : Str} {c c' : List (Nat × Str)} {e : St} {p : Char → Bool}

theorem drop_length_append : (x ++ u).drop x.length = u := List.drop_left

theorem getElem?_length_append : (x ++ u)[x.length]? = u.head? := by
  rw [List.getElem?_append_right le_rfl, Nat.sub_self, List.head?_eq_getElem?]

theorem prev?_length_append : prev? (x ++ u) x.length = x.getLast? := by
  rw [prev?]
  split
  · rename_i h
    rw [List.length_eq_zero_iff.mp h]
    rfl
  · rename_i h
    rw [List.getElem?_append_left (by omega), List.getLast?_eq_getElem?]

theorem length_append_le_iff : (x ++ u).length ≤ x.length ↔ u = [] := by
  rw [List.length_append, ← List.length_eq_zero_iff]
  omega

/-- An assertion takes nothing: it holds where the matcher stands or fails. -/
theorem mem_ite_cut {p : Prop} [Decidable p] {q : Str → Prop} (h : p ↔ q u) :
    e ∈ (if p then [(⟨x.length, c⟩ : St)] else []) ↔
      ∃ w v c', u = w ++ v ∧ (q v ∧ w = [] ∧ c' = c) ∧ e = ⟨x.length + w.length, c'⟩ := by
  rw [List.mem_ite_nil_right, List.mem_singleton, h]
  constructor
  · rintro ⟨hq, rfl⟩
    exact ⟨[], u, c, rfl, ⟨hq, rfl, rfl⟩, rfl⟩
  · rintro ⟨w, v, c', rfl, ⟨hq, rfl, rfl⟩, rfl⟩
    exact ⟨hq, rfl⟩

/-- A fixed word is taken where it stands. -/
theorem mem_ite_prefix {a : Str} :
    e ∈ (if a.isPrefixOf u then [(⟨x.length + a.length, c⟩ : St)] else []) ↔
      ∃ w v c', u = w ++ v ∧ (w = a ∧ c' = c) ∧ e = ⟨x.length + w.length, c'⟩ := by
  rw [List.mem_ite_nil_right, List.mem_singleton, List.isPrefixOf_iff_prefix]
  constructor
  · rintro ⟨⟨v, rfl⟩, rfl⟩
    exact ⟨a, v, c, rfl, ⟨rfl, rfl⟩, rfl⟩
  · rintro ⟨w, v, c', rfl, ⟨rfl, rfl⟩, rfl⟩
    exact ⟨List.prefix_append w v, rfl⟩

theorem length_le_span_iff {k : Nat} :
    k ≤ spanLen (x ++ u) p x.length ↔ k ≤ u.length ∧ ∀ a ∈ u.take k, p a = true := by
  constructor
  · intro h
    have hle : k ≤ u.length := by
      have hspan := (List.takeWhile_prefix p (l := (x ++ u).drop x.length)).length_le
      rw [drop_length_append] at hspan
      rw [spanLen, drop_length_append] at h
      exact h.trans hspan
    refine ⟨hle, fun a ha => ?_⟩
    obtain ⟨i, hi, rfl⟩ := List.getElem_of_mem ha
    have hik : i < k := by simpa using (lt_of_lt_of_le hi (List.length_take_le ..))
    obtain ⟨b, hget, hp⟩ := inClass_iff.mp (spanLen_spec (lt_of_lt_of_le hik h))
    rw [← List.getElem?_drop, drop_length_append, List.getElem?_eq_getElem (by omega)] at hget
    rw [List.getElem_take, Option.some.inj hget]
    exact hp
  · rintro ⟨hle, hall⟩
    refine le_spanLen fun j hj => ?_
    rw [← List.getElem?_drop, drop_length_append, List.getElem?_eq_getElem (by omega)]
    exact hall _ (List.mem_take_iff_getElem.mpr ⟨j, by omega, rfl⟩)

/-- The matcher's ways are the cuts of the text. -/
theorem mem_run_iff {r : Re} :
    e ∈ run (x ++ u) r ⟨x.length, c⟩ ↔
      ∃ w v c', u = w ++ v ∧ Way x r w v c c' ∧ e = ⟨x.length + w.length, c'⟩ := by
  induction r generalizing x u c e with
  | eps =>
      rw [mem_run_eps]
      constructor
      · rintro rfl
        exact ⟨[], u, c, rfl, ⟨rfl, rfl⟩, rfl⟩
      · rintro ⟨w, v, c', rfl, ⟨rfl, rfl⟩, rfl⟩
        rfl
  | chr p =>
      rw [mem_run_chr, getElem?_length_append, inClass_iff]
      constructor
      · rintro ⟨⟨a, ha, hp⟩, rfl⟩
        obtain ⟨v, rfl⟩ := List.head?_eq_some_iff.mp ha
        exact ⟨[a], v, c, rfl, ⟨⟨a, rfl, hp⟩, rfl⟩, rfl⟩
      · rintro ⟨w, v, c', rfl, ⟨⟨a, rfl, hp⟩, rfl⟩, rfl⟩
        exact ⟨⟨a, rfl, hp⟩, rfl⟩
  | lit a =>
      rw [run_lit, drop_length_append]
      exact mem_ite_prefix
  | cat r r' ih ih' =>
      rw [mem_run_cat]
      constructor
      · rintro ⟨m, hm, he⟩
        obtain ⟨w₁, v₁, c₁, rfl, h₁, rfl⟩ := ih.mp hm
        rw [← List.append_assoc, ← List.length_append] at he
        obtain ⟨w₂, v, c', rfl, h₂, rfl⟩ := ih'.mp he
        refine ⟨w₁ ++ w₂, v, c', (List.append_assoc ..).symm, ⟨w₁, w₂, c₁, rfl, h₁, h₂⟩, ?_⟩
        rw [List.length_append, List.length_append, Nat.add_assoc]
      · rintro ⟨_, v, c', rfl, ⟨w₁, w₂, c₁, rfl, h₁, h₂⟩, rfl⟩
        refine ⟨⟨x.length + w₁.length, c₁⟩, ih.mpr ⟨w₁, w₂ ++ v, c₁, List.append_assoc .., h₁, rfl⟩, ?_⟩
        have he := ih'.mpr ⟨w₂, v, c', rfl, h₂, rfl⟩
        rw [List.append_assoc, ← List.append_assoc w₁, List.length_append, Nat.add_assoc] at he
        rwa [List.length_append]
  | alt r r' ih ih' =>
      rw [mem_run_alt, ih, ih']
      constructor
      · rintro (⟨w, v, c', hu, h, he⟩ | ⟨w, v, c', hu, h, he⟩)
        · exact ⟨w, v, c', hu, .inl h, he⟩
        · exact ⟨w, v, c', hu, .inr h, he⟩
      · rintro ⟨w, v, c', hu, h | h, he⟩
        · exact .inl ⟨w, v, c', hu, h, he⟩
        · exact .inr ⟨w, v, c', hu, h, he⟩
  | many greedy p =>
      rw [mem_run_many]
      constructor
      · rintro ⟨k, hk, rfl⟩
        obtain ⟨hle, hall⟩ := length_le_span_iff.mp hk
        refine ⟨u.take k, u.drop k, c, (List.take_append_drop k u).symm, ⟨hall, rfl⟩, ?_⟩
        rw [List.length_take_of_le hle]
      · rintro ⟨w, v, c', rfl, ⟨hall, rfl⟩, rfl⟩
        refine ⟨w.length, length_le_span_iff.mpr ⟨by simp, ?_⟩, rfl⟩
        rwa [List.take_left]
  | group i r ih =>
      rw [mem_run_group]
      constructor
      · rintro ⟨m, hm, rfl⟩
        obtain ⟨w, v, c₁, rfl, h, rfl⟩ := ih.mp hm
        refine ⟨w, v, (i, w) :: c₁, rfl, ⟨c₁, h, rfl⟩, ?_⟩
        rw [drop_length_append, Nat.add_sub_cancel_left, List.take_left]
      · rintro ⟨w, v, _, rfl, ⟨c₁, h, rfl⟩, rfl⟩
        refine ⟨_, ih.mpr ⟨w, v, c₁, rfl, h, rfl⟩, ?_⟩
        rw [drop_length_append, Nat.add_sub_cancel_left, List.take_left]
  | backref i =>
      show e ∈ (if ((c.lookup i).getD []).isPrefixOf ((x ++ u).drop x.length) then _ else []) ↔ _
      rw [drop_length_append]
      exact mem_ite_prefix
  | notAfter p =>
      rw [mem_run_notAfter, prev?_length_append]
      constructor
      · rintro ⟨hp, rfl⟩
        exact ⟨[], u, c, rfl, ⟨hp, rfl, rfl⟩, rfl⟩
      · rintro ⟨w, v, c', rfl, ⟨hp, rfl, rfl⟩, rfl⟩
        exact ⟨hp, rfl⟩
  | notBefore p =>
      show e ∈ (if inClass p (x ++ u)[x.length]? then [] else [_]) ↔ _
      rw [getElem?_length_append, ← ite_not]
      exact mem_ite_cut (q := fun v => inClass p v.head? = false) (Bool.not_eq_true _).to_iff
  | wordB q =>
      rw [mem_run_wordB, prev?_length_append, getElem?_length_append]
      constructor
      · rintro ⟨hq, rfl⟩
        exact ⟨[], u, c, rfl, ⟨hq, rfl, rfl⟩, rfl⟩
      · rintro ⟨w, v, c', rfl, ⟨hq, rfl, rfl⟩, rfl⟩
        exact ⟨hq, rfl⟩
  | bos => exact mem_ite_cut (q := fun _ => x = []) List.length_eq_zero_iff
  | bol =>
      refine mem_ite_cut (q := fun _ => x = [] ∨ x.getLast? = some '\n') ?_
      rw [prev?_length_append, List.length_eq_zero_iff]
  | eol =>
      refine mem_ite_cut (q := fun v => v = [] ∨ v.head? = some '\n') ?_
      rw [getElem?_length_append, length_append_le_iff]
  | eos => exact mem_ite_cut (q := fun v => v = []) length_append_le_iff
  | eot =>
      refine mem_ite_cut (q := fun v => v = [] ∨ v = ['\n']) ?_
      rw [drop_length_append, length_append_le_iff]

/-- The ways from a position on are cuts of what follows it. -/
theorem mem_run_at {t : Str} {i : Nat} {r : Re} (hi : i ≤ t.length) : e ∈ run t r ⟨i, c⟩ ↔
    ∃ w v c', t.drop i = w ++ v ∧ Way (t.take i) r w v c c' ∧ e = ⟨i + w.length, c'⟩ := by
  have hlen : (t.take i).length = i := List.length_take_of_le hi
  have hiff := mem_run_iff (x := t.take i) (u := t.drop i) (r := r) (c := c) (e := e)
  rwa [List.take_append_drop, hlen] at hiff

/-! ## Patterns put together -/

variable {r : Re} {rs : List Re}

theorem way_oneOf : Way x (Re.oneOf rs) w v c c' ↔ ∃ r ∈ rs, Way x r w v c c' := by
  induction rs with
  | nil => simp [Re.oneOf, Way]
  | cons r rs ih =>
      cases rs with
      | nil => simp [Re.oneOf]
      | cons r' rs =>
          rw [Re.oneOf, Way, ih]
          simp

theorem way_seq_cons : Way x (Re.seq (r :: rs)) w v c c' ↔
    ∃ w₁ w₂ c₁, w = w₁ ++ w₂ ∧ Way x r w₁ (w₂ ++ v) c c₁ ∧ Way (x ++ w₁) (Re.seq rs) w₂ v c₁ c' := by
  cases rs with
  | nil =>
      constructor
      · intro h
        refine ⟨w, [], c', (List.append_nil w).symm, h, rfl, rfl⟩
      · rintro ⟨w₁, w₂, c₁, rfl, h, rfl, rfl⟩
        rwa [List.append_nil]
  | cons r' rs => exact Iff.rfl

/-- One or more characters of a class, greedy or lazy, are a word over it. -/
theorem way_word {greedy : Bool} : Way x (.cat (.chr p) (.many greedy p)) w v c c' ↔
    WordOver p w ∧ c' = c := by
  constructor
  · rintro ⟨_, w₂, _, rfl, ⟨⟨a, rfl, ha⟩, rfl⟩, hall, rfl⟩
    refine ⟨⟨by simp, ?_⟩, rfl⟩
    intro b hb
    rcases List.mem_cons.mp hb with rfl | hb
    · exact ha
    · exact hall b hb
  · rintro ⟨⟨hne, hall⟩, rfl⟩
    obtain ⟨a, w, rfl⟩ := List.exists_cons_of_ne_nil hne
    exact ⟨[a], w, c', rfl, ⟨⟨a, rfl, hall a List.mem_cons_self⟩, rfl⟩,
      fun b hb => hall b (List.mem_cons_of_mem a hb), rfl⟩

theorem way_some1 : Way x (Re.some1 p) w v c c' ↔ WordOver p w ∧ c' = c := way_word

/-- A group captures what it matches. -/
theorem way_group_word {greedy : Bool} {i : Nat} :
    Way x (.group i (.cat (.chr p) (.many greedy p))) w v c c' ↔ WordOver p w ∧ c' = (i, w) :: c := by
  constructor
  · rintro ⟨c₁, h, rfl⟩
    obtain ⟨hw, rfl⟩ := way_word.mp h
    exact ⟨hw, rfl⟩
  · rintro ⟨hw, rfl⟩
    exact ⟨c, way_word.mpr ⟨hw, rfl⟩, rfl⟩

/-- Where a pattern without choice in it matches at all, the match is that one. -/
theorem matchAt_zero_iff {t : Str} {m : Match} {α : Type} {P : α → Prop} {caps : α → List (Nat × Str)}
    (hway : ∀ w v c', t = w ++ v → (Way [] r w v [] c' ↔ v = [] ∧ ∃ a, P a ∧ c' = caps a))
    (hunique : ∀ a b, P a → P b → a = b) :
    matchAt r t 0 = some m ↔ ∃ a, P a ∧ m = ⟨0, t.length, caps a⟩ := by
  have hmem : ∀ e, e ∈ run t r ⟨0, []⟩ ↔ ∃ a, P a ∧ e = ⟨t.length, caps a⟩ := by
    intro e
    rw [show e ∈ run t r ⟨0, []⟩ ↔ _ from mem_run_iff (x := []) (u := t)]
    constructor
    · rintro ⟨w, v, c', ht, h, rfl⟩
      obtain ⟨rfl, a, ha, rfl⟩ := (hway w v c' ht).mp h
      rw [List.append_nil] at ht
      refine ⟨a, ha, ?_⟩
      rw [ht, List.length_nil, Nat.zero_add]
    · rintro ⟨a, ha, rfl⟩
      have ht : t = t ++ [] := (List.append_nil t).symm
      refine ⟨t, [], caps a, ht, (hway t [] (caps a) ht).mpr ⟨rfl, a, ha, rfl⟩, ?_⟩
      rw [List.length_nil, Nat.zero_add]
  constructor
  · intro h
    rw [matchAt, Option.map_eq_some_iff] at h
    obtain ⟨e, he, rfl⟩ := h
    obtain ⟨a, ha, rfl⟩ := (hmem e).mp (List.mem_of_mem_head? he)
    exact ⟨a, ha, rfl⟩
  · rintro ⟨a, ha, rfl⟩
    obtain ⟨e, he⟩ := Option.isSome_iff_exists.mp (head?_isSome_of_mem ((hmem _).mpr ⟨a, ha, rfl⟩))
    obtain ⟨b, hb, rfl⟩ := (hmem e).mp (List.mem_of_mem_head? he)
    rw [matchAt_of_head? he, hunique a b ha hb]

end

/-! ## Words cut off a text -/

section

variable {p : Char → Bool} {a b x y : Str}

/-- The part of a text in a class up to a character that is not is determined. -/
theorem word_cancel (ha : ∀ c ∈ a, p c = true) (hb : ∀ c ∈ b, p c = true)
    (hx : inClass p x.head? = false) (hy : inClass p y.head? = false) (h : a ++ x = b ++ y) :
    a = b ∧ x = y := by
  have htake : ∀ {w u : Str}, (∀ c ∈ w, p c = true) → inClass p u.head? = false →
      (w ++ u).takeWhile p = w := by
    intro w u hw hu
    rw [List.takeWhile_append_of_pos hw]
    cases u with
    | nil => simp
    | cons c u => simp [show p c = false from hu]
  have hab := congrArg (List.takeWhile p) h
  rw [htake ha hx, htake hb hy] at hab
  subst hab
  exact ⟨rfl, List.append_cancel_left h⟩

/-- And so is the part in a class from a character on that is not. -/
theorem word_cancel_right (ha : ∀ c ∈ a, p c = true) (hb : ∀ c ∈ b, p c = true)
    (hx : inClass p x.getLast? = false) (hy : inClass p y.getLast? = false) (h : x ++ a = y ++ b) :
    x = y ∧ a = b := by
  have hrev := congrArg List.reverse h
  rw [List.reverse_append, List.reverse_append] at hrev
  obtain ⟨h₁, h₂⟩ := word_cancel (fun c hc => ha c (List.mem_reverse.mp hc))
    (fun c hc => hb c (List.mem_reverse.mp hc)) (by rwa [List.head?_reverse])
    (by rwa [List.head?_reverse]) hrev
  exact ⟨List.reverse_inj.mp h₂, List.reverse_inj.mp h₁⟩

/-- A word begins with a character of its class, which is in no class disjoint from it. -/
theorem WordOver.head?_append {q : Char → Bool} {w : Str} (h : WordOver p w)
    (hpq : ∀ c, p c = true → q c = false) (v : Str) : inClass q (w ++ v).head? = false := by
  obtain ⟨c, w, rfl⟩ := List.exists_cons_of_ne_nil h.1
  exact hpq c (h.2 c List.mem_cons_self)

theorem WordOver.getLast?_append {q : Char → Bool} {w : Str} (h : WordOver p w)
    (hpq : ∀ c, p c = true → q c = false) (v : Str) : inClass q (v ++ w).getLast? = false := by
  rw [List.getLast?_append_of_ne_nil _ h.1, List.getLast?_eq_some_getLast h.1]
  exact hpq _ (h.2 _ (List.getLast_mem h.1))

theorem getLast?_of_sign {c : Char} (h : p c = false) : inClass p (x ++ [c]).getLast? = false := by
  rw [List.getLast?_concat]
  exact h

end

end HummingbirdRpms.Lib.Regex
