/-
# HummingbirdRpms.Lib.Regex — backtracking regular expressions with their priorities.

A pattern of a scripting language is not a language: which substring it captures depends on the order
in which a backtracking matcher tries its choices.  `run t r s` therefore returns EVERY way `r`
matches the text `t` from the state `s`, in the order the matcher tries them — greedy repetition
longest first, lazy repetition shortest first, the left branch of an alternation before the right —
and the match is the head of that list.

* `matchAt`, `search`, `finditer`, `sub` and `sub1` are the library calls built from it;
* `head?_cat` says that a concatenation backtracks into its first part until the second matches;
* **`finditer_covers`** — a position at which the pattern matches is the start of a reported match or
  lies strictly inside one: scanning left to right skips nothing else.

Repetition is over character classes, which is all the patterns of the programs modelled here use,
and so is look-behind.  A match is never empty in the uses of `finditer`, so the special rule for
adjacent empty matches is not modelled.
-/
import HummingbirdRpms.Lib.Text

namespace HummingbirdRpms.Lib.Regex

open HummingbirdRpms.Lib.Text

/-- The syntax of a pattern. -/
inductive Re where
  | eps
  /-- One character of a class. -/
  | chr (p : Char → Bool)
  /-- A literal string. -/
  | lit (w : Str)
  | cat (r s : Re)
  | alt (r s : Re)
  /-- `[p]*` (greedy) or `[p]*?` (lazy). -/
  | many (greedy : Bool) (p : Char → Bool)
  /-- The `i`-th capture group. -/
  | group (i : Nat) (r : Re)
  /-- `\i`: what group `i` captured, again. -/
  | backref (i : Nat)
  /-- `(?<![p])`: the character before, if any, is not in the class. -/
  | notAfter (p : Char → Bool)
  /-- `(?![p])`: the next character, if any, is not in the class. -/
  | notBefore (p : Char → Bool)
  /-- `\b` for the word class `w`. -/
  | wordB (w : Char → Bool)
  /-- `^` without `re.MULTILINE`. -/
  | bos
  /-- `^` with `re.MULTILINE`. -/
  | bol
  /-- `$` with `re.MULTILINE`. -/
  | eol
  /-- The end of the text. -/
  | eos
  /-- `$` without `re.MULTILINE`: the end of the text, or before a line break that ends it. -/
  | eot

namespace Re

/-- Concatenation of a list of patterns. -/
def seq : List Re → Re
  | [] => .eps
  | [r] => r
  | r :: s :: rs => .cat r (seq (s :: rs))

/-- `r?`, greedy. -/
def opt (r : Re) : Re := .alt r .eps

/-- The alternatives of a list, tried in order. -/
def oneOf : List Re → Re
  | [] => .chr fun _ => false
  | [r] => r
  | r :: s :: rs => .alt r (oneOf (s :: rs))

/-- Whether a character matches a lower-case letter or another character under `re.IGNORECASE`. -/
def foldEq (c d : Char) : Bool :=
  d = c || lowerChar d = c || (c = 's' && d.toNat = 0x17F) || (c = 'k' && d.toNat = 0x212A) ||
    (c = 'i' && (d.toNat = 0x130 || d.toNat = 0x131))

/-- A literal in lower case, under `re.IGNORECASE`. -/
def ilit (w : Str) : Re := seq (w.map fun c => .chr (foldEq c))

/-- `r{n}` -/
def times (n : Nat) (r : Re) : Re := seq (List.replicate n r)

/-- `[p]+`, greedy. -/
def some1 (p : Char → Bool) : Re := .cat (.chr p) (.many true p)

end Re

/-- Where the matcher stands and what its groups have captured, the latest capture first. -/
structure St where
  pos : Nat
  caps : List (Nat × Str) := []

/-- `[p]` repeated as often as the text at `pos` allows. -/
def spanLen (t : Str) (p : Char → Bool) (pos : Nat) : Nat := ((t.drop pos).takeWhile p).length

/-- The character before `pos`. -/
def prev? (t : Str) (pos : Nat) : Option Char := if pos = 0 then none else t[pos - 1]?

/-- Whether the character, if there is one, is in the class. -/
def inClass (p : Char → Bool) (c : Option Char) : Bool := c.any p

/-- Every way `r` matches `t` from `s`, in the order a backtracking matcher tries them. -/
def run (t : Str) : Re → St → List St
  | .eps, s => [s]
  | .chr p, s => if inClass p t[s.pos]? then [{ s with pos := s.pos + 1 }] else []
  | .lit w, s => if w.isPrefixOf (t.drop s.pos) then [{ s with pos := s.pos + w.length }] else []
  | .cat r r', s => (run t r s).flatMap (run t r')
  | .alt r r', s => run t r s ++ run t r' s
  | .many greedy p, s =>
      let ks := List.range (spanLen t p s.pos + 1)
      (if greedy then ks.reverse else ks).map fun k => { s with pos := s.pos + k }
  | .group i r, s =>
      (run t r s).map fun e =>
        { e with caps := (i, (t.drop s.pos).take (e.pos - s.pos)) :: e.caps }
  | .backref i, s =>
      let w := (s.caps.lookup i).getD []
      if w.isPrefixOf (t.drop s.pos) then [{ s with pos := s.pos + w.length }] else []
  | .notAfter p, s => if inClass p (prev? t s.pos) then [] else [s]
  | .notBefore p, s => if inClass p t[s.pos]? then [] else [s]
  | .wordB w, s => if inClass w (prev? t s.pos) != inClass w t[s.pos]? then [s] else []
  | .bos, s => if s.pos = 0 then [s] else []
  | .bol, s => if s.pos = 0 ∨ prev? t s.pos = some '\n' then [s] else []
  | .eol, s => if t.length ≤ s.pos ∨ t[s.pos]? = some '\n' then [s] else []
  | .eos, s => if t.length ≤ s.pos then [s] else []
  | .eot, s => if t.length ≤ s.pos ∨ t.drop s.pos = ['\n'] then [s] else []

/-- A match: where it starts and stops, and its captures. -/
structure Match where
  start : Nat
  stop : Nat
  caps : List (Nat × Str)

namespace Match

/-- `m.group(i)`, empty when the group took no part in the match. -/
def group (m : Match) (i : Nat) : Str := (m.caps.lookup i).getD []

/-- `m.group(0)`. -/
def whole (m : Match) (t : Str) : Str := (t.drop m.start).take (m.stop - m.start)

end Match

/-- `r.match` anchored at `i`: the first of the ways. -/
def matchAt (r : Re) (t : Str) (i : Nat) : Option Match :=
  (run t r ⟨i, []⟩).head?.map fun e => ⟨i, e.pos, e.caps⟩

/-- `r.search`: the leftmost position that matches. -/
def search (r : Re) (t : Str) : Option Match :=
  (List.range (t.length + 1)).findSome? (matchAt r t)

/-- The matches found scanning from `i` with `fuel` steps left, each search resuming where the last
match stopped. -/
def scan (r : Re) (t : Str) : Nat → Nat → List Match
  | 0, _ => []
  | fuel + 1, i =>
      if t.length < i then []
      else
        match matchAt r t i with
        | some m => m :: scan r t fuel (max m.stop (i + 1))
        | none => scan r t fuel (i + 1)

/-- `r.finditer`. -/
def finditer (r : Re) (t : Str) : List Match := scan r t (t.length + 1) 0

/-- The text with each of the matches replaced, from position `i` on. -/
def splice (t : Str) (f : Match → Str) : List Match → Nat → Str
  | [], i => t.drop i
  | m :: ms, i => (t.drop i).take (m.start - i) ++ f m ++ splice t f ms m.stop

/-- `r.sub(f, t)`. -/
def sub (r : Re) (f : Match → Str) (t : Str) : Str := splice t f (finditer r t) 0

/-- The text between the matches, from position `i` on. -/
def pieces (t : Str) : List Match → Nat → List Str
  | [], i => [t.drop i]
  | m :: ms, i => (t.drop i).take (m.start - i) :: pieces t ms m.stop

/-- `r.split(t)`, for a pattern without groups. -/
def split (r : Re) (t : Str) : List Str := pieces t (finditer r t) 0

/-- `r.sub(f, t, count=1)`. -/
def sub1 (r : Re) (f : Match → Str) (t : Str) : Str := splice t f (search r t).toList 0

theorem inClass_iff {p : Char → Bool} {c : Option Char} :
    inClass p c = true ↔ ∃ x, c = some x ∧ p x = true := by
  cases c <;> simp [inClass]

/-! ## What a run can do, constructor by constructor -/

section Run

variable {t : Str} {s e : St}

theorem run_eps : run t .eps s = [s] := rfl

theorem run_chr {p : Char → Bool} :
    run t (.chr p) s = if inClass p t[s.pos]? then [{ s with pos := s.pos + 1 }] else [] := rfl

theorem run_lit {w : Str} :
    run t (.lit w) s =
      if w.isPrefixOf (t.drop s.pos) then [{ s with pos := s.pos + w.length }] else [] := rfl

theorem run_cat {r r' : Re} : run t (.cat r r') s = (run t r s).flatMap (run t r') := rfl

theorem run_alt {r r' : Re} : run t (.alt r r') s = run t r s ++ run t r' s := rfl

theorem run_many {g : Bool} {p : Char → Bool} :
    run t (.many g p) s =
      (if g then (List.range (spanLen t p s.pos + 1)).reverse
        else List.range (spanLen t p s.pos + 1)).map fun k => { s with pos := s.pos + k } := rfl

theorem run_group {i : Nat} {r : Re} :
    run t (.group i r) s = (run t r s).map fun e =>
      { e with caps := (i, (t.drop s.pos).take (e.pos - s.pos)) :: e.caps } := rfl

theorem run_notAfter {p : Char → Bool} :
    run t (.notAfter p) s = if inClass p (prev? t s.pos) then [] else [s] := rfl

theorem run_wordB {w : Char → Bool} :
    run t (.wordB w) s = if inClass w (prev? t s.pos) != inClass w t[s.pos]? then [s] else [] :=
  rfl

@[simp] theorem mem_run_eps : e ∈ run t .eps s ↔ e = s := by simp [run_eps]

theorem mem_run_chr {p : Char → Bool} :
    e ∈ run t (.chr p) s ↔ inClass p t[s.pos]? = true ∧ e = { s with pos := s.pos + 1 } := by
  rw [run_chr]
  split <;> simp_all

theorem mem_run_lit {w : Str} :
    e ∈ run t (.lit w) s ↔ w <+: t.drop s.pos ∧ e = { s with pos := s.pos + w.length } := by
  rw [run_lit]
  split <;> simp_all

/-- A literal matches where the text has it. -/
theorem run_lit_of_drop {w u : Str} (h : t.drop s.pos = w ++ u) :
    run t (.lit w) s = [{ s with pos := s.pos + w.length }] := by
  rw [run_lit, h, if_pos (by simp)]

theorem run_lit_nil {w : Str} (h : ¬ w <+: t.drop s.pos) : run t (.lit w) s = [] := by
  rw [run_lit, if_neg (by simpa using h)]

theorem mem_run_cat {r r' : Re} :
    e ∈ run t (.cat r r') s ↔ ∃ m ∈ run t r s, e ∈ run t r' m := by
  rw [run_cat, List.mem_flatMap]

theorem mem_run_alt {r r' : Re} : e ∈ run t (.alt r r') s ↔ e ∈ run t r s ∨ e ∈ run t r' s := by
  rw [run_alt, List.mem_append]

theorem mem_run_many {g : Bool} {p : Char → Bool} :
    e ∈ run t (.many g p) s ↔
      ∃ k ≤ spanLen t p s.pos, e = { s with pos := s.pos + k } := by
  rw [run_many]
  cases g <;> simp [Nat.lt_succ_iff, eq_comm]

theorem mem_run_group {i : Nat} {r : Re} :
    e ∈ run t (.group i r) s ↔
      ∃ m ∈ run t r s,
        e = { m with caps := (i, (t.drop s.pos).take (m.pos - s.pos)) :: m.caps } := by
  rw [run_group]
  simp [eq_comm]

theorem mem_run_notAfter {p : Char → Bool} :
    e ∈ run t (.notAfter p) s ↔ inClass p (prev? t s.pos) = false ∧ e = s := by
  rw [run_notAfter]
  split <;> simp_all

theorem mem_run_bos : e ∈ run t .bos s ↔ s.pos = 0 ∧ e = s := by
  show e ∈ (if s.pos = 0 then [s] else []) ↔ _
  split <;> simp_all

theorem run_eot : run t .eot s = if t.length ≤ s.pos ∨ t.drop s.pos = ['\n'] then [s] else [] := rfl

theorem mem_run_eot : e ∈ run t .eot s ↔ (t.length ≤ s.pos ∨ t.drop s.pos = ['\n']) ∧ e = s := by
  rw [run_eot, List.mem_ite_nil_right, List.mem_singleton]

theorem run_bol : run t .bol s = if s.pos = 0 ∨ prev? t s.pos = some '\n' then [s] else [] := rfl

theorem mem_run_bol : e ∈ run t .bol s ↔ (s.pos = 0 ∨ prev? t s.pos = some '\n') ∧ e = s := by
  rw [run_bol, List.mem_ite_nil_right, List.mem_singleton]

theorem run_eol : run t .eol s = if t.length ≤ s.pos ∨ t[s.pos]? = some '\n' then [s] else [] := rfl

theorem mem_run_eol : e ∈ run t .eol s ↔ (t.length ≤ s.pos ∨ t[s.pos]? = some '\n') ∧ e = s := by
  rw [run_eol, List.mem_ite_nil_right, List.mem_singleton]

theorem mem_run_wordB {w : Char → Bool} :
    e ∈ run t (.wordB w) s ↔
      inClass w (prev? t s.pos) ≠ inClass w t[s.pos]? ∧ e = s := by
  rw [run_wordB]
  split <;> simp_all

theorem mem_run_seq_cons {r : Re} {rs : List Re} :
    e ∈ run t (Re.seq (r :: rs)) s ↔ ∃ m ∈ run t r s, e ∈ run t (Re.seq rs) m := by
  cases rs with
  | nil => simp [Re.seq]
  | cons r' rs => exact mem_run_cat

theorem mem_run_oneOf {rs : List Re} : e ∈ run t (Re.oneOf rs) s ↔ ∃ r ∈ rs, e ∈ run t r s := by
  induction rs with
  | nil => simp [Re.oneOf, mem_run_chr, inClass]
  | cons r rs ih =>
      cases rs with
      | nil => simp [Re.oneOf]
      | cons r' rs =>
          rw [Re.oneOf, mem_run_alt, ih]
          simp

theorem mem_run_opt {r : Re} : e ∈ run t (Re.opt r) s ↔ e ∈ run t r s ∨ e = s := by
  rw [Re.opt, mem_run_alt, mem_run_eps]

/-- A literal matches, character by character, whatever characters count as the same. -/
theorem mem_run_letters {same : Char → Char → Bool} {w : Str} :
    e ∈ run t (Re.seq (w.map fun c => .chr (same c))) s ↔
      ∃ x, x <+: t.drop s.pos ∧ List.Forall₂ (fun c d => same c d = true) w x ∧
        e = { s with pos := s.pos + w.length } := by
  induction w generalizing s with
  | nil =>
      constructor
      · intro h
        exact ⟨[], List.nil_prefix, .nil, mem_run_eps.mp h⟩
      · rintro ⟨_, _, _, rfl⟩
        exact mem_run_eps.mpr rfl
  | cons a w ih =>
      rw [List.map_cons, mem_run_seq_cons]
      constructor
      · rintro ⟨m, hm, he⟩
        obtain ⟨hc, rfl⟩ := mem_run_chr.mp hm
        obtain ⟨c, hget, heq⟩ := inClass_iff.mp hc
        obtain ⟨hlt, rfl⟩ := List.getElem?_eq_some_iff.mp hget
        obtain ⟨x, hx, hall, rfl⟩ := ih.mp he
        refine ⟨t[s.pos] :: x, ?_, .cons heq hall, ?_⟩
        · rw [List.drop_eq_getElem_cons hlt]
          exact List.cons_prefix_cons.mpr ⟨rfl, hx⟩
        · simp [Nat.add_assoc, Nat.add_comm 1]
      · rintro ⟨x, hx, hall, rfl⟩
        cases hall with
        | cons heq hall =>
            rename_i c x
            have hlt : s.pos < t.length := by
              have := hx.length_le
              simp only [List.length_cons, List.length_drop] at this
              omega
            rw [List.drop_eq_getElem_cons hlt] at hx
            obtain ⟨hc, hx⟩ := List.cons_prefix_cons.mp hx
            refine ⟨{ s with pos := s.pos + 1 }, mem_run_chr.mpr ⟨?_, rfl⟩, ih.mpr ⟨x, hx, hall, ?_⟩⟩
            · exact inClass_iff.mpr ⟨t[s.pos], List.getElem?_eq_getElem hlt, hc ▸ heq⟩
            · simp [Nat.add_assoc, Nat.add_comm 1]

/-- A literal under `re.IGNORECASE` matches, character by character. -/
theorem mem_run_ilit {w : Str} :
    e ∈ run t (Re.ilit w) s ↔
      ∃ x, x <+: t.drop s.pos ∧ List.Forall₂ (fun c d => Re.foldEq c d = true) w x ∧
        e = { s with pos := s.pos + w.length } := mem_run_letters

/-- A concatenation takes the first way of its first part that its second part can follow. -/
theorem head?_cat {r r' : Re} :
    (run t (.cat r r') s).head? = (run t r s).findSome? fun m => (run t r' m).head? := by
  rw [run_cat, List.head?_flatMap]

/-- A concatenation goes on from the first way of its first part, when its second part cannot follow
any other. -/
theorem run_cat_of_first {r r' : Re} {m : St} {others : List St} (h : run t r s = m :: others)
    (hothers : ∀ m' ∈ others, run t r' m' = []) : run t (.cat r r') s = run t r' m := by
  rw [run_cat, h, List.flatMap_cons, List.flatMap_eq_nil_iff.mpr hothers, List.append_nil]

/-- A greedy repetition takes all it can when nothing that follows can start inside it. -/
theorem run_cat_many {p : Char → Bool} {r : Re}
    (h : ∀ k < spanLen t p s.pos, run t r { s with pos := s.pos + k } = []) :
    run t (.cat (.many true p) r) s = run t r { s with pos := s.pos + spanLen t p s.pos } := by
  have hrun : run t (.many true p) s = { s with pos := s.pos + spanLen t p s.pos } ::
      (List.range (spanLen t p s.pos)).reverse.map fun k => { s with pos := s.pos + k } := by
    simp [run_many, List.range_succ]
  apply run_cat_of_first hrun
  intro m' hm'
  obtain ⟨k, hk, rfl⟩ := List.mem_map.mp hm'
  exact h k (by simpa using hk)

/-- A greedy repetition that nothing constrains any further takes all it can. -/
theorem head?_many_greedy {p : Char → Bool} :
    (run t (.many true p) s).head? = some { s with pos := s.pos + spanLen t p s.pos } := by
  simp [run_many, List.range_succ]

theorem head?_group {i : Nat} {r : Re} :
    (run t (.group i r) s).head? = (run t r s).head?.map fun e =>
      { e with caps := (i, (t.drop s.pos).take (e.pos - s.pos)) :: e.caps } := by
  rw [run_group, List.head?_map]

theorem head?_some1 {p : Char → Bool} :
    (run t (Re.some1 p) s).head? =
      if inClass p t[s.pos]? then
        some { s with pos := s.pos + 1 + spanLen t p (s.pos + 1) }
      else none := by
  unfold Re.some1
  rw [head?_cat]
  by_cases h : inClass p t[s.pos]? = true
  · rw [if_pos h, run_chr, if_pos h, List.findSome?_singleton, head?_many_greedy]
  · rw [if_neg h, run_chr, if_neg h, List.findSome?_nil]

/-- A lazy repetition stops at the first position from which the rest can match. -/
theorem head?_cat_lazy {p : Char → Bool} {r : Re} (h : (run t (.cat (.many false p) r) s).head? = some e) :
    ∃ k ≤ spanLen t p s.pos,
      (run t r { s with pos := s.pos + k }).head? = some e ∧
        ∀ j < k, (run t r { s with pos := s.pos + j }).head? = none := by
  rw [head?_cat] at h
  simp only [run_many, Bool.false_eq_true, if_false, List.findSome?_map] at h
  rw [List.findSome?_eq_some_iff] at h
  obtain ⟨l₁, k, l₂, hl, hk, hnone⟩ := h
  have hk1 : l₁.length = k := by
    have := congrArg (fun l => l[l₁.length]?) hl
    simp only [List.getElem?_append_right (le_refl l₁.length), Nat.sub_self,
      List.getElem?_cons_zero] at this
    obtain ⟨_, this⟩ := List.getElem?_eq_some_iff.mp this
    simpa using this
  have hkmem : k ∈ List.range (spanLen t p s.pos + 1) := by simp [hl]
  refine ⟨k, by simpa [Nat.lt_succ_iff] using hkmem, hk, ?_⟩
  intro j hj
  have hjmem : j ∈ l₁ := by
    have hget : l₁[j]? = (List.range (spanLen t p s.pos + 1))[j]? := by
      rw [hl, List.getElem?_append_left (by omega)]
    have hjr : (List.range (spanLen t p s.pos + 1))[j]? = some j := by
      have : k < spanLen t p s.pos + 1 := by simpa using hkmem
      simp [List.getElem?_range (show j < spanLen t p s.pos + 1 by omega)]
    rw [hjr] at hget
    exact List.mem_of_getElem? hget
  exact hnone j hjmem

/-- A run that has some way to match has a first one. -/
theorem head?_isSome_of_mem {r : Re} (h : e ∈ run t r s) : ((run t r s).head?).isSome := by
  cases hr : run t r s with
  | nil => simp [hr] at h
  | cons a l => rfl

end Run

/-! ## Inclusion of one pattern's ways in another's -/

section Inclusion

variable {t : Str} {r₁ r₂ s₁ s₂ : Re} {p q : Char → Bool} {g : Bool}

/-- Every way `r₁` matches the text is a way `r₂` matches it. -/
def Ways (t : Str) (r₁ r₂ : Re) : Prop := ∀ s e, e ∈ run t r₁ s → e ∈ run t r₂ s

theorem Ways.refl : Ways t r₁ r₁ := fun _ _ h => h

theorem Ways.cat (hr : Ways t r₁ r₂) (hs : Ways t s₁ s₂) : Ways t (.cat r₁ s₁) (.cat r₂ s₂) := by
  intro s e h
  obtain ⟨m, hm, he⟩ := mem_run_cat.mp h
  exact mem_run_cat.mpr ⟨m, hr s m hm, hs m e he⟩

/-- Dropping a leading assertion about the character before keeps every way. -/
theorem Ways.drop_notAfter (hs : Ways t s₁ s₂) : Ways t (.cat (.notAfter p) s₁) s₂ := by
  intro s e h
  obtain ⟨m, hm, he⟩ := mem_run_cat.mp h
  obtain ⟨_, rfl⟩ := mem_run_notAfter.mp hm
  exact hs m e he

end Inclusion

/-! ## Spans of a class -/

theorem spanLen_spec {t : Str} {p : Char → Bool} {pos j : Nat} (h : j < spanLen t p pos) :
    inClass p t[pos + j]? = true := by
  have hlen : spanLen t p pos ≤ (t.drop pos).length :=
    (List.takeWhile_prefix p).length_le
  have hj : j < (t.drop pos).length := lt_of_lt_of_le h hlen
  have hget : ((t.drop pos).takeWhile p).get ⟨j, h⟩ = (t.drop pos)[j] :=
    (List.takeWhile_prefix p).getElem h
  have hp : p ((t.drop pos)[j]) = true := by
    rw [← hget]
    exact List.mem_takeWhile_imp (List.getElem_mem h)
  rw [← List.getElem?_drop, List.getElem?_eq_getElem hj]
  exact hp

/-- A span ends where the text leaves the class. -/
theorem spanLen_le {t : Str} {p : Char → Bool} {pos n : Nat} (h : inClass p t[pos + n]? = false) :
    spanLen t p pos ≤ n := by
  by_contra hlt
  rw [spanLen_spec (not_le.mp hlt)] at h
  exact Bool.noConfusion h

/-- A stretch of the class is no longer than the span. -/
theorem le_spanLen {t : Str} {p : Char → Bool} {pos k : Nat}
    (h : ∀ j < k, inClass p t[pos + j]? = true) : k ≤ spanLen t p pos := by
  by_contra hlt
  rw [not_le] at hlt
  have hin := h _ hlt
  have hstop : inClass p (t.drop pos)[spanLen t p pos]? = false := by
    have hsplit := List.takeWhile_append_dropWhile (p := p) (l := t.drop pos)
    have hget : (t.drop pos)[spanLen t p pos]? = ((t.drop pos).dropWhile p).head? := by
      conv_lhs => rw [← hsplit]
      rw [List.getElem?_append_right (by simp [spanLen])]
      simp [spanLen, List.head?_eq_getElem?]
    rw [hget]
    cases hd : ((t.drop pos).dropWhile p).head? with
    | none => rfl
    | some c =>
        have hne := List.head?_dropWhile_not p (t.drop pos)
        rw [hd] at hne
        simpa [inClass] using hne
  rw [List.getElem?_drop] at hstop
  rw [hin] at hstop
  exact absurd hstop (by simp)

theorem spanLen_mono {t : Str} {p q : Char → Bool} (h : ∀ c, p c = true → q c = true) {pos : Nat} :
    spanLen t p pos ≤ spanLen t q pos := by
  refine le_spanLen fun j hj => ?_
  obtain ⟨c, hc, hpc⟩ := inClass_iff.mp (spanLen_spec hj)
  exact inClass_iff.mpr ⟨c, hc, h c hpc⟩

/-- A wider class repeats in every way a narrower one does. -/
theorem Ways.many {t : Str} {p q : Char → Bool} {g : Bool} (h : ∀ c, p c = true → q c = true) :
    Ways t (.many g p) (.many g q) := by
  intro s e he
  obtain ⟨k, hk, rfl⟩ := mem_run_many.mp he
  exact mem_run_many.mpr ⟨k, hk.trans (spanLen_mono h), rfl⟩

/-- The longest stretch of the class from `pos`. -/
def span (t : Str) (p : Char → Bool) (pos : Nat) : Str := (t.drop pos).takeWhile p

theorem span_prefix {t : Str} {p : Char → Bool} {pos : Nat} : span t p pos <+: t.drop pos :=
  List.takeWhile_prefix p

theorem take_spanLen {t : Str} {p : Char → Bool} {pos : Nat} :
    (t.drop pos).take (spanLen t p pos) = span t p pos :=
  (List.prefix_iff_eq_take.mp (List.takeWhile_prefix p)).symm

theorem spanLen_of_inClass {t : Str} {p : Char → Bool} {pos : Nat} (h : inClass p t[pos]? = true) :
    spanLen t p pos = spanLen t p (pos + 1) + 1 := by
  obtain ⟨c, hc, hpc⟩ := inClass_iff.mp h
  obtain ⟨hlt, rfl⟩ := List.getElem?_eq_some_iff.mp hc
  unfold spanLen
  rw [List.drop_eq_getElem_cons hlt, List.takeWhile_cons_of_pos hpc, List.length_cons]

theorem mem_run_some1 {t : Str} {p : Char → Bool} {s e : St} :
    e ∈ run t (Re.some1 p) s ↔
      ∃ k, 1 ≤ k ∧ k ≤ spanLen t p s.pos ∧ e = { s with pos := s.pos + k } := by
  constructor
  · intro h
    obtain ⟨m, hm, he⟩ := mem_run_cat.mp h
    obtain ⟨hc, rfl⟩ := mem_run_chr.mp hm
    obtain ⟨k, hk, rfl⟩ := mem_run_many.mp he
    refine ⟨k + 1, by omega, ?_, by simp [Nat.add_assoc, Nat.add_comm 1]⟩
    rw [spanLen_of_inClass hc]
    exact Nat.succ_le_succ hk
  · rintro ⟨k, h1, hk, rfl⟩
    have hpos : 0 < spanLen t p s.pos := by omega
    have hc : inClass p t[s.pos]? = true := spanLen_spec hpos
    rw [spanLen_of_inClass hc] at hk
    refine mem_run_cat.mpr ⟨_, mem_run_chr.mpr ⟨hc, rfl⟩, mem_run_many.mpr ⟨k - 1, ?_, ?_⟩⟩
    · exact Nat.sub_le_of_le_add hk
    · simp only [Nat.add_assoc, Nat.add_sub_cancel' h1]

/-- One or more is a way of zero or more. -/
theorem Ways.many_of_some1 {t : Str} {p : Char → Bool} : Ways t (Re.some1 p) (.many true p) := by
  intro s e he
  obtain ⟨k, _, hk, rfl⟩ := mem_run_some1.mp he
  exact mem_run_many.mpr ⟨k, hk, rfl⟩

/-- A captured greedy `[p]+` is the whole stretch. -/
theorem head?_group_some1 {t : Str} {p : Char → Bool} {i : Nat} {s : St} :
    (run t (.group i (Re.some1 p)) s).head? =
      if inClass p t[s.pos]? then
        some ⟨s.pos + spanLen t p s.pos, (i, span t p s.pos) :: s.caps⟩
      else none := by
  rw [head?_group, head?_some1]
  by_cases h : inClass p t[s.pos]? = true
  · have hlen : s.pos + 1 + spanLen t p (s.pos + 1) = s.pos + spanLen t p s.pos := by
      rw [spanLen_of_inClass h]
      omega
    simp only [h, if_true, Option.map_some, hlen, Nat.add_sub_cancel_left, take_spanLen]
  · rw [if_neg h, if_neg h, Option.map_none]

/-- Two literals in a row. -/
theorem prefix_drop_append {t w v : Str} {pos : Nat} (hw : w <+: t.drop pos)
    (hv : v <+: t.drop (pos + w.length)) : w ++ v <+: t.drop pos := by
  obtain ⟨u, hu⟩ := hw
  rw [← List.drop_drop, ← hu, List.drop_left] at hv
  rw [← hu]
  exact (List.prefix_append_right_inj w).mpr hv

/-- What a literal prefix puts at each of its positions. -/
theorem getElem?_of_prefix_drop {t w : Str} {pos i : Nat} (h : w <+: t.drop pos)
    (hi : i < w.length) : t[pos + i]? = w[i]? := by
  obtain ⟨u, hu⟩ := h
  rw [← List.getElem?_drop, ← hu, List.getElem?_append_left hi]

/-! ## Patterns whose longest way is the one that counts -/

section Longest

variable {t : Str} {r r' : Re} {s : St} {n : Nat} {p : Char → Bool}

/-- The pattern first matches `n` characters, and then possibly fewer, but at least one. -/
def Longest (t : Str) (r : Re) (s : St) (n : Nat) : Prop :=
  ∃ others, run t r s = { s with pos := s.pos + n } :: others ∧
    ∀ m ∈ others, ∃ k, 0 < k ∧ k < n ∧ m = { s with pos := s.pos + k }

theorem Longest.head? (h : Longest t r s n) :
    (run t r s).head? = some { s with pos := s.pos + n } := by
  obtain ⟨others, hrun, -⟩ := h
  rw [hrun, List.head?_cons]

/-- What follows matches from the end of the longest way, when it cannot start inside it. -/
theorem Longest.run_cat (h : Longest t r s n)
    (hinside : ∀ k, 0 < k → k < n → run t r' { s with pos := s.pos + k } = []) :
    run t (.cat r r') s = run t r' { s with pos := s.pos + n } := by
  obtain ⟨others, hrun, hothers⟩ := h
  refine run_cat_of_first hrun fun m hm => ?_
  obtain ⟨k, h0, hn, rfl⟩ := hothers m hm
  exact hinside k h0 hn

/-- The same for a pattern in a group. -/
theorem Longest.run_group_cat {i : Nat} {w u : Str} (h : Longest t r s w.length)
    (hw : t.drop s.pos = w ++ u)
    (hinside : ∀ k caps, 0 < k → k < w.length → run t r' ⟨s.pos + k, caps⟩ = []) :
    run t (.cat (.group i r) r') s = run t r' ⟨s.pos + w.length, (i, w) :: s.caps⟩ := by
  obtain ⟨others, hrun, hothers⟩ := h
  have hcap : (t.drop s.pos).take w.length = w := by rw [hw, List.take_left]
  have hgroup : run t (.group i r) s = ⟨s.pos + w.length, (i, w) :: s.caps⟩ ::
      others.map fun e => { e with caps := (i, (t.drop s.pos).take (e.pos - s.pos)) :: e.caps } := by
    rw [run_group, hrun, List.map_cons]
    simp only [Nat.add_sub_cancel_left, hcap]
  apply run_cat_of_first hgroup
  intro m hm
  obtain ⟨e, he, rfl⟩ := List.mem_map.mp hm
  obtain ⟨k, h0, hn, rfl⟩ := hothers e he
  exact hinside k _ h0 hn

theorem Longest.head?_group {i : Nat} {w u : Str} (h : Longest t r s w.length)
    (hw : t.drop s.pos = w ++ u) :
    (run t (.group i r) s).head? = some ⟨s.pos + w.length, (i, w) :: s.caps⟩ := by
  rw [Regex.head?_group, h.head?, Option.map_some]
  simp only [Nat.add_sub_cancel_left, hw, List.take_left]

theorem getElem?_of_drop {w u : Str} {i k : Nat} (h : t.drop i = w ++ u) (hk : k < w.length) :
    t[i + k]? = w[k]? := by
  rw [← List.getElem?_drop, h, List.getElem?_append_left hk]

theorem drop_add_length {w u : Str} {i : Nat} (h : t.drop i = w ++ u) :
    t.drop (i + w.length) = u := by
  rw [← List.drop_drop, h, List.drop_left]

theorem inClass_of_drop {w u : Str} {i k : Nat} (h : t.drop i = w ++ u) (hk : k < w.length)
    (hall : ∀ c ∈ w, p c = true) : inClass p t[i + k]? = true := by
  rw [getElem?_of_drop h hk, List.getElem?_eq_getElem hk]
  exact hall _ (List.getElem_mem hk)

/-- A stretch of a class ends where the text leaves the class. -/
theorem spanLen_of_drop {w u : Str} {i : Nat} (h : t.drop i = w ++ u) (hall : ∀ c ∈ w, p c = true)
    (hu : inClass p u.head? = false) : spanLen t p i = w.length := by
  rw [spanLen, h, List.takeWhile_append_of_pos hall]
  cases u with
  | nil => simp
  | cons c u => simp [show p c = false from hu]

theorem run_many_of_drop {w u : Str} (h : t.drop s.pos = w ++ u) (hall : ∀ c ∈ w, p c = true)
    (hu : inClass p u.head? = false) :
    run t (.many true p) s = { s with pos := s.pos + w.length } ::
      (List.range w.length).reverse.map fun k => { s with pos := s.pos + k } := by
  rw [run_many, if_pos rfl, spanLen_of_drop h hall hu, List.range_succ, List.reverse_append]
  rfl

/-- A stretch of a class that is not empty. -/
theorem longest_some1 {w u : Str} (h : t.drop s.pos = w ++ u) (hne : w ≠ [])
    (hall : ∀ c ∈ w, p c = true) (hu : inClass p u.head? = false) :
    Longest t (Re.some1 p) s w.length := by
  obtain ⟨c, w, rfl⟩ := List.exists_cons_of_ne_nil hne
  have hc : inClass p t[s.pos]? = true := inClass_of_drop (k := 0) h (by simp) hall
  have hdrop : t.drop (s.pos + 1) = w ++ u := by
    rw [← List.drop_drop, h]
    rfl
  refine ⟨(List.range w.length).reverse.map fun k => { s with pos := s.pos + 1 + k }, ?_, ?_⟩
  · rw [Re.some1, Regex.run_cat, run_chr, if_pos hc, List.flatMap_singleton,
      run_many_of_drop hdrop (fun c hc => hall c (List.mem_cons_of_mem _ hc)) hu]
    simp only [List.length_cons, Nat.add_assoc, Nat.add_comm 1]
  · intro m hm
    obtain ⟨k, hk, rfl⟩ := List.mem_map.mp hm
    have hlt : k < w.length := by simpa using hk
    refine ⟨k + 1, by omega, by simpa using hlt, ?_⟩
    simp only [Nat.add_assoc, Nat.add_comm 1]

/-- A pattern that begins with a class fails where the text does not have it. -/
theorem run_some1_cat_nil (h : inClass p t[s.pos]? = false) : run t (.cat (Re.some1 p) r) s = [] := by
  rw [Regex.run_cat, Re.some1, Regex.run_cat, run_chr, if_neg (by simp [h])]
  rfl

/-- A literal under `re.IGNORECASE` matches, in one way, a text that is the same up to case. -/
theorem run_ilit_of_same {w x u : Str} (h : t.drop s.pos = x ++ u)
    (hsame : List.Forall₂ (fun c d => Re.foldEq c d = true) w x) :
    run t (Re.ilit w) s = [{ s with pos := s.pos + w.length }] := by
  induction hsame generalizing s with
  | nil => rfl
  | @cons a d w x had hrest ih =>
      have hget : t[s.pos]? = some d := by
        rw [← List.head?_drop, h]
        rfl
      have hdrop : t.drop (s.pos + 1) = x ++ u := by
        rw [← List.drop_drop, h]
        rfl
      have hstep : run t (.chr (Re.foldEq a)) s = [{ s with pos := s.pos + 1 }] := by
        rw [run_chr, if_pos (by rw [hget]; exact had)]
      cases w with
      | nil => exact hstep
      | cons b w =>
          have htail := ih (s := { s with pos := s.pos + 1 }) hdrop
          show run t (.cat (.chr (Re.foldEq a)) (Re.ilit (b :: w))) s = _
          rw [Regex.run_cat, hstep, List.flatMap_singleton, htail]
          simp only [List.length_cons, Nat.add_assoc, Nat.add_comm 1]

/-- A lower-case literal under `re.IGNORECASE` matches itself. -/
theorem run_ilit {w : Str} (h : w <+: t.drop s.pos) :
    run t (Re.ilit w) s = [{ s with pos := s.pos + w.length }] := by
  obtain ⟨u, hu⟩ := h
  refine run_ilit_of_same hu.symm (List.forall₂_same.mpr fun c _ => ?_)
  simp [Re.foldEq]

/-- A literal under `re.IGNORECASE` fails where the text does not have its first letter. -/
theorem run_ilit_nil {a : Char} {w : Str} (h : inClass (Re.foldEq a) t[s.pos]? = false) :
    run t (Re.ilit (a :: w)) s = [] := by
  rw [List.eq_nil_iff_forall_not_mem]
  intro e he
  rw [Re.ilit, List.map_cons] at he
  obtain ⟨m, hm, -⟩ := mem_run_seq_cons.mp he
  rw [(mem_run_chr.mp hm).1] at h
  exact absurd h (by simp)

end Longest

/-! ## Patterns that give back what they took -/

section Greedy

variable {t : Str} {r r' : Re} {s e : St} {p : Char → Bool} {lo hi k : Nat} {f : Nat → St}

/-- The ways of a pattern are the stretches of `lo` up to `hi` characters, the longest first. -/
def Greedy (t : Str) (r : Re) (s : St) (lo hi : Nat) (f : Nat → St) : Prop :=
  run t r s = ((List.range' lo (hi + 1 - lo)).map f).reverse

theorem greedy_many :
    Greedy t (.many true p) s 0 (spanLen t p s.pos) fun k => { s with pos := s.pos + k } := by
  rw [Greedy, run_many, if_pos rfl, List.map_reverse, List.range_eq_range', Nat.sub_zero]

theorem greedy_some1 :
    Greedy t (Re.some1 p) s 1 (spanLen t p s.pos) fun k => { s with pos := s.pos + k } := by
  rw [Greedy, Re.some1, run_cat, run_chr]
  by_cases h : inClass p t[s.pos]? = true
  · have hshift : List.range' 1 (spanLen t p (s.pos + 1) + 1) =
        (List.range (spanLen t p (s.pos + 1) + 1)).map (1 + ·) := by
      rw [List.range_eq_range', List.map_add_range']
    rw [if_pos h, List.flatMap_singleton, run_many, if_pos rfl, spanLen_of_inClass h, List.map_reverse,
      Nat.add_sub_cancel, hshift, List.map_map]
    simp only [Function.comp_def, Nat.add_assoc]
  · have hzero : spanLen t p s.pos = 0 := by
      by_contra hne
      exact h (spanLen_spec (j := 0) (Nat.pos_of_ne_zero hne))
    rw [if_neg h, hzero]
    rfl

theorem Greedy.group {i : Nat} (h : Greedy t r s lo hi f) (hf : ∀ k, (f k).pos = s.pos + k) :
    Greedy t (.group i r) s lo hi fun k =>
      { f k with caps := (i, (t.drop s.pos).take k) :: (f k).caps } := by
  rw [Greedy, run_group, show run t r s = _ from h, List.map_reverse, List.map_map]
  simp only [Function.comp_def, hf, Nat.add_sub_cancel_left]

/-- What follows matches from the longest way that it can follow. -/
theorem Greedy.head?_cat (h : Greedy t r s lo hi f) (hlo : lo ≤ k) (hhi : k ≤ hi)
    (hk : (run t r' (f k)).head? = some e) (hlater : ∀ j, k < j → j ≤ hi → run t r' (f j) = []) :
    (run t (.cat r r') s).head? = some e := by
  rw [Regex.head?_cat, show run t r s = _ from h, ← List.map_reverse, List.findSome?_map]
  rw [List.findSome?_eq_some_iff]
  have hsplit : List.range' lo (hi + 1 - lo) =
      List.range' lo (k - lo) ++ k :: List.range' (k + 1) (hi - k) := by
    rw [show k :: List.range' (k + 1) (hi - k) = List.range' k (hi - k + 1) from rfl]
    have happend := List.range'_append_1 (s := lo) (m := k - lo) (n := hi - k + 1)
    rw [Nat.add_sub_cancel' hlo] at happend
    rw [happend]
    congr 1
    omega
  refine ⟨(List.range' (k + 1) (hi - k)).reverse, k, (List.range' lo (k - lo)).reverse, ?_, hk, ?_⟩
  · rw [hsplit]
    simp
  · intro j hj
    have hmem : k + 1 ≤ j ∧ j < k + 1 + (hi - k) := by simpa using hj
    show (run t r' (f j)).head? = none
    rw [hlater j (by omega) (by omega)]
    rfl

/-- Nothing matches where what follows can follow no way. -/
theorem Greedy.run_cat_nil (h : Greedy t r s lo hi f)
    (hnone : ∀ j, lo ≤ j → j ≤ hi → run t r' (f j) = []) : run t (.cat r r') s = [] := by
  rw [run_cat, show run t r s = _ from h, List.flatMap_eq_nil_iff]
  intro m hm
  obtain ⟨j, hj, rfl⟩ := List.mem_map.mp (List.mem_reverse.mp hm)
  have hmem : lo ≤ j ∧ j < lo + (hi + 1 - lo) := by simpa using hj
  exact hnone j hmem.1 (by omega)

/-- A lazy repetition stops where what follows first matches. -/
theorem head?_cat_lazy_first (hk : k ≤ spanLen t p s.pos)
    (h : (run t r' { s with pos := s.pos + k }).head? = some e)
    (hbefore : ∀ j < k, run t r' { s with pos := s.pos + j } = []) :
    (run t (.cat (.many false p) r') s).head? = some e := by
  rw [Regex.head?_cat, run_many, if_neg Bool.false_ne_true, List.findSome?_map,
    List.findSome?_eq_some_iff]
  have hsplit : List.range (spanLen t p s.pos + 1) =
      List.range k ++ k :: List.range' (k + 1) (spanLen t p s.pos - k) := by
    rw [List.range_eq_range', List.range_eq_range']
    rw [show k :: List.range' (k + 1) (spanLen t p s.pos - k) =
      List.range' k (spanLen t p s.pos - k + 1) from rfl]
    have happend := List.range'_append_1 (s := 0) (m := k) (n := spanLen t p s.pos - k + 1)
    rw [Nat.zero_add] at happend
    rw [happend]
    congr 1
    omega
  refine ⟨List.range k, k, List.range' (k + 1) (spanLen t p s.pos - k), hsplit, h, ?_⟩
  intro j hj
  show (run t r' _).head? = none
  rw [hbefore j (List.mem_range.mp hj)]
  rfl

end Greedy
/-! ## Scanning -/

section Scan

variable {r : Re} {t : Str}

theorem matchAt_start {i : Nat} {m : Match} (h : matchAt r t i = some m) : m.start = i := by
  simp only [matchAt, Option.map_eq_some_iff] at h
  obtain ⟨e, _, rfl⟩ := h
  rfl

theorem matchAt_of_head? {i : Nat} {e : St} (h : (run t r ⟨i, []⟩).head? = some e) :
    matchAt r t i = some ⟨i, e.pos, e.caps⟩ := by
  rw [matchAt, h]
  rfl

theorem matchAt_isSome_iff {i : Nat} : (matchAt r t i).isSome ↔ run t r ⟨i, []⟩ ≠ [] := by
  cases h : run t r ⟨i, []⟩ <;> simp [matchAt, h]

/-- A pattern with more ways matches wherever one with fewer does. -/
theorem Ways.matchAt_isSome {r' : Re} (hw : Ways t r r') {i : Nat} {m : Match}
    (h : matchAt r t i = some m) : (matchAt r' t i).isSome := by
  simp only [matchAt, Option.map_eq_some_iff] at h
  obtain ⟨e, he, rfl⟩ := h
  exact matchAt_isSome_iff.mpr (List.ne_nil_of_mem (hw _ e (List.mem_of_mem_head? he)))

/-- Every reported match is the match at the position it starts from. -/
theorem matchAt_of_mem_scan {fuel i : Nat} {m : Match} (h : m ∈ scan r t fuel i) :
    matchAt r t m.start = some m := by
  induction fuel generalizing i with
  | zero => simp [scan] at h
  | succ fuel ih =>
      unfold scan at h
      split at h
      · simp at h
      · split at h
        · rename_i m' hm'
          rcases List.mem_cons.mp h with rfl | h
          · rw [matchAt_start hm']
            exact hm'
          · exact ih h
        · exact ih h

theorem matchAt_of_mem_finditer {m : Match} (h : m ∈ finditer r t) :
    matchAt r t m.start = some m := matchAt_of_mem_scan h

theorem scan_covers {a : Nat} (ha : a ≤ t.length) (hm : (matchAt r t a).isSome) :
    ∀ {fuel i : Nat}, i ≤ a → t.length < i + fuel →
      ∃ m ∈ scan r t fuel i, m.start ≤ a ∧ (m.start = a ∨ a < m.stop)
  | 0, i, hi, hf => absurd hf (by omega)
  | fuel + 1, i, hi, hf => by
      unfold scan
      rw [if_neg (by omega)]
      cases hmi : matchAt r t i with
      | none =>
          have hne : i ≠ a := by
            rintro rfl
            simp [hmi] at hm
          have ih : ∃ m ∈ scan r t fuel (i + 1), m.start ≤ a ∧ (m.start = a ∨ a < m.stop) :=
            scan_covers ha hm (by omega) (by omega)
          simpa using ih
      | some m =>
          have hstart := matchAt_start hmi
          by_cases hcov : m.start = a ∨ a < m.stop
          · exact ⟨m, by simp, by omega, hcov⟩
          · push Not at hcov
            have ih : ∃ m' ∈ scan r t fuel (max m.stop (i + 1)),
                m'.start ≤ a ∧ (m'.start = a ∨ a < m'.stop) := scan_covers ha hm (by omega) (by omega)
            obtain ⟨m', hm', h⟩ := ih
            exact ⟨m', by simp [hm'], h⟩

/-- A position at which the pattern matches starts a reported match or lies strictly inside one. -/
theorem finditer_covers {a : Nat} (ha : a ≤ t.length) (hm : (matchAt r t a).isSome) :
    ∃ m ∈ finditer r t, m.start ≤ a ∧ (m.start = a ∨ a < m.stop) :=
  scan_covers ha hm (by omega) (by omega)

theorem search_eq_none_iff : search r t = none ↔ ∀ i ≤ t.length, run t r ⟨i, []⟩ = [] := by
  unfold search
  rw [List.findSome?_eq_none_iff]
  simp only [List.mem_range, Nat.lt_succ_iff]
  refine forall₂_congr fun i _ => ?_
  cases h : run t r ⟨i, []⟩ <;> simp [matchAt, h]

/-- The matches found scanning from a position, step by step. -/
inductive Scanned (r : Re) (t : Str) : Nat → List Match → Prop
  | stop {i : Nat} (h : t.length < i) : Scanned r t i []
  | skip {i : Nat} {ms : List Match} (hle : i ≤ t.length) (h : matchAt r t i = none)
      (rest : Scanned r t (i + 1) ms) : Scanned r t i ms
  | take {i : Nat} {m : Match} {ms : List Match} (hle : i ≤ t.length) (h : matchAt r t i = some m)
      (hlt : i < m.stop) (rest : Scanned r t m.stop ms) : Scanned r t i (m :: ms)

theorem Scanned.scan_eq {i : Nat} {ms : List Match} (h : Scanned r t i ms) :
    ∀ {fuel : Nat}, t.length < i + fuel → scan r t fuel i = ms := by
  induction h with
  | stop h =>
      intro fuel _
      cases fuel with
      | zero => rfl
      | succ fuel => rw [scan, if_pos h]
  | skip hle h _ ih =>
      intro fuel hfuel
      cases fuel with
      | zero => omega
      | succ fuel =>
          rw [scan, if_neg (by omega), h]
          exact ih (by omega)
  | take hle h hlt _ ih =>
      intro fuel hfuel
      cases fuel with
      | zero => omega
      | succ fuel =>
          rw [scan, if_neg (by omega), h]
          dsimp only
          rw [max_eq_left (by omega), ih (by omega)]

/-- Scanning step by step finds what `finditer` reports. -/
theorem Scanned.finditer_eq {ms : List Match} (h : Scanned r t 0 ms) : finditer r t = ms :=
  h.scan_eq (by omega)

/-- A search finds the first match of a scan. -/
theorem Scanned.search_eq {ms : List Match} (h : Scanned r t 0 ms) : search r t = ms.head? := by
  have hfrom : ∀ {i : Nat} {ms : List Match}, Scanned r t i ms →
      (List.range' i (t.length + 1 - i)).findSome? (matchAt r t) = ms.head? := by
    intro i ms h
    induction h with
    | stop h =>
        rw [Nat.sub_eq_zero_of_le h]
        rfl
    | @skip i ms hle hnone _ ih =>
        rw [show t.length + 1 - i = t.length + 1 - (i + 1) + 1 by omega, List.range'_succ,
          List.findSome?_cons, hnone]
        exact ih
    | @take i m ms hle hm _ _ _ =>
        rw [show t.length + 1 - i = t.length + 1 - (i + 1) + 1 by omega, List.range'_succ,
          List.findSome?_cons, hm]
        rfl
  rw [search, List.range_eq_range']
  exact hfrom h

/-- A stretch of the text in which no match starts is passed over. -/
theorem Scanned.skips {i : Nat} {ms : List Match} :
    ∀ {n : Nat}, i + n ≤ t.length + 1 → (∀ j < n, matchAt r t (i + j) = none) →
      Scanned r t (i + n) ms → Scanned r t i ms
  | 0, _, _, h => h
  | n + 1, hn, hnone, h => by
      refine .skip (by omega) (hnone 0 (by omega)) (skips (n := n) (by omega) ?_ ?_)
      · intro j hj
        have := hnone (j + 1) (by omega)
        rwa [show i + (j + 1) = i + 1 + j by omega] at this
      · rwa [show i + (n + 1) = i + 1 + n by omega] at h

/-- A stretch before all matches is kept. -/
theorem splice_skip {f : Match → Str} {ms : List Match} {i n : Nat}
    (h : ∀ m ∈ ms, i + n ≤ m.start) :
    splice t f ms i = (t.drop i).take n ++ splice t f ms (i + n) := by
  cases ms with
  | nil => rw [splice, splice, ← List.drop_drop, List.take_append_drop]
  | cons m ms =>
      have hle := h m List.mem_cons_self
      rw [splice, splice, ← List.append_assoc, ← List.append_assoc, ← List.drop_drop]
      have hsplit : m.start - i = n + (m.start - (i + n)) := by omega
      rw [hsplit, List.take_add]

/-- Scanning from a position finds some matches, and replacing them gives a text. -/
structure Rewrites (r : Re) (f : Match → Str) (t : Str) (i : Nat) (ms : List Match) (out : Str) :
    Prop where
  scanned : Scanned r t i ms
  starts : ∀ m ∈ ms, i ≤ m.start
  out : splice t f ms i = out

namespace Rewrites

variable {f : Match → Str} {i : Nat} {ms : List Match} {out : Str}

theorem stop (h : matchAt r t t.length = none) : Rewrites r f t t.length [] [] where
  scanned := .skip le_rfl h (.stop (Nat.lt_succ_self _))
  starts := by simp
  out := by simp [splice]

/-- A stretch in which no match starts is kept. -/
theorem skip {x u : Str} (hdrop : t.drop i = x ++ u) (hle : i + x.length ≤ t.length)
    (hnone : ∀ j < x.length, matchAt r t (i + j) = none)
    (h : Rewrites r f t (i + x.length) ms out) : Rewrites r f t i ms (x ++ out) where
  scanned := .skips (by omega) hnone h.scanned
  starts := fun m hm => le_trans (Nat.le_add_right _ _) (h.starts m hm)
  out := by rw [splice_skip h.starts, hdrop, List.take_left, h.out]

/-- A match is replaced. -/
theorem take {m : Match} (hle : i ≤ t.length) (hm : matchAt r t i = some m) (hlt : i < m.stop)
    (h : Rewrites r f t m.stop ms out) : Rewrites r f t i (m :: ms) (f m ++ out) where
  scanned := .take hle hm hlt h.scanned
  starts := by
    intro m' hm'
    rcases List.mem_cons.mp hm' with rfl | hm'
    · rw [matchAt_start hm]
    · exact le_trans hlt.le (h.starts m' hm')
  out := by rw [splice, matchAt_start hm, Nat.sub_self, List.take_zero, List.nil_append, h.out]

theorem finditer_eq (h : Rewrites r f t 0 ms out) : finditer r t = ms := h.scanned.finditer_eq

theorem sub_eq (h : Rewrites r f t 0 ms out) : sub r f t = out := by
  rw [sub, h.finditer_eq, h.out]

end Rewrites

end Scan

end HummingbirdRpms.Lib.Regex
