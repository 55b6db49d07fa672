/-
# HummingbirdRpms.BlockMappings — how a parser reads a file of block mappings.

`ci/package-overrides.yaml` is a mapping from names to mappings, one key a line.  `FlatYaml` finds the
entries; here their settings are taken apart as well.  The keys of a block stand in the column of its first
line that is neither blank nor a comment.  The text from behind a key's colon up to the next key is the
parser's business (`Parser.value`): scalars, lists, flow values, blocks below.  Anchors are in a state that
the parser carries from value to value.

**`load_rejoined`** — a line break that is written behind an open line is read as part of that line.
-/
import HummingbirdRpms.OverridesLayout

namespace HummingbirdRpms.BlockMappings

open Lib Lib.Text FlatYaml OverridesLayout

/-! ## Keys in a column -/

/-- A line without a value: blank, or a comment. -/
def isFiller (line : Str) : Bool := (strip line).isEmpty || isComment line

/-- The key in a column, and what stands behind its colon. -/
def headAt : Nat → Str → Option (Key × Str)
  | 0, line => entryHead line
  | k + 1, ' ' :: line => headAt k line
  | _ + 1, _ => none

attribute [local simp] headAt

/-- The column in which a line begins. -/
def columnOf (line : Str) : Nat := (line.takeWhile (· = ' ')).length

/-- The keys in a column, each with the text up to the next one. -/
def sections (k : Nat) : List Str → List (Key × Str)
  | [] => []
  | l :: ls =>
      match headAt k l with
      | some (key, rest) => (key, rest ++ (ls.takeWhile fun l => (headAt k l).isNone).flatten) :: sections k ls
      | none => sections k ls

attribute [local simp] sections

/-- How the text behind a name is read: as nothing, as a block whose keys are in a column, or as a whole. -/
inductive Shape where
  | empty
  | block (k : Nat)
  | whole

/-- The shape of the text behind a name, given as lines. -/
def shape : List Str → Shape
  | [] => .empty
  | rest :: body =>
      if isFiller rest then
        match body.find? fun l => !isFiller l with
        | none => .empty
        | some l => if 0 < columnOf l ∧ (headAt (columnOf l) l).isSome then .block (columnOf l) else .whole
      else .whole

/-! ## Parsers -/

/-- What a YAML parser makes of keys, of the lines above the first one, and of the text behind a key in a
column. -/
structure Parser (K V A : Type) where
  key : Key → K
  /-- A key that is a string. -/
  text : Str → K
  text_inj : Function.Injective text
  /-- A word is a string. -/
  word : key (.plain "private_product") = text "private_product"
  string : Str → V
  start : Str → Option A
  value : Nat → A → Str → Option (V × A)

/-- The settings of a name. -/
inductive Settings (K V : Type) where
  | empty
  | mapping (items : List (K × V))
  | other (v : V)

/-- A list of keyed texts, read one after the other. -/
def readAll {K A W X : Type} (name : X → K) (read : A → X → Option (W × A)) :
    A → List X → Option (List (K × W) × A)
  | a, [] => some ([], a)
  | a, x :: xs => do
      let (w, b) ← read a x
      let (ws, c) ← readAll name read b xs
      return ((name x, w) :: ws, c)

attribute [local simp] readAll

/-- The value of a key, the last one winning. -/
def valueOf {K W : Type} [DecidableEq K] : List (K × W) → K → Option W
  | [], _ => none
  | (k', w) :: m, k => (valueOf m k).or (if k' = k then some w else none)

section

variable {K V A : Type} (parser : Parser K V A)

/-- The items of a block whose keys are in a column. -/
def Parser.items (k : Nat) (a : A) (lines : List Str) : Option (List (K × V) × A) :=
  readAll (fun item => parser.key item.1) (fun a item => parser.value k a item.2) a (sections k lines)

/-- The settings that are read from the text behind a name, given as lines. -/
def Parser.settings (a : A) (lines : List Str) : Option (Settings K V × A) :=
  match shape lines with
  | .empty => some (.empty, a)
  | .block k => (parser.items k a lines.tail).map fun r => (.mapping r.1, r.2)
  | .whole => (parser.value 0 a lines.flatten).map fun r => (.other r.1, r.2)

/-- The settings of some entries. -/
def Parser.entries (a : A) (es : List Entry) : Option (List (K × Settings K V) × A) :=
  readAll (fun e => parser.key e.key) (fun a e => parser.settings a (e.rest :: e.body)) a es

/-- The mapping that a file is read as. -/
def Parser.load (lines : List Str) : Option (List (K × Settings K V)) :=
  (parser.start (lines.takeWhile fun l => (entryHead l).isNone).flatten).bind fun a =>
    (parser.entries a (FlatYaml.entries lines)).map Prod.fst

end

/-! ## Lists of readings -/

section

variable {K A W X : Type} {name : X → K} {read : A → X → Option (W × A)} {a b c : A} {x : X} {xs ys : List X}
  {m : List (K × W)}

theorem readAll_cons_iff : readAll name read a (x :: xs) = some (m, c) ↔
    ∃ w b ws, read a x = some (w, b) ∧ readAll name read b xs = some (ws, c) ∧ m = (name x, w) :: ws := by
  rw [readAll]
  simp only [Option.bind_eq_bind, Option.bind_eq_some_iff, Prod.exists, Option.pure_def, Option.some.injEq,
    Prod.mk.injEq]
  constructor
  · rintro ⟨w, b, hx, ws, c, hxs, rfl, rfl⟩
    exact ⟨w, b, ws, hx, hxs, rfl⟩
  · rintro ⟨w, b, ws, hx, hxs, rfl⟩
    exact ⟨w, b, hx, ws, c, hxs, rfl, rfl⟩

/-- A list is read from the front. -/
theorem readAll_append_iff : readAll name read a (xs ++ ys) = some (m, c) ↔
    ∃ m₁ b m₂, readAll name read a xs = some (m₁, b) ∧ readAll name read b ys = some (m₂, c) ∧ m = m₁ ++ m₂ := by
  induction xs generalizing a m with
  | nil =>
      constructor
      · intro h
        exact ⟨[], a, m, rfl, h, rfl⟩
      · rintro ⟨m₁, b, m₂, hnil, h, rfl⟩
        obtain ⟨rfl, rfl⟩ := Prod.mk.inj (Option.some.inj hnil)
        exact h
  | cons x xs ih =>
      rw [List.cons_append, readAll_cons_iff]
      constructor
      · rintro ⟨w, b, ws, hx, hxs, rfl⟩
        obtain ⟨m₁, b', m₂, hm₁, hm₂, rfl⟩ := ih.mp hxs
        exact ⟨_, b', m₂, readAll_cons_iff.mpr ⟨w, b, m₁, hx, hm₁, rfl⟩, hm₂, rfl⟩
      · rintro ⟨m₁, b', m₂, hm₁, hm₂, rfl⟩
        obtain ⟨w, b, ws, hx, hxs, rfl⟩ := readAll_cons_iff.mp hm₁
        exact ⟨w, b, ws ++ m₂, hx, ih.mpr ⟨ws, b', m₂, hxs, hm₂, rfl⟩, rfl⟩

theorem readAll_keys (h : readAll name read a xs = some (m, c)) : m.map Prod.fst = xs.map name := by
  induction xs generalizing a m with
  | nil =>
      obtain ⟨rfl, -⟩ := Prod.mk.inj (Option.some.inj h)
      rfl
  | cons x xs ih =>
      obtain ⟨w, b, ws, -, hxs, rfl⟩ := readAll_cons_iff.mp h
      rw [List.map_cons, List.map_cons, ih hxs]

/-- Texts that read the same. -/
theorem readAll_congr {Y : Type} {name' : Y → K} {read' : A → Y → Option (W × A)} {ys : List Y}
    (h : List.Forall₂ (fun x y => name x = name' y ∧ ∀ a, read a x = read' a y) xs ys) (a : A) :
    readAll name read a xs = readAll name' read' a ys := by
  induction h generalizing a with
  | nil => rfl
  | cons hxy _ ih =>
      rw [readAll, readAll, hxy.2, hxy.1]
      simp only [ih]

variable [DecidableEq K] {m₁ m₂ : List (K × W)} {k : K}

theorem valueOf_append : valueOf (m₁ ++ m₂) k = (valueOf m₂ k).or (valueOf m₁ k) := by
  induction m₁ with
  | nil => rw [List.nil_append, valueOf, Option.or_none]
  | cons e m₁ ih =>
      obtain ⟨k', w⟩ := e
      rw [List.cons_append, valueOf, valueOf, ih, Option.or_assoc]

theorem valueOf_eq_none : valueOf m k = none ↔ k ∉ m.map Prod.fst := by
  induction m with
  | nil => simp [valueOf]
  | cons e m ih =>
      obtain ⟨k', w⟩ := e
      rw [valueOf, Option.or_eq_none_iff, ih, List.map_cons, List.mem_cons, not_or, and_comm]
      simp [eq_comm]

end

/-! ## Sections of longer texts -/

section

variable {l : Str} {a b ls fill : List Str} {k : Nat}

/-- A key ends the text of the one before. -/
theorem takeWhile_append_head (h : (headAt k l).isSome = true) :
    (a ++ l :: b).takeWhile (fun l => (headAt k l).isNone) = a.takeWhile fun l => (headAt k l).isNone := by
  have hhead : ¬ (headAt k l).isNone = true := by simpa [← Option.isSome_iff_ne_none] using h
  rw [List.takeWhile_append]
  split
  · rename_i hall
    rw [List.takeWhile_cons, if_neg hhead, List.append_nil]
    exact ((List.takeWhile_prefix _).eq_of_length hall).symm
  · rfl

theorem sections_append (h : (headAt k l).isSome = true) :
    sections k (a ++ l :: b) = sections k a ++ sections k (l :: b) := by
  induction a with
  | nil => rfl
  | cons x a ih =>
      rw [List.cons_append, sections, sections, ih, takeWhile_append_head h]
      cases headAt k x with
      | none => rfl
      | some head => rfl

/-- Lines without a key in front of the first one. -/
theorem sections_skip (h : ∀ l ∈ a, (headAt k l).isNone = true) : sections k (a ++ b) = sections k b := by
  induction a with
  | nil => rfl
  | cons x a ih =>
      rw [List.forall_mem_cons, Option.isNone_iff_eq_none] at h
      rw [List.cons_append, sections, h.1]
      exact ih h.2

/-- The last text made longer. -/
def padLast (t : Str) : List (Key × Str) → List (Key × Str)
  | [] => []
  | [s] => [(s.1, s.2 ++ t)]
  | s :: s' :: ss => s :: padLast t (s' :: ss)

attribute [local simp] padLast

/-- Lines without a key behind the last one. -/
theorem sections_fill (h : ∀ l ∈ fill, (headAt k l).isNone = true) :
    sections k (ls ++ fill) = padLast fill.flatten (sections k ls) := by
  induction ls with
  | nil =>
      have hskip := sections_skip (b := []) h
      rw [List.append_nil] at hskip
      rw [List.nil_append, hskip]
      rfl
  | cons x ls ih =>
      rw [List.cons_append, sections, sections, ih]
      cases headAt k x with
      | none => rfl
      | some head =>
          simp only
          cases hrest : sections k ls with
          | cons s ss =>
              -- another key follows, and the text up to it is the same
              have hkey : ∃ l ∈ ls, ¬ (headAt k l).isNone = true := by
                by_contra hnone
                simp only [not_exists, not_and, not_not] at hnone
                have hskip := sections_skip (b := []) hnone
                rw [List.append_nil, hrest] at hskip
                cases hskip
              have hlt : (ls.takeWhile fun l => (headAt k l).isNone).length ≠ ls.length := by
                intro hall
                obtain ⟨l, hl, hhead⟩ := hkey
                have hself := List.takeWhile_eq_self_iff.mp ((List.takeWhile_prefix _).eq_of_length hall)
                exact hhead (hself l hl)
              rw [padLast, List.takeWhile_append, if_neg hlt]
          | nil =>
              have hnone : ∀ l ∈ ls, (headAt k l).isNone = true := by
                intro l hl
                by_contra hhead
                obtain ⟨u, v, rfl⟩ := List.append_of_mem hl
                have hsome : (headAt k l).isSome = true := by
                  cases hl' : headAt k l with
                  | none => rw [hl'] at hhead; exact absurd rfl hhead
                  | some head => rfl
                rw [sections_append hsome] at hrest
                obtain ⟨head', hhead'⟩ := Option.isSome_iff_exists.mp hsome
                rw [sections, hhead'] at hrest
                exact absurd (List.append_eq_nil_iff.mp hrest).2 (List.cons_ne_nil _ _)
              rw [List.takeWhile_eq_self_iff.mpr (List.forall_mem_append.mpr ⟨hnone, h⟩),
                List.takeWhile_eq_self_iff.mpr hnone, List.flatten_append, ← List.append_assoc]
              rfl

/-- A comment or a blank line has no key in any column. -/
theorem headAt_filler (h : isFiller l = true) (k : Nat) : headAt k l = none := by
  induction k generalizing l with
  | zero =>
      show entryHead l = none
      rcases (Bool.or_eq_true _ _).mp h with hblank | hcomment
      · exact entryHead_of_continues (by rw [continues, hblank, Bool.true_or])
      · by_contra hhead
        rw [isComment_of_entryHead (Option.isSome_iff_ne_none.mpr hhead)] at hcomment
        cases hcomment
  | succ k ih =>
      cases l with
      | nil => rfl
      | cons c l =>
          by_cases hc : c = ' '
          · subst hc
            exact ih h
          · rw [headAt]
            intro line heq
            exact hc (List.cons.inj heq).1

end

/-! ## Line breaks that are written later -/

section

variable {l : Str} {ls ls' : List Str} {k : Nat}

theorem headAt_newline (k : Nat) (l : Str) :
    headAt k (l ++ ['\n']) = (headAt k l).map fun head => (head.1, head.2 ++ ['\n']) := by
  induction k generalizing l with
  | zero => exact entryHead_newline l
  | succ k ih =>
      cases l with
      | nil => rfl
      | cons c l =>
          by_cases hc : c = ' '
          · rw [hc]
            exact ih l
          · rw [List.cons_append, headAt, headAt]
            · rfl
            · intro line h
              exact hc (List.cons.inj h).1
            · intro line h
              exact hc (List.cons.inj h).1

theorem headAt_break (k : Nat) : headAt k ['\n'] = none := by
  cases k <;> rfl

theorem isNone_newline (k : Nat) (l : Str) : (headAt k (l ++ ['\n'])).isNone = (headAt k l).isNone := by
  rw [headAt_newline, Option.isNone_map]

theorem strip_newline (l : Str) : strip (l ++ ['\n']) = strip l := by
  have hspace : isSpace '\n' = true := by decide
  rw [strip, strip, lstripBy, lstripBy, List.dropWhile_append]
  split
  · rename_i hall
    rw [List.isEmpty_iff.mp hall, List.dropWhile_cons_of_pos hspace]
    rfl
  · rw [rstripBy, rstripBy, List.rdropWhile_concat_pos _ _ _ hspace]

theorem isComment_newline (l : Str) : isComment (l ++ ['\n']) = isComment l := by
  have hhead : ((l ++ ['\n']).dropWhile isSpace).head? = (l.dropWhile isSpace).head? := by
    rw [List.dropWhile_append]
    split
    · rename_i hall
      rw [List.isEmpty_iff.mp hall]
      rfl
    · rename_i hsome
      rw [List.head?_append_of_ne_nil]
      exact fun hnil => hsome (List.isEmpty_iff.mpr hnil)
  rw [isComment, isComment, hhead]

theorem isFiller_newline (l : Str) : isFiller (l ++ ['\n']) = isFiller l := by
  rw [isFiller, isFiller, strip_newline, isComment_newline]

theorem columnOf_newline (l : Str) : columnOf (l ++ ['\n']) = columnOf l := by
  have htake : (l ++ ['\n']).takeWhile (· = ' ') = l.takeWhile (· = ' ') := by
    rw [List.takeWhile_append]
    split
    · rename_i hall
      rw [List.takeWhile_cons_of_neg (by decide), List.append_nil]
      exact ((List.takeWhile_prefix _).eq_of_length hall).symm
    · rfl
  rw [columnOf, columnOf, htake]

theorem flatten_rejoined (h : Rejoined ls ls') : ls'.flatten = ls.flatten := by
  induction h with
  | nil => rfl
  | keep _ ih => rw [List.flatten_cons, List.flatten_cons, ih]
  | join _ ih => rw [List.flatten_cons, List.flatten_cons, List.flatten_cons, ih, List.append_assoc]

/-- The lines up to the next key. -/
theorem takeWhile_rejoined (h : Rejoined ls ls') : Rejoined (ls.takeWhile fun l => (headAt k l).isNone)
    (ls'.takeWhile fun l => (headAt k l).isNone) := by
  induction h with
  | nil => exact .nil
  | keep _ ih =>
      rw [List.takeWhile_cons, List.takeWhile_cons]
      split
      · exact .keep ih
      · exact .nil
  | @join l ls ls' _ ih =>
      have hbreak : (['\n'] :: ls).takeWhile (fun l => (headAt k l).isNone) =
          ['\n'] :: ls.takeWhile fun l => (headAt k l).isNone :=
        List.takeWhile_cons_of_pos (by rw [headAt_break]; rfl)
      rw [List.takeWhile_cons, hbreak, List.takeWhile_cons, isNone_newline]
      split
      · exact .join ih
      · exact .nil

theorem sections_break : sections k (['\n'] :: ls) = sections k ls := by
  rw [sections, headAt_break]

theorem sections_rejoined (h : Rejoined ls ls') : sections k ls' = sections k ls := by
  induction h with
  | nil => rfl
  | @keep l ls ls' h ih =>
      rw [sections, sections, ih, flatten_rejoined (takeWhile_rejoined h)]
  | @join l ls ls' h ih =>
      rw [sections, sections, sections_break, ih, headAt_newline, flatten_rejoined (takeWhile_rejoined h)]
      cases headAt k l with
      | none => rfl
      | some head =>
          obtain ⟨key, rest⟩ := head
          simp only [Option.map_some]
          rw [List.takeWhile_cons_of_pos (by rw [headAt_break]; rfl), List.flatten_cons, List.append_assoc]

/-- The first line with a value is the same, up to its line break. -/
theorem find_rejoined (h : Rejoined ls ls') : ls'.find? (fun l => !isFiller l) = ls.find? (fun l => !isFiller l) ∨
    ∃ l, ls.find? (fun l => !isFiller l) = some l ∧ ls'.find? (fun l => !isFiller l) = some (l ++ ['\n']) := by
  induction h with
  | nil => exact Or.inl rfl
  | keep _ ih =>
      rw [List.find?_cons, List.find?_cons]
      split
      · exact Or.inl rfl
      · exact ih
  | join _ ih =>
      rw [List.find?_cons, List.find?_cons, isFiller_newline]
      split
      · exact Or.inr ⟨_, rfl, rfl⟩
      · exact ih

variable {K V A : Type} {parser : Parser K V A} {a : A}

theorem shape_congr {rest rest' : Str} {body body' : List Str} (hrest : isFiller rest' = isFiller rest)
    (hfind : body'.find? (fun l => !isFiller l) = body.find? (fun l => !isFiller l) ∨
      ∃ l, body.find? (fun l => !isFiller l) = some l ∧ body'.find? (fun l => !isFiller l) = some (l ++ ['\n'])) :
    shape (rest' :: body') = shape (rest :: body) := by
  rw [shape, shape, hrest]
  rcases hfind with hfind | ⟨l, hl, hl'⟩
  · rw [hfind]
  · rw [hl, hl']
    simp only [columnOf_newline, headAt_newline, Option.isSome_map]

theorem shape_rejoined (h : Rejoined ls ls') : shape ls' = shape ls := by
  cases h with
  | nil => rfl
  | keep h => exact shape_congr rfl (find_rejoined h)
  | @join l ls ls' h =>
      have hfind := find_rejoined h
      have hbreak : (['\n'] :: ls).find? (fun l => !isFiller l) = ls.find? fun l => !isFiller l := rfl
      rw [← hbreak] at hfind
      exact shape_congr (isFiller_newline _) hfind

theorem settings_rejoined (h : Rejoined ls ls') : parser.settings a ls' = parser.settings a ls := by
  have hitems : ∀ k, parser.items k a ls'.tail = parser.items k a ls.tail := by
    intro k
    rw [Parser.items, Parser.items]
    cases h with
    | nil => rfl
    | keep h => rw [List.tail_cons, List.tail_cons, sections_rejoined h]
    | join h => rw [List.tail_cons, List.tail_cons, sections_break, sections_rejoined h]
  rw [Parser.settings, Parser.settings, shape_rejoined h, flatten_rejoined h]
  simp only [hitems]

/-- The entries of a file are the same, up to line breaks. -/
theorem entries_rejoined (h : Rejoined ls ls') : List.Forall₂ (fun e e' : Entry => e.key = e'.key ∧
    Rejoined (e.rest :: e.body) (e'.rest :: e'.body)) (FlatYaml.entries ls) (FlatYaml.entries ls') := by
  induction h with
  | nil => exact .nil
  | @keep l ls ls' h ih =>
      rw [FlatYaml.entries, FlatYaml.entries]
      cases entryHead l with
      | none => exact ih
      | some head => exact .cons ⟨rfl, .keep (takeWhile_rejoined (k := 0) h)⟩ ih
  | @join l ls ls' h ih =>
      have hbreak : FlatYaml.entries (['\n'] :: ls) = FlatYaml.entries ls := rfl
      rw [FlatYaml.entries, hbreak, FlatYaml.entries, entryHead_newline]
      cases entryHead l with
      | none => exact ih
      | some head =>
          have hspan : (['\n'] :: ls).takeWhile (fun l => (entryHead l).isNone) =
              ['\n'] :: ls.takeWhile fun l => (entryHead l).isNone := rfl
          refine .cons ⟨rfl, ?_⟩ ih
          have hjoin : Rejoined (head.2 :: ['\n'] :: ls.takeWhile fun l => (entryHead l).isNone) _ :=
            .join (takeWhile_rejoined (k := 0) h)
          rw [← hspan] at hjoin
          exact hjoin

/-- **`load_rejoined`** — a file is read the same when its lines have been put together and cut again. -/
theorem load_rejoined (h : Rejoined ls ls') : parser.load ls' = parser.load ls := by
  have hstart : (ls'.takeWhile fun l => (entryHead l).isNone).flatten =
      (ls.takeWhile fun l => (entryHead l).isNone).flatten := flatten_rejoined (takeWhile_rejoined (k := 0) h)
  have hentries : ∀ a, parser.entries a (FlatYaml.entries ls') = parser.entries a (FlatYaml.entries ls) := by
    intro a
    refine (readAll_congr ((entries_rejoined h).imp ?_) a).symm
    rintro e e' ⟨hkey, hlines⟩
    exact ⟨by rw [hkey], fun b => (settings_rejoined hlines).symm⟩
  rw [Parser.load, Parser.load, hstart]
  simp only [hentries]

end

end HummingbirdRpms.BlockMappings
