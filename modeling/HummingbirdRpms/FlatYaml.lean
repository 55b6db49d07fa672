/-
# HummingbirdRpms.FlatYaml — files that map names to blocks, edited line by line.

`ci/package-overrides.yaml` maps package names to settings.  Other tools load it with a YAML parser;
`ci/dist_git.py` edits it as text, so that comments and formatting stay: `_find_top_level_yaml_block`
looks for a line that begins with the name and a colon, and the edits work on the lines.

A `FlatFile` is a file in the style these functions expect: the lines that look like the head of an
entry to them are heads of entries.  `entries` is how a parser reads it, with quoted names as well, and
a name that is listed twice has the last block (`lookup`).  **`entries_renameKey`** says which entry the
renaming of a key moves, if it moves one.
-/
import HummingbirdRpms.History

namespace HummingbirdRpms.FlatYaml

open Lib Lib.Text

/-! ## Heads of entries -/

/-- `_TOP_LEVEL_YAML_KEY_RE`: `^([A-Za-z0-9_.+-]+):` -/
def topLevelKey (line : Str) : Option Str :=
  let key := line.takeWhile isNameChar
  if key ≠ [] ∧ (line.drop key.length).head? = some ':' then some key else none

/-- A name in the file, as it is spelled. -/
inductive Key where
  | plain (s : Str)
  | quoted (s : Str)
  deriving DecidableEq

/-- The text before the first colon that ends a key, and the text after it. -/
def splitKey : Str → Option (Str × Str)
  | [] => none
  | c :: cs =>
      if c = ':' ∧ cs.head?.all isSpace then some ([], cs)
      else (splitKey cs).map fun (key, rest) => (c :: key, rest)

/-- The key of a line that begins an entry, and what stands behind its colon. -/
def entryHead (line : Str) : Option (Key × Str) :=
  match line with
  | [] => none
  | c :: cs =>
      if c = '"' ∨ c = Char.ofNat 39 then
        let key := cs.takeWhile (· ≠ c)
        match splitKey (cs.drop (key.length + 1)) with
        | some (gap, rest) => if gap.all isSpace then some (.quoted key, rest) else none
        | none => none
      else if isSpace c ∨ c = '#' ∨ c = '-' ∧ cs.head?.any isSpace then none
      else (splitKey (c :: cs)).map fun (key, rest) => (.plain key, rest)

/-- An entry: its key, the rest of its first line, and the lines that follow. -/
structure Entry where
  key : Key
  rest : Str
  body : List Str
  deriving DecidableEq

/-- The entries of a file. -/
def entries : List Str → List Entry
  | [] => []
  | l :: ls =>
      match entryHead l with
      | some (key, rest) => ⟨key, rest, ls.takeWhile fun l => (entryHead l).isNone⟩ :: entries ls
      | none => entries ls

/-- The lines of a file, with their line breaks. -/
structure FlatFile where
  lines : List Str
  flat : ∀ l ∈ lines, ∀ k, topLevelKey l = some k → ∃ rest, entryHead l = some (.plain k, rest)

/-- The style can be checked line by line. -/
theorem flat_of_check {lines : List Str}
    (h : ∀ l ∈ lines, (topLevelKey l).all fun k => (entryHead l).any fun head => head.1 = .plain k) :
    ∀ l ∈ lines, ∀ k, topLevelKey l = some k → ∃ rest, entryHead l = some (.plain k, rest) := by
  intro l hl k hk
  have hl := h l hl
  rw [hk, Option.all_some, Option.any_eq_true] at hl
  obtain ⟨⟨key, rest⟩, hhead, hkey⟩ := hl
  obtain rfl : key = .plain k := of_decide_eq_true hkey
  exact ⟨rest, hhead⟩

/-! ## The edits -/

/-- A line that continues an entry. -/
def continues (line : Str) : Bool := (strip line).isEmpty || line.head?.any fun c => c == ' ' || c == '\t'

/-- `_find_top_level_yaml_block`: where the entry begins and ends. -/
def findTopLevelYamlBlock (lines : List Str) (key : Str) : Option (Nat × Nat) :=
  (lines.findIdx? fun l => topLevelKey l = some key).map fun start =>
    (start, start + 1 + ((lines.drop (start + 1)).takeWhile continues).length)

/-- The lines with the first entry of one name under the other: the heart of
`update_package_overrides`. -/
def renameKey (old new : Str) (lines : List Str) : List Str :=
  match findTopLevelYamlBlock lines old with
  | none => lines
  | some (start, _) => lines.set start (new ++ ':' :: (lines.getD start []).drop (old.length + 1))

/-! ## Reading -/

/-- What a YAML parser makes of scalars and blocks. -/
structure Yaml (V : Type) where
  /-- Whether a plain scalar is a string, and not a number, a boolean, a date or null. -/
  isString : Str → Bool
  /-- The value of the text behind a key. -/
  value : Str → List Str → V

section

variable {V : Type} (yaml : Yaml V)

/-- The string a key is read as. -/
def Key.reads : Key → Option Str
  | .plain s => if yaml.isString (rstripBy isSpace s) then some (rstripBy isSpace s) else none
  | .quoted s => some s

/-- The value of a name in a list of entries, the last one winning. -/
def lookup : List Entry → Str → Option V
  | [], _ => none
  | e :: es, k =>
      (lookup es k).or (if e.key.reads yaml = some k then some (yaml.value e.rest e.body) else none)

/-- Some entry is read under a name. -/
def ListedUnder (es : List Entry) (k : Str) : Prop := ∃ e ∈ es, e.key.reads yaml = some k

end

/-! ## Heads and names -/

section Heads

variable {p old new : PackageName} {key rest l : Str} {ls a b : List Str} {k : Str}

theorem splitKey_append (hkey : ':' ∉ key) (hrest : rest.head?.all isSpace = true) :
    splitKey (key ++ ':' :: rest) = some (key, rest) := by
  induction key with
  | nil =>
      rw [List.nil_append, splitKey, if_pos ⟨rfl, hrest⟩]
  | cons c key ih =>
      obtain ⟨hc, hkey⟩ := not_or.mp (mt List.mem_cons.mpr hkey)
      rw [List.cons_append, splitKey, if_neg fun h => hc h.1.symm, ih hkey]
      rfl

theorem splitKey_some {s : Str} (h : splitKey s = some (key, rest)) :
    s = key ++ ':' :: rest ∧ rest.head?.all isSpace = true := by
  induction s generalizing key with
  | nil => exact absurd h (by simp [splitKey])
  | cons c s ih =>
      rw [splitKey] at h
      split at h
      · rename_i hc
        obtain ⟨rfl, rfl⟩ := Prod.mk.inj (Option.some.inj h)
        exact ⟨by rw [hc.1]; rfl, hc.2⟩
      · obtain ⟨⟨key', rest'⟩, hsplit, heq⟩ := Option.map_eq_some_iff.mp h
        obtain ⟨rfl, rfl⟩ := Prod.mk.inj heq
        obtain ⟨rfl, hrest⟩ := ih hsplit
        exact ⟨rfl, hrest⟩

theorem colon_not_mem_name : ':' ∉ p.name := fun h => isNameChar_ne (p.chars _ h) (by decide) rfl

theorem topLevelKey_name : topLevelKey (p.name ++ ':' :: rest) = some p.name := by
  have htake : (p.name ++ ':' :: rest).takeWhile isNameChar = p.name := by
    rw [List.takeWhile_append_of_pos p.chars, List.takeWhile_cons_of_neg (by decide), List.append_nil]
  unfold topLevelKey
  simp only [htake]
  rw [if_pos ⟨p.nonempty, by rw [List.drop_left]; rfl⟩]

theorem topLevelKey_some (h : topLevelKey l = some k) : ∃ rest, l = k ++ ':' :: rest := by
  unfold topLevelKey at h
  simp only at h
  split at h
  · rename_i hcolon
    obtain rfl := Option.some.inj h
    obtain ⟨rest, hrest⟩ := List.head?_eq_some_iff.mp hcolon.2
    refine ⟨rest, ?_⟩
    rw [← hrest]
    exact (List.prefix_iff_eq_append.mp (List.takeWhile_prefix _)).symm
  · exact absurd h (by simp)

theorem entryHead_name (hrest : rest.head?.all isSpace = true) :
    entryHead (p.name ++ ':' :: rest) = some (.plain p.name, rest) := by
  obtain ⟨c, cs, hp⟩ := List.exists_cons_of_ne_nil p.nonempty
  have hc : isNameChar c = true := p.chars c (by rw [hp]; exact List.mem_cons_self)
  have hquote : ¬ (c = '"' ∨ c = Char.ofNat 39) := by
    rintro (h | h)
    · exact isNameChar_ne hc (by decide) h
    · exact isNameChar_ne hc (by decide) h
  -- a name may begin with a hyphen, but no blank follows it
  have hnext : (cs ++ ':' :: rest).head?.any isSpace = false := by
    cases cs with
    | nil => rfl
    | cons d cs =>
        exact isSpace_of_isNameChar (p.chars d (by rw [hp]; exact List.mem_cons_of_mem c List.mem_cons_self))
  have hother : ¬ (isSpace c = true ∨ c = '#' ∨ c = '-' ∧ (cs ++ ':' :: rest).head?.any isSpace = true) := by
    rintro (h | h | h)
    · rw [isSpace_of_isNameChar hc] at h
      exact Bool.noConfusion h
    · exact isNameChar_ne hc (by decide) h
    · rw [hnext] at h
      exact Bool.noConfusion h.2
  have hsplit := splitKey_append (colon_not_mem_name (p := p)) hrest
  rw [hp, List.cons_append] at hsplit
  rw [hp, List.cons_append, entryHead]
  simp only
  rw [if_neg hquote, if_neg hother, hsplit]
  rfl

theorem entryHead_plain (h : entryHead l = some (.plain k, rest)) :
    l = k ++ ':' :: rest ∧ rest.head?.all isSpace = true := by
  unfold entryHead at h
  split at h
  · exact absurd h (by simp)
  · split at h
    · simp only at h
      split at h
      · split at h
        · exact absurd h (by simp)
        · exact absurd h (by simp)
      · exact absurd h (by simp)
    · split at h
      · exact absurd h (by simp)
      · obtain ⟨⟨key, rest'⟩, hsplit, heq⟩ := Option.map_eq_some_iff.mp h
        obtain ⟨hkey, rfl⟩ := Prod.mk.inj heq
        obtain rfl := Key.plain.inj hkey
        exact splitKey_some hsplit

/-- The head of an entry ends the one before. -/
theorem entries_append (h : (entryHead l).isSome = true) :
    entries (a ++ l :: b) = entries a ++ entries (l :: b) := by
  induction a with
  | nil => rfl
  | cons x a ih =>
      rw [List.cons_append, entries, entries, ih]
      cases entryHead x with
      | none => rfl
      | some head =>
          obtain ⟨key, rest⟩ := head
          have hstop : (a ++ l :: b).takeWhile (fun l => (entryHead l).isNone) =
              a.takeWhile fun l => (entryHead l).isNone := by
            have hhead : ¬ (entryHead l).isNone = true := by simpa [← Option.isSome_iff_ne_none] using h
            rw [List.takeWhile_append]
            split
            · rename_i hall
              rw [List.takeWhile_cons, if_neg hhead, List.append_nil]
              exact ((List.takeWhile_prefix _).eq_of_length hall).symm
            · rfl
          simp only [hstop]
          rfl

/-- Renaming a key finds no line, or changes the first one with the key. -/
theorem renameKey_cases (ls : List Str) (old new : Str) :
    (∀ l ∈ ls, topLevelKey l ≠ some old) ∧ renameKey old new ls = ls ∨
      ∃ a rest b, ls = a ++ (old ++ ':' :: rest) :: b ∧ (∀ l ∈ a, topLevelKey l ≠ some old) ∧
        topLevelKey (old ++ ':' :: rest) = some old ∧ renameKey old new ls = a ++ (new ++ ':' :: rest) :: b := by
  unfold renameKey findTopLevelYamlBlock
  cases hfind : ls.findIdx? fun l => topLevelKey l = some old with
  | none =>
      left
      refine ⟨fun l hl => ?_, rfl⟩
      simpa using List.findIdx?_eq_none_iff.mp hfind l hl
  | some i =>
      right
      obtain ⟨hi, hkey, hfirst⟩ := List.findIdx?_eq_some_iff_getElem.mp hfind
      have hkey : topLevelKey ls[i] = some old := of_decide_eq_true hkey
      obtain ⟨rest, hline⟩ := topLevelKey_some hkey
      refine ⟨ls.take i, rest, ls.drop (i + 1), ?_, ?_, hline ▸ hkey, ?_⟩
      · rw [← hline, List.getElem_cons_drop, List.take_append_drop]
      · intro l hl
        obtain ⟨j, hj, rfl⟩ := List.mem_take_iff_getElem.mp hl
        have hlt : j < i := lt_of_lt_of_le hj (min_le_left _ _)
        simpa using hfirst j hlt
      · have hget : ls.getD i [] = old ++ ':' :: rest := by
          rw [List.getD_eq_getElem?_getD, List.getElem?_eq_getElem hi, hline]
          rfl
        have hdrop : (old ++ ':' :: rest).drop (old.length + 1) = rest := by
          rw [List.drop_length_add_append]
          rfl
        show ls.set i (new ++ ':' :: (ls.getD i []).drop (old.length + 1)) = _
        rw [hget, hdrop, List.set_eq_take_append_cons_drop, if_pos hi]

theorem mem_entries {e : Entry} (he : e ∈ entries ls) : ∃ l ∈ ls, entryHead l = some (e.key, e.rest) := by
  induction ls with
  | nil => exact absurd he List.not_mem_nil
  | cons l ls ih =>
      rw [entries] at he
      split at he
      · rename_i key rest hhead
        rcases List.mem_cons.mp he with rfl | he
        · exact ⟨l, List.mem_cons_self, hhead⟩
        · obtain ⟨l', hl', hhead'⟩ := ih he
          exact ⟨l', List.mem_cons_of_mem l hl', hhead'⟩
      · obtain ⟨l', hl', hhead'⟩ := ih he
        exact ⟨l', List.mem_cons_of_mem l hl', hhead'⟩

/-- No entry has a plain key that no line begins with. -/
theorem key_ne_plain (h : ∀ l ∈ ls, topLevelKey l ≠ some p.name) : ∀ e ∈ entries ls, e.key ≠ .plain p.name := by
  intro e he hkey
  obtain ⟨l, hl, hhead⟩ := mem_entries he
  rw [hkey] at hhead
  obtain ⟨rfl, -⟩ := entryHead_plain hhead
  exact h _ hl topLevelKey_name

theorem entries_cons_of_head {k : Key} (h : entryHead l = some (k, rest)) :
    entries (l :: ls) = ⟨k, rest, ls.takeWhile fun l => (entryHead l).isNone⟩ :: entries ls := by
  rw [entries, h]

/-- A blank or the end of the line follows the colon of a key. -/
theorem FlatFile.rest_blank {k : Str} (f : FlatFile) (hl : k ++ ':' :: rest ∈ f.lines)
    (hkey : topLevelKey (k ++ ':' :: rest) = some k) : rest.head?.all isSpace = true := by
  obtain ⟨rest', hhead⟩ := f.flat _ hl k hkey
  obtain ⟨hline, hblank⟩ := entryHead_plain hhead
  obtain rfl := (List.cons.inj (List.append_cancel_left hline)).2
  exact hblank

/-- Renaming a key keeps the style. -/
theorem flat_renameKey (f : FlatFile) : ∀ l ∈ renameKey old.name new.name f.lines, ∀ k,
    topLevelKey l = some k → ∃ rest, entryHead l = some (.plain k, rest) := by
  rcases renameKey_cases f.lines old.name new.name with
    ⟨-, hsame⟩ | ⟨a, rest, b, hlines, -, hkey, hafter⟩
  · rw [hsame]
    exact f.flat
  · intro l hl k hk
    rw [hafter] at hl
    have hmem : ∀ l', l' ∈ a ∨ l' ∈ b → l' ∈ f.lines := by
      intro l' hl'
      rw [hlines]
      simp only [List.mem_append, List.mem_cons]
      tauto
    rcases List.mem_append.mp hl with hl | hl
    · exact f.flat l (hmem l (Or.inl hl)) k hk
    · rcases List.mem_cons.mp hl with rfl | hl
      · rw [topLevelKey_name] at hk
        obtain rfl := Option.some.inj hk
        exact ⟨rest, entryHead_name (f.rest_blank (hlines ▸ List.mem_append_right a List.mem_cons_self) hkey)⟩
      · exact f.flat l (hmem l (Or.inr hl)) k hk

end Heads

/-- `update_package_overrides` -/
def FlatFile.renameKey (f : FlatFile) (old new : PackageName) : FlatFile where
  lines := FlatYaml.renameKey old.name new.name f.lines
  flat := flat_renameKey f

/-- **`entries_renameKey`** — the first plain entry of the old name, if there is one, is under the new
name afterwards; everything else stays. -/
theorem entries_renameKey (f : FlatFile) (old new : PackageName) :
    (∀ e ∈ entries f.lines, e.key ≠ .plain old.name) ∧ (f.renameKey old new).lines = f.lines ∨
      ∃ before e after, entries f.lines = before ++ e :: after ∧ e.key = .plain old.name ∧
        (∀ e' ∈ before, e'.key ≠ .plain old.name) ∧
        entries (f.renameKey old new).lines = before ++ { e with key := .plain new.name } :: after := by
  have hcases := renameKey_cases f.lines old.name new.name
  rcases hcases with ⟨hnone, hsame⟩ | ⟨a, rest, b, hlines, hbefore, hkey, hafter⟩
  · exact Or.inl ⟨key_ne_plain hnone, hsame⟩
  · have hblank : rest.head?.all isSpace = true :=
      f.rest_blank (hlines ▸ List.mem_append_right a List.mem_cons_self) hkey
    have hentries : ∀ p : PackageName, entries (a ++ (p.name ++ ':' :: rest) :: b) =
        entries a ++ ⟨.plain p.name, rest, b.takeWhile fun l => (entryHead l).isNone⟩ :: entries b := by
      intro p
      have hhead : entryHead (p.name ++ ':' :: rest) = some (.plain p.name, rest) := entryHead_name hblank
      rw [entries_append (by rw [hhead]; rfl), entries_cons_of_head hhead]
    refine Or.inr ⟨entries a, ⟨.plain old.name, rest, b.takeWhile fun l => (entryHead l).isNone⟩, entries b, ?_,
      rfl, key_ne_plain hbefore, ?_⟩
    · rw [hlines, hentries old]
    · show entries (FlatYaml.renameKey old.name new.name f.lines) = _
      rw [hafter, hentries new]


/-! ## Lookups -/

section Lookups

variable {V : Type} {yaml : Yaml V} {es fs : List Entry} {k : Str}

theorem lookup_append : lookup yaml (es ++ fs) k = (lookup yaml fs k).or (lookup yaml es k) := by
  induction es with
  | nil => rw [List.nil_append, lookup, Option.or_none]
  | cons e es ih => rw [List.cons_append, lookup, ih, lookup, Option.or_assoc]

theorem lookup_eq_none : lookup yaml es k = none ↔ ¬ ListedUnder yaml es k := by
  induction es with
  | nil => simp [lookup, ListedUnder]
  | cons e es ih =>
      rw [lookup, Option.or_eq_none_iff, ih, ListedUnder, ListedUnder]
      split
      · rename_i he
        simp [he]
      · rename_i he
        simp [he]

theorem not_listed_append : ¬ ListedUnder yaml (es ++ fs) k ↔ ¬ ListedUnder yaml es k ∧ ¬ ListedUnder yaml fs k := by
  rw [← lookup_eq_none, lookup_append, Option.or_eq_none_iff, lookup_eq_none, lookup_eq_none, and_comm]

end Lookups

end HummingbirdRpms.FlatYaml
