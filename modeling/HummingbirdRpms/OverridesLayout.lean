/-
# HummingbirdRpms.OverridesLayout — the order of the overrides and the comments above them.

The entries of `ci/package-overrides.yaml` are in the order of their names, with a blank line between
them, and some have a comment above.  `add_private_product` puts in the blocks of new packages
(`_insert_top_level_yaml_block`), and `rename` changes a key where it stands
(`update_package_overrides`).  A run is a sequence of these edits, with the file written and read again
between the commands.

An insertion goes to the line of the first entry with a greater key.  The comment lines above that
entry stay above that line, so that they belong to the new block afterwards.  A renamed entry does not
move.  **`layout_kept`**: where no insertion meets a comment and every new name fits where the old one
stood, any run keeps the order, and each entry keeps the comment lines directly above it.
-/
import HummingbirdRpms.Lib.Trace
import HummingbirdRpms.PrivateProduct

namespace HummingbirdRpms.OverridesLayout

open Lib Lib.Text Lib.Trace FlatYaml

/-! ## Entries and the comments above them -/

/-- A comment line. -/
def isComment (line : Str) : Bool := (line.dropWhile isSpace).head? == some '#'

/-- The name that a key stands for. -/
def keyName : Key → Str
  | .plain s => rstripBy isSpace s
  | .quoted s => s

/-- An entry of the file: its key, and the comment lines directly above it. -/
structure Item where
  key : Key
  comments : List Str
  deriving DecidableEq

/-- The comment lines directly above the line after `line`. -/
def commentsBelow (above : List Str) (line : Str) : List Str := if isComment line then above ++ [line] else []

/-- The entries of some lines, where `above` are the comment lines directly above the first line. -/
def itemsFrom (above : List Str) : List Str → List Item
  | [] => []
  | l :: ls => ((entryHead l).map fun head => ⟨head.1, above⟩).toList ++ itemsFrom (commentsBelow above l) ls

/-- The entries of a file. -/
def items (lines : List Str) : List Item := itemsFrom [] lines

/-- The entries are in the order of their names. -/
def Ordered (es : List Item) : Prop := es.Pairwise fun e e' => keyName e.key ≤ keyName e'.key

/-! ## Lines -/

/-- A line with its line break. -/
def Ended (l : Str) : Prop := ∃ body c, l = body ++ [c] ∧ Unbroken body ∧ isLineBreak c = true ∧ c ≠ '\r'

/-- A line with its line break, or the rest of a text without one. -/
def IsLine (l : Str) : Prop := Ended l ∨ l ≠ [] ∧ Unbroken l

/-- The text of the file, read and cut into lines. -/
def load (text : Str) : List Str := keepLines (universalNewlines text)

/-- The lines that a command works on.  The last line of the text may lack its line break: what is put
behind it begins with one. -/
structure Editable (lines : List Str) : Prop where
  flat : ∀ l ∈ lines, ∀ k, topLevelKey l = some k → ∃ rest, entryHead l = some (.plain k, rest)
  isLine : ∀ l ∈ lines, IsLine l
  joined : lines.IsChain fun l m => Ended l ∨ m = ['\n']

variable {a b ls ls' cs : List Str} {l m text : Str}

theorem itemsFrom_append : itemsFrom cs (a ++ b) = itemsFrom cs a ++ itemsFrom (a.foldl commentsBelow cs) b := by
  induction a generalizing cs with
  | nil => rfl
  | cons l a ih => rw [List.cons_append, itemsFrom, itemsFrom, ih, List.append_assoc, List.foldl_cons]

theorem entryHead_of_space {c : Char} (h : isSpace c = true) : entryHead (c :: l) = none := by
  have hquote : ¬ (c = '"' ∨ c = Char.ofNat 39) := by
    rintro (rfl | rfl)
    · exact absurd h (by decide)
    · exact absurd h (by decide)
  rw [entryHead]
  simp only
  rw [if_neg hquote, if_pos (Or.inl h)]

/-- The head of an entry is no comment. -/
theorem isComment_of_entryHead (h : (entryHead l).isSome = true) : isComment l = false := by
  cases l with
  | nil => rfl
  | cons c l =>
      have hspace : isSpace c = false := by
        rw [← Bool.not_eq_true]
        intro hc
        rw [entryHead_of_space hc] at h
        exact absurd h (by simp)
      have hhash : c ≠ '#' := by
        rintro rfl
        exact absurd h (by simp [entryHead])
      rw [isComment, List.dropWhile_cons_of_neg (by rw [hspace]; exact Bool.false_ne_true), List.head?_cons]
      exact beq_false_of_ne fun heq => hhash (Option.some.inj heq)

theorem itemsFrom_head {k : Key} {rest : Str} (h : entryHead l = some (k, rest)) :
    itemsFrom cs (l :: ls) = ⟨k, cs⟩ :: itemsFrom [] ls := by
  have hcomment : isComment l = false := isComment_of_entryHead (by rw [h]; rfl)
  rw [itemsFrom, h, commentsBelow, if_neg (by rw [hcomment]; exact Bool.false_ne_true)]
  rfl

/-- No comment stands directly above what follows an empty line. -/
theorem itemsFrom_newline : itemsFrom cs (['\n'] :: ls) = itemsFrom [] ls := rfl

theorem isSpace_of_continues {c : Char} (h : continues (c :: l) = true) : isSpace c = true := by
  by_contra hc
  have hc : isSpace c = false := by simpa using hc
  rw [continues, Bool.or_eq_true] at h
  rcases h with h | h
  · have hstrip : strip (c :: l) = rstripBy isSpace (c :: l) := by
      rw [strip, lstripBy, List.dropWhile_cons_of_neg (by rw [hc]; exact Bool.false_ne_true)]
    obtain ⟨b, hb⟩ := rstripBy_append (a := []) hc l
    rw [hstrip, ← List.nil_append (c :: l), hb] at h
    exact Bool.noConfusion h
  · rw [List.head?_cons, Option.any_some, Bool.or_eq_true, beq_iff_eq, beq_iff_eq] at h
    rcases h with rfl | rfl
    · exact absurd hc (by decide)
    · exact absurd hc (by decide)

/-- A line that continues an entry begins none. -/
theorem entryHead_of_continues (h : continues l = true) : entryHead l = none := by
  cases l with
  | nil => rfl
  | cons c l => exact entryHead_of_space (isSpace_of_continues h)

theorem topLevelKey_cons_none {c : Char} (h : isNameChar c = false) : topLevelKey (c :: l) = none := by
  have htake : (c :: l).takeWhile isNameChar = [] :=
    List.takeWhile_cons_of_neg (by rw [h]; exact Bool.false_ne_true)
  unfold topLevelKey
  simp only [htake]
  exact if_neg fun hcond => hcond.1 rfl

theorem topLevelKey_of_continues (h : continues l = true) : topLevelKey l = none := by
  cases l with
  | nil => rfl
  | cons c l =>
      apply topLevelKey_cons_none
      by_contra hc
      have hspace := isSpace_of_isNameChar (by simpa using hc)
      rw [isSpace_of_continues h] at hspace
      exact Bool.noConfusion hspace

theorem itemsFrom_continues (h : ∀ l ∈ a, continues l = true) : itemsFrom cs a = [] := by
  induction a generalizing cs with
  | nil => rfl
  | cons l a ih =>
      rw [List.forall_mem_cons] at h
      rw [itemsFrom, entryHead_of_continues h.1, ih h.2]
      rfl

theorem mem_itemsFrom {e : Item} (he : e ∈ itemsFrom cs ls) : ∃ l ∈ ls, ∃ rest, entryHead l = some (e.key, rest) := by
  induction ls generalizing cs with
  | nil => exact absurd he List.not_mem_nil
  | cons l ls ih =>
      rw [itemsFrom, List.mem_append, Option.mem_toList, Option.map_eq_some_iff] at he
      rcases he with ⟨head, hhead, rfl⟩ | he
      · exact ⟨l, List.mem_cons_self, head.2, hhead⟩
      · obtain ⟨l', hl', hhead'⟩ := ih he
        exact ⟨l', List.mem_cons_of_mem l hl', hhead'⟩

/-! ## Reading and writing the file -/

theorem Ended.keepLines (h : Ended l) : keepLines (l ++ text) = l :: keepLines text := by
  obtain ⟨body, c, rfl, hbody, hbreak, hreturn⟩ := h
  induction body with
  | nil =>
      show HummingbirdRpms.keepLines (c :: text) = _
      rw [HummingbirdRpms.keepLines, if_pos ⟨hbreak, fun h => hreturn h.1⟩]
      rfl
  | cons d body ih =>
      have hd : isLineBreak d = false := hbody d List.mem_cons_self
      have ih := ih fun x hx => hbody x (List.mem_cons_of_mem d hx)
      rw [List.cons_append, List.cons_append, HummingbirdRpms.keepLines, if_neg (by rw [hd]; simp), ih]

theorem keepLines_unbroken (hne : l ≠ []) (h : Unbroken l) : keepLines l = [l] := by
  induction l with
  | nil => exact absurd rfl hne
  | cons d l ih =>
      have hd : isLineBreak d = false := h d List.mem_cons_self
      rw [keepLines, if_neg (by rw [hd]; simp)]
      cases l with
      | nil => rfl
      | cons e l => rw [ih (List.cons_ne_nil e l) fun x hx => h x (List.mem_cons_of_mem d hx)]

theorem Ended.cons {c : Char} (hc : isLineBreak c = false) (h : Ended l) : Ended (c :: l) := by
  obtain ⟨body, d, rfl, hbody, hd⟩ := h
  exact ⟨c :: body, d, rfl, List.forall_mem_cons.mpr ⟨hc, hbody⟩, hd⟩

/-- The lines of a text without carriage returns. -/
theorem lines_keepLines (h : '\r' ∉ text) :
    (∀ l ∈ keepLines text, IsLine l) ∧ (keepLines text).IsChain fun l m => Ended l ∨ m = ['\n'] := by
  induction text with
  | nil => exact ⟨List.forall_mem_nil _, List.IsChain.nil⟩
  | cons c text ih =>
      obtain ⟨hc, htext⟩ := not_or.mp (mt List.mem_cons.mpr h)
      obtain ⟨hlines, hchain⟩ := ih htext
      rw [keepLines]
      by_cases hbreak : isLineBreak c = true
      · have hended : Ended [c] := ⟨[], c, rfl, List.forall_mem_nil _, hbreak, fun h => hc h.symm⟩
        rw [if_pos ⟨hbreak, fun h => hc h.1.symm⟩]
        exact ⟨List.forall_mem_cons.mpr ⟨Or.inl hended, hlines⟩, List.isChain_cons.mpr ⟨fun _ _ => Or.inl hended, hchain⟩⟩
      · rw [if_neg fun h => hbreak h.1]
        have hbreak : isLineBreak c = false := by simpa using hbreak
        cases hkeep : keepLines text with
        | nil =>
            refine ⟨?_, List.IsChain.singleton _⟩
            rw [List.forall_mem_singleton]
            exact Or.inr ⟨List.cons_ne_nil _ _, List.forall_mem_singleton.mpr hbreak⟩
        | cons l ls =>
            rw [hkeep] at hlines hchain
            rw [List.forall_mem_cons] at hlines
            rw [List.isChain_cons] at hchain
            refine ⟨List.forall_mem_cons.mpr ⟨?_, hlines.2⟩, List.isChain_cons.mpr ⟨?_, hchain.2⟩⟩
            · rcases hlines.1 with hl | ⟨-, hl⟩
              · exact Or.inl (hl.cons hbreak)
              · exact Or.inr ⟨List.cons_ne_nil _ _, List.forall_mem_cons.mpr ⟨hbreak, hl⟩⟩
            · intro m hm
              exact (hchain.1 m hm).imp_left fun hl => hl.cons hbreak

theorem ended_newline (h : Unbroken l) : Ended (l ++ ['\n']) := ⟨l, '\n', rfl, h, by decide, by decide⟩

theorem IsLine.return_notMem (h : IsLine l) : '\r' ∉ l := by
  have hunbroken : ∀ {s : Str}, Unbroken s → '\r' ∉ s := fun hs hr => absurd (hs _ hr) (by decide)
  rcases h with ⟨body, c, rfl, hbody, -, hc⟩ | ⟨-, hl⟩
  · rw [List.mem_append, List.mem_singleton]
    exact not_or.mpr ⟨hunbroken hbody, fun h => hc h.symm⟩
  · exact hunbroken hl

/-- What becomes of a line that got its line break later. -/
theorem splitKey_newline (s : Str) :
    splitKey (s ++ ['\n']) = (splitKey s).map fun head => (head.1, head.2 ++ ['\n']) := by
  induction s with
  | nil => rfl
  | cons c s ih =>
      have hnext : ((s ++ ['\n']).head?.all isSpace) = s.head?.all isSpace := by
        cases s with
        | nil => rfl
        | cons d s => rfl
      rw [List.cons_append, splitKey, splitKey, hnext]
      by_cases hc : c = ':' ∧ s.head?.all isSpace = true
      · rw [if_pos hc, if_pos hc]
        rfl
      · rw [if_neg hc, if_neg hc, ih, Option.map_map, Option.map_map]
        rfl

theorem topLevelKey_newline (l : Str) : topLevelKey (l ++ ['\n']) = topLevelKey l := by
  have htake : (l ++ ['\n']).takeWhile isNameChar = l.takeWhile isNameChar := by
    rw [List.takeWhile_append]
    split
    · rename_i hall
      rw [List.takeWhile_cons_of_neg (by decide), List.append_nil]
      exact ((List.takeWhile_prefix _).eq_of_length hall).symm
    · rfl
  have hhead : ((l ++ ['\n']).drop (l.takeWhile isNameChar).length).head? = some ':' ↔
      (l.drop (l.takeWhile isNameChar).length).head? = some ':' := by
    rw [List.drop_append_of_le_length (List.takeWhile_prefix _).length_le]
    cases l.drop (l.takeWhile isNameChar).length with
    | nil => exact iff_of_false (by decide) (by simp)
    | cons c s => exact Iff.rfl
  unfold topLevelKey
  simp only [htake, hhead]

theorem entryHead_quote {c : Char} (hc : c = '"' ∨ c = Char.ofNat 39) (s : Str) :
    entryHead (c :: s) = (splitKey (s.drop ((s.takeWhile (· ≠ c)).length + 1))).bind fun head =>
      if head.1.all isSpace then some (.quoted (s.takeWhile (· ≠ c)), head.2) else none := by
  rw [entryHead]
  simp only
  rw [if_pos hc]
  cases splitKey (s.drop ((s.takeWhile (· ≠ c)).length + 1)) with
  | none => rfl
  | some head => rfl

theorem entryHead_not_quote {c : Char} (hc : ¬ (c = '"' ∨ c = Char.ofNat 39)) (s : Str) :
    entryHead (c :: s) = if isSpace c = true ∨ c = '#' ∨ c = '-' ∧ s.head?.any isSpace = true then none
      else (splitKey (c :: s)).map fun head => (.plain head.1, head.2) := by
  rw [entryHead]
  simp only
  rw [if_neg hc]

/-- The key of a line does not depend on its line break. -/
theorem entryHead_newline (l : Str) :
    entryHead (l ++ ['\n']) = (entryHead l).map fun head => (head.1, head.2 ++ ['\n']) := by
  cases l with
  | nil => rw [List.nil_append, entryHead_of_space (by decide)]; rfl
  | cons c s =>
      by_cases hquote : c = '"' ∨ c = Char.ofNat 39
      · rw [List.cons_append, entryHead_quote hquote, entryHead_quote hquote]
        have hne : ('\n' : Char) ≠ c := by
          rintro rfl
          exact absurd hquote (by decide)
        by_cases hopen : ∀ d ∈ s, d ≠ c
        · -- without a closing quotation mark neither line has a key
          have hnone : ∀ s : Str, (∀ d ∈ s, d ≠ c) → splitKey (s.drop ((s.takeWhile (· ≠ c)).length + 1)) = none := by
            intro s hs
            rw [List.takeWhile_eq_self_iff.mpr (by simpa using hs), List.drop_eq_nil_of_le (by omega)]
            rfl
          have hopen' : ∀ d ∈ s ++ ['\n'], d ≠ c := by
            intro d hd
            rcases List.mem_append.mp hd with hd | hd
            · exact hopen d hd
            · rw [List.mem_singleton.mp hd]
              exact hne
          rw [hnone _ hopen, hnone _ hopen']
          rfl
        · have hlt : (s.takeWhile (· ≠ c)).length < s.length := by
            apply lt_of_le_of_ne (List.takeWhile_prefix _).length_le
            intro hall
            apply hopen
            have hself := List.takeWhile_eq_self_iff.mp ((List.takeWhile_prefix (· ≠ c)).eq_of_length hall)
            simpa using hself
          have htake : (s ++ ['\n']).takeWhile (· ≠ c) = s.takeWhile (· ≠ c) := by
            rw [List.takeWhile_append, if_neg (Nat.ne_of_lt hlt)]
          rw [htake, List.drop_append_of_le_length hlt, splitKey_newline]
          cases splitKey (s.drop ((s.takeWhile (· ≠ c)).length + 1)) with
          | none => rfl
          | some head =>
              simp only [Option.map_some, Option.bind_some]
              split <;> rfl
      · rw [List.cons_append, entryHead_not_quote hquote, entryHead_not_quote hquote, ← List.cons_append,
          splitKey_newline]
        cases s with
        | cons d s =>
            show (if isSpace c = true ∨ c = '#' ∨ c = '-' ∧ isSpace d = true then none else _) =
              (if isSpace c = true ∨ c = '#' ∨ c = '-' ∧ isSpace d = true then none else _).map _
            split
            · rfl
            · rw [Option.map_map, Option.map_map]
              rfl
        | nil =>
            -- a character alone is the head of an entry only if it is a colon
            by_cases hc : c = ':'
            · rw [hc]
              rfl
            · have hnone : splitKey [c] = none := by rw [splitKey, if_neg fun h => hc h.1]; rfl
              rw [hnone]
              split <;> split <;> rfl

/-- Writing a file and reading it again joins an open line with the bare line break behind it. -/
theorem keepLines_open (h : Unbroken l) : keepLines (l ++ '\n' :: text) = (l ++ ['\n']) :: keepLines text := by
  rw [← (ended_newline h).keepLines, List.append_assoc]
  rfl

/-- `ls'` are the lines of `ls` after a line break behind an open line has become part of it. -/
inductive Rejoined : List Str → List Str → Prop where
  | nil : Rejoined [] []
  | keep {l : Str} {ls ls' : List Str} : Rejoined ls ls' → Rejoined (l :: ls) (l :: ls')
  | join {l : Str} {ls ls' : List Str} : Rejoined ls ls' → Rejoined (l :: ['\n'] :: ls) ((l ++ ['\n']) :: ls')

theorem rejoined (hline : ∀ l ∈ ls, IsLine l) (hjoined : ls.IsChain fun l m => Ended l ∨ m = ['\n']) :
    Rejoined ls (keepLines ls.flatten) := by
  induction ls using List.twoStepInduction with
  | nil => exact .nil
  | singleton l =>
      have hkeep : keepLines l = [l] := by
        rcases hline l List.mem_cons_self with hl | ⟨hne, hl⟩
        · rw [← List.append_nil l, hl.keepLines, List.append_nil]
          rfl
        · exact keepLines_unbroken hne hl
      rw [List.flatten_singleton, hkeep]
      exact .keep .nil
  | cons_cons l m ls ih ih' =>
      rw [List.forall_mem_cons] at hline
      rw [List.isChain_cons_cons] at hjoined
      by_cases hended : Ended l
      · rw [List.flatten_cons, hended.keepLines]
        exact .keep (ih' m hline.2 hjoined.2)
      · -- nothing but a line break stands behind an open line
        obtain rfl : m = ['\n'] := hjoined.1.resolve_left hended
        have hl : Unbroken l := (hline.1.resolve_left hended).2
        rw [List.flatten_cons, List.flatten_cons, List.singleton_append, keepLines_open hl]
        exact .join (ih (fun x hx => hline.2 x (List.mem_cons_of_mem _ hx)) hjoined.2.tail)

theorem Rejoined.mem (h : Rejoined ls ls') (hl : l ∈ ls') : l ∈ ls ∨ ∃ m ∈ ls, l = m ++ ['\n'] := by
  induction h with
  | nil => exact Or.inl hl
  | keep _ ih =>
      rcases List.mem_cons.mp hl with rfl | hl
      · exact Or.inl List.mem_cons_self
      · rcases ih hl with h | ⟨m, hm, h⟩
        · exact Or.inl (List.mem_cons_of_mem _ h)
        · exact Or.inr ⟨m, List.mem_cons_of_mem _ hm, h⟩
  | join _ ih =>
      rcases List.mem_cons.mp hl with rfl | hl
      · exact Or.inr ⟨_, List.mem_cons_self, rfl⟩
      · rcases ih hl with h | ⟨m, hm, h⟩
        · exact Or.inl (List.mem_cons_of_mem _ (List.mem_cons_of_mem _ h))
        · exact Or.inr ⟨m, List.mem_cons_of_mem _ (List.mem_cons_of_mem _ hm), h⟩

/-- An entry after an edit that leaves it where it is: the key is the same, and so are the comment lines
directly above it. -/
def Item.Stays (e e' : Item) : Prop := e'.key = e.key ∧ e.comments <:+ e'.comments

theorem suffix_commentsBelow {cs' : List Str} (h : cs <:+ cs') : commentsBelow cs l <:+ commentsBelow cs' l := by
  unfold commentsBelow
  split
  · obtain ⟨t, rfl⟩ := h
    exact ⟨t, by rw [List.append_assoc]⟩
  · exact List.suffix_rfl

/-- The entry that a line begins, if it begins one. -/
theorem forall₂_head {cs' : List Str} {head head' : Option (Key × Str)} (h : cs <:+ cs')
    (hkey : head'.map Prod.fst = head.map Prod.fst) :
    List.Forall₂ Item.Stays (head.map fun head => (⟨head.1, cs⟩ : Item)).toList
      (head'.map fun head => (⟨head.1, cs'⟩ : Item)).toList := by
  cases head with
  | none =>
      rw [Option.map_none, Option.map_eq_none_iff] at hkey
      rw [hkey]
      exact .nil
  | some head =>
      obtain ⟨head', rfl, hfst⟩ := Option.map_eq_some_iff.mp hkey
      exact .cons ⟨hfst, h⟩ .nil

/-- Reading the file again finds the same entries. -/
theorem Rejoined.items {cs' : List Str} (h : Rejoined ls ls') (hcs : cs <:+ cs') :
    List.Forall₂ Item.Stays (itemsFrom cs ls) (itemsFrom cs' ls') := by
  induction h generalizing cs cs' with
  | nil => exact .nil
  | keep _ ih =>
      rw [itemsFrom, itemsFrom]
      exact List.rel_append (forall₂_head hcs rfl) (ih (suffix_commentsBelow hcs))
  | join _ ih =>
      rw [itemsFrom, itemsFrom_newline, itemsFrom]
      have hkey : ∀ l, (entryHead (l ++ ['\n'])).map Prod.fst = (entryHead l).map Prod.fst := by
        intro l
        rw [entryHead_newline, Option.map_map]
        rfl
      exact List.rel_append (forall₂_head hcs (hkey _)) (ih List.nil_suffix)

/-! ## Blocks -/

/-- The text of a new entry, as `yaml.dump` writes it: the key is on the first line, and the other lines
continue the entry. -/
structure Block where
  name : PackageName
  text : Str
  head : Str
  body : List Str
  key : Key
  rest : Str
  return_notMem : '\r' ∉ text
  lines_eq : keepLines (if text = [] ∨ endsWith "\n" text then text else text ++ ['\n']) = head :: body
  ended : ∀ l ∈ head :: body, Ended l
  entry : entryHead head = some (key, rest)
  key_eq : key = .plain name.name ∨ key = .quoted name.name
  continues : ∀ l ∈ body, continues l = true

/-- The lines above the place for a new entry. -/
def linesAbove (name : Str) (lines : List Str) : List Str :=
  lines.take ((lines.findIdx? fun l => (topLevelKey l).any (name < ·)).getD lines.length)

/-- A block is put in front of the first entry with a greater key, or at the end. -/
theorem insert_cases (b : Block) (lines : List Str) :
    (∃ l below k, lines = linesAbove b.name.name lines ++ l :: below ∧ topLevelKey l = some k ∧ b.name.name < k ∧
      insertTopLevelYamlBlock lines b.name.name b.text =
        linesAbove b.name.name lines ++ (b.head :: b.body ++ ['\n'] :: l :: below)) ∨
    linesAbove b.name.name lines = lines ∧ ∃ gap,
      (gap = [['\n']] ∨ gap = [] ∧ ∀ l ∈ lines.getLast?, strip l = []) ∧
      insertTopLevelYamlBlock lines b.name.name b.text = lines ++ (gap ++ b.head :: b.body) := by
  unfold insertTopLevelYamlBlock linesAbove
  simp only [b.lines_eq]
  cases hfind : lines.findIdx? fun l => (topLevelKey l).any (b.name.name < ·) with
  | none =>
      right
      rw [Option.getD_none, List.take_length]
      refine ⟨rfl, ?_⟩
      rw [if_pos rfl]
      by_cases hlast : (lines.getLast?.any fun l => decide (strip l ≠ [])) = true
      · exact ⟨[['\n']], Or.inl rfl, by rw [if_pos hlast]; simp⟩
      · refine ⟨[], Or.inr ⟨rfl, ?_⟩, by rw [if_neg hlast]; simp⟩
        intro l hl
        rw [Option.mem_def.mp hl] at hlast
        simpa using hlast
  | some i =>
      left
      obtain ⟨hi, hgreater, -⟩ := List.findIdx?_eq_some_iff_getElem.mp hfind
      obtain ⟨k, hk, hlt⟩ := (Option.any_eq_true _ _).mp hgreater
      have hlines : lines = lines.take i ++ lines[i] :: lines.drop (i + 1) := by
        rw [List.getElem_cons_drop, List.take_append_drop]
      refine ⟨lines[i], lines.drop (i + 1), k, hlines, hk, of_decide_eq_true hlt, ?_⟩
      rw [Option.getD_some, if_neg (Nat.ne_of_lt hi), List.getElem_cons_drop]
      simp

/-! ## Edits -/

/-- The line behind a head is no bare line break, and neither is the head. -/
theorem ne_newline_of_topLevelKey {k : Str} (h : topLevelKey l = some k) : l ≠ ['\n'] := by
  rintro rfl
  rw [topLevelKey_cons_none (by decide)] at h
  exact absurd h (by simp)

/-- A line that the regular expression takes for a head has a plain key, if it has one. -/
theorem plain_of_topLevelKey {k : Str} {key : Key} {rest : Str} (h : topLevelKey l = some k)
    (hhead : entryHead l = some (key, rest)) : ∃ s, key = .plain s := by
  cases l with
  | nil => exact absurd hhead (by simp [entryHead])
  | cons c l =>
      have hquote : ¬ (c = '"' ∨ c = Char.ofNat 39) := by
        rintro hc
        have hname : isNameChar c = false := by rcases hc with rfl | rfl <;> decide
        rw [topLevelKey_cons_none hname] at h
        exact absurd h (by simp)
      rw [entryHead_not_quote hquote] at hhead
      split at hhead
      · exact absurd hhead (by simp)
      · obtain ⟨head, -, heq⟩ := Option.map_eq_some_iff.mp hhead
        exact ⟨head.1, (Prod.mk.inj heq).1.symm⟩

theorem Block.flat (b : Block) : ∀ l ∈ b.head :: b.body, ∀ k, topLevelKey l = some k →
    ∃ rest, entryHead l = some (.plain k, rest) := by
  intro l hl k hk
  rcases List.mem_cons.mp hl with rfl | hl
  · obtain ⟨s, hs⟩ := plain_of_topLevelKey hk b.entry
    have hplain : b.key = .plain b.name.name :=
      b.key_eq.resolve_right fun hquoted => absurd (hs.symm.trans hquoted) (by simp)
    have hentry := b.entry
    rw [hplain] at hentry
    rw [(entryHead_plain hentry).1, topLevelKey_name] at hk
    rw [← Option.some.inj hk]
    exact ⟨b.rest, hentry⟩
  · rw [topLevelKey_of_continues (b.continues l hl)] at hk
    exact absurd hk (by simp)

/-- An edit of the file, or the end of a command and the beginning of the next. -/
inductive Edit where
  | insert (block : Block)
  | rename (old new : PackageName)
  | save

/-- What an edit makes of the lines. -/
def act : Edit → List Str → List Str
  | .insert b, lines => insertTopLevelYamlBlock lines b.name.name b.text
  | .rename old new, lines => renameKey old.name new.name lines
  | .save, lines => load lines.flatten

/-- A package without an entry gets the block that `yaml.dump` writes. -/
theorem assign_of_absent {env : ProductEnv} {product : Str} {b : Block} {lines : List Str}
    (habsent : findTopLevelYamlBlock lines b.name.name = none)
    (hdump : env.dump (.dict [(b.name.name, .dict [("private_product".toList, .str product)])]) = b.text) :
    assign env product lines b.name.name = act (.insert b) lines := by
  rw [assign, habsent, hdump]
  rfl

/-- Where the entry of a new name goes. -/
def place (name : Str) (lines : List Str) : Nat := (items (linesAbove name lines)).length

/-- Which entry a renaming changes. -/
def renamed (old : PackageName) (lines : List Str) : Option Nat :=
  (items lines).findIdx? fun e => e.key = .plain old.name

/-- An entry under its number and key, followed through an edit: an insertion moves the entries below the
place by one, and a renaming gives one entry another key. -/
def follow (edit : Edit) (lines : List Str) (entry : Nat × Key) : Nat × Key :=
  match edit with
  | .insert b => (if entry.1 < place b.name.name lines then entry.1 else entry.1 + 1, entry.2)
  | .rename old new => (entry.1, if renamed old lines = some entry.1 then .plain new.name else entry.2)
  | .save => entry

/-- An entry followed through a run. -/
def followAll : List Edit → List Str → Nat × Key → Nat × Key
  | [], _, entry => entry
  | edit :: rest, lines, entry => followAll rest (act edit lines) (follow edit lines entry)

/-- Every entry is found again, with the comment lines directly above it. -/
def Carried (track : Nat × Key → Nat × Key) (es es' : List Item) : Prop :=
  ∀ i e, es[i]? = some e → ∃ e', es'[(track (i, e.key)).1]? = some e' ∧
    e'.key = (track (i, e.key)).2 ∧ e.comments <:+ e'.comments

/-- After a run the entries are still in order, and those from before have kept their comments. -/
def Kept (run : List Edit) (lines : List Str) : Prop :=
  Ordered (items (runAll act run lines)) ∧
    Carried (followAll run lines) (items lines) (items (runAll act run lines))

/-- A block fits: no entry above its place has a greater name, no comment line is directly above the entry
it is put in front of, and at the end of the file it begins on a line of its own. -/
structure BlockFits (b : Block) (lines : List Str) : Prop where
  order : ∀ e ∈ items (linesAbove b.name.name lines), keyName e.key ≤ b.name.name
  comments : ∀ e ∈ (items lines)[place b.name.name lines]?, e.comments = []
  ownLine : linesAbove b.name.name lines = lines → ∀ l ∈ lines.getLast?, strip l = [] → Ended l

/-- A new name fits between the entries around the one that is renamed. -/
def NameFits (old new : PackageName) (lines : List Str) : Prop :=
  ∀ i, renamed old lines = some i → (∀ e ∈ (items lines).take i, keyName e.key ≤ new.name) ∧
    ∀ e ∈ (items lines).drop (i + 1), new.name ≤ keyName e.key

/-- The condition on an edit. -/
def Fits : Edit → List Str → Prop
  | .insert b, lines => BlockFits b lines
  | .rename old new, lines => NameFits old new lines
  | .save, _ => True

/-! ## What one edit keeps -/

theorem Carried.trans {f g : Nat × Key → Nat × Key} {es es' es'' : List Item} (h : Carried f es es')
    (h' : Carried g es' es'') : Carried (g ∘ f) es es'' := by
  intro i e he
  obtain ⟨e', he', hkey, hcomments⟩ := h i e he
  obtain ⟨e'', he'', hkey', hcomments'⟩ := h' _ e' he'
  rw [hkey] at he'' hkey'
  exact ⟨e'', he'', hkey', hcomments.trans hcomments'⟩

theorem ended_of_joined (h : (a ++ l :: b).IsChain fun l m => Ended l ∨ m = ['\n']) (hl : l ≠ ['\n']) :
    ∀ m ∈ a.getLast?, Ended m := by
  intro m hm
  have hjoin := (List.isChain_append.mp h).2.2 m hm l (by rw [List.head?_cons]; rfl)
  exact hjoin.resolve_right hl

theorem isChain_splice (ha : a.IsChain fun l m => Ended l ∨ m = ['\n']) (hlast : ∀ m ∈ a.getLast?, Ended m)
    (hb : b.IsChain fun l m => Ended l ∨ m = ['\n']) : (a ++ b).IsChain fun l m => Ended l ∨ m = ['\n'] :=
  List.isChain_append.mpr ⟨ha, hb, fun m hm _ _ => Or.inl (hlast m hm)⟩

theorem isChain_ended_append (ha : ∀ l ∈ a, Ended l) (hb : b.IsChain fun l m => Ended l ∨ m = ['\n']) :
    (a ++ b).IsChain fun l m => Ended l ∨ m = ['\n'] := by
  induction a with
  | nil => exact hb
  | cons l a ih =>
      rw [List.forall_mem_cons] at ha
      exact List.isChain_cons.mpr ⟨fun _ _ => Or.inl ha.1, ih ha.2⟩

theorem exists_name_of_topLevelKey {k : Str} (h : topLevelKey l = some k) : ∃ p : PackageName, p.name = k := by
  unfold topLevelKey at h
  simp only at h
  split at h
  · rename_i hkey
    obtain rfl := Option.some.inj h
    exact ⟨⟨_, hkey.1, fun c hc => List.mem_takeWhile_imp hc⟩, rfl⟩
  · exact absurd h (by simp)

theorem keyName_plain (p : PackageName) : keyName (.plain p.name) = p.name := by
  apply List.rdropWhile_eq_self_iff.mpr
  intro hne
  rw [isSpace_of_isNameChar (p.chars _ (List.getLast_mem hne))]
  exact Bool.false_ne_true

theorem Block.keyName_key (b : Block) : keyName b.key = b.name.name := by
  rcases b.key_eq with h | h
  · rw [h, keyName_plain]
  · rw [h, keyName]

theorem isComment_of_strip (h : strip l = []) : isComment l = false := by
  have hblank : l.dropWhile isSpace = [] := by
    rw [strip, rstripBy, List.rdropWhile_eq_nil_iff, lstripBy] at h
    by_contra hne
    have hhead := List.head_dropWhile_not isSpace hne
    rw [h _ (List.head_mem hne)] at hhead
    exact Bool.noConfusion hhead
  rw [isComment, hblank]
  rfl

/-- No comment stands directly above what follows a blank line. -/
theorem foldl_commentsBelow_blank (h : ∀ l ∈ ls.getLast?, strip l = []) : ls.foldl commentsBelow [] = [] := by
  rcases List.eq_nil_or_concat' ls with rfl | ⟨init, last, rfl⟩
  · rfl
  · have hcomment := isComment_of_strip (h last (by rw [List.getLast?_concat]; rfl))
    rw [List.foldl_concat, commentsBelow, if_neg (by rw [hcomment]; exact Bool.false_ne_true)]

/-- The entries after an insertion: the new one, without comments, stands where it belongs. -/
theorem items_insert {b : Block} {lines : List Str} (hlines : Editable lines) (hfits : BlockFits b lines) :
    ∃ es', items lines = items (linesAbove b.name.name lines) ++ es' ∧
      items (act (.insert b) lines) = items (linesAbove b.name.name lines) ++ ⟨b.key, []⟩ :: es' ∧
      ∀ e ∈ es'.head?, b.name.name < keyName e.key := by
  rcases insert_cases b lines with ⟨l, below, k, hsplit, hk, hlt, hafter⟩ | ⟨hall, gap, hgap, hafter⟩
  · generalize hA : linesAbove b.name.name lines = A at hsplit hafter
    obtain ⟨rest, hhead⟩ := hlines.flat l (by rw [hsplit]; simp) k hk
    have hitems : items lines = items A ++ ⟨.plain k, A.foldl commentsBelow []⟩ :: itemsFrom [] below := by
      rw [hsplit, items, itemsFrom_append, itemsFrom_head hhead, items]
    have habove : A.foldl commentsBelow [] = [] := by
      refine hfits.comments ⟨.plain k, A.foldl commentsBelow []⟩ (Option.mem_def.mpr ?_)
      rw [place, hA, hitems, List.getElem?_append_right le_rfl, Nat.sub_self]
      rfl
    rw [habove] at hitems
    refine ⟨_, hitems, ?_, ?_⟩
    · show items (insertTopLevelYamlBlock lines b.name.name b.text) = _
      rw [hafter, items, itemsFrom_append, habove, List.cons_append, itemsFrom_head b.entry, itemsFrom_append,
        itemsFrom_continues b.continues, List.nil_append, itemsFrom_newline, itemsFrom_head hhead]
      rfl
    · rintro e he
      obtain rfl := Option.some.inj he
      obtain ⟨p, rfl⟩ := exists_name_of_topLevelKey hk
      rw [keyName_plain]
      exact hlt
  · rw [hall]
    refine ⟨[], (List.append_nil _).symm, ?_, by simp⟩
    show items (insertTopLevelYamlBlock lines b.name.name b.text) = _
    have hbody : itemsFrom [] (b.head :: b.body) = [⟨b.key, []⟩] := by
      rw [itemsFrom_head b.entry, itemsFrom_continues b.continues]
    rw [hafter, items, itemsFrom_append]
    rcases hgap with rfl | ⟨rfl, hblank⟩
    · rw [List.singleton_append, itemsFrom_newline, hbody]
      rfl
    · rw [List.nil_append, foldl_commentsBelow_blank hblank, hbody]
      rfl

theorem ordered_insert {es es' : List Item} {x : Item} (h : Ordered (es ++ es'))
    (habove : ∀ e ∈ es, keyName e.key ≤ keyName x.key) (hbelow : ∀ e ∈ es'.head?, keyName x.key < keyName e.key) :
    Ordered (es ++ x :: es') := by
  obtain ⟨hes, hes', hcross⟩ := List.pairwise_append.mp h
  have hx : ∀ e ∈ es', keyName x.key ≤ keyName e.key := by
    cases es' with
    | nil => exact fun _ he => absurd he List.not_mem_nil
    | cons y es' =>
        have hy : keyName x.key ≤ keyName y.key := le_of_lt (hbelow y rfl)
        rw [List.forall_mem_cons]
        exact ⟨hy, fun e he => hy.trans ((List.pairwise_cons.mp hes').1 e he)⟩
  refine List.pairwise_append.mpr ⟨hes, List.pairwise_cons.mpr ⟨hx, hes'⟩, ?_⟩
  intro e he e' he'
  rcases List.mem_cons.mp he' with rfl | he'
  · exact habove e he
  · exact hcross e he e' he'

theorem carried_insert (es es' : List Item) (x : Item) :
    Carried (fun entry => (if entry.1 < es.length then entry.1 else entry.1 + 1, entry.2)) (es ++ es') (es ++ x :: es') := by
  intro i e he
  refine ⟨e, ?_, rfl, List.suffix_rfl⟩
  show (es ++ x :: es')[if i < es.length then i else i + 1]? = some e
  by_cases hi : i < es.length
  · rw [if_pos hi, List.getElem?_append_left hi]
    rwa [List.getElem?_append_left hi] at he
  · rw [if_neg hi, List.getElem?_append_right (by omega)]
    rw [List.getElem?_append_right (by omega)] at he
    have hsub : i + 1 - es.length = (i - es.length) + 1 := by omega
    rw [hsub, List.getElem?_cons_succ]
    exact he

/-- What an insertion keeps. -/
theorem insert_keeps {b : Block} {lines : List Str} (hlines : Editable lines) (hfits : BlockFits b lines)
    (horder : Ordered (items lines)) : Ordered (items (act (.insert b) lines)) ∧
      Carried (follow (.insert b) lines) (items lines) (items (act (.insert b) lines)) := by
  obtain ⟨es', hitems, hafter, hbelow⟩ := items_insert hlines hfits
  rw [← b.keyName_key] at hbelow
  have habove := hfits.order
  rw [← b.keyName_key] at habove
  rw [hitems] at horder
  rw [hafter]
  refine ⟨ordered_insert horder (fun e he => ?_) hbelow, ?_⟩
  · exact hfits.order e he |>.trans_eq b.keyName_key.symm
  · rw [hitems]
    exact carried_insert _ es' _

/-- The entries after a renaming: one of them has another key, or nothing has changed. -/
theorem items_rename {old new : PackageName} {lines : List Str} (hlines : Editable lines) :
    renamed old lines = none ∧ act (.rename old new) lines = lines ∨
      ∃ es cs es', items lines = es ++ ⟨.plain old.name, cs⟩ :: es' ∧ renamed old lines = some es.length ∧
        items (act (.rename old new) lines) = es ++ ⟨.plain new.name, cs⟩ :: es' := by
  have hfirst : ∀ {a : List Str}, (∀ l ∈ a, topLevelKey l ≠ some old.name) → ∀ e ∈ items a, e.key ≠ .plain old.name := by
    intro a ha e he hkey
    obtain ⟨l, hl, rest, hhead⟩ := mem_itemsFrom he
    rw [hkey] at hhead
    rw [(entryHead_plain hhead).1] at hl
    exact ha _ hl topLevelKey_name
  rcases renameKey_cases lines old.name new.name with ⟨hnone, hsame⟩ | ⟨a, rest, b, rfl, hbefore, hkey, hafter⟩
  · left
    refine ⟨?_, hsame⟩
    rw [renamed, List.findIdx?_eq_none_iff]
    intro e he
    exact decide_eq_false (hfirst hnone e he)
  · right
    obtain ⟨rest', hhead⟩ := hlines.flat _ (List.mem_append_right a List.mem_cons_self) _ hkey
    obtain ⟨-, hblank⟩ := entryHead_plain hhead
    obtain rfl : rest = rest' := (List.cons.inj (List.append_cancel_left (entryHead_plain hhead).1)).2
    have hitems : ∀ p : PackageName, items (a ++ (p.name ++ ':' :: rest) :: b) =
        items a ++ ⟨.plain p.name, a.foldl commentsBelow []⟩ :: itemsFrom [] b := by
      intro p
      rw [items, itemsFrom_append, itemsFrom_head (entryHead_name hblank), items]
    refine ⟨items a, a.foldl commentsBelow [], itemsFrom [] b, hitems old, ?_, ?_⟩
    · rw [renamed, hitems old, List.findIdx?_append, List.findIdx?_eq_none_iff.mpr, Option.none_or, List.findIdx?_cons,
        if_pos (decide_eq_true rfl)]
      · simp
      · exact fun e he => decide_eq_false (hfirst hbefore e he)
    · show items (renameKey old.name new.name _) = _
      rw [hafter, hitems new]

/-- What a renaming keeps. -/
theorem rename_keeps {old new : PackageName} {lines : List Str} (hlines : Editable lines)
    (hfits : NameFits old new lines) (horder : Ordered (items lines)) :
    Ordered (items (act (.rename old new) lines)) ∧
      Carried (follow (.rename old new) lines) (items lines) (items (act (.rename old new) lines)) := by
  have hcases := @items_rename old new lines hlines
  rcases hcases with ⟨hnone, hsame⟩ | ⟨es, cs, es', hitems, hrenamed, hafter⟩
  · rw [hsame]
    refine ⟨horder, ?_⟩
    intro i e he
    refine ⟨e, he, ?_, List.suffix_rfl⟩
    rw [follow, hnone, if_neg (by simp)]
  · obtain ⟨habove, hbelow⟩ := hfits _ hrenamed
    rw [hitems, List.take_left] at habove
    rw [hitems, List.drop_append, List.drop_eq_nil_of_le (by omega), Nat.add_sub_cancel_left, List.drop_one] at hbelow
    rw [hitems] at horder ⊢
    rw [hafter]
    obtain ⟨hes, hes', hcross⟩ := List.pairwise_append.mp horder
    refine ⟨?_, ?_⟩
    · refine List.pairwise_append.mpr ⟨hes, List.pairwise_cons.mpr ⟨?_, (List.pairwise_cons.mp hes').2⟩, ?_⟩
      · intro e he
        rw [keyName_plain]
        exact hbelow e he
      · intro e he e' he'
        rcases List.mem_cons.mp he' with rfl | he'
        · rw [keyName_plain]
          exact habove e he
        · exact hcross e he e' (List.mem_cons_of_mem _ he')
    · intro i e he
      rw [follow, hrenamed]
      dsimp only
      rcases lt_trichotomy i es.length with hi | rfl | hi
      · rw [List.getElem?_append_left hi] at he ⊢
        exact ⟨e, he, by rw [if_neg (by simp; omega)], List.suffix_rfl⟩
      · rw [List.getElem?_append_right le_rfl, Nat.sub_self] at he ⊢
        obtain rfl := Option.some.inj he
        exact ⟨_, rfl, by rw [if_pos rfl], List.suffix_rfl⟩
      · rw [List.getElem?_append_right (Nat.le_of_lt hi)] at he ⊢
        obtain ⟨n, hn⟩ : ∃ n, i - es.length = n + 1 := ⟨i - es.length - 1, by omega⟩
        rw [hn, List.getElem?_cons_succ] at he ⊢
        exact ⟨e, he, by rw [if_neg (by simp; omega)], List.suffix_rfl⟩

/-- An insertion leaves lines that can be edited: at the end of the file the block begins on a line of its
own. -/
theorem editable_insert {b : Block} {lines : List Str} (hlines : Editable lines)
    (hown : linesAbove b.name.name lines = lines → ∀ l ∈ lines.getLast?, strip l = [] → Ended l) :
    Editable (act (.insert b) lines) := by
  have hnewline : Ended ['\n'] := ended_newline (l := []) (List.forall_mem_nil _)
  have hmem : ∀ l ∈ act (.insert b) lines, l ∈ lines ∨ l = ['\n'] ∨ l ∈ b.head :: b.body := by
    show ∀ l ∈ insertTopLevelYamlBlock lines b.name.name b.text, _
    rcases insert_cases b lines with ⟨l, below, k, hsplit, -, -, hafter⟩ | ⟨-, gap, hgap, hafter⟩
    · intro m hm
      rw [hafter] at hm
      rw [hsplit]
      simp only [List.mem_append, List.mem_cons] at hm ⊢
      tauto
    · intro m hm
      rw [hafter] at hm
      rcases hgap with rfl | ⟨rfl, -⟩
      · simp only [List.mem_append, List.mem_cons] at hm ⊢
        simpa [or_assoc] using hm
      · simp only [List.mem_append, List.mem_cons, List.not_mem_nil] at hm ⊢
        tauto
  refine ⟨?_, ?_, ?_⟩
  · intro l hl k hk
    rcases hmem l hl with h | rfl | h
    · exact hlines.flat l h k hk
    · exact absurd rfl (ne_newline_of_topLevelKey hk)
    · exact b.flat l h k hk
  · intro l hl
    rcases hmem l hl with h | rfl | h
    · exact hlines.isLine l h
    · exact Or.inl hnewline
    · exact Or.inl (b.ended l h)
  · show (insertTopLevelYamlBlock lines b.name.name b.text).IsChain _
    rcases insert_cases b lines with ⟨l, below, k, hsplit, hk, -, hafter⟩ | ⟨hall, gap, hgap, hafter⟩
    · have hjoined := hlines.joined
      rw [hsplit] at hjoined
      obtain ⟨habove, hbelow, -⟩ := List.isChain_append.mp hjoined
      have hlast := ended_of_joined hjoined (ne_newline_of_topLevelKey hk)
      have hrest := isChain_ended_append (a := [['\n']]) (by simpa using hnewline) hbelow
      rw [hafter]
      exact isChain_splice habove hlast (isChain_ended_append b.ended hrest)
    · rw [hafter]
      have hblock := isChain_ended_append (b := []) b.ended .nil
      rw [List.append_nil] at hblock
      rcases hgap with rfl | ⟨rfl, hblank⟩
      · refine List.isChain_append.mpr ⟨hlines.joined, isChain_ended_append (by simpa using hnewline) hblock, ?_⟩
        rintro m - l hl
        exact Or.inr (Option.some.inj hl).symm
      · -- the last line is blank, and has its line break by the condition
        exact isChain_splice hlines.joined (fun m hm => hown hall m hm (hblank m hm)) hblock

theorem ended_rename {old new rest : Str} (hold : Ended (old ++ ':' :: rest)) (hnew : Unbroken new) :
    Ended (new ++ ':' :: rest) := by
  obtain ⟨body, c, hline, hbody, hbreak, hreturn⟩ := hold
  rcases List.eq_nil_or_concat' rest with rfl | ⟨init, last, rfl⟩
  · obtain ⟨-, hc⟩ := List.append_inj' hline rfl
    obtain rfl := (List.cons.inj hc).1
    exact absurd hbreak (by decide)
  · rw [← List.cons_append, ← List.append_assoc] at hline
    obtain ⟨rfl, hc⟩ := List.append_inj' hline rfl
    obtain rfl := (List.cons.inj hc).1
    refine ⟨new ++ ':' :: init, last, by simp, ?_, hbreak, hreturn⟩
    intro d hd
    rcases List.mem_append.mp hd with hd | hd
    · exact hnew d hd
    · exact hbody d (List.mem_append_right old hd)

theorem unbroken_name (p : PackageName) : Unbroken p.name :=
  fun c hc => isLineBreak_of_not_isSpace (isSpace_of_isNameChar (p.chars c hc))

theorem editable_rename {old new : PackageName} {lines : List Str} (hlines : Editable lines) :
    Editable (act (.rename old new) lines) := by
  refine ⟨flat_renameKey ⟨lines, hlines.flat⟩, ?_, ?_⟩
  · show ∀ l ∈ renameKey old.name new.name lines, IsLine l
    rcases renameKey_cases lines old.name new.name with ⟨-, hsame⟩ | ⟨a, rest, b, rfl, -, -, hafter⟩
    · rw [hsame]
      exact hlines.isLine
    · rw [hafter]
      intro l hl
      rcases List.mem_append.mp hl with hl | hl
      · exact hlines.isLine l (List.mem_append_left _ hl)
      · rcases List.mem_cons.mp hl with rfl | hl
        · rcases hlines.isLine _ (List.mem_append_right a List.mem_cons_self) with hold | ⟨-, hold⟩
          · exact Or.inl (ended_rename hold (unbroken_name new))
          · refine Or.inr ⟨by simp, ?_⟩
            intro c hc
            rcases List.mem_append.mp hc with hc | hc
            · exact unbroken_name new c hc
            · exact hold c (List.mem_append_right old.name hc)
        · exact hlines.isLine l (List.mem_append_right a (List.mem_cons_of_mem _ hl))
  · show (renameKey old.name new.name lines).IsChain _
    rcases renameKey_cases lines old.name new.name with ⟨-, hsame⟩ | ⟨a, rest, b, rfl, -, hkey, hafter⟩
    · rw [hsame]
      exact hlines.joined
    · rw [hafter]
      obtain ⟨habove, hbelow, -⟩ := List.isChain_append.mp hlines.joined
      have hlast := ended_of_joined hlines.joined (ne_newline_of_topLevelKey hkey)
      rw [List.isChain_cons] at hbelow
      refine isChain_splice habove hlast (List.isChain_cons.mpr ⟨fun m hm => ?_, hbelow.2⟩)
      exact (hbelow.1 m hm).imp_left fun hold => ended_rename hold (unbroken_name new)

theorem act_save {lines : List Str} (hlines : Editable lines) : act .save lines = keepLines lines.flatten := by
  have hreturn : '\r' ∉ lines.flatten := by
    rw [List.mem_flatten]
    rintro ⟨l, hl, hmem⟩
    exact (hlines.isLine l hl).return_notMem hmem
  show keepLines (universalNewlines lines.flatten) = _
  rw [universalNewlines_eq_self hreturn]

theorem rejoined_save {lines : List Str} (hlines : Editable lines) : Rejoined lines (act .save lines) := by
  rw [act_save hlines]
  exact rejoined hlines.isLine hlines.joined

/-- A text that is read has the lines that the edits expect, if its lines are in the flat style. -/
theorem editable_load (h : ∀ l ∈ load text, ∀ k, topLevelKey l = some k → ∃ rest, entryHead l = some (.plain k, rest)) :
    Editable (load text) :=
  ⟨h, (lines_keepLines (not_mem_universalNewlines text)).1, (lines_keepLines (not_mem_universalNewlines text)).2⟩

theorem editable_save {lines : List Str} (hlines : Editable lines) : Editable (act .save lines) := by
  refine editable_load ?_
  intro l hl k hk
  rcases (rejoined_save hlines).mem hl with hmem | ⟨m, hm, rfl⟩
  · exact hlines.flat l hmem k hk
  · rw [topLevelKey_newline] at hk
    obtain ⟨rest, hhead⟩ := hlines.flat m hm k hk
    exact ⟨rest ++ ['\n'], by rw [entryHead_newline, hhead]; rfl⟩

theorem keys_of_stays {es es' : List Item} (h : List.Forall₂ Item.Stays es es') :
    es'.map Item.key = es.map Item.key := by
  induction h with
  | nil => rfl
  | cons hkey _ ih => rw [List.map_cons, List.map_cons, hkey.1, ih]

theorem exists_stays {es es' : List Item} (h : List.Forall₂ Item.Stays es es') {i : Nat} {e : Item}
    (he : es[i]? = some e) : ∃ e', es'[i]? = some e' ∧ Item.Stays e e' := by
  induction h generalizing i with
  | nil => exact absurd he (by simp)
  | cons hstays _ ih =>
      cases i with
      | zero =>
          obtain rfl := Option.some.inj he
          exact ⟨_, rfl, hstays⟩
      | succ i => exact ih he

/-- What reading the file again keeps. -/
theorem save_keeps {lines : List Str} (hlines : Editable lines) (horder : Ordered (items lines)) :
    Ordered (items (act .save lines)) ∧ Carried (follow .save lines) (items lines) (items (act .save lines)) := by
  have hstays : List.Forall₂ Item.Stays (items lines) (items (act .save lines)) :=
    (rejoined_save hlines).items List.suffix_rfl
  have hkeys : ∀ es : List Item, Ordered es ↔ (es.map Item.key).Pairwise fun k k' => keyName k ≤ keyName k' := by
    intro es
    rw [List.pairwise_map]
    rfl
  refine ⟨?_, fun i e he => ?_⟩
  · rw [hkeys, keys_of_stays hstays, ← hkeys]
    exact horder
  · obtain ⟨e', he', hkey, hcomments⟩ := exists_stays hstays he
    exact ⟨e', he', hkey, hcomments⟩

/-! ## What a run keeps -/

/-- An edit that fits keeps the order and the comments, and leaves lines that can be edited again. -/
theorem step_keeps {edit : Edit} {lines : List Str} (hlines : Editable lines) (hfits : Fits edit lines)
    (horder : Ordered (items lines)) : Editable (act edit lines) ∧ Ordered (items (act edit lines)) ∧
      Carried (follow edit lines) (items lines) (items (act edit lines)) := by
  cases edit with
  | insert b => exact ⟨editable_insert hlines hfits.ownLine, insert_keeps hlines hfits horder⟩
  | rename old new => exact ⟨editable_rename hlines, rename_keeps hlines hfits horder⟩
  | save => exact ⟨editable_save hlines, save_keeps hlines horder⟩

theorem run_keeps {lines : List Str} {run : List Edit} (hlines : Editable lines) (horder : Ordered (items lines))
    (hfits : Throughout act Fits lines run) : Kept run lines := by
  induction run generalizing lines with
  | nil => exact ⟨horder, fun i e he => ⟨e, he, rfl, List.suffix_rfl⟩⟩
  | cons edit run ih =>
      obtain ⟨hedit, hrest⟩ := hfits
      obtain ⟨hlines', horder', hcarried⟩ := step_keeps hlines hedit horder
      obtain ⟨hend, hcarried'⟩ := ih hlines' horder' hrest
      exact ⟨hend, hcarried.trans hcarried'⟩

/-- The file at the start of a run: the lines that look like heads of entries to the edits are heads of
entries. -/
structure OverridesText where
  text : Str
  flat : ∀ l ∈ load text, ∀ k, topLevelKey l = some k → ∃ rest, entryHead l = some (.plain k, rest)

/-- The lines of the file. -/
def OverridesText.lines (file : OverridesText) : List Str := load file.text

/-- **`layout_kept`** — in a run of insertions and renamings in which every block and every new name fits,
the entries are in order at the end, and each entry has the comment lines directly above it that it had at
the start. -/
theorem layout_kept (file : OverridesText) (run : List Edit) (horder : Ordered (items file.lines))
    (hfits : Throughout act Fits file.lines run) : Kept run file.lines :=
  run_keeps (editable_load file.flat) horder hfits

theorem ended_head (p : PackageName) : Ended (p.name ++ ":\n".toList) := by
  have hname : Unbroken (p.name ++ [':']) := by
    intro c hc
    rcases List.mem_append.mp hc with hc | hc
    · exact unbroken_name p c hc
    · rw [List.mem_singleton.mp hc]
      rfl
  have hended := ended_newline hname
  rwa [List.append_assoc] at hended

theorem ended_product {product : Str} (h : Unbroken product) :
    Ended ("  private_product: ".toList ++ product ++ ['\n']) := by
  apply ended_newline
  intro c hc
  rcases List.mem_append.mp hc with hc | hc
  · exact (by decide : ∀ c ∈ "  private_product: ".toList, isLineBreak c = false) c hc
  · exact h c hc

/-- The block of a package, where neither its name nor the product needs quotation marks. -/
def plainBlock (p : PackageName) (product : Str) (h : Unbroken product) : Block where
  name := p
  text := (p.name ++ ":\n".toList) ++ ("  private_product: ".toList ++ product ++ ['\n'])
  head := p.name ++ ":\n".toList
  body := ["  private_product: ".toList ++ product ++ ['\n']]
  key := .plain p.name
  rest := ['\n']
  return_notMem := by
    rw [List.mem_append, not_or]
    exact ⟨(IsLine.return_notMem (Or.inl (ended_head p))), IsLine.return_notMem (Or.inl (ended_product h))⟩
  lines_eq := by
    have hends : endsWith "\n" ((p.name ++ ":\n".toList) ++ ("  private_product: ".toList ++ product ++ ['\n'])) = true :=
      endsWith_iff.mpr ⟨_, (List.append_assoc _ _ _)⟩
    have hproduct : keepLines (("  private_product: ".toList ++ product ++ ['\n']) ++ []) = _ :=
      (ended_product h).keepLines
    rw [List.append_nil] at hproduct
    rw [if_pos (Or.inr hends), (ended_head p).keepLines, hproduct]
    rfl
  ended := by
    intro l hl
    rcases List.mem_cons.mp hl with rfl | hl
    · exact ended_head p
    · rw [List.mem_singleton.mp hl]
      exact ended_product h
  entry := entryHead_name rfl
  key_eq := Or.inl rfl
  continues := by
    intro l hl
    rw [List.mem_singleton.mp hl, continues, Bool.or_eq_true]
    exact Or.inr rfl

/-- A file with a comment above its first entry. -/
def storageFile : OverridesText where
  text := ("# Required to prevent running out of storage\nrust:\n  timeout_hours: 12\n\n".toList ++
    "tomcat:\n  timeout_hours: 8".toList)
  flat := flat_of_check (by decide +kernel)

/-- The block of a package of the product `dotnet`. -/
def dotnetBlock (p : PackageName) : Block :=
  plainBlock p "dotnet".toList (by decide : ∀ c ∈ "dotnet".toList, isLineBreak c = false)

/-- Another package goes between the two entries, and the second one gets a new name. -/
def storageRun : List Edit :=
  [.insert (dotnetBlock ⟨"systemd".toList, by decide, by decide⟩), .save,
    .rename ⟨"tomcat".toList, by decide, by decide⟩ ⟨"tomcat11".toList, by decide, by decide⟩, .save]

/-- **`layout_kept_storage`** — a run in which everything fits. -/
theorem layout_kept_storage : Ordered (items storageFile.lines) ∧ Throughout act Fits storageFile.lines storageRun ∧
    Kept storageRun storageFile.lines := by
  have horder : Ordered (items storageFile.lines) := by
    unfold Ordered
    decide +kernel
  have hfits : Throughout act Fits storageFile.lines storageRun := by
    refine ⟨⟨by decide +kernel, by decide +kernel, fun h => ?_⟩, trivial, ?_, trivial, trivial⟩
    · exact absurd h (by decide +kernel)
    · intro i hi
      have hrenamed : renamed ⟨"tomcat".toList, by decide, by decide⟩
          (act .save (act (.insert (dotnetBlock ⟨"systemd".toList, by decide, by decide⟩)) storageFile.lines)) = some 2 := by
        decide +kernel
      obtain rfl := Option.some.inj (hi.symm.trans hrenamed)
      decide +kernel
  exact ⟨horder, hfits, layout_kept storageFile storageRun horder hfits⟩

/-- **`comment_moves`** — a block that is put in front of an entry takes the comment above it, and a
renamed entry stays where it is. -/
theorem comment_moves : Ordered (items storageFile.lines) ∧
    ¬ Kept [.insert (dotnetBlock ⟨"runc".toList, by decide, by decide⟩), .save] storageFile.lines ∧
    ¬ Kept [.rename ⟨"rust".toList, by decide, by decide⟩ ⟨"zlib".toList, by decide, by decide⟩, .save]
      storageFile.lines := by
  refine ⟨by unfold Ordered; decide +kernel, ?_, ?_⟩
  · rintro ⟨-, hcarried⟩
    obtain ⟨e, he, -, hcomments⟩ := hcarried 0
      ⟨.plain "rust".toList, ["# Required to prevent running out of storage\n".toList]⟩ (by decide +kernel)
    have he' : (items (runAll act [.insert (dotnetBlock ⟨"runc".toList, by decide, by decide⟩), .save]
        storageFile.lines))[1]? = some ⟨.plain "rust".toList, []⟩ := by
      decide +kernel
    obtain rfl := Option.some.inj (he.symm.trans he')
    exact absurd hcomments (by decide)
  · rintro ⟨horder, -⟩
    revert horder
    unfold Ordered
    decide +kernel

end HummingbirdRpms.OverridesLayout
