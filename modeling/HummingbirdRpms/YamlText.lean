/-
# HummingbirdRpms.YamlText — a YAML text beside what it holds.

The tools load a pipeline with `yaml.safe_load` and edit it as text.  A parser gives more than the value:
it marks where each scalar stands.  A `Composition` is a text cut into pieces (scalars that are values,
comments, and the layout between them) with an `Outline`, which says where in the value each scalar is
used: once, or more often through an alias, or not at all where a later key overrides an earlier one.

`YamlReader` is a parser with the three ways in which an edit inside of one piece is local: a whole scalar
can be exchanged for a quoted one, a comment can be changed, and a text put inside of a scalar is at best
part of the scalar.

**`fill_update_iff`** — exchanging the content of a scalar leaves a part of the value as it is exactly when
the part does not use it.
-/
import HummingbirdRpms.Runtime

namespace HummingbirdRpms

open Lib Lib.Text

/-! ## Outlines -/

/-- What a scalar stands for. -/
inductive Scalar where
  | none
  | bool (b : Bool)
  | num (zero : Bool) (repr : Str)
  | str (s : Str)
  deriving DecidableEq

def Scalar.value : Scalar → Value
  | .none => .none
  | .bool b => .bool b
  | .num zero repr => .num zero repr
  | .str s => .str s

/-- A value with the numbers of its scalars in their places. -/
inductive Outline where
  /-- Where a value is left out. -/
  | empty
  | scalar (k : Nat)
  | list (items : List Outline)
  | dict (entries : List (Str × Outline))

mutual

/-- The value, from what the scalars stand for. -/
def Outline.fill (f : Nat → Scalar) : Outline → Value
  | .empty => .none
  | .scalar k => (f k).value
  | .list items => .list (fillItems f items)
  | .dict entries => .dict (fillEntries f entries)

def fillItems (f : Nat → Scalar) : List Outline → List Value
  | [] => []
  | item :: items => item.fill f :: fillItems f items

def fillEntries (f : Nat → Scalar) : List (Str × Outline) → Value.Entries
  | [] => []
  | (key, o) :: entries => (key, o.fill f) :: fillEntries f entries

end

mutual

/-- Whether a scalar is used somewhere in an outline. -/
def Outline.Uses (k : Nat) : Outline → Prop
  | .empty => False
  | .scalar j => j = k
  | .list items => UsedInItems k items
  | .dict entries => UsedInEntries k entries

def UsedInItems (k : Nat) : List Outline → Prop
  | [] => False
  | item :: items => item.Uses k ∨ UsedInItems k items

def UsedInEntries (k : Nat) : List (Str × Outline) → Prop
  | [] => False
  | (_, o) :: entries => o.Uses k ∨ UsedInEntries k entries

end

section

variable {f : Nat → Scalar} {k : Nat} {x : Scalar}

theorem fillItems_eq_map {items : List Outline} : fillItems f items = items.map (Outline.fill f) := by
  induction items with
  | nil => rw [fillItems, List.map_nil]
  | cons item items ih => rw [fillItems, List.map_cons, ih]

theorem fillEntries_eq_map {entries : List (Str × Outline)} :
    fillEntries f entries = entries.map fun e => (e.1, e.2.fill f) := by
  induction entries with
  | nil => rw [fillEntries, List.map_nil]
  | cons e entries ih => rw [fillEntries, List.map_cons, ih]

theorem Scalar.value_injective {x y : Scalar} (h : x.value = y.value) : x = y := by
  cases x <;> cases y
  all_goals simp_all [Scalar.value]

mutual

/-- **`fill_update_iff`** — exchanging the content of a scalar changes nothing exactly where it is not
used. -/
theorem fill_update_iff (hne : f k ≠ x) :
    ∀ o : Outline, o.fill (Function.update f k x) = o.fill f ↔ ¬ o.Uses k
  | .empty => by simp only [Outline.fill, Outline.Uses, not_false_eq_true]
  | .scalar j => by
      simp only [Outline.fill, Outline.Uses]
      by_cases hj : j = k
      · subst hj
        rw [Function.update_self]
        exact iff_of_false (fun h => hne (Scalar.value_injective h).symm) (not_not_intro rfl)
      · rw [Function.update_of_ne hj]
        exact iff_of_true rfl hj
  | .list items => by
      simp only [Outline.fill, Outline.Uses, Value.list.injEq]
      exact fillItems_update_iff hne items
  | .dict entries => by
      simp only [Outline.fill, Outline.Uses, Value.dict.injEq]
      exact fillEntries_update_iff hne entries

theorem fillItems_update_iff (hne : f k ≠ x) :
    ∀ items : List Outline, fillItems (Function.update f k x) items = fillItems f items ↔ ¬ UsedInItems k items
  | [] => by simp only [fillItems, UsedInItems, not_false_eq_true]
  | item :: items => by
      simp only [fillItems, UsedInItems, List.cons.injEq, not_or]
      rw [fill_update_iff hne item, fillItems_update_iff hne items]

theorem fillEntries_update_iff (hne : f k ≠ x) :
    ∀ entries : List (Str × Outline),
      fillEntries (Function.update f k x) entries = fillEntries f entries ↔ ¬ UsedInEntries k entries
  | [] => by simp only [fillEntries, UsedInEntries, not_false_eq_true]
  | (key, o) :: entries => by
      simp only [fillEntries, UsedInEntries, List.cons.injEq, Prod.mk.injEq, true_and, not_or]
      rw [fill_update_iff hne o, fillEntries_update_iff hne entries]

end

end

/-! ## Compositions -/

/-- A piece of a text. -/
inductive Piece where
  /-- A scalar that is a value and has neither tag nor anchor, with its quotes. -/
  | scalar (text : Str) (content : Scalar)
  /-- A comment, from its `#` to the end of the line. -/
  | comment (text : Str)
  /-- Anything else: indentation, keys, punctuation. -/
  | layout (text : Str)

def Piece.text : Piece → Str
  | .scalar text _ => text
  | .comment text => text
  | .layout text => text

def Piece.content : Piece → Scalar
  | .scalar _ content => content
  | _ => .none

def Piece.comment? : Piece → Option Str
  | .comment text => some text
  | _ => none

/-- The text of a sequence of pieces. -/
def piecesText (pieces : List Piece) : Str := pieces.flatMap Piece.text

/-- A text in pieces, and what it holds. -/
structure Composition where
  pieces : List Piece
  outline : Outline

namespace Composition

def text (c : Composition) : Str := piecesText c.pieces

/-- What the k-th piece stands for. -/
def contents (c : Composition) (k : Nat) : Scalar := (c.pieces[k]?.map Piece.content).getD .none

def value (c : Composition) : Value := c.outline.fill c.contents

/-- The comments, in order. -/
def comments (c : Composition) : List Str := c.pieces.filterMap Piece.comment?

/-- The composition with a piece between `before` and `after`. -/
def around (before : List Piece) (outline : Outline) (after : List Piece) (piece : Piece) : Composition :=
  ⟨before ++ piece :: after, outline⟩

section

variable {before after : List Piece} {outline : Outline} {piece piece' : Piece}

@[simp] theorem text_around :
    (around before outline after piece).text = piecesText before ++ piece.text ++ piecesText after := by
  simp [text, piecesText, around]

/-- Exchanging a piece exchanges its content. -/
theorem contents_around (piece piece' : Piece) :
    (around before outline after piece').contents =
      Function.update (around before outline after piece).contents before.length piece'.content := by
  funext k
  by_cases hk : k = before.length
  · subst hk
    rw [Function.update_self]
    simp [contents, around]
  · rw [Function.update_of_ne hk]
    show ((before ++ piece' :: after)[k]?.map Piece.content).getD .none =
      ((before ++ piece :: after)[k]?.map Piece.content).getD .none
    rcases Nat.lt_or_gt_of_ne hk with hlt | hgt
    · rw [List.getElem?_append_left hlt, List.getElem?_append_left hlt]
    · obtain ⟨n, rfl⟩ := Nat.exists_eq_add_of_lt hgt
      have hindex : before.length + n + 1 - before.length = n + 1 := by omega
      rw [List.getElem?_append_right (by omega), List.getElem?_append_right (by omega), hindex,
        List.getElem?_cons_succ, List.getElem?_cons_succ]

theorem contents_around_self :
    (around before outline after piece).contents before.length = piece.content := by
  simp [contents, around]

/-- A piece without content can be exchanged for another. -/
theorem value_around_of_content (h : piece'.content = piece.content) :
    (around before outline after piece').value = (around before outline after piece).value := by
  have hsame : (around before outline after piece').contents = (around before outline after piece).contents := by
    have hself : (around before outline after piece).contents before.length = piece.content :=
      contents_around_self
    rw [contents_around piece, h, ← hself, Function.update_eq_self]
  rw [value, value, hsame]
  rfl

theorem comments_around :
    (around before outline after piece).comments =
      before.filterMap Piece.comment? ++ piece.comment?.toList ++ after.filterMap Piece.comment? := by
  cases hpiece : piece.comment? with
  | none => simp [comments, around, hpiece]
  | some text => simp [comments, around, hpiece]

end

end Composition

/-! ## Readers -/

/-- A text in double quotes. -/
def quoted (s : Str) : Str := [Char.ofNat 34] ++ s ++ [Char.ofNat 34]

/-- A commit's full name. -/
def IsCommitId (rev : Str) : Prop := rev.length = 40 ∧ ∀ c ∈ rev, isHex c = true

/-- `yaml`, as far as an edit of one piece needs it: reading a text gives its composition, and what is put
in place of a part of one piece stays within that piece. -/
structure YamlReader where
  compose : Str → Except Exn Composition
  text_of_compose : ∀ {t c}, compose t = .ok c → c.text = t
  /-- A scalar on one line can be exchanged for a commit's name in double quotes. -/
  exchange : ∀ {before after : List Piece} {outline tok content rev},
    compose (Composition.around before outline after (.scalar tok content)).text =
      .ok (.around before outline after (.scalar tok content)) →
    '\n' ∉ tok → IsCommitId rev →
      compose (Composition.around before outline after (.scalar (quoted rev) (.str rev))).text =
        .ok (.around before outline after (.scalar (quoted rev) (.str rev)))
  /-- What stands in a comment is not read. -/
  inComment : ∀ {before after : List Piece} {outline a part b rev},
    compose (Composition.around before outline after (.comment (a ++ part ++ b))).text =
      .ok (.around before outline after (.comment (a ++ part ++ b))) →
    a ≠ [] → IsCommitId rev →
      compose (Composition.around before outline after (.comment (a ++ quoted rev ++ b))).text =
        .ok (.around before outline after (.comment (a ++ quoted rev ++ b)))
  /-- A name in double quotes inside of a scalar either ends it, which is an error, or is a part of it. -/
  inScalar : ∀ {before after : List Piece} {outline a part b content rev},
    compose (Composition.around before outline after (.scalar (a ++ part ++ b) content)).text =
      .ok (.around before outline after (.scalar (a ++ part ++ b) content)) →
    a ++ b ≠ [] → IsCommitId rev →
      (∃ e, compose (Composition.around before outline after (.scalar (a ++ quoted rev ++ b) .none)).text =
        .error e) ∨
      ∃ content', content' ≠ .str rev ∧
        compose (Composition.around before outline after (.scalar (a ++ quoted rev ++ b) content')).text =
          .ok (.around before outline after (.scalar (a ++ quoted rev ++ b) content'))

/-- `yaml.safe_load` -/
def YamlReader.load (reader : YamlReader) (t : Str) : Except Exn Value :=
  (reader.compose t).map Composition.value

end HummingbirdRpms
