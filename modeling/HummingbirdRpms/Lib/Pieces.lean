/-
# HummingbirdRpms.Lib.Pieces — a text and its pieces between the places of one character.

`splitOn` cuts a text at a character and `join` puts the pieces together again.  **`splitOn_append`** says how
the pieces of two texts make those of the text they make together: the last piece of the one and the first of
the other are one piece.

Nothing here names a particular program.
-/
import HummingbirdRpms.Lib.Text

namespace HummingbirdRpms.Lib.Text

variable {c : Char} {s a b part : Str} {front parts : List Str}

theorem join_eq_intercalate (c : Char) (parts : List Str) : join [c] parts = [c].intercalate parts := by
  induction parts with
  | nil => rfl
  | cons p parts ih =>
      cases parts with
      | nil => simp [join]
      | cons q parts =>
          rw [join, ih, List.intercalate_cons_cons]

theorem join_splitOn (c : Char) (s : Str) : join [c] (s.splitOn c) = s := by
  rw [join_eq_intercalate, List.intercalate_splitOn]

theorem splitOn_join (hparts : ∀ part ∈ parts, c ∉ part) (hne : parts ≠ []) :
    (join [c] parts).splitOn c = parts := by
  rw [join_eq_intercalate, List.splitOn_intercalate c hparts hne]

/-- A text is cut at the last one of a character, if it has one. -/
theorem exists_last (c : Char) (s : Str) : c ∉ s ∨ ∃ a b, s = a ++ c :: b ∧ c ∉ b := by
  by_cases h : c ∈ s
  · obtain ⟨b, a, hsplit, hb⟩ := List.eq_append_cons_of_mem (List.mem_reverse.mpr h)
    refine Or.inr ⟨a.reverse, b.reverse, ?_, fun hmem => hb (List.mem_reverse.mp hmem)⟩
    have hrev := congrArg List.reverse hsplit
    simpa using hrev
  · exact Or.inl h

theorem mem_splitOn (h : part ∈ s.splitOn c) : c ∉ part ∧ part.Sublist s := by
  induction hlen : s.length using Nat.strong_induction_on generalizing s with
  | _ n ih =>
      subst hlen
      rcases exists_last c s with hnone | ⟨a, b, rfl, hb⟩
      · rw [List.splitOn_eq_singleton hnone, List.mem_singleton] at h
        rw [h]
        exact ⟨hnone, List.Sublist.refl s⟩
      · rw [List.splitOn_append_cons_self, List.splitOn_eq_singleton hb] at h
        rcases List.mem_append.mp h with h | h
        · obtain ⟨hpart, hsub⟩ := ih a.length (by simp) h rfl
          exact ⟨hpart, hsub.trans (List.sublist_append_left _ _)⟩
        · rw [List.mem_singleton.mp h]
          exact ⟨hb, (List.sublist_cons_self c b).trans (List.sublist_append_right a _)⟩

/-- **`splitOn_append`** — where two texts meet, the last piece of the one and the first of the other are one. -/
theorem splitOn_append (c : Char) (a : Str) : ∃ front last, a.splitOn c = front ++ [last] ∧
    ∀ b first others, b.splitOn c = first :: others → (a ++ b).splitOn c = front ++ (last ++ first) :: others := by
  induction a with
  | nil => exact ⟨[], [], List.splitOn_nil c, fun b first others hb => hb⟩
  | cons x a ih =>
      obtain ⟨front, last, ha, hab⟩ := ih
      have hcons : ∀ s : Str, (x :: s).splitOn c =
          if x == c then [] :: s.splitOn c else (s.splitOn c).modifyHead (x :: ·) :=
        fun s => List.splitOn_cons_eq_if_modifyHead x s
      by_cases hx : x == c
      · refine ⟨[] :: front, last, by rw [hcons, if_pos hx, ha]; rfl, fun b first others hb => ?_⟩
        rw [List.cons_append, hcons, if_pos hx, hab b first others hb]
        rfl
      · cases front with
        | nil =>
            refine ⟨[], x :: last, by rw [hcons, if_neg hx, ha]; rfl, fun b first others hb => ?_⟩
            rw [List.cons_append, hcons, if_neg hx, hab b first others hb]
            rfl
        | cons f front =>
            refine ⟨(x :: f) :: front, last, by rw [hcons, if_neg hx, ha]; rfl, fun b first others hb => ?_⟩
            rw [List.cons_append, hcons, if_neg hx, hab b first others hb]
            rfl

theorem length_splitOn (c : Char) (s : Str) : (s.splitOn c).length = s.count c + 1 := by
  induction s with
  | nil => rfl
  | cons x s ih =>
      rw [List.splitOn_cons_eq_if_modifyHead, List.count_cons]
      split
      · rw [List.length_cons, ih]
      · rw [List.length_modifyHead, ih]

theorem join_cons : join [c] (part :: parts) = part ++ parts.flatMap (c :: ·) := by
  induction parts generalizing part with
  | nil => simp [join]
  | cons q parts ih =>
      rw [join, ih, List.flatMap_cons]
      simp

/-- A piece in its text: the pieces before it with the character behind each, and those after it with the
character in front of each. -/
theorem join_append_cons : join [c] (front ++ part :: parts) =
    front.flatMap (· ++ [c]) ++ (part ++ parts.flatMap (c :: ·)) := by
  induction front with
  | nil => exact join_cons
  | cons f front ih =>
      obtain ⟨q, qs, hq⟩ := List.exists_cons_of_ne_nil (List.append_ne_nil_of_right_ne_nil front
        (List.cons_ne_nil part parts))
      rw [List.cons_append, hq, join, ← hq, ih, List.flatMap_cons]
      simp only [List.append_assoc]

theorem flatMap_end (c : Char) (front : List Str) :
    front.flatMap (· ++ [c]) = [] ∨ (front.flatMap (· ++ [c])).getLast? = some c := by
  rcases List.eq_nil_or_concat front with rfl | ⟨front, f, rfl⟩
  · exact Or.inl rfl
  · right
    simp

/-- What has none of the character belongs to the first piece of what follows. -/
theorem splitOn_append_of_not_mem {first : Str} {others : List Str} (ha : c ∉ a)
    (hb : b.splitOn c = first :: others) : (a ++ b).splitOn c = (a ++ first) :: others := by
  obtain ⟨front, last, ha', hab⟩ := splitOn_append c a
  rw [List.splitOn_eq_singleton ha] at ha'
  obtain ⟨rfl, hlast⟩ := List.append_inj' (show [] ++ [a] = front ++ [last] from ha') rfl
  rw [hab b first others hb, ← List.singleton_inj.mp hlast]
  rfl

/-- A text that ends with the character, or is not there, is made of whole pieces. -/
theorem splitOn_append_of_end (ha : a = [] ∨ a.getLast? = some c) :
    ∃ front, a = front.flatMap (· ++ [c]) ∧ ∀ b : Str, (a ++ b).splitOn c = front ++ b.splitOn c := by
  obtain ⟨front, hfront⟩ : ∃ front, a.splitOn c = front ++ [[]] := by
    rcases ha with rfl | ha
    · exact ⟨[], List.splitOn_nil c⟩
    · obtain ⟨a', rfl⟩ := List.getLast?_eq_some_iff.mp ha
      exact ⟨a'.splitOn c, by rw [List.splitOn_append_cons_self, List.splitOn_nil]⟩
  refine ⟨front, ?_, ?_⟩
  · have hjoin := join_splitOn c a
    rw [hfront, join_append_cons] at hjoin
    simpa using hjoin.symm
  · intro b
    obtain ⟨front', last, ha', hab⟩ := splitOn_append c a
    obtain ⟨first, others, hb⟩ := List.exists_cons_of_ne_nil (List.splitOn_ne_nil c b)
    obtain ⟨rfl, hlast⟩ := List.append_inj' (hfront.symm.trans ha') rfl
    rw [hab b first others hb, hb, ← List.singleton_inj.mp hlast, List.nil_append]

end HummingbirdRpms.Lib.Text
