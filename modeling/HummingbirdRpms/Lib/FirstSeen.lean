/-
# HummingbirdRpms.Lib.FirstSeen — of every key, the element that comes first.

A loop that keeps a set of the keys it has seen, and passes over an element whose key is in the set.
`firstSeen` is what such a loop keeps; `keepNew` is one round of it.
-/
import Mathlib.Data.List.Nodup

namespace HummingbirdRpms.Lib.FirstSeen

variable {α κ : Type} [DecidableEq κ] {key : α → κ} {seen : List κ} {l l' : List α} {a : α}

/-- The elements whose key is neither in `seen` nor that of an element before. -/
def firstSeen (key : α → κ) : (seen : List κ) → List α → List α
  | _, [] => []
  | seen, a :: l =>
      if key a ∈ seen then firstSeen key seen l else a :: firstSeen key (key a :: seen) l

/-- One round: what is kept so far, the latest first, and the keys that were seen. -/
def keepNew (key : α → κ) (st : List α × List κ) (a : α) : List α × List κ :=
  if key a ∈ st.2 then st else (a :: st.1, key a :: st.2)

@[simp] theorem firstSeen_nil : firstSeen key seen [] = [] := rfl

theorem firstSeen_seen (h : key a ∈ seen) : firstSeen key seen (a :: l) = firstSeen key seen l := by
  rw [firstSeen, if_pos h]

theorem firstSeen_new (h : key a ∉ seen) :
    firstSeen key seen (a :: l) = a :: firstSeen key (key a :: seen) l := by
  rw [firstSeen, if_neg h]

/-- The loop keeps what `firstSeen` says. -/
theorem foldl_keepNew {kept : List α} :
    (l.foldl (keepNew key) (kept, seen)).1 = (firstSeen key seen l).reverse ++ kept := by
  induction l generalizing kept seen with
  | nil => rfl
  | cons a l ih =>
      rw [List.foldl_cons, keepNew]
      by_cases h : key a ∈ seen
      · rw [if_pos h, ih, firstSeen_seen h]
      · rw [if_neg h, ih, firstSeen_new h, List.reverse_cons, List.append_assoc]
        rfl

theorem firstSeen_subset (h : a ∈ firstSeen key seen l) : a ∈ l ∧ key a ∉ seen := by
  induction l generalizing seen with
  | nil => cases h
  | cons b l ih =>
      by_cases hb : key b ∈ seen
      · rw [firstSeen_seen hb] at h
        obtain ⟨hl, hseen⟩ := ih h
        exact ⟨List.mem_cons_of_mem b hl, hseen⟩
      · rw [firstSeen_new hb] at h
        rcases List.mem_cons.mp h with rfl | h
        · exact ⟨List.mem_cons_self, hb⟩
        · obtain ⟨hl, hseen⟩ := ih h
          exact ⟨List.mem_cons_of_mem b hl, fun hmem => hseen (List.mem_cons_of_mem _ hmem)⟩

/-- No two of them have the same key. -/
theorem nodup_firstSeen : ((firstSeen key seen l).map key).Nodup := by
  induction l generalizing seen with
  | nil => exact List.nodup_nil
  | cons a l ih =>
      by_cases h : key a ∈ seen
      · rw [firstSeen_seen h]
        exact ih
      · rw [firstSeen_new h, List.map_cons, List.nodup_cons]
        refine ⟨fun hmem => ?_, ih⟩
        obtain ⟨b, hb, hkey⟩ := List.mem_map.mp hmem
        exact (firstSeen_subset hb).2 (by rw [hkey]; exact List.mem_cons_self)

/-- Every key is represented. -/
theorem exists_firstSeen (h : a ∈ l) (hnew : key a ∉ seen) : ∃ b ∈ firstSeen key seen l, key b = key a := by
  induction l generalizing seen with
  | nil => cases h
  | cons b l ih =>
      by_cases hb : key b ∈ seen
      · rw [firstSeen_seen hb]
        rcases List.mem_cons.mp h with rfl | h
        · exact absurd hb hnew
        · exact ih h hnew
      · rw [firstSeen_new hb]
        by_cases hsame : key a = key b
        · exact ⟨b, List.mem_cons_self, hsame.symm⟩
        · rcases List.mem_cons.mp h with rfl | h
          · exact absurd rfl hsame
          · obtain ⟨d, hd, hkey⟩ := ih h fun hmem => (List.mem_cons.mp hmem).elim hsame hnew
            exact ⟨d, List.mem_cons_of_mem b hd, hkey⟩

theorem firstSeen_eq_nil_iff : firstSeen key [] l = [] ↔ l = [] := by
  constructor
  · intro h
    apply List.eq_nil_iff_forall_not_mem.mpr
    intro a ha
    obtain ⟨b, hb, -⟩ : ∃ b ∈ firstSeen key [] l, _ := exists_firstSeen ha List.not_mem_nil
    rw [h] at hb
    cases hb
  · rintro rfl
    rfl

/-- Two of them with the same key are the same. -/
theorem firstSeen_inj {b : α} (ha : a ∈ firstSeen key seen l) (hb : b ∈ firstSeen key seen l)
    (h : key a = key b) : a = b := List.inj_on_of_nodup_map nodup_firstSeen ha hb h

/-- Only the keys that occur matter. -/
theorem firstSeen_congr {seen' : List κ} (h : ∀ a ∈ l, key a ∈ seen ↔ key a ∈ seen') :
    firstSeen key seen l = firstSeen key seen' l := by
  induction l generalizing seen seen' with
  | nil => rfl
  | cons a l ih =>
      have htail : ∀ b ∈ l, key b ∈ seen ↔ key b ∈ seen' := fun b hb => h b (List.mem_cons_of_mem a hb)
      by_cases ha : key a ∈ seen
      · rw [firstSeen_seen ha, firstSeen_seen ((h a List.mem_cons_self).mp ha), ih htail]
      · rw [firstSeen_new ha, firstSeen_new fun hmem => ha ((h a List.mem_cons_self).mpr hmem)]
        congr 1
        apply ih
        intro b hb
        rw [List.mem_cons, List.mem_cons, htail b hb]

/-- A class of keys can be picked before or after. -/
theorem filter_firstSeen {p : α → Bool} (hp : ∀ a b, key a = key b → p a = p b) :
    (firstSeen key seen l).filter p = firstSeen key seen (l.filter p) := by
  induction l generalizing seen with
  | nil => rfl
  | cons a l ih =>
      by_cases hseen : key a ∈ seen
      · rw [firstSeen_seen hseen, ih]
        cases ha : p a with
        | false => rw [List.filter_cons_of_neg (by rw [ha]; decide)]
        | true => rw [List.filter_cons_of_pos ha, firstSeen_seen hseen]
      · rw [firstSeen_new hseen]
        cases ha : p a with
        | false =>
            rw [List.filter_cons_of_neg (by rw [ha]; decide), List.filter_cons_of_neg (by rw [ha]; decide), ih]
            -- the key of `a` is not that of an element that is picked
            apply firstSeen_congr
            intro b hb
            rw [List.mem_cons, or_iff_right]
            intro hkey
            have hb' := List.of_mem_filter hb
            rw [hp b a hkey, ha] at hb'
            cases hb'
        | true => rw [List.filter_cons_of_pos ha, List.filter_cons_of_pos ha, firstSeen_new hseen, ih]

/-- Offering an element more than once in a row changes nothing. -/
theorem firstSeen_replicate {n : Nat} :
    firstSeen key seen (List.replicate (n + 1) a ++ l) = firstSeen key seen (a :: l) := by
  have hagain : ∀ n, firstSeen key (key a :: seen) (List.replicate n a ++ l) = firstSeen key (key a :: seen) l := by
    intro n
    induction n with
    | zero => rfl
    | succ n ih => rw [List.replicate_succ, List.cons_append, firstSeen_seen List.mem_cons_self, ih]
  rw [List.replicate_succ, List.cons_append]
  by_cases h : key a ∈ seen
  · have hsame : ∀ b ∈ List.replicate n a ++ l, key b ∈ seen ↔ key b ∈ key a :: seen := by
      intro b _
      rw [List.mem_cons, iff_or_self]
      rintro hkey
      rwa [hkey]
    rw [firstSeen_seen h, firstSeen_seen h, firstSeen_congr hsame, hagain]
    apply firstSeen_congr
    intro b _
    rw [List.mem_cons, or_iff_right_iff_imp]
    intro hkey
    rwa [hkey]
  · rw [firstSeen_new h, firstSeen_new h, hagain]

end HummingbirdRpms.Lib.FirstSeen
