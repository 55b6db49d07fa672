/-
# HummingbirdRpms.Lib.LineDiff — what a line diff that shows nothing says about the two files.

A diff tool aligns the lines of two files: it keeps lines that are the same for it, and what lies
between kept lines is a change, with the lines removed and the lines added (`Aligned`).  Which lines it
keeps is its own business; whether two lines are the same is decided on their normal forms.

When every line of every change is one that the tool has been told to ignore, the files have the same
other lines in the same order (**`Aligned.residue_eq`**).  The converse fails, since a tool is free to
keep ignored lines in place of others.

A tool that leaves as few lines as it can in its changes is not that free (`Smallest`).  Where one file
is made from the other by rewriting it line by line, and no line that was rewritten is a line of the new
file, such a tool keeps all the other lines; **`Smallest.quiet_iff`** says when everything else is
ignored.  `shortest` aligns two files so.

Nothing here names a particular program.
-/
import Mathlib.Data.List.Basic
import Mathlib.Data.Multiset.AddSub
import Mathlib.Algebra.BigOperators.Group.List.Basic
import Mathlib.Algebra.Order.Group.Multiset

namespace HummingbirdRpms.Lib.LineDiff

/-- Lines that stand in one file in place of other lines of the other file. -/
structure Change (α : Type*) where
  removed : List α
  added : List α
  deriving DecidableEq

def Change.lines {α : Type*} (c : Change α) : List α := c.removed ++ c.added

/-- The changes of a way to align two files. -/
inductive Aligned {α β : Type*} (norm : α → β) : List α → List α → List (Change α) → Prop
  | nil : Aligned norm [] [] []
  | keep {x y a b cs} (h : norm x = norm y) (rest : Aligned norm a b cs) :
      Aligned norm (x :: a) (y :: b) cs
  | change {a b cs} (c : Change α) (rest : Aligned norm a b cs) :
      Aligned norm (c.removed ++ a) (c.added ++ b) (c :: cs)

/-- The lines that are not ignored, in normal form. -/
def residue {α β : Type*} (norm : α → β) (ignored : α → Bool) (a : List α) : List β :=
  (a.filter fun x => !ignored x).map norm

section

variable {α β : Type*} {norm : α → β} {ignored : α → Bool} {a b : List α} {cs : List (Change α)}

theorem residue_append : residue norm ignored (a ++ b) = residue norm ignored a ++ residue norm ignored b := by
  rw [residue, List.filter_append, List.map_append]
  rfl

theorem residue_eq_nil (h : ∀ x ∈ a, ignored x = true) : residue norm ignored a = [] := by
  rw [residue, List.map_eq_nil_iff, List.filter_eq_nil_iff]
  intro x hx
  simp [h x hx]

theorem residue_cons_of_eq {x y : α} (hxy : norm x = norm y) (hignored : ignored x = ignored y)
    (h : residue norm ignored a = residue norm ignored b) :
    residue norm ignored (x :: a) = residue norm ignored (y :: b) := by
  unfold residue at h ⊢
  rw [List.filter_cons, List.filter_cons, hignored]
  split
  · rw [List.map_cons, List.map_cons, hxy, h]
  · exact h

/-- Files that every change of which is ignored agree in the lines that are not. -/
theorem Aligned.residue_eq (h : Aligned norm a b cs)
    (hrespects : ∀ x y, norm x = norm y → ignored x = ignored y)
    (hcs : ∀ c ∈ cs, ∀ x ∈ c.lines, ignored x = true) :
    residue norm ignored a = residue norm ignored b := by
  induction h with
  | nil => rfl
  | keep hxy _ ih => exact residue_cons_of_eq hxy (hrespects _ _ hxy) (ih hcs)
  | change c _ ih =>
      have hc := hcs c List.mem_cons_self
      rw [residue_append, residue_append,
        residue_eq_nil fun x hx => hc x (List.mem_append_left _ hx),
        residue_eq_nil fun x hx => hc x (List.mem_append_right _ hx),
        ih fun c' hc' => hcs c' (List.mem_cons_of_mem c hc')]

/-- The changes between two files line by line, or all of it when one is longer. -/
def lineByLine [DecidableEq β] (norm : α → β) : List α → List α → List (Change α)
  | [], [] => []
  | x :: a, y :: b => if norm x = norm y then lineByLine norm a b else ⟨[x], [y]⟩ :: lineByLine norm a b
  | a, b => [⟨a, b⟩]

theorem aligned_lineByLine [DecidableEq β] : Aligned norm a b (lineByLine norm a b) := by
  have hapart : ∀ a b : List α, Aligned norm a b [⟨a, b⟩] := by
    intro a b
    have h := Aligned.change (⟨a, b⟩ : Change α) (.nil : Aligned norm [] [] [])
    rwa [List.append_nil, List.append_nil] at h
  induction a generalizing b with
  | nil =>
      cases b with
      | nil => exact .nil
      | cons y b => exact hapart [] (y :: b)
  | cons x a ih =>
      cases b with
      | nil => exact hapart (x :: a) []
      | cons y b =>
          rw [lineByLine]
          split
          · exact .keep ‹_› ih
          · exact .change ⟨[x], [y]⟩ ih

end

/-! ## Changes with few lines -/

section

variable {α β : Type*} {norm : α → β} {ignored : α → Bool} {a b : List α} {cs : List (Change α)}

/-- The number of lines in some changes. -/
def size (cs : List (Change α)) : Nat := (cs.flatMap Change.lines).length

/-- These are the changes of an alignment, and no alignment has changes with fewer lines. -/
structure Smallest (norm : α → β) (a b : List α) (cs : List (Change α)) : Prop where
  aligned : Aligned norm a b cs
  le : ∀ cs', Aligned norm a b cs' → size cs ≤ size cs'

theorem size_cons {c : Change α} : size (c :: cs) = c.removed.length + c.added.length + size cs := by
  rw [size, size, List.flatMap_cons, List.length_append, Change.lines, List.length_append]

/-- The change the other way. -/
def Change.swap (c : Change α) : Change α := ⟨c.added, c.removed⟩

theorem Aligned.swap (h : Aligned norm a b cs) : Aligned norm b a (cs.map Change.swap) := by
  induction h with
  | nil => exact .nil
  | keep hxy _ ih => exact .keep hxy.symm ih
  | change c _ ih => exact .change c.swap ih

theorem size_swap : size (cs.map Change.swap) = size cs := by
  induction cs with
  | nil => rfl
  | cons c cs ih =>
      rw [List.map_cons, size_cons, size_cons, ih, Change.swap, Nat.add_comm c.added.length]

theorem swap_swap : (cs.map Change.swap).map Change.swap = cs := by
  rw [List.map_map]
  exact List.map_id cs

theorem Smallest.swap (h : Smallest norm a b cs) : Smallest norm b a (cs.map Change.swap) where
  aligned := h.aligned.swap
  le cs' h' := by
    have hle := h.le _ h'.swap
    rwa [size_swap] at hle ⊢

theorem Change.mem_swap {c : Change α} {x : α} : x ∈ c.swap.lines ↔ x ∈ c.lines := by
  rw [Change.lines, Change.lines, List.mem_append, List.mem_append]
  exact or_comm

/-- The normal forms of some lines, in any order. -/
def norms (norm : α → β) (a : List α) : Multiset β := (a.map norm : List β)

theorem norms_append : norms norm (a ++ b) = norms norm a + norms norm b := by
  rw [norms, List.map_append, ← Multiset.coe_add]
  rfl

theorem norms_cons {x : α} : norms norm (x :: a) = {norm x} + norms norm a := by
  rw [norms, List.map_cons, ← Multiset.cons_coe, ← Multiset.singleton_add]
  rfl

theorem mem_norms {n : β} : n ∈ norms norm a ↔ ∃ x ∈ a, norm x = n := by
  rw [norms, Multiset.mem_coe, List.mem_map]

theorem card_norms : (norms norm a).card = a.length := by
  rw [norms, Multiset.coe_card, List.length_map]

/-- Both files are made of the kept lines and of those of the changes. -/
theorem Aligned.norms_eq (h : Aligned norm a b cs) :
    ∃ kept : Multiset β, norms norm a = kept + norms norm (cs.flatMap (·.removed)) ∧
      norms norm b = kept + norms norm (cs.flatMap (·.added)) := by
  induction h with
  | nil => exact ⟨0, rfl, rfl⟩
  | @keep x y a b cs hxy _ ih =>
      obtain ⟨kept, ha, hb⟩ := ih
      refine ⟨{norm x} + kept, ?_, ?_⟩
      · rw [norms_cons, ha, add_assoc]
      · rw [norms_cons, ← hxy, hb, add_assoc]
  | @change a b cs c _ ih =>
      obtain ⟨kept, ha, hb⟩ := ih
      refine ⟨kept, ?_, ?_⟩
      · rw [norms_append, ha, List.flatMap_cons, norms_append, add_left_comm]
      · rw [norms_append, hb, List.flatMap_cons, norms_append, add_left_comm]

theorem size_eq : size cs = (cs.flatMap (·.removed)).length + (cs.flatMap (·.added)).length := by
  induction cs with
  | nil => rfl
  | cons c cs ih =>
      rw [size_cons, ih, List.flatMap_cons, List.flatMap_cons, List.length_append, List.length_append]
      omega

/-- When lines of the old file that the new one does not have are as many, with the lines of the new one
that are not among the other old ones, as the changes hold, then they are what the changes hold. -/
theorem Aligned.norms_changes (h : Aligned norm a b cs) {kept removed added : Multiset β}
    (ha : norms norm a = kept + removed) (hb : norms norm b = kept + added)
    (hapart : ∀ n ∈ removed, n ∉ norms norm b) (hsize : size cs ≤ removed.card + added.card) :
    norms norm (cs.flatMap (·.removed)) = removed ∧ norms norm (cs.flatMap (·.added)) = added := by
  obtain ⟨matched, ha', hb'⟩ := h.norms_eq
  -- what is matched is not removed, so it is among the kept lines
  have hle : matched ≤ kept := by
    classical
    rw [Multiset.le_iff_count]
    intro n
    by_cases hn : n ∈ matched
    · have hnot : n ∉ removed := fun hr => hapart n hr (hb' ▸ Multiset.mem_add.mpr (Or.inl hn))
      have hcount := congrArg (Multiset.count n) (ha'.symm.trans ha)
      rw [Multiset.count_add, Multiset.count_add, Multiset.count_eq_zero_of_notMem hnot] at hcount
      omega
    · rw [Multiset.count_eq_zero_of_notMem hn]
      exact Nat.zero_le _
  have hcard := congrArg Multiset.card (ha'.symm.trans ha)
  have hcard' := congrArg Multiset.card (hb'.symm.trans hb)
  rw [Multiset.card_add, Multiset.card_add, card_norms] at hcard hcard'
  rw [size_eq] at hsize
  have hkept : matched = kept := Multiset.eq_of_le_of_card_le hle (by omega)
  subst hkept
  exact ⟨add_left_cancel (ha'.symm.trans ha), add_left_cancel (hb'.symm.trans hb)⟩

end

/-! ## A file rewritten line by line -/

section

variable {α β : Type*} {norm : α → β} {ignored : α → Bool} {old : List α} {cs : List (Change α)}
variable {pieces : α → List α} {kept : α → Bool}

/-- What is left over of a line when it is kept, and all of it otherwise. -/
def lineChange (pieces : α → List α) (kept : α → Bool) (x : α) : Change α :=
  if kept x then ⟨[], (pieces x).tail⟩ else ⟨[x], pieces x⟩

/-- A kept line stands first among the lines it is rewritten to. -/
def KeptFirst (norm : α → β) (pieces : α → List α) (kept : α → Bool) (old : List α) : Prop :=
  ∀ x ∈ old, kept x = true → ∃ y rest, pieces x = y :: rest ∧ norm x = norm y

/-- A rewritten line is no line of the new file. -/
def Apart (norm : α → β) (pieces : α → List α) (kept : α → Bool) (old : List α) : Prop :=
  ∀ x ∈ old, kept x = false → ∀ y ∈ old.flatMap pieces, norm x ≠ norm y

theorem aligned_lineChange (hkept : KeptFirst norm pieces kept old) :
    Aligned norm old (old.flatMap pieces) (old.map (lineChange pieces kept)) := by
  induction old with
  | nil => exact .nil
  | cons x old ih =>
      have hrest := ih fun y hy => hkept y (List.mem_cons_of_mem _ hy)
      rw [List.flatMap_cons, List.map_cons]
      cases hx : kept x with
      | true =>
          obtain ⟨y, rest, hpieces, hnorm⟩ := hkept x List.mem_cons_self hx
          have hchange : lineChange pieces kept x = ⟨[], rest⟩ := by
            rw [lineChange, hx, if_pos rfl, hpieces, List.tail_cons]
          rw [hchange, hpieces, List.cons_append]
          exact .keep hnorm (.change ⟨[], rest⟩ hrest)
      | false =>
          have hchange : lineChange pieces kept x = ⟨[x], pieces x⟩ := by
            rw [lineChange, hx, if_neg Bool.false_ne_true]
          rw [hchange]
          exact .change ⟨[x], pieces x⟩ hrest

/-- The kept lines, the rewritten ones, and what is in their place. -/
theorem norms_lines (hkept : KeptFirst norm pieces kept old) :
    norms norm old = norms norm (old.filter kept) +
        norms norm ((old.map (lineChange pieces kept)).flatMap (·.removed)) ∧
      norms norm (old.flatMap pieces) = norms norm (old.filter kept) +
        norms norm ((old.map (lineChange pieces kept)).flatMap (·.added)) := by
  induction old with
  | nil => exact ⟨rfl, rfl⟩
  | cons x old ih =>
      obtain ⟨hold, hnew⟩ := ih fun y hy => hkept y (List.mem_cons_of_mem _ hy)
      simp only [List.map_cons, List.flatMap_cons, norms_append]
      rw [norms_cons, hold, hnew]
      cases hx : kept x with
      | true =>
          obtain ⟨y, rest, hpieces, hnorm⟩ := hkept x List.mem_cons_self hx
          rw [List.filter_cons_of_pos hx, lineChange, hx, if_pos rfl, hpieces, List.tail_cons, norms_cons,
            norms_cons, ← hnorm]
          refine ⟨?_, ?_⟩
          · rw [show norms norm ([] : List α) = 0 from rfl, zero_add, add_assoc]
          · rw [add_assoc, add_assoc, add_left_comm (norms norm rest)]
      | false =>
          rw [List.filter_cons_of_neg (by rw [hx]; exact Bool.false_ne_true), lineChange, hx,
            if_neg Bool.false_ne_true]
          refine ⟨?_, add_left_comm _ _ _⟩
          rw [show norms norm [x] = {norm x} from rfl, add_left_comm]

/-- A tool that changes few lines changes those that were rewritten, and their replacements. -/
theorem Smallest.mem_changes (h : Smallest norm old (old.flatMap pieces) cs)
    (hkept : KeptFirst norm pieces kept old) (hapart : Apart norm pieces kept old) :
    ∀ c ∈ cs, ∀ y ∈ c.lines, ∃ x ∈ old, ∃ z ∈ (lineChange pieces kept x).lines, norm z = norm y := by
  obtain ⟨hold, hnew⟩ := norms_lines hkept
  have hremoved : ∀ n ∈ norms norm ((old.map (lineChange pieces kept)).flatMap (·.removed)),
      n ∉ norms norm (old.flatMap pieces) := by
    intro n hn hmem
    obtain ⟨y, hy, rfl⟩ := mem_norms.mp hn
    obtain ⟨x, hx, hy⟩ := List.mem_flatMap.mp (List.flatMap_map .. ▸ hy)
    obtain ⟨z, hz, hzy⟩ := mem_norms.mp hmem
    cases hk : kept x with
    | true =>
        rw [lineChange, hk, if_pos rfl] at hy
        exact absurd hy List.not_mem_nil
    | false =>
        rw [lineChange, hk, if_neg Bool.false_ne_true, List.mem_singleton] at hy
        subst hy
        exact hapart y hx hk z hz hzy.symm
  have hsize : size cs ≤ (norms norm ((old.map (lineChange pieces kept)).flatMap (·.removed))).card +
      (norms norm ((old.map (lineChange pieces kept)).flatMap (·.added))).card := by
    rw [card_norms, card_norms, ← size_eq]
    exact h.le _ (aligned_lineChange hkept)
  obtain ⟨hr, ha⟩ := h.aligned.norms_changes hold hnew hremoved hsize
  -- a line of a change is, up to its normal form, one of those counted
  have hfrom : ∀ y (part : Change α → List α), (∀ c, ∀ z ∈ part c, z ∈ c.lines) →
      norm y ∈ norms norm ((old.map (lineChange pieces kept)).flatMap part) →
        ∃ x ∈ old, ∃ z ∈ (lineChange pieces kept x).lines, norm z = norm y := by
    intro y part hpart hy
    obtain ⟨z, hz, hzy⟩ := mem_norms.mp hy
    obtain ⟨x, hx, hz⟩ := List.mem_flatMap.mp (List.flatMap_map .. ▸ hz)
    exact ⟨x, hx, z, hpart _ z hz, hzy⟩
  intro c hc y hy
  rcases List.mem_append.mp hy with hy | hy
  · refine hfrom y (·.removed) (fun c z hz => List.mem_append_left _ hz) ?_
    rw [← hr]
    exact mem_norms.mpr ⟨y, List.mem_flatMap.mpr ⟨c, hc, hy⟩, rfl⟩
  · refine hfrom y (·.added) (fun c z hz => List.mem_append_right _ hz) ?_
    rw [← ha]
    exact mem_norms.mpr ⟨y, List.mem_flatMap.mpr ⟨c, hc, hy⟩, rfl⟩

/-- An ignored line, which is rewritten to ignored lines. -/
def Forgiven (ignored : α → Bool) (pieces : α → List α) (x : α) : Prop :=
  ignored x = true ∧ ∀ y ∈ pieces x, ignored y = true

/-- What is left over of a kept line is ignored. -/
def RestIgnored (ignored : α → Bool) (pieces : α → List α) (kept : α → Bool) (old : List α) : Prop :=
  ∀ x ∈ old, kept x = true → ∀ y ∈ (pieces x).tail, ignored y = true

theorem length_residue_lines (hkept : KeptFirst norm pieces kept old)
    (hrespects : ∀ x y, norm x = norm y → ignored x = ignored y)
    (hseen : ∀ x ∈ old, ignored x = false → kept x = true) :
    (residue norm ignored old).length +
        (residue norm ignored ((old.filter ignored).flatMap pieces)).length ≤
      (residue norm ignored (old.flatMap pieces)).length := by
  induction old with
  | nil => exact le_rfl
  | cons x old ih =>
      have hrest := ih (fun y hy => hkept y (List.mem_cons_of_mem _ hy))
        fun y hy => hseen y (List.mem_cons_of_mem _ hy)
      rw [List.flatMap_cons, residue_append, List.length_append]
      cases hx : ignored x with
      | true =>
          rw [List.filter_cons_of_pos hx, List.flatMap_cons, residue_append, List.length_append,
            residue, List.filter_cons_of_neg (by rw [hx]; exact Bool.false_ne_true), ← residue]
          omega
      | false =>
          obtain ⟨y, rest, hpieces, hnorm⟩ := hkept x List.mem_cons_self (hseen x List.mem_cons_self hx)
          have hy : ignored y = false := (hrespects x y hnorm).symm.trans hx
          rw [List.filter_cons_of_neg (by rw [hx]; exact Bool.false_ne_true), hpieces, residue, residue, residue,
            List.filter_cons_of_pos (by rw [hx]; rfl), List.filter_cons_of_pos (by rw [hy]; rfl)]
          simp only [residue, List.length_map, List.length_cons] at hrest ⊢
          omega

/-- Files that agree in the lines that are not ignored: every line is kept or forgiven. -/
theorem kept_or_forgiven (hkept : KeptFirst norm pieces kept old) (hapart : Apart norm pieces kept old)
    (hrespects : ∀ x y, norm x = norm y → ignored x = ignored y)
    (h : residue norm ignored old = residue norm ignored (old.flatMap pieces)) :
    ∀ x ∈ old, kept x = true ∨ Forgiven ignored pieces x := by
  -- a line that is looked at is a line of the new file
  have hseen : ∀ x ∈ old, ignored x = false → kept x = true := by
    intro x hx hignored
    rw [← Bool.not_eq_false]
    intro hno
    have hmem : norm x ∈ residue norm ignored old :=
      List.mem_map.mpr ⟨x, List.mem_filter.mpr ⟨hx, by rw [hignored]; rfl⟩, rfl⟩
    rw [h] at hmem
    obtain ⟨y, hy, hyx⟩ := List.mem_map.mp hmem
    exact hapart x hx hno y (List.mem_filter.mp hy).1 hyx.symm
  have hlength := length_residue_lines hkept hrespects hseen
  rw [← h] at hlength
  have hnil : residue norm ignored ((old.filter ignored).flatMap pieces) = [] :=
    List.length_eq_zero_iff.mp (by omega)
  intro x hx
  cases hignored : ignored x with
  | false => exact Or.inl (hseen x hx hignored)
  | true =>
      refine Or.inr ⟨hignored, fun y hy => ?_⟩
      rw [residue, List.map_eq_nil_iff, List.filter_eq_nil_iff] at hnil
      have hy := hnil y (List.mem_flatMap.mpr ⟨x, List.mem_filter.mpr ⟨hx, hignored⟩, hy⟩)
      simpa using hy

/-- **`Smallest.quiet_iff`** — every line of every change is ignored exactly when every line of the old
file is kept or forgiven. -/
theorem Smallest.quiet_iff (h : Smallest norm old (old.flatMap pieces) cs)
    (hkept : KeptFirst norm pieces kept old) (hapart : Apart norm pieces kept old)
    (hrest : RestIgnored ignored pieces kept old)
    (hrespects : ∀ x y, norm x = norm y → ignored x = ignored y) :
    (∀ c ∈ cs, ∀ x ∈ c.lines, ignored x = true) ↔
      ∀ x ∈ old, kept x = true ∨ Forgiven ignored pieces x := by
  constructor
  · intro hquiet
    exact kept_or_forgiven hkept hapart hrespects (h.aligned.residue_eq hrespects hquiet)
  · intro hlines c hc y hy
    obtain ⟨x, hx, z, hz, hzy⟩ := h.mem_changes hkept hapart c hc y hy
    rw [← hrespects z y hzy]
    cases hk : kept x with
    | true =>
        rw [lineChange, hk, if_pos rfl] at hz
        exact hrest x hx hk z hz
    | false =>
        rw [lineChange, hk, if_neg Bool.false_ne_true] at hz
        rcases hlines x hx with hkx | ⟨hignored, hpieces⟩
        · rw [hk] at hkx
          exact absurd hkx Bool.false_ne_true
        · rcases List.mem_cons.mp hz with rfl | hz
          · exact hignored
          · exact hpieces z hz

end

/-! ## A shortest alignment -/

section

variable {α β : Type*} [DecidableEq β] (norm : α → β)

/-- The changes with the fewer lines. -/
def fewer (cs cs' : List (Change α)) : List (Change α) := if size cs ≤ size cs' then cs else cs'

/-- Align a line and those after it, given how to align those after it. -/
def shortestFrom (x : α) (after : List α → List (Change α)) : List α → List (Change α)
  | [] => ⟨[x], []⟩ :: after []
  | y :: b =>
      if norm x = norm y then after b
      else fewer (⟨[x], []⟩ :: after (y :: b)) (⟨[], [y]⟩ :: shortestFrom x after b)

/-- The changes of an alignment with as few lines as can be. -/
def shortest : List α → List α → List (Change α)
  | [], b => [⟨[], b⟩]
  | x :: a, b => shortestFrom norm x (shortest a) b

variable {norm} {a b : List α} {cs cs' : List (Change α)}

attribute [local simp] shortest shortestFrom

theorem fewer_cases : fewer cs cs' = cs ∨ fewer cs cs' = cs' := by
  unfold fewer
  split
  · exact Or.inl rfl
  · exact Or.inr rfl

theorem size_fewer : size (fewer cs cs') = min (size cs) (size cs') := by
  unfold fewer
  split <;> omega

theorem aligned_shortest : Aligned norm a b (shortest norm a b) := by
  induction a generalizing b with
  | nil =>
      have h := Aligned.change (⟨[], b⟩ : Change α) (.nil : Aligned norm [] [] [])
      rwa [List.append_nil, List.append_nil] at h
  | cons x a ih =>
      rw [shortest]
      induction b with
      | nil => exact .change ⟨[x], []⟩ ih
      | cons y b ihb =>
          rw [shortestFrom]
          split
          · exact .keep ‹_› ih
          · rcases @fewer_cases _ (⟨[x], []⟩ :: shortest norm a (y :: b))
              (⟨[], [y]⟩ :: shortestFrom norm x (shortest norm a) b) with h | h
            · rw [h]
              exact .change ⟨[x], []⟩ ih
            · rw [h]
              exact .change ⟨[], [y]⟩ ihb

section

variable {x y : α}

theorem size_shortest_nil : size (shortest norm [] b) = b.length := by
  rw [shortest, size_cons]
  show 0 + b.length + size [] = b.length
  rw [Nat.zero_add]
  rfl

theorem size_shortest_cons_nil : size (shortest norm (x :: a) []) = size (shortest norm a []) + 1 := by
  rw [shortest, shortestFrom, size_cons, Nat.add_comm]
  rfl

theorem size_shortest_keep (h : norm x = norm y) :
    size (shortest norm (x :: a) (y :: b)) = size (shortest norm a b) := by
  rw [shortest, shortestFrom, if_pos h]

theorem size_shortest_change (h : norm x ≠ norm y) :
    size (shortest norm (x :: a) (y :: b)) =
      min (size (shortest norm a (y :: b)) + 1) (size (shortest norm (x :: a) b) + 1) := by
  rw [shortest, shortestFrom, if_neg h, size_fewer, size_cons, size_cons, ← shortest, Nat.add_comm _ 1,
    Nat.add_comm _ 1]
  rfl

/-- A line more at the front of one file costs at most one. -/
theorem size_shortest_cons_of
    (hdrop : ∀ (y : α) (b : List α), size (shortest norm a b) ≤ size (shortest norm a (y :: b)) + 1) :
    size (shortest norm (x :: a) b) ≤ size (shortest norm a b) + 1 := by
  cases b with
  | nil => exact size_shortest_cons_nil.le
  | cons y b =>
      by_cases h : norm x = norm y
      · rw [size_shortest_keep h]
        exact hdrop y b
      · rw [size_shortest_change h]
        exact min_le_left _ _

theorem size_shortest_tail : size (shortest norm a b) ≤ size (shortest norm a (y :: b)) + 1 := by
  induction a generalizing b y with
  | nil =>
      rw [size_shortest_nil, size_shortest_nil, List.length_cons]
      omega
  | cons x a ih =>
      have hcons : size (shortest norm (x :: a) b) ≤ size (shortest norm a b) + 1 :=
        size_shortest_cons_of fun _ _ => ih
      by_cases h : norm x = norm y
      · rw [size_shortest_keep h]
        exact hcons
      · have hb : size (shortest norm a b) ≤ size (shortest norm a (y :: b)) + 1 := ih
        rw [size_shortest_change h]
        omega

theorem size_shortest_cons : size (shortest norm (x :: a) b) ≤ size (shortest norm a b) + 1 :=
  size_shortest_cons_of fun _ _ => size_shortest_tail

/-- So does a line more at the front of the other, given that it does for what follows. -/
theorem size_shortest_drop_of
    (hcons : ∀ (y : α) (b : List α), size (shortest norm a (y :: b)) ≤ size (shortest norm a b) + 1) :
    size (shortest norm a b) ≤ size (shortest norm (x :: a) b) + 1 := by
  induction b with
  | nil =>
      rw [size_shortest_cons_nil]
      omega
  | cons y b ih =>
      have hb := hcons y b
      by_cases h : norm x = norm y
      · rw [size_shortest_keep h]
        exact hb
      · rw [size_shortest_change h]
        omega

theorem size_shortest_cons_right : size (shortest norm a (y :: b)) ≤ size (shortest norm a b) + 1 := by
  induction a generalizing b y with
  | nil =>
      rw [size_shortest_nil, size_shortest_nil, List.length_cons]
  | cons x a ih =>
      by_cases h : norm x = norm y
      · rw [size_shortest_keep h]
        exact size_shortest_drop_of fun _ _ => ih
      · rw [size_shortest_change h]
        exact min_le_right _ _

end

/-- What is put in front of two files costs at most its lines. -/
theorem size_shortest_append {r s : List α} :
    size (shortest norm (r ++ a) (s ++ b)) ≤ r.length + s.length + size (shortest norm a b) := by
  induction r with
  | nil =>
      induction s with
      | nil =>
          rw [List.nil_append, List.nil_append, List.length_nil]
          omega
      | cons y s ih =>
          have h : size (shortest norm a (y :: (s ++ b))) ≤ size (shortest norm a (s ++ b)) + 1 :=
            size_shortest_cons_right
          simp only [List.nil_append, List.cons_append, List.length_cons, List.length_nil] at ih ⊢
          omega
  | cons x r ih =>
      have h : size (shortest norm (x :: (r ++ a)) (s ++ b)) ≤ size (shortest norm (r ++ a) (s ++ b)) + 1 :=
        size_shortest_cons
      rw [List.cons_append, List.length_cons]
      omega

/-- **`smallest_shortest`** — there is an alignment whose changes have as few lines as can be. -/
theorem smallest_shortest : Smallest norm a b (shortest norm a b) where
  aligned := aligned_shortest
  le cs' h := by
    induction h with
    | nil => exact le_rfl
    | keep hxy _ ih =>
        rw [size_shortest_keep hxy]
        exact ih
    | change c _ ih =>
        rw [size_cons]
        exact size_shortest_append.trans (Nat.add_le_add_left ih _)

end

end HummingbirdRpms.Lib.LineDiff
