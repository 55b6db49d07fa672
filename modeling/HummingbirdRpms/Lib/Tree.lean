/-
# HummingbirdRpms.Lib.Tree — a directory tree as a finite map from relative paths to files.

A tree is an association list with distinct keys (Mathlib's `AList`), keyed by the path relative to
the directory with `/` between components, so it can be listed as well as read.  A directory with
nothing in it is an entry of its own (`File.dir`): version control does not see it, a recursive
comparison does.

The module gives reading, writing, removal, restriction and overlay with their lookup equations, the
top-level `glob` and which writes leave it alone (`SameTop`), and the recursive comparison of two
trees over an arbitrary comparison of files.
-/
import Mathlib.Data.List.AList
import Mathlib.Data.List.Dedup
import Mathlib.Data.List.TakeWhile
import HummingbirdRpms.Lib.Text

namespace HummingbirdRpms.Lib

open Text

/-- What a path holds. -/
inductive File where
  /-- A file that decodes as text, with its raw characters. -/
  | text (s : Str)
  /-- A file whose bytes are not valid in the text encoding. -/
  | bytes (b : List UInt8)
  /-- A directory listed by itself; one with something in it need not be. -/
  | dir
  deriving DecidableEq

namespace File

/-- `path.is_file()` -/
def isFile : File → Bool
  | .dir => false
  | _ => true

end File

/-- A path relative to the directory, its components separated by `/`. -/
abbrev Path := Str

/-- A directory tree. -/
abbrev Tree := AList (fun _ : Path => File)

namespace Tree

def read (t : Tree) (p : Path) : Option File := AList.lookup p t

def write (t : Tree) (p : Path) (f : File) : Tree := AList.insert p f t

def remove (t : Tree) (p : Path) : Tree := AList.erase p t

def paths (t : Tree) : List Path := t.keys

/-- The tree that holds exactly the listed files, the first entry of a path winning. -/
def ofList : List (Path × File) → Tree
  | [] => ∅
  | (p, f) :: l => (ofList l).write p f

/-- The entries whose path satisfies `q`. -/
def restrict (q : Path → Bool) (t : Tree) : Tree :=
  ⟨t.entries.filter fun e => q e.1,
    t.nodupKeys.sublist List.filter_sublist⟩

/-- `over` laid over `base`: what `over` holds wins. -/
def overlay (upper base : Tree) : Tree := upper ∪ base

/-- Whether a file is present at `p`. -/
def isFile (t : Tree) (p : Path) : Bool := (t.read p).any File.isFile

variable {t upper base : Tree} {p p' : Path} {f : File}

theorem isFile_of_read (h : t.read p = some f) (hf : f.isFile = true) : t.isFile p = true := by
  rw [isFile, h]
  exact hf

@[simp] theorem read_empty : read ∅ p = none := AList.lookup_empty p

@[simp] theorem read_write_self : (t.write p f).read p = some f := AList.lookup_insert t

theorem read_write_ne (h : p' ≠ p) : (t.write p f).read p' = t.read p' := AList.lookup_insert_ne h

theorem read_write : (t.write p f).read p' = if p' = p then some f else t.read p' := by
  split
  · rename_i h; subst h; exact read_write_self
  · rename_i h; exact read_write_ne h

theorem write_write {f' : File} : (t.write p f).write p f' = t.write p f' := AList.insert_insert t

@[simp] theorem read_remove_self : (t.remove p).read p = none := AList.lookup_erase p t

theorem read_remove_ne (h : p' ≠ p) : (t.remove p).read p' = t.read p' := AList.lookup_erase_ne h

theorem read_remove : (t.remove p).read p' = if p' = p then none else t.read p' := by
  split
  · rename_i h; subst h; exact read_remove_self
  · rename_i h; exact read_remove_ne h

theorem mem_paths : p ∈ t.paths ↔ (t.read p).isSome := AList.lookup_isSome.symm

theorem read_restrict {q : Path → Bool} :
    (t.restrict q).read p = if q p then t.read p else none := by
  ext f
  have hl : f ∈ (t.restrict q).read p ↔ (⟨p, f⟩ : Sigma fun _ => File) ∈ (t.restrict q).entries :=
    AList.mem_lookup_iff
  have hr : f ∈ t.read p ↔ (⟨p, f⟩ : Sigma fun _ => File) ∈ t.entries := AList.mem_lookup_iff
  rw [Option.mem_def] at hl hr
  rw [hl]
  simp only [restrict, List.mem_filter]
  rw [← hr]
  by_cases hq : q p = true <;> simp [hq]

theorem read_overlay : (overlay upper base).read p = (upper.read p).or (base.read p) := by
  unfold overlay read
  by_cases h : p ∈ upper
  · rw [AList.lookup_union_left h]
    have := AList.lookup_isSome.mpr h
    cases hl : AList.lookup p upper with
    | none => simp [hl] at this
    | some f => rfl
  · rw [AList.lookup_union_right h, AList.lookup_eq_none.mpr h]
    rfl

/-! ## Listing the top level -/

/-- The first component of a path. -/
def firstComponent (p : Path) : Str := p.takeWhile (· ≠ '/')

/-- `directory.glob('*' + suffix)`: the names directly in the directory that end in `suffix`. -/
def glob (suffix : Str) (t : Tree) : List Str :=
  ((t.paths.map firstComponent).filter (endsWith suffix)).dedup

/-- A path whose top-level name does not end in `suffix`. -/
def Outside (suffix : Str) (p : Path) : Prop := endsWith suffix (firstComponent p) = false

instance {suffix : Str} : Decidable (Outside suffix p) :=
  inferInstanceAs (Decidable (_ = false))

theorem Outside.not_endsWith {suffix : Str} (h : Outside suffix p) :
    ¬ endsWith suffix (firstComponent p) = true := by
  rw [show endsWith suffix (firstComponent p) = false from h]
  exact Bool.false_ne_true

theorem glob_filter_erase [BEq Path] [LawfulBEq Path] {suffix : Str} (h : Outside suffix p)
    (ks : List Path) :
    ((ks.erase p).map firstComponent).filter (endsWith suffix) =
      (ks.map firstComponent).filter (endsWith suffix) := by
  induction ks with
  | nil => rfl
  | cons k ks ih =>
      by_cases hk : k = p
      · subst hk
        rw [List.erase_cons_head, List.map_cons, List.filter_cons_of_neg h.not_endsWith]
      · rw [List.erase_cons_tail (by simpa using hk), List.map_cons, List.map_cons,
          List.filter_cons, List.filter_cons, ih]

theorem glob_write {suffix : Str} (h : Outside suffix p) :
    (t.write p f).glob suffix = t.glob suffix := by
  unfold glob paths write
  rw [AList.keys_insert, List.map_cons, List.filter_cons_of_neg h.not_endsWith]
  exact congrArg List.dedup (@glob_filter_erase p instBEqOfDecidableEq _ suffix h t.keys)

theorem glob_remove {suffix : Str} (h : Outside suffix p) :
    (t.remove p).glob suffix = t.glob suffix := by
  unfold glob paths remove
  rw [AList.keys_erase]
  exact congrArg List.dedup (@glob_filter_erase p instBEqOfDecidableEq _ suffix h t.keys)

theorem firstComponent_of_mem_glob {suffix n : Str} (hn : n ∈ t.glob suffix) :
    firstComponent n = n ∧ endsWith suffix n = true := by
  simp only [glob, List.mem_dedup, List.mem_filter, List.mem_map] at hn
  obtain ⟨⟨k, _, rfl⟩, hend⟩ := hn
  exact ⟨List.takeWhile_idem, hend⟩

/-- A name in a directory listing is not outside the listed suffix. -/
theorem ne_of_mem_glob {suffix n : Str} (hn : n ∈ t.glob suffix) (h : Outside suffix p) : n ≠ p := by
  rintro rfl
  obtain ⟨hfirst, hend⟩ := firstComponent_of_mem_glob hn
  rw [Outside, hfirst, hend] at h
  exact Bool.noConfusion h

/-- The two trees list the same names ending in `suffix` at their top level, with the same content. -/
def SameTop (suffix : Str) (t t' : Tree) : Prop :=
  t'.glob suffix = t.glob suffix ∧ ∀ n ∈ t.glob suffix, t'.read n = t.read n

namespace SameTop

variable {suffix : Str} {t₁ t₂ t₃ : Tree}

theorem refl : SameTop suffix t t := ⟨rfl, fun _ _ => rfl⟩

theorem trans (h₁ : SameTop suffix t₁ t₂) (h₂ : SameTop suffix t₂ t₃) : SameTop suffix t₁ t₃ :=
  ⟨h₂.1.trans h₁.1, fun n hn => (h₂.2 n (h₁.1 ▸ hn)).trans (h₁.2 n hn)⟩

theorem write (h : Outside suffix p) : SameTop suffix t (t.write p f) :=
  ⟨glob_write h, fun _ hn => read_write_ne (ne_of_mem_glob hn h)⟩

theorem remove (h : Outside suffix p) : SameTop suffix t (t.remove p) :=
  ⟨glob_remove h, fun _ hn => read_remove_ne (ne_of_mem_glob hn h)⟩

end SameTop

/-! ## Directories -/

/-- The directory a path is in, empty at the top level. -/
def parent (p : Path) : Path := (p.rdropWhile (· ≠ '/')).dropLast

theorem firstComponent_of_prefix {d : Path} (h : d ++ ['/'] <+: p) :
    firstComponent d = firstComponent p := by
  obtain ⟨r, rfl⟩ := h
  unfold firstComponent
  rw [List.append_assoc, List.takeWhile_append]
  split
  · rename_i hlen
    simpa using (List.takeWhile_prefix _).eq_of_length hlen
  · rfl

theorem prefix_of_parent (h : parent p ≠ []) : parent p ++ ['/'] <+: p := by
  have hne : p.rdropWhile (· ≠ '/') ≠ [] := by
    intro hnil
    exact h (by rw [parent, hnil]; rfl)
  have hlast : (p.rdropWhile (· ≠ '/')).getLast hne = '/' := by
    simpa using List.rdropWhile_last_not _ _ hne
  have hsplit := List.dropLast_append_getLast hne
  rw [hlast] at hsplit
  rw [parent, hsplit]
  exact List.rdropWhile_prefix _ _

theorem firstComponent_parent (h : parent p ≠ []) : firstComponent (parent p) = firstComponent p :=
  firstComponent_of_prefix (prefix_of_parent h)

/-- Whether `d` is a directory: the top one, one listed by itself, or one with something in it. -/
def isDir (t : Tree) (d : Path) : Bool :=
  d.isEmpty || decide (t.read d = some .dir) || t.paths.any (startsWith (d ++ ['/']))

/-- `path.exists()` -/
def present (t : Tree) (p : Path) : Bool := t.isFile p || t.isDir p

/-- Whether a file can be written at `p`. -/
def writable (t : Tree) (p : Path) : Bool := t.isDir (parent p) && !t.isDir p

/-- The file at `p`, if there is one, unlinked: the directory it was in stays. -/
def unlink (t : Tree) (p : Path) : Tree :=
  if t.isFile p = false then t
  else if parent p = [] ∨ (t.read (parent p)).isSome then t.remove p
  else (t.remove p).write (parent p) .dir

theorem isFile_unlink {q : Path} : (t.unlink p).isFile q = (decide (q ≠ p) && t.isFile q) := by
  have hremove : (t.remove p).isFile q = (decide (q ≠ p) && t.isFile q) := by
    by_cases h : q = p <;> simp [isFile, read_remove, h]
  unfold unlink
  split
  · by_cases h : q = p <;> simp_all
  · split
    · exact hremove
    · rename_i hp
      rw [← hremove]
      by_cases hq : q = parent p
      · have hnone : t.read (parent p) = none := by simpa using (not_or.mp hp).2
        subst hq
        simp [isFile, File.isFile, read_remove, hnone]
      · simp only [isFile, read_write_ne hq]

theorem read_unlink_of_isFile {q : Path} (hq : t.isFile q = true) (h : q ≠ p) :
    (t.unlink p).read q = t.read q := by
  unfold unlink
  split
  · rfl
  · split
    · exact read_remove_ne h
    · rename_i hp
      have hne : q ≠ parent p := by
        rintro rfl
        have hnone : t.read (parent p) = none := by simpa using (not_or.mp hp).2
        simp [isFile, hnone] at hq
      rw [read_write_ne hne, read_remove_ne h]

theorem SameTop.unlink {suffix : Str} (h : Outside suffix p) : SameTop suffix t (t.unlink p) := by
  unfold Tree.unlink
  split
  · exact SameTop.refl
  · split
    · exact SameTop.remove h
    · rename_i hp
      have hp' : Outside suffix (parent p) := by
        rwa [Outside, firstComponent_parent (not_or.mp hp).1]
      exact (SameTop.remove h).trans (SameTop.write hp')

/-! ## Recursive comparison -/

/-- `diff --recursive`: every path outside `excluded` is in both trees, with the same file up to
`same`, or a directory in both. -/
def diffSame (same : File → File → Bool) (excluded : Path → Bool) (a b : Tree) : Bool :=
  (a.paths ++ b.paths).all fun p =>
    excluded p ||
      match a.read p, b.read p with
      | some .dir, _ => b.isDir p
      | _, some .dir => a.isDir p
      | some x, some y => same x y
      | _, _ => false

end Tree

end HummingbirdRpms.Lib
