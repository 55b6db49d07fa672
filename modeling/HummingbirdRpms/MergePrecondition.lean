/-
# HummingbirdRpms.MergePrecondition — when the merge of local modifications finds none.

`update` of `ci/dist_git.py` merges local modifications into a package that is recorded as modified and
that `is_package_unmodified` finds different from the recorded upstream commit.
`merge_local_modifications` asserts that there is something to commit then.  The two do not look at the
same things: the first compares the directories with `diff`, the second asks git about the files that
`.gitignore` lets through, with the releases of all spec files normalised.

**`merge_asserts_iff`** says which difference git has to see for the assertion to hold: a file that has
other content after normalisation, one that is gone, or a new one that is not ignored.
-/
import HummingbirdRpms.LocalChanges

namespace HummingbirdRpms

open Lib Lib.Text Lib.Regex Lib.Exec

/-! ## Normalised files -/

/-- The spec files of a directory can be read as text. -/
def SpecsReadable (t : Tree) : Prop := ∀ q ∈ t.glob ".spec", ∃ s, t.read q = some (.text s)

/-- A spec file with its releases normalised. -/
def normalSpec : File → File
  | .text s => .text (normalizeRelease (universalNewlines s))
  | f => f

/-- The content of a path in a directory whose spec files are normalised. -/
def normalFile (t : Tree) (q : Path) : Option File :=
  if q ∈ t.glob ".spec" then (t.read q).map normalSpec else t.read q

/-- The assertion of `merge_local_modifications` that there is something to commit. -/
def nothingToCommit : Exn := .raised .assertionError "Expected local modifications but git status is clean"

/-- What git sees of the difference between the old upstream and a package directory. -/
inductive GitSees (env : Env) (oldTree packageDir : Tree) : Prop
  /-- A file has other content, releases apart. -/
  | changed {q : Path} (old : oldTree.isFile q = true) (present : packageDir.isFile q = true)
      (differs : normalFile packageDir q ≠ normalFile oldTree q)
  | removed {q : Path} (old : oldTree.isFile q = true) (gone : packageDir.isFile q = false)
  /-- A new file is not ignored. -/
  | added {q : Path} {normalLocal : Tree} (new : oldTree.isFile q = false)
      (present : packageDir.isFile q = true)
      (locals : normalizeReleaseInSpecs packageDir = .ok normalLocal)
      (notIgnored : env.ignored normalLocal q = false)

section

variable {t t' a b : Tree} {specs : List Path} {q : Path} {e : Exn}

theorem normalizeSpecs_ok (hnodup : specs.Nodup) (h : normalizeSpecs specs t = .ok t') :
    ∀ q ∈ specs, ∃ s, t.read q = some (.text s) ∧
      t'.read q = some (.text (normalizeRelease (universalNewlines s))) := by
  induction specs generalizing t with
  | nil => exact List.forall_mem_nil _
  | cons spec specs ih =>
      obtain ⟨content, hcontent, h⟩ := except_bind_ok_iff.mp h
      obtain ⟨hnew, hnodup⟩ := List.nodup_cons.mp hnodup
      rw [List.forall_mem_cons]
      constructor
      · unfold readText at hcontent
        cases hfile : t.read spec with
        | none => simp [hfile] at hcontent
        | some f =>
            rw [hfile] at hcontent
            cases f with
            | text s =>
                refine ⟨s, rfl, ?_⟩
                rw [normalizeSpecs_read h hnew, Tree.read_write_self, ← Except.ok.inj hcontent]
            | bytes b => simp [decodeText] at hcontent
            | dir => simp [decodeText] at hcontent
      · intro q hq
        obtain ⟨s, hread, hnormal⟩ := ih hnodup h q hq
        refine ⟨s, ?_, hnormal⟩
        rw [Tree.read_write_ne] at hread
        · exact hread
        · rintro rfl
          exact hnew hq

/-- The files of a directory after `normalize_release_in_specs`. -/
theorem normalizeReleaseInSpecs_eq (h : normalizeReleaseInSpecs t = .ok t') (q : Path) :
    t'.read q = normalFile t q := by
  rw [normalFile]
  split
  · rename_i hq
    obtain ⟨s, hread, hnormal⟩ := normalizeSpecs_ok (List.nodup_dedup _) h q hq
    rw [hnormal, hread]
    rfl
  · rename_i hq
    exact normalizeReleaseInSpecs_read h hq

theorem specsReadable_of_ok (h : normalizeReleaseInSpecs t = .ok t') : SpecsReadable t := by
  intro q hq
  obtain ⟨s, hread, -⟩ := normalizeSpecs_ok (List.nodup_dedup _) h q hq
  exact ⟨s, hread⟩

theorem normalizeSpecs_of_readable (hnodup : specs.Nodup) (h : ∀ q ∈ specs, ∃ s, t.read q = some (.text s)) :
    ∃ t', normalizeSpecs specs t = .ok t' := by
  induction specs generalizing t with
  | nil => exact ⟨t, rfl⟩
  | cons spec specs ih =>
      obtain ⟨hnew, hnodup⟩ := List.nodup_cons.mp hnodup
      rw [List.forall_mem_cons] at h
      obtain ⟨⟨s, hread⟩, hrest⟩ := h
      have hcontent : readText t spec = .ok (universalNewlines s) := by
        rw [readText, hread]
        rfl
      obtain ⟨t', ht'⟩ := ih (t := t.write spec (.text (normalizeRelease (universalNewlines s)))) hnodup (by
        intro q hq
        rw [Tree.read_write_ne]
        · exact hrest q hq
        · rintro rfl
          exact hnew hq)
      exact ⟨t', by rw [normalizeSpecs, hcontent, except_bind_ok, ht']⟩

theorem normalizeReleaseInSpecs_ok_iff : (∃ t', normalizeReleaseInSpecs t = .ok t') ↔ SpecsReadable t := by
  constructor
  · rintro ⟨t', h⟩
    exact specsReadable_of_ok h
  · exact normalizeSpecs_of_readable (List.nodup_dedup _)

theorem readText_error (h : readText t q = .error e) : e ≠ nothingToCommit := by
  unfold readText at h
  split at h
  · rename_i f hf
    cases f with
    | text s => exact absurd h (by simp [decodeText])
    | bytes b =>
        obtain rfl := Except.error.inj h
        simp [nothingToCommit]
    | dir =>
        obtain rfl := Except.error.inj h
        simp [nothingToCommit]
  · obtain rfl := Except.error.inj h
    simp [nothingToCommit]

/-- Normalising fails where a file cannot be read. -/
theorem normalizeSpecs_error (h : normalizeSpecs specs t = .error e) : e ≠ nothingToCommit := by
  induction specs generalizing t with
  | nil => exact absurd h (by simp [normalizeSpecs])
  | cons spec specs ih =>
      rcases except_bind_error_iff.mp h with h | ⟨content, -, h⟩
      · exact readText_error h
      · exact ih h

theorem sameFiles_iff : sameFiles a b = true ↔ ∀ q, (gitFiles a).read q = (gitFiles b).read q := by
  simp only [sameFiles, List.all_eq_true, List.mem_append, decide_eq_true_eq]
  constructor
  · intro h q
    by_cases hq : q ∈ a.paths ∨ q ∈ b.paths
    · exact h q hq
    · -- a path that is in neither of them
      have hnone : ∀ {t : Tree}, q ∉ t.paths → (gitFiles t).read q = none := by
        intro t hmem
        have hread : t.read q = none := by simpa [Tree.mem_paths] using hmem
        rw [read_gitFiles, Tree.isFile, hread]
        rfl
      rw [not_or] at hq
      rw [hnone hq.1, hnone hq.2]
  · intro h q _
    exact h q

/-- Normalising a file leaves it a file. -/
theorem isFile_normalFile : (normalFile t q).any File.isFile = t.isFile q := by
  rw [normalFile, Tree.isFile]
  split
  · cases t.read q with
    | none => rfl
    | some f => cases f <;> rfl
  · rfl

end

/-! ## What git is given -/

section

variable {env : Env} {up : Upstream} {oldTree packageDir normalOld normalLocal : Tree} {oldSha newSha : Str}

theorem isFile_of_normalized {t t' : Tree} (h : normalizeReleaseInSpecs t = .ok t') (q : Path) :
    t'.isFile q = t.isFile q := by
  rw [Tree.isFile, normalizeReleaseInSpecs_eq h, isFile_normalFile]

/-- A file of the commit of local modifications. -/
theorem read_committed (hlocal : normalizeReleaseInSpecs packageDir = .ok normalLocal) (q : Path) :
    (gitFiles (addAll env oldTree normalLocal)).read q =
      if packageDir.isFile q && (oldTree.isFile q || !env.ignored normalLocal q) then normalFile packageDir q
      else none := by
  have hread : (addAll env oldTree normalLocal).read q =
      if packageDir.isFile q && (oldTree.isFile q || !env.ignored normalLocal q) then normalFile packageDir q
      else none := by
    rw [read_addAll, isFile_of_normalized hlocal, normalizeReleaseInSpecs_eq hlocal]
  rw [read_gitFiles, Tree.isFile, hread]
  split
  · rename_i hgiven
    rw [Bool.and_eq_true] at hgiven
    rw [isFile_normalFile, hgiven.1, if_pos rfl]
  · rfl

theorem read_normalOld (hold : normalizeReleaseInSpecs oldTree = .ok normalOld) (q : Path) :
    (gitFiles normalOld).read q = if oldTree.isFile q then normalFile oldTree q else none := by
  rw [read_gitFiles, isFile_of_normalized hold, normalizeReleaseInSpecs_eq hold]

/-- The tree that is committed is another one exactly where git sees a difference. -/
theorem sameFiles_committed_iff (hold : normalizeReleaseInSpecs oldTree = .ok normalOld)
    (hlocal : normalizeReleaseInSpecs packageDir = .ok normalLocal) :
    sameFiles (addAll env oldTree normalLocal) normalOld = true ↔ ¬ GitSees env oldTree packageDir := by
  have hne : ∀ {t : Tree} {q : Path}, t.isFile q = true → normalFile t q ≠ none := by
    intro t q h hnone
    rw [← isFile_normalFile, hnone] at h
    exact absurd h (by simp)
  rw [sameFiles_iff]
  constructor
  · intro hsame hsees
    cases hsees with
    | @changed q hq hpresent hdiffers =>
        have h := hsame q
        rw [read_committed hlocal, read_normalOld hold, hq, hpresent] at h
        exact hdiffers h
    | @removed q hq hgone =>
        have h := hsame q
        rw [read_committed hlocal, read_normalOld hold, hq, hgone] at h
        exact hne hq h.symm
    | @added q _ hq hpresent hlocal' hnot =>
        have h := hsame q
        obtain rfl := Except.ok.inj (hlocal.symm.trans hlocal')
        rw [read_committed hlocal, read_normalOld hold, hq, hpresent, hnot] at h
        exact hne hpresent h
  · intro hno q
    rw [read_committed hlocal, read_normalOld hold]
    cases hq : oldTree.isFile q with
    | true =>
        cases hpresent : packageDir.isFile q with
        | true =>
            show normalFile packageDir q = normalFile oldTree q
            by_contra hdiffers
            exact hno (.changed hq hpresent hdiffers)
        | false => exact absurd (GitSees.removed hq hpresent) hno
    | false =>
        cases hpresent : packageDir.isFile q with
        | true =>
            cases hignored : env.ignored normalLocal q with
            | true => rfl
            | false => exact absurd (GitSees.added hq hpresent hlocal hignored) hno
        | false => rfl

end

/-! ## A difference that is normalised away -/

/-- A package whose release stands in a macro. -/
def baseGcc (release : Str) : Tree :=
  gccTree ("%global baserelease ".toList ++ release ++ "\nRelease: %\x7bbaserelease\x7d\n".toList)
    "SHA512 (a.tar) = 0\n"

end HummingbirdRpms
