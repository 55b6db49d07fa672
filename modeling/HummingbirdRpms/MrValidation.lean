/-
# HummingbirdRpms.MrValidation — validating the packages of a merge request only.

`validate_package_modifications.py --all` validates every package that has a record, `--mr` those that
`git diff --name-only` names.  The shorter run is to find what the longer one would find.

**`validatePackage_leftAlone`** — the verdict on a package stays as it is when neither its files nor its record
change, and no commit in between touches it or reads like a synchronisation of it.  **`mr_agrees`** — if every
package passes before a merge request, both runs end alike on it, with the same errors, as long as no change is
hidden from the names: by a file that is taken for a moved one, by a path that git prints in quotes, or by
commits that are undone within the merge request.
-/
import HummingbirdRpms.Lib.Pieces
import HummingbirdRpms.Provenance
import HummingbirdRpms.Validation

namespace HummingbirdRpms.Validation

open Lib Lib.Text Lib.Exec

/-! ## Commits that leave a package alone -/

/-- The commits on top of a branch, each with those that lead to it. -/
def entriesOn (base : List Commit) : List Commit → List Entry
  | [] => []
  | c :: new => ⟨c, new ++ base⟩ :: entriesOn base new

/-- No commit touches the package, or is read as a synchronisation of it. -/
def LeftAlone (p : Str) (base new : List Commit) : Prop :=
  ∀ e ∈ entriesOn base new, e.touches p = false ∧ e.syncs p = false

section

variable {k : Checks} {p : Str} {base new commits commits' : List Commit} {lastSyncSha : Option Str}

theorem entries_append : entries (new ++ base) = entriesOn base new ++ entries base := by
  induction new with
  | nil => rfl
  | cons c new ih => exact congrArg (Entry.mk c (new ++ base) :: ·) ih

theorem findLastSync_leftAlone (h : LeftAlone p base new) :
    findLastSyncCommit k p (new ++ base) = findLastSyncCommit k p base := by
  have hnone : (entriesOn base new).find? (·.syncs p) = none :=
    List.find?_eq_none.mpr fun e he => Bool.eq_false_iff.mp (h e he).2
  unfold findLastSyncCommit
  rw [entries_append, List.find?_append, hnone, Option.none_or]

theorem since_leftAlone (h : LeftAlone p base new) :
    since p (new ++ base) = entriesOn base new ++ since p base := by
  unfold since
  rw [entries_append, List.takeWhile_append_of_pos fun e he => by rw [(h e he).2]; rfl]

/-- The commits that touch a package, since its last synchronisation. -/
def touching (k : Checks) (p : Str) (lastSyncSha : Option Str) (commits : List Commit) : List Entry :=
  (gitRange k lastSyncSha commits).filter (·.touches p)

theorem touching_leftAlone (h : LeftAlone p base new) :
    touching k p (findLastSyncCommit k p (new ++ base)) (new ++ base) =
      touching k p (findLastSyncCommit k p base) base := by
  have hnone : (entriesOn base new).filter (·.touches p) = [] :=
    List.filter_eq_nil_iff.mpr fun e he => Bool.eq_false_iff.mp (h e he).1
  unfold touching
  rw [gitRange_lastSync, gitRange_lastSync, since_leftAlone h, List.filter_append, hnone, List.nil_append]

theorem checkGitHistoryState_touching (h : touching k p lastSyncSha commits' = touching k p lastSyncSha commits) :
    checkGitHistoryState k p lastSyncSha commits' = checkGitHistoryState k p lastSyncSha commits := by
  have hbad : ∀ commits, ((gitRange k lastSyncSha commits).filter fun e =>
      e.touches p && !hasUpstream e.commit.message && !excused k e) =
        (touching k p lastSyncSha commits).filter fun e => !hasUpstream e.commit.message && !excused k e := by
    intro commits
    rw [touching, List.filter_filter]
    exact List.filter_congr fun e _ => by rw [Bool.and_assoc, Bool.and_comm]
  unfold checkGitHistoryState
  dsimp only
  rw [hbad, hbad, h]

theorem localPackage_touching {specs : List Str}
    (h : touching k p lastSyncSha commits' = touching k p lastSyncSha commits) :
    localPackage k p specs lastSyncSha commits' = localPackage k p specs lastSyncSha commits := by
  unfold localPackage
  rw [← touching, ← touching, h]

end

section

variable [UnicodeTables] {k : Checks} {env : Env} {p : Str} {w w' : World} {new : List Commit} {mode : Bool}

/-- **`validatePackage_leftAlone`** — a package that commits leave alone has the verdict that it has had. -/
theorem validatePackage_leftAlone (hmetadata : w'.metadata p = w.metadata p) (hrpms : w'.rpms p = w.rpms p)
    (hoverrides : w'.overrides = w.overrides) (hcommits : w'.commits = new ++ w.commits)
    (h : LeftAlone p w.commits new) : validatePackage k env w' p mode = validatePackage k env w p mode := by
  have hdir : w'.packageDir p = w.packageDir p := by
    unfold World.packageDir
    rw [hrpms]
  have hsync : findLastSyncCommit k p w'.commits = findLastSyncCommit k p w.commits := by
    rw [hcommits, findLastSync_leftAlone h]
  -- The history of the package is that of the commits that touch it, and they are the same.
  have htouching : touching k p (findLastSyncCommit k p w.commits) w'.commits =
      touching k p (findLastSyncCommit k p w.commits) w.commits := by
    rw [← hsync, hcommits, touching_leftAlone h, findLastSync_leftAlone h]
  have hindependent : ∀ data, checkIndependent env w' p data = checkIndependent env w p data := by
    intro data
    unfold checkIndependent
    rw [hdir, hoverrides]
  have hpolicy : checkPolicy k w' p (findLastSyncCommit k p w.commits) =
      checkPolicy k w p (findLastSyncCommit k p w.commits) := by
    unfold checkPolicy
    rw [hdir, localPackage_touching htouching]
  have hhistory : ∀ status, checkHistory k w' p status (findLastSyncCommit k p w.commits) =
      checkHistory k w p status (findLastSyncCommit k p w.commits) := by
    intro status
    unfold checkHistory
    rw [checkGitHistoryState_touching htouching]
  have hstate : ∀ status data, checkState env w' p status data = checkState env w p status data := by
    intro status data
    unfold checkState
    rw [hdir]
  unfold validatePackage validateRecord
  rw [hmetadata, hrpms]
  simp only [hsync, hindependent, hpolicy, hhistory, hstate]

end

/-! ## The packages of a merge request -/

/-- The package of a path that git prints: `rpms/<package>/…` or `metadata/<package>.json`. -/
def namedPackage (line : Str) : Option Str :=
  if startsWith "rpms/" line then (line.splitOn '/')[1]?
  else if startsWith "metadata/" line && endsWith ".json" line then some (pathStem line)
  else none

/-- `sorted(changed_packages)`, from the output of `git diff --name-only` -/
def changedPackages (stdout : Str) : List Str :=
  ((newlineSplit (strip stdout)).filterMap namedPackage).dedup.insertionSort (· ≤ ·)

/-- What a pipeline of a merge request meets: its variables, and how the two calls of git end. -/
structure MrPipeline where
  environ : Str → Option Str
  fetch : Str → Bool
  diff : List Str → Option Str

namespace MrPipeline

/-- What git prints of the changes. -/
def stdout (ci : MrPipeline) : Except Exn Str := do
  let diffArgs ← match given (ci.environ "CI_MERGE_REQUEST_DIFF_BASE_SHA") with
    | some diffBaseSha => do
        failIf (ci.fetch diffBaseSha = false) (.raised .calledProcessError "git fetch")
        pure [diffBaseSha, "HEAD"]
    | none =>
        pure ["origin/".toList ++ (ci.environ "CI_MERGE_REQUEST_TARGET_BRANCH_NAME").getD "main" ++
          "...HEAD".toList]
  match ci.diff diffArgs with
  | none => .error (.raised .calledProcessError "git diff")
  | some stdout => .ok stdout

/-- `get_changed_packages_in_mr` -/
def getChangedPackagesInMr (ci : MrPipeline) : Except Exn (List Str) := return changedPackages (← ci.stdout)

end MrPipeline

/-- `--mr`, with the order in which the validations finish. -/
def validateMr [UnicodeTables] (k : Checks) (env : Env) (w : World) (ci : MrPipeline)
    (shallow checkActualState : Bool) (order : List Str) : Except (Option Exn) (Nat × List Str) :=
  match ci.getChangedPackagesInMr with
  | .error e => .error (some e)
  | .ok packages =>
      if packages = [] then .ok (0, []) else validatePackages k env w shallow checkActualState order

/-! ## What git prints -/

/-- `rpms/<package>/<path>` -/
def filePath (p : Str) (q : Path) : Str := "rpms/".toList ++ (p ++ '/' :: q)

/-- `metadata/<package>.json` -/
def recordPath (p : Str) : Str := "metadata/".toList ++ (p ++ ".json".toList)

/-- Lines, each with a line break behind it. -/
def render (lines : List Str) : Str := lines.flatMap (· ++ ['\n'])

/-- Whether git prints a path as it is, not in quotes. -/
def Printed (path : Str) : Prop := ∀ c ∈ path, 32 ≤ c.toNat ∧ c.toNat < 127 ∧ c ≠ '"' ∧ c.toNat ≠ 92

instance : DecidablePred Printed := fun path => inferInstanceAs (Decidable (∀ c ∈ path, _))

/-- What `git diff --name-only` prints of the changes from one checkout to another: the files that are there
now and were not, or were others.  Those that are gone it prints unless it takes them for moved ones. -/
structure NameOnly (w w' : World) (lines : List Str) : Prop where
  solid : ∀ l ∈ lines, Solid l ∧ Grep.OneLine l
  record : ∀ p, w'.metadata p ≠ none → w'.metadata p ≠ w.metadata p → Printed (recordPath p) → recordPath p ∈ lines
  file : ∀ p q, (w'.packageDir p).isFile q = true → (w'.packageDir p).read q ≠ (w.packageDir p).read q →
    Printed (filePath p q) → filePath p q ∈ lines
  /-- A directory holds what is tracked of it. -/
  tracked : ∀ p, (∀ q, (gitFiles (w'.packageDir p)).read q = (gitFiles (w.packageDir p)).read q) →
    w'.rpms p = w.rpms p

section

variable {lines : List Str} {p : Str} {q : Path}

theorem render_cons {l : Str} : render (l :: lines) = l ++ '\n' :: render lines := by
  simp [render]

/-- The output is a text with a line break behind it, and the text has these lines. -/
theorem exists_body (hlines : ∀ l ∈ lines, Solid l ∧ Grep.OneLine l) (hne : lines ≠ []) :
    ∃ body, render lines = body ++ ['\n'] ∧ Solid body ∧ newlineSplit body = lines := by
  induction lines with
  | nil => exact absurd rfl hne
  | cons l lines ih =>
      obtain ⟨⟨hsolid, hone⟩, hrest⟩ := List.forall_mem_cons.mp hlines
      cases lines with
      -- The last line keeps no line break of its own.
      | nil => exact ⟨l, by simp [render], hsolid, Grep.newlineSplit_oneLine hone⟩
      | cons l' lines =>
          obtain ⟨body, hbody, hbodySolid, hsplit⟩ := ih hrest (List.cons_ne_nil _ _)
          refine ⟨l ++ ['\n'] ++ body, ?_, Solid.append hsolid.head hbodySolid.last, ?_⟩
          · rw [render_cons, hbody]
            simp
          · rw [List.append_assoc, List.singleton_append, Grep.newlineSplit_line hone, hsplit]

/-- The lines that are read are those that are printed. -/
theorem changedPackages_render (hlines : ∀ l ∈ lines, Solid l ∧ Grep.OneLine l) :
    p ∈ changedPackages (render lines) ↔ ∃ l ∈ lines, namedPackage l = some p := by
  unfold changedPackages
  rw [List.mem_insertionSort, List.mem_dedup, List.mem_filterMap]
  by_cases hne : lines = []
  · subst hne
    have hempty : newlineSplit (strip (render [])) = [[]] := rfl
    have hnone : namedPackage [] = none := rfl
    simp [hempty, hnone]
  · obtain ⟨body, hbody, hsolid, hsplit⟩ := exists_body hlines hne
    have hstrip : strip (render lines) = body := by
      rw [hbody]
      exact strip_padded (a := []) (b := ['\n']) (by simp) hsolid (by decide)
    rw [hstrip, hsplit]

theorem namedPackage_filePath (hp : '/' ∉ p) : namedPackage (filePath p q) = some p := by
  have hstart : startsWith "rpms/" (filePath p q) = true := startsWith_iff.mpr (List.prefix_append _ _)
  have hpath : filePath p q = ['r', 'p', 'm', 's'] ++ '/' :: (p ++ '/' :: q) := rfl
  have hsplit : (filePath p q).splitOn '/' = ['r', 'p', 'm', 's'] :: p :: q.splitOn '/' := by
    rw [hpath, List.splitOn_append_cons_self, List.splitOn_append_cons_self, List.splitOn_eq_singleton hp]
    rfl
  rw [namedPackage, if_pos hstart, hsplit]
  rfl

/-- The stem of a file name with a suffix. -/
theorem pathStem_json {dir name : Str} (hname : '/' ∉ name) (hne : name ≠ []) :
    pathStem (dir ++ '/' :: (name ++ ['.', 'j', 's', 'o', 'n'])) = name := by
  have hfile : '/' ∉ name ++ ['.', 'j', 's', 'o', 'n'] := by
    simp [hname]
  have hchar : ∀ front, front ++ ['.'] ≠ name ++ ['.', 'j', 's', 'o', 'n'] := by
    intro front h
    have hlast := congrArg List.getLast? h
    rw [List.getLast?_concat] at hlast
    simp at hlast
  have hkept : (name ++ ['.', 'j', 's', 'o', 'n'] ≠ [] && name ++ ['.', 'j', 's', 'o', 'n'] ≠ ".".toList) = true :=
    Bool.and_eq_true_iff.mpr ⟨decide_eq_true (List.append_ne_nil_of_left_ne_nil hne _),
      decide_eq_true (Ne.symm (hchar []))⟩
  have hlast : (pathParts (dir ++ '/' :: (name ++ ['.', 'j', 's', 'o', 'n']))).getLast? =
      some (name ++ ['.', 'j', 's', 'o', 'n']) := by
    rw [pathParts, List.splitOn_append_cons_self, List.splitOn_eq_singleton hfile, List.filter_append,
      List.filter_cons_of_pos (p := fun c : Str => c ≠ [] && c ≠ ".") hkept]
    exact List.getLast?_concat
  have hstem : ((name ++ ['.', 'j', 's', 'o', 'n']).rdropWhile (· ≠ '.')).dropLast = name := by
    rw [List.rdropWhile, List.reverse_append]
    simp
  have hend : ¬ endsWith "." (name ++ ['.', 'j', 's', 'o', 'n']) = true := by
    rw [endsWith_iff]
    rintro ⟨front, hfront⟩
    exact hchar front hfront
  unfold pathStem
  rw [hlast, Option.getD_some]
  dsimp only
  rw [hstem, if_neg]
  simpa [hne] using hend

theorem namedPackage_recordPath (hp : '/' ∉ p) (hne : p ≠ []) : namedPackage (recordPath p) = some p := by
  have hstart : ¬ startsWith "rpms/" (recordPath p) = true := by
    rw [show startsWith "rpms/" (recordPath p) = false from rfl]
    exact Bool.false_ne_true
  have hrecord : (startsWith "metadata/" (recordPath p) && endsWith ".json" (recordPath p)) = true :=
    Bool.and_eq_true_iff.mpr ⟨startsWith_iff.mpr (List.prefix_append _ _),
      endsWith_iff.mpr ((List.suffix_append p _).trans (List.suffix_append _ _))⟩
  have hpath : recordPath p = "metadata".toList ++ '/' :: (p ++ ['.', 'j', 's', 'o', 'n']) := rfl
  rw [namedPackage, if_neg hstart, if_pos hrecord, hpath, pathStem_json hp hne]

end

/-! ## The two runs -/

section

variable [UnicodeTables] {k : Checks} {env : Env} {w : World} {shallow mode : Bool} {order packages : List Str}

/-- How a run over packages ends that returns. -/
theorem validatePackages_ok_iff (hfull : mode = true ∨ shallow = false) {code : Nat} {errors : List Str} :
    validatePackages k env w shallow mode order = .ok (code, errors) ↔
      raisesOf k env w mode order = [] ∧ errors = errorsOf k env w mode order ∧
        code = if errors = [] then 0 else 1 := by
  rw [validatePackages_full hfull]
  have hraises : (∀ r ∈ order.map fun p => validatePackage k env w p mode, raisedBy r = none) ↔
      raisesOf k env w mode order = [] := by
    unfold raisesOf
    rw [List.filterMap_eq_nil_iff, List.forall_mem_map]
  have herrors : (order.map fun p => validatePackage k env w p mode).filterMap errorOf =
      errorsOf k env w mode order := List.filterMap_map
  constructor
  · intro h
    cases hcollect : collect (order.map fun p => validatePackage k env w p mode) with
    | error e =>
        rw [hcollect] at h
        exact nomatch h
    | ok found =>
        rw [hcollect] at h
        obtain ⟨rfl, rfl⟩ := Prod.mk.inj (Except.ok.inj h)
        obtain ⟨hnone, rfl⟩ := collect_ok_iff.mp hcollect
        exact ⟨hraises.mp hnone, herrors, rfl⟩
  · rintro ⟨hnone, rfl, rfl⟩
    rw [collect_ok_iff.mpr ⟨hraises.mpr hnone, herrors.symm⟩]
    rfl

omit [UnicodeTables] in
/-- A list without the elements that come to nothing. -/
theorem filterMap_filter_of_none {α β : Type} {f : α → Option β} {test : α → Bool} {l : List α}
    (h : ∀ a ∈ l, test a = false → f a = none) : (l.filter test).filterMap f = l.filterMap f := by
  induction l with
  | nil => rfl
  | cons a l ih =>
      obtain ⟨ha, hl⟩ := List.forall_mem_cons.mp h
      cases htest : test a with
      | true => rw [List.filter_cons_of_pos htest, List.filterMap_cons, List.filterMap_cons, ih hl]
      | false => rw [List.filter_cons_of_neg (by simp [htest]), List.filterMap_cons, ha htest, ih hl]

omit [UnicodeTables] in
/-- Two orders of a list and of a part of it, where what is left out comes to nothing. -/
theorem filterMap_perm_of_part {α β : Type} {f : α → Option β} {test : α → Bool} {l order part : List α}
    (horder : order.Perm l) (hpart : (l.filter test).Perm part) (h : ∀ a ∈ l, test a = false → f a = none) :
    (order.filterMap f).Perm (part.filterMap f) := by
  refine (horder.filterMap f).trans ?_
  rw [← filterMap_filter_of_none h]
  exact hpart.filterMap f

/-- `--mr` is the run over the packages that are named, also if there are none. -/
theorem validateMr_eq {ci : MrPipeline} {stdout : Str} (hfull : mode = true ∨ shallow = false)
    (hstdout : ci.stdout = .ok stdout) (horder : order.Perm (changedPackages stdout)) :
    validateMr k env w ci shallow mode order = validatePackages k env w shallow mode order := by
  unfold validateMr MrPipeline.getChangedPackagesInMr
  rw [hstdout]
  show (if changedPackages stdout = [] then _ else _) = _
  split
  · rename_i hnone
    rw [hnone, List.perm_nil] at horder
    subst horder
    have hnone : raisesOf k env w mode [] = [] := rfl
    exact ((validatePackages_ok_iff hfull).mpr ⟨hnone, rfl, rfl⟩).symm
  · rfl

end

/-- What a merge request changes shows in the names that git prints. -/
structure Shown (w w' : World) (new : List Commit) (changed : List Str) : Prop where
  commits : w'.commits = new ++ w.commits
  overrides : w'.overrides = w.overrides
  /-- No path is printed in quotes. -/
  printed : ∀ p, w'.metadata p ≠ none ∨ w'.rpms p ≠ none →
    '/' ∉ p ∧ p ≠ [] ∧ Printed (recordPath p) ∧ ∀ q, (w'.packageDir p).isFile q = true → Printed (filePath p q)
  /-- What is gone from a package did not move to another one. -/
  gone : ∀ p, (w.metadata p ≠ none ∧ w'.metadata p = none ∨
    ∃ q, (w.packageDir p).isFile q = true ∧ (w'.packageDir p).isFile q = false) → p ∈ changed
  /-- No commit touches a package only for others to undo it, or pretends to synchronise it. -/
  alone : ∀ p, w'.metadata p ≠ none → p ∉ changed → LeftAlone p w.commits new

section

variable {w w' : World} {new : List Commit} {lines : List Str} {p : Str}

theorem Shown.metadata (h : Shown w w' new (changedPackages (render lines))) (hnames : NameOnly w w' lines)
    (hp : p ∉ changedPackages (render lines)) : w'.metadata p = w.metadata p := by
  by_contra hne
  cases hrecord : w'.metadata p with
  | none =>
      rw [hrecord] at hne
      exact hp (h.gone p (Or.inl ⟨fun hnone => hne hnone.symm, hrecord⟩))
  | some m =>
      have hsome : w'.metadata p ≠ none := by simp [hrecord]
      obtain ⟨hslash, hnonempty, hprinted, -⟩ := h.printed p (Or.inl hsome)
      exact hp ((changedPackages_render hnames.solid).mpr
        ⟨_, hnames.record p hsome hne hprinted, namedPackage_recordPath hslash hnonempty⟩)

theorem Shown.rpms (h : Shown w w' new (changedPackages (render lines))) (hnames : NameOnly w w' lines)
    (hp : p ∉ changedPackages (render lines)) : w'.rpms p = w.rpms p := by
  -- File by file: one that is there now is printed if it differs, one that is gone names the package.
  refine hnames.tracked p fun q => ?_
  rw [read_gitFiles, read_gitFiles]
  cases hnow : (w'.packageDir p).isFile q with
  | true =>
      have hsome : w'.rpms p ≠ none := by
        intro hnone
        rw [World.packageDir, hnone] at hnow
        exact Bool.false_ne_true hnow
      obtain ⟨hslash, -, -, hprinted⟩ := h.printed p (Or.inr hsome)
      have hsame : (w'.packageDir p).read q = (w.packageDir p).read q := by
        by_contra hne
        exact hp ((changedPackages_render hnames.solid).mpr
          ⟨_, hnames.file p q hnow hne (hprinted q hnow), namedPackage_filePath hslash⟩)
      have hbefore : (w.packageDir p).isFile q = true := by
        rw [Tree.isFile, ← hsame]
        exact hnow
      rw [if_pos rfl, if_pos hbefore, hsame]
  | false =>
      have hbefore : (w.packageDir p).isFile q = false := by
        by_contra hfile
        exact hp (h.gone p (Or.inr ⟨q, Bool.eq_true_of_not_eq_false hfile, hnow⟩))
      simp [hbefore]

end

section

variable [UnicodeTables] {k : Checks} {env : Env} {w w' : World} {new : List Commit} {lines : List Str}
  {ci : MrPipeline} {shallow mode : Bool} {order order' : List Str}

/-- A package whose changes would show passes as it did, if it is not named. -/
theorem passes_unnamed {p : Str} (hpasses : ∀ p, w.metadata p ≠ none → validatePackage k env w p mode = .ok ())
    (hnames : NameOnly w w' lines) (hshown : Shown w w' new (changedPackages (render lines)))
    (hp : p ∉ changedPackages (render lines)) (hrecord : w'.metadata p ≠ none) :
    validatePackage k env w' p mode = .ok () := by
  have hmetadata := hshown.metadata hnames hp
  rw [validatePackage_leftAlone hmetadata (hshown.rpms hnames hp) hshown.overrides hshown.commits
    (hshown.alone p hrecord hp)]
  exact hpasses p (hmetadata ▸ hrecord)

omit [UnicodeTables] in
theorem nodup_changedPackages {stdout : Str} : (changedPackages stdout).Nodup :=
  (List.perm_insertionSort _ _).nodup_iff.mpr (List.nodup_dedup _)

omit [UnicodeTables] in
/-- The records that are named, if each named package has one. -/
theorem named_records {l : Listing w'} (hnodup : l.records.Nodup) {changed : List Str} (hchanged : changed.Nodup)
    (hrecords : ∀ p ∈ changed, w'.metadata p ≠ none) :
    (l.records.filter (· ∈ changed)).Perm changed := by
  -- Neither list has a package twice, so that it is enough that they have the same ones.
  refine (List.perm_ext_iff_of_nodup (hnodup.filter _) hchanged).mpr fun p => ?_
  rw [List.mem_filter, decide_eq_true_iff, l.mem_records]
  exact and_iff_right_of_imp (hrecords p)

omit [UnicodeTables] in
/-- No directory is without a record, if none was and each named package has one. -/
theorem all_recorded {l : Listing w'} (hbase : ∀ p, w.rpms p ≠ none → w.metadata p ≠ none)
    (hnames : NameOnly w w' lines) (hshown : Shown w w' new (changedPackages (render lines)))
    (hrecords : ∀ p ∈ changedPackages (render lines), w'.metadata p ≠ none) :
    findPackagesWithoutMetadata l = [] := by
  refine List.filter_eq_nil_iff.mpr fun p hdir => ?_
  have hrecord : w'.metadata p ≠ none := by
    by_cases hp : p ∈ changedPackages (render lines)
    · exact hrecords p hp
    · rw [hshown.metadata hnames hp]
      refine hbase p ?_
      rw [← hshown.rpms hnames hp]
      exact (l.mem_directories p).mp hdir
  simpa using (l.mem_records p).mpr hrecord

/-- A package without a record does not pass. -/
theorem mr_rejects {p : Str} {errors : List Str} (hfull : mode = true ∨ shallow = false) (hmem : p ∈ order')
    (hnone : w'.metadata p = none) : validatePackages k env w' shallow mode order' ≠ .ok (0, errors) := by
  intro hmr
  obtain ⟨-, rfl, hcode⟩ := (validatePackages_ok_iff hfull).mp hmr
  have herror : p ++ ": Missing metadata file".toList ∈ errorsOf k env w' mode order' := by
    refine List.mem_filterMap.mpr ⟨p, hmem, ?_⟩
    rw [validatePackage, hnone]
    rfl
  rw [if_neg (List.ne_nil_of_mem herror)] at hcode
  exact absurd hcode (by decide)

/-- **`mr_agrees`** — validating only the packages of a merge request ends as validating all of them does, with
the same errors, where all passed before it, its changes show and each package that it names has a record.  A
merge request that names a package without one does not pass, not even if it is to remove the package. -/
theorem mr_agrees {l : Listing w'} (hnodup : l.records.Nodup) (hfull : mode = true ∨ shallow = false)
    (hbase : ∀ p, w.rpms p ≠ none → w.metadata p ≠ none)
    (hpasses : ∀ p, w.metadata p ≠ none → validatePackage k env w p mode = .ok ())
    (hnames : NameOnly w w' lines) (hshown : Shown w w' new (changedPackages (render lines)))
    (hstdout : ci.stdout = .ok (render lines)) (horder : order.Perm l.records)
    (horder' : order'.Perm (changedPackages (render lines))) :
    ((∀ p ∈ changedPackages (render lines), w'.metadata p ≠ none) →
      (∀ code errors, validateMr k env w' ci shallow mode order' = .ok (code, errors) →
        ∃ errors', validateAll k env l shallow mode order = .ok (code, errors') ∧ errors'.Perm errors) ∧
      (∀ e, validateMr k env w' ci shallow mode order' = .error e →
        ∃ e', validateAll k env l shallow mode order = .error e')) ∧
    (∀ p ∈ changedPackages (render lines), w'.metadata p = none →
      ∀ errors, validateMr k env w' ci shallow mode order' ≠ .ok (0, errors)) := by
  rw [validateMr_eq hfull hstdout horder']
  refine ⟨fun hrecords => ?_, fun p hp hnone errors => mr_rejects hfull (horder'.mem_iff.mpr hp) hnone⟩
  have hall : validateAll k env l shallow mode order = validatePackages k env w' shallow mode order := by
    rw [validateAll, if_neg]
    exact not_not.mpr (all_recorded hbase hnames hshown hrecords)
  rw [hall]
  -- What is not named comes to nothing.
  have hunnamed : ∀ p ∈ l.records, decide (p ∈ changedPackages (render lines)) = false →
      validatePackage k env w' p mode = .ok () := fun p hmem hp =>
    passes_unnamed hpasses hnames hshown (of_decide_eq_false hp) ((l.mem_records p).mp hmem)
  have hfilter : (l.records.filter (· ∈ changedPackages (render lines))).Perm order' :=
    (named_records hnodup nodup_changedPackages hrecords).trans horder'.symm
  have hraises : (raisesOf k env w' mode order).Perm (raisesOf k env w' mode order') :=
    filterMap_perm_of_part horder hfilter fun p hmem hp => by rw [hunnamed p hmem hp]; rfl
  have herrors : (errorsOf k env w' mode order).Perm (errorsOf k env w' mode order') :=
    filterMap_perm_of_part horder hfilter fun p hmem hp => by rw [hunnamed p hmem hp]; rfl
  have hempty : errorsOf k env w' mode order' = [] ↔ errorsOf k env w' mode order = [] :=
    ⟨fun h => List.perm_nil.mp (h ▸ herrors), fun h => List.nil_perm.mp (h ▸ herrors)⟩
  constructor
  -- What the shorter run collects is what the longer one does, up to the order; so is what ends it.
  · intro code errors hmr
    obtain ⟨hnone, rfl, rfl⟩ := (validatePackages_ok_iff hfull).mp hmr
    rw [hnone, List.perm_nil] at hraises
    exact ⟨_, (validatePackages_ok_iff hfull).mpr ⟨hraises, rfl, if_congr hempty rfl rfl⟩, herrors⟩
  · intro e hmr
    by_cases hnone : raisesOf k env w' mode order = []
    · rw [hnone, List.nil_perm] at hraises
      rw [(validatePackages_ok_iff hfull).mpr ⟨hraises, rfl, rfl⟩] at hmr
      exact nomatch hmr
    · obtain ⟨e', -, he'⟩ := (@validatePackages_orders _ k env w' order shallow mode order (List.Perm.refl _)
        hfull).2 hnone
      exact ⟨e', he'⟩

end

/-! ## A merge request that takes other sources -/

def curlDir : Tree := Tree.ofList [("curl.spec", .text "Version: 1\nRelease: 1\n")]

/-- What is tracked of gcc and curl. -/
def trackedPackages (gcc curl : Tree) (p : Str) : Tracked :=
  if p = "gcc" then ⟨gcc, some (gccMetadata .clean), none⟩
  else if p = "curl" then ⟨curl, some (gccMetadata .clean), none⟩
  else ⟨∅, none, none⟩

def importCommits : List Commit :=
  [⟨"Import curl-1-1\n\nUpstream: old", trackedPackages oldGcc curlDir⟩,
    ⟨"Import gcc-1-1\n\nUpstream: old", trackedPackages oldGcc ∅⟩]

/-- A checkout of gcc and curl. -/
def twoPackages (gcc : Tree) (commits : List Commit) : World :=
  { World.empty with
    metadata := fun p => (trackedPackages gcc curlDir p).metadata
    rpms := fun p => if p = "gcc" ∨ p = "curl" then some (trackedPackages gcc curlDir p).rpms else none
    commits := commits }

def respinCommit : Commit := ⟨"Take other sources\n\nUpstream: new", trackedPackages respunGcc curlDir⟩

theorem twoPackages_cases {gcc : Tree} {commits : List Commit} (p : Str) :
    p = "gcc" ∧ (twoPackages gcc commits).metadata p = some (gccMetadata .clean) ∧
        (twoPackages gcc commits).rpms p = some gcc ∨
      p = "curl" ∧ (twoPackages gcc commits).metadata p = some (gccMetadata .clean) ∧
        (twoPackages gcc commits).rpms p = some curlDir ∨
      (p ≠ "gcc" ∧ p ≠ "curl") ∧ (twoPackages gcc commits).metadata p = none ∧
        (twoPackages gcc commits).rpms p = none := by
  by_cases hgcc : p = "gcc"
  · subst hgcc
    exact Or.inl ⟨rfl, rfl, rfl⟩
  · by_cases hcurl : p = "curl"
    · subst hcurl
      exact Or.inr (Or.inl ⟨rfl, rfl, rfl⟩)
    · refine Or.inr (Or.inr ⟨⟨hgcc, hcurl⟩, ?_, if_neg (not_or.mpr ⟨hgcc, hcurl⟩)⟩)
      show (trackedPackages gcc curlDir p).metadata = none
      rw [trackedPackages, if_neg hgcc, if_neg hcurl]

theorem commits_twoPackages {gcc : Tree} {commits : List Commit} :
    (twoPackages gcc commits).commits = commits := rfl

theorem overrides_twoPackages {gcc : Tree} {commits : List Commit} :
    (twoPackages gcc commits).overrides = none := rfl

theorem mem_twoNames {p : Str} : p ∈ (["gcc".toList, "curl".toList] : List Str) ↔ p = "gcc" ∨ p = "curl" := by
  rw [List.mem_cons, List.mem_singleton]

def twoListed (gcc : Tree) (commits : List Commit) : Listing (twoPackages gcc commits) where
  directories := ["gcc", "curl"]
  records := ["gcc", "curl"]
  mem_directories p := by
    rw [mem_twoNames]
    rcases @twoPackages_cases gcc commits p with ⟨hp, -, h⟩ | ⟨hp, -, h⟩ | ⟨hp, -, h⟩
    · exact iff_of_true (Or.inl hp) (by rw [h]; exact Option.some_ne_none _)
    · exact iff_of_true (Or.inr hp) (by rw [h]; exact Option.some_ne_none _)
    · exact iff_of_false (not_or.mpr hp) (not_not.mpr h)
  mem_records p := by
    rw [mem_twoNames]
    rcases @twoPackages_cases gcc commits p with ⟨hp, h, -⟩ | ⟨hp, h, -⟩ | ⟨hp, h, -⟩
    · exact iff_of_true (Or.inl hp) (by rw [h]; exact Option.some_ne_none _)
    · exact iff_of_true (Or.inr hp) (by rw [h]; exact Option.some_ne_none _)
    · exact iff_of_false (not_or.mpr hp) (not_not.mpr h)

/-- Before the merge request. -/
abbrev oldPackages : World := twoPackages oldGcc importCommits

/-- With it. -/
abbrev respunPackages : World := twoPackages respunGcc (respinCommit :: importCommits)

def respinLines : List Str := ["rpms/gcc/gcc.spec", "rpms/gcc/sources"]

def respinPipeline : MrPipeline := ⟨fun _ => none, fun _ => true, fun _ => some (render respinLines)⟩

theorem isFile_gccTree {spec sources : Str} {q : Path} (h : (gccTree spec sources).isFile q = true) :
    q = "gcc.spec" ∨ q = sourcesName := by
  by_contra hnot
  obtain ⟨hspec, hsources⟩ := not_or.mp hnot
  have hread : (gccTree spec sources).read q = none :=
    (Tree.read_write_ne hspec).trans ((Tree.read_write_ne hsources).trans Tree.read_empty)
  rw [Tree.isFile, hread] at h
  exact Bool.false_ne_true h

theorem isFile_curlDir {q : Path} (h : curlDir.isFile q = true) : q = "curl.spec" := by
  by_contra hspec
  have hread : curlDir.read q = none := (Tree.read_write_ne hspec).trans Tree.read_empty
  rw [Tree.isFile, hread] at h
  exact Bool.false_ne_true h

/-- A file of one of the two packages. -/
theorem file_twoPackages {spec sources : Str} {commits : List Commit} {p : Str} {q : Path}
    (h : ((twoPackages (gccTree spec sources) commits).packageDir p).isFile q = true) :
    filePath p q = "rpms/gcc/gcc.spec" ∨ filePath p q = "rpms/gcc/sources" ∨
      p = "curl" ∧ filePath p q = "rpms/curl/curl.spec" := by
  unfold World.packageDir at h
  rcases @twoPackages_cases (gccTree spec sources) commits p with ⟨rfl, -, hdir⟩ | ⟨rfl, -, hdir⟩ | ⟨-, -, hdir⟩
  · rw [hdir] at h
    rcases isFile_gccTree h with rfl | rfl
    · exact Or.inl rfl
    · exact Or.inr (Or.inl rfl)
  · rw [hdir] at h
    obtain rfl := isFile_curlDir h
    exact Or.inr (Or.inr ⟨rfl, rfl⟩)
  · rw [hdir] at h
    exact absurd h Bool.false_ne_true

theorem trackedPackages_metadata {gcc gcc' curl curl' : Tree} {p : Str} :
    (trackedPackages gcc curl p).metadata = (trackedPackages gcc' curl' p).metadata := by
  unfold trackedPackages
  split
  · rfl
  · split <;> rfl

/-- The two checkouts differ in gcc only. -/
theorem rpms_respin {p : Str} (hp : p ≠ "gcc") :
    respunPackages.rpms p = oldPackages.rpms p := by
  rcases @twoPackages_cases respunGcc (respinCommit :: importCommits) p with
    ⟨h, -⟩ | ⟨h, -, hdir⟩ | ⟨⟨-, hcurl⟩, -, hdir⟩
  · exact absurd h hp
  · rcases @twoPackages_cases oldGcc importCommits p with ⟨h, -⟩ | ⟨-, -, hdir'⟩ | ⟨⟨-, hcurl⟩, -⟩
    · exact absurd h hp
    · rw [hdir, hdir']
    · exact absurd h hcurl
  · rcases @twoPackages_cases oldGcc importCommits p with ⟨h, -⟩ | ⟨h, -⟩ | ⟨-, -, hdir'⟩
    · exact absurd h hp
    · exact absurd h hcurl
    · rw [hdir, hdir']

theorem nameOnly_respin :
    NameOnly oldPackages respunPackages
      respinLines where
  solid := by
    refine List.forall_mem_cons.mpr ⟨⟨⟨?_, ?_⟩, by decide⟩, List.forall_mem_cons.mpr ⟨⟨⟨?_, ?_⟩, by decide⟩,
      fun l hl => absurd hl List.not_mem_nil⟩⟩
    all_goals exact ⟨_, rfl, by decide⟩
  record p h hne := absurd trackedPackages_metadata hne
  file p q h hne := by
    intro _
    rcases file_twoPackages h with hpath | hpath | ⟨hp, -⟩
    · rw [hpath]
      exact List.mem_cons_self
    · rw [hpath]
      exact List.mem_cons_of_mem _ List.mem_cons_self
    · refine absurd ?_ hne
      rw [World.packageDir, World.packageDir, rpms_respin (by rw [hp]; decide)]
  tracked p h := by
    by_cases hp : p = "gcc"
    · subst hp
      exact absurd (h sourcesName) (by decide)
    · exact rpms_respin hp

theorem shown_respin :
    Shown oldPackages respunPackages [respinCommit]
      ["gcc"] where
  commits := by rw [commits_twoPackages, commits_twoPackages, List.singleton_append]
  overrides := by rw [overrides_twoPackages, overrides_twoPackages]
  printed p h := by
    have hname : p = "gcc" ∨ p = "curl" := by
      rcases @twoPackages_cases respunGcc (respinCommit :: importCommits) p with ⟨hp, -⟩ | ⟨hp, -⟩ | ⟨-, hm, hr⟩
      · exact Or.inl hp
      · exact Or.inr hp
      · rcases h with h | h
        · exact absurd hm h
        · exact absurd hr h
    refine ⟨?_, ?_, ?_, fun q hq => ?_⟩
    · rcases hname with rfl | rfl <;> decide
    · rcases hname with rfl | rfl <;> decide
    · rcases hname with rfl | rfl <;> decide
    · rcases file_twoPackages hq with hpath | hpath | ⟨-, hpath⟩ <;> rw [hpath] <;> decide
  gone p h := by
    by_contra hp
    rw [List.mem_singleton] at hp
    rcases h with ⟨hsome, hnone⟩ | ⟨q, hbefore, hnow⟩
    · exact hsome (trackedPackages_metadata.trans hnone)
    · rw [World.packageDir, rpms_respin hp] at hnow
      exact Bool.false_ne_true (hnow.symm.trans hbefore)
  alone p h hp := by
    rw [List.mem_singleton] at hp
    rcases @twoPackages_cases respunGcc (respinCommit :: importCommits) p with ⟨h', -⟩ | ⟨rfl, -⟩ | ⟨-, hm, -⟩
    · exact absurd h' hp
    · refine List.forall_mem_cons.mpr ⟨by decide +kernel, fun e he => absurd he List.not_mem_nil⟩
    · exact absurd hm h

theorem mr_agrees_respin :
    letI := asciiTables
    ∃ errors', validateAll numbered Env.offline (twoListed respunGcc (respinCommit :: importCommits)) false false
      ["curl", "gcc"] = .ok (0, errors') ∧ errors'.Perm [] := by
  let _ := asciiTables
  have hchanged : changedPackages (render respinLines) = ["gcc".toList] := by decide +kernel
  have hmr : validateMr numbered Env.offline respunPackages respinPipeline false false ["gcc"] = .ok (0, []) := by
    decide +kernel
  have hpasses : ∀ p, oldPackages.metadata p ≠ none →
      validatePackage numbered Env.offline oldPackages p false = .ok () := by
    intro p h
    rcases @twoPackages_cases oldGcc importCommits p with ⟨rfl, -⟩ | ⟨rfl, -⟩ | ⟨-, hm, -⟩
    · decide +kernel
    · decide +kernel
    · exact absurd hm h
  have hbase : ∀ p, oldPackages.rpms p ≠ none → oldPackages.metadata p ≠ none := by
    intro p h
    rcases @twoPackages_cases oldGcc importCommits p with ⟨-, hm, -⟩ | ⟨-, hm, -⟩ | ⟨-, -, hr⟩
    · rw [hm]
      exact Option.some_ne_none _
    · rw [hm]
      exact Option.some_ne_none _
    · exact absurd hr h
  have hshown : Shown oldPackages respunPackages [respinCommit] (changedPackages (render respinLines)) := by
    rw [hchanged]
    exact shown_respin
  have hrecords : ∀ p ∈ changedPackages (render respinLines), respunPackages.metadata p ≠ none := by
    rw [hchanged]
    intro p hp
    rw [List.mem_singleton.mp hp]
    exact Option.some_ne_none _
  exact ((mr_agrees (l := twoListed respunGcc (respinCommit :: importCommits)) (by decide) (Or.inr rfl) hbase
    hpasses nameOnly_respin hshown rfl (List.Perm.swap _ _ _) (by rw [hchanged])).1 hrecords).1 0 [] hmr

end HummingbirdRpms.Validation
