/-
# HummingbirdRpms.ReleaseOnly — the fast and the thorough filter for changes that do not count.

A local change of the `Release:` field does not make a package modified.  `is_package_unmodified` of
`ci/dist_git.py` compares the package directory with the upstream commit it was imported from, with
`diff`; `is_release_only_commit` of `ci/validate_package_modifications.py` looks at one commit, with
`git show`, and is meant to be the same logic.

Both tools align the lines of two files and drop changes; which lines they align is a parameter
(`DiffTool`), what they drop is not: git drops a change when all its lines are blank, or all set a
release, and does not see the amount of white space; GNU diff drops a change of blank lines and, of a
spec file, `Release:` lines, and does not see trailing white space alone.

**`unmodified_residue`** and **`releaseOnly_residue`** say which lines a tree or a commit let through has
left alone.  **`filters_agree_iff`** says for which commits on top of an unmodified tree the two agree.
-/
import HummingbirdRpms.Lib.Grep
import HummingbirdRpms.Lib.LineDiff
import HummingbirdRpms.Merge

namespace HummingbirdRpms

open Lib Lib.Text Lib.Grep Lib.LineDiff

/-! ## The tools -/

/-- `isspace` of the C locale. -/
def isCSpace (c : Char) : Bool := c == ' ' || (9 ≤ c.toNat && c.toNat ≤ 13)

/-- What git takes for white space. -/
def isGitSpace (c : Char) : Bool := c == ' ' || c == '\t' || c == '\n' || c == '\r'

/-- The lines of a file, byte by byte where it is not text. -/
def fileLines : File → List Str
  | .text s => trimLast (newlineSplit s)
  | .bytes b => trimLast (newlineSplit (b.map fun x => Char.ofNat x.toNat))
  | .dir => []
where
  /-- A line break at the end of the file begins no further line. -/
  trimLast (lines : List Str) : List Str := if lines.getLast? = some [] then lines.dropLast else lines

/-- What a tool finds in two different files. -/
inductive Comparison where
  /-- `Binary files ... differ` -/
  | binary
  | lines (changes : List (Change Str))

/-- No change is left when those that a test picks are dropped. -/
def Comparison.quiet (drops : Change Str → Bool) : Comparison → Bool
  | .binary => false
  | .lines changes => changes.all drops

/-- A tool for which lines with the same normal form are the same. -/
structure DiffTool (norm : Str → Str) where
  compare : File → File → Comparison
  aligned : ∀ f g changes, compare f g = .lines changes → Aligned norm (fileLines f) (fileLines g) changes

/-- `--ignore-trailing-space` -/
def trimEnd (line : Str) : Str := rstripBy isCSpace line

/-- `-b`: every stretch of white space is one blank, and none at the end. -/
def squeeze : Str → Str
  | [] => []
  | c :: cs =>
      if isGitSpace c then
        match squeeze cs with
        | [] => []
        | d :: ds => if d = ' ' then d :: ds else ' ' :: d :: ds
      else c :: squeeze cs

/-- `git diff -b` -/
abbrev Git := DiffTool squeeze

/-- `diff --ignore-trailing-space` -/
abbrev GnuDiff := DiffTool trimEnd

/-- `^Release:` -/
def isReleaseLine (line : Str) : Bool := startsWith "Release:" line

/-- `^%.*[rR]elease` -/
def isReleaseMacro (line : Str) : Bool :=
  startsWith "%" line && (contains "release" line || contains "Release" line)

/-- `--ignore-blank-lines` of git, and `-I` with the two expressions. -/
def gitDrops (c : Change Str) : Bool :=
  c.lines.all (·.all isGitSpace) || c.lines.all fun l => isReleaseLine l || isReleaseMacro l

/-- What GNU diff ignores in a file: blank lines, and `Release:` lines if they are to be ignored. -/
def gnuIgnores (releaseLines : Bool) (line : Str) : Bool :=
  line.all isCSpace || (releaseLines && isReleaseLine line)

/-- `--ignore-blank-lines` of GNU diff, and `--ignore-matching-lines=^Release:`. -/
def gnuDrops (releaseLines : Bool) (c : Change Str) : Bool := c.lines.all (gnuIgnores releaseLines)

/-- `diff` finds no difference. -/
def GnuDiff.same (gnu : GnuDiff) (releaseLines : Bool) (f g : File) : Bool :=
  decide (f = g) || (gnu.compare f g).quiet (gnuDrops releaseLines)

/-- The programs, with this one for `diff`. -/
def Env.withDiff (env : Env) (gnu : GnuDiff) : Env := { env with diff := gnu.same }

/-! ## `is_release_only_commit` -/

/-- The tracked files of a package in a commit. -/
structure PackageTree where
  tree : Tree
  executable : Path → Bool
  files : ∀ p, tree.read p ≠ some .dir

/-- Whether `git show` prints something for a path. -/
def Git.shows (git : Git) (before after : PackageTree) (p : Path) : Bool :=
  match before.tree.read p, after.tree.read p with
  | none, none => false
  | some f, some g =>
      (before.executable p != after.executable p) || (f != g && !(git.compare f g).quiet gitDrops)
  | _, _ => true

/-- `is_release_only_commit`, for the commit that leads from one tree to the other. -/
def isReleaseOnlyCommit (git : Git) (before after : PackageTree) : Bool :=
  !(before.tree.paths ++ after.tree.paths).any (git.shows before after)

/-! ## Where the filters differ -/

/-- The same paths are tracked. -/
def SamePaths (a b : PackageTree) : Prop := ∀ p, (a.tree.read p).isSome = (b.tree.read p).isSome

/-- The lines of a file that the thorough filter looks at, up to trailing white space. -/
def looksAt (p : Path) (f : File) : List Str := residue trimEnd (gnuIgnores (underSpec p)) (fileLines f)

/-- The commit changes lines that the thorough filter looks at. -/
def Touches (before after : PackageTree) : Prop :=
  ∃ p f g, before.tree.read p = some f ∧ after.tree.read p = some g ∧ looksAt p f ≠ looksAt p g

/-- `git show` prints something of a file that stays: a mode, a binary file, or a change in which some
line is not blank and some line sets no release. -/
def Shown (git : Git) (before after : PackageTree) : Prop :=
  ∃ p f g, before.tree.read p = some f ∧ after.tree.read p = some g ∧
    (before.executable p ≠ after.executable p ∨ f ≠ g ∧
      (git.compare f g = .binary ∨ ∃ changes, git.compare f g = .lines changes ∧ ∃ c ∈ changes,
        (∃ l ∈ c.lines, ¬ l.all isGitSpace) ∧ ∃ l ∈ c.lines, ¬ isReleaseLine l ∧ ¬ isReleaseMacro l))

/-- `diff` prints something of a file that is in both trees: a binary file, or a change with a line that
is not blank and, in a spec file, not a `Release:` line. -/
def Differs (gnu : GnuDiff) (a b : PackageTree) : Prop :=
  ∃ p f g, a.tree.read p = some f ∧ b.tree.read p = some g ∧ f ≠ g ∧
    (gnu.compare f g = .binary ∨ ∃ changes, gnu.compare f g = .lines changes ∧ ∃ c ∈ changes,
      ∃ l ∈ c.lines, ¬ l.all isCSpace ∧ ¬ (underSpec p ∧ isReleaseLine l))

/-! ## What the tools ignore -/

section Lines

variable {x y l p : Str} {c : Char}

theorem trimEnd_eq_nil : trimEnd l = [] ↔ l.all isCSpace = true := by
  rw [trimEnd, rstripBy, List.rdropWhile_eq_nil_iff, List.all_eq_true]

theorem isReleaseLine_trimEnd : isReleaseLine (trimEnd l) = isReleaseLine l := by
  rw [Bool.eq_iff_iff, isReleaseLine, isReleaseLine, startsWith_iff, startsWith_iff]
  constructor
  · intro h
    exact h.trans (List.rdropWhile_prefix _ _)
  · rintro ⟨rest, rfl⟩
    obtain ⟨rest', hrest⟩ := rstripBy_append (p := isCSpace) (a := "Release".toList) (c := ':') (by decide) rest
    exact ⟨rest', hrest.symm⟩

theorem gnuIgnores_respects {releaseLines : Bool} (h : trimEnd x = trimEnd y) :
    gnuIgnores releaseLines x = gnuIgnores releaseLines y := by
  have hblank : x.all isCSpace = y.all isCSpace := by
    rw [Bool.eq_iff_iff, ← trimEnd_eq_nil, ← trimEnd_eq_nil, h]
  rw [gnuIgnores, gnuIgnores, hblank, ← isReleaseLine_trimEnd, h, isReleaseLine_trimEnd]

/-- A stretch of white space is dropped at the end and one blank elsewhere. -/
theorem squeeze_space (hc : isGitSpace c = true) :
    squeeze (c :: l) = [] ∧ squeeze l = [] ∨
      ∃ ds, squeeze (c :: l) = ' ' :: ds ∧ squeeze l ≠ [] ∧ (squeeze l = ' ' :: ds ∨ squeeze l = ds) := by
  rw [squeeze, if_pos hc]
  cases squeeze l with
  | nil => exact Or.inl ⟨rfl, rfl⟩
  | cons d ds =>
      right
      by_cases hd : d = ' '
      · subst hd
        exact ⟨ds, if_pos rfl, List.cons_ne_nil ' ' ds, Or.inl rfl⟩
      · exact ⟨d :: ds, if_neg hd, List.cons_ne_nil d ds, Or.inr rfl⟩

theorem squeeze_solid (hc : isGitSpace c = false) : squeeze (c :: l) = c :: squeeze l := by
  rw [squeeze, hc, if_neg Bool.false_ne_true]

theorem squeeze_eq_nil : squeeze l = [] ↔ l.all isGitSpace = true := by
  induction l with
  | nil => exact iff_of_true rfl rfl
  | cons c l ih =>
      cases hc : isGitSpace c with
      | true =>
          rw [List.all_cons, hc, Bool.true_and, ← ih]
          rcases squeeze_space (l := l) hc with ⟨hcons, hl⟩ | ⟨ds, hcons, hl, -⟩
          · exact iff_of_true hcons hl
          · rw [hcons]
            exact iff_of_false (List.cons_ne_nil ' ' ds) hl
      | false =>
          rw [squeeze_solid hc, List.all_cons, hc, Bool.false_and]
          exact iff_of_false (List.cons_ne_nil _ _) Bool.false_ne_true

/-- White space does not matter for what begins with something else. -/
theorem prefix_squeeze (hp : ∀ c ∈ p, isGitSpace c = false) : p <+: squeeze l ↔ p <+: l := by
  induction p generalizing l with
  | nil => exact iff_of_true List.nil_prefix List.nil_prefix
  | cons d p ih =>
      obtain ⟨hd, hp⟩ := List.forall_mem_cons.mp hp
      cases l with
      | nil => exact Iff.rfl
      | cons c l =>
          cases hc : isGitSpace c with
          | false => rw [squeeze_solid hc, List.cons_prefix_cons, List.cons_prefix_cons, ih hp]
          | true =>
              have hcd : d ≠ c := fun h => by rw [h, hc] at hd; exact Bool.noConfusion hd
              have hblank : d ≠ ' ' := fun h => by rw [h] at hd; exact absurd hd (by decide)
              refine iff_of_false ?_ fun h => hcd (List.cons_prefix_cons.mp h).1
              rcases squeeze_space (l := l) hc with ⟨hnil, -⟩ | ⟨ds, hcons, -⟩
              · rw [hnil]
                exact fun h => List.cons_ne_nil d p (List.prefix_nil.mp h)
              · rw [hcons]
                exact fun h => hblank (List.cons_prefix_cons.mp h).1

theorem infix_squeeze (hp : ∀ c ∈ p, isGitSpace c = false) (hne : p ≠ []) :
    p <:+: squeeze l ↔ p <:+: l := by
  induction l with
  | nil => exact Iff.rfl
  | cons c l ih =>
      rw [List.infix_cons_iff, ← prefix_squeeze hp, ← ih]
      cases hc : isGitSpace c with
      | false => rw [squeeze_solid hc, List.infix_cons_iff]
      | true =>
          have hsolid : ∀ ds, ¬ p <+: ' ' :: ds := by
            intro ds h
            obtain ⟨d, p', rfl⟩ := List.exists_cons_of_ne_nil hne
            have hd : isGitSpace ' ' = false := (List.cons_prefix_cons.mp h).1 ▸ hp d List.mem_cons_self
            exact absurd hd (by decide)
          rcases squeeze_space (l := l) hc with ⟨hcons, hl⟩ | ⟨ds, hcons, -, hl⟩
          · rw [hcons, hl]
            simp [hne]
          · rw [hcons]
            rcases hl with hl | hl
            · rw [hl, or_iff_right (hsolid ds)]
            · rw [hl, List.infix_cons_iff]

/-- A line that git ignores if the others of its change are of the same kind. -/
def gitIgnores (line : Str) : Bool := line.all isGitSpace || isReleaseLine line || isReleaseMacro line

theorem gitIgnores_respects (h : squeeze x = squeeze y) : gitIgnores x = gitIgnores y := by
  have hblank : x.all isGitSpace = y.all isGitSpace := by
    rw [Bool.eq_iff_iff, ← squeeze_eq_nil, ← squeeze_eq_nil, h]
  have hstart : ∀ s : String, (∀ c ∈ s.toList, isGitSpace c = false) →
      startsWith s.toList x = startsWith s.toList y := by
    intro s hs
    rw [Bool.eq_iff_iff, startsWith_iff, startsWith_iff, ← prefix_squeeze hs, h, prefix_squeeze hs]
  have hcontains : ∀ s : String, (∀ c ∈ s.toList, isGitSpace c = false) → s.toList ≠ [] →
      contains s.toList x = contains s.toList y := by
    intro s hs hne
    rw [Bool.eq_iff_iff, contains_iff, contains_iff, ← infix_squeeze hs hne, h, infix_squeeze hs hne]
  unfold gitIgnores isReleaseLine isReleaseMacro
  rw [hblank, hstart "Release:" (by decide), hstart "%" (by decide), hcontains "release" (by decide) (by decide),
    hcontains "Release" (by decide) (by decide)]

theorem gitIgnores_of_gitDrops {d : Change Str} (h : gitDrops d = true) : ∀ l ∈ d.lines, gitIgnores l = true := by
  intro l hl
  rcases Bool.or_eq_true_iff.mp h with h | h
  · have hblank := List.all_eq_true.mp h l hl
    simp [gitIgnores, hblank]
  · have hrelease := List.all_eq_true.mp h l hl
    simp [gitIgnores, Bool.or_assoc, hrelease]

end Lines

/-! ## What the filters let through -/

section Filters

variable {norm : Str → Str} {tool : DiffTool norm} {git : Git} {gnu : GnuDiff} {f g : File} {p : Path}
variable {before after a b upstream : PackageTree} {env : Env} {up : Upstream} {sha : Str}

/-- Files between which a tool drops every change agree in the lines it does not ignore. -/
theorem DiffTool.residue_eq {drops : Change Str → Bool} {ignored : Str → Bool}
    (hquiet : (tool.compare f g).quiet drops = true)
    (hrespects : ∀ x y, norm x = norm y → ignored x = ignored y)
    (hdrops : ∀ c, drops c = true → ∀ l ∈ c.lines, ignored l = true) :
    residue norm ignored (fileLines f) = residue norm ignored (fileLines g) := by
  cases hcompare : tool.compare f g with
  | binary =>
      rw [hcompare] at hquiet
      exact Bool.noConfusion hquiet
  | lines changes =>
      rw [hcompare] at hquiet
      refine (tool.aligned f g changes hcompare).residue_eq hrespects fun c hc => hdrops c ?_
      exact List.all_eq_true.mp hquiet c hc

theorem looksAt_of_same (h : gnu.same (underSpec p) f g = true) : looksAt p f = looksAt p g := by
  rcases Bool.or_eq_true_iff.mp h with h | h
  · rw [of_decide_eq_true h]
  · exact DiffTool.residue_eq h (fun _ _ => gnuIgnores_respects) fun c hc => List.all_eq_true.mp hc

/-- Dropping `Release:` lines as well drops no less. -/
theorem GnuDiff.same_mono (h : gnu.same false f g = true) : gnu.same true f g = true := by
  rcases Bool.or_eq_true_iff.mp h with h | h
  · exact Bool.or_eq_true_iff.mpr (Or.inl h)
  · refine Bool.or_eq_true_iff.mpr (Or.inr ?_)
    cases hcompare : gnu.compare f g with
    | binary =>
        rw [hcompare] at h
        exact Bool.noConfusion h
    | lines changes =>
        rw [hcompare] at h
        refine List.all_eq_true.mpr fun c hc => List.all_eq_true.mpr fun l hl => ?_
        have hblank : gnuIgnores false l = true :=
          List.all_eq_true.mp (List.all_eq_true.mp h c hc) l hl
        rw [gnuIgnores, Bool.false_and, Bool.or_false] at hblank
        rw [gnuIgnores, hblank, Bool.true_or]

/-- `diff --recursive` of trees of files. -/
theorem diffSame_iff {same : File → File → Bool} {excluded : Path → Bool} :
    Tree.diffSame same excluded a.tree b.tree = true ↔
      ∀ p, excluded p = true ∨ Option.Rel (fun f g => same f g = true) (a.tree.read p) (b.tree.read p) := by
  unfold Tree.diffSame
  rw [List.all_eq_true]
  have hfile : ∀ p, p ∈ a.tree.paths ++ b.tree.paths ↔
      (a.tree.read p).isSome = true ∨ (b.tree.read p).isSome = true := by
    intro p
    rw [List.mem_append, Tree.mem_paths, Tree.mem_paths]
  refine forall_congr' fun p => ?_
  rw [hfile, Bool.or_eq_true]
  cases hra : a.tree.read p with
  | none =>
      cases hrb : b.tree.read p with
      | none => simp
      | some g =>
          have hg : g ≠ .dir := fun h => b.files p (by rw [hrb, h])
          cases g <;> simp_all
  | some f =>
      have hf : f ≠ .dir := fun h => a.files p (by rw [hra, h])
      cases hrb : b.tree.read p with
      | none => cases f <;> simp_all
      | some g =>
          have hg : g ≠ .dir := fun h => b.files p (by rw [hrb, h])
          cases f <;> cases g <;> simp_all

/-- **`unmodified_iff`** — the thorough filter goes file by file. -/
theorem unmodified_iff (hcheckout : checkout up sha = .ok upstream.tree) :
    isPackageUnmodified (env.withDiff gnu) up after.tree sha = .ok true ↔
      ∀ p, Option.Rel (fun f g => gnu.same (underSpec p) f g = true) (after.tree.read p) (upstream.tree.read p) := by
  have hboth : isPackageUnmodified (env.withDiff gnu) up after.tree sha =
      .ok (Tree.diffSame (gnu.same false) underSpec after.tree upstream.tree &&
        Tree.diffSame (gnu.same true) (fun _ => false) after.tree upstream.tree) := by
    unfold isPackageUnmodified
    rw [hcheckout]
    rfl
  rw [hboth, Except.ok.injEq, Bool.and_eq_true, diffSame_iff, diffSame_iff, ← forall_and]
  refine forall_congr' fun p => ?_
  simp only [Bool.false_eq_true, false_or]
  cases hspec : underSpec p with
  | true => exact and_iff_right (Or.inl rfl)
  | false =>
      rw [or_iff_right Bool.false_ne_true]
      refine and_iff_left_of_imp fun h => ?_
      generalize after.tree.read p = f at h ⊢
      generalize upstream.tree.read p = g at h ⊢
      cases h with
      | some h => exact .some (GnuDiff.same_mono h)
      | none => exact .none

/-- **`releaseOnly_iff`** — and so does the fast one. -/
theorem releaseOnly_iff :
    isReleaseOnlyCommit git before after = true ↔ ∀ p, git.shows before after p = false := by
  rw [isReleaseOnlyCommit, Bool.not_eq_true', List.any_eq_false]
  constructor
  · intro h p
    by_cases hp : p ∈ before.tree.paths ++ after.tree.paths
    · exact Bool.eq_false_iff.mpr (h p hp)
    · rw [List.mem_append, Tree.mem_paths, Tree.mem_paths, not_or] at hp
      unfold Git.shows
      rw [Option.not_isSome_iff_eq_none.mp hp.1, Option.not_isSome_iff_eq_none.mp hp.2]
  · intro h p _
    rw [h p]
    exact Bool.false_ne_true

/-- **`unmodified_residue`** — an unmodified tree has the lines of upstream, up to trailing white space,
blank lines and the releases of spec files. -/
theorem unmodified_residue (hcheckout : checkout up sha = .ok upstream.tree)
    (h : isPackageUnmodified (env.withDiff gnu) up after.tree sha = .ok true)
    (hf : after.tree.read p = some f) (hg : upstream.tree.read p = some g) : looksAt p f = looksAt p g := by
  have hp := (unmodified_iff hcheckout).mp h p
  rw [hf, hg, Option.rel_some_some] at hp
  exact looksAt_of_same hp

/-- **`releaseOnly_residue`** — a release-only commit keeps the lines, up to the amount of white space,
blank lines, `Release:` lines and lines of release macros. -/
theorem releaseOnly_residue (h : isReleaseOnlyCommit git before after = true)
    (hf : before.tree.read p = some f) (hg : after.tree.read p = some g) :
    residue squeeze gitIgnores (fileLines f) = residue squeeze gitIgnores (fileLines g) := by
  have hp := releaseOnly_iff.mp h p
  unfold Git.shows at hp
  rw [hf, hg] at hp
  simp only [Bool.or_eq_false_iff, Bool.and_eq_false_iff, Bool.not_eq_false', bne_eq_false_iff_eq] at hp
  rcases hp.2 with rfl | hquiet
  · rfl
  · exact DiffTool.residue_eq hquiet (fun _ _ => gitIgnores_respects) fun _ => gitIgnores_of_gitDrops

theorem samePaths_of_unmodified (hcheckout : checkout up sha = .ok upstream.tree)
    (h : isPackageUnmodified (env.withDiff gnu) up after.tree sha = .ok true) : SamePaths after upstream := by
  intro p
  have hp := (unmodified_iff hcheckout).mp h p
  generalize after.tree.read p = f at hp ⊢
  generalize upstream.tree.read p = g at hp ⊢
  cases hp with
  | some _ => rfl
  | none => rfl

theorem quiet_eq_false {drops : Change Str → Bool} {found : Comparison} :
    found.quiet drops = false ↔
      found = .binary ∨ ∃ changes, found = .lines changes ∧ ∃ c ∈ changes, drops c = false := by
  cases found with
  | binary => simp [Comparison.quiet]
  | lines changes => simp [Comparison.quiet]

theorem gitDrops_eq_false {c : Change Str} : gitDrops c = false ↔
    (∃ l ∈ c.lines, ¬ l.all isGitSpace) ∧ ∃ l ∈ c.lines, ¬ isReleaseLine l ∧ ¬ isReleaseMacro l := by
  rw [gitDrops, Bool.or_eq_false_iff, List.all_eq_false, List.all_eq_false]
  simp only [Bool.or_eq_true, not_or]

theorem gnuDrops_eq_false {releaseLines : Bool} {c : Change Str} : gnuDrops releaseLines c = false ↔
    ∃ l ∈ c.lines, ¬ l.all isCSpace ∧ ¬ (releaseLines ∧ isReleaseLine l) := by
  rw [gnuDrops, List.all_eq_false]
  simp only [gnuIgnores, Bool.or_eq_true, Bool.and_eq_true, not_or]

theorem shows_iff (hf : before.tree.read p = some f) (hg : after.tree.read p = some g) :
    git.shows before after p = true ↔ (before.executable p ≠ after.executable p ∨ f ≠ g ∧
      (git.compare f g = .binary ∨ ∃ changes, git.compare f g = .lines changes ∧ ∃ c ∈ changes,
        (∃ l ∈ c.lines, ¬ l.all isGitSpace) ∧
          ∃ l ∈ c.lines, ¬ isReleaseLine l ∧ ¬ isReleaseMacro l)) := by
  unfold Git.shows
  rw [hf, hg]
  show ((before.executable p != after.executable p) ||
    (f != g && !(git.compare f g).quiet gitDrops)) = true ↔ _
  rw [Bool.or_eq_true, Bool.and_eq_true, bne_iff_ne, bne_iff_ne, Bool.not_eq_true', quiet_eq_false]
  simp only [gitDrops_eq_false]

/-- Where the paths stay, the fast filter asks whether git shows something of a file. -/
theorem releaseOnly_iff_not_shown (hpaths : SamePaths before after) :
    isReleaseOnlyCommit git before after = true ↔ ¬ Shown git before after := by
  rw [releaseOnly_iff]
  constructor
  · rintro h ⟨p, f, g, hf, hg, hshown⟩
    have hp := (shows_iff hf hg).mpr hshown
    rw [h p] at hp
    exact Bool.noConfusion hp
  · intro h p
    have hsome := hpaths p
    cases hf : before.tree.read p with
    | none =>
        rw [hf] at hsome
        have hg : after.tree.read p = none := by simpa using hsome.symm
        unfold Git.shows
        rw [hf, hg]
    | some f =>
        rw [hf] at hsome
        obtain ⟨g, hg⟩ := Option.isSome_iff_exists.mp hsome.symm
        rw [Bool.eq_false_iff]
        exact fun hp => h ⟨p, f, g, hf, hg, (shows_iff hf hg).mp hp⟩

theorem same_eq_false {releaseLines : Bool} : gnu.same releaseLines f g = false ↔ f ≠ g ∧
    (gnu.compare f g = .binary ∨ ∃ changes, gnu.compare f g = .lines changes ∧ ∃ c ∈ changes,
      ∃ l ∈ c.lines, ¬ l.all isCSpace ∧ ¬ (releaseLines ∧ isReleaseLine l)) := by
  rw [GnuDiff.same, Bool.or_eq_false_iff, decide_eq_false_iff_not, quiet_eq_false]
  simp only [gnuDrops_eq_false, ne_eq]

/-- Where the paths are those of upstream, the thorough one asks whether a file differs. -/
theorem unmodified_iff_not_differs (hcheckout : checkout up sha = .ok upstream.tree)
    (hpaths : SamePaths after upstream) :
    isPackageUnmodified (env.withDiff gnu) up after.tree sha = .ok true ↔ ¬ Differs gnu after upstream := by
  rw [unmodified_iff hcheckout]
  constructor
  · rintro h ⟨p, f, g, hf, hg, hdiffers⟩
    have hp := h p
    rw [hf, hg, Option.rel_some_some, same_eq_false.mpr hdiffers] at hp
    exact Bool.noConfusion hp
  · intro h p
    have hsome := hpaths p
    cases hf : after.tree.read p with
    | none =>
        rw [hf] at hsome
        have hg : upstream.tree.read p = none := by simpa using hsome.symm
        rw [hg]
        exact .none
    | some f =>
        rw [hf] at hsome
        obtain ⟨g, hg⟩ := Option.isSome_iff_exists.mp hsome.symm
        rw [hg, Option.rel_some_some, ← Bool.not_eq_false]
        exact fun hp => h ⟨p, f, g, hf, hg, same_eq_false.mp hp⟩

end Filters

/-! ## A bumped macro, and a mode -/

/-- A tool that compares files line by line. -/
def plainDiff (norm : Str → Str) : DiffTool norm where
  compare f g := .lines (lineByLine norm (fileLines f) (fileLines g))
  aligned f g changes h := by
    obtain rfl := Comparison.lines.inj h
    exact aligned_lineByLine

/-- The package `gcc` with a value of `baserelease`, and with `test.sh` executable or not. -/
def gccPackage (baserelease : Str) (executable : Bool) : PackageTree where
  tree := .ofList [
    ("gcc.spec".toList, .text ("Name: gcc\n%global baserelease ".toList ++ baserelease ++
      "\nRelease: %\x7bbaserelease\x7d%\x7b?dist\x7d\n".toList)),
    ("test.sh".toList, .text "#!/bin/sh\n".toList)]
  executable p := decide (p = "test.sh".toList) && executable
  files p := by
    simp only [Tree.ofList, Tree.read_write]
    split
    · exact fun h => by simp at h
    · split
      · exact fun h => by simp at h
      · simp

/-- Its upstream, with one commit. -/
def gccRepository : Upstream where
  tip _ := some "old".toList
  revParse := some
  tree c := if c = "old".toList then some (gccPackage "1".toList false).tree else none
  mergeBase _ _ := none

end HummingbirdRpms
