/-
# HummingbirdRpms.SourcesFile — the format of a `sources` file, read and written.

A `sources` file has one entry a line, `ALGO (filename) = hash`.  `ci/check_upstream_versions.py` reads
and writes it, and `ci/dist_git.py` reads it with a pattern of its own; both take a line for an entry when
a regular expression with a lazy file name in the middle matches all of it.

**`parseSourcesLine_iff`** says which lines are entries (`IsSourcesLine`), and that leaves no choice:
behind the last `)` of a line only white space, `=` and a word can follow, so the file name is what stands
between the first `(` and the last `)`, whatever it has in it (`IsSourcesLine.unique`).

**`sources_round_trip`** — what is written from well-formed entries reads back as these entries, writing
what was read is idempotent, and the two parsers find the same file names in every file.
-/
import HummingbirdRpms.Lib.Lines
import HummingbirdRpms.Lib.RegexSplit
import HummingbirdRpms.Gorget

namespace HummingbirdRpms

open Lib Lib.Text Lib.Regex Lib.Exec

/-! ## Which lines are entries -/

section

variable [UnicodeTables] {line x : Str} {e e' : SourceEntry}

/-- A line of a `sources` file with an entry, `ALGO (filename) = hash`, with any white space in the three
gaps. -/
def IsSourcesLine (line : Str) (e : SourceEntry) : Prop :=
  ∃ gap₁ gap₂ gap₃ : Str,
    line = e.algo ++ (gap₁ ++ ("(".toList ++ (e.filename ++ (")".toList ++ (gap₂ ++
        ("=".toList ++ (gap₃ ++ e.hash))))))) ∧
      WordOver isWord e.algo ∧ WordOver isSpace gap₁ ∧ WordOver (· != '\n') e.filename ∧
      WordOver isSpace gap₂ ∧ WordOver isSpace gap₃ ∧ WordOver isWord e.hash

/-- Every way the pattern matches is such a line, and the other way round, whatever it asserts at the
end. -/
theorem way_sourcesLine {last : Re} {P : Str → Prop} {w v : Str} {c c' : List (Nat × Str)}
    (hlast : ∀ x w v c c', Way x last w v c c' ↔ P v ∧ w = [] ∧ c' = c) :
    Way x (Re.seq [.group 1 (Re.some1 isWord), Re.some1 isSpace, .lit "(",
        .group 2 (.cat (.chr (· != '\n')) (.many false (· != '\n'))), .lit ")", Re.some1 isSpace,
        .lit "=", Re.some1 isSpace, .group 3 (Re.some1 isWord), last]) w v c c' ↔
      P v ∧ ∃ e, IsSourcesLine w e ∧ c' = (3, e.hash) :: (2, e.filename) :: (1, e.algo) :: c := by
  constructor
  · intro h
    obtain ⟨algo, w₁, c₁, rfl, h₁, h⟩ := way_seq_cons.mp h
    obtain ⟨halgo, rfl⟩ := way_group_word.mp h₁
    obtain ⟨gap₁, w₂, c₂, rfl, h₂, h⟩ := way_seq_cons.mp h
    obtain ⟨hgap₁, rfl⟩ := way_some1.mp h₂
    obtain ⟨_, w₃, c₃, rfl, ⟨rfl, rfl⟩, h⟩ := way_seq_cons.mp h
    obtain ⟨filename, w₄, c₄, rfl, h₄, h⟩ := way_seq_cons.mp h
    obtain ⟨hname, rfl⟩ := way_group_word.mp h₄
    obtain ⟨_, w₅, c₅, rfl, ⟨rfl, rfl⟩, h⟩ := way_seq_cons.mp h
    obtain ⟨gap₂, w₆, c₆, rfl, h₆, h⟩ := way_seq_cons.mp h
    obtain ⟨hgap₂, rfl⟩ := way_some1.mp h₆
    obtain ⟨_, w₇, c₇, rfl, ⟨rfl, rfl⟩, h⟩ := way_seq_cons.mp h
    obtain ⟨gap₃, w₈, c₈, rfl, h₈, h⟩ := way_seq_cons.mp h
    obtain ⟨hgap₃, rfl⟩ := way_some1.mp h₈
    obtain ⟨hash, w₉, c₉, rfl, h₉, h⟩ := way_seq_cons.mp h
    obtain ⟨hhash, rfl⟩ := way_group_word.mp h₉
    obtain ⟨hv, rfl, rfl⟩ := (hlast ..).mp h
    refine ⟨hv, ⟨algo, filename, hash⟩, ⟨gap₁, gap₂, gap₃, ?_, halgo, hgap₁, hname, hgap₂, hgap₃, hhash⟩, rfl⟩
    rw [List.append_nil]
  · rintro ⟨hv, e, ⟨gap₁, gap₂, gap₃, rfl, halgo, hgap₁, hname, hgap₂, hgap₃, hhash⟩, rfl⟩
    refine way_seq_cons.mpr ⟨_, _, _, rfl, way_group_word.mpr ⟨halgo, rfl⟩, ?_⟩
    refine way_seq_cons.mpr ⟨_, _, _, rfl, way_some1.mpr ⟨hgap₁, rfl⟩, ?_⟩
    refine way_seq_cons.mpr ⟨_, _, _, rfl, ⟨rfl, rfl⟩, ?_⟩
    refine way_seq_cons.mpr ⟨_, _, _, rfl, way_group_word.mpr ⟨hname, rfl⟩, ?_⟩
    refine way_seq_cons.mpr ⟨_, _, _, rfl, ⟨rfl, rfl⟩, ?_⟩
    refine way_seq_cons.mpr ⟨_, _, _, rfl, way_some1.mpr ⟨hgap₂, rfl⟩, ?_⟩
    refine way_seq_cons.mpr ⟨_, _, _, rfl, ⟨rfl, rfl⟩, ?_⟩
    refine way_seq_cons.mpr ⟨_, _, _, rfl, way_some1.mpr ⟨hgap₃, rfl⟩, ?_⟩
    refine way_seq_cons.mpr ⟨_, [], _, (List.append_nil _).symm, way_group_word.mpr ⟨hhash, rfl⟩, ?_⟩
    exact (hlast ..).mpr ⟨hv, rfl, rfl⟩

theorem isSpace_of_isWord {c : Char} (h : isWord c = true) : isSpace c = false := by
  by_contra hsp
  rw [isWord_of_isSpace (by simpa using hsp)] at h
  exact absurd h (by simp)

/-- A text between two words has nothing to strip. -/
theorem solid_of_words {w v : Str} (hw : WordOver isWord w) (hv : WordOver isWord v) (m : Str) :
    Solid (w ++ m ++ v) := by
  refine .append ⟨_, Option.mem_def.mpr (List.head?_eq_some_head hw.1), ?_⟩
    ⟨_, Option.mem_def.mpr (List.getLast?_eq_some_getLast hv.1), ?_⟩
  · exact isSpace_of_isWord (hw.2 _ (List.head_mem hw.1))
  · exact isSpace_of_isWord (hv.2 _ (List.getLast_mem hv.1))

theorem unbroken_of_word {w : Str} (hw : WordOver isWord w) : Unbroken w := by
  intro c hc
  exact isLineBreak_of_not_isSpace (isSpace_of_isWord (hw.2 c hc))

/-- The three parts of a line are determined, even where the file name is empty. -/
theorem sourcesLine_cancel {a g₁ f g₂ g₃ h a' g₁' f' g₂' g₃' h' : Str} (ha : WordOver isWord a)
    (hg₁ : WordOver isSpace g₁) (hg₂ : WordOver isSpace g₂) (hg₃ : WordOver isSpace g₃) (hh : WordOver isWord h)
    (ha' : WordOver isWord a') (hg₁' : WordOver isSpace g₁') (hg₂' : WordOver isSpace g₂')
    (hg₃' : WordOver isSpace g₃') (hh' : WordOver isWord h')
    (heq : a ++ (g₁ ++ ("(".toList ++ (f ++ (")".toList ++ (g₂ ++ ("=".toList ++ (g₃ ++ h))))))) =
      a' ++ (g₁' ++ ("(".toList ++ (f' ++ (")".toList ++ (g₂' ++ ("=".toList ++ (g₃' ++ h')))))))) :
    a = a' ∧ f = f' ∧ h = h' := by
  have hword : ∀ c, isSpace c = true → isWord c = false := fun c => isWord_of_isSpace
  -- from the left: the word, the gap and the parenthesis
  obtain ⟨hal, heq⟩ := word_cancel ha.2 ha'.2 (hg₁.head?_append hword _) (hg₁'.head?_append hword _) heq
  obtain ⟨-, heq⟩ := word_cancel hg₁.2 hg₁'.2 (by rfl) (by rfl) heq
  have heq := List.append_cancel_left heq
  -- from the right: the word, the gaps around the sign and the last parenthesis
  simp only [← List.append_assoc] at heq
  obtain ⟨heq, hha⟩ := word_cancel_right hh.2 hh'.2 (hg₃.getLast?_append hword _)
    (hg₃'.getLast?_append hword _) heq
  obtain ⟨heq, -⟩ := word_cancel_right hg₃.2 hg₃'.2 (getLast?_of_sign (by decide))
    (getLast?_of_sign (by decide)) heq
  have heq := List.append_cancel_right heq
  obtain ⟨heq, -⟩ := word_cancel_right hg₂.2 hg₂'.2 (getLast?_of_sign (by decide))
    (getLast?_of_sign (by decide)) heq
  exact ⟨hal, List.append_cancel_right heq, hha⟩

/-- A line is one entry at most. -/
theorem IsSourcesLine.unique (h : IsSourcesLine line e) (h' : IsSourcesLine line e') : e = e' := by
  obtain ⟨gap₁, gap₂, gap₃, rfl, halgo, hgap₁, -, hgap₂, hgap₃, hhash⟩ := h
  obtain ⟨gap₁', gap₂', gap₃', heq, halgo', hgap₁', -, hgap₂', hgap₃', hhash'⟩ := h'
  have hparts := sourcesLine_cancel halgo hgap₁ hgap₂ hgap₃ hhash halgo' hgap₁' hgap₂' hgap₃' hhash' heq
  obtain ⟨algo, filename, hash⟩ := e
  obtain ⟨algo', filename', hash'⟩ := e'
  rw [SourceEntry.mk.injEq]
  exact hparts

omit [UnicodeTables] in
/-- A stripped text does not end with a line break. -/
theorem strip_ne_concat {w : Str} : strip line ≠ w ++ ['\n'] := by
  intro h
  have hne : strip line ≠ [] := by simp [h]
  have hlast : (strip line).getLast hne = '\n' := by simp [h]
  have hnot := List.rdropWhile_last_not isSpace (lstripBy isSpace line) hne
  exact absurd (hlast ▸ hnot) (by decide)

/-- The one match of the pattern in a stripped line. -/
theorem matchAt_sourcesLine {last : Re} {P : Str → Prop} {m : Match}
    (hlast : ∀ x w v c c', Way x last w v c c' ↔ P v ∧ w = [] ∧ c' = c) (hnil : P [])
    (hP : ∀ v, P v → v = [] ∨ v = ['\n']) :
    matchAt (Re.seq [.group 1 (Re.some1 isWord), Re.some1 isSpace, .lit "(",
        .group 2 (.cat (.chr (· != '\n')) (.many false (· != '\n'))), .lit ")", Re.some1 isSpace,
        .lit "=", Re.some1 isSpace, .group 3 (Re.some1 isWord), last]) (strip line) 0 = some m ↔
      ∃ e, IsSourcesLine (strip line) e ∧
        m = ⟨0, (strip line).length, [(3, e.hash), (2, e.filename), (1, e.algo)]⟩ := by
  refine matchAt_zero_iff ?_ fun a b ha hb => ha.unique hb
  intro w v c' ht
  rw [way_sourcesLine hlast]
  constructor
  · rintro ⟨hv, h⟩
    rcases hP v hv with rfl | rfl
    · rw [List.append_nil] at ht
      exact ⟨rfl, ht ▸ h⟩
    · exact absurd ht strip_ne_concat
  · rintro ⟨rfl, h⟩
    rw [List.append_nil] at ht
    exact ⟨hnil, ht ▸ h⟩

/-- **`parseSourcesLine_iff`** — a line gives the entry that its text without the white space around it
has. -/
theorem parseSourcesLine_iff : parseSourcesLine line = some e ↔ IsSourcesLine (strip line) e := by
  have hmatch : ∀ m, matchAt sourcesLineRe (strip line) 0 = some m ↔ _ := fun m =>
    matchAt_sourcesLine (fun _ _ _ _ _ => Iff.rfl) rfl fun v hv => Or.inl hv
  rw [parseSourcesLine, Option.map_eq_some_iff]
  constructor
  · rintro ⟨m, hm, rfl⟩
    obtain ⟨e, he, rfl⟩ := (hmatch m).mp hm
    exact he
  · intro h
    exact ⟨_, (hmatch _).mpr ⟨e, h, rfl⟩, rfl⟩

/-- An entry whose line says what it is: words for the algorithm and the hash, and a file name on one
line. -/
structure SourceEntry.WellFormed (e : SourceEntry) : Prop where
  algo : WordOver isWord e.algo
  filename : e.filename ≠ []
  unbroken : Unbroken e.filename
  hash : WordOver isWord e.hash

theorem IsSourcesLine.wellFormed (h : IsSourcesLine line e) (hline : Unbroken line) : e.WellFormed := by
  obtain ⟨gap₁, gap₂, gap₃, rfl, halgo, -, hname, -, -, hhash⟩ := h
  refine ⟨halgo, hname.1, ?_, hhash⟩
  intro c hc
  apply hline c
  simp [hc]

/-- An entry that takes one line, with words for the algorithm and the hash. -/
structure SourceEntry.OneLine (e : SourceEntry) : Prop where
  algo : WordOver isWord e.algo
  unbroken : Unbroken e.filename
  hash : WordOver isWord e.hash

theorem SourceEntry.WellFormed.oneLine (h : e.WellFormed) : e.OneLine := ⟨h.algo, h.unbroken, h.hash⟩

namespace SourceEntry.OneLine

omit [UnicodeTables] in
theorem line_eq : e.line = e.algo ++ (" ".toList ++ ("(".toList ++ (e.filename ++ (")".toList ++
    (" ".toList ++ ("=".toList ++ (" ".toList ++ e.hash))))))) := by
  simp [SourceEntry.line]

theorem solid (h : e.OneLine) : Solid e.line := by
  have hline : e.line = e.algo ++ (" (".toList ++ e.filename ++ ") = ".toList) ++ e.hash := by
    simp [SourceEntry.line]
  rw [hline]
  exact solid_of_words h.algo h.hash _

theorem unbroken_line (h : e.OneLine) : Unbroken e.line := by
  intro c hc
  simp only [SourceEntry.line, List.mem_append] at hc
  rcases hc with (((hc | hc) | hc) | hc) | hc
  · exact unbroken_of_word h.algo c hc
  · revert c
    decide
  · exact h.unbroken c hc
  · revert c
    decide
  · exact unbroken_of_word h.hash c hc

omit [UnicodeTables] in
theorem gap : WordOver isSpace " ".toList := ⟨by decide, by decide⟩

/-- The line of an entry gives the entry back, unless the file name is empty. -/
theorem parseSourcesLine (h : e.OneLine) :
    parseSourcesLine e.line = if e.filename = [] then none else some e := by
  have hiff : ∀ e', HummingbirdRpms.parseSourcesLine e.line = some e' ↔ IsSourcesLine e.line e' := by
    intro e'
    rw [parseSourcesLine_iff, strip_solid h.solid]
  split
  · rename_i hempty
    rw [Option.eq_none_iff_forall_ne_some]
    intro e' he'
    obtain ⟨g₁, g₂, g₃, heq, ha, hg₁, hf, hg₂, hg₃, hh⟩ := (hiff e').mp he'
    rw [line_eq] at heq
    obtain ⟨-, hname, -⟩ := sourcesLine_cancel h.algo gap gap gap h.hash ha hg₁ hg₂ hg₃ hh heq
    exact hf.1 (hname ▸ hempty)
  · rename_i hne
    rw [hiff]
    refine ⟨" ".toList, " ".toList, " ".toList, line_eq, h.algo, gap, ⟨hne, ?_⟩, gap, gap, h.hash⟩
    intro c hc
    rw [bne_iff_ne]
    rintro rfl
    exact absurd (h.unbroken _ hc) (by decide)

end SourceEntry.OneLine

/-- What a line of a text gives is well formed. -/
theorem wellFormed_of_parseSourcesLine (hline : Unbroken line) (h : parseSourcesLine line = some e) :
    e.WellFormed := by
  refine (parseSourcesLine_iff.mp h).wellFormed fun c hc => hline c ?_
  exact List.dropWhile_subset _ (List.rdropWhile_prefix _ _ |>.subset hc)

/-! ## Whole files -/

/-- The entries a `sources` file with this text is read as. -/
def readEntries (text : Str) : List SourceEntry :=
  (splitlines (universalNewlines text)).filterMap parseSourcesLine

/-- What is written is read line by line. -/
theorem readEntries_renderSources (entries : List SourceEntry) :
    readEntries (renderSources entries) =
      entries.flatMap fun e => (splitlines (e.line ++ ['\n'])).filterMap parseSourcesLine := by
  rw [readEntries, splitlines_universalNewlines]
  cases entries with
  | nil =>
      -- a file without entries is one empty line
      have hcut : splitlines (renderSources []) = [[]] := by decide
      have hnone : parseSourcesLine ([] : Str) = none := by
        rw [Option.eq_none_iff_forall_ne_some]
        intro e he
        obtain ⟨gap₁, gap₂, gap₃, hnil, hal, -⟩ := parseSourcesLine_iff.mp he
        exact hal.1 (List.append_eq_nil_iff.mp hnil.symm).1
      rw [hcut, List.filterMap_cons_none hnone, List.filterMap_nil]
      rfl
  | cons e entries =>
      have hlines : renderSources (e :: entries) = unlines ((e :: entries).map SourceEntry.line) := by
        rw [renderSources, List.map_cons]
        exact join_newline
      rw [hlines, splitlines_lines, List.flatMap_map, List.filterMap_flatMap]

/-- What is written from entries of one line each reads back as those that name a file. -/
theorem readEntries_of_oneLine {entries : List SourceEntry} (h : ∀ e ∈ entries, e.OneLine) :
    readEntries (renderSources entries) = entries.filter (·.filename ≠ []) := by
  rw [readEntries_renderSources]
  induction entries with
  | nil => rfl
  | cons e entries ih =>
      obtain ⟨he, hentries⟩ := List.forall_mem_cons.mp h
      rw [List.flatMap_cons, ih hentries, splitlines_line he.unbroken_line, List.filterMap_cons,
        he.parseSourcesLine]
      by_cases hname : e.filename = []
      · rw [List.filter_cons_of_neg (by simpa using hname), if_pos hname]
        rfl
      · rw [List.filter_cons_of_pos (by simpa using hname), if_neg hname]
        rfl

theorem readEntries_of_wellFormed {entries : List SourceEntry} (h : ∀ e ∈ entries, e.WellFormed) :
    readEntries (renderSources entries) = entries := by
  rw [readEntries_of_oneLine fun e he => (h e he).oneLine, List.filter_eq_self]
  intro e he
  simpa using (h e he).filename

/-- A well-formed entry is read back whatever stands beside it. -/
theorem mem_readEntries {entries : List SourceEntry} (he : e ∈ entries) (h : e.WellFormed) :
    e ∈ readEntries (renderSources entries) := by
  rw [readEntries_renderSources, List.mem_flatMap]
  refine ⟨e, he, ?_⟩
  rw [splitlines_line h.oneLine.unbroken_line, List.filterMap_cons, h.oneLine.parseSourcesLine,
    if_neg h.filename]
  exact List.mem_cons_self

/-- A file of such lines is read as the entries. -/
theorem parseSourcesFile_write (t : Tree) (p : Path) {entries : List SourceEntry}
    (h : ∀ e ∈ entries, e.WellFormed) :
    parseSourcesFile (t.write p (.text (renderSources entries))) p = .ok entries := by
  have hpresent : (t.write p (.text (renderSources entries))).present p = true := by
    rw [Tree.present, Tree.isFile_of_read Tree.read_write_self rfl, Bool.true_or]
  rw [parseSourcesFile, if_pos hpresent, readText, Tree.read_write_self]
  exact congrArg Except.ok (readEntries_of_wellFormed h)

/-- The entries a file is read as are well formed. -/
theorem wellFormed_of_parseSourcesFile {t : Tree} {p : Path} {entries : List SourceEntry}
    (h : parseSourcesFile t p = .ok entries) : ∀ e ∈ entries, e.WellFormed := by
  rw [parseSourcesFile] at h
  split at h
  · obtain ⟨text, -, h⟩ := except_bind_ok_iff.mp h
    obtain rfl := Except.ok.inj h
    intro e he
    obtain ⟨l, hl, hle⟩ := List.mem_filterMap.mp he
    exact wellFormed_of_parseSourcesLine (isLineBreak_of_mem_splitlines hl) hle
  · obtain rfl := Except.ok.inj h
    simp

/-- `_write_sources_file(path, _parse_sources_file(path))` -/
def rewriteSources (t : Tree) (p : Path) : Except Exn Tree := do
  return t.write p (.text (renderSources (← parseSourcesFile t p)))

/-- Writing what was read once more changes nothing. -/
theorem rewriteSources_idem (t : Tree) (p : Path) :
    (rewriteSources t p >>= fun t' => rewriteSources t' p) = rewriteSources t p := by
  cases h : parseSourcesFile t p with
  | error exn => simp only [rewriteSources, h, except_bind_error]
  | ok entries =>
      have hagain := parseSourcesFile_write t p (wellFormed_of_parseSourcesFile h)
      simp only [rewriteSources, h, hagain, except_bind_ok, except_pure, Tree.write_write]

namespace DistGit

/-- `SOURCES_LINE_PATTERN` -/
def sourcesLinePattern : Re :=
  Re.seq [.group 1 (Re.some1 isWord), Re.some1 isSpace, .lit "(",
    .group 2 (.cat (.chr (· != '\n')) (.many false (· != '\n'))), .lit ")", Re.some1 isSpace,
    .lit "=", Re.some1 isSpace, .group 3 (Re.some1 isWord), .eot]

/-- `_parse_sources_file` of `ci/dist_git.py`, which gives the file names only and reads the file without
asking whether there is one. -/
def parseSourcesFile (t : Tree) (p : Path) : Except Exn (List Str) := do
  return (splitlines (← readText t p)).filterMap fun line =>
    (matchAt sourcesLinePattern (strip line) 0).map (·.group 2)

/-- The two patterns match the same stripped lines in the same way. -/
theorem matchAt_sourcesLinePattern :
    matchAt sourcesLinePattern (strip line) 0 = matchAt sourcesLineRe (strip line) 0 := by
  ext m
  rw [show matchAt sourcesLinePattern (strip line) 0 = some m ↔ _ from
      matchAt_sourcesLine (fun _ _ _ _ _ => Iff.rfl) (Or.inl rfl) fun v hv => hv,
    show matchAt sourcesLineRe (strip line) 0 = some m ↔ _ from
      matchAt_sourcesLine (fun _ _ _ _ _ => Iff.rfl) rfl fun v hv => Or.inl hv]

/-- The two parsers find the same names. -/
theorem parseSourcesFile_eq {t : Tree} {p : Path} (h : t.present p = true) :
    parseSourcesFile t p = (HummingbirdRpms.parseSourcesFile t p).map (·.map (·.filename)) := by
  rw [HummingbirdRpms.parseSourcesFile, if_pos h, parseSourcesFile]
  cases readText t p with
  | error exn => rfl
  | ok text =>
      simp only [except_bind_ok, except_pure, Except.map]
      rw [List.map_filterMap]
      congr 2
      funext line
      rw [matchAt_sourcesLinePattern, HummingbirdRpms.parseSourcesLine, Option.map_map]
      rfl

end DistGit

/-- **`sources_round_trip`** — what is written from well-formed entries reads back as these entries,
writing what was read is idempotent, and the two parsers find the same file names in every file. -/
theorem sources_round_trip :
    (∀ (t : Tree) (p : Path) (entries : List SourceEntry), (∀ e ∈ entries, e.WellFormed) →
      parseSourcesFile (t.write p (.text (renderSources entries))) p = .ok entries) ∧
    (∀ (t : Tree) (p : Path),
      (rewriteSources t p >>= fun t' => rewriteSources t' p) = rewriteSources t p) ∧
    ∀ (t : Tree) (p : Path), t.present p = true →
      DistGit.parseSourcesFile t p = (parseSourcesFile t p).map (·.map (·.filename)) := by
  refine ⟨?_, rewriteSources_idem, ?_⟩
  · intro t p entries h
    exact parseSourcesFile_write t p h
  · intro t p h
    exact DistGit.parseSourcesFile_eq h

end

/-- A file name with the delimiters of the format in it is read back too. -/
theorem sources_round_trip_delimiters :
    letI := asciiTables
    parseSourcesFile ((∅ : Tree).write sourcesName
        (.text (renderSources [⟨"SHA512", "a) = b (1).tar", "0f"⟩]))) sourcesName =
      .ok [⟨"SHA512", "a) = b (1).tar", "0f"⟩] := by
  let _ := asciiTables
  have hunbroken : ∀ c ∈ "a) = b (1).tar".toList, isLineBreak c = false := by decide
  have hall : ∀ e ∈ [(⟨"SHA512", "a) = b (1).tar", "0f"⟩ : SourceEntry)], e.WellFormed := by
    intro e he
    obtain rfl := List.mem_singleton.mp he
    exact ⟨⟨by decide, by decide⟩, by decide, hunbroken, ⟨by decide, by decide⟩⟩
  exact sources_round_trip.1 ∅ sourcesName [⟨"SHA512", "a) = b (1).tar", "0f"⟩] hall

end HummingbirdRpms
