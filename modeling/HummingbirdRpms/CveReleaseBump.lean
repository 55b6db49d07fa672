/-
# HummingbirdRpms.CveReleaseBump — the release bump of the CVE helper (`.cursor/skills/cve/lib/spec.py`).

`read_spec_release_before_dist` looks for a `Release` line in the preamble and takes what stands before its
last dist macro.  `apply_release_bump` bumps that and writes a line of its own: the bumped release, and what
the first `Release` line of the file has from its first percent sign on.  Texts are as Python reads them,
with the ends of lines translated.

**`bump_reads_back_iff`** — a bump that is written reads back, with everything else as it was, exactly if the
first `Release` line has a value and no percent sign stands in it before the last dist macro.
-/
import HummingbirdRpms.LocalNvr
import HummingbirdRpms.RebuildRelease
import HummingbirdRpms.SbomSearch

namespace HummingbirdRpms.CveReleaseBump

open Lib Lib.Text Lib.Regex
open Value (Entries entry)

/-! ## The helper -/

/-- The files of a checkout that the bump looks at, by package. -/
structure Checkout where
  root : Str
  spec : Str → Option Str
  metadata : Str → Option Str

namespace Checkout

variable (c : Checkout) (package : Str)

def specPath : Str := c.root ++ "/rpms/".toList ++ package ++ "/".toList ++ package ++ ".spec".toList

def metadataPath : Str := c.root ++ "/metadata/".toList ++ package ++ ".json".toList

/-- The checkout with another spec. -/
def withSpec (text : Str) : Checkout := { c with spec := Function.update c.spec package (some text) }

end Checkout

/-- `release_bump_payload` -/
structure ReleaseBump where
  package : Str
  modificationStatus : Value
  metadataRelease : Str
  specRelease : Str
  usesAutorelease : Bool
  proposedSpecRelease : Str
  writes : Bool := false
  hint : Str
  note : Str :=
    "Do not change metadata release for backports or rebuilds; only the spec Release: line gets the .N suffix."

section

variable [UnicodeTables]

/-- `^(.*)%\{\??dist\}(.*)$` -/
def distMatchRe : Re :=
  Re.seq [.bos, .group 1 (.many true (· != '\n')), distRe, .group 2 (.many true (· != '\n')), .eot]

/-- The part of a release before the dist macro. -/
def releaseBeforeDist (raw : Str) : Str :=
  match search distMatchRe raw with
  | some m => strip (m.group 1)
  | none => raw

/-- Whether `%autorelease` is used. -/
def hasAutorelease (raw : Str) : Bool :=
  contains "%autorelease" (lowerAscii raw) || contains "%\x7bautorelease\x7d" (lowerAscii raw)

/-- `read_spec_release_before_dist`, on the text of the spec. -/
def readRelease (text : Str) : Option (Str × Bool) :=
  (search (specFieldRe "release") (specPreamble text)).map fun m =>
    let raw := strip (m.group 1)
    (releaseBeforeDist raw, hasAutorelease raw)

/-- `read_spec_release_before_dist` -/
def readSpecReleaseBeforeDist (c : Checkout) (package : Str) : Except Exn (Str × Bool) :=
  match c.spec package with
  | none => .error (.raised .runtimeError ("Spec not found: ".toList ++ c.specPath package))
  | some text =>
      match readRelease text with
      | some release => .ok release
      | none => .error (.raised .runtimeError ("No Release: line in ".toList ++ c.specPath package))

/-- `read_package_metadata`; `loads` parses JSON or says what is wrong. -/
def readPackageMetadata (loads : Str → Except Str Value) (c : Checkout) (package : Str) : Except Exn Entries :=
  let path := c.metadataPath package
  match c.metadata package with
  | none => .error (.raised .runtimeError ("Metadata not found: ".toList ++ path))
  | some text =>
      match loads text with
      | .error err =>
          .error (.raised .runtimeError ("Invalid JSON in ".toList ++ path ++ ": ".toList ++ err))
      | .ok (.dict data) => .ok data
      | .ok _ => .error (.raised .runtimeError ("Metadata ".toList ++ path ++ " is not an object".toList))

/-- The release that is proposed, and the hint. -/
def proposeRelease (specRelease : Str) (usesAutorelease : Bool) (metadataRelease : Str) : Str × Str :=
  if usesAutorelease then
    ([], "spec uses %autorelease; resolve it before a .N bump (see documentation/operating/rebuilding-packages.md)")
  else if specRelease = [] then ([], "could not parse spec Release:")
  else (bumpRelease specRelease (some metadataRelease), "print only; do not write the spec or metadata release")

/-- `release_bump_payload` -/
def releaseBumpPayload (loads : Str → Except Str Value) (c : Checkout) (package : Str) :
    Except Exn ReleaseBump := do
  let metadata ← readPackageMetadata loads c package
  let metadataRelease := fieldText "release" metadata
  let (specRelease, usesAutorelease) ← readSpecReleaseBeforeDist c package
  let (proposed, hint) := proposeRelease specRelease usesAutorelease metadataRelease
  let status := entry "modification_status" metadata
  return { package, modificationStatus := if status.truthy then status else .str [], metadataRelease, specRelease,
           usesAutorelease, proposedSpecRelease := proposed, hint }

/-- `^Release:\s*.+$` under `re.IGNORECASE` -/
def releaseLineRe : Re :=
  Re.seq [.bol, Re.ilit "release", .lit ":", .many true isSpace, Re.some1 (· != '\n'), .eol]

/-- `replace_release`: the line from its first percent sign on is kept. -/
def replaceRelease (proposed line : Str) : Str :=
  "Release:        ".toList ++ (proposed ++ line.dropWhile (· != '%'))

/-- A spec text with its first `Release` line rewritten, if it has one. -/
def setReleaseLine (proposed text : Str) : Option Str :=
  (search releaseLineRe text).map fun _ =>
    sub1 releaseLineRe (fun m => replaceRelease proposed (m.whole text)) text

/-- `apply_release_bump`: what it returns, and the text that it writes, if it does. -/
def applyReleaseBump (loads : Str → Except Str Value) (c : Checkout) (package : Str) :
    Except Exn (ReleaseBump × Option Str) := do
  let payload ← releaseBumpPayload loads c package
  let proposed := payload.proposedSpecRelease
  if proposed = [] ∨ payload.usesAutorelease = true then return (payload, none)
  else
    match (c.spec package).bind (setReleaseLine proposed) with
    | none => return (payload, none)
    | some new =>
        return ({ payload with
          writes := true
          hint := "updated ".toList ++ package ++ ".spec Release to ".toList ++ proposed }, some new)

end

/-! ## What a bump should do -/

/-- A `Release` tag at the start of a line. -/
def TagStart (t : Str) (i : Nat) : Prop := LineStart t i ∧ tagFront "release" (t.drop i) = true

/-- The first line of a text that begins with the tag. -/
structure ReleaseLine (text front line rest : Str) : Prop where
  eq : text = front ++ (line ++ rest)
  start : front = [] ∨ front.getLast? = some '\n'
  first : ∀ i < front.length, ¬ TagStart front i
  tag : tagFront "release" line = true
  one : '\n' ∉ line
  rest : rest = [] ∨ rest.head? = some '\n'

/-- A line from its last dist macro on. -/
def fromDist (line : Str) : Option Str := (splitLastDist line).map fun s => s.2.1 ++ s.2.2

/-- A value before its last dist macro, all of it without one. -/
def beforeDist (value : Str) : Str :=
  match splitLastDist value with
  | some s => s.1
  | none => value

section

variable [UnicodeTables]

/-- The value on a `Release` line. -/
def fieldValue (line : Str) : Str := strip (line.drop 8)

/-- The new text reads back as the release, and has the lines of the old one except for the `Release` line,
which is the same from its dist macro on. -/
def ReadsBack (c : Checkout) (package release text new : Str) : Prop :=
  (∃ uses, readSpecReleaseBeforeDist (c.withSpec package new) package = .ok (release, uses)) ∧
    ∃ front line line' rest, ReleaseLine text front line rest ∧ new = front ++ (line' ++ rest) ∧ '\n' ∉ line' ∧
      fromDist line' = fromDist line

/-- The condition: the first `Release` line has a value, and before its dist macro there is no percent sign. -/
def PlainRelease (text : Str) : Prop :=
  ∃ front line rest, ReleaseLine text front line rest ∧ fieldValue line ≠ [] ∧ '%' ∉ beforeDist (fieldValue line)

end

/-! ## Values with a dist macro -/

section

variable {u v value before dist after : Str}

theorem distPrefix_of_ne {c : Char} (hc : c ≠ '%') : distPrefix (c :: u) = none := by
  cases h : distPrefix (c :: u) with
  | none => rfl
  | some d =>
      obtain ⟨hmem, w, hw⟩ := distPrefix_some h
      have hhead := distSpellings_head hmem
      rw [List.head?_eq_some_iff] at hhead
      obtain ⟨d', rfl⟩ := hhead
      exact absurd (List.cons.inj hw).1.symm hc

/-- In front of the last dist macro anything can be put. -/
theorem splitLastDist_append_some (h : splitLastDist v = some (before, dist, after)) :
    splitLastDist (u ++ v) = some (u ++ before, dist, after) := by
  induction u with
  | nil => exact h
  | cons c u ih =>
      rw [List.cons_append, splitLastDist, ih]
      rfl

/-- Text without a percent sign makes no dist macro. -/
theorem splitLastDist_append (hu : '%' ∉ u) :
    splitLastDist (u ++ v) = (splitLastDist v).map fun s => (u ++ s.1, s.2) := by
  induction u with
  | nil => simp
  | cons c u ih =>
      rw [List.mem_cons, not_or] at hu
      have hnone : distPrefix (c :: (u ++ v)) = none := distPrefix_of_ne (Ne.symm hu.1)
      rw [List.cons_append, splitLastDist, ih hu.2, hnone]
      cases splitLastDist v with
      | none => rfl
      | some s => rfl

theorem beforeDist_append (hu : '%' ∉ u) : beforeDist (u ++ v) = u ++ beforeDist v := by
  rw [beforeDist, beforeDist, splitLastDist_append hu]
  cases splitLastDist v with
  | none => rfl
  | some s => rfl

theorem fromDist_append (hu : '%' ∉ u) : fromDist (u ++ v) = fromDist v := by
  rw [fromDist, fromDist, splitLastDist_append hu, Option.map_map]
  rfl

theorem beforeDist_begins (v : Str) : beforeDist v <+: v := by
  unfold beforeDist
  split
  · rename_i s h
    obtain ⟨before, dist, after⟩ := s
    rw [(splitLastDist_some h).1.eq, List.append_assoc]
    exact List.prefix_append _ _
  · exact List.prefix_rfl

/-- From the first percent sign on, a value without one before its dist macro is the macro and what follows. -/
theorem beforeDist_percent (hv : v = [] ∨ v.head? = some '%') : '%' ∉ beforeDist v ↔ beforeDist v = [] := by
  constructor
  · intro h
    obtain ⟨w, hw⟩ := beforeDist_begins v
    cases hb : beforeDist v with
    | nil => rfl
    | cons c cs =>
        rw [hb] at hw h
        rcases hv with rfl | hhead
        · cases hw
        · rw [← hw] at hhead
          obtain rfl : c = '%' := Option.some.inj hhead
          exact absurd List.mem_cons_self h
  · intro h
    rw [h]
    exact List.not_mem_nil

/-- What is read of a value is what stands before its last dist macro. -/
theorem releaseBeforeDist_eq (hone : '\n' ∉ value) (hstrip : strip value = value) :
    releaseBeforeDist value = strip (beforeDist value) := by
  have hline : LineAt value 0 value [] := ⟨by rw [List.drop_zero, List.append_nil], hone, Or.inl rfl⟩
  unfold beforeDist
  cases hcut : splitLastDist value with
  | none =>
      have hsearch : search distMatchRe value = none := by
        rw [search_eq_none_iff]
        intro i _
        rw [List.eq_nil_iff_forall_not_mem]
        intro e he
        obtain ⟨m, hm, he⟩ := mem_run_seq_cons.mp he
        obtain ⟨m', hm', he⟩ := mem_run_seq_cons.mp he
        obtain ⟨m'', hm'', -⟩ := mem_run_seq_cons.mp he
        rw [run_distRe_none (splitLastDist_none hcut _)] at hm''
        exact absurd hm'' List.not_mem_nil
      rw [releaseBeforeDist, hsearch]
      exact hstrip.symm
  | some s =>
      obtain ⟨before, dist, after⟩ := s
      obtain ⟨hdist, hafter, hlen⟩ := (splitLastDist_some hcut).1.lineAt hline
      have hbefore : (value.drop 0).take before.length = before := by
        rw [List.drop_zero, (splitLastDist_some hcut).1.eq, List.append_assoc, List.take_left]
      have hend : ∀ caps, (run value (.cat (.group 2 (.many true (· != '\n'))) .eot)
          ⟨0 + before.length + dist.length, caps⟩).head? = some ⟨value.length, (2, after) :: caps⟩ := by
        intro caps
        have hmany : Greedy value (.many true (· != '\n')) ⟨0 + before.length + dist.length, caps⟩ 0
            (Regex.spanLen value (· != '\n') (0 + before.length + dist.length))
            fun k => ⟨0 + before.length + dist.length + k, caps⟩ := greedy_many
        rw [hafter.spanLen] at hmany
        refine (hmany.group (i := 2) fun k => rfl).head?_cat (Nat.zero_le _) le_rfl ?_
          fun j hj hle => absurd hle (by omega)
        have htake : (value.drop (0 + before.length + dist.length)).take after.length = after := by
          rw [hafter.drop, List.take_left]
        show (run value .eot ⟨0 + before.length + dist.length + after.length,
          (2, (value.drop (0 + before.length + dist.length)).take after.length) :: caps⟩).head? = _
        rw [htake, hlen, Nat.zero_add, run_eot, if_pos (Or.inl le_rfl)]
        rfl
      have hrun : (run value distMatchRe ⟨0, []⟩).head? = some ⟨value.length, [(2, after), (1, before)]⟩ := by
        have hbos : run value .bos ⟨0, []⟩ = [⟨0, []⟩] := rfl
        rw [distMatchRe, Re.seq, run_cat, hbos, List.flatMap_singleton]
        refine head?_lastDist hline hcut (greedy_many.group fun k => rfl) (fun k => rfl) ?_
        show (run value _ ⟨_, [(1, (value.drop 0).take before.length)]⟩).head? = _
        rw [hbefore]
        exact hend _
      have hsearch : search distMatchRe value = some ⟨0, value.length, [(2, after), (1, before)]⟩ :=
        search_eq_some (Nat.zero_le _) (fun j hj => absurd hj (Nat.not_lt_zero j)) (matchAt_of_head? hrun)
      rw [releaseBeforeDist, hsearch]
      rfl

end

/-! ## The fields that the patterns find -/

/-- `^Release:\s*` under `re.IGNORECASE`, and what follows it. -/
def tagRe (r : Re) : Re := Re.seq [.bol, Re.ilit "release", .lit ":", .many true isSpace, r]

theorem specFieldRe_eq : specFieldRe "release" = tagRe (.cat (.group 1 (Re.some1 (· != '\n'))) .eol) := rfl

theorem releaseLineRe_eq : releaseLineRe = tagRe (.cat (Re.some1 (· != '\n')) .eol) := rfl

/-- A tag at the start of a line, white space, and the line on which that ends. -/
structure TagAt (t : Str) (i : Nat) (tag gap line rest : Str) : Prop where
  start : LineStart t i
  same : List.Forall₂ (fun c d => Re.foldEq c d = true) "release".toList tag
  drop : t.drop i = tag ++ (':' :: (gap ++ (line ++ rest)))
  gap_all : ∀ c ∈ gap, isSpace c = true
  head : ∃ c ∈ line.head?, isSpace c = false
  one : '\n' ∉ line
  rest : rest = [] ∨ rest.head? = some '\n'

section

variable {t tag gap line rest : Str} {i : Nat} {r : Re} {e : St}

theorem TagAt.length_tag (h : TagAt t i tag gap line rest) : tag.length = 7 := h.same.length_eq.symm

theorem TagAt.line_ne (h : TagAt t i tag gap line rest) : line ≠ [] := by
  rintro rfl
  obtain ⟨c, hc, -⟩ := h.head
  cases hc

theorem TagAt.drop_gap (h : TagAt t i tag gap line rest) : t.drop (i + 8) = gap ++ (line ++ rest) := by
  have hcolon := drop_add_length h.drop
  rw [h.length_tag] at hcolon
  rw [show i + 8 = i + 7 + 1 by omega, ← List.drop_drop, hcolon]
  rfl

theorem TagAt.lineAt (h : TagAt t i tag gap line rest) : LineAt t (i + 8 + gap.length) line rest where
  drop := drop_add_length h.drop_gap
  one := h.one
  rest := h.rest

/-- The white space is taken as a whole if what follows it can go on from there. -/
theorem TagAt.head?_tagRe (h : TagAt t i tag gap line rest)
    (hr : (run t r ⟨i + 8 + gap.length, []⟩).head? = some e) : (run t (tagRe r) ⟨i, []⟩).head? = some e := by
  have hcolon := drop_add_length h.drop
  rw [h.length_tag] at hcolon
  have hbol : run t .bol ⟨i, []⟩ = [⟨i, []⟩] := h.start.run_bol
  have htag : run t (Re.ilit "release") ⟨i, []⟩ = [⟨i + 7, []⟩] := run_ilit_of_same h.drop h.same
  have hlit : run t (.lit ":") ⟨i + 7, []⟩ = [⟨i + 8, []⟩] := run_lit_of_drop (s := ⟨i + 7, []⟩) hcolon
  have hstop : inClass isSpace (line ++ rest).head? = false := by
    obtain ⟨c, hc, hspace⟩ := h.head
    rw [List.head?_append, hc]
    exact hspace
  have hgap := run_many_of_drop (s := ⟨i + 8, []⟩) h.drop_gap h.gap_all hstop
  rw [tagRe, Re.seq, run_cat, hbol, List.flatMap_singleton, Re.seq, run_cat, htag, List.flatMap_singleton, Re.seq,
    run_cat, hlit, List.flatMap_singleton, Re.seq, head?_cat, hgap, List.findSome?_cons]
  dsimp only
  rw [Re.seq, hr]

/-- The reader's match. -/
theorem TagAt.matchAt_field (h : TagAt t i tag gap line rest) :
    matchAt (specFieldRe "release") t i = some ⟨i, i + 8 + gap.length + line.length, [(1, line)]⟩ :=
  matchAt_of_head? (h.head?_tagRe (h.lineAt.head?_groupSome h.line_ne 1 []))

/-- The writer's match. -/
theorem TagAt.matchAt_line (h : TagAt t i tag gap line rest) :
    matchAt releaseLineRe t i = some ⟨i, i + 8 + gap.length + line.length, []⟩ :=
  matchAt_of_head? (h.head?_tagRe (h.lineAt.head?_some h.line_ne []))

/-- Where one of the patterns matches there is a tag. -/
theorem tagStart_of_run (h : run t (tagRe r) ⟨i, []⟩ ≠ []) : TagStart t i := by
  obtain ⟨e, he⟩ := List.exists_mem_of_ne_nil _ h
  obtain ⟨m, hm, he⟩ := mem_run_seq_cons.mp he
  obtain ⟨hstart, rfl⟩ := mem_run_bol.mp hm
  obtain ⟨m, hm, he⟩ := mem_run_seq_cons.mp he
  obtain ⟨x, hx, hsame, rfl⟩ := mem_run_ilit.mp hm
  obtain ⟨m, hm, -⟩ := mem_run_seq_cons.mp he
  obtain ⟨hcolon, -⟩ := mem_run_lit.mp hm
  rw [hsame.length_eq] at hcolon
  exact ⟨hstart, tagFront_iff.mpr ⟨x, hsame, prefix_drop_append hx hcolon⟩⟩

/-- A tag with something behind it is found. -/
theorem exists_tagAt (h : TagStart t i) (hsolid : ∃ c ∈ t.drop (i + 8), isSpace c = false) :
    ∃ tag gap line rest, TagAt t i tag gap line rest := by
  obtain ⟨hstart, htag⟩ := h
  obtain ⟨tag, hsame, u, hu⟩ := tagFront_iff.mp htag
  have hlen : tag.length = 7 := hsame.length_eq.symm
  have hdrop : t.drop (i + 8) = u := by
    rw [← List.drop_drop, ← hu, List.append_assoc, show 8 = tag.length + 1 by omega, ← List.drop_drop,
      List.drop_left]
    rfl
  rw [hdrop] at hsolid
  obtain ⟨c, hc, hspace⟩ := hsolid
  obtain ⟨d, v, hv⟩ : ∃ d v, u.dropWhile isSpace = d :: v := by
    apply List.exists_cons_of_ne_nil
    rw [ne_eq, List.dropWhile_eq_nil_iff]
    intro hall
    rw [hall c hc] at hspace
    cases hspace
  have hd : isSpace d = false := by
    have hnot := List.head?_dropWhile_not isSpace u
    rw [hv] at hnot
    simpa using hnot
  have hnewline : (d != '\n') = true := by
    rw [bne_iff_ne]
    rintro rfl
    exact absurd hd (by decide)
  have htake : (d :: v).takeWhile (· != '\n') = d :: v.takeWhile (· != '\n') := List.takeWhile_cons_of_pos hnewline
  refine ⟨tag, u.takeWhile isSpace, (d :: v).takeWhile (· != '\n'), (d :: v).dropWhile (· != '\n'), hstart, hsame,
    ?_, fun c hc => List.mem_takeWhile_imp hc, ⟨d, ?_, hd⟩, fun hmem => ?_, ?_⟩
  · rw [List.takeWhile_append_dropWhile, ← hv, List.takeWhile_append_dropWhile, ← hu, List.append_assoc]
    rfl
  · rw [htake]
    rfl
  · have hne := List.mem_takeWhile_imp hmem
    simp at hne
  · cases hrest : (d :: v).dropWhile (· != '\n') with
    | nil => exact Or.inl rfl
    | cons c w =>
        have hnot := List.head?_dropWhile_not (· != '\n') (d :: v)
        rw [hrest] at hnot
        exact Or.inr (by simpa using hnot)

end

/-! ## The first field of a text -/

section

variable {t text front tag gap line rest u v w s : Str} {j n : Nat} {r : Re} {m : Match}

theorem getLast?_drop_lines (hends : front = [] ∨ front.getLast? = some '\n') (hj : j < front.length) :
    (front.drop j).getLast? = some '\n' := by
  rcases hends with rfl | hlast
  · cases hj
  · rw [List.getLast?_drop, if_neg (by omega), hlast]

/-- Whether a line of the first part begins with the tag does not depend on what follows that part. -/
theorem tagStart_append (hends : front = [] ∨ front.getLast? = some '\n') (hj : j < front.length) :
    TagStart (front ++ u) j ↔ TagStart front j := by
  refine and_congr (lineStart_append hj.le) ?_
  rw [List.drop_append_of_le_length hj.le, tagFront_iff, tagFront_iff]
  refine exists_congr fun x => and_congr_right fun hsame => ?_
  have hx : '\n' ∉ x ++ [':'] := by
    intro hmem
    rcases List.mem_append.mp hmem with hmem | hmem
    · exact newline_not_mem_same (by decide) hsame hmem
    · exact absurd hmem (by decide)
  exact prefix_append_lines hx (getLast?_drop_lines hends hj)

/-- Nor does whether it is the head of a section. -/
theorem section_append [UnicodeTables] (hends : front = [] ∨ front.getLast? = some '\n') (hj : j < front.length)
    (h : run (front ++ u) sectionHeadRe ⟨j, []⟩ ≠ []) : run (front ++ v) sectionHeadRe ⟨j, []⟩ ≠ [] := by
  obtain ⟨hstart, name, hname, hprefix, hnext⟩ := sectionHead_run_iff.mp h
  have hlast := getLast?_drop_lines hends hj
  have hnewline : '\n' ∉ '%' :: name := newline_not_mem_section hname
  rw [List.drop_append_of_le_length hj.le, prefix_append_lines hnewline hlast] at hprefix
  have hlt : j + 1 + name.length < front.length := by
    -- otherwise the head would end with the newline
    by_contra hge
    have hlen := hprefix.length_le
    rw [List.length_cons, List.length_drop] at hlen
    have heq := hprefix.eq_of_length (by rw [List.length_cons, List.length_drop]; omega)
    rw [← heq] at hlast
    exact hnewline (List.mem_of_getLast? hlast)
  rw [List.getElem?_append_left hlt] at hnext
  refine sectionHead_run_iff.mpr
    ⟨(lineStart_append hj.le).mpr ((lineStart_append hj.le).mp hstart), name, hname, ?_, ?_⟩
  · rw [List.drop_append_of_le_length hj.le]
    exact hprefix.trans (List.prefix_append _ _)
  · rwa [List.getElem?_append_left hlt]

theorem not_mem_same {word x : Str} {a : Char} (ha : ∀ b ∈ word, Re.foldEq b a = false)
    (h : List.Forall₂ (fun c d => Re.foldEq c d = true) word x) : a ∉ x := by
  induction h with
  | nil => exact List.not_mem_nil
  | cons hcd _ ih =>
      rw [List.mem_cons, not_or]
      refine ⟨?_, ih fun b hb => ha b (List.mem_cons_of_mem _ hb)⟩
      rintro rfl
      rw [ha _ List.mem_cons_self] at hcd
      cases hcd

/-- The first tag of a text with something behind it. -/
structure Field (text front tag gap line rest : Str) : Prop where
  eq : text = front ++ (tag ++ (':' :: (gap ++ (line ++ rest))))
  ends : front = [] ∨ front.getLast? = some '\n'
  first : ∀ j < front.length, ¬ TagStart front j
  same : List.Forall₂ (fun c d => Re.foldEq c d = true) "release".toList tag
  gap_all : ∀ c ∈ gap, isSpace c = true
  head : ∃ c ∈ line.head?, isSpace c = false
  one : '\n' ∉ line
  rest : rest = [] ∨ rest.head? = some '\n'

theorem Field.tagAt (h : Field text front tag gap line rest) : TagAt text front.length tag gap line rest where
  start := by
    rcases h.ends with hnil | hlast
    · exact Or.inl (List.length_eq_zero_iff.mpr hnil)
    · right
      rw [h.eq, prev?_length_append, hlast]
  same := h.same
  drop := by rw [h.eq, List.drop_left]
  gap_all := h.gap_all
  head := h.head
  one := h.one
  rest := h.rest

/-- The first field is where a search finds its match. -/
theorem Field.search_eq (h : Field text front tag gap line rest)
    (hm : matchAt (tagRe r) text front.length = some m) : search (tagRe r) text = some m := by
  have hle : front.length ≤ text.length := by
    rw [h.eq, List.length_append]
    omega
  refine search_eq_some hle (fun j hj => ?_) hm
  apply matchAt_none_of_run
  by_contra hrun
  have hstart := tagStart_of_run hrun
  rw [h.eq, tagStart_append h.ends hj] at hstart
  exact h.first j hj hstart

theorem Field.search_field (h : Field text front tag gap line rest) :
    search (specFieldRe "release") text =
      some ⟨front.length, front.length + 8 + gap.length + line.length, [(1, line)]⟩ :=
  h.search_eq h.tagAt.matchAt_field

theorem Field.search_line (h : Field text front tag gap line rest) :
    search releaseLineRe text = some ⟨front.length, front.length + 8 + gap.length + line.length, []⟩ :=
  h.search_eq h.tagAt.matchAt_line

theorem exists_of_strip (h : strip s ≠ []) : ∃ c ∈ s, isSpace c = false := by
  obtain ⟨c, w, hw⟩ := List.exists_cons_of_ne_nil h
  have hmem : c ∈ s := (strip_sublist s).subset (by rw [hw]; exact List.mem_cons_self)
  have hself := lstripBy_of_prefix (show strip s = [c] ++ w from hw)
  refine ⟨c, hmem, ?_⟩
  cases hc : isSpace c with
  | false => rfl
  | true =>
      rw [lstripBy, List.dropWhile_cons_of_pos hc] at hself
      cases hself

/-- What the reader captures stands behind the tag. -/
theorem mem_group (h : matchAt (specFieldRe "release") t j = some m) : ∀ c ∈ m.group 1, c ∈ t.drop (j + 8) := by
  obtain ⟨e, he, rfl⟩ := Option.map_eq_some_iff.mp h
  have hrun := List.mem_of_head? he
  rw [specFieldRe_eq] at hrun
  obtain ⟨e₁, hbol, hrun⟩ := mem_run_seq_cons.mp hrun
  obtain ⟨-, rfl⟩ := mem_run_bol.mp hbol
  obtain ⟨e₂, htag, hrun⟩ := mem_run_seq_cons.mp hrun
  obtain ⟨x, -, -, rfl⟩ := mem_run_ilit.mp htag
  obtain ⟨e₃, hcolon, hrun⟩ := mem_run_seq_cons.mp hrun
  obtain ⟨-, rfl⟩ := mem_run_lit.mp hcolon
  obtain ⟨e₄, hgap, hrun⟩ := mem_run_seq_cons.mp hrun
  obtain ⟨k, -, rfl⟩ := mem_run_many.mp hgap
  obtain ⟨e₅, hgroup, hrun⟩ := mem_run_cat.mp hrun
  obtain ⟨e₆, hline, rfl⟩ := mem_run_group.mp hgroup
  obtain ⟨-, rfl⟩ := mem_run_eol.mp hrun
  intro c hc
  have htake : c ∈ (t.drop (j + 8 + k)).take (e₆.pos - (j + 8 + k)) := hc
  rw [← List.drop_drop] at htake
  exact List.mem_of_mem_drop (List.mem_of_mem_take htake)

/-- A value that is read is that of the first field. -/
theorem exists_field (hm : search (specFieldRe "release") text = some m) (hvalue : strip (m.group 1) ≠ []) :
    ∃ front tag gap rest, Field text front tag gap (m.group 1) rest := by
  obtain ⟨hle, hmatch, hbefore⟩ := exists_of_search hm
  have hstart : TagStart text m.start := by
    apply tagStart_of_run
    rw [← specFieldRe_eq, ← matchAt_isSome_iff, hmatch]
    rfl
  obtain ⟨c, hc, hspace⟩ := exists_of_strip hvalue
  have hsolid := mem_group hmatch c hc
  obtain ⟨tag, gap, line, rest, htag⟩ := exists_tagAt hstart ⟨c, hsolid, hspace⟩
  have heq := hmatch.symm.trans htag.matchAt_field
  have hline : m.group 1 = line := by
    rw [Option.some.inj heq]
    rfl
  rw [hline]
  have hlen : (text.take m.start).length = m.start := List.length_take_of_le hle
  have hcut : text = text.take m.start ++ (tag ++ (':' :: (gap ++ (line ++ rest)))) := by
    rw [← htag.drop, List.take_append_drop]
  have hends : text.take m.start = [] ∨ (text.take m.start).getLast? = some '\n' := by
    rcases htag.start with hzero | hprev
    · left
      rw [hzero, List.take_zero]
    · right
      have hlast := prev?_length_append (x := text.take m.start) (u := tag ++ (':' :: (gap ++ (line ++ rest))))
      rw [← hcut, hlen, hprev] at hlast
      exact hlast.symm
  refine ⟨text.take m.start, tag, gap, rest, hcut, hends, ?_, htag.same, htag.gap_all, htag.head, htag.one,
    htag.rest⟩
  intro j hj htagged
  rw [hlen] at hj
  have htagged' : TagStart text j := by
    have happend := (tagStart_append (u := tag ++ (':' :: (gap ++ (line ++ rest)))) hends
      (by rw [hlen]; exact hj)).mpr htagged
    rwa [← hcut] at happend
  have hlater : c ∈ text.drop (j + 8) := by
    rw [show m.start + 8 = j + 8 + (m.start - j) by omega, ← List.drop_drop] at hsolid
    exact List.mem_of_mem_drop hsolid
  obtain ⟨_, _, _, _, hearlier⟩ := exists_tagAt htagged' ⟨c, hlater, hspace⟩
  have hnone := hbefore j hj
  rw [hearlier.matchAt_field] at hnone
  cases hnone

end

/-! ## The preamble -/

section

variable [UnicodeTables] {text front tag gap line rest body : Str} {j : Nat}

/-- The preamble is made of the lines before the head of the first section. -/
theorem preamble_cut (text : Str) : ∃ body, text = specPreamble text ++ body ∧
    (body = [] ∨ specPreamble text = [] ∨ (specPreamble text).getLast? = some '\n') ∧
    ∀ j < (specPreamble text).length, run text sectionHeadRe ⟨j, []⟩ = [] := by
  cases hm : search sectionHeadRe text with
  | none =>
      have hwhole : specPreamble text = text := by rw [specPreamble, hm]
      rw [hwhole]
      refine ⟨[], (List.append_nil _).symm, Or.inl rfl, fun j hj => ?_⟩
      exact search_eq_none_iff.mp hm j hj.le
  | some m =>
      have htake : specPreamble text = text.take m.start := by rw [specPreamble, hm]
      obtain ⟨hle, hmatch, hbefore⟩ := exists_of_search hm
      have hlen : (text.take m.start).length = m.start := List.length_take_of_le hle
      have hcut : text = text.take m.start ++ text.drop m.start := (List.take_append_drop _ _).symm
      rw [htake]
      refine ⟨text.drop m.start, hcut, Or.inr ?_, fun j hj => ?_⟩
      · have hrun : run text sectionHeadRe ⟨m.start, []⟩ ≠ [] := matchAt_isSome_iff.mp (by rw [hmatch]; rfl)
        rcases (sectionHead_run_iff.mp hrun).1 with hzero | hprev
        · left
          rw [hzero, List.take_zero]
        · right
          have hlast := prev?_length_append (x := text.take m.start) (u := text.drop m.start)
          rw [← hcut, hlen, hprev] at hlast
          exact hlast.symm
      · by_contra hrun
        rw [← ne_eq, ← matchAt_isSome_iff, hbefore j (by rw [hlen] at hj; exact hj)] at hrun
        cases hrun

omit [UnicodeTables] in
theorem Field.line_ne (h : Field text front tag gap line rest) : line ≠ [] := h.tagAt.line_ne

/-- The first field of the preamble is that of the text. -/
theorem Field.of_preamble (h : Field (specPreamble text) front tag gap line rest) :
    (∃ rest', Field text front tag gap line rest') ∧ ∀ j < front.length, run text sectionHeadRe ⟨j, []⟩ = [] := by
  obtain ⟨body, hcut, hbody, hnone⟩ := preamble_cut text
  constructor
  · refine ⟨rest ++ body, ?_, h.ends, h.first, h.same, h.gap_all, h.head, h.one, ?_⟩
    · conv_lhs => rw [hcut, h.eq]
      simp
    · rcases h.rest with rfl | hrest
      · -- the line ends the preamble, so that there is no section
        have hlast : (specPreamble text).getLast? = line.getLast? := by
          rw [h.eq, List.append_nil, show front ++ (tag ++ (':' :: (gap ++ line))) =
            (front ++ (tag ++ (':' :: gap))) ++ line by simp, List.getLast?_append_of_ne_nil _ h.line_ne]
        rcases hbody with rfl | hnil | hnewline
        · exact Or.inl rfl
        · rw [hnil] at hlast
          exact absurd (List.getLast?_eq_none_iff.mp hlast.symm) h.line_ne
        · rw [hlast] at hnewline
          exact absurd (List.mem_of_getLast? hnewline) h.one
      · right
        rw [List.head?_append, hrest]
        rfl
  · intro j hj
    refine hnone j ?_
    rw [h.eq, List.length_append]
    omega

/-- A line before which no section begins is in the preamble. -/
theorem Field.preamble (h : Field text front tag gap line rest) (hgap : '\n' ∉ gap)
    (hnone : ∀ j < front.length, run text sectionHeadRe ⟨j, []⟩ = []) :
    ∃ rest', Field (specPreamble text) front tag gap line rest' := by
  cases hm : search sectionHeadRe text with
  | none =>
      have hwhole : specPreamble text = text := by rw [specPreamble, hm]
      rw [hwhole]
      exact ⟨rest, h⟩
  | some m =>
      obtain ⟨hle, hmatch, -⟩ := exists_of_search hm
      have hrun : run text sectionHeadRe ⟨m.start, []⟩ ≠ [] := matchAt_isSome_iff.mp (by rw [hmatch]; rfl)
      obtain ⟨hstart, name, -, hprefix, -⟩ := sectionHead_run_iff.mp hrun
      have hline : text.drop front.length = (tag ++ (':' :: (gap ++ line))) ++ rest := by
        rw [h.eq, List.drop_left]
        simp
      have hone : '\n' ∉ tag ++ (':' :: (gap ++ line)) := by
        have htag := newline_not_mem_same (by decide) h.same
        simp [htag, hgap, h.one]
      have hbehind : (front ++ (tag ++ (':' :: (gap ++ line)))).length < m.start := by
        by_contra hshort
        rcases lt_trichotomy m.start front.length with hlt | heq | hlt
        · exact hrun (hnone _ hlt)
        · -- a tag is no head of a section
          rw [heq, hline] at hprefix
          have hsame : List.Forall₂ (fun c d => Re.foldEq c d = true) ('r' :: "elease".toList) tag := h.same
          obtain ⟨c, tag', hc, -, rfl⟩ := List.forall₂_cons_left_iff.mp hsame
          obtain ⟨u, hu⟩ := hprefix
          rw [← (List.cons.inj hu).1] at hc
          exact absurd hc (by decide)
        · obtain ⟨k, hk⟩ := Nat.exists_eq_add_of_lt hlt
          rw [hk] at hstart hshort
          rw [List.length_append] at hshort
          exact not_lineStart (k := k + 1) hline hone (Nat.succ_pos k) (by omega) hstart
      have htake : specPreamble text = text.take m.start := by rw [specPreamble, hm]
      obtain ⟨k, hk⟩ := Nat.exists_eq_add_of_lt hbehind
      have htext : text = (front ++ (tag ++ (':' :: (gap ++ line)))) ++ rest := by
        rw [h.eq]
        simp
      refine ⟨rest.take (k + 1), ?_, h.ends, h.first, h.same, h.gap_all, h.head, h.one, ?_⟩
      · rw [htake, hk, Nat.add_assoc]
        conv_lhs => rw [htext]
        rw [List.take_length_add_append]
        simp
      · rcases h.rest with hnil | hrest
        · left
          rw [hnil, List.take_nil]
        · right
          rw [List.head?_take, if_neg (Nat.succ_ne_zero k)]
          exact hrest

/-- What is read of a preamble with a field. -/
theorem Field.readRelease_eq (h : Field (specPreamble text) front tag gap line rest) :
    readRelease text = some (releaseBeforeDist (strip line), hasAutorelease (strip line)) := by
  rw [readRelease, h.search_field]
  rfl

omit [UnicodeTables] in
/-- What is written of a text with a field. -/
theorem Field.setReleaseLine_eq (h : Field text front tag gap line rest) (proposed : Str) :
    setReleaseLine proposed text =
      some (front ++ (replaceRelease proposed (tag ++ (':' :: (gap ++ line))) ++ rest)) := by
  have htag := h.tagAt.length_tag
  have hlen : (tag ++ (':' :: (gap ++ line))).length = 8 + gap.length + line.length := by
    simp only [List.length_append, List.length_cons]
    omega
  have hline : text.drop front.length = (tag ++ (':' :: (gap ++ line))) ++ rest := by
    rw [h.eq, List.drop_left]
    simp
  have hwhole : (⟨front.length, front.length + 8 + gap.length + line.length, []⟩ : Match).whole text =
      tag ++ (':' :: (gap ++ line)) := by
    show (text.drop front.length).take (front.length + 8 + gap.length + line.length - front.length) = _
    rw [hline, show front.length + 8 + gap.length + line.length - front.length =
      (tag ++ (':' :: (gap ++ line))).length by omega, List.take_left]
  have hbefore : text.take front.length = front := by rw [h.eq, List.take_left]
  have hafter : text.drop (front.length + 8 + gap.length + line.length) = rest := by
    rw [show front.length + 8 + gap.length + line.length =
      front.length + (tag ++ (':' :: (gap ++ line))).length by omega, ← List.drop_drop, hline, List.drop_left]
  rw [setReleaseLine, h.search_line, sub1, h.search_line]
  simp only [Option.map_some, Option.toList_some, splice, List.drop_zero, Nat.sub_zero, hwhole, hbefore, hafter]
  rw [List.append_assoc]

end

/-! ## What is written -/

section

variable [UnicodeTables] {loads : Str → Except Str Value} {c : Checkout} {package text new : Str}
  {payload : ReleaseBump}

theorem releaseBumpPayload_ok (h : releaseBumpPayload loads c package = .ok payload) :
    ∃ data specRelease uses, readPackageMetadata loads c package = .ok data ∧
      payload.metadataRelease = fieldText "release" data ∧
      readSpecReleaseBeforeDist c package = .ok (specRelease, uses) ∧ payload.usesAutorelease = uses ∧
      payload.proposedSpecRelease = (proposeRelease specRelease uses payload.metadataRelease).1 := by
  obtain ⟨data, hdata, h⟩ := Exec.except_bind_ok_iff.mp h
  obtain ⟨⟨specRelease, uses⟩, hread, h⟩ := Exec.except_bind_ok_iff.mp h
  obtain rfl := Except.ok.inj h
  exact ⟨data, specRelease, uses, hdata, rfl, hread, rfl, rfl⟩

/-- A release is proposed if one was read that does not come from `%autorelease`. -/
theorem proposeRelease_ne {specRelease metadataRelease : Str} {uses : Bool}
    (h : (proposeRelease specRelease uses metadataRelease).1 ≠ []) (huses : uses ≠ true) : specRelease ≠ [] ∧
      (proposeRelease specRelease uses metadataRelease).1 = bumpRelease specRelease (some metadataRelease) := by
  rw [proposeRelease, if_neg huses] at h ⊢
  by_cases hrelease : specRelease = []
  · rw [if_pos hrelease] at h
    exact absurd rfl h
  · rw [if_neg hrelease]
    exact ⟨hrelease, rfl⟩

/-- A bump that is written: the release that was read, and what is made of it. -/
theorem applyReleaseBump_writes (h : applyReleaseBump loads c package = .ok (payload, some new))
    (hspec : c.spec package = some text) : ∃ data specRelease uses,
      readPackageMetadata loads c package = .ok data ∧ specRelease ≠ [] ∧
      readRelease text = some (specRelease, uses) ∧ payload.proposedSpecRelease ≠ [] ∧
      payload.proposedSpecRelease = bumpRelease specRelease (some (fieldText "release" data)) ∧
      setReleaseLine payload.proposedSpecRelease text = some new := by
  obtain ⟨p, hp, h⟩ := Exec.except_bind_ok_iff.mp h
  obtain ⟨data, specRelease, uses, hdata, hmetadata, hread, huses, hproposed⟩ := releaseBumpPayload_ok hp
  have hrelease : readRelease text = some (specRelease, uses) := by
    rw [readSpecReleaseBeforeDist, hspec] at hread
    dsimp only at hread
    split at hread
    · rename_i release hrelease
      rw [hrelease, Except.ok.inj hread]
    · cases hread
  dsimp only at h
  split at h
  · cases Except.ok.inj h
  · rename_i hgo
    rw [not_or] at hgo
    obtain ⟨hne, hbump⟩ := proposeRelease_ne (by rw [← hproposed]; exact hgo.1) (by rw [← huses]; exact hgo.2)
    rw [hspec, Option.bind_some] at h
    split at h
    · cases Except.ok.inj h
    · rename_i new' hset
      cases Except.ok.inj h
      rw [hmetadata] at hbump hproposed
      exact ⟨data, specRelease, uses, hdata, hne, hrelease, hgo.1, hproposed.trans hbump, hset⟩

end

/-! ## The value that is read back -/

section

variable {p s s₁ s₂ u line trail : Str}

/-- A text that begins with something other than white space is cut in front of the white space at its end. -/
theorem exists_trail (hhead : ∃ c ∈ line.head?, isSpace c = false) :
    ∃ trail, line = strip line ++ trail ∧ Solid (strip line) ∧ ∀ c ∈ trail, isSpace c = true := by
  obtain ⟨c, hc, hspace⟩ := hhead
  obtain ⟨w, rfl⟩ := List.head?_eq_some_iff.mp hc
  have hleft : lstripBy isSpace (c :: w) = c :: w := List.dropWhile_cons_of_neg (by simp [hspace])
  have hstrip : strip (c :: w) = (c :: w).rdropWhile isSpace := by
    rw [strip, hleft]
    rfl
  have hne : strip (c :: w) ≠ [] := by
    rw [hstrip, ne_eq, List.rdropWhile_eq_nil_iff]
    intro hall
    rw [hall c List.mem_cons_self] at hspace
    cases hspace
  refine ⟨(c :: w).rtakeWhile isSpace, ?_, solid_strip hne, fun d hd => List.mem_rtakeWhile_imp hd⟩
  rw [hstrip, List.rdropWhile_append_rtakeWhile]

/-- A text is cut at its first percent sign. -/
theorem exists_percent (s : Str) : ∃ s₁ s₂, s = s₁ ++ s₂ ∧ '%' ∉ s₁ ∧ (s₂ = [] ∨ s₂.head? = some '%') := by
  refine ⟨s.takeWhile (· != '%'), s.dropWhile (· != '%'), List.takeWhile_append_dropWhile.symm, ?_, ?_⟩
  · intro hmem
    have hne := List.mem_takeWhile_imp hmem
    simp at hne
  · cases hs : s.dropWhile (· != '%') with
    | nil => exact Or.inl rfl
    | cons c w =>
        right
        have hnot := List.head?_dropWhile_not (· != '%') s
        rw [hs] at hnot
        simpa using hnot

/-- The line that is written: the release, and the old line from its first percent sign on. -/
theorem replaceRelease_eq (hu : '%' ∉ u) (h₁ : '%' ∉ s₁) (h₂ : s₂ = [] ∨ s₂.head? = some '%')
    (htrail : ∀ c ∈ trail, isSpace c = true) : ∃ trail' : Str, (∀ c ∈ trail', c ∈ trail) ∧
      fromDist (s₂ ++ trail') = fromDist (s₂ ++ trail) ∧
      replaceRelease p (u ++ (s₁ ++ (s₂ ++ trail))) = "Release:        ".toList ++ (p ++ (s₂ ++ trail')) := by
  have hskip : ∀ {a b : Str}, '%' ∉ a → (a ++ b).dropWhile (· != '%') = b.dropWhile (· != '%') := by
    intro a b ha
    refine List.dropWhile_append_of_pos fun c hc => ?_
    rw [bne_iff_ne]
    rintro rfl
    exact ha hc
  have hpercent : '%' ∉ trail := fun hmem => absurd (htrail _ hmem) (by decide)
  have hline : replaceRelease p (u ++ (s₁ ++ (s₂ ++ trail))) =
      "Release:        ".toList ++ (p ++ (s₂ ++ trail).dropWhile (· != '%')) := by
    show "Release:        ".toList ++ (p ++ (u ++ (s₁ ++ (s₂ ++ trail))).dropWhile (· != '%')) = _
    rw [hskip hu, hskip h₁]
  rw [hline]
  rcases h₂ with rfl | hhead
  · refine ⟨[], fun c hc => absurd hc List.not_mem_nil, ?_, ?_⟩
    · have hnone := fromDist_append (v := []) hpercent
      rw [List.append_nil] at hnone
      rw [List.nil_append, List.nil_append, hnone]
    · have hdrop := hskip (b := []) hpercent
      rw [List.append_nil] at hdrop
      rw [List.nil_append, hdrop, List.dropWhile_nil, List.nil_append]
  · obtain ⟨q, rfl⟩ := List.head?_eq_some_iff.mp hhead
    refine ⟨trail, fun c hc => hc, rfl, ?_⟩
    rw [List.cons_append, List.dropWhile_cons_of_neg (by decide)]

/-- A release with a percent sign behind it is not the release. -/
theorem strip_percent_ne {q : Str} (hp : Solid p) : strip (p ++ '%' :: q) ≠ p := by
  obtain ⟨c, hc, hspace⟩ := hp.head
  obtain ⟨w, rfl⟩ := List.head?_eq_some_iff.mp hc
  have hleft : lstripBy isSpace (c :: w ++ '%' :: q) = c :: w ++ '%' :: q :=
    List.dropWhile_cons_of_neg (by simp [hspace])
  obtain ⟨q', hq⟩ := rstripBy_append (p := isSpace) (a := c :: w) (c := '%') (by decide) q
  rw [strip, hleft, hq]
  intro heq
  cases List.append_right_eq_self.mp heq

/-- **`reads_back_iff`** — a release with what the old value has from its first percent sign on reads back exactly
if the old value has no percent sign before its last dist macro. -/
theorem reads_back_iff (h₁ : '%' ∉ s₁) (h₂ : s₂ = [] ∨ s₂.head? = some '%') (hp : Solid p)
    (hpercent : '%' ∉ beforeDist (s₁ ++ s₂) → '%' ∉ p) :
    strip (beforeDist (p ++ s₂)) = p ↔ '%' ∉ beforeDist (s₁ ++ s₂) := by
  have hnone : '%' ∉ beforeDist (s₁ ++ s₂) ↔ beforeDist s₂ = [] := by
    rw [beforeDist_append h₁, List.mem_append, ← beforeDist_percent h₂]
    simp [h₁]
  constructor
  · intro hread
    rw [hnone]
    by_contra hsome
    obtain ⟨q, hq⟩ : ∃ q, beforeDist s₂ = '%' :: q := by
      obtain ⟨c, q, hq⟩ := List.exists_cons_of_ne_nil hsome
      obtain ⟨w, hw⟩ := beforeDist_begins s₂
      rw [hq] at hw
      rcases h₂ with rfl | hhead
      · cases hw
      · rw [← hw] at hhead
        exact ⟨q, by rw [hq, Option.some.inj hhead]⟩
    cases hcut : splitLastDist s₂ with
    | some cut =>
        obtain ⟨before, dist, after⟩ := cut
        have hbefore : before = '%' :: q := by rw [← hq, beforeDist, hcut]
        have hwhole : beforeDist (p ++ s₂) = p ++ before := by rw [beforeDist, splitLastDist_append_some hcut]
        rw [hwhole, hbefore] at hread
        exact strip_percent_ne hp hread
    | none =>
        have hs₂ : s₂ = '%' :: q := by rw [← hq, beforeDist, hcut]
        cases hcut' : splitLastDist (p ++ s₂) with
        | none =>
            have hwhole : beforeDist (p ++ s₂) = p ++ s₂ := by rw [beforeDist, hcut']
            rw [hwhole, hs₂] at hread
            exact strip_percent_ne hp hread
        | some cut =>
            -- a dist macro would stand in what follows the release
            obtain ⟨before, dist, after⟩ := cut
            have hwhole : beforeDist (p ++ s₂) = before := by rw [beforeDist, hcut']
            have hat := (splitLastDist_some hcut').1
            rw [hwhole] at hread
            have hlen : p.length ≤ before.length := by
              rw [← hread]
              exact (strip_sublist before).length_le
            have hpre : p <+: before := by
              refine List.prefix_of_prefix_length_le (List.prefix_append p s₂) ?_ hlen
              rw [hat.eq, List.append_assoc]
              exact List.prefix_append _ _
            obtain ⟨b, rfl⟩ := hpre
            have hs : s₂ = b ++ (dist ++ after) := by
              have heq := hat.eq
              rw [List.append_assoc, List.append_assoc] at heq
              exact List.append_cancel_left heq
            have hdist := splitLastDist_none hcut b.length
            rw [hs, List.drop_left, hat.dist] at hdist
            cases hdist
  · intro hplain
    rw [beforeDist_append (hpercent hplain), hnone.mp hplain, List.append_nil, strip_solid hp]

end

/-! ## What reads back -/

section

variable {text front tag gap line rest line' rest' front' release : Str} {uses : Bool}

/-- A release that was read is that of the first field of the preamble. -/
theorem exists_field_of_read [UnicodeTables] (h : readRelease text = some (release, uses)) (hne : release ≠ []) :
    ∃ front tag gap line rest, Field (specPreamble text) front tag gap line rest ∧
      release = releaseBeforeDist (strip line) := by
  obtain ⟨m, hm, heq⟩ := Option.map_eq_some_iff.mp h
  have hrelease : release = releaseBeforeDist (strip (m.group 1)) := (Prod.mk.inj heq).1.symm
  have hvalue : strip (m.group 1) ≠ [] := by
    intro hnil
    rw [hnil, releaseBeforeDist_eq List.not_mem_nil rfl] at hrelease
    exact hne hrelease
  obtain ⟨front, tag, gap, rest, hfield⟩ := exists_field hm hvalue
  exact ⟨front, tag, gap, _, rest, hfield, hrelease⟩

/-- The first line with the tag is where the first field is. -/
theorem Field.front_eq (h : Field text front tag gap line rest) (hl : ReleaseLine text front' line' rest') :
    front' = front ∧ line' ++ rest' = tag ++ (':' :: (gap ++ (line ++ rest))) := by
  have htag : tagFront "release" (tag ++ (':' :: (gap ++ (line ++ rest)))) = true :=
    tagFront_iff.mpr ⟨tag, h.same, ⟨gap ++ (line ++ rest), by simp⟩⟩
  have htag' : tagFront "release" (line' ++ rest') = true := by
    obtain ⟨x, hsame, hprefix⟩ := tagFront_iff.mp hl.tag
    exact tagFront_iff.mpr ⟨x, hsame, hprefix.trans (List.prefix_append _ _)⟩
  have hstart : TagStart text front.length := ⟨h.tagAt.start, by rw [h.eq, List.drop_left]; exact htag⟩
  have hstart' : TagStart text front'.length := by
    refine ⟨?_, by rw [hl.eq, List.drop_left]; exact htag'⟩
    rcases hl.start with hnil | hlast
    · exact Or.inl (List.length_eq_zero_iff.mpr hnil)
    · right
      rw [hl.eq, prev?_length_append, hlast]
  have hlen : front'.length = front.length := by
    rcases lt_trichotomy front'.length front.length with hlt | heq | hlt
    · rw [h.eq, tagStart_append h.ends hlt] at hstart'
      exact absurd hstart' (h.first _ hlt)
    · exact heq
    · rw [hl.eq, tagStart_append hl.start hlt] at hstart
      exact absurd hstart (hl.first _ hlt)
  exact List.append_inj (hl.eq.symm.trans h.eq) hlen

/-- The field stands on that line if its white space does. -/
theorem Field.releaseLine (h : Field text front tag gap line rest) (hgap : '\n' ∉ gap) :
    ReleaseLine text front (tag ++ (':' :: (gap ++ line))) rest where
  eq := by
    rw [h.eq]
    simp
  start := h.ends
  first := h.first
  tag := tagFront_iff.mpr ⟨tag, h.same, ⟨gap ++ line, by simp⟩⟩
  one := by
    have htag := newline_not_mem_same (by decide) h.same
    simp [htag, hgap, h.one]
  rest := h.rest

theorem Field.fieldValue_eq (h : Field text front tag gap line rest) :
    fieldValue (tag ++ (':' :: (gap ++ line))) = strip line := by
  obtain ⟨trail, hline, hsolid, htrail⟩ := exists_trail h.head
  have hdrop : (tag ++ (':' :: (gap ++ line))).drop 8 = gap ++ line := by
    have hlen : 8 = (tag ++ [':']).length := by
      rw [List.length_append, h.tagAt.length_tag]
      rfl
    rw [hlen, show tag ++ (':' :: (gap ++ line)) = (tag ++ [':']) ++ (gap ++ line) by simp, List.drop_left]
  rw [fieldValue, hdrop]
  conv_lhs => rw [hline]
  rw [← List.append_assoc, strip_padded h.gap_all hsolid htrail]

/-- A value that stands on a later line is not that of the line with the tag. -/
theorem Field.not_newline (h : Field text front tag gap line rest) (hl : ReleaseLine text front' line' rest')
    (hvalue : fieldValue line' ≠ []) : '\n' ∉ gap := by
  intro hmem
  obtain ⟨g, g', rfl, hg⟩ := List.eq_append_cons_of_mem hmem
  have htag := newline_not_mem_same (by decide) h.same
  have hcut : line' ++ rest' = (tag ++ (':' :: g)) ++ ('\n' :: (g' ++ (line ++ rest))) := by
    rw [(h.front_eq hl).2]
    simp
  obtain ⟨rfl, -⟩ := line_cancel hl.one (by simp [htag, hg]) hl.rest (Or.inr rfl) hcut
  have hdrop : (tag ++ (':' :: g)).drop 8 = g := by
    have hlen : 8 = (tag ++ [':']).length := by
      rw [List.length_append, h.tagAt.length_tag]
      rfl
    rw [hlen, show tag ++ (':' :: g) = (tag ++ [':']) ++ g by simp, List.drop_left]
  have hspaces : ∀ c ∈ g, isSpace c = true := fun c hc => h.gap_all c (List.mem_append_left _ hc)
  apply hvalue
  rw [fieldValue, hdrop, strip, lstripBy, List.dropWhile_eq_nil_iff.mpr hspaces]
  rfl

/-- The field of the new text. -/
theorem Field.written {p value : Str} (h : Field text front tag gap line rest) (hp : Solid p)
    (hone : '\n' ∉ p ++ value) : Field (front ++ (("Release:        ".toList ++ (p ++ value)) ++ rest)) front
      "Release" "        " (p ++ value) rest where
  eq := by
    simp only [List.append_assoc]
    rfl
  ends := h.ends
  first := h.first
  same := by decide
  gap_all := by decide
  head := by
    obtain ⟨c, hc, hspace⟩ := hp.head
    exact ⟨c, by rw [List.head?_append, hc]; rfl, hspace⟩
  one := hone
  rest := h.rest

end

/-! ## What a bump makes of a text -/

section

variable [UnicodeTables] {loads : Str → Except Str Value} {c : Checkout} {package : Str} {payload : ReleaseBump}
  {text new p front tag gap s₁ s₂ trail rest trail' : Str}

/-- What becomes of the first field of a text: its value is cut at the first percent sign, and what stands
before that is replaced by the release. -/
structure Bumped (text new p front tag gap s₁ s₂ trail rest trail' : Str) : Prop where
  field : Field text front tag gap ((s₁ ++ s₂) ++ trail) rest
  solid : Solid (s₁ ++ s₂)
  trail_space : ∀ c ∈ trail, isSpace c = true
  before : '%' ∉ s₁
  percent : s₂ = [] ∨ s₂.head? = some '%'
  trail_space' : ∀ c ∈ trail', isSpace c = true
  dist : fromDist (s₂ ++ trail') = fromDist (s₂ ++ trail)
  release : Solid p
  plain : '%' ∉ beforeDist (s₁ ++ s₂) → '%' ∉ p
  written : Field new front "Release" "        " (p ++ (s₂ ++ trail')) rest
  new_eq : new = front ++ (("Release:        ".toList ++ (p ++ (s₂ ++ trail'))) ++ rest)
  heads : ∀ j < front.length, run new sectionHeadRe ⟨j, []⟩ = []

/-- The release that is proposed stands at the front of the new value. -/
theorem exists_bumped (h : applyReleaseBump loads c package = .ok (payload, some new))
    (hspec : c.spec package = some text) : ∃ data front tag gap s₁ s₂ trail rest trail',
      readPackageMetadata loads c package = .ok data ∧
      payload.proposedSpecRelease =
        bumpRelease (strip (beforeDist (s₁ ++ s₂))) (some (fieldText "release" data)) ∧
      Bumped text new payload.proposedSpecRelease front tag gap s₁ s₂ trail rest trail' := by
  obtain ⟨data, release, uses, hdata, hne, hread, hproposedNe, hproposed, hset⟩ := applyReleaseBump_writes h hspec
  obtain ⟨front, tag, gap, line, _, hpreamble, hrelease⟩ := exists_field_of_read hread hne
  obtain ⟨⟨rest, hfield⟩, hnone⟩ := hpreamble.of_preamble
  obtain ⟨trail, hline, hsolid, htrail⟩ := exists_trail hfield.head
  obtain ⟨s₁, s₂, hs, h₁, h₂⟩ := exists_percent (strip line)
  generalize payload.proposedSpecRelease = p at hset hproposed hproposedNe ⊢
  -- the release that is proposed
  have hone : '\n' ∉ strip line := fun hmem => hfield.one ((strip_sublist line).subset hmem)
  have hrelease' : release = strip (beforeDist (strip line)) := by
    rw [hrelease, releaseBeforeDist_eq hone (strip_strip line)]
  have hmem : ∀ a, a ∉ beforeDist (strip line) → a ∉ release := by
    intro a ha hmem
    rw [hrelease'] at hmem
    exact ha ((strip_sublist _).subset hmem)
  have hreleaseOne : '\n' ∉ release := hmem _ fun hmem => hone ((beforeDist_begins _).subset hmem)
  have hpOne : '\n' ∉ p := by
    rw [hproposed]
    exact bumpRelease_not_mem hreleaseOne hreleaseOne (by decide) (by decide)
  have hp : Solid p := by
    have hstrip : strip p = p := by
      rw [hproposed, hrelease']
      exact strip_bumpRelease (hrelease' ▸ hreleaseOne)
    rw [← hstrip]
    exact solid_strip (by rw [hstrip]; exact hproposedNe)
  have hpercent : '%' ∉ beforeDist (strip line) → '%' ∉ p := by
    intro hplain
    rw [hproposed]
    exact bumpRelease_not_mem hreleaseOne (hmem _ hplain) (by decide) (by decide)
  -- the line that is written
  have hgapPercent : '%' ∉ tag ++ (':' :: gap) := by
    have hgap : '%' ∉ gap := fun hmem => absurd (hfield.gap_all _ hmem) (by decide)
    have htag : '%' ∉ tag := not_mem_same (by decide) hfield.same
    simp [htag, hgap]
  obtain ⟨trail', htrail', hdist, hnewLine⟩ := @replaceRelease_eq p _ _ _ _ hgapPercent h₁ h₂ htrail
  have hold : tag ++ (':' :: (gap ++ line)) = (tag ++ (':' :: gap)) ++ (s₁ ++ (s₂ ++ trail)) := by
    conv_lhs => rw [hline, hs]
    simp
  have hnew : new = front ++ (("Release:        ".toList ++ (p ++ (s₂ ++ trail'))) ++ rest) := by
    rw [hfield.setReleaseLine_eq, hold, hnewLine] at hset
    exact (Option.some.inj hset).symm
  have hvalueOne : '\n' ∉ p ++ (s₂ ++ trail') := by
    have hs₂ : '\n' ∉ s₂ := fun hmem => hone (by rw [hs]; exact List.mem_append_right _ hmem)
    have hend : '\n' ∉ trail' := fun hmem =>
      hfield.one (by rw [hline]; exact List.mem_append_right _ (htrail' _ hmem))
    simp [hpOne, hs₂, hend]
  have hwritten := hfield.written hp hvalueOne
  rw [← hnew] at hwritten
  have hheads : ∀ j < front.length, run new sectionHeadRe ⟨j, []⟩ = [] := by
    intro j hj
    by_contra hrun
    rw [hwritten.eq] at hrun
    refine section_append hfield.ends hj hrun (v := tag ++ (':' :: (gap ++ (line ++ rest)))) ?_
    rw [← hfield.eq]
    exact hnone j hj
  rw [hs] at hsolid hpercent hrelease'
  rw [hline, hs] at hfield
  rw [hrelease'] at hproposed
  exact ⟨data, front, tag, gap, s₁, s₂, trail, rest, trail', hdata, hproposed, hfield, hsolid, htrail, h₁, h₂,
    fun c hc => htrail c (htrail' c hc), hdist, hp, hpercent, hwritten, hnew, hheads⟩

/-- The release and what is kept of the old value. -/
theorem Bumped.solid_new (h : Bumped text new p front tag gap s₁ s₂ trail rest trail') : Solid (p ++ s₂) := by
  rcases h.percent with hnil | hhead
  · rw [hnil, List.append_nil]
    exact h.release
  · obtain ⟨q, hq⟩ := List.head?_eq_some_iff.mp hhead
    have hlast := h.solid.last
    rw [hq, List.getLast?_append_of_ne_nil _ (List.cons_ne_nil _ _)] at hlast
    have hboth := Solid.append (m := []) h.release.head hlast
    rwa [List.append_nil, ← hq] at hboth

/-- What is read back of the new value. -/
theorem Bumped.read_eq (h : Bumped text new p front tag gap s₁ s₂ trail rest trail') :
    releaseBeforeDist (strip (p ++ (s₂ ++ trail'))) = strip (beforeDist (p ++ s₂)) := by
  have hstrip : strip (p ++ (s₂ ++ trail')) = p ++ s₂ := by
    have hpadded := strip_padded (a := []) (by simp) h.solid_new h.trail_space'
    rwa [List.nil_append, List.append_assoc] at hpadded
  have hone : '\n' ∉ p ++ s₂ := by
    have hwhole := h.written.one
    rw [← List.append_assoc, List.mem_append, not_or] at hwhole
    exact hwhole.1
  rw [hstrip, releaseBeforeDist_eq hone (strip_solid h.solid_new)]

end

/-! ## When a bump reads back -/

section

variable [UnicodeTables] {loads : Str → Except Str Value} {c : Checkout} {package text new release : Str}
  {payload : ReleaseBump}

theorem readSpecReleaseBeforeDist_withSpec :
    (∃ uses, readSpecReleaseBeforeDist (c.withSpec package new) package = .ok (release, uses)) ↔
      ∃ uses, readRelease new = some (release, uses) := by
  have hspec : (c.withSpec package new).spec package = some new := Function.update_self ..
  refine exists_congr fun uses => ?_
  rw [readSpecReleaseBeforeDist, hspec]
  dsimp only
  cases readRelease new with
  | none => simp
  | some r => simp

/-- **`bump_reads_back_iff`** — a bump that is written reads back, with everything else as it was, exactly if the
first `Release` line has a value and no percent sign stands in it before the last dist macro. -/
theorem bump_reads_back_iff (h : applyReleaseBump loads c package = .ok (payload, some new))
    (hspec : c.spec package = some text) :
    ReadsBack c package payload.proposedSpecRelease text new ↔ PlainRelease text := by
  obtain ⟨_, front, tag, gap, s₁, s₂, trail, rest, trail', -, -, hb⟩ := exists_bumped h hspec
  generalize payload.proposedSpecRelease = p at hb ⊢
  have hfield := hb.field
  have hvalueOne := hb.written.one
  have hvalueEq : fieldValue (tag ++ (':' :: (gap ++ ((s₁ ++ s₂) ++ trail)))) = s₁ ++ s₂ := by
    have hpadded := strip_padded (a := []) (by simp) hb.solid hb.trail_space
    rw [hfield.fieldValue_eq]
    rwa [List.nil_append] at hpadded
  -- what is read back of it
  have hvalue : (∃ uses, readSpecReleaseBeforeDist (c.withSpec package new) package = .ok (p, uses)) ↔
      '%' ∉ beforeDist (s₁ ++ s₂) := by
    obtain ⟨_, hnewPreamble⟩ := hb.written.preamble (by decide) hb.heads
    rw [readSpecReleaseBeforeDist_withSpec, ← reads_back_iff hb.before hb.percent hb.release hb.plain]
    simp only [hnewPreamble.readRelease_eq, hb.read_eq, Option.some.injEq, Prod.mk.injEq, exists_and_left,
      exists_eq', and_true]
  constructor
  · rintro ⟨hback, front', line', new', rest', hl, hnew', hnewOne, -⟩
    obtain ⟨rfl, hcut⟩ := hfield.front_eq hl
    -- as many lines as before: the value stands on the line with the tag
    have hgap : '\n' ∉ gap := by
      have hold' := congrArg (List.count '\n') hcut
      have hnew'' := congrArg (List.count '\n') (List.append_cancel_left (hnew'.symm.trans hb.new_eq))
      have hzero : "Release:        ".toList.count '\n' = 0 := by decide
      have hcolon : ∀ u : Str, (':' :: u).count '\n' = u.count '\n' := fun u => List.count_cons_of_ne (by decide)
      rw [List.count_append, List.count_append, hcolon, List.count_append, List.count_append,
        List.count_eq_zero.mpr hl.one] at hold'
      rw [List.count_append, List.count_append, List.count_append, List.count_eq_zero.mpr hnewOne, hzero,
        List.count_eq_zero.mpr hvalueOne] at hnew''
      exact List.count_eq_zero.mp (by omega)
    obtain ⟨rfl, -⟩ := line_cancel hl.one (hfield.releaseLine hgap).one hl.rest hfield.rest
      (hcut.trans (by simp))
    refine ⟨_, _, _, hl, ?_, ?_⟩
    · rw [hvalueEq]
      exact hb.solid.ne_nil
    · rw [hvalueEq]
      exact hvalue.mp hback
  · rintro ⟨front', line', rest', hl, hvalueNe, hplain⟩
    have hgap := hfield.not_newline hl hvalueNe
    obtain ⟨rfl, hcut⟩ := hfield.front_eq hl
    obtain ⟨rfl, rfl⟩ := line_cancel hl.one (hfield.releaseLine hgap).one hl.rest hfield.rest
      (hcut.trans (by simp))
    rw [hvalueEq] at hplain
    refine ⟨hvalue.mpr hplain, _, _, "Release:        ".toList ++ (p ++ (s₂ ++ trail')), _, hl, hb.new_eq, ?_, ?_⟩
    · rw [List.mem_append, not_or]
      exact ⟨by decide, hvalueOne⟩
    · have hreleasePercent : '%' ∉ "Release:        ".toList ++ p := by
        rw [List.mem_append, not_or]
        exact ⟨by decide, hb.plain hplain⟩
      have holdPercent : '%' ∉ (tag ++ (':' :: gap)) ++ s₁ := by
        have hgap : '%' ∉ gap := fun hmem => absurd (hfield.gap_all _ hmem) (by decide)
        have htag : '%' ∉ tag := not_mem_same (by decide) hfield.same
        simp [htag, hgap, hb.before]
      have hold : tag ++ (':' :: (gap ++ ((s₁ ++ s₂) ++ trail))) =
          ((tag ++ (':' :: gap)) ++ s₁) ++ (s₂ ++ trail) := by simp
      rw [hold, ← List.append_assoc, fromDist_append hreleasePercent, hb.dist, fromDist_append holdPercent]

end

/-! ## Runs -/

instance (t : Str) (i : Nat) : Decidable (TagStart t i) :=
  inferInstanceAs (Decidable ((i = 0 ∨ prev? t i = some '\n') ∧ tagFront "release" (t.drop i) = true))

/-- A checkout with one spec, and metadata that `loads` takes for the release `5`. -/
def checkoutOf (text : Str) : Checkout where
  root := []
  spec := fun _ => some text
  metadata := fun _ => some []

/-- A parser that finds the release `5`. -/
def releaseFive : Str → Except Str Value := fun _ => .ok (.dict [("release".toList, .str "5".toList)])

theorem exists_payload {r : Except Exn (ReleaseBump × Option Str)} {proposed new : Str}
    (h : r.toOption.map (fun b => (b.1.proposedSpecRelease, b.2)) = some (proposed, some new)) :
    ∃ payload, r = .ok (payload, some new) ∧ payload.proposedSpecRelease = proposed := by
  cases r with
  | error e => cases h
  | ok b =>
      obtain ⟨payload, written⟩ := b
      obtain ⟨hproposed, hwritten⟩ := Prod.mk.inj (Option.some.inj h)
      exact ⟨payload, by rw [show written = some new from hwritten], hproposed⟩

/-- A number before the dist macro is bumped. -/
theorem plain_number_reads_back :
    letI := asciiTables
    ReadsBack (checkoutOf "Name: a\nRelease: 5%\x7b?dist\x7d\n") "a" "5.1" "Name: a\nRelease: 5%\x7b?dist\x7d\n"
      "Name: a\nRelease:        5.1%\x7b?dist\x7d\n" := by
  let _ := asciiTables
  obtain ⟨payload, hrun, hproposed⟩ : ∃ payload,
      applyReleaseBump releaseFive (checkoutOf "Name: a\nRelease: 5%\x7b?dist\x7d\n") "a" =
        .ok (payload, some "Name: a\nRelease:        5.1%\x7b?dist\x7d\n".toList) ∧
      payload.proposedSpecRelease = "5.1".toList := exists_payload (by decide +kernel)
  have hback := (bump_reads_back_iff hrun rfl).mpr ⟨"Name: a\n", "Release: 5%\x7b?dist\x7d", "\n",
    ⟨by decide, Or.inr rfl, by decide, by decide, by decide, Or.inr rfl⟩, by decide, by decide⟩
  rwa [hproposed] at hback

/-- A macro before the dist macro is written twice. -/
theorem reference_doubled :
    letI := asciiTables
    ¬ ∀ (loads : Str → Except Str Value) (c : Checkout) (package text new : Str) (payload : ReleaseBump),
      applyReleaseBump loads c package = .ok (payload, some new) → c.spec package = some text →
        ReadsBack c package payload.proposedSpecRelease text new := by
  let _ := asciiTables
  intro hall
  obtain ⟨payload, hrun, hproposed⟩ : ∃ payload,
      applyReleaseBump releaseFive (checkoutOf "Release: %\x7bbaserelease\x7d%\x7b?dist\x7d\n") "a" =
        .ok (payload,
          some "Release:        %\x7bbaserelease\x7d.1%\x7bbaserelease\x7d%\x7b?dist\x7d\n".toList) ∧
      payload.proposedSpecRelease = "%\x7bbaserelease\x7d.1".toList := exists_payload (by decide +kernel)
  obtain ⟨hread, -⟩ := hall _ _ _ _ _ _ hrun rfl
  obtain ⟨uses, huses⟩ := readSpecReleaseBeforeDist_withSpec.mp hread
  have hnew :
      (readRelease "Release:        %\x7bbaserelease\x7d.1%\x7bbaserelease\x7d%\x7b?dist\x7d\n").map Prod.fst =
        some "%\x7bbaserelease\x7d.1%\x7bbaserelease\x7d".toList := by decide +kernel
  rw [huses, hproposed] at hnew
  have hsame : "%\x7bbaserelease\x7d.1".toList = "%\x7bbaserelease\x7d.1%\x7bbaserelease\x7d".toList :=
    Option.some.inj hnew
  exact absurd hsame (by decide)

end HummingbirdRpms.CveReleaseBump
