/-
# HummingbirdRpms.SbomSearch — what a search of an SBOM shows.

`search_sbom_file` (`.cursor/skills/cve/lib/sbom.py`) walks through the JSON document once for all terms.
Of the objects with a name or a package URL it reports, for each term, those that mention the term: the
first of every name, version and URL.  If there is no hit at all, every term is searched for in the text.

**`search_faithful_iff`** — every term has the hits it has alone, every component that mentions it is
reported with its scope, and a term that occurs is found, exactly if

* components that mention a term and have the same name, version and URL have the same scope,
* a term that no component mentions does not occur when a component mentions another term, and
* a term that occurs is listed once when no component mentions any.
-/
import HummingbirdRpms.Lib.FirstSeen
import HummingbirdRpms.Lib.Regex
import HummingbirdRpms.Runtime

namespace HummingbirdRpms

open Lib Lib.Text Lib.Regex Lib.FirstSeen
open Value (Entries entry)

/-! ## Values as text -/

mutual

/-- `str(v)` of a value, `repr` inside of lists and mappings -/
def strOf : Value → Str
  | .str s => s
  | .list items => '[' :: (join ", " (reprItems items) ++ [']'])
  | .dict entries => '\x7b' :: (join ", " (reprEntries entries) ++ ['\x7d'])
  | v => v.repr

def reprItems : List Value → List Str
  | [] => []
  | .str s :: vs => reprStr s :: reprItems vs
  | v :: vs => strOf v :: reprItems vs

def reprEntries : List (Str × Value) → List Str
  | [] => []
  | (k, .str s) :: es => (reprStr k ++ ": ".toList ++ reprStr s) :: reprEntries es
  | (k, v) :: es => (reprStr k ++ ": ".toList ++ strOf v) :: reprEntries es

end

/-- Four hexadecimal digits. -/
def hex4 (n : Nat) : Str :=
  let digits := Nat.toDigits 16 n
  List.replicate (4 - digits.length) '0' ++ digits

/-- A character in a string of `json.dumps`, which writes nothing but ASCII. -/
def dumpChar (c : Char) : Str :=
  let n := c.toNat
  if c = '"' ∨ n = 92 then [Char.ofNat 92, c]
  else if c = '\n' then [Char.ofNat 92, 'n']
  else if c = '\r' then [Char.ofNat 92, 'r']
  else if c = '\t' then [Char.ofNat 92, 't']
  else if n = 8 then [Char.ofNat 92, 'b']
  else if n = 12 then [Char.ofNat 92, 'f']
  else if 32 ≤ n ∧ n < 127 then [c]
  else if n < 65536 then Char.ofNat 92 :: 'u' :: hex4 n
  else Char.ofNat 92 :: 'u' :: (hex4 (0xd800 + (n - 65536) / 1024) ++
    Char.ofNat 92 :: 'u' :: hex4 (0xdc00 + (n - 65536) % 1024))

/-- A string of `json.dumps`. -/
def dumpString (s : Str) : Str := '"' :: (s.flatMap dumpChar ++ ['"'])

mutual

/-- `json.dumps` -/
def dumps : Value → Str
  | .none => "null".toList
  | .bool b => if b then "true".toList else "false".toList
  | .num _ r => r
  | .str s => dumpString s
  | .list items => '[' :: (join ", " (dumpItems items) ++ [']'])
  | .dict entries => '\x7b' :: (join ", " (dumpEntries entries) ++ ['\x7d'])

def dumpItems : List Value → List Str
  | [] => []
  | v :: vs => dumps v :: dumpItems vs

def dumpEntries : List (Str × Value) → List Str
  | [] => []
  | (k, v) :: es => (dumpString k ++ ": ".toList ++ dumps v) :: dumpEntries es

end

example : dumps (.dict [("a", .list [.none, .str "é\n"])]) =
    ("\x7b\"a\": [null, \"\\u00e9\\n\"]\x7d" : String).toList := by decide +kernel

/-! ## The search -/

/-- The parts of the language's library that depend on tables: lower case, the equality of letters under
`re.IGNORECASE`, and the reading of JSON. -/
structure TextRuntime where
  lower : Str → Str
  sameLetter : Char → Char → Bool
  sameLetter_refl : ∀ c, sameLetter c c = true
  loads : Str → Option Value

/-- `SbomHit` -/
structure SbomHit where
  term : Str
  path : Str
  name : Str := []
  version : Str := []
  purl : Str := []
  scope : Str := []
  componentType : Str := []
  snippet : Str := []
  deriving DecidableEq

/-- What `_component_fields` returns. -/
structure ComponentFields where
  name : Str
  version : Str
  purl : Str
  scope : Str
  componentType : Str

/-- `str(node.get(key) or "")` -/
def fieldText (key : Str) (node : Entries) : Str :=
  let v := entry key node
  if v.truthy then strOf v else []

/-- `str(prop.get("name") or prop.get("key") or "").lower()` -/
def propertyKey (rt : TextRuntime) (prop : Entries) : Str :=
  rt.lower (if (entry "name" prop).truthy then fieldText "name" prop else fieldText "key" prop)

/-- The value of the first property whose key is about the scope. -/
def propertyScope (rt : TextRuntime) : List Value → Str
  | [] => []
  | .dict prop :: props =>
      let key := propertyKey rt prop
      if contains "scope" key || endsWith "lifecycle" key then fieldText "value" prop
      else propertyScope rt props
  | _ :: props => propertyScope rt props

/-- `_component_fields` -/
def componentFields (rt : TextRuntime) (node : Entries) : ComponentFields :=
  let scope := fieldText "scope" node
  let scope := if scope = [] then
    match entry "properties" node with
    | .list props => propertyScope rt props
    | _ => scope
  else scope
  { name := fieldText "name" node, version := fieldText "version" node, purl := fieldText "purl" node,
    scope, componentType := fieldText "type" node }

/-- The test of `consider`: the term is in the fields or in the JSON text of the object, up to case. -/
def mentions (rt : TextRuntime) (term : Str) (node : Entries) : Bool :=
  let fields := componentFields rt node
  let blob := join " " [fields.name, fields.version, fields.purl, fields.scope, fields.componentType]
  contains (rt.lower term) (rt.lower blob) || contains (rt.lower term) (rt.lower (dumps (.dict node)))

/-- The hit of a component. -/
def componentHit (rt : TextRuntime) (term : Str) (node : Str × Entries) : SbomHit :=
  let fields := componentFields rt node.2
  { term, path := node.1, name := fields.name, version := fields.version, purl := fields.purl,
    scope := fields.scope, componentType := fields.componentType }

/-- `(term, fields["name"], fields["version"], fields["purl"])` -/
def hitKey (h : SbomHit) : Str × Str × Str × Str := (h.term, h.name, h.version, h.purl)

/-- `consider` -/
def consider (rt : TextRuntime) (st : List SbomHit × List (Str × Str × Str × Str)) (term : Str)
    (node : Str × Entries) : List SbomHit × List (Str × Str × Str × Str) :=
  if mentions rt term node.2 then keepNew hitKey st (componentHit rt term node) else st

mutual

/-- The objects that `walk` considers, with their paths, in its order. -/
def walk : Value → (path : Str) → List (Str × Entries)
  | .dict entries, path =>
      (if (entries.lookup "name".toList).isSome ∨ (entries.lookup "purl".toList).isSome
        then [(path, entries)] else []) ++ walkEntries entries path
  | .list items, path => walkItems items 0 path
  | _, _ => []

def walkItems : List Value → (idx : Nat) → (path : Str) → List (Str × Entries)
  | [], _, _ => []
  | v :: vs, idx, path => walk v (path ++ '[' :: (ofNat idx ++ [']'])) ++ walkItems vs (idx + 1) path

def walkEntries : List (Str × Value) → (path : Str) → List (Str × Entries)
  | [], _ => []
  | (k, v) :: es, path => walk v (path ++ '.' :: k) ++ walkEntries es path

end

/-- The component-like objects of an SBOM, none if the text is not JSON. -/
def components (rt : TextRuntime) (text : Str) : List (Str × Entries) :=
  match rt.loads text with
  | none => []
  | some data => walk data "$".toList

/-- The hits in components, in the order in which they are found. -/
def structuredHits (rt : TextRuntime) (nodes : List (Str × Entries)) (terms : List Str) : List SbomHit :=
  (nodes.foldl (fun st node => terms.foldl (fun st term => consider rt st term node) st) ([], [])).1.reverse

/-- `re.compile(re.escape(term), re.IGNORECASE)` -/
def termRe (rt : TextRuntime) (term : Str) : Re := Re.seq (term.map fun c => .chr (rt.sameLetter c))

/-- The hits in the text, ten at most. -/
def textHits (rt : TextRuntime) (text term : Str) : List SbomHit :=
  ((finditer (termRe rt term) text).take 10).map fun m =>
    { term, path := "text".toList,
      snippet := replace "\n" " " ((text.drop (m.start - 80)).take (m.stop + 80 - (m.start - 80))) }

/-- `search_sbom_file`, on the text of the file -/
def searchSbomFile (rt : TextRuntime) (text : Str) (terms : List Str) : List SbomHit :=
  if terms = [] then []
  else
    let hits := structuredHits rt (components rt text) terms
    if hits ≠ [] then hits else terms.flatMap (textHits rt text)

/-! ## What it should show -/

/-- The hit shows the component, with its scope. -/
def Reports (rt : TextRuntime) (h : SbomHit) (node : Entries) : Prop :=
  let fields := componentFields rt node
  h.name = fields.name ∧ h.version = fields.version ∧ h.purl = fields.purl ∧ h.scope = fields.scope

/-- The search shows for every term what there is for it. -/
structure SearchFaithful (rt : TextRuntime) (text : Str) (terms : List Str) : Prop where
  perTerm : ∀ t ∈ terms, (searchSbomFile rt text terms).filter (·.term = t) = searchSbomFile rt text [t]
  complete : ∀ t ∈ terms, ∀ node ∈ components rt text, mentions rt t node.2 = true →
    ∃ h ∈ searchSbomFile rt text terms, h.term = t ∧ Reports rt h node.2
  found : ∀ t ∈ terms, t <:+: text → ∃ h ∈ searchSbomFile rt text terms, h.term = t

/-- A component mentions the term. -/
def Mentioned (rt : TextRuntime) (text t : Str) : Prop :=
  ∃ node ∈ components rt text, mentions rt t node.2 = true

/-- The term is in the text, up to case. -/
def OccursIn (rt : TextRuntime) (text t : Str) : Prop :=
  ∃ x, x <:+: text ∧ List.Forall₂ (fun c d => rt.sameLetter c d = true) t x

/-- The condition: nothing that is shared between components or terms hides one of them. -/
structure NothingHidden (rt : TextRuntime) (text : Str) (terms : List Str) : Prop where
  scopes : ∀ t ∈ terms, ∀ node ∈ components rt text, ∀ node' ∈ components rt text,
    mentions rt t node.2 = true → mentions rt t node'.2 = true →
      hitKey (componentHit rt t node) = hitKey (componentHit rt t node') →
        (componentFields rt node.2).scope = (componentFields rt node'.2).scope
  fallback : ∀ t ∈ terms, ¬ Mentioned rt text t → (∃ u ∈ terms, Mentioned rt text u) → ¬ OccursIn rt text t
  once : (∀ u ∈ terms, ¬ Mentioned rt text u) → ∀ t ∈ terms, OccursIn rt text t → terms.count t = 1

variable {rt : TextRuntime} {text t : Str} {terms : List Str} {nodes : List (Str × Entries)}

/-! ## The hits in components -/

/-- What is put forward for a component. -/
def offered (rt : TextRuntime) (terms : List Str) (node : Str × Entries) : List SbomHit :=
  (terms.filter fun t => mentions rt t node.2).map fun t => componentHit rt t node

/-- The hits are the first ones of their keys. -/
theorem structuredHits_eq : structuredHits rt nodes terms = firstSeen hitKey [] (nodes.flatMap (offered rt terms)) := by
  have hterms : ∀ (node : Str × Entries) (st : List SbomHit × List (Str × Str × Str × Str)),
      terms.foldl (fun st term => consider rt st term node) st = (offered rt terms node).foldl (keepNew hitKey) st := by
    intro node
    unfold offered
    induction terms with
    | nil => intro st; rfl
    | cons t terms ih =>
        intro st
        rw [List.foldl_cons, ih, consider]
        cases h : mentions rt t node.2 with
        | false => simp only [List.filter_cons, h, Bool.false_eq_true, if_false]
        | true => simp only [List.filter_cons, h, if_true, List.map_cons, List.foldl_cons]
  have hnodes : ∀ st, nodes.foldl (fun st node => terms.foldl (fun st term => consider rt st term node) st) st =
      (nodes.flatMap (offered rt terms)).foldl (keepNew hitKey) st := by
    induction nodes with
    | nil => intro st; rfl
    | cons node nodes ih =>
        intro st
        rw [List.foldl_cons, hterms, ih, List.flatMap_cons, List.foldl_append]
  rw [structuredHits, hnodes, foldl_keepNew, List.append_nil, List.reverse_reverse]

theorem mem_offered {node : Str × Entries} {h : SbomHit} :
    h ∈ offered rt terms node ↔ ∃ t ∈ terms, mentions rt t node.2 = true ∧ componentHit rt t node = h := by
  simp only [offered, List.mem_map, List.mem_filter, and_assoc]

theorem mem_offers {h : SbomHit} :
    h ∈ nodes.flatMap (offered rt terms) ↔
      ∃ node ∈ nodes, ∃ t ∈ terms, mentions rt t node.2 = true ∧ componentHit rt t node = h := by
  simp only [List.mem_flatMap, mem_offered]

/-- A hit is one of a component that mentions its term. -/
theorem exists_component {h : SbomHit} (hh : h ∈ structuredHits rt nodes terms) :
    ∃ node ∈ nodes, mentions rt h.term node.2 = true ∧ componentHit rt h.term node = h := by
  rw [structuredHits_eq] at hh
  obtain ⟨node, hnode, t, -, hmention, rfl⟩ := mem_offers.mp (firstSeen_subset hh).1
  exact ⟨node, hnode, hmention, rfl⟩

/-- A component that mentions a term has a hit with its key. -/
theorem exists_hit {node : Str × Entries} (hnode : node ∈ nodes) (ht : t ∈ terms)
    (hmention : mentions rt t node.2 = true) :
    ∃ h ∈ structuredHits rt nodes terms, hitKey h = hitKey (componentHit rt t node) := by
  rw [structuredHits_eq]
  exact exists_firstSeen (mem_offers.mpr ⟨node, hnode, t, ht, hmention, rfl⟩) List.not_mem_nil

theorem structuredHits_eq_nil_iff :
    structuredHits rt nodes terms = [] ↔ ∀ t ∈ terms, ¬ ∃ node ∈ nodes, mentions rt t node.2 = true := by
  rw [structuredHits_eq, firstSeen_eq_nil_iff]
  constructor
  · rintro h t ht ⟨node, hnode, hmention⟩
    have hmem := mem_offers.mpr ⟨node, hnode, t, ht, hmention, rfl⟩
    rw [h] at hmem
    cases hmem
  · intro h
    apply List.eq_nil_iff_forall_not_mem.mpr
    intro hit hhit
    obtain ⟨node, hnode, t, ht, hmention, -⟩ := mem_offers.mp hhit
    exact h t ht ⟨node, hnode, hmention⟩

/-- What is put forward for a term is put forward for it alone, as often as it is listed. -/
theorem filter_offered {node : Str × Entries} (ht : t ∈ terms) :
    ∃ n, (offered rt terms node).filter (·.term = t) =
      if mentions rt t node.2 then List.replicate (n + 1) (componentHit rt t node) else [] := by
  obtain ⟨n, hn⟩ := Nat.exists_eq_add_of_lt (List.count_pos_iff.mpr ht)
  refine ⟨n, ?_⟩
  rw [Nat.zero_add] at hn
  have hfilter : (offered rt terms node).filter (·.term = t) =
      ((terms.filter (· = t)).filter fun t => mentions rt t node.2).map fun t => componentHit rt t node := by
    rw [offered, List.filter_map, List.filter_filter, List.filter_filter]
    congr 1
    apply List.filter_congr
    intro u _
    simp [componentHit, Bool.and_comm]
  rw [hfilter, List.filter_eq, hn]
  cases h : mentions rt t node.2 with
  | false => simp [h]
  | true => simp [h]

theorem offered_singleton {node : Str × Entries} :
    offered rt [t] node = if mentions rt t node.2 then [componentHit rt t node] else [] := by
  cases h : mentions rt t node.2 with
  | false => simp [offered, h]
  | true => simp [offered, h]

/-- Hits in components do not depend on the other terms. -/
theorem filter_structuredHits (ht : t ∈ terms) :
    (structuredHits rt nodes terms).filter (·.term = t) = structuredHits rt nodes [t] := by
  have hkeys : ∀ a b : SbomHit, hitKey a = hitKey b → decide (a.term = t) = decide (b.term = t) := by
    intro a b h
    rw [(Prod.mk.inj h).1]
  rw [structuredHits_eq, structuredHits_eq, filter_firstSeen hkeys]
  generalize ([] : List (Str × Str × Str × Str)) = seen
  induction nodes generalizing seen with
  | nil => rfl
  | cons node nodes ih =>
      obtain ⟨n, hn⟩ : ∃ n, (offered rt terms node).filter (·.term = t) = _ := filter_offered ht
      rw [List.flatMap_cons, List.flatMap_cons, List.filter_append, hn, offered_singleton]
      cases mentions rt t node.2 with
      | false => exact ih seen
      | true =>
          rw [if_pos rfl, if_pos rfl, firstSeen_replicate, List.singleton_append]
          by_cases hseen : hitKey (componentHit rt t node) ∈ seen
          · rw [firstSeen_seen hseen, firstSeen_seen hseen, ih]
          · rw [firstSeen_new hseen, firstSeen_new hseen, ih]

/-! ## The hits in the text -/

/-- There is a hit in the text exactly if the term is in it, up to case. -/
theorem textHits_ne_nil_iff : textHits rt text t ≠ [] ↔ OccursIn rt text t := by
  have hempty : textHits rt text t = [] ↔ finditer (termRe rt t) text = [] := by
    rw [textHits, List.map_eq_nil_iff, List.take_eq_nil_iff, or_iff_right (by decide)]
  rw [ne_eq, hempty]
  constructor
  · intro h
    obtain ⟨m, ms, hms⟩ := List.exists_cons_of_ne_nil h
    have hmatch := matchAt_of_mem_finditer (show m ∈ finditer (termRe rt t) text by rw [hms]; exact List.mem_cons_self)
    rw [matchAt, Option.map_eq_some_iff] at hmatch
    obtain ⟨e, he, -⟩ := hmatch
    obtain ⟨x, hx, hsame, -⟩ := mem_run_letters.mp (List.mem_of_mem_head? he)
    exact ⟨x, hx.isInfix.trans (List.drop_suffix _ _).isInfix, hsame⟩
  · rintro ⟨x, ⟨front, rest, rfl⟩, hsame⟩ hnone
    have hway : (⟨front.length + t.length, []⟩ : St) ∈ run (front ++ x ++ rest) (termRe rt t) ⟨front.length, []⟩ := by
      refine mem_run_letters.mpr ⟨x, ?_, hsame, rfl⟩
      rw [List.append_assoc, List.drop_left]
      exact List.prefix_append x rest
    have hle : front.length ≤ (front ++ x ++ rest).length := by
      rw [List.length_append, List.length_append]
      omega
    obtain ⟨m, hm, -⟩ := finditer_covers hle (matchAt_isSome_iff.mpr (List.ne_nil_of_mem hway))
    rw [hnone] at hm
    cases hm

theorem textHits_term {h : SbomHit} (hh : h ∈ textHits rt text t) : h.term = t := by
  obtain ⟨m, -, rfl⟩ := List.mem_map.mp hh
  rfl

theorem occursIn_of_infix (h : t <:+: text) : OccursIn rt text t :=
  ⟨t, h, List.forall₂_same.mpr fun c _ => rt.sameLetter_refl c⟩

/-- What a term has alone it has as often as it is listed. -/
theorem filter_textHits : ((terms.flatMap (textHits rt text)).filter (·.term = t)) =
    (List.replicate (terms.count t) (textHits rt text t)).flatten := by
  induction terms with
  | nil => rfl
  | cons u terms ih =>
      rw [List.flatMap_cons, List.filter_append, ih]
      by_cases h : u = t
      · subst h
        rw [List.count_cons_self, List.replicate_succ, List.flatten_cons, List.filter_eq_self.mpr]
        intro hit hhit
        exact decide_eq_true (textHits_term hhit)
      · rw [List.count_cons_of_ne h, List.filter_eq_nil_iff.mpr, List.nil_append]
        intro hit hhit
        rw [textHits_term hhit]
        simpa using h

theorem flatten_replicate_eq_iff {α : Type} {l : List α} {n : Nat} :
    (List.replicate n l).flatten = l ↔ l = [] ∨ n = 1 := by
  constructor
  · intro h
    have hlen := congrArg List.length h
    rw [List.length_flatten, List.map_replicate, List.sum_replicate_nat] at hlen
    by_cases hl : l = []
    · exact Or.inl hl
    · exact Or.inr (Nat.eq_of_mul_eq_mul_right (List.length_pos_iff.mpr hl) (by omega))
  · rintro (rfl | rfl)
    · simp
    · simp

/-! ## The whole search -/

theorem searchSbomFile_mentioned (h : ∃ u ∈ terms, Mentioned rt text u) :
    searchSbomFile rt text terms = structuredHits rt (components rt text) terms := by
  obtain ⟨u, hu, hmention⟩ := h
  have hhits : structuredHits rt (components rt text) terms ≠ [] :=
    fun hnil => structuredHits_eq_nil_iff.mp hnil u hu hmention
  rw [searchSbomFile, if_neg (List.ne_nil_of_mem hu), if_pos hhits]

theorem searchSbomFile_unmentioned (hne : terms ≠ []) (h : ∀ u ∈ terms, ¬ Mentioned rt text u) :
    searchSbomFile rt text terms = terms.flatMap (textHits rt text) := by
  rw [searchSbomFile, if_neg hne, structuredHits_eq_nil_iff.mpr h, if_neg (by simp)]

/-- A term alone: its components, or else the text. -/
theorem searchSbomFile_alone :
    (Mentioned rt text t → searchSbomFile rt text [t] = structuredHits rt (components rt text) [t]) ∧
      (¬ Mentioned rt text t → searchSbomFile rt text [t] = textHits rt text t) := by
  constructor
  · intro h
    exact searchSbomFile_mentioned ⟨t, List.mem_singleton_self t, h⟩
  · intro h
    rw [searchSbomFile_unmentioned (List.cons_ne_nil t []), List.flatMap_singleton]
    intro u hu
    rwa [List.mem_singleton.mp hu]

/-- The hits of a term are those it has alone, exactly if nothing is lost or repeated in the text. -/
theorem perTerm_iff (ht : t ∈ terms) :
    (searchSbomFile rt text terms).filter (·.term = t) = searchSbomFile rt text [t] ↔
      (¬ Mentioned rt text t → (∃ u ∈ terms, Mentioned rt text u) → ¬ OccursIn rt text t) ∧
        ((∀ u ∈ terms, ¬ Mentioned rt text u) → OccursIn rt text t → terms.count t = 1) := by
  by_cases hany : ∃ u ∈ terms, Mentioned rt text u
  · rw [searchSbomFile_mentioned hany, filter_structuredHits ht]
    have hnone : ¬ ∀ u ∈ terms, ¬ Mentioned rt text u := by
      intro h
      obtain ⟨u, hu, hmention⟩ := hany
      exact h u hu hmention
    by_cases hmention : Mentioned rt text t
    · rw [searchSbomFile_alone.1 hmention]
      exact iff_of_true rfl ⟨fun h => absurd hmention h, fun h => absurd h hnone⟩
    · rw [searchSbomFile_alone.2 hmention, structuredHits_eq_nil_iff.mpr, ← textHits_ne_nil_iff]
      · constructor
        · intro h
          exact ⟨fun _ _ hne => hne h.symm, fun h => absurd h hnone⟩
        · rintro ⟨h, -⟩
          exact (not_not.mp (h hmention hany)).symm
      · intro u hu
        rwa [List.mem_singleton.mp hu]
  · have hnone : ∀ u ∈ terms, ¬ Mentioned rt text u := fun u hu h => hany ⟨u, hu, h⟩
    rw [searchSbomFile_unmentioned (List.ne_nil_of_mem ht) hnone, searchSbomFile_alone.2 (hnone t ht),
      filter_textHits, flatten_replicate_eq_iff, ← textHits_ne_nil_iff]
    constructor
    · intro h
      exact ⟨fun _ h' => absurd h' hany, fun _ hne => h.resolve_left hne⟩
    · rintro ⟨-, h⟩
      by_cases hempty : textHits rt text t = []
      · exact Or.inl hempty
      · exact Or.inr (h hnone hempty)

/-- Every component that mentions a term is reported with its scope, exactly if the key of a hit tells the
scope. -/
theorem complete_iff (ht : t ∈ terms) :
    (∀ node ∈ components rt text, mentions rt t node.2 = true →
        ∃ h ∈ searchSbomFile rt text terms, h.term = t ∧ Reports rt h node.2) ↔
      ∀ node ∈ components rt text, ∀ node' ∈ components rt text,
        mentions rt t node.2 = true → mentions rt t node'.2 = true →
          hitKey (componentHit rt t node) = hitKey (componentHit rt t node') →
            (componentFields rt node.2).scope = (componentFields rt node'.2).scope := by
  constructor
  · intro hcomplete node hnode node' hnode' hmention hmention' hkey
    obtain ⟨h, hh, hterm, hname, hversion, hpurl, hscope⟩ := hcomplete node hnode hmention
    obtain ⟨h', hh', hterm', hname', hversion', hpurl', hscope'⟩ := hcomplete node' hnode' hmention'
    rw [searchSbomFile_mentioned ⟨t, ht, node, hnode, hmention⟩, structuredHits_eq] at hh hh'
    have hsame : h = h' := by
      apply firstSeen_inj hh hh'
      rw [show hitKey h = hitKey (componentHit rt t node) by
          simp only [hitKey, componentHit, hterm, hname, hversion, hpurl], hkey]
      simp only [hitKey, componentHit, hterm', hname', hversion', hpurl']
    rw [← hscope, ← hscope', hsame]
  · intro hscopes node hnode hmention
    rw [searchSbomFile_mentioned ⟨t, ht, node, hnode, hmention⟩]
    obtain ⟨h, hh, hkey⟩ := exists_hit hnode ht hmention
    obtain ⟨node', hnode', hmention', hhit⟩ := exists_component hh
    have hterm : h.term = t := (Prod.mk.inj hkey).1
    rw [hterm] at hmention' hhit
    subst hhit
    -- the hit is that of a component with the same key
    have hscope := hscopes node' hnode' node hnode hmention' hmention hkey
    simp only [hitKey, componentHit, Prod.mk.injEq] at hkey
    exact ⟨_, hh, rfl, hkey.2.1, hkey.2.2.1, hkey.2.2.2, hscope⟩

/-- **`search_faithful_iff`** — the search shows for every term what there is for it exactly if nothing that
is shared hides a part of it. -/
theorem search_faithful_iff (rt : TextRuntime) (text : Str) (terms : List Str) :
    SearchFaithful rt text terms ↔ NothingHidden rt text terms := by
  constructor
  · intro h
    refine ⟨?_, ?_, ?_⟩
    · intro t ht
      exact (complete_iff ht).mp (h.complete t ht)
    · intro t ht
      exact ((perTerm_iff ht).mp (h.perTerm t ht)).1
    · intro hnone t ht
      exact ((perTerm_iff ht).mp (h.perTerm t ht)).2 hnone
  · intro h
    have hper : ∀ t ∈ terms, (searchSbomFile rt text terms).filter (·.term = t) = searchSbomFile rt text [t] :=
      fun t ht => (perTerm_iff ht).mpr ⟨h.fallback t ht, fun hnone => h.once hnone t ht⟩
    refine ⟨hper, fun t ht => (complete_iff ht).mpr (h.scopes t ht), ?_⟩
    intro t ht hin
    -- alone, a term that occurs has a hit
    have halone : searchSbomFile rt text [t] ≠ [] := by
      by_cases hmention : Mentioned rt text t
      · rw [searchSbomFile_alone.1 hmention]
        exact fun hnil => structuredHits_eq_nil_iff.mp hnil t (List.mem_singleton_self t) hmention
      · rw [searchSbomFile_alone.2 hmention, textHits_ne_nil_iff]
        exact occursIn_of_infix hin
    rw [← hper t ht] at halone
    obtain ⟨hit, hhit⟩ := List.exists_mem_of_ne_nil _ halone
    obtain ⟨hmem, hterm⟩ := List.mem_filter.mp hhit
    exact ⟨hit, hmem, of_decide_eq_true hterm⟩

/-! ## Two entries of a library -/

/-- Case on ASCII letters, and a single document that can be read. -/
def asciiRuntime (document : Str) (data : Value) : TextRuntime where
  lower := lowerAscii
  sameLetter c d := lowerChar c = lowerChar d
  sameLetter_refl _ := decide_eq_true rfl
  loads text := if text = document then some data else none

def axiosEntry (scope : Str) : Entries := [("name", .str "axios"), ("version", .str "1.6.0"), ("scope", .str scope)]

/-- An SBOM with a library that is used in tests and at run time. -/
def twoScopes : Value := .dict [("components", .list [.dict (axiosEntry "optional"), .dict (axiosEntry "required")])]

/-- The entry of the library at run time is not reported. -/
theorem required_scope_hidden :
    let rt := asciiRuntime (dumps twoScopes) twoScopes
    ("$.components[1]".toList, axiosEntry "required") ∈ components rt (dumps twoScopes) ∧
      mentions rt "axios" (axiosEntry "required") = true ∧
      (searchSbomFile rt (dumps twoScopes) ["axios"]).map (·.scope) = ["optional".toList] ∧
      ¬ SearchFaithful rt (dumps twoScopes) ["axios"] := by
  intro rt
  have hcomponents : components rt (dumps twoScopes) =
      [("$.components[0]".toList, axiosEntry "optional"), ("$.components[1]".toList, axiosEntry "required")] := by
    have hloads : rt.loads (dumps twoScopes) = some twoScopes := by
      show (if dumps twoScopes = dumps twoScopes then some twoScopes else none) = _
      rw [if_pos rfl]
    rw [components, hloads]
    rfl
  have hnode : ("$.components[1]".toList, axiosEntry "required") ∈ components rt (dumps twoScopes) := by
    rw [hcomponents]
    exact List.mem_cons_of_mem _ List.mem_cons_self
  have hmention : mentions rt "axios" (axiosEntry "required") = true := by decide +kernel
  have hscopes : (searchSbomFile rt (dumps twoScopes) ["axios"]).map (·.scope) = ["optional".toList] := by
    decide +kernel
  refine ⟨hnode, hmention, hscopes, fun h => ?_⟩
  obtain ⟨hit, hhit, -, -, -, -, hscope⟩ := h.complete "axios" List.mem_cons_self _ hnode hmention
  have hmem := List.mem_map_of_mem (f := SbomHit.scope) hhit
  rw [hscopes, hscope] at hmem
  exact absurd hmem (by decide +kernel)

end HummingbirdRpms
