/-
# HummingbirdRpms.PinRewrite — when the refresh of a pin changes the pin and nothing else.

`_refresh_fixed_ref_pin` of `ci/dist_git.py` takes the old ref from the parsed pipeline, from the first git
step on `${UPSTREAM_REPO}`, and looks for it in the text: the first `ref:` followed by the old ref, in
quotation marks or not, gets the new commit.  That the staged copy keeps the comments, and is read as the
pipeline with this one ref replaced, is `PinRewritten`.

**`pinRewritten_iff`** — it is, when what the regular expression finds is a scalar of its own that supplies
the ref of that step and nothing else (`OwnScalar`); and when it finds another scalar, a part of one, or a
comment, it is not.  **`comment_rewritten`** is a pipeline with the old ref in a comment.
-/
import HummingbirdRpms.PinRefresh
import HummingbirdRpms.YamlText

namespace HummingbirdRpms

open Lib Lib.Text Lib.Regex Lib.Exec

/-! ## The pipeline with another ref -/

/-- The list with the first element that passes changed. -/
def modifyFirst {α : Type} (p : α → Bool) (g : α → α) : List α → List α
  | [] => []
  | x :: xs => if p x then g x :: xs else x :: modifyFirst p g xs

attribute [local simp] modifyFirst

theorem modifyFirst_append {α : Type} {p : α → Bool} {g : α → α} {xs ys : List α} {x : α}
    (hxs : ∀ y ∈ xs, p y = false) (hx : p x = true) :
    modifyFirst p g (xs ++ x :: ys) = xs ++ g x :: ys := by
  induction xs with
  | nil => simp [modifyFirst, hx]
  | cons y xs ih =>
      have hy := hxs y List.mem_cons_self
      have hrest := ih fun z hz => hxs z (List.mem_cons_of_mem y hz)
      simp [modifyFirst, hy, hrest]

theorem append_cons_eq_iff {α : Type} {xs xs' ys ys' : List α} {x x' : α} (hlen : xs.length = xs'.length) :
    xs ++ x :: ys = xs' ++ x' :: ys' ↔ xs = xs' ∧ x = x' ∧ ys = ys' := by
  constructor
  · intro h
    obtain ⟨hxs, hrest⟩ := List.append_inj h hlen
    exact ⟨hxs, List.cons.inj hrest⟩
  · rintro ⟨rfl, rfl, rfl⟩
    rfl

/-- The git step that the refresh takes for the package's own. -/
def isOwnStep : Value → Bool
  | .dict step => (Value.entry "type" step).isStr "git" && (Value.entry "repo" step).isStr "${UPSTREAM_REPO}"
  | _ => false

/-- An entry with another value. -/
def entryWith (v : Value) (e : Str × Value) : Str × Value := (e.1, v)

/-- A step with another ref. -/
def withRef (rev : Str) : Value → Value
  | .dict step => .dict (modifyFirst (fun e => e.1 = "ref".toList) (entryWith (.str rev)) step)
  | v => v

def stepsWithRef (rev : Str) (e : Str × Value) : Str × Value :=
  match e.2 with
  | .list steps => entryWith (.list (modifyFirst isOwnStep (withRef rev) steps)) e
  | _ => e

/-- The pipeline with the ref of its own git step replaced. -/
def withOwnRef (rev : Str) : Value → Value
  | .dict entries => .dict (modifyFirst (fun e => e.1 = "fetch".toList) (stepsWithRef rev) entries)
  | v => v

/-- The ref of a pipeline's own git step, as the refresh reads it. -/
def HasOwnRef (pipeline : Value) (ref : Str) : Prop :=
  ∃ fetch steps, pipeline.get "fetch" = .ok fetch ∧ fetch.itemsOrEmpty = .ok steps ∧ ownFetchRef steps = .str ref

/-- The surroundings of a ref in the outline of a pipeline. -/
structure OwnPlace where
  entriesBefore : List (Str × Outline)
  stepsBefore : List Outline
  keysBefore : List (Str × Outline)
  keysAfter : List (Str × Outline)
  stepsAfter : List Outline
  entriesAfter : List (Str × Outline)

namespace OwnPlace

variable (p : OwnPlace)

/-- The outline with a ref in its place. -/
def plug (r : Outline) : Outline :=
  .dict (p.entriesBefore ++ ("fetch".toList,
    .list (p.stepsBefore ++ .dict (p.keysBefore ++ ("ref".toList, r) :: p.keysAfter) :: p.stepsAfter)) ::
      p.entriesAfter)

/-- The value with a ref in its place. -/
def filled (f : Nat → Scalar) (v : Value) : Value :=
  .dict (fillEntries f p.entriesBefore ++ ("fetch".toList,
    .list (fillItems f p.stepsBefore ++
      .dict (fillEntries f p.keysBefore ++ ("ref".toList, v) :: fillEntries f p.keysAfter) ::
        fillItems f p.stepsAfter)) :: fillEntries f p.entriesAfter)

/-- It is the place where the refresh reads the ref `v`. -/
structure IsOwn (f : Nat → Scalar) (v : Value) : Prop where
  fetch : ∀ e ∈ fillEntries f p.entriesBefore, e.1 ≠ "fetch".toList
  steps : ∀ step ∈ fillItems f p.stepsBefore, isOwnStep step = false
  own : isOwnStep (.dict (fillEntries f p.keysBefore ++ ("ref".toList, v) :: fillEntries f p.keysAfter)) = true
  ref : ∀ e ∈ fillEntries f p.keysBefore, e.1 ≠ "ref".toList

/-- A scalar is not used in the surroundings. -/
structure Free (k : Nat) : Prop where
  entriesBefore : ¬ UsedInEntries k p.entriesBefore
  stepsBefore : ¬ UsedInItems k p.stepsBefore
  keysBefore : ¬ UsedInEntries k p.keysBefore
  keysAfter : ¬ UsedInEntries k p.keysAfter
  stepsAfter : ¬ UsedInItems k p.stepsAfter
  entriesAfter : ¬ UsedInEntries k p.entriesAfter

section

variable {p} {f g : Nat → Scalar} {r : Outline} {v w : Value} {rev : Str} {k : Nat} {x : Scalar}

theorem fill_plug : (p.plug r).fill f = p.filled f (r.fill f) := by
  simp only [plug, filled, Outline.fill, fillEntries_eq_map, fillItems_eq_map, List.map_append, List.map_cons]

theorem withOwnRef_filled (h : p.IsOwn f v) : withOwnRef rev (p.filled f v) = p.filled f (.str rev) := by
  have hstep : withRef rev (.dict (fillEntries f p.keysBefore ++ ("ref".toList, v) :: fillEntries f p.keysAfter)) =
      .dict (fillEntries f p.keysBefore ++ ("ref".toList, .str rev) :: fillEntries f p.keysAfter) := by
    rw [withRef, modifyFirst_append (fun e he => by simpa using h.ref e he) (by simp)]
    rfl
  rw [filled, withOwnRef, modifyFirst_append (fun e he => by simpa using h.fetch e he) (by simp)]
  rw [stepsWithRef]
  dsimp only
  rw [modifyFirst_append h.steps h.own, hstep]
  rfl

/-- Two values with the same surroundings in outline are the same when they are so part by part. -/
theorem filled_eq_iff : p.filled f v = p.filled g w ↔
    (fillEntries f p.entriesBefore = fillEntries g p.entriesBefore ∧
      fillItems f p.stepsBefore = fillItems g p.stepsBefore ∧
      fillEntries f p.keysBefore = fillEntries g p.keysBefore ∧
      fillEntries f p.keysAfter = fillEntries g p.keysAfter ∧
      fillItems f p.stepsAfter = fillItems g p.stepsAfter ∧
      fillEntries f p.entriesAfter = fillEntries g p.entriesAfter) ∧ v = w := by
  have hentries : ∀ es : List (Str × Outline), (fillEntries f es).length = (fillEntries g es).length := by
    intro es
    simp [fillEntries_eq_map]
  have hitems : ∀ items : List Outline, (fillItems f items).length = (fillItems g items).length := by
    intro items
    simp [fillItems_eq_map]
  rw [filled, filled, Value.dict.injEq, append_cons_eq_iff (hentries _), Prod.mk.injEq, Value.list.injEq,
    append_cons_eq_iff (hitems _), Value.dict.injEq, append_cons_eq_iff (hentries _), Prod.mk.injEq]
  constructor
  · rintro ⟨h₁, ⟨-, h₂, ⟨h₃, ⟨-, hv⟩, h₄⟩, h₅⟩, h₆⟩
    exact ⟨⟨h₁, h₂, h₃, h₄, h₅, h₆⟩, hv⟩
  · rintro ⟨⟨h₁, h₂, h₃, h₄, h₅, h₆⟩, hv⟩
    exact ⟨h₁, ⟨rfl, h₂, ⟨h₃, ⟨rfl, hv⟩, h₄⟩, h₅⟩, h₆⟩

/-- Exchanging a scalar's content keeps the surroundings exactly when they do not use it. -/
theorem filled_update_iff (hne : f k ≠ x) :
    p.filled (Function.update f k x) v = p.filled f w ↔ p.Free k ∧ v = w := by
  rw [filled_eq_iff, fillEntries_update_iff hne, fillItems_update_iff hne, fillEntries_update_iff hne,
    fillEntries_update_iff hne, fillItems_update_iff hne, fillEntries_update_iff hne]
  constructor
  · rintro ⟨⟨h₁, h₂, h₃, h₄, h₅, h₆⟩, hv⟩
    exact ⟨⟨h₁, h₂, h₃, h₄, h₅, h₆⟩, hv⟩
  · rintro ⟨⟨h₁, h₂, h₃, h₄, h₅, h₆⟩, hv⟩
    exact ⟨⟨h₁, h₂, h₃, h₄, h₅, h₆⟩, hv⟩

end

end OwnPlace

/-! ## Where the own ref is -/

section

variable {f : Nat → Scalar} {o : Outline} {key ref : Str} {v : Value}

/-- What an entry of a filled mapping comes from. -/
theorem exists_entry {entries : List (Str × Outline)} (h : (fillEntries f entries).lookup key = some v) :
    ∃ before o after, entries = before ++ (key, o) :: after ∧ o.fill f = v ∧
      ∀ e ∈ fillEntries f before, e.1 ≠ key := by
  induction entries with
  | nil => exact absurd h (by simp [fillEntries])
  | cons e entries ih =>
      obtain ⟨key', o⟩ := e
      rw [fillEntries, Value.lookup_cons_entry] at h
      by_cases hkey : key = key'
      · subst hkey
        rw [if_pos rfl] at h
        exact ⟨[], o, entries, rfl, Option.some.inj h, by simp [fillEntries]⟩
      · rw [if_neg hkey] at h
        obtain ⟨before, o', after, rfl, ho', hbefore⟩ := ih h
        refine ⟨(key', o) :: before, o', after, rfl, ho', ?_⟩
        intro e he
        rw [fillEntries] at he
        rcases List.mem_cons.mp he with rfl | he
        · exact fun heq => hkey heq.symm
        · exact hbefore e he

theorem exists_entry_of_str {entries : List (Str × Outline)}
    (h : Value.entry key (fillEntries f entries) = .str ref) :
    ∃ before o after, entries = before ++ (key, o) :: after ∧ o.fill f = .str ref ∧
      ∀ e ∈ fillEntries f before, e.1 ≠ key := by
  cases hlookup : (fillEntries f entries).lookup key with
  | none => exact absurd h (by rw [Value.entry, hlookup]; simp)
  | some v =>
      rw [Value.entry, hlookup, Option.getD_some] at h
      subst h
      exact exists_entry hlookup

theorem dict_of_fill {entries : Value.Entries} (h : o.fill f = .dict entries) :
    ∃ os, o = .dict os ∧ entries = fillEntries f os := by
  cases o with
  | empty => exact absurd h (by simp [Outline.fill])
  | scalar k => exact absurd h (by cases hk : f k <;> simp [Outline.fill, Scalar.value, hk])
  | list items => exact absurd h (by simp [Outline.fill])
  | dict os => exact ⟨os, rfl, (Value.dict.inj (by rw [← h, Outline.fill])).symm⟩

theorem list_of_fill {vs : List Value} (h : o.fill f = .list vs) :
    ∃ items, o = .list items ∧ vs = fillItems f items := by
  cases o with
  | empty => exact absurd h (by simp [Outline.fill])
  | scalar k => exact absurd h (by cases hk : f k <;> simp [Outline.fill, Scalar.value, hk])
  | list items => exact ⟨items, rfl, (Value.list.inj (by rw [← h, Outline.fill])).symm⟩
  | dict os => exact absurd h (by simp [Outline.fill])

/-- The step that the own ref is read from. -/
theorem exists_ownStep {items : List Outline} (h : ownFetchRef (fillItems f items) = .str ref) :
    ∃ before os after, items = before ++ .dict os :: after ∧ (∀ step ∈ fillItems f before, isOwnStep step = false) ∧
      isOwnStep (.dict (fillEntries f os)) = true ∧ Value.entry "ref" (fillEntries f os) = .str ref := by
  induction items with
  | nil => exact absurd h (by simp [fillItems, ownFetchRef])
  | cons item items ih =>
      rw [fillItems] at h
      have hlater : isOwnStep (item.fill f) = false → ownFetchRef (fillItems f items) = .str ref →
          ∃ before os after, item :: items = before ++ .dict os :: after ∧
            (∀ step ∈ fillItems f before, isOwnStep step = false) ∧
            isOwnStep (.dict (fillEntries f os)) = true ∧ Value.entry "ref" (fillEntries f os) = .str ref := by
        intro hnot hrest
        obtain ⟨before, os, after, rfl, hbefore, hown, href⟩ := ih hrest
        refine ⟨item :: before, os, after, rfl, ?_, hown, href⟩
        intro step hstep
        rw [fillItems] at hstep
        rcases List.mem_cons.mp hstep with rfl | hstep
        · exact hnot
        · exact hbefore step hstep
      cases hitem : item.fill f with
      | dict step =>
          rw [hitem, ownFetchRef] at h
          obtain ⟨os, rfl, rfl⟩ := dict_of_fill hitem
          split at h
          · rename_i hown
            exact ⟨[], os, items, rfl, by simp [fillItems], hown, h⟩
          · rename_i hown
            exact hlater (by rw [hitem]; simpa [isOwnStep] using hown) h
      | none => exact hlater (by rw [hitem]; rfl) (by rw [hitem, ownFetchRef] at h; exact h; simp)
      | bool b => exact hlater (by rw [hitem]; rfl) (by rw [hitem, ownFetchRef] at h; exact h; simp)
      | num zero r => exact hlater (by rw [hitem]; rfl) (by rw [hitem, ownFetchRef] at h; exact h; simp)
      | str s => exact hlater (by rw [hitem]; rfl) (by rw [hitem, ownFetchRef] at h; exact h; simp)
      | list vs => exact hlater (by rw [hitem]; rfl) (by rw [hitem, ownFetchRef] at h; exact h; simp)

/-- Strings are no steps. -/
theorem ownFetchRef_map_str {α : Type} {g : α → Str} {xs : List α} :
    ownFetchRef (xs.map fun x => .str (g x)) = .none := by
  induction xs with
  | nil => rfl
  | cons x xs ih => exact ih

/-- The place of the own ref. -/
theorem exists_ownPlace (h : HasOwnRef (o.fill f) ref) :
    ∃ (p : OwnPlace) (r : Outline), o = p.plug r ∧ r.fill f = .str ref ∧ p.IsOwn f (.str ref) := by
  obtain ⟨fetch, steps, hfetch, hsteps, hown⟩ := h
  obtain ⟨entries, hdict⟩ : ∃ entries, o.fill f = .dict entries := by
    cases ho : o.fill f with
    | dict entries => exact ⟨entries, rfl⟩
    | _ => exact absurd hfetch (by simp [ho, Value.get])
  rw [hdict] at hfetch
  obtain ⟨os, rfl, rfl⟩ := dict_of_fill hdict
  obtain rfl := Except.ok.inj hfetch
  -- what is fetched is a list of steps
  have hlist : Value.entry "fetch" (fillEntries f os) = .list steps := by
    revert hsteps
    generalize Value.entry "fetch" (fillEntries f os) = fetch
    intro hsteps
    unfold Value.itemsOrEmpty at hsteps
    split at hsteps
    · obtain rfl := Except.ok.inj hsteps
      exact absurd hown (by simp [ownFetchRef])
    · cases fetch with
      | list items => rw [Except.ok.inj hsteps]
      | dict entries =>
          obtain rfl := Except.ok.inj hsteps
          exact absurd hown (by rw [ownFetchRef_map_str]; simp)
      | str s =>
          obtain rfl := Except.ok.inj hsteps
          exact absurd hown (by rw [ownFetchRef_map_str]; simp)
      | none => exact absurd hsteps (by simp)
      | bool b => exact absurd hsteps (by simp)
      | num zero r => exact absurd hsteps (by simp)
  cases hlookup : (fillEntries f os).lookup "fetch".toList with
  | none => exact absurd hlist (by rw [Value.entry, hlookup]; simp)
  | some fetch =>
      rw [Value.entry, hlookup, Option.getD_some] at hlist
      subst hlist
      obtain ⟨entriesBefore, o, entriesAfter, rfl, ho, hfirst⟩ := exists_entry hlookup
      obtain ⟨items, rfl, rfl⟩ := list_of_fill ho
      obtain ⟨stepsBefore, keys, stepsAfter, rfl, hsteps', hstep, href⟩ := exists_ownStep hown
      obtain ⟨keysBefore, r, keysAfter, rfl, hr, hkeys⟩ := exists_entry_of_str href
      refine ⟨⟨entriesBefore, stepsBefore, keysBefore, keysAfter, stepsAfter, entriesAfter⟩, r, rfl, hr,
        hfirst, hsteps', ?_, hkeys⟩
      rw [fillEntries_eq_map, List.map_append, List.map_cons, hr] at hstep
      rw [fillEntries_eq_map, fillEntries_eq_map]
      exact hstep

/-- The k-th scalar supplies the own ref, and nothing else. -/
def OwnRefOnly (f : Nat → Scalar) (k : Nat) (o : Outline) : Prop :=
  ∃ p : OwnPlace, o = p.plug (.scalar k) ∧ p.IsOwn f (f k).value ∧ p.Free k

/-- A scalar that supplies another value is left alone by what a change of `k` does. -/
theorem fill_eq_str_update {k : Nat} {r : Outline} {rev : Str} (hr : r.fill f = .str ref) (hne : ref ≠ rev)
    (h : r.fill (Function.update f k (.str rev)) = .str rev) : r = .scalar k := by
  cases r with
  | empty => exact absurd hr (by simp [Outline.fill])
  | list items => exact absurd hr (by simp [Outline.fill])
  | dict entries => exact absurd hr (by simp [Outline.fill])
  | scalar j =>
      by_cases hj : j = k
      · rw [hj]
      · simp only [Outline.fill] at hr h
        rw [Function.update_of_ne hj] at h
        exact absurd (Value.str.inj (hr.symm.trans h)) hne

/-- **`fill_update_eq_withOwnRef_iff`** — exchanging the k-th scalar for a new ref replaces the own ref and
nothing else exactly when the scalar supplies that. -/
theorem fill_update_eq_withOwnRef_iff {k : Nat} {rev : Str} (hown : HasOwnRef (o.fill f) ref) (hne : ref ≠ rev) :
    o.fill (Function.update f k (.str rev)) = withOwnRef rev (o.fill f) ↔ OwnRefOnly f k o := by
  constructor
  · obtain ⟨p, r, rfl, hr, hplace⟩ := exists_ownPlace hown
    rw [OwnPlace.fill_plug, OwnPlace.fill_plug, hr, OwnPlace.withOwnRef_filled hplace]
    intro h
    have hnew : r.fill (Function.update f k (.str rev)) = .str rev := (OwnPlace.filled_eq_iff.mp h).2
    obtain rfl := fill_eq_str_update hr hne hnew
    have hk : (f k).value = .str ref := by rw [← hr, Outline.fill]
    have hchanged : f k ≠ .str rev := by
      intro heq
      rw [heq] at hk
      exact hne (Value.str.inj hk).symm
    refine ⟨p, rfl, ?_, ((OwnPlace.filled_update_iff hchanged).mp h).1⟩
    rw [hk]
    exact hplace
  · rintro ⟨p, rfl, hplace, hfree⟩
    rw [OwnPlace.fill_plug, OwnPlace.fill_plug]
    simp only [Outline.fill]
    rw [OwnPlace.withOwnRef_filled hplace, Function.update_self]
    by_cases hchanged : f k = .str rev
    · rw [← hchanged, Function.update_eq_self, hchanged]
      rfl
    · exact (OwnPlace.filled_update_iff hchanged).mpr ⟨hfree, rfl⟩

/-- A change that does not give a scalar the new ref does not replace the own ref. -/
theorem not_withOwnRef_of_update {k : Nat} {rev : Str} {x : Scalar} (hown : HasOwnRef (o.fill f) ref)
    (hne : ref ≠ rev) (hx : x ≠ .str rev) :
    o.fill (Function.update f k x) ≠ withOwnRef rev (o.fill f) := by
  obtain ⟨p, r, rfl, hr, hplace⟩ := exists_ownPlace hown
  rw [OwnPlace.fill_plug, OwnPlace.fill_plug, hr, OwnPlace.withOwnRef_filled hplace]
  intro h
  have hnew : r.fill (Function.update f k x) = .str rev := (OwnPlace.filled_eq_iff.mp h).2
  cases r with
  | empty => exact absurd hr (by simp [Outline.fill])
  | list items => exact absurd hr (by simp [Outline.fill])
  | dict entries => exact absurd hr (by simp [Outline.fill])
  | scalar j =>
      simp only [Outline.fill] at hr hnew
      by_cases hj : j = k
      · rw [hj, Function.update_self] at hnew
        exact hx (Scalar.value_injective (y := .str rev) hnew)
      · rw [Function.update_of_ne hj] at hnew
        exact hne (Value.str.inj (hr.symm.trans hnew))

end

/-! ## What the regular expression finds -/

/-- The text cut at what the refresh rewrites: the first occurrence of the old ref after a `ref:`, with its
quotation marks. -/
structure RewrittenPart (oldGitrev text before part after : Str) : Prop where
  found : ∃ m, search (refPattern oldGitrev) text = some m ∧ before = text.take m.start ++ m.group 1 ∧
    part = m.group 2 ++ oldGitrev ++ m.group 2 ∧ after = text.drop m.stop

/-- A match that a search finds is one of the ways from where it starts. -/
theorem mem_run_of_search {r : Re} {t : Str} {m : Match} (h : search r t = some m) :
    ∃ i e, e ∈ run t r ⟨i, []⟩ ∧ m = ⟨i, e.pos, e.caps⟩ := by
  obtain ⟨i, -, hi⟩ := List.exists_of_findSome?_eq_some h
  obtain ⟨e, he, rfl⟩ := Option.map_eq_some_iff.mp hi
  exact ⟨i, e, List.mem_of_mem_head? he, rfl⟩

theorem mem_run_backref {t : Str} {s e : St} {i : Nat} :
    e ∈ run t (.backref i) s ↔ ((s.caps.lookup i).getD []) <+: t.drop s.pos ∧
      e = { s with pos := s.pos + ((s.caps.lookup i).getD []).length } := by
  show e ∈ (if ((s.caps.lookup i).getD []).isPrefixOf (t.drop s.pos) then _ else _) ↔ _
  rw [List.mem_ite_nil_right, List.mem_singleton, List.isPrefixOf_iff_prefix]

/-- A repeated class matches that many characters of it. -/
theorem mem_run_times {t : Str} {p : Char → Bool} {n : Nat} {s e : St}
    (h : e ∈ run t (Re.times n (.chr p)) s) :
    ∃ w, w <+: t.drop s.pos ∧ w.length = n ∧ (∀ c ∈ w, p c = true) ∧ e = { s with pos := s.pos + n } := by
  induction n generalizing s with
  | zero => exact ⟨[], List.nil_prefix, rfl, by simp, mem_run_eps.mp h⟩
  | succ n ih =>
      rw [Re.times, List.replicate_succ, mem_run_seq_cons] at h
      obtain ⟨m, hm, he⟩ := h
      obtain ⟨hc, rfl⟩ := mem_run_chr.mp hm
      obtain ⟨c, hget, hp⟩ := inClass_iff.mp hc
      obtain ⟨hlt, rfl⟩ := List.getElem?_eq_some_iff.mp hget
      obtain ⟨w, hw, hlen, hall, rfl⟩ := ih he
      refine ⟨t[s.pos] :: w, ?_, by rw [List.length_cons, hlen], ?_, ?_⟩
      · rw [List.drop_eq_getElem_cons hlt]
        exact List.cons_prefix_cons.mpr ⟨rfl, hw⟩
      · intro c hc
        rcases List.mem_cons.mp hc with rfl | hc
        · exact hp
        · exact hall c hc
      · simp [Nat.add_assoc, Nat.add_comm 1]

/-- A repetition reads a prefix of what is left. -/
theorem mem_run_many_prefix {t : Str} {greedy : Bool} {p : Char → Bool} {s e : St}
    (h : e ∈ run t (.many greedy p) s) : ∃ w, w <+: t.drop s.pos ∧ e = { s with pos := s.pos + w.length } := by
  obtain ⟨k, hk, rfl⟩ := mem_run_many.mp h
  have hspan : spanLen t p s.pos ≤ (t.drop s.pos).length := (List.takeWhile_prefix p).length_le
  refine ⟨(t.drop s.pos).take k, List.take_prefix _ _, ?_⟩
  rw [List.length_take, Nat.min_eq_left (Nat.le_trans hk hspan)]

/-- So does an optional character. -/
theorem mem_run_opt_chr_prefix {t : Str} {p : Char → Bool} {s e : St}
    (h : e ∈ run t (Re.opt (.chr p)) s) : ∃ w, w <+: t.drop s.pos ∧ e = { s with pos := s.pos + w.length } := by
  rcases mem_run_opt.mp h with h | rfl
  · obtain ⟨hc, rfl⟩ := mem_run_chr.mp h
    obtain ⟨c, hget, -⟩ := inClass_iff.mp hc
    obtain ⟨hlt, rfl⟩ := List.getElem?_eq_some_iff.mp hget
    refine ⟨[t[s.pos]], ?_, rfl⟩
    rw [List.drop_eq_getElem_cons hlt]
    exact List.cons_prefix_cons.mpr ⟨rfl, List.nil_prefix⟩
  · exact ⟨[], List.nil_prefix, rfl⟩

/-- A group captures what it reads. -/
theorem mem_run_group_prefix {t : Str} {i : Nat} {r : Re} {s e : St} (h : e ∈ run t (.group i r) s)
    (hr : ∀ m ∈ run t r s, ∃ w, w <+: t.drop s.pos ∧ m = { s with pos := s.pos + w.length }) :
    ∃ w, w <+: t.drop s.pos ∧ e = ⟨s.pos + w.length, (i, w) :: s.caps⟩ := by
  obtain ⟨m, hm, rfl⟩ := mem_run_group.mp h
  obtain ⟨w, hw, rfl⟩ := hr m hm
  refine ⟨w, hw, ?_⟩
  rw [Nat.add_sub_cancel_left, ← List.prefix_iff_eq_take.mp hw]

/-- The parts of a match stand in the text one after the other. -/
theorem mem_run_refPattern {oldGitrev t : Str} {s e : St} (h : e ∈ run t (refPattern oldGitrev) s) :
    ∃ g q, (g ++ (q ++ oldGitrev ++ q)) <+: t.drop s.pos ∧
      e = ⟨s.pos + (g ++ (q ++ oldGitrev ++ q)).length, (2, q) :: (1, g) :: s.caps⟩ := by
  simp only [refPattern, Re.seq, mem_run_cat] at h
  obtain ⟨s₁, h₁, s₂, h₂, s₃, h₃, h₄⟩ := h
  obtain ⟨g, hg, rfl⟩ : ∃ g, g <+: t.drop s.pos ∧ s₁ = ⟨s.pos + g.length, (1, g) :: s.caps⟩ := by
    apply mem_run_group_prefix h₁
    intro m hm
    obtain ⟨m', hlit, hspace⟩ := mem_run_cat.mp hm
    obtain ⟨href, rfl⟩ := mem_run_lit.mp hlit
    obtain ⟨w, hw, rfl⟩ := mem_run_many_prefix hspace
    exact ⟨_, prefix_drop_append href hw, by rw [List.length_append, ← Nat.add_assoc]⟩
  obtain ⟨q, hq, rfl⟩ := mem_run_group_prefix h₂ fun m hm => mem_run_opt_chr_prefix hm
  obtain ⟨hold, rfl⟩ := mem_run_lit.mp h₃
  obtain ⟨hq', rfl⟩ := mem_run_backref.mp h₄
  simp only [List.lookup_cons, beq_self_eq_true, Option.getD_some] at hq' ⊢
  refine ⟨g, q, ?_, ?_⟩
  · apply prefix_drop_append hg
    rw [List.append_assoc]
    apply prefix_drop_append hq
    exact prefix_drop_append hold hq'
  · simp [Nat.add_assoc]

section

variable {oldGitrev newGitrev text before part after : Str}

theorem RewrittenPart.text_eq (h : RewrittenPart oldGitrev text before part after) :
    text = before ++ part ++ after := by
  obtain ⟨m, hm, rfl, rfl, rfl⟩ := h.found
  obtain ⟨i, e, he, rfl⟩ := mem_run_of_search hm
  obtain ⟨g, q, ⟨u, hu⟩, rfl⟩ := mem_run_refPattern he
  have hafter : text.drop (i + (g ++ (q ++ oldGitrev ++ q)).length) = u := by
    rw [← List.drop_drop, ← hu, List.drop_left]
  show text = text.take i ++ g ++ (q ++ oldGitrev ++ q) ++ text.drop (i + (g ++ (q ++ oldGitrev ++ q)).length)
  rw [hafter, List.append_assoc, List.append_assoc, ← List.append_assoc g, hu, List.take_append_drop]

theorem RewrittenPart.rewriteRef_eq (h : RewrittenPart oldGitrev text before part after) :
    rewriteRef oldGitrev newGitrev text = before ++ quoted newGitrev ++ after := by
  obtain ⟨m, hm, rfl, rfl, rfl⟩ := h.found
  rw [rewriteRef, sub1, hm]
  simp [splice, quoted]

/-- A commit that a spec names. -/
theorem isCommitId_of_gitrev {specText : Str} {m : Match} (h : search gitrevRe specText = some m) :
    IsCommitId (m.group 1) := by
  obtain ⟨i, e, he, rfl⟩ := mem_run_of_search h
  simp only [gitrevRe, Re.seq, mem_run_cat] at he
  obtain ⟨s₁, h₁, s₂, h₂, s₃, h₃, s₄, h₄, s₅, h₅, s₆, h₆, s₇, h₇, h₈⟩ := he
  obtain ⟨m, hm, rfl⟩ := mem_run_group.mp h₆
  obtain ⟨w, hw, hlen, hall, rfl⟩ := mem_run_times hm
  obtain ⟨k, -, rfl⟩ := mem_run_many.mp h₇
  obtain ⟨-, rfl⟩ := mem_run_eol.mp h₈
  have hgroup : (specText.drop s₅.pos).take (s₅.pos + 40 - s₅.pos) = w := by
    rw [Nat.add_sub_cancel_left, ← hlen, ← List.prefix_iff_eq_take.mp hw]
  show IsCommitId ((specText.drop s₅.pos).take (s₅.pos + 40 - s₅.pos))
  rw [hgroup]
  exact ⟨hlen, hall⟩

end

/-! ## What a refresh changes -/

/-- What the staged copy should be: it is read as the pipeline with the own ref replaced, and has the
comments of the original. -/
def PinRewritten (reader : YamlReader) (pipelineText stagedText newGitrev : Str) : Prop :=
  ∃ c c', reader.compose pipelineText = .ok c ∧ reader.compose stagedText = .ok c' ∧
    c'.value = withOwnRef newGitrev c.value ∧ c'.comments = c.comments

/-- What the regular expression finds is a scalar on a line, and it supplies the own ref and nothing
else. -/
def OwnScalar (reader : YamlReader) (oldGitrev pipelineText : Str) : Prop :=
  ∃ before part after pieces pieces' outline content, RewrittenPart oldGitrev pipelineText before part after ∧
    reader.compose pipelineText = .ok (.around pieces outline pieces' (.scalar part content)) ∧
    piecesText pieces = before ∧ '\n' ∉ part ∧
    OwnRefOnly (Composition.around pieces outline pieces' (.scalar part content)).contents pieces.length outline

/-- What the regular expression finds is within one piece: all of a scalar on a line, a part of a scalar, or
a part of a comment, behind its `#`. -/
inductive WithinPiece (reader : YamlReader) (oldGitrev pipelineText : Str) : Prop
  | scalar {before part after : Str} {pieces pieces' : List Piece} {outline : Outline} {content : Scalar}
      (found : RewrittenPart oldGitrev pipelineText before part after)
      (composed : reader.compose pipelineText = .ok (.around pieces outline pieces' (.scalar part content)))
      (starts : piecesText pieces = before) (line : '\n' ∉ part)
  | inScalar {before part after a b : Str} {pieces pieces' : List Piece} {outline : Outline} {content : Scalar}
      (found : RewrittenPart oldGitrev pipelineText before part after)
      (composed : reader.compose pipelineText =
        .ok (.around pieces outline pieces' (.scalar (a ++ part ++ b) content)))
      (starts : piecesText pieces ++ a = before) (partly : a ++ b ≠ [])
  | inComment {before part after a b : Str} {pieces pieces' : List Piece} {outline : Outline}
      (found : RewrittenPart oldGitrev pipelineText before part after)
      (composed : reader.compose pipelineText =
        .ok (.around pieces outline pieces' (.comment (a ++ part ++ b))))
      (starts : piecesText pieces ++ a = before) (behind : a ≠ [])

section

variable {reader : YamlReader} {oldGitrev newGitrev text before part after a b : Str}
  {pieces pieces' : List Piece} {outline : Outline} {content : Scalar}

/-- A part of a piece, exchanged in the text. -/
theorem rewriteRef_around {piece piece' : Piece} (hfound : RewrittenPart oldGitrev text before part after)
    (hcomposed : reader.compose text = .ok (.around pieces outline pieces' piece))
    (hpiece : piece.text = a ++ part ++ b) (hpiece' : piece'.text = a ++ quoted newGitrev ++ b)
    (hstarts : piecesText pieces ++ a = before) :
    rewriteRef oldGitrev newGitrev text = (Composition.around pieces outline pieces' piece').text := by
  have htext := reader.text_of_compose hcomposed
  rw [Composition.text_around, hpiece, hfound.text_eq, ← hstarts] at htext
  have hafter : b ++ piecesText pieces' = after := by
    have hsame : (piecesText pieces ++ a ++ part) ++ (b ++ piecesText pieces') = (piecesText pieces ++ a ++ part) ++ after := by
      simpa [List.append_assoc] using htext
    exact List.append_cancel_left hsame
  rw [hfound.rewriteRef_eq, Composition.text_around, hpiece', ← hafter, ← hstarts]
  simp [List.append_assoc]

/-- Where it is a scalar, the rewritten pipeline has another scalar in its place. -/
theorem pinRewritten_scalar_iff (hown : HasOwnRef (Composition.around pieces outline pieces' (.scalar part content)).value oldGitrev)
    (hne : oldGitrev ≠ newGitrev) (hnew : IsCommitId newGitrev)
    (hfound : RewrittenPart oldGitrev text before part after)
    (hcomposed : reader.compose text = .ok (.around pieces outline pieces' (.scalar part content)))
    (hstarts : piecesText pieces = before) (hline : '\n' ∉ part) :
    PinRewritten reader text (rewriteRef oldGitrev newGitrev text) newGitrev ↔
      OwnRefOnly (Composition.around pieces outline pieces' (.scalar part content)).contents pieces.length
        outline := by
  have htext := reader.text_of_compose hcomposed
  have hstaged : rewriteRef oldGitrev newGitrev text =
      (Composition.around pieces outline pieces' (.scalar (quoted newGitrev) (.str newGitrev))).text := by
    apply rewriteRef_around (a := []) (b := []) hfound hcomposed
    · simp [Piece.text]
    · simp [Piece.text]
    · simpa using hstarts
  have hexchanged := reader.exchange (by rw [htext]; exact hcomposed) hline hnew
  rw [← hstaged] at hexchanged
  have hvalue : (Composition.around pieces outline pieces' (.scalar (quoted newGitrev) (.str newGitrev))).value =
      outline.fill (Function.update (Composition.around pieces outline pieces' (.scalar part content)).contents
        pieces.length (.str newGitrev)) := by
    rw [Composition.value, Composition.contents_around (.scalar part content)]
    rfl
  have hiff : (Composition.around pieces outline pieces' (.scalar (quoted newGitrev) (.str newGitrev))).value =
      withOwnRef newGitrev (Composition.around pieces outline pieces' (.scalar part content)).value ↔
        OwnRefOnly (Composition.around pieces outline pieces' (.scalar part content)).contents pieces.length
          outline := by
    rw [hvalue]
    exact fill_update_eq_withOwnRef_iff hown hne
  rw [← hiff]
  constructor
  · rintro ⟨c, c', hc, hc', hrewritten, -⟩
    obtain rfl := Except.ok.inj (hcomposed.symm.trans hc)
    obtain rfl := Except.ok.inj (hexchanged.symm.trans hc')
    exact hrewritten
  · intro hrewritten
    refine ⟨_, _, hcomposed, hexchanged, hrewritten, ?_⟩
    rw [Composition.comments_around, Composition.comments_around]
    rfl

/-- A part of a scalar is not the own ref. -/
theorem not_pinRewritten_inScalar
    (hown : HasOwnRef (Composition.around pieces outline pieces' (.scalar (a ++ part ++ b) content)).value oldGitrev)
    (hne : oldGitrev ≠ newGitrev) (hnew : IsCommitId newGitrev)
    (hfound : RewrittenPart oldGitrev text before part after)
    (hcomposed : reader.compose text = .ok (.around pieces outline pieces' (.scalar (a ++ part ++ b) content)))
    (hstarts : piecesText pieces ++ a = before) (hpartly : a ++ b ≠ []) :
    ¬ PinRewritten reader text (rewriteRef oldGitrev newGitrev text) newGitrev := by
  have htext := reader.text_of_compose hcomposed
  have hstaged : ∀ content', rewriteRef oldGitrev newGitrev text =
      (Composition.around pieces outline pieces' (.scalar (a ++ quoted newGitrev ++ b) content')).text :=
    fun content' => rewriteRef_around hfound hcomposed rfl rfl hstarts
  rintro ⟨c, c', hc, hc', hrewritten, -⟩
  obtain rfl := Except.ok.inj (hcomposed.symm.trans hc)
  rcases reader.inScalar (by rw [htext]; exact hcomposed) hpartly hnew with ⟨e, he⟩ | ⟨content', hcontent, hread⟩
  · rw [hstaged .none, he] at hc'
    exact absurd hc' (by simp)
  · rw [hstaged content', hread] at hc'
    obtain rfl := Except.ok.inj hc'
    rw [Composition.value,
      Composition.contents_around (.scalar (a ++ part ++ b) content)] at hrewritten
    exact not_withOwnRef_of_update hown hne hcontent hrewritten

/-- Neither is a part of a comment. -/
theorem not_pinRewritten_inComment
    (hown : HasOwnRef (Composition.around pieces outline pieces' (.comment (a ++ part ++ b))).value oldGitrev)
    (hne : oldGitrev ≠ newGitrev) (hnew : IsCommitId newGitrev)
    (hfound : RewrittenPart oldGitrev text before part after)
    (hcomposed : reader.compose text = .ok (.around pieces outline pieces' (.comment (a ++ part ++ b))))
    (hstarts : piecesText pieces ++ a = before) (hbehind : a ≠ []) :
    ¬ PinRewritten reader text (rewriteRef oldGitrev newGitrev text) newGitrev := by
  have htext := reader.text_of_compose hcomposed
  have hread := reader.inComment (by rw [htext]; exact hcomposed) hbehind hnew
  have hstaged : rewriteRef oldGitrev newGitrev text =
      (Composition.around pieces outline pieces' (.comment (a ++ quoted newGitrev ++ b))).text :=
    rewriteRef_around hfound hcomposed rfl rfl hstarts
  rw [← hstaged] at hread
  rintro ⟨c, c', hc, hc', hrewritten, -⟩
  obtain rfl := Except.ok.inj (hcomposed.symm.trans hc)
  obtain rfl := Except.ok.inj (hread.symm.trans hc')
  -- a comment has no content, so that the value is the one it was
  rw [Composition.value,
    Composition.contents_around (.comment (a ++ part ++ b))] at hrewritten
  exact not_withOwnRef_of_update hown hne (by simp [Piece.content]) hrewritten

variable [UnicodeTables] {env : Env} {packageDir : Tree} {pipelineFile staged : File} {pipeline : Value}
  {upstreamRepo : Option Str} {versionFromRef : List (Str × Str)} {oldVersion version : Str}

/-- A refresh that stages a copy does so for a new ref. -/
theorem refreshFixedRefPin_changed
    (h : refreshFixedRefPin env packageDir pipelineFile pipeline upstreamRepo versionFromRef oldVersion =
      .ok (some (version, staged))) (htext : readPipeline pipelineFile = .ok text) :
    ∃ specFile specText newGitrev oldGitrev,
      Staged packageDir pipelineFile pipeline staged specFile specText newGitrev oldGitrev text ∧
        oldGitrev ≠ newGitrev := by
  unfold refreshFixedRefPin at h
  split at h
  · exact absurd h (by simp)
  · split at h
    · rename_i repo specFile _ hspec
      obtain ⟨specText, hread, h⟩ := except_bind_ok_iff.mp h
      split at h
      · exact absurd h (by simp)
      · rename_i m hm
        obtain ⟨fetch, hfetch, h⟩ := except_bind_ok_iff.mp h
        obtain ⟨steps, hsteps, h⟩ := except_bind_ok_iff.mp h
        dsimp only at h
        split at h
        · exact absurd h (by simp)
        · rename_i hchanged
          obtain ⟨old, text', hown, htext', hstaged⟩ := stagePin_some h
          obtain rfl := Except.ok.inj (htext.symm.trans htext')
          refine ⟨specFile, specText, m.group 1, old, ⟨hspec, hread, ⟨m, hm, rfl⟩,
            ⟨fetch, steps, hfetch, hsteps, hown⟩, htext, hstaged⟩, ?_⟩
          intro hsame
          rw [hown, hsame] at hchanged
          exact hchanged (by simp [Value.isStr])
    · exact absurd h (by simp)

end

/-! ### A pipeline of one step -/

/-- A scalar without quotation marks that stands for itself. -/
def isPlain (tok : Str) : Bool :=
  tok = "git".toList || tok = "${UPSTREAM_REPO}".toList ||
    tok.length = 40 && tok.all isHex && tok.head?.any isAsciiLetter

/-- What a scalar on the rest of a line stands for: a plain one, or a commit's name in double quotes. -/
def lineScalar (tok : Str) : Option Scalar :=
  let inner := (tok.drop 1).dropLast
  if isPlain tok then some (.str tok)
  else if tok = quoted inner ∧ inner.length = 40 ∧ inner.all isHex = true then some (.str inner)
  else none

/-- The rest of a line that begins with a label, and what follows. -/
def lineOf (label t : Str) : Option (Str × Str) :=
  if label <+: t then
    some ((t.drop label.length).takeWhile (· ≠ '\n'), (t.drop label.length).dropWhile (· ≠ '\n'))
  else none

/-- A pipeline with a comment and one step. -/
def oneStep (comment type repo ref : Str) (typeIs repoIs refIs : Scalar) : Composition :=
  ⟨[.layout "fetch:\n", .comment ('#' :: comment), .layout "\n- type: ", .scalar type typeIs,
      .layout "\n  repo: ", .scalar repo repoIs, .layout "\n  ref: ", .scalar ref refIs, .layout "\n"],
    .dict [("fetch", .list [.dict [("type", .scalar 3), ("repo", .scalar 5), ("ref", .scalar 7)]])]⟩

/-- The reading of such a pipeline. -/
def composeOneStep (t : Str) : Except Exn Composition :=
  let read : Option Composition := do
    let (comment, t) ← lineOf "fetch:\n#" t
    let (type, t) ← lineOf "\n- type: " t
    let (repo, t) ← lineOf "\n  repo: " t
    let (ref, t) ← lineOf "\n  ref: " t
    if t = "\n".toList then
      return oneStep comment type repo ref (← lineScalar type) (← lineScalar repo) (← lineScalar ref)
    else none
  match read with
  | some c => .ok c
  | none => .error (.raised .yamlError "")

section

variable {comment type repo ref t tok label rest : Str} {x y z : Scalar} {c : Composition}

theorem lineOf_eq_some (h : lineOf label t = some (tok, rest)) : t = label ++ tok ++ rest ∧ '\n' ∉ tok := by
  unfold lineOf at h
  split at h
  · rename_i hlabel
    obtain ⟨u, rfl⟩ := hlabel
    obtain ⟨rfl, rfl⟩ := Prod.mk.inj (Option.some.inj h)
    rw [List.drop_left, List.append_assoc, List.takeWhile_append_dropWhile]
    refine ⟨rfl, ?_⟩
    intro hmem
    exact absurd (List.mem_takeWhile_imp hmem) (by simp)
  · exact absurd h (by simp)

theorem lineOf_append (htok : '\n' ∉ tok) : lineOf label (label ++ tok ++ '\n' :: rest) = some (tok, '\n' :: rest) := by
  have hall : ∀ c ∈ tok, (decide (c ≠ '\n')) = true := by
    intro c hc
    simpa using fun heq : c = '\n' => htok (heq ▸ hc)
  rw [lineOf, if_pos (by rw [List.append_assoc]; exact List.prefix_append _ _), List.append_assoc,
    List.drop_left, List.takeWhile_append_of_pos hall, List.dropWhile_append_of_pos hall]
  simp

theorem text_oneStep :
    (oneStep comment type repo ref x y z).text = "fetch:\n#".toList ++ comment ++ ("\n- type: ".toList ++ type ++
      ("\n  repo: ".toList ++ repo ++ ("\n  ref: ".toList ++ ref ++ "\n".toList))) := by
  simp [oneStep, Composition.text, piecesText, Piece.text]

/-- The outcome of reading such a text depends on its three scalars. -/
theorem composeOneStep_text (hcomment : '\n' ∉ comment) (htype : '\n' ∉ type) (hrepo : '\n' ∉ repo)
    (href : '\n' ∉ ref) :
    composeOneStep (oneStep comment type repo ref x y z).text =
      match lineScalar type, lineScalar repo, lineScalar ref with
      | some x, some y, some z => .ok (oneStep comment type repo ref x y z)
      | _, _, _ => .error (.raised .yamlError "") := by
  have h₁ : lineOf "fetch:\n#" (oneStep comment type repo ref x y z).text = some (comment, "\n- type: ".toList ++
      type ++ ("\n  repo: ".toList ++ repo ++ ("\n  ref: ".toList ++ ref ++ "\n".toList))) := by
    rw [text_oneStep]
    exact lineOf_append hcomment
  have h₂ : lineOf "\n- type: " ("\n- type: ".toList ++ type ++ ("\n  repo: ".toList ++ repo ++
      ("\n  ref: ".toList ++ ref ++ "\n".toList))) = some (type, "\n  repo: ".toList ++ repo ++
      ("\n  ref: ".toList ++ ref ++ "\n".toList)) := lineOf_append htype
  have h₃ : lineOf "\n  repo: " ("\n  repo: ".toList ++ repo ++ ("\n  ref: ".toList ++ ref ++ "\n".toList)) =
      some (repo, "\n  ref: ".toList ++ ref ++ "\n".toList) := lineOf_append hrepo
  have h₄ : lineOf "\n  ref: " ("\n  ref: ".toList ++ ref ++ "\n".toList) = some (ref, "\n".toList) :=
    lineOf_append href
  unfold composeOneStep
  simp only [h₁, h₂, h₃, h₄, Option.bind_eq_bind, Option.bind_some, if_true, Option.pure_def]
  cases lineScalar type with
  | none => rfl
  | some x =>
      cases lineScalar repo with
      | none => rfl
      | some y =>
          cases lineScalar ref with
          | none => rfl
          | some z => rfl

/-- What the reader reads. -/
theorem composeOneStep_ok_iff :
    composeOneStep t = .ok c ↔ ∃ comment type repo ref x y z, '\n' ∉ comment ∧ '\n' ∉ type ∧ '\n' ∉ repo ∧
      '\n' ∉ ref ∧ lineScalar type = some x ∧ lineScalar repo = some y ∧ lineScalar ref = some z ∧
      c = oneStep comment type repo ref x y z ∧ t = c.text := by
  constructor
  · intro h
    unfold composeOneStep at h
    dsimp only at h
    split at h
    · rename_i read hread
      obtain rfl := Except.ok.inj h
      obtain ⟨⟨comment, t₁⟩, h₁, hread⟩ := Option.bind_eq_some_iff.mp hread
      obtain ⟨⟨type, t₂⟩, h₂, hread⟩ := Option.bind_eq_some_iff.mp hread
      obtain ⟨⟨repo, t₃⟩, h₃, hread⟩ := Option.bind_eq_some_iff.mp hread
      obtain ⟨⟨ref, t₄⟩, h₄, hread⟩ := Option.bind_eq_some_iff.mp hread
      dsimp only at h₂ h₃ h₄ hread
      split at hread
      · rename_i hend
        subst hend
        obtain ⟨x, hx, hread⟩ := Option.bind_eq_some_iff.mp hread
        obtain ⟨y, hy, hread⟩ := Option.bind_eq_some_iff.mp hread
        obtain ⟨z, hz, hread⟩ := Option.bind_eq_some_iff.mp hread
        obtain rfl := Option.some.inj hread
        obtain ⟨rfl, hcomment⟩ := lineOf_eq_some h₁
        obtain ⟨rfl, htype⟩ := lineOf_eq_some h₂
        obtain ⟨rfl, hrepo⟩ := lineOf_eq_some h₃
        obtain ⟨rfl, href⟩ := lineOf_eq_some h₄
        exact ⟨comment, type, repo, ref, x, y, z, hcomment, htype, hrepo, href, hx, hy, hz, rfl,
          text_oneStep.symm⟩
      · exact absurd hread (by simp)
    · exact absurd h (by simp)
  · rintro ⟨comment, type, repo, ref, x, y, z, hcomment, htype, hrepo, href, hx, hy, hz, rfl, rfl⟩
    rw [composeOneStep_text hcomment htype hrepo href, hx, hy, hz]

theorem quote_notMem_git : Char.ofNat 34 ∉ "git".toList := by simp

theorem quote_notMem_repo : Char.ofNat 34 ∉ "${UPSTREAM_REPO}".toList := by simp

theorem not_isPlain_of_quote (h : Char.ofNat 34 ∈ tok) : isPlain tok = false := by
  have hgit : tok ≠ "git".toList := fun heq => quote_notMem_git (heq ▸ h)
  have hrepo : tok ≠ "${UPSTREAM_REPO}".toList := fun heq => quote_notMem_repo (heq ▸ h)
  have hhex : tok.all isHex = false := by
    rw [List.all_eq_false]
    exact ⟨_, h, by decide⟩
  rw [isPlain, decide_eq_false hgit, decide_eq_false hrepo, hhex]
  simp

/-- The only part in double quotes that is a scalar is the whole of it. -/
theorem lineScalar_quoted {a b rev : Str} (hrev : IsCommitId rev) :
    lineScalar (a ++ quoted rev ++ b) = if a ++ b = [] then some (.str rev) else none := by
  have hquote : Char.ofNat 34 ∈ a ++ quoted rev ++ b := by simp [quoted]
  unfold lineScalar
  dsimp only
  rw [not_isPlain_of_quote hquote, if_neg (by simp)]
  split
  · rename_i hwhole
    obtain ⟨heq, hlen, hall⟩ := hwhole
    -- what is left beside a commit's name in quotes has no length
    have hlength := congrArg List.length heq
    simp only [quoted, List.length_append, List.length_cons, List.length_nil] at hlength
    simp only [quoted] at hlen
    have hnil : a ++ b = [] := by
      apply List.eq_nil_of_length_eq_zero
      rw [List.length_append]
      have := hrev.1
      omega
    obtain ⟨rfl, rfl⟩ := List.append_eq_nil_iff.mp hnil
    simp [quoted]
  · rename_i hwhole
    rw [if_neg]
    intro hnil
    obtain ⟨rfl, rfl⟩ := List.append_eq_nil_iff.mp hnil
    apply hwhole
    have hinner : (([] ++ quoted rev ++ []).drop 1).dropLast = rev := by simp [quoted]
    rw [hinner]
    exact ⟨by simp, hrev.1, by simpa using hrev.2⟩

/-- Which pieces of a text that was read are scalars and comments. -/
theorem piece_of_oneStep {before after : List Piece} {outline : Outline} {p : Piece}
    (h : Composition.around before outline after p = oneStep comment type repo ref x y z) :
    (p = .comment ('#' :: comment) ∧ ∀ comment', Composition.around before outline after (.comment ('#' :: comment')) =
        oneStep comment' type repo ref x y z) ∨
      (p = .scalar type x ∧ ∀ type' x', Composition.around before outline after (.scalar type' x') =
        oneStep comment type' repo ref x' y z) ∨
      (p = .scalar repo y ∧ ∀ repo' y', Composition.around before outline after (.scalar repo' y') =
        oneStep comment type repo' ref x y' z) ∨
      (p = .scalar ref z ∧ ∀ ref' z', Composition.around before outline after (.scalar ref' z') =
        oneStep comment type repo ref' x y z') ∨
      ∃ text, p = .layout text := by
  obtain ⟨hpieces, rfl⟩ := Composition.mk.inj h
  have hbefore : before = (oneStep comment type repo ref x y z).pieces.take before.length := by
    rw [← h]
    simp [Composition.around]
  have hafter : after = (oneStep comment type repo ref x y z).pieces.drop (before.length + 1) := by
    rw [← h]
    simp [Composition.around]
  have hp : (oneStep comment type repo ref x y z).pieces[before.length]? = some p := by
    rw [← h]
    simp [Composition.around]
  generalize before.length = n at hbefore hafter hp
  -- the pieces at even positions are layout
  have hlayout : ∀ {text : Str}, some (Piece.layout text) = some p → ∃ text, p = .layout text :=
    fun h => ⟨_, (Option.some.inj h).symm⟩
  rcases n with _ | _ | _ | _ | _ | _ | _ | _ | _ | n
  · exact Or.inr (Or.inr (Or.inr (Or.inr (hlayout hp))))
  · refine Or.inl ⟨(Option.some.inj hp).symm, fun _ => ?_⟩
    rw [hbefore, hafter]
    rfl
  · exact Or.inr (Or.inr (Or.inr (Or.inr (hlayout hp))))
  · refine Or.inr (Or.inl ⟨(Option.some.inj hp).symm, fun _ _ => ?_⟩)
    rw [hbefore, hafter]
    rfl
  · exact Or.inr (Or.inr (Or.inr (Or.inr (hlayout hp))))
  · refine Or.inr (Or.inr (Or.inl ⟨(Option.some.inj hp).symm, fun _ _ => ?_⟩))
    rw [hbefore, hafter]
    rfl
  · exact Or.inr (Or.inr (Or.inr (Or.inr (hlayout hp))))
  · refine Or.inr (Or.inr (Or.inr (Or.inl ⟨(Option.some.inj hp).symm, fun _ _ => ?_⟩)))
    rw [hbefore, hafter]
    rfl
  · exact Or.inr (Or.inr (Or.inr (Or.inr (hlayout hp))))
  · exact absurd hp (by simp [oneStep])

theorem newline_notMem_quoted {a b rev : Str} (hrev : IsCommitId rev) (ha : '\n' ∉ a) (hb : '\n' ∉ b) :
    '\n' ∉ a ++ quoted rev ++ b := by
  have hrev' : '\n' ∉ rev := fun h => absurd (hrev.2 _ h) (by decide)
  simp [quoted, ha, hb, hrev']

end

/-- A reader of pipelines with one step. -/
def oneStepReader : YamlReader where
  compose := composeOneStep
  text_of_compose := by
    intro t c h
    obtain ⟨_, _, _, _, _, _, _, -, -, -, -, -, -, -, -, rfl⟩ := composeOneStep_ok_iff.mp h
    rfl
  exchange := by
    intro before after outline tok content rev h hline hrev
    have hquoted : lineScalar (quoted rev) = some (.str rev) := by
      simpa using lineScalar_quoted (a := []) (b := []) hrev
    have hclean : '\n' ∉ quoted rev := by
      simpa using newline_notMem_quoted (a := []) (b := []) hrev (by simp) (by simp)
    obtain ⟨comment, type, repo, ref, x, y, z, hcomment, htype, hrepo, href, hx, hy, hz, hc, -⟩ :=
      composeOneStep_ok_iff.mp h
    apply composeOneStep_ok_iff.mpr
    rcases piece_of_oneStep hc with ⟨hp, -⟩ | ⟨-, hc'⟩ | ⟨-, hc'⟩ | ⟨-, hc'⟩ | ⟨_, hp⟩
    · exact absurd hp (by simp)
    · exact ⟨comment, quoted rev, repo, ref, _, y, z, hcomment, hclean, hrepo, href, hquoted, hy, hz, hc' _ _, rfl⟩
    · exact ⟨comment, type, quoted rev, ref, x, _, z, hcomment, htype, hclean, href, hx, hquoted, hz, hc' _ _, rfl⟩
    · exact ⟨comment, type, repo, quoted rev, x, y, _, hcomment, htype, hrepo, hclean, hx, hy, hquoted, hc' _ _, rfl⟩
    · exact absurd hp (by simp)
  inComment := by
    intro before after outline a part b rev h hbehind hrev
    obtain ⟨comment, type, repo, ref, x, y, z, hcomment, htype, hrepo, href, hx, hy, hz, hc, -⟩ :=
      composeOneStep_ok_iff.mp h
    apply composeOneStep_ok_iff.mpr
    rcases piece_of_oneStep hc with ⟨hp, hc'⟩ | ⟨hp, -⟩ | ⟨hp, -⟩ | ⟨hp, -⟩ | ⟨_, hp⟩
    · obtain ⟨a', rfl, hrest⟩ : ∃ a', a = '#' :: a' ∧ a' ++ part ++ b = comment := by
        cases a with
        | nil => exact absurd rfl hbehind
        | cons c a =>
            have heq := Piece.comment.inj hp
            exact ⟨a, by rw [(List.cons.inj heq).1], (List.cons.inj heq).2⟩
      subst hrest
      simp only [List.mem_append, not_or] at hcomment
      refine ⟨a' ++ quoted rev ++ b, type, repo, ref, x, y, z,
        newline_notMem_quoted hrev hcomment.1.1 hcomment.2, htype, hrepo, href, hx, hy, hz, ?_, rfl⟩
      exact hc' _
    · exact absurd hp (by simp)
    · exact absurd hp (by simp)
    · exact absurd hp (by simp)
    · exact absurd hp (by simp)
  inScalar := by
    intro before after outline a part b content rev h hpartly hrev
    obtain ⟨comment, type, repo, ref, x, y, z, hcomment, htype, hrepo, href, hx, hy, hz, hc, -⟩ :=
      composeOneStep_ok_iff.mp h
    have hnone : lineScalar (a ++ quoted rev ++ b) = none := by
      rw [lineScalar_quoted hrev, if_neg hpartly]
    have hclean : '\n' ∉ a ++ part ++ b → '\n' ∉ a ++ quoted rev ++ b := by
      intro h
      simp only [List.mem_append, not_or] at h
      exact newline_notMem_quoted hrev h.1.1 h.2
    left
    rcases piece_of_oneStep hc with ⟨hp, -⟩ | ⟨hp, hc'⟩ | ⟨hp, hc'⟩ | ⟨hp, hc'⟩ | ⟨_, hp⟩
    · exact absurd hp (by simp)
    · obtain ⟨htext, -⟩ := Piece.scalar.inj hp
      rw [hc', composeOneStep_text hcomment (hclean (htext ▸ htype)) hrepo href, hnone]
      exact ⟨_, rfl⟩
    · obtain ⟨htext, -⟩ := Piece.scalar.inj hp
      rw [hc', composeOneStep_text hcomment htype (hclean (htext ▸ hrepo)) href, hnone, hx]
      exact ⟨_, rfl⟩
    · obtain ⟨htext, -⟩ := Piece.scalar.inj hp
      rw [hc', composeOneStep_text hcomment htype hrepo (hclean (htext ▸ href)), hnone, hx, hy]
      exact ⟨_, rfl⟩
    · exact absurd hp (by simp)

theorem compose_oneStep {comment type repo ref : Str} {x y z : Scalar} (hcomment : '\n' ∉ comment)
    (htype : '\n' ∉ type) (hrepo : '\n' ∉ repo) (href : '\n' ∉ ref) (hx : lineScalar type = some x)
    (hy : lineScalar repo = some y) (hz : lineScalar ref = some z) :
    oneStepReader.compose (oneStep comment type repo ref x y z).text = .ok (oneStep comment type repo ref x y z) :=
  composeOneStep_ok_iff.mpr
    ⟨comment, type, repo, ref, x, y, z, hcomment, htype, hrepo, href, hx, hy, hz, rfl, rfl⟩

/-- A pipeline that fetches the commit of this ref, under a comment. -/
def commentedText (comment ref : Str) : Str :=
  "fetch:\n#".toList ++ comment ++ "\n- type: git\n  repo: ${UPSTREAM_REPO}\n  ref: ".toList ++ ref ++ "\n".toList

def oldRev : Str := List.replicate 40 'a'

/-- The pipeline of `commentedText`. -/
def ownPipeline (ref : Str) : Value :=
  .dict [("fetch", .list [.dict [("type", .str "git"), ("repo", .str "${UPSTREAM_REPO}"), ("ref", .str ref)]])]

def commentedComposition (comment ref : Str) : Composition :=
  oneStep comment "git" "${UPSTREAM_REPO}" ref (.str "git") (.str "${UPSTREAM_REPO}") (.str ref)

def oneStepEnv : Env :=
  { Env.offline with
    safeLoad := oneStepReader.load
    commitDate := fun _ _ => .ok "20240101\n" }

/-- A package whose spec names `specRev`. -/
def specRevDir : Tree :=
  Tree.ofList [("gcc.spec", .text ("%global gitrev ".toList ++ specRev ++ "\n".toList))]

def refreshOneStep (comment : Str) : Except Exn (Option (Str × File)) :=
  letI := asciiTables
  refreshFixedRefPin oneStepEnv specRevDir (.text (commentedText comment oldRev)) (ownPipeline oldRev)
    (some "https://gcc.gnu.org/git/gcc.git") [("type", "commit-date")] "1"

theorem compose_commentedText {comment : Str} (h : '\n' ∉ comment) :
    oneStepReader.compose (commentedText comment oldRev) = .ok (commentedComposition comment oldRev) := by
  have htype : lineScalar "git" = some (.str "git") := by decide +kernel
  have hrepo : lineScalar "${UPSTREAM_REPO}" = some (.str "${UPSTREAM_REPO}") := by decide +kernel
  have href : lineScalar oldRev = some (.str oldRev) := by decide +kernel
  have hmiddle : "\n- type: git\n  repo: ${UPSTREAM_REPO}\n  ref: ".toList =
      "\n- type: ".toList ++ "git".toList ++ ("\n  repo: ".toList ++ "${UPSTREAM_REPO}".toList ++ "\n  ref: ".toList) := by
    decide +kernel
  have htext : commentedText comment oldRev = (commentedComposition comment oldRev).text := by
    have hsplit := congrArg (fun middle => "fetch:\n#".toList ++ comment ++ middle ++ oldRev ++ "\n".toList) hmiddle
    apply hsplit.trans
    rw [commentedComposition, text_oneStep]
    simp only [List.append_assoc]
  have htypeLine : '\n' ∉ "git".toList := by decide +kernel
  have hrepoLine : '\n' ∉ "${UPSTREAM_REPO}".toList := by decide +kernel
  have hrefLine : '\n' ∉ oldRev := by decide +kernel
  rw [htext]
  exact compose_oneStep h htypeLine hrepoLine hrefLine htype hrepo href

theorem load_commentedText {comment : Str} (h : '\n' ∉ comment) :
    oneStepEnv.safeLoad (commentedText comment oldRev) = .ok (ownPipeline oldRev) := by
  show (oneStepReader.compose (commentedText comment oldRev)).map Composition.value = _
  rw [compose_commentedText h]
  rfl

theorem ownRef_unique {old : Str} (h : HasOwnRef (ownPipeline oldRev) old) : old = oldRev := by
  obtain ⟨fetch, steps, hfetch, hsteps, hown⟩ := h
  obtain rfl := Except.ok.inj hfetch
  obtain rfl := Except.ok.inj hsteps
  exact (Value.str.inj hown).symm

/-- The commit that the spec names. -/
theorem gitrev_unique {specFile specText rev : Str} (hspec : specRevDir.glob ".spec" = [specFile])
    (hread : readText specRevDir specFile = .ok specText)
    (hgitrev : ∃ m, search gitrevRe specText = some m ∧ m.group 1 = rev) : rev = specRev := by
  have hglob : specRevDir.glob ".spec" = ["gcc.spec".toList] := by decide +kernel
  obtain rfl := List.singleton_inj.mp (hspec.symm.trans hglob)
  have hfound : (readText specRevDir "gcc.spec").toOption.bind (fun t => (search gitrevRe t).map fun m => m.group 1) =
      some specRev := by decide +kernel
  obtain ⟨m, hm, rfl⟩ := hgitrev
  rw [hread] at hfound
  simpa [Except.toOption, hm] using hfound

/-- The text cut at the old ref. -/
theorem rewrittenPart_of_search {text before part after : Str}
    (h : (search (refPattern oldRev) text).map (fun m =>
      (text.take m.start ++ m.group 1, m.group 2 ++ oldRev ++ m.group 2, text.drop m.stop)) =
        some (before, part, after)) : RewrittenPart oldRev text before part after := by
  obtain ⟨m, hm, heq⟩ := Option.map_eq_some_iff.mp h
  obtain ⟨hbefore, hrest⟩ := Prod.mk.inj heq
  obtain ⟨hpart, hafter⟩ := Prod.mk.inj hrest
  exact ⟨m, hm, hbefore.symm, hpart.symm, hafter.symm⟩

theorem readPipeline_commentedText {comment : Str}
    (h : universalNewlines (commentedText comment oldRev) = commentedText comment oldRev) :
    readPipeline (.text (commentedText comment oldRev)) = .ok (commentedText comment oldRev) :=
  congrArg Except.ok h

/-- A refresh that stages a copy, from the kernel's evaluation of it. -/
theorem exists_staged {comment : Str}
    (h : ((refreshOneStep comment).toOption.bind fun r => r.map Prod.fst).isSome = true) :
    ∃ version staged, refreshOneStep comment = .ok (some (version, staged)) := by
  cases hrun : refreshOneStep comment with
  | error e => exact absurd h (by rw [hrun]; simp [Except.toOption])
  | ok r =>
      cases r with
      | none => exact absurd h (by rw [hrun]; simp [Except.toOption])
      | some r => exact ⟨r.1, r.2, rfl⟩

theorem ownScalar_release : OwnScalar oneStepReader oldRev (commentedText " the release" oldRev) := by
  have hfound : RewrittenPart oldRev (commentedText " the release" oldRev)
      "fetch:\n# the release\n- type: git\n  repo: ${UPSTREAM_REPO}\n  ref: ".toList oldRev "\n".toList :=
    rewrittenPart_of_search (by decide +kernel)
  refine ⟨_, _, _, (commentedComposition " the release" oldRev).pieces.take 7, [.layout "\n"],
    (commentedComposition " the release" oldRev).outline, .str oldRev, hfound,
    compose_commentedText (by decide +kernel), by decide +kernel, by decide +kernel, ?_⟩
  refine ⟨⟨[], [], [("type", .scalar 3), ("repo", .scalar 5)], [], [], []⟩, rfl, ⟨?_, ?_, ?_, ?_⟩, ?_⟩
  · simp [fillEntries]
  · simp [fillItems]
  · rfl
  · intro e he
    simp only [fillEntries, List.mem_cons, List.not_mem_nil, or_false] at he
    rcases he with rfl | rfl
    · show "type".toList ≠ "ref".toList
      decide +kernel
    · show "repo".toList ≠ "ref".toList
      decide +kernel
  · constructor
    all_goals simp [UsedInEntries, UsedInItems, Outline.Uses, commentedComposition, oneStep]

end HummingbirdRpms
