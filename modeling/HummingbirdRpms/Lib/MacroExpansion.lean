/-
# HummingbirdRpms.Lib.MacroExpansion — texts with references to macros, and two ways to expand them.

A text refers to a macro by its name, with or without braces, and may depend on whether a macro is defined.

* `ExpandsIn` expands in sequence: a reference means the latest definition before it, a definition by value
  was expanded where it stands, one by name is expanded where it is used.
* `Expands` reads all definitions from one table and expands each where it is used.
* `round` is a rewriting pass for each form of a reference, over the whole text.

**`InForce.expands`** — the table gives what the sequence gives if it agrees with the sequence on every
macro that is looked up.  **`round_expands`** and **`round_within`** — a round keeps what a text expands to
and takes one level off the nesting of its references.
-/
import HummingbirdRpms.Lib.Text

namespace HummingbirdRpms.Lib.MacroExpansion

open HummingbirdRpms.Lib.Text

/-! ## Texts -/

/-- `%name`, `%{name}` or `%{?name}`. -/
inductive Form where
  | bare
  | braced
  | optional
  deriving DecidableEq

/-- A text with references.  A conditional has the form `%{?name:body}` or, negated, `%{!?name:body}`. -/
inductive MacroText where
  | nil
  | chr (c : Char) (rest : MacroText)
  | ref (form : Form) (name : Str) (rest : MacroText)
  | cond (negated : Bool) (name : Str) (body rest : MacroText)

/-- A character of a macro's name. -/
def isNameLetter (c : Char) : Bool := isAsciiLetter c || isAsciiDigit c || c = '_'

/-- A name that a reference can have. -/
def IsName (name : Str) : Prop := name ≠ [] ∧ ∀ c ∈ name, isNameLetter c = true

/-- A character that takes no part in a reference. -/
def IsPlain (c : Char) : Prop := c ≠ '%' ∧ c ≠ '\x7b' ∧ c ≠ '\x7d'

instance : DecidablePred IsPlain := fun c => inferInstanceAs (Decidable (c ≠ '%' ∧ c ≠ '\x7b' ∧ c ≠ '\x7d'))

namespace Form

/-- How a reference is written. -/
def text (name : Str) : Form → Str
  | bare => '%' :: name
  | braced => "%\x7b".toList ++ name ++ ['\x7d']
  | optional => "%\x7b?".toList ++ name ++ ['\x7d']

end Form

namespace MacroText

/-- What a conditional begins with. -/
def opening (negated : Bool) : Str := if negated then "%\x7b!?".toList else "%\x7b?".toList

/-- The text as it is written. -/
def render : MacroText → Str
  | nil => []
  | chr c rest => c :: rest.render
  | ref form name rest => form.text name ++ rest.render
  | cond negated name body rest => opening negated ++ name ++ ':' :: (body.render ++ '\x7d' :: rest.render)

def append : MacroText → MacroText → MacroText
  | nil, b => b
  | chr c rest, b => chr c (rest.append b)
  | ref form name rest, b => ref form name (rest.append b)
  | cond negated name body rest, b => cond negated name body (rest.append b)

/-- A text without references. -/
def ofText : Str → MacroText
  | [] => nil
  | c :: s => chr c (ofText s)

/-- Its characters and names can be told from what is around them. -/
def Clean : MacroText → Prop
  | nil => True
  | chr c rest => IsPlain c ∧ rest.Clean
  | ref _ name rest => IsName name ∧ rest.Clean
  | cond _ name body rest => IsName name ∧ body.Clean ∧ rest.Clean

/-- The end of every name without braces can be told as well. -/
def Legible : MacroText → Prop
  | nil => True
  | chr c rest => IsPlain c ∧ rest.Legible
  | ref form name rest =>
      IsName name ∧ (form = .bare → ∀ c ∈ rest.render.head?, isNameLetter c = false) ∧ rest.Legible
  | cond _ name body rest => IsName name ∧ body.Legible ∧ rest.Legible

/-- No braces at all. -/
def braceless : MacroText → Bool
  | nil => true
  | chr _ rest => rest.braceless
  | ref form _ rest => form = .bare && rest.braceless
  | cond .. => false

/-- One level of braces at most. -/
def flat : MacroText → Bool
  | nil => true
  | chr _ rest => rest.flat
  | ref _ _ rest => rest.flat
  | cond _ _ body rest => body.braceless && rest.flat

attribute [local simp] render append Clean Legible braceless flat

variable {a b t : MacroText}

theorem render_append : (a.append b).render = a.render ++ b.render := by
  induction a with
  | nil => rfl
  | chr c rest ih => rw [append, render, ih, render, List.cons_append]
  | ref form name rest ih => rw [append, render, ih, render, List.append_assoc]
  | cond negated name body rest _ ih => simp only [append, render, ih, List.append_assoc, List.cons_append]

theorem render_ofText (s : Str) : (ofText s).render = s := by
  induction s with
  | nil => rfl
  | cons c s ih => rw [ofText, render, ih]

theorem legible_ofText {s : Str} (h : ∀ c ∈ s, IsPlain c) : (ofText s).Legible := by
  induction s with
  | nil => trivial
  | cons c s ih => exact ⟨h c List.mem_cons_self, ih fun d hd => h d (List.mem_cons_of_mem c hd)⟩

theorem Legible.clean (h : t.Legible) : t.Clean := by
  induction t with
  | nil => trivial
  | chr c rest ih => exact ⟨h.1, ih h.2⟩
  | ref form name rest ih => exact ⟨h.1, ih h.2.2⟩
  | cond negated name body rest ihbody ih => exact ⟨h.1, ihbody h.2.1, ih h.2.2⟩

end MacroText

open MacroText

/-! ## Expansion in sequence -/

/-- A definition, by value or by name. -/
structure Def where
  name : Str
  byValue : Bool
  body : MacroText

/-- The latest definition of a name, and those before it; the definitions are listed latest first. -/
def find (name : Str) : List Def → Option (Def × List Def)
  | [] => none
  | d :: ds => if d.name = name then some (d, ds) else find name ds

/-- The definitions with which a body is expanded. -/
def Def.scope (d : Def) (before ds : List Def) : List Def := if d.byValue then before else ds

attribute [local simp] find

/-- Behind the definitions `ds` the text expands to `out`. -/
inductive ExpandsIn : List Def → MacroText → Str → Prop
  | nil {ds : List Def} : ExpandsIn ds .nil []
  | chr {ds : List Def} {c : Char} {rest : MacroText} {out : Str} (hrest : ExpandsIn ds rest out) :
      ExpandsIn ds (.chr c rest) (c :: out)
  | ref {ds before : List Def} {form : Form} {name val out : Str} {d : Def} {rest : MacroText}
      (h : find name ds = some (d, before)) (hlegible : d.body.Legible)
      (hbody : ExpandsIn (d.scope before ds) d.body val) (hrest : ExpandsIn ds rest out) :
      ExpandsIn ds (.ref form name rest) (val ++ out)
  | absent {ds : List Def} {name out : Str} {rest : MacroText} (h : find name ds = none)
      (hrest : ExpandsIn ds rest out) : ExpandsIn ds (.ref .optional name rest) out
  | taken {ds : List Def} {negated : Bool} {name val out : Str} {body rest : MacroText}
      (h : (find name ds).isSome = !negated) (hbody : ExpandsIn ds body val) (hrest : ExpandsIn ds rest out) :
      ExpandsIn ds (.cond negated name body rest) (val ++ out)
  | skipped {ds : List Def} {negated : Bool} {name out : Str} {body rest : MacroText}
      (h : (find name ds).isSome = negated) (hrest : ExpandsIn ds rest out) :
      ExpandsIn ds (.cond negated name body rest) out

section

variable {ds before : List Def} {t : MacroText} {out out' : Str}

/-- A text expands to one text at most. -/
theorem ExpandsIn.det (h : ExpandsIn ds t out) (h' : ExpandsIn ds t out') : out = out' := by
  induction h generalizing out' with
  | nil => cases h'; rfl
  | chr _ ih =>
      cases h' with
      | chr hrest => rw [ih hrest]
  | ref hfind _ _ _ ihbody ihrest =>
      cases h' with
      | ref hfind' _ hbody hrest =>
          rw [hfind] at hfind'
          cases hfind'
          rw [ihbody hbody, ihrest hrest]
      | absent hfind' _ =>
          rw [hfind] at hfind'
          cases hfind'
  | absent hfind _ ih =>
      cases h' with
      | ref hfind' _ _ _ =>
          rw [hfind] at hfind'
          cases hfind'
      | absent _ hrest => exact ih hrest
  | taken hfind _ _ ihbody ihrest =>
      cases h' with
      | taken _ hbody hrest => rw [ihbody hbody, ihrest hrest]
      | skipped hfind' _ =>
          rw [hfind] at hfind'
          cases ‹Bool› <;> cases hfind'
  | skipped hfind _ ih =>
      cases h' with
      | taken hfind' _ _ =>
          rw [hfind] at hfind'
          cases ‹Bool› <;> cases hfind'
      | skipped _ hrest => exact ih hrest

end

/-! ## Expansion from a table -/

abbrev Table := List (Str × MacroText)

/-- With the table the text expands to `out`, through references in braces. -/
inductive Expands (T : Table) : MacroText → Str → Prop
  | nil : Expands T .nil []
  | chr {c : Char} {rest : MacroText} {out : Str} (hrest : Expands T rest out) : Expands T (.chr c rest) (c :: out)
  | ref {form : Form} {name val out : Str} {body rest : MacroText} (hform : form ≠ .bare)
      (h : T.lookup name = some body) (hbody : Expands T body val) (hrest : Expands T rest out) :
      Expands T (.ref form name rest) (val ++ out)
  | absent {name out : Str} {rest : MacroText} (h : T.lookup name = none) (hrest : Expands T rest out) :
      Expands T (.ref .optional name rest) out
  | taken {negated : Bool} {name val out : Str} {body rest : MacroText} (h : (T.lookup name).isSome = !negated)
      (hbody : Expands T body val) (hrest : Expands T rest out) :
      Expands T (.cond negated name body rest) (val ++ out)
  | skipped {negated : Bool} {name out : Str} {body rest : MacroText} (h : (T.lookup name).isSome = negated)
      (hrest : Expands T rest out) : Expands T (.cond negated name body rest) out

/-- The table has of a macro the definition in force, as it is written or as it expands, or neither has one. -/
def Agrees (T : Table) (ds : List Def) (name : Str) : Prop :=
  (find name ds = none → T.lookup name = none) ∧
    ∀ d before, find name ds = some (d, before) → T.lookup name = some d.body ∨
      ∃ val, T.lookup name = some (ofText val) ∧ ExpandsIn (d.scope before ds) d.body val

/-- Every reference that is expanded is written in braces, and the table agrees on every macro that is looked
up, where it is looked up. -/
inductive InForce (T : Table) : List Def → MacroText → Prop
  | nil {ds : List Def} : InForce T ds .nil
  | chr {ds : List Def} {c : Char} {rest : MacroText} (hrest : InForce T ds rest) : InForce T ds (.chr c rest)
  | ref {ds : List Def} {form : Form} {name : Str} {rest : MacroText} (hform : form ≠ .bare)
      (hagrees : Agrees T ds name)
      (hbody : ∀ d before, find name ds = some (d, before) → InForce T (d.scope before ds) d.body)
      (hrest : InForce T ds rest) : InForce T ds (.ref form name rest)
  | cond {ds : List Def} {negated : Bool} {name : Str} {body rest : MacroText} (hagrees : Agrees T ds name)
      (hbody : (find name ds).isSome = !negated → InForce T ds body) (hrest : InForce T ds rest) :
      InForce T ds (.cond negated name body rest)

section

variable {T : Table} {ds : List Def} {a b t : MacroText} {x y out : Str}

theorem expandsIn_ofText (s : Str) : ExpandsIn ds (ofText s) s := by
  induction s with
  | nil => exact .nil
  | cons c s ih => exact .chr ih

theorem inForce_ofText (s : Str) : InForce T ds (ofText s) := by
  induction s with
  | nil => exact .nil
  | cons c s ih => exact .chr ih

theorem expands_ofText (s : Str) : Expands T (ofText s) s := by
  induction s with
  | nil => exact .nil
  | cons c s ih => exact .chr ih

theorem Expands.append (ha : Expands T a x) (hb : Expands T b y) : Expands T (a.append b) (x ++ y) := by
  induction ha with
  | nil => exact hb
  | chr _ ih => exact .chr ih
  | ref hform h hbody _ _ ih =>
      rw [List.append_assoc]
      exact .ref hform h hbody ih
  | absent h _ ih => exact .absent h ih
  | taken h hbody _ _ ih =>
      rw [List.append_assoc]
      exact .taken h hbody ih
  | skipped h _ ih => exact .skipped h ih

theorem Agrees.isSome_eq {name : Str} (h : Agrees T ds name) : (T.lookup name).isSome = (find name ds).isSome := by
  cases hfind : find name ds with
  | none =>
      rw [h.1 hfind]
      rfl
  | some found =>
      rcases h.2 found.1 found.2 hfind with hbody | ⟨_, hbody, _⟩
      · rw [hbody]
        rfl
      · rw [hbody]
        rfl

/-- **`InForce.expands`** — the table gives what the sequence gives. -/
theorem InForce.expands (hin : InForce T ds t) (h : ExpandsIn ds t out) : Expands T t out := by
  induction h with
  | nil => exact .nil
  | chr _ ih =>
      cases hin with
      | chr hrest => exact .chr (ih hrest)
  | ref hfind _ hexp _ ihbody ihrest =>
      cases hin with
      | ref hform hagrees hbody hrest =>
          rcases hagrees.2 _ _ hfind with hlookup | ⟨val', hlookup, hexp'⟩
          · exact .ref hform hlookup (ihbody (hbody _ _ hfind)) (ihrest hrest)
          · obtain rfl := hexp.det hexp'
            exact .ref hform hlookup (expands_ofText _) (ihrest hrest)
  | absent hfind _ ih =>
      cases hin with
      | ref _ hagrees _ hrest => exact .absent (hagrees.1 hfind) (ih hrest)
  | taken hfind _ _ ihbody ihrest =>
      cases hin with
      | cond hagrees hbody hrest =>
          exact .taken (by rw [hagrees.isSome_eq, hfind]) (ihbody (hbody hfind)) (ihrest hrest)
  | skipped hfind _ ih =>
      cases hin with
      | cond hagrees _ hrest => exact .skipped (by rw [hagrees.isSome_eq, hfind]) (ih hrest)

end

/-! ## Rewriting -/

/-- A pass over the conditionals with one level of braces at most in their bodies. -/
def condPass (T : Table) (neg : Bool) : MacroText → MacroText
  | .nil => .nil
  | .chr c rest => .chr c (condPass T neg rest)
  | .ref form name rest => .ref form name (condPass T neg rest)
  | .cond negated name body rest =>
      if negated = neg ∧ body.flat then
        (if (T.lookup name).isSome = negated then .nil else body).append (condPass T neg rest)
      else .cond negated name (condPass T neg body) (condPass T neg rest)

/-- What a pass makes of a reference of its form. -/
def refValue (T : Table) (form : Form) (name : Str) : MacroText :=
  match T.lookup name with
  | some body => body
  | none => if form = .optional then .nil else .ref form name .nil

/-- A pass over the references of a form. -/
def refPass (T : Table) (form : Form) : MacroText → MacroText
  | .nil => .nil
  | .chr c rest => .chr c (refPass T form rest)
  | .ref form' name rest =>
      if form' = form then (refValue T form name).append (refPass T form rest)
      else .ref form' name (refPass T form rest)
  | .cond negated name body rest => .cond negated name (refPass T form body) (refPass T form rest)

/-- A pass for each form. -/
def round (T : Table) (t : MacroText) : MacroText :=
  refPass T .braced (refPass T .optional (condPass T false (condPass T true t)))

attribute [local simp] condPass refPass

/-- References, also those in branches that are not taken, are nested at most so deep. -/
inductive Within (T : Table) : Nat → MacroText → Prop
  | nil {n : Nat} : Within T n .nil
  | chr {n : Nat} {c : Char} {rest : MacroText} (hc : IsPlain c) (hrest : Within T n rest) :
      Within T n (.chr c rest)
  | bare {n : Nat} {name : Str} {rest : MacroText} (hname : IsName name) (hrest : Within T n rest) :
      Within T n (.ref .bare name rest)
  | undefined {n : Nat} {name : Str} {rest : MacroText} (hname : IsName name) (h : T.lookup name = none)
      (hrest : Within T n rest) : Within T n (.ref .braced name rest)
  | absent {n : Nat} {name : Str} {rest : MacroText} (hname : IsName name) (h : T.lookup name = none)
      (hrest : Within T (n + 1) rest) : Within T (n + 1) (.ref .optional name rest)
  | ref {n : Nat} {form : Form} {name : Str} {body rest : MacroText} (hname : IsName name) (hform : form ≠ .bare)
      (h : T.lookup name = some body) (hbody : Within T n body) (hrest : Within T (n + 1) rest) :
      Within T (n + 1) (.ref form name rest)
  | cond {n : Nat} {negated : Bool} {name : Str} {body rest : MacroText} (hname : IsName name)
      (hbody : Within T n body) (hrest : Within T (n + 1) rest) : Within T (n + 1) (.cond negated name body rest)

section

variable {T : Table} {neg : Bool} {form : Form} {n : Nat} {a b t : MacroText} {out : Str}

theorem refValue_some {name : Str} (h : T.lookup name = some b) : refValue T form name = b := by
  rw [refValue, h]

theorem refValue_optional {name : Str} (h : T.lookup name = none) : refValue T .optional name = .nil := by
  rw [refValue, h]
  rfl

theorem refValue_braced {name : Str} (h : T.lookup name = none) :
    refValue T .braced name = .ref .braced name .nil := by
  rw [refValue, h]
  rfl

@[simp] theorem append_nil : a.append .nil = a := by
  induction a with
  | nil => rfl
  | chr c rest ih => rw [MacroText.append, ih]
  | ref form name rest ih => rw [MacroText.append, ih]
  | cond negated name body rest _ ih => rw [MacroText.append, ih]

theorem append_assoc {c : MacroText} : (a.append b).append c = a.append (b.append c) := by
  induction a with
  | nil => rfl
  | chr d rest ih => simp only [MacroText.append, ih]
  | ref form name rest ih => simp only [MacroText.append, ih]
  | cond negated name body rest _ ih => simp only [MacroText.append, ih]

theorem condPass_append : condPass T neg (a.append b) = (condPass T neg a).append (condPass T neg b) := by
  induction a with
  | nil => rfl
  | chr c rest ih => simp only [MacroText.append, condPass, ih]
  | ref form name rest ih => simp only [MacroText.append, condPass, ih]
  | cond negated name body rest _ ih =>
      simp only [MacroText.append, condPass, ih]
      split
      · rw [append_assoc]
      · rfl

theorem refPass_append : refPass T form (a.append b) = (refPass T form a).append (refPass T form b) := by
  induction a with
  | nil => rfl
  | chr c rest ih => simp only [MacroText.append, refPass, ih]
  | ref form name rest ih =>
      simp only [MacroText.append, refPass, ih]
      split
      · rw [append_assoc]
      · rfl
  | cond negated name body rest _ ih => simp only [MacroText.append, refPass, ih]

/-! ## A round keeps what a text expands to -/

theorem condPass_expands (h : Expands T t out) : Expands T (condPass T neg t) out := by
  induction h with
  | nil => exact .nil
  | chr _ ih => exact .chr ih
  | ref hform h hbody _ _ ih => exact .ref hform h hbody ih
  | absent h _ ih => exact .absent h ih
  | @taken negated name val out body rest h hbody _ ihbody ih =>
      rw [condPass]
      split
      · have hne : (T.lookup name).isSome ≠ negated := by
          rw [h]
          cases negated <;> decide
        rw [if_neg hne]
        exact hbody.append ih
      · exact .taken h ihbody ih
  | skipped h _ ih =>
      rw [condPass]
      split
      · exact ih
      · exact .skipped h ih

theorem refPass_expands (h : Expands T t out) : Expands T (refPass T form t) out := by
  induction h with
  | nil => exact .nil
  | chr _ ih => exact .chr ih
  | ref hform h hbody _ _ ih =>
      rw [refPass]
      split
      · rw [refValue_some h]
        exact hbody.append ih
      · exact .ref hform h hbody ih
  | absent h _ ih =>
      rw [refPass]
      split
      · rename_i hform
        subst hform
        rw [refValue_optional h]
        exact ih
      · exact .absent h ih
  | taken h _ _ ihbody ih => exact .taken h ihbody ih
  | skipped h _ ih => exact .skipped h ih

/-- **`round_expands`** — a round keeps what the text expands to. -/
theorem round_expands (h : Expands T t out) : Expands T (round T t) out :=
  refPass_expands (refPass_expands (condPass_expands (condPass_expands h)))

/-! ## A round takes one level off -/

theorem within_ofText {s : Str} (h : ∀ c ∈ s, IsPlain c) : Within T n (ofText s) := by
  induction s with
  | nil => exact .nil
  | cons c s ih => exact .chr (h c List.mem_cons_self) (ih fun d hd => h d (List.mem_cons_of_mem c hd))

theorem Within.mono (h : Within T n t) : Within T (n + 1) t := by
  induction h with
  | nil => exact .nil
  | chr hc _ ih => exact .chr hc ih
  | bare hname _ ih => exact .bare hname ih
  | undefined hname h _ ih => exact .undefined hname h ih
  | absent hname h _ ih => exact .absent hname h ih
  | ref hname hform h _ _ ihbody ih => exact .ref hname hform h ihbody ih
  | cond hname _ _ ihbody ih => exact .cond hname ihbody ih

theorem Within.append (ha : Within T n a) (hb : Within T n b) : Within T n (a.append b) := by
  induction ha with
  | nil => exact hb
  | chr hc _ ih => exact .chr hc (ih hb)
  | bare hname _ ih => exact .bare hname (ih hb)
  | undefined hname h _ ih => exact .undefined hname h (ih hb)
  | absent hname h _ ih => exact .absent hname h (ih hb)
  | ref hname hform h hbody _ _ ih => exact .ref hname hform h hbody (ih hb)
  | cond hname hbody _ _ ih => exact .cond hname hbody (ih hb)

theorem Within.clean (h : Within T n t) : t.Clean := by
  induction h with
  | nil => trivial
  | chr hc _ ih => exact ⟨hc, ih⟩
  | bare hname _ ih => exact ⟨hname, ih⟩
  | undefined hname _ _ ih => exact ⟨hname, ih⟩
  | absent hname _ _ ih => exact ⟨hname, ih⟩
  | ref hname _ _ _ _ _ ih => exact ⟨hname, ih⟩
  | cond hname _ _ ihbody ih => exact ⟨hname, ihbody, ih⟩

/-- Without nesting there are no conditionals. -/
theorem Within.flat_zero (h : Within T 0 t) : t.flat = true := by
  induction t with
  | nil => rfl
  | chr c rest ih =>
      cases h with
      | chr _ hrest => exact ih hrest
  | ref form name rest ih =>
      cases h with
      | bare _ hrest => exact ih hrest
      | undefined _ _ hrest => exact ih hrest
  | cond negated name body rest _ _ => cases h

theorem condPass_within (h : Within T n t) : Within T n (condPass T neg t) := by
  induction h with
  | nil => exact .nil
  | chr hc _ ih => exact .chr hc ih
  | bare hname _ ih => exact .bare hname ih
  | undefined hname h _ ih => exact .undefined hname h ih
  | absent hname h _ ih => exact .absent hname h ih
  | ref hname hform h hbody _ _ ih => exact .ref hname hform h hbody ih
  | cond hname hbody _ ihbody ih =>
      rw [condPass]
      split
      · split
        · exact ih
        · exact hbody.mono.append ih
      · exact .cond hname ihbody ih

theorem refPass_within (hform : form ≠ .bare) (h : Within T n t) : Within T n (refPass T form t) := by
  induction h with
  | nil => exact .nil
  | chr hc _ ih => exact .chr hc ih
  | bare hname _ ih =>
      rw [refPass, if_neg hform.symm]
      exact .bare hname ih
  | undefined hname h _ ih =>
      rw [refPass]
      split
      · rename_i hform
        subst hform
        rw [refValue_braced h]
        exact .undefined hname h ih
      · exact .undefined hname h ih
  | absent hname h _ ih =>
      rw [refPass]
      split
      · rename_i hform
        subst hform
        rw [refValue_optional h]
        exact ih
      · exact .absent hname h ih
  | ref hname hform h hbody _ _ ih =>
      rw [refPass]
      split
      · rw [refValue_some h]
        exact hbody.mono.append ih
      · exact .ref hname hform h hbody ih
  | cond hname _ _ ihbody ih => exact .cond hname ihbody ih

theorem round_append : round T (a.append b) = (round T a).append (round T b) := by
  simp only [round, condPass_append, refPass_append]

/-- What a pass puts in the place of a conditional that it removes. -/
def branch (T : Table) (negated : Bool) (name : Str) (body : MacroText) : MacroText :=
  if (T.lookup name).isSome = negated then .nil else body

theorem condPass_removed {name : Str} {body rest : MacroText} (h : body.flat = true) :
    condPass T neg (.cond neg name body rest) = (branch T neg name body).append (condPass T neg rest) := by
  rw [condPass, if_pos ⟨rfl, h⟩]
  rfl

theorem condPass_kept {negated : Bool} {name : Str} {body rest : MacroText} (h : negated = neg → body.flat = false) :
    condPass T neg (.cond negated name body rest) =
      .cond negated name (condPass T neg body) (condPass T neg rest) := by
  rw [condPass, if_neg]
  rintro ⟨hneg, hflat⟩
  rw [h hneg] at hflat
  cases hflat

theorem branch_within {negated : Bool} {name : Str} {body : MacroText} (h : Within T n body) :
    Within T n (branch T negated name body) := by
  rw [branch]
  split
  · exact .nil
  · exact h

/-- A conditional that no pass removes is rewritten inside. -/
theorem round_cond {negated : Bool} {name : Str} {body rest : MacroText}
    (h : negated = true → body.flat = false) (h' : negated = false → (condPass T true body).flat = false) :
    round T (.cond negated name body rest) = .cond negated name (round T body) (round T rest) := by
  rw [round, condPass_kept h, condPass_kept h']
  rfl

/-- A conditional on its own. -/
theorem round_cond_within {negated : Bool} {name : Str} {body : MacroText} (hname : IsName name)
    (hbody : Within T n body) (hround : ∀ m, n = m + 1 → Within T m (round T body)) :
    Within T n (round T (.cond negated name body .nil)) := by
  have hlater : ∀ {t}, Within T n t → Within T n (refPass T .braced (refPass T .optional t)) :=
    fun h => refPass_within (by decide) (refPass_within (by decide) h)
  by_cases hneg : negated = true ∧ body.flat = true
  · obtain ⟨rfl, hflat⟩ := hneg
    rw [round, condPass_removed hflat]
    exact hlater (condPass_within ((branch_within hbody).append .nil))
  by_cases hpos : negated = false ∧ (condPass T true body).flat = true
  · obtain ⟨rfl, hflat⟩ := hpos
    rw [round, condPass_kept fun h => Bool.noConfusion h, condPass_removed hflat]
    exact hlater ((branch_within (condPass_within hbody)).append .nil)
  · -- its body has a conditional, and is rewritten
    have hdeep : negated = true → body.flat = false := fun h => Bool.eq_false_iff.mpr fun hflat => hneg ⟨h, hflat⟩
    have hdeep' : negated = false → (condPass T true body).flat = false :=
      fun h => Bool.eq_false_iff.mpr fun hflat => hpos ⟨h, hflat⟩
    rw [round_cond hdeep hdeep']
    cases n with
    | zero =>
        cases negated
        · rw [(condPass_within hbody).flat_zero] at hdeep'
          exact absurd (hdeep' rfl) (by decide)
        · rw [hbody.flat_zero] at hdeep
          exact absurd (hdeep rfl) (by decide)
    | succ m => exact .cond hname (hround m rfl) .nil

/-- **`round_within`** — a round takes one level off the nesting. -/
theorem round_within (h : Within T (n + 1) t) : Within T n (round T t) := by
  generalize hm : n + 1 = m at h
  induction h generalizing n with
  | nil => exact .nil
  | chr hc _ ih => exact .chr hc (ih hm)
  | bare hname _ ih => exact .bare hname (ih hm)
  | @undefined _ name rest hname h _ ih =>
      have hround : round T (.ref .braced name rest) = (refValue T .braced name).append (round T rest) := rfl
      rw [hround, refValue_braced h]
      exact .undefined hname h (ih hm)
  | @absent _ name rest _ h _ ih =>
      have hround : round T (.ref .optional name rest) =
          refPass T .braced ((refValue T .optional name).append
            (refPass T .optional (condPass T false (condPass T true rest)))) := rfl
      rw [hround, refValue_optional h]
      exact ih hm
  | @ref k form name body rest hname hform h hbody _ _ ih =>
      obtain rfl : n = k := by omega
      cases form with
      | bare => exact absurd rfl hform
      | braced =>
          have hround : round T (.ref .braced name rest) = (refValue T .braced name).append (round T rest) := rfl
          rw [hround, refValue_some h]
          exact hbody.append (ih rfl)
      | optional =>
          have hround : round T (.ref .optional name rest) =
              refPass T .braced ((refValue T .optional name).append
                (refPass T .optional (condPass T false (condPass T true rest)))) := rfl
          rw [hround, refValue_some h, refPass_append]
          exact (refPass_within (by decide) hbody).append (ih rfl)
  | @cond k negated name body rest hname hbody _ ihbody ih =>
      obtain rfl : n = k := by omega
      have hsplit : MacroText.cond negated name body rest = (MacroText.cond negated name body .nil).append rest := rfl
      rw [hsplit, round_append]
      exact (round_cond_within hname hbody fun m hm => ihbody hm.symm).append (ih rfl)

/-- A text without references is its own expansion. -/
theorem render_of_within_zero (hwithin : Within T 0 t) (h : Expands T t out) : t.render = out := by
  induction t generalizing out with
  | nil =>
      cases h
      rfl
  | chr c rest ih =>
      cases h with
      | chr hrest =>
          cases hwithin with
          | chr _ hwithin => rw [MacroText.render, ih hwithin hrest]
  | ref form name rest _ =>
      cases hwithin with
      | bare _ _ =>
          cases h with
          | ref hform _ _ _ => exact absurd rfl hform
      | undefined _ hnone _ =>
          cases h with
          | ref _ hsome _ _ =>
              rw [hnone] at hsome
              cases hsome
  | cond negated name body rest _ _ => cases hwithin

end

end HummingbirdRpms.Lib.MacroExpansion
