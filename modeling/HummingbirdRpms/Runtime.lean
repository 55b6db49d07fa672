/-
# HummingbirdRpms.Runtime — the Python runtime the tools under `ci/` run on, as far as they see it.

Exceptions with the class an `except` clause tests, `sys.exit` with its status, reading a file of a
package directory in text mode, and the dynamically typed values that a YAML or JSON document parses
to, with the operations the tools perform on them without checking their type first.
-/
import HummingbirdRpms.Lib.Exec
import HummingbirdRpms.Lib.Tree

namespace HummingbirdRpms

open Lib Lib.Text Lib.Exec

/-- The class of a raised exception, as fine as the tools' `except` clauses tell them apart.  A
subclass the tools never name (`FileNotFoundError`, `shutil.SameFileError`, …) is its base class. -/
inductive ExnClass where
  | runtimeError
  | osError
  | valueError
  /-- `UnicodeDecodeError`, a `ValueError`. -/
  | unicodeDecodeError
  | typeError
  | attributeError
  | keyError
  | assertionError
  | yamlError
  | jsonDecodeError
  | calledProcessError
  | timeoutExpired
  | xmlrpcFault
  | httpException
  | xmlrpcProtocolError
  /-- What the specfile library raises. -/
  | specfileException
  deriving DecidableEq

/-- The argument of `sys.exit`. -/
inductive ExitStatus where
  | code (n : Nat)
  /-- A message: printed to stderr, status 1. -/
  | message (m : Str)
  deriving DecidableEq

/-- What a call can end with besides a value. -/
inductive Exn where
  | raised (cls : ExnClass) (msg : Str)
  | systemExit (status : ExitStatus)
  deriving DecidableEq

namespace Exn

/-- `except (RuntimeError, OSError)` -/
def isRuntimeOrOsError : Exn → Bool
  | .raised .runtimeError _ => true
  | .raised .osError _ => true
  | _ => false

/-- Whether an exception is of a class. -/
def isA (cls : ExnClass) : Exn → Bool
  | .raised c _ => c = cls
  | .systemExit _ => false

/-- `str(exc)` -/
def str : Exn → Str
  | .raised _ m => m
  | .systemExit (.code n) => ofNat n
  | .systemExit (.message m) => m

theorem isA_iff {cls : ExnClass} {e : Exn} : e.isA cls = true ↔ ∃ m, e = .raised cls m := by
  cases e with
  | raised c m => simp [isA]
  | systemExit status => simp [isA]

end Exn

/-- `path.read_text()` on what `path` holds; `name` only labels the exception. -/
def decodeText (name : Str) : File → Except Exn Str
  | .text s => .ok (universalNewlines s)
  | .bytes _ => .error (.raised .unicodeDecodeError name)
  | .dir => .error (.raised .osError name)

/-- `(directory / name).read_text()` -/
def readText (t : Tree) (p : Path) : Except Exn Str :=
  match t.read p with
  | some f => decodeText p f
  | none => .error (.raised .osError p)

/-- A text that has been read and written back reads the same. -/
theorem decodeText_text {name name' : Str} {f : File} {s : Str} (h : decodeText name f = .ok s) :
    decodeText name' (.text s) = .ok s := by
  cases f with
  | text raw =>
      obtain rfl := Except.ok.inj h
      exact congrArg Except.ok (universalNewlines_idem raw)
  | bytes b => exact absurd h (by simp [decodeText])
  | dir => exact absurd h (by simp [decodeText])

/-- The components of a path, as `Path` splits it. -/
def pathParts (path : Str) : List Str := (path.splitOn '/').filter fun c => c ≠ [] && c ≠ "."

/-- `Path(path).stem` -/
def pathStem (path : Str) : Str :=
  let name := ((pathParts path).getLast?).getD []
  let stem := (name.rdropWhile (· ≠ '.')).dropLast
  if stem = [] || endsWith "." name then name else stem

theorem readText_congr {t t' : Tree} {p : Path} (h : t'.read p = t.read p) :
    readText t' p = readText t p := by
  simp only [readText, h]

/-! ## Exceptions that `except (RuntimeError, OSError)` lets through -/

/-- A computation that raises what is neither a `RuntimeError` nor an `OSError`. -/
def Unhandled {α : Type} (r : Except Exn α) : Prop :=
  ∃ e, r = .error e ∧ e.isRuntimeOrOsError = false

section Unhandled

variable {α β : Type}

@[simp] theorem not_unhandled_ok (a : α) : ¬ Unhandled (.ok a : Except Exn α) := by
  rintro ⟨e, he, _⟩
  exact absurd he (by simp)

theorem unhandled_error {e : Exn} :
    Unhandled (.error e : Except Exn α) ↔ e.isRuntimeOrOsError = false := by
  simp [Unhandled]

theorem unhandled_bind {x : Except Exn α} {f : α → Except Exn β} :
    Unhandled (x >>= f) ↔ Unhandled x ∨ ∃ a, x = .ok a ∧ Unhandled (f a) := by
  cases x <;> simp [Unhandled]

theorem not_unhandled_failIf {c : Prop} [Decidable c] {e : Exn} (he : e.isRuntimeOrOsError = true) :
    ¬ Unhandled (failIf c e) := by
  rintro ⟨e', h, hcls⟩
  rw [(failIf_error_iff.mp h).2, he] at hcls
  exact Bool.noConfusion hcls

theorem unhandled_decodeText {name : Str} {f : File} :
    Unhandled (decodeText name f) ↔ ∃ b, f = .bytes b := by
  cases f <;> simp [decodeText, unhandled_error, Exn.isRuntimeOrOsError]

theorem unhandled_readText {t : Tree} {p : Path} :
    Unhandled (readText t p) ↔ ∃ b, t.read p = some (.bytes b) := by
  unfold readText
  cases h : t.read p with
  | none => simp [unhandled_error, Exn.isRuntimeOrOsError]
  | some f => simp [unhandled_decodeText]

end Unhandled

/-! ## External programs -/

/-- How `subprocess.run` with text output ends. -/
inductive Proc where
  /-- The program could not be started. -/
  | notStarted (msg : Str)
  /-- It wrote output that is not valid text. -/
  | undecodable
  | exited (code : Int) (stdout stderr : Str)
  deriving DecidableEq

/-- What a finished program leaves behind. -/
@[ext] structure Completed where
  returncode : Int
  stdout : Str
  stderr : Str

namespace Proc

/-- `subprocess.run(..., text=True)` -/
def run : Proc → Except Exn Completed
  | .notStarted msg => .error (.raised .osError msg)
  | .undecodable => .error (.raised .unicodeDecodeError "output")
  | .exited code stdout stderr => .ok ⟨code, stdout, stderr⟩

theorem unhandled_run {p : Proc} : Unhandled p.run ↔ p = .undecodable := by
  cases p <;> simp [run, unhandled_error, Exn.isRuntimeOrOsError]

theorem run_ok_iff {p : Proc} {c : Completed} :
    p.run = .ok c ↔ p = .exited c.returncode c.stdout c.stderr := by
  cases p <;> simp [run, Completed.ext_iff]

end Proc

/-- `str(n)` -/
def ofInt (n : Int) : Str := (toString n).toList

/-- A quotation mark of `repr`. -/
def quoteChar (s : Str) : Char :=
  if s.contains (Char.ofNat 39) && !s.contains (Char.ofNat 34) then Char.ofNat 34
  else Char.ofNat 39

/-- `repr(s)` of a printable string. -/
def reprStr (s : Str) : Str :=
  let q := quoteChar s
  let escape (c : Char) : Str :=
    if c = q || c = Char.ofNat 92 then [Char.ofNat 92, c] else [c]
  q :: s.flatMap escape ++ [q]

/-! ## Dynamically typed values -/

/-- A value as `yaml.safe_load` and `json.load` return it.  A mapping keeps its string keys only: no
lookup of the tools uses another. -/
inductive Value where
  | none
  | bool (b : Bool)
  /-- Any other scalar that is not a string: a number or a date, with whether it is zero. -/
  | num (zero : Bool) (repr : Str)
  | str (s : Str)
  | list (items : List Value)
  | dict (entries : List (Str × Value))

namespace Value

/-- `bool(v)` -/
def truthy : Value → Bool
  | .none => false
  | .bool b => b
  | .num zero _ => !zero
  | .str s => !s.isEmpty
  | .list items => !items.isEmpty
  | .dict entries => !entries.isEmpty

/-- `v is None` -/
def isNone : Value → Bool
  | .none => true
  | _ => false

/-- `v == s` for a string `s` -/
def isStr (s : Str) : Value → Bool
  | .str s' => s' = s
  | _ => false

/-- `d.get(key)` on the entries of a mapping -/
def entry (key : Str) (entries : List (Str × Value)) : Value := (entries.lookup key).getD .none

/-- `v.get(key)` -/
def get (key : Str) : Value → Except Exn Value
  | .dict entries => .ok (entry key entries)
  | _ => .error (.raised .attributeError "get")

/-- `repr(v)` of a scalar -/
def repr : Value → Str
  | .none => "None"
  | .bool b => if b then "True" else "False"
  | .num _ r => r
  | .str s => reprStr s
  | _ => []

/-- `v or {}` -/
def orDict (v : Value) : Value := if v.truthy then v else .dict []

/-- What `for item in v or []` runs over. -/
def itemsOrEmpty (v : Value) : Except Exn (List Value) :=
  if !v.truthy then .ok []
  else
    match v with
    | .list items => .ok items
    | .dict entries => .ok (entries.map fun e => .str e.1)
    | .str s => .ok (s.map fun c => .str [c])
    | _ => .error (.raised .typeError "not iterable")

/-- `pat in v` -/
def contains (pat : Str) : Value → Except Exn Bool
  | .str s => .ok (Text.contains pat s)
  | .list items => .ok (items.any (isStr pat))
  | .dict entries => .ok (entries.any fun e => e.1 = pat)
  | _ => .error (.raised .typeError "not iterable")

/-- `v` where only a string will do: any other value raises. -/
def asStr : Value → Except Exn Str
  | .str s => .ok s
  | _ => .error (.raised .typeError "not a string")

/-- The entries of a mapping -/
abbrev Entries := List (Str × Value)

/-- What a mapping has under a key. -/
abbrev find (key : Str) (entries : Entries) : Option Value := entries.lookup key

/-- `v[key]` -/
def index (key : Str) : Value → Except Exn Value
  | .dict entries =>
      match entries.lookup key with
      | some v => .ok v
      | Option.none => .error (.raised .keyError key)
  | _ => .error (.raised .typeError "indices must be integers")

/-- What `for item in v` runs over. -/
def items : Value → Except Exn (List Value)
  | .list items => .ok items
  | .dict entries => .ok (entries.map fun e => .str e.1)
  | .str s => .ok (s.map fun c => .str [c])
  | _ => .error (.raised .typeError "not iterable")

/-- `v` where only a mapping has the method that is called. -/
def asDict : Value → Except Exn Entries
  | .dict entries => .ok entries
  | _ => .error (.raised .attributeError "not a mapping")

/-- `d[key] = v` -/
def setEntry (key : Str) (v : Value) : Entries → Entries
  | [] => [(key, v)]
  | (k, w) :: entries => if k = key then (k, v) :: entries else (k, w) :: setEntry key v entries

/-- One of the pairs that `d.update` takes from a list. -/
def asPair : Value → Except Exn (Str × Value)
  | .list [.str key, v] => .ok (key, v)
  | .str [c, d] => .ok ([c], .str [d])
  | _ => .error (.raised .valueError "not a pair")

/-- The pairs that `d.update(v)` sets. -/
def updates : Value → Except Exn Entries
  | .dict entries => .ok entries
  | .list items => items.mapM asPair
  | .str s => s.mapM fun c => asPair (.str [c])
  | _ => .error (.raised .typeError "not iterable")

/-- `d.update(pairs)` -/
def updated (entries pairs : Entries) : Entries :=
  pairs.foldl (fun d e => setEntry e.1 e.2 d) entries

/-- `f"{v}"` -/
def format : Value → Str
  | .str s => s
  | v => v.repr

/-- `v == w` of scalars; a number is the same as another that is written the same way. -/
def same : Value → Value → Bool
  | .none, .none => true
  | .bool b, .bool b' => b = b'
  | .num zero r, .num zero' r' => zero = zero' && r = r'
  | .str s, .str s' => s = s'
  | _, _ => false

/-- Whether a value can be an element of a set. -/
def hashable : Value → Bool
  | .list _ => false
  | .dict _ => false
  | _ => true

theorem same_truthy {v w : Value} (h : v.same w = true) : v.truthy = w.truthy := by
  cases v <;> cases w
  all_goals simp_all [same, truthy]

theorem lookup_cons_entry {key k : Str} {v : Value} {entries : Entries} :
    List.lookup k ((key, v) :: entries) = if k = key then some v else entries.lookup k := by
  by_cases h : k = key
  · subst h
    simp
  · rw [if_neg h, List.lookup_cons, beq_false_of_ne h]

theorem lookup_setEntry {key k : Str} {v : Value} {entries : Entries} :
    (setEntry key v entries).lookup k = if k = key then some v else entries.lookup k := by
  induction entries with
  | nil => exact lookup_cons_entry
  | cons e entries ih =>
      obtain ⟨k', w⟩ := e
      rw [setEntry]
      by_cases hkey : k' = key
      · rw [if_pos hkey, lookup_cons_entry, lookup_cons_entry, hkey]
        split
        · rfl
        · rfl
      · rw [if_neg hkey, lookup_cons_entry, lookup_cons_entry, ih]
        by_cases hk : k = k'
        · rw [if_pos hk, if_pos hk, if_neg (by rw [hk]; exact hkey)]
        · rw [if_neg hk, if_neg hk]

theorem lookup_setEntry_ne {key k : Str} {v : Value} {entries : Entries} (h : k ≠ key) :
    (setEntry key v entries).lookup k = entries.lookup k := by
  rw [lookup_setEntry, if_neg h]

theorem asStr_ok {v : Value} {s : Str} (h : v.asStr = .ok s) : v = .str s := by
  cases v with
  | str s' => rw [Except.ok.inj h]
  | _ => exact absurd h (by simp [asStr])

end Value

end HummingbirdRpms
