import CodexMemory.Text
import Mathlib.Data.Char
import Mathlib.Data.List.Lex
import Mathlib.Data.List.Sort
import Mathlib.Data.Nat.Digits.Defs

/-!
# JSON values and their text

The values that Python's `json` module reads and writes, and `json.dumps`
with `ensure_ascii=False`: a backslash before the quote, the backslash and
the control characters below `0x20`, every other character as it is.  The
text of a float is a parameter (`PyFloat`).
-/

namespace CodexMemory

/-- A JSON value; `F` is the type of floats. -/
inductive Json (F : Type)
  | null
  | bool (b : Bool)
  | int (n : Int)
  | float (x : F)
  | str (s : String)
  | arr (items : List (Json F))
  | obj (fields : List (String × Json F))

namespace Json

/-- The constants that `json` writes for the floats that are no numbers. -/
def constants : List (List Char) :=
  [['N', 'a', 'N'], ['I', 'n', 'f', 'i', 'n', 'i', 't', 'y'],
    ['-', 'I', 'n', 'f', 'i', 'n', 'i', 't', 'y']]

/-- The digits before the point of a number. -/
def IsInteger (ds : List Char) : Prop :=
  ds = ['0'] ∨ ∃ d rest, ds = d :: rest ∧ d.isDigit = true ∧ d ≠ '0' ∧ ∀ c ∈ rest, c.isDigit = true

def IsFraction (text : List Char) : Prop :=
  text = [] ∨ ∃ ds, text = '.' :: ds ∧ ds ≠ [] ∧ ∀ c ∈ ds, c.isDigit = true

def IsExponent (text : List Char) : Prop :=
  text = [] ∨ ∃ e sign ds, text = e :: (sign ++ ds) ∧ (e = 'e' ∨ e = 'E') ∧
    (sign = [] ∨ sign = ['+'] ∨ sign = ['-']) ∧ ds ≠ [] ∧ ∀ c ∈ ds, c.isDigit = true

/-- A number with a fraction or an exponent. -/
def IsFloatText (text : List Char) : Prop :=
  ∃ sign int frac exp, text = sign ++ (int ++ (frac ++ exp)) ∧ (sign = [] ∨ sign = ['-']) ∧
    IsInteger int ∧ IsFraction frac ∧ IsExponent exp ∧ (frac ≠ [] ∨ exp ≠ [])

/-- Floats: their text (`float.__repr__`, or a constant), which is read back as
the same float, and `x == 0.0`. -/
class PyFloat (F : Type) where
  repr : F → List Char
  ofText : List Char → Option F
  isZero : F → Bool
  repr_shape : ∀ x, repr x ∈ constants ∨ IsFloatText (repr x)
  ofText_repr : ∀ x, ofText (repr x) = some x

/-- JSON without floats. -/
instance : PyFloat Empty where
  repr x := nomatch x
  ofText _ := none
  isZero x := nomatch x
  repr_shape x := nomatch x
  ofText_repr x := nomatch x

/-- **Induction on a value**, with a hypothesis for every item and every field. -/
@[elab_as_elim]
theorem induction {F : Type} {motive : Json F → Prop} (null : motive .null) (bool : ∀ b, motive (.bool b))
    (int : ∀ n, motive (.int n)) (float : ∀ x, motive (.float x)) (str : ∀ s, motive (.str s))
    (arr : ∀ items, (∀ v ∈ items, motive v) → motive (.arr items))
    (obj : ∀ fields, (∀ field ∈ fields, motive field.2) → motive (.obj fields)) (v : Json F) :
    motive v :=
  match v with
  | .null => null
  | .bool b => bool b
  | .int n => int n
  | .float x => float x
  | .str s => str s
  | .arr items => arr items fun v _ => induction null bool int float str arr obj v
  | .obj fields => obj fields fun field _ => induction null bool int float str arr obj field.2
termination_by sizeOf v
decreasing_by
  all_goals simp_wf
  · have hlt := List.sizeOf_lt_of_mem ‹_›
    omega
  · have hlt := List.sizeOf_lt_of_mem ‹_›
    have hfield : sizeOf field.2 < sizeOf field := by
      obtain ⟨key, value⟩ := field
      simp only [Prod.mk.sizeOf_spec]
      omega
    omega

/-- `dict.get` on an object. -/
def get? {F : Type} (key : String) : Json F → Option (Json F)
  | .obj fields => fields.lookup key
  | _ => none

/-- `isinstance(value, dict)`. -/
def isObject {F : Type} : Json F → Bool
  | .obj _ => true
  | _ => false

/-! ## `json.dumps` -/

/-- The digits of a number in base ten, the leading one first. -/
def natText (n : Nat) : List Char :=
  if n = 0 then ['0'] else (Nat.digits 10 n).reverse.map Nat.digitChar

def intText : Int → List Char
  | .ofNat n => natText n
  | .negSucc n => '-' :: natText (n + 1)

/-- The two hexadecimal digits that follow `\u00`. -/
def hex2 (n : Nat) : List Char := [Nat.digitChar (n / 16), Nat.digitChar (n % 16)]

/-- The text of one character inside a string. -/
def escape (c : Char) : List Char :=
  if c = '"' then ['\\', '"']
  else if c = '\\' then ['\\', '\\']
  else if c = '\n' then ['\\', 'n']
  else if c = '\r' then ['\\', 'r']
  else if c = '\t' then ['\\', 't']
  else if c = '\x08' then ['\\', 'b']
  else if c = '\x0c' then ['\\', 'f']
  else if c.toNat < 0x20 then ['\\', 'u', '0', '0'] ++ hex2 c.toNat
  else [c]

def quote (s : List Char) : List Char := '"' :: s.flatMap escape ++ ['"']

/-- The `separators` argument. -/
structure Separators where
  item : List Char
  key : List Char

def Separators.default : Separators := ⟨[',', ' '], [':', ' ']⟩

def Separators.compact : Separators := ⟨[','], [':']⟩

variable {F : Type} [PyFloat F]

mutual

/-- `json.dumps(value, ensure_ascii=False, separators=sep)`. -/
def dumps (sep : Separators) : Json F → List Char
  | .null => ['n', 'u', 'l', 'l']
  | .bool true => ['t', 'r', 'u', 'e']
  | .bool false => ['f', 'a', 'l', 's', 'e']
  | .int n => intText n
  | .float x => PyFloat.repr x
  | .str s => quote s.toList
  | .arr [] => ['[', ']']
  | .arr (v :: rest) => '[' :: dumps sep v ++ dumpsItems sep rest ++ [']']
  | .obj [] => ['{', '}']
  | .obj ((k, v) :: rest) =>
    '{' :: quote k.toList ++ sep.key ++ dumps sep v ++ dumpsFields sep rest ++ ['}']

/-- The items after the first. -/
def dumpsItems (sep : Separators) : List (Json F) → List Char
  | [] => []
  | v :: rest => sep.item ++ dumps sep v ++ dumpsItems sep rest

/-- The fields after the first. -/
def dumpsFields (sep : Separators) : List (String × Json F) → List Char
  | [] => []
  | (k, v) :: rest =>
    sep.item ++ quote k.toList ++ sep.key ++ dumps sep v ++ dumpsFields sep rest

end

/-- The order of `sort_keys=True`. -/
def keyBefore (a b : String × Json F) : Prop := a.1.toList ≤ b.1.toList

instance : DecidableRel (keyBefore (F := F)) := fun a b => by unfold keyBefore; infer_instance

mutual

/-- The value with the fields of every object in key order. -/
def sortKeys : Json F → Json F
  | .arr items => .arr (sortItems items)
  | .obj fields => .obj ((sortFields fields).insertionSort keyBefore)
  | v => v

def sortItems : List (Json F) → List (Json F)
  | [] => []
  | v :: rest => sortKeys v :: sortItems rest

def sortFields : List (String × Json F) → List (String × Json F)
  | [] => []
  | (k, v) :: rest => (k, sortKeys v) :: sortFields rest

end

end Json

end CodexMemory
