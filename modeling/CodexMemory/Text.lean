import Mathlib.Data.List.Infix

/-!
# Python text

Operations of `str` that the modules share, on Lean strings and characters.
-/

namespace CodexMemory

-- what holds of the characters in a list is decided on the list, not on all characters
instance (priority := 10000) decidableForallMem {α : Type} {P : α → Prop} [DecidablePred P] (l : List α) :
    Decidable (∀ a ∈ l, P a) :=
  List.decidableBAll P l

/-- `str.isspace` of one character. -/
def isSpace (c : Char) : Bool :=
  let n := c.toNat
  (0x09 ≤ n && n ≤ 0x0d) || (0x1c ≤ n && n ≤ 0x20) || n == 0x85 || n == 0xa0 || n == 0x1680 ||
    (0x2000 ≤ n && n ≤ 0x200a) || n == 0x2028 || n == 0x2029 || n == 0x202f || n == 0x205f ||
    n == 0x3000

/-- `str.strip`. -/
def strip (s : String) : String :=
  String.ofList (((s.toList.dropWhile isSpace).reverse.dropWhile isSpace).reverse)

/-- `str.lower`, as far as a result in ASCII depends on it: besides `A` to `Z`
only the Kelvin sign has a lower case in ASCII. -/
def lower (s : String) : String :=
  String.ofList (s.toList.map fun c => if c.toNat = 0x212a then 'k' else c.toLower)

/-- `text[start:stop]` for bounds within the text. -/
def slice (s : String) (start stop : Nat) : String :=
  String.ofList ((s.toList.drop start).take (stop - start))

/-- `part in text`. -/
def isIn (part text : String) : Bool := decide (List.IsInfix part.toList text.toList)

end CodexMemory
