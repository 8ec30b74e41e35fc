import Mathlib

/-!
# `replace` of one character

`str.replace(c, new)` of Python and `replaceAll` of JavaScript, for a text of one
character.
-/

namespace CodexMemory

/-- Every `c` becomes `new`. -/
def replaceChar (c : Char) (new : List Char) (s : List Char) : List Char :=
  s.flatMap fun d => if d = c then new else [d]

theorem mem_replaceChar {c d : Char} {new s : List Char} (hd : d ∈ replaceChar c new s) :
    d ∈ new ∨ (d ∈ s ∧ d ≠ c) := by
  obtain ⟨e, he, hmem⟩ := List.mem_flatMap.mp hd
  split at hmem
  · exact Or.inl hmem
  · next hne =>
    obtain rfl := List.mem_singleton.mp hmem
    exact Or.inr ⟨he, hne⟩

/-- Replacing in a text that is made up of parts. -/
theorem replaceChar_flatMap {α : Type} (c : Char) (new : List Char) (s : List α) (f : α → List Char) :
    replaceChar c new (s.flatMap f) = s.flatMap fun a => replaceChar c new (f a) :=
  List.flatMap_assoc

end CodexMemory
