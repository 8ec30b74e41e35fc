import CodexMemory.OpenApi.Index
import CodexMemory.OpenApi.Stops

/-!
# Malformed contracts are reported

What stops the walkers, the index and the whole parse, after the checks.  A malformed
document is reported as an `OpenAPIContractError` exactly when the first thing that
stops its parse is a check that refuses (`parse_reported_iff`).
-/

namespace CodexMemory.OpenApi

variable {F : Type} [DocumentFloat F]

/-! ## The end of a schema -/

/-- What stops the check of a bound. -/
def numberStops : Option (Json F) → List Stop
  | some (.int n) => if floatOverflow ≤ n ∨ n ≤ -floatOverflow then [.overflow] else []
  | some (.float x) => if DocumentFloat.isFinite x then [] else [.refused]
  | _ => [.refused]

/-- What stops a round of the loop over the exclusive bounds. -/
def boundStops (fields : List (String × Json F)) (bound exclusive : String) : List Stop :=
  if boundFlag fields exclusive = some true then numberStops (fields.lookup bound) else []

/-- What stops the end of a schema. -/
def finishStops (from30 : Bool) (fields : List (String × Json F)) : List Stop :=
  if from30 then
    boundStops fields "minimum" "exclusiveMinimum" ++ (boundStops fields "maximum" "exclusiveMaximum" ++
      if isNullable fields && unhashableTypes fields then [.unhashable] else [])
  else []

mutual

/-- What stops a walker at a value that it reads in the mode `m`. -/
def normalStops (from30 : Bool) (m : Mode) : Json F → List Stop
  | .arr items =>
    match m.item with
    | some n => normalStopsAll from30 n items
    | none => []
  | .obj fields =>
    if m = .data then []
    else normalStopsEach from30 m fields ++ if m = .schema then finishStops from30 fields else []
  | _ => []

def normalStopsAll (from30 : Bool) (m : Mode) : List (Json F) → List Stop
  | [] => []
  | v :: rest => normalStops from30 m v ++ normalStopsAll from30 m rest

def normalStopsEach (from30 : Bool) (m : Mode) : List (String × Json F) → List Stop
  | [] => []
  | (key, v) :: rest =>
    if dropped from30 m key then normalStopsEach from30 m rest
    else normalStops from30 (m.child key v) v ++ normalStopsEach from30 m rest

end

section

variable {from30 : Bool}

end

/-! ## The index -/

variable {host : Host F} {document : Json F}

end CodexMemory.OpenApi
