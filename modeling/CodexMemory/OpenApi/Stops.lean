import CodexMemory.OpenApi.Resolution

/-!
# What stops the checks on a document

Every check of `api_operations.py` either refuses with an `OpenAPIContractError` or
computes something that may raise another exception.  For each of them a list says
what stops it, in order, and a lemma that it does.
-/

namespace CodexMemory.OpenApi

/-- What stops a parse: a check that refuses, or something that a call cannot compute. -/
inductive Stop
  /-- A check refuses. -/
  | refused
  /-- A key is an integer that `str` does not write. -/
  | longKey
  /-- A reference takes digits that `int` does not read as an index of a list. -/
  | badIndex
  /-- A part of the version is made of digits that `int` does not read. -/
  | badVersion
  /-- `_resolve` comes to a reference that cannot be followed, or to the end of its calls. -/
  | unresolved
  /-- `float` does not take a bound. -/
  | overflow
  /-- A type is a dictionary or a list. -/
  | unhashable
  /-- A method is not under its name in lower case. -/
  | upperMethod
  /-- `str` does not write an integer of a value that is hashed. -/
  | longInteger
  /-- A string has no UTF-8. -/
  | surrogate
  deriving DecidableEq

/-- An `OpenAPIContractError` with an error. -/
def Reported (e : Failure) : Prop := ∃ message issue issues, e = .contract message (issue :: issues)

/-- What is raised at a stop. -/
inductive Raised : Failure → Stop → Prop
  | refused (message : String) (issue : Issue) (issues : List Issue) :
    Raised (.contract message (issue :: issues)) .refused
  | longKey : Raised tooManyDigits .longKey
  | badIndex (token : String) : Raised (.value token) .badIndex
  | badVersion (version : String) : Raised (.value version) .badVersion
  | lost (reference : String) : Raised (.key reference) .unresolved
  | lostIndex (token : String) : Raised (.value token) .unresolved
  | recursion : Raised .recursion .unresolved
  | overflow : Raised .overflow .overflow
  | unhashable : Raised .type .unhashable
  | upperMethod (method : String) : Raised (.key method) .upperMethod
  | longInteger : Raised tooManyDigits .longInteger
  | surrogate : Raised .encode .surrogate

section

variable {α β : Type}

/-- The call raises nothing but an `OpenAPIContractError`. -/
def Refuses (x : Except Failure α) : Prop := ∀ e, x = .error e → Reported e

/-- The stops of a check that only refuses. -/
def refusals (x : Except Failure α) : List Stop :=
  match x with
  | .ok _ => []
  | .error _ => [.refused]

theorem refuses_ok (a : α) : Refuses (.ok a) := nofun

theorem refuses_reject (code message : String) : Refuses (reject (α := α) code message) := by
  rintro e h
  cases h
  exact ⟨_, _, _, rfl⟩

theorem refuses_rejectAt (code message path : String) (extra : List (String × String)) :
    Refuses (rejectAt (α := α) code message path extra) := by
  rintro e h
  cases h
  exact ⟨_, _, _, rfl⟩

theorem Refuses.bind {x : Except Failure α} {f : α → Except Failure β} (hx : Refuses x) (hf : ∀ a, Refuses (f a)) :
    Refuses (x >>= f) := by
  intro e h
  cases x with
  | error e' =>
    cases h
    exact hx e rfl
  | ok a => exact hf a e h

theorem Refuses.stopped {x : Except Failure α} (h : Refuses x) : StoppedBy Raised x (refusals x) := by
  cases x with
  | ok a => exact stopped_ok a
  | error e =>
    obtain ⟨message, issue, issues, rfl⟩ := h e rfl
    exact stopped_error (.refused message issue issues)

theorem stopped_rejectAt (code message path : String) (extra : List (String × String)) :
    StoppedBy Raised (rejectAt (α := α) code message path extra) [.refused] :=
  stopped_error (.refused _ _ _)

end

variable {F : Type}

mutual

theorem walk_refuses : ∀ (v : Loaded F) (path : String) (depth : Nat), Refuses (walk path depth v)
  | .null, path, depth | .bool _, path, depth | .int _, path, depth | .float _, path, depth | .str _, path, depth
  | .other, path, depth => by
    unfold walk
    split
    · exact refuses_rejectAt _ _ _ _
    · exact refuses_ok _
  | .again, path, depth => by
    rw [walk]
    split <;> exact refuses_rejectAt _ _ _ _
  | .arr items, path, depth => by
    rw [walk]
    split
    · exact refuses_rejectAt _ _ _ _
    · exact walkItems_refuses items path depth 0
  | .obj fields, path, depth => by
    rw [walk]
    split
    · exact refuses_rejectAt _ _ _ _
    · exact walkFields_refuses fields path depth

theorem walkItems_refuses : ∀ (items : List (Loaded F)) (path : String) (depth index : Nat),
    Refuses (walkItems path depth index items)
  | [], _, _, _ => refuses_ok _
  | v :: rest, path, depth, _ =>
    (walk_refuses v _ _).bind fun _ => (walkItems_refuses rest path depth _).bind fun _ => refuses_ok _

theorem walkFields_refuses : ∀ (fields : List (Key × Loaded F)) (path : String) (depth : Nat),
    Refuses (walkFields path depth fields)
  | [], _, _ => refuses_ok _
  | (.other _, _) :: _, _, _ => refuses_rejectAt _ _ _ _
  | (.long, _) :: _, _, _ => refuses_rejectAt _ _ _ _
  | (.text key, v) :: rest, path, depth => by
    have hrest : ∀ own : List (String × String), Refuses (do
        let refs ← walk (childPath path key) (depth + 1) v
        let more ← walkFields path depth rest
        return own ++ refs ++ more) := fun own =>
      (walk_refuses v _ _).bind fun _ => (walkFields_refuses rest path depth).bind fun _ => refuses_ok _
    rw [walkFields]
    split
    · split
      · exact hrest _
      · exact refuses_rejectAt _ _ _ _
    · exact hrest []

end

/-! ## Keys and numbers of a decoded value -/

section

variable [DocumentFloat F]

mutual

/-- What stops `_validate_json_values`. -/
def valueStops : Loaded F → List Stop
  | .float x => if DocumentFloat.isFinite x then [] else [.refused]
  | .other => [.refused]
  | .again => [.refused]
  | .arr items => itemStops items
  | .obj fields => fieldStops fields
  | _ => []

def itemStops : List (Loaded F) → List Stop
  | [] => []
  | v :: rest => valueStops v ++ itemStops rest

def fieldStops : List (Key × Loaded F) → List Stop
  | [] => []
  | (.long, _) :: _ => [.longKey]
  | (_, v) :: rest => valueStops v ++ fieldStops rest

end

mutual

theorem validateJsonValues_stopped : ∀ (v : Loaded F) (path : String),
    StoppedBy Raised (validateJsonValues path v) (valueStops v)
  | .null, _ | .bool _, _ | .int _, _ | .str _, _ => stopped_ok ()
  | .float x, path => by
    rw [validateJsonValues, valueStops]
    split
    · exact stopped_ok ()
    · exact stopped_rejectAt _ _ _ _
  | .other, _ => stopped_error (.refused _ _ _)
  | .again, _ => stopped_rejectAt _ _ _ _
  | .arr items, path => validateItems_stopped items path 0
  | .obj fields, path => validateFields_stopped fields path

theorem validateItems_stopped : ∀ (items : List (Loaded F)) (path : String) (index : Nat),
    StoppedBy Raised (validateItems path index items) (itemStops items)
  | [], _, _ => stopped_ok ()
  | v :: rest, path, _ => (validateJsonValues_stopped v _).bind fun _ _ => validateItems_stopped rest path _

theorem validateFields_stopped : ∀ (fields : List (Key × Loaded F)) (path : String),
    StoppedBy Raised (validateFields path fields) (fieldStops fields)
  | [], _ => stopped_ok ()
  | (.long, _) :: _, _ => stopped_error .longKey
  | (.text _, v) :: rest, path => (validateJsonValues_stopped v _).bind fun _ _ => validateFields_stopped rest path
  | (.other _, v) :: rest, path => (validateJsonValues_stopped v _).bind fun _ _ => validateFields_stopped rest path

end

end

/-! ## References -/

/-- The tokens lead to a list with digits that `int` does not read. -/
def meetsBadIndex (host : Host F) : Json F → List String → Bool
  | .obj fields, token :: rest =>
    match fields.lookup token with
    | some w => meetsBadIndex host w rest
    | none => false
  | .arr items, token :: rest =>
    isDigits host token &&
      match intOfDigits host token with
      | none => true
      | some index =>
        match items[index]? with
        | some w => meetsBadIndex host w rest
        | none => false
  | _, _ => false

def badIndex (host : Host F) (document : Json F) (reference : String) : Bool :=
  match tokensOf reference with
  | some tokens => meetsBadIndex host document tokens
  | none => false

variable {host : Host F} {document : Json F}

/-- A version of three parts of digits, one of which `int` does not read. -/
def badVersion (host : Host F) (version : String) : Bool :=
  match (splitOn '.' version.toList).map String.ofList with
  | [major, minor, patch] =>
    (isDigits host major && isDigits host minor && isDigits host patch) &&
      ((intOfDigits host major).isNone || (intOfDigits host minor).isNone || (intOfDigits host patch).isNone)
  | _ => false

section

variable {version : String}

end

end CodexMemory.OpenApi
