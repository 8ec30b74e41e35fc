import CodexMemory.Json.Value
import CodexMemory.Sorting
import CodexMemory.Table
import Mathlib.Algebra.Order.Ring.Unbundled.Rat
import Mathlib.Data.List.SplitOn

/-!
# Retrieval of `pipelines/v11_retrieval.py`

`search` loads the live memories of all projects, keeps those in the scope of the
project, scores them by the tokens that they share with the query and, where the
project has a dense profile, ranks them a second time by their embedding vectors and
fuses the two ranks.  `build_context` packs the results into a text within a budget.

The floats of the scores are of a type `S` with a linear order; their arithmetic is a
parameter (`Arith`).
-/

namespace CodexMemory.Retrieval

/-! ## Tables -/

structure Project where
  projectKey : String
  deriving DecidableEq

structure FeatureFlags where
  denseRetrievalEnabled : Bool
  deriving DecidableEq

structure RetrievalProfile where
  activeEmbeddingProfileId : Option Nat
  deriving DecidableEq

structure EmbeddingProfile where
  dimension : Nat
  normalization : String
  deriving DecidableEq

/-- A `MemoryRow`; its content is an object. -/
structure Memory (F : Type) where
  projectId : Option Nat
  level : String
  memoryType : String
  title : Option String
  content : List (String × Json F)
  status : String
  deprecated : Bool
  scope : String
  reviewStatus : String

/-- A `MemoryEmbeddingVectorRow`. -/
structure Vector (S : Type) where
  memoryId : Nat
  embeddingProfileId : Nat
  embedding : List S

/-- The `parameters` of a response. -/
structure Parameters where
  scopeMode : String
  layers : List String
  memoryTypes : List String
  limit : Nat
  rrfK : Nat
  denseEnabled : Bool
  deriving DecidableEq

/-- A `RetrievalAuditRow`. -/
structure Audit where
  projectId : Nat
  queryHash : String
  retrievalMode : String
  degraded : Bool
  degradedReason : Option String
  profileId : Option Nat
  parameters : Parameters
  resultIds : List Nat

/-- The flags and the retrieval profiles are keyed by their project; no two projects have one key. -/
structure Database (F S : Type) where
  projects : Table Project
  flags : Table FeatureFlags
  retrievalProfiles : Table RetrievalProfile
  embeddingProfiles : Table EmbeddingProfile
  memories : Table (Memory F)
  vectors : Table (Vector S)
  audits : Table Audit
  keys_nodup : (projects.rows.map fun r => r.2.projectKey).Nodup

inductive Error
  | value (message : String)
  | lookup (message : String)
  deriving DecidableEq

/-! ## Tokens -/

/-- `str.lower` of a character, as far as tokens depend on it: besides `A` to `Z` only the Kelvin sign
and the `I` with a dot have a lower case in ASCII. -/
def lowerChar (c : Char) : List Char :=
  if c.toNat = 0x212a then ['k'] else if c.toNat = 0x130 then ['i', Char.ofNat 0x307] else [c.toLower]

def lowered (text : List Char) : List Char := text.flatMap lowerChar

/-- `[a-z0-9_]` -/
def isTokenChar (c : Char) : Bool := ('a' ≤ c && c ≤ 'z') || ('0' ≤ c && c ≤ '9') || c = '_'

def isCjk (c : Char) : Bool := 0x4e00 ≤ c.toNat && c.toNat ≤ 0x9fff

/-- `_tokens`: the words, the CJK characters and the pairs of neighbours among these. -/
def tokens (text : List Char) : List (List Char) :=
  let words := ((lowered text).splitOnP fun c => !isTokenChar c).filter fun word => !word.isEmpty
  let cjk := (lowered text).filter isCjk
  (words ++ cjk.map (fun c => [c]) ++ List.zipWith (fun a b => [a, b]) cjk cjk.tail).eraseDups

/-- `_lexical_score` -/
def lexicalScore (queryTokens : List (List Char)) (text : List Char) : Nat :=
  if queryTokens.isEmpty then 0 else (queryTokens.filter fun token => (tokens text).contains token).length

/-! ## What the retriever takes from elsewhere -/

/-- Arithmetic of scores: `1.0 / n`, the sum, the product, `0`, `-1.0`, and the steps of
`EmbeddingProfileService._vector` (the bytes of the digest of a text and a counter, each divided by
`127.5` less one, and the division by the norm). -/
structure Arith (S : Type) where
  reciprocal : Nat → S
  add : S → S → S
  mul : S → S → S
  zero : S
  minusOne : S
  digest : String → Nat → List S
  normalized : List S → List S

/-- `str` is the `str()` of a JSON value. -/
structure Host (F S : Type) where
  arith : Arith S
  str : Json F → String
  sha256 : String → String

section

variable {F S : Type}

/-- `_vector`: the digests of the text with a counter, cut to the dimension. -/
def vector (arith : Arith S) (text : String) (dimension : Nat) (normalization : String) : List S :=
  let values := ((List.range ((dimension + 31) / 32)).flatMap (arith.digest text)).take dimension
  if normalization = "l2" then arith.normalized values else values

/-- `_dot` -/
def dot (arith : Arith S) (left right : List S) : S :=
  if left.length ≠ right.length || left.isEmpty then arith.minusOne
  else (List.zipWith arith.mul left right).foldl arith.add arith.zero

/-! ## Candidates -/

/-- The conditions of the query. -/
def live (row : Memory F) : Bool :=
  ["published", "accepted", "active"].contains row.status && ["published", "accepted"].contains row.reviewStatus &&
    !row.deprecated

/-- `_scope_matches` -/
def scopeMatches (row : Memory F) (projectId : Nat) (scopeMode : String) : Bool :=
  let ofProject := row.projectId = some projectId && row.scope = "project"
  let isGlobal := row.projectId = none && row.scope = "global"
  if scopeMode = "project_only" then ofProject
  else if scopeMode = "global_only" then isGlobal
  else ofProject || isGlobal

/-- `not values or value in set(values)` -/
def allowed (values : Option (List String)) (value : String) : Bool :=
  match values with
  | none | some [] => true
  | some values => values.contains value

/-- What a caller asks for. -/
structure Filters where
  scopeMode : String := "project_and_global"
  layers : Option (List String) := none
  memoryTypes : Option (List String) := none

def admitted (filters : Filters) (projectId : Nat) (row : Memory F) : Bool :=
  live row && scopeMatches row projectId filters.scopeMode && allowed filters.layers row.level &&
    allowed filters.memoryTypes row.memoryType

/-- The rows in the order of their ids, filtered. -/
def candidates (db : Database F S) (filters : Filters) (projectId : Nat) : List (Nat × Memory F) :=
  (sortBy Prod.fst db.memories.rows).filter fun row => admitted filters projectId row.2

/-! ## Ranks -/

/-- A memory with its lexical score. -/
structure Scored (F : Type) where
  id : Nat
  row : Memory F
  score : Nat

/-- `_LAYER_ORDER.get(level, 99)` -/
def layerOrder (level : String) : Nat :=
  if level = "L3" then 0 else if level = "L2" then 1 else if level = "L1" then 2 else 99

def rrfK : Nat := 60

section

variable [Json.PyFloat F]

/-- `_memory_text` -/
def memoryText (row : Memory F) : List Char :=
  lowered ((row.title.getD "").toList ++ ' ' :: Json.dumps .default (Json.sortKeys (.obj row.content)))

def scoreOf (queryTokens : List (List Char)) (row : Nat × Memory F) : Scored F :=
  ⟨row.1, row.2, lexicalScore queryTokens (memoryText row.2)⟩

/-- The rows that are ranked: with dense retrieval all of them. -/
def scored (queryTokens : List (List Char)) (denseEnabled : Bool) (rows : List (Nat × Memory F)) : List (Scored F) :=
  (rows.map (scoreOf queryTokens)).filter fun item => 0 < item.score || queryTokens.isEmpty || denseEnabled

end

def lexicalKey (item : Scored F) : Int ×ₗ Nat ×ₗ Nat :=
  toLex (-(item.score : Int), toLex (layerOrder item.row.level, item.id))

def lexicalSorted (items : List (Scored F)) : List (Scored F) := sortBy lexicalKey items

/-- The index of an id, counted from one. -/
def rankIn (ids : List Nat) (id : Nat) : Option Nat := (ids.idxOf? id).map fun index => index + 1

variable [LinearOrder S]

/-- `dense_score[id] = max(dense_score.get(id, -1.0), score)` -/
def putScore (arith : Arith S) (scores : List (Nat × S)) (row : Nat × S) : List (Nat × S) :=
  if scores.any fun s => s.1 = row.1 then scores.map fun s => if s.1 = row.1 then (s.1, max s.2 row.2) else s
  else scores ++ [(row.1, max arith.minusOne row.2)]

/-- The vectors of the profile and the memories. -/
def vectorRows (db : Database F S) (profileId : Nat) (ids : List Nat) : List (Vector S) :=
  (db.vectors.rows.map Prod.snd).filter fun v => v.embeddingProfileId = profileId && ids.contains v.memoryId

/-- The best score of each memory, in the order of the first vectors. -/
def denseScores (arith : Arith S) (queryVector : List S) (rows : List (Vector S)) : List (Nat × S) :=
  (rows.map fun v => (v.memoryId, dot arith queryVector v.embedding)).foldl (putScore arith) []

/-- The memories by their dense scores. -/
def denseSorted (scores : List (Nat × S)) : List (Nat × S) :=
  sortBy (fun s => (toLex (OrderDual.toDual s.2, s.1) : Sᵒᵈ ×ₗ Nat)) scores

/-- The reciprocal ranks of a memory, added up. -/
def fused (arith : Arith S) (lexicalIds denseIds : List Nat) (count id : Nat) : S :=
  arith.add (arith.reciprocal (rrfK + (rankIn lexicalIds id).getD (count + 1)))
    (arith.reciprocal (rrfK + (rankIn denseIds id).getD (count + 1)))

def hybridSorted (arith : Arith S) (lexicalIds denseIds : List Nat) (items : List (Scored F)) : List (Scored F) :=
  sortBy (fun item => (toLex (OrderDual.toDual (fused arith lexicalIds denseIds items.length item.id),
    toLex (layerOrder item.row.level, item.id)) : Sᵒᵈ ×ₗ Nat ×ₗ Nat)) items

/-! ## `search` -/

/-- One item of the results. -/
structure Result (F S : Type) where
  memoryId : Nat
  projectId : Option Nat
  level : String
  scope : String
  memoryType : String
  title : String
  content : Json F
  rank : Nat
  rrfScore : S
  sourceIds : Json F
  lexicalScore : Nat

/-- `_result_payload` -/
def resultPayload (arith : Arith S) (item : Scored F) (rank : Nat) : Result F S where
  memoryId := item.id
  projectId := item.row.projectId
  level := item.row.level
  scope := item.row.scope
  memoryType := item.row.memoryType
  title := item.row.title.getD ""
  content := (item.row.content.lookup "text").getD (.obj item.row.content)
  rank := rank
  rrfScore := arith.reciprocal (rrfK + rank)
  sourceIds := (item.row.content.lookup "source_ids").getD (.arr [])
  lexicalScore := item.score

structure Response (F S : Type) where
  retrievalMode : String
  degraded : Bool
  degradedReason : Option String
  profileId : Option Nat
  parameters : Parameters
  results : List (Result F S)
  auditId : Option Nat

/-- `enumerate(items, start=1)` with a payload for each. -/
def payloads (arith : Arith S) (items : List (Scored F)) : List (Result F S) :=
  (items.zipIdx 1).map fun item => resultPayload arith item.1 item.2

/-- What the ranking yields: the mode, the reason for which it is degraded, and the results. -/
structure Ranked (F S : Type) where
  mode : String
  reason : Option String
  results : List (Result F S)

def lexicalResults (arith : Arith S) (items : List (Scored F)) (limit : Nat) (reason : Option String) : Ranked F S :=
  ⟨"lexical", reason, payloads arith ((lexicalSorted items).take limit)⟩

def hybridResults (arith : Arith S) (items : List (Scored F)) (denseIds : List Nat) (limit : Nat) : Ranked F S :=
  let lexicalIds := (lexicalSorted items).map Scored.id
  ⟨"hybrid", none, (payloads arith ((hybridSorted arith lexicalIds denseIds items).take limit)).map fun payload =>
    { payload with rrfScore := fused arith lexicalIds denseIds items.length payload.memoryId }⟩

/-- The branch without a profile, the one without vectors, and the one with both. -/
def ranked (arith : Arith S) (db : Database F S) (query : String) (items : List (Scored F)) (limit : Nat)
    (denseEnabled : Bool) (profile : Option (Nat × EmbeddingProfile)) : Ranked F S :=
  if !denseEnabled then lexicalResults arith items limit none
  else
    match profile with
    | none => lexicalResults arith items limit (some "active_profile_missing")
    | some (profileId, profile) =>
      let queryVector := vector arith query profile.dimension profile.normalization
      let scores := denseScores arith queryVector (vectorRows db profileId (items.map Scored.id))
      if scores.isEmpty then lexicalResults arith items limit (some "dense_vectors_missing")
      else hybridResults arith items ((denseSorted scores).map Prod.fst) limit

/-- `bool(flags is not None and flags.dense_retrieval_enabled)` -/
def denseEnabled (db : Database F S) (projectId : Nat) : Bool :=
  ((db.flags.get? projectId).map FeatureFlags.denseRetrievalEnabled).getD false

/-- The id of the active embedding profile. -/
def profileIdOf (db : Database F S) (projectId : Nat) : Option Nat :=
  (db.retrievalProfiles.get? projectId).bind RetrievalProfile.activeEmbeddingProfileId

/-- The active embedding profile, with its id. -/
def profileOf (db : Database F S) (projectId : Nat) : Option (Nat × EmbeddingProfile) :=
  (profileIdOf db projectId).bind fun id => (db.embeddingProfiles.get? id).map fun profile => (id, profile)

/-- `max(1, min(value, most))` -/
def clamp (most : Int) (value : Int) : Nat := (max 1 (min value most)).toNat

def validScopeModes : List String := ["project_only", "project_and_global", "global_only"]

section

variable [Json.PyFloat F]

/-- The response for a project that exists. -/
def response (arith : Arith S) (db : Database F S) (projectId : Nat) (query : String) (filters : Filters)
    (limit : Nat) : Response F S :=
  let queryTokens := tokens query.toList
  let dense := denseEnabled db projectId
  let items := scored queryTokens dense (candidates db filters projectId)
  let out := ranked arith db query items limit dense (profileOf db projectId)
  { retrievalMode := out.mode
    degraded := out.reason.isSome
    degradedReason := out.reason
    profileId := if dense then profileIdOf db projectId else none
    parameters :=
      { scopeMode := filters.scopeMode
        layers := filters.layers.getD []
        memoryTypes := filters.memoryTypes.getD []
        limit := limit
        rrfK := rrfK
        denseEnabled := dense }
    results := out.results
    auditId := none }

/-- The audit row of a response. -/
def auditOf (host : Host F S) (projectId : Nat) (query : String) (r : Response F S) : Audit where
  projectId := projectId
  queryHash := host.sha256 query
  retrievalMode := r.retrievalMode
  degraded := r.degraded
  degradedReason := r.degradedReason
  profileId := r.profileId
  parameters := r.parameters
  resultIds := r.results.map Result.memoryId

/-- `search` -/
def search (host : Host F S) (db : Database F S) (projectKey query : String) (filters : Filters) (limit : Int)
    (includeAudit : Bool) : Except Error (Response F S) × Database F S :=
  if !validScopeModes.contains filters.scopeMode then (.error (.value ("不支持的作用域模式：" ++ filters.scopeMode)), db)
  else
    match db.projects.rows.find? fun p => p.2.projectKey = projectKey with
    | none => (.error (.lookup ("project does not exist: " ++ projectKey)), db)
    | some (projectId, _) =>
      let out := response host.arith db projectId query filters (clamp 50 limit)
      if includeAudit then
        (.ok { out with auditId := some db.audits.nextId },
          { db with audits := db.audits.insert (auditOf host projectId query out) })
      else (.ok out, db)

/-! ## `build_context` -/

/-- `_estimate_tokens`: one token for six characters, rounded up. -/
def estimateTokens (text : String) : Nat := max 1 ((text.length + 5) / 6)

/-- The text so far, the memories in it, and whether one was left out. -/
structure Draft where
  text : String
  sourceIds : List Nat
  truncated : Bool

def taskHeading (task : String) : String := "\n[Current Task]\n" ++ task

def addItem (host : Host F S) (budget : Nat) (task : String) (draft : Draft) (item : Result F S) : Draft :=
  let line := "- " ++ item.title ++ " (type=" ++ item.memoryType ++ ")\n  " ++ host.str item.content ++ "\n"
  if budget < estimateTokens (draft.text ++ line ++ taskHeading task) then { draft with truncated := true }
  else { draft with text := draft.text ++ line, sourceIds := draft.sourceIds ++ [item.memoryId] }

/-- One level with its heading. -/
def addLevel (host : Host F S) (budget : Nat) (task : String) (results : List (Result F S)) (draft : Draft)
    (level heading : String) : Draft :=
  (results.filter fun item => item.level = level).foldl (addItem host budget task)
    { draft with text := draft.text ++ heading }

structure Context where
  context : String
  sourceIds : List Nat
  retrievalMode : String
  degraded : Bool
  degradedReason : Option String
  profileId : Option Nat
  parameters : Parameters
  limitTokens : Nat
  usedTokens : Nat
  truncated : Bool

def packed (host : Host F S) (projectKey task : String) (budget : Nat) (found : Response F S) : Context :=
  let prefixText := "[Project Context]\nproject_id: " ++ projectKey ++ "\n\n[Error Memory - L3]\n"
  let l3 := addLevel host budget task found.results ⟨prefixText, [], false⟩ "L3" ""
  let l2 := addLevel host budget task found.results l3 "L2" "\n\n[Knowledge Base - L2]\n"
  let l1 := addLevel host budget task found.results l2 "L1" "\n\n[Working Memory - L1]\n"
  let remaining := ["L3", "L2", "L1"].flatMap fun level => found.results.filter fun item => item.level = level
  let text := l1.text ++ taskHeading task
  { context := text
    sourceIds := l1.sourceIds
    retrievalMode := found.retrievalMode
    degraded := found.degraded
    degradedReason := found.degradedReason
    profileId := found.profileId
    parameters := found.parameters
    limitTokens := budget
    usedTokens := min (estimateTokens text) budget
    truncated := l1.truncated || l1.sourceIds.length < remaining.length }

/-- `build_context` -/
def buildContext (host : Host F S) (db : Database F S) (projectKey task : String) (filters : Filters) (limit : Int)
    (contextBudgetTokens : Int) : Except Error Context :=
  (search host db projectKey task filters limit false).1.map
    (packed host projectKey task (clamp 12000 contextBudgetTokens))

end

end

/-! ## Rationals for floats -/

/-- A host for searches that embed no text. -/
def rationalHost : Host Empty Rat where
  arith :=
    { reciprocal := fun n => 1 / n
      add := fun a b => a + b
      mul := fun a b => a * b
      zero := 0
      minusOne := -1
      digest := fun _ _ => []
      normalized := id }
  str
    | .str s => s
    | _ => ""
  sha256 := id

def published (projectId : Option Nat) (scope title text : String) : Memory Empty where
  projectId := projectId
  level := "L2"
  memoryType := "rule"
  title := some title
  content := [("text", .str text)]
  status := "published"
  deprecated := false
  scope := scope
  reviewStatus := "published"

/-- Two projects; the first asks for dense retrieval and has no profile. -/
def twoProjects : Database Empty Rat where
  projects := (Table.empty.insert ⟨"alpha"⟩).insert ⟨"beta"⟩
  flags := Table.empty.insert ⟨true⟩
  retrievalProfiles := .empty
  embeddingProfiles := .empty
  memories := Table.empty.insert (published (some 0) "project" "Deploy" "Run the migration first")
  vectors := .empty
  audits := .empty
  keys_nodup := by decide

end CodexMemory.Retrieval
