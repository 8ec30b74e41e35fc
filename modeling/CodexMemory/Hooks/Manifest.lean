import CodexMemory.Candidates.Model
import CodexMemory.Hooks.Events
import CodexMemory.Sorting
import Mathlib.Data.String.Basic

/-!
# Git snapshots and manifests of the hooks

`git_manifest.py`, and the task events of `codex_hooks.py` in which they travel.  What
Git prints is given: a snapshot with its fields, and the parsed lines of
`git diff --name-status`.

* `snapshotFromDict_toDict`: a baseline comes back from the state file as it was saved.
-/

namespace CodexMemory.Hooks

open Candidates (truthy)

variable {F : Type}

/-! ## Snapshots -/

structure GitSnapshot (F : Type) where
  available : Bool
  root : Option String := none
  branch : Option String := none
  head : Option String := none
  porcelain : String := ""
  diffHash : Option String := none
  untracked : List (List (String × Json F)) := []
  error : Option String := none

def GitSnapshot.dirty (snapshot : GitSnapshot F) : Bool := snapshot.porcelain ≠ ""

def jsonText (text : Option String) : Json F := (text.map Json.str).getD .null

/-- A field that is there only with a value. -/
def optionalField (key : String) (text : Option String) : List (String × Json F) :=
  match text with
  | some text => [(key, .str text)]
  | none => []

/-- `to_dict` -/
def GitSnapshot.toDict (snapshot : GitSnapshot F) : List (String × Json F) :=
  [("available", .bool snapshot.available), ("branch", jsonText snapshot.branch), ("head", jsonText snapshot.head),
    ("porcelain", .str snapshot.porcelain), ("diff_hash", jsonText snapshot.diffHash),
    ("untracked", .arr (snapshot.untracked.map Json.obj))] ++
    optionalField "root" snapshot.root ++ optionalField "error" snapshot.error

def textAt (fields : List (String × Json F)) (key : String) : Option String :=
  match fields.lookup key with
  | some (.str text) => some text
  | _ => none

/-- The objects among the items of a list. -/
def objects (items : List (Json F)) : List (List (String × Json F)) :=
  items.filterMap fun
    | .obj fields => some fields
    | _ => none

/-- `_snapshot_from_dict` -/
def snapshotFromDict [Json.PyFloat F] (fields : List (String × Json F)) : GitSnapshot F where
  available := (fields.lookup "available").any truthy
  root := textAt fields "root"
  branch := textAt fields "branch"
  head := textAt fields "head"
  porcelain := (textAt fields "porcelain").getD ""
  diffHash := textAt fields "diff_hash"
  untracked :=
    match fields.lookup "untracked" with
    | some (.arr items) => objects items
    | _ => []
  error := textAt fields "error"

theorem objects_map (items : List (List (String × Json F))) : objects (items.map Json.obj) = items := by
  rw [objects, List.filterMap_map]
  exact List.filterMap_some

/-- **A saved baseline comes back.** -/
theorem snapshotFromDict_toDict [Json.PyFloat F] (snapshot : GitSnapshot F) :
    snapshotFromDict snapshot.toDict = snapshot := by
  obtain ⟨available, root, branch, head, porcelain, diffHash, untracked, error⟩ := snapshot
  cases root <;> cases branch <;> cases head <;> cases diffHash <;> cases error <;>
    simp [snapshotFromDict, GitSnapshot.toDict, textAt, optionalField, jsonText, truthy, List.lookup, objects_map]

/-! ## Manifests -/

/-- A line of `git diff --name-status`: the status, the old path and the new one. -/
structure DiffLine where
  status : String
  oldPath : String
  newPath : String
  deriving DecidableEq

/-- A file of a manifest. -/
structure ManifestFile (F : Type) where
  path : String
  oldPath : Option String := none
  change : String
  metadata : Option (List (String × Json F)) := none

/-- The file of a line, by the first letter of its status. -/
def diffFile (line : DiffLine) : ManifestFile F :=
  match line.status.toList.head? with
  | some 'R' => { path := line.newPath, oldPath := some line.oldPath, change := "renamed" }
  | some 'A' => { path := line.newPath, change := "added" }
  | some 'D' => { path := line.newPath, change := "deleted" }
  | _ => { path := line.newPath, change := "modified" }

/-- `_manifest_files`: the lines, and the untracked files that are in none of them. -/
def manifestFiles (str : Json F → String) (current : GitSnapshot F) (diff : List DiffLine) : List (ManifestFile F) :=
  if (current.root.getD "") = "" then []
  else
    let entries := diff.map diffFile
    let known := entries.map ManifestFile.path
    let pathOf (item : List (String × Json F)) := (textAt item "path").getD (str ((item.lookup "path").getD .null))
    entries ++ (current.untracked.filter fun item => !known.contains (pathOf item)).map fun item =>
      { path := pathOf item, change := "untracked", metadata := some item }

/-- `build_change_manifest`; its hash is left to `manifestJson`. -/
structure Manifest (F : Type) where
  baseline : GitSnapshot F
  current : GitSnapshot F
  files : List (ManifestFile F)
  uncertain : Bool

def buildChangeManifest (str : Json F → String) (baseline current : GitSnapshot F) (diff : List DiffLine) : Manifest F :=
  let uncertain := !baseline.available || !current.available || baseline.dirty
  { baseline := baseline
    current := current
    files := if uncertain then [] else
      sortBy (fun file => (toLex (file.path, file.oldPath.getD "") : String ×ₗ String)) (manifestFiles str current diff)
    uncertain := uncertain }

def ManifestFile.toJson (file : ManifestFile F) : Json F :=
  .obj ([("path", .str file.path)] ++ optionalField "old_path" file.oldPath ++ [("change", .str file.change)] ++
    (match file.metadata with
    | some metadata => [("metadata", .obj metadata)]
    | none => []))

/-- The fields of the manifest without its hash. -/
def Manifest.fields (manifest : Manifest F) : List (String × Json F) :=
  [("schema_version", .int 1), ("baseline", .obj manifest.baseline.toDict), ("current", .obj manifest.current.toDict),
    ("files", .arr (manifest.files.map ManifestFile.toJson)), ("uncertain", .bool manifest.uncertain),
    ("attribution", .str (if manifest.uncertain then "uncertain" else "current_run"))]

/-- The manifest with the hash of its `manifest_json`. -/
def Manifest.toJson [Json.PyFloat F] (sha256 : String → String) (manifest : Manifest F) : Json F :=
  .obj (manifest.fields ++ [("manifest_hash",
    .str (sha256 (String.ofList ((Json.obj manifest.fields).sortKeys.dumps .compact))))])

/-! ## Task events -/

/-- The keys that `redact_credentials` drops. -/
def transcriptKeys : List String := ["transcript", "transcript_path", "transcript_file"]

mutual

/-- `redact_credentials` of a JSON value. -/
def redactJson (table : WordTable) : Json F → Json F
  | .str text => .str (String.ofList (redactCredentials table text.toList))
  | .obj fields => .obj (redactJsonFields table fields)
  | .arr items => .arr (redactJsonItems table items)
  | value => value

def redactJsonFields (table : WordTable) : List (String × Json F) → List (String × Json F)
  | [] => []
  | (key, value) :: rest =>
    if transcriptKeys.contains (lower key) then redactJsonFields table rest
    else (key, redactJson table value) :: redactJsonFields table rest

def redactJsonItems (table : WordTable) : List (Json F) → List (Json F)
  | [] => []
  | value :: rest => redactJson table value :: redactJsonItems table rest

end

theorem redactJsonItems_eq_map (table : WordTable) (items : List (Json F)) :
    redactJsonItems table items = items.map (redactJson table) := by
  induction items with
  | nil => rw [redactJsonItems, List.map_nil]
  | cons value rest ih => rw [redactJsonItems, ih, List.map_cons]

theorem mem_redactJsonFields {table : WordTable} {fields : List (String × Json F)} {key : String} {value : Json F}
    (h : (key, value) ∈ fields) (hkey : transcriptKeys.contains (lower key) = false) :
    (key, redactJson table value) ∈ redactJsonFields table fields := by
  induction fields with
  | nil => cases h
  | cons first rest ih =>
    obtain ⟨first, other⟩ := first
    rw [redactJsonFields]
    rcases List.mem_cons.mp h with heq | h
    · cases heq
      rw [if_neg (by rw [hkey]; exact Bool.false_ne_true)]
      exact List.mem_cons_self
    · split
      · exact ih h
      · exact List.mem_cons_of_mem _ (ih h)

/-- A task event of the hook. -/
structure TaskPayload (F : Type) where
  projectKey : String
  sessionKey : String
  eventKey : String
  eventType : String
  metadata : List (String × Json F)

/-- `_task_payload` of a payload within `EVENT_MAX_BYTES`, which `_fit_event_payload` leaves as it is. -/
def taskPayload (table : WordTable) (eventType projectId sessionId turnId toolCall : String)
    (metadata : List (String × Json F)) : TaskPayload F where
  projectKey := projectId
  sessionKey := sessionId
  eventKey := "codex:" ++ projectId ++ ":" ++ sessionId ++ ":" ++ eventType ++ ":" ++ turnId ++
    (if toolCall = "" then "" else ":" ++ toolCall)
  eventType := eventType
  metadata := redactJsonFields table metadata

/-- The metadata of a `PreToolUse`: what is said of the tool, and the baseline. -/
def baselineMetadata (tool : List (String × Json F)) (baseline : GitSnapshot F) : List (String × Json F) :=
  tool ++ [("git_baseline", .obj baseline.toDict)]

/-- The metadata of a `Stop` or a `SessionEnd`. -/
def manifestMetadata [Json.PyFloat F] (sha256 : String → String) (manifest : Manifest F) : List (String × Json F) :=
  [("change_manifest", manifest.toJson sha256), ("git_snapshot", .obj manifest.current.toDict)]

end CodexMemory.Hooks
