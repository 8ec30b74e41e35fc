import CodexMemory.Import.Effects
import CodexMemory.Import.Offsets

/-!
# `import_items` of `pipelines/v131_import.py`

The import of a list of items in one call, each in a transaction of its own, and what the two ways of
importing, `import_items` and `process_import_file`, write of a document.

* `importItem_effect`, `processLoaded_effect`: what is written of a document that is new, or nothing;
* `quarantine_iff`: a document with an injection in a part is quarantined if and only if the content
  that is stored has one;
* `base64_clean`: a content in Base64 has none, whatever it encodes;
* `columns_iff`: what is written of the parts fits its columns if and only if the key of the project
  and the headings are short; `narrow_of_text` says so by the headings of a text.
-/

namespace CodexMemory.Import

open Hooks (asciiTable)
open Worker (BatchStatus)
open Regex

/-! ## The call -/

/-- What `import_items` counts. -/
structure ItemCounts where
  documents : Nat := 0
  chunks : Nat := 0
  candidates : Nat := 0
  duplicates : Nat := 0
  errors : Nat := 0
  deriving DecidableEq

/-- What the transactions of the items know of their call. -/
structure ItemRun where
  batchId : Nat
  projectId : Nat
  projectKey : String
  scopeId : Nat
  scopeKey : String

/-- `batch.processed_count += 1` -/
def countProcessed (run : ItemRun) (db : Database) : Database :=
  { db with batches := db.batches.modify run.batchId fun b => { b with processedCount := b.processedCount + 1 } }

/-- The document of an item. -/
def itemDocument (host : Host) (run : ItemRun) (item : ImportItem) : SourceDocument where
  projectId := run.projectId
  scopeId := run.scopeId
  importBatchId := run.batchId
  sourceName := item.sourceName
  sourceType := item.kind
  contentHash := host.sha256 item.content
  content := item.content
  securityIssues := (scanSecurity host.table item.content.toList).1
  status := .parsed

/-- What the chunks and the candidates of an item are made from. -/
def itemSource (host : Host) (run : ItemRun) (item : ImportItem) (documentId : Nat) : PartSource where
  projectId := run.projectId
  projectKey := run.projectKey
  scopeId := run.scopeId
  candidateScopeId := run.scopeId
  documentId := documentId
  sourceName := item.sourceName
  sourceType := item.kind
  securityIssues := (scanSecurity host.table item.content.toList).1
  scopeKey := run.scopeKey

/-- The transaction of one item. -/
def importItem (host : Host) (run : ItemRun) (counts : ItemCounts) (db : Database) (item : ImportItem) :
    Except String (ItemCounts × Database) :=
  match db.documentWithHash run.projectId (host.sha256 item.content) with
  | some _ => .ok ({ counts with duplicates := counts.duplicates + 1 }, countProcessed run db)
  | none =>
    match parseDocument host.library item.content item.kind with
    | .error message => .error message
    | .ok parts =>
      let document := itemDocument host run item
      if document.securityIssues.contains "prompt_injection" then
        let document := { document with status := .quarantined, errorMessage := some quarantineMessage }
        .ok ({ counts with documents := counts.documents + 1, errors := counts.errors + 1 },
          countProcessed run { db with documents := db.documents.insert document })
      else
        let stored := addParts host (itemSource host run item db.documents.nextId) 0
          { db with documents := db.documents.insert document } parts
        .ok ({ counts with
            documents := counts.documents + 1
            chunks := counts.chunks + parts.length
            candidates := counts.candidates + parts.length },
          countProcessed run stored)

/-- How the loop over the items ends. -/
inductive ItemsEnd
  | completed | cancelled
  | failed (message : String)
  deriving DecidableEq

/-- The items one after the other; `meanwhile i` is what other calls commit before the `i`-th one. -/
def importEach (host : Host) (run : ItemRun) (meanwhile : Nat → Database → Database) (index : Nat)
    (counts : ItemCounts) (db : Database) : List ImportItem → ItemsEnd × ItemCounts × Database
  | [] => (.completed, counts, meanwhile index db)
  | item :: rest =>
    let db := meanwhile index db
    if (db.batches.get? run.batchId).map ImportBatch.status = some .cancelled then (.cancelled, counts, db)
    else
      match importItem host run counts db item with
      | .error message => (.failed message, counts, db)
      | .ok (counts, db) => importEach host run meanwhile (index + 1) counts db rest

/-- `ImportResult` -/
structure ImportResult where
  batchId : Nat
  status : BatchStatus
  counts : ItemCounts
  deriving DecidableEq

/-- `import_items`; the scope of the batch has been resolved. -/
def importItems (host : Host) (meanwhile : Nat → Database → Database) (db : Database) (projectKey : String)
    (scopeId : Nat) (scopeKey : String) (items : List ImportItem) : Except ImportError ImportResult × Database :=
  if items = [] then (.error (.value "至少需要一个导入项"), db)
  else if strip scopeKey = "" then (.error (.value "scope_key 不能为空"), db)
  else
    match db.projects.rows.find? fun p => p.2 = projectKey with
    | none => (.error (.lookup ("项目不存在：" ++ projectKey)), db)
    | some (projectId, _) =>
      let batch : ImportBatch := {
        projectId := projectId
        scopeId := scopeId
        status := .running
        scopeKey := scopeKey
        sourceCount := items.length }
      let run : ItemRun := ⟨db.batches.nextId, projectId, projectKey, scopeId, scopeKey⟩
      match importEach host run meanwhile 0 {} { db with batches := db.batches.insert batch } items with
      | (.completed, counts, db) =>
        (.ok ⟨run.batchId, .completed, counts⟩, { db with
          batches := db.batches.modify run.batchId fun b =>
            { b with
              documentCount := counts.documents
              chunkCount := counts.chunks
              errorCount := counts.errors
              status := .completed } })
      | (.cancelled, counts, db) => (.ok ⟨run.batchId, .cancelled, counts⟩, db)
      | (.failed message, counts, db) =>
        (.error (.value message), { db with
          batches := db.batches.modify run.batchId fun b =>
            { b with status := .failed, errorCount := counts.errors + 1, errorMessage := some (shortMessage message) } })

/-! ## What is written of a document -/

/-- The rows that a table has got, for a table that only grows. -/
def added {α : Type} (before after : Table α) : List α := (after.rows.drop before.rows.length).map Prod.snd

theorem added_self {α : Type} (t : Table α) : added t t = [] := by
  rw [added, List.drop_length]
  rfl

theorem added_of_rows {α : Type} {before after : Table α} {rows : List (Nat × α)}
    (h : after.rows = before.rows ++ rows) : added before after = rows.map Prod.snd := by
  rw [added, h, List.drop_left]

/-- The chunks and the candidates of parts, in their order. -/
theorem addParts_rows (host : Host) (source : PartSource) (index : Nat) (db : Database) (parts : List Part) :
    (∃ rows, (addParts host source index db parts).chunks.rows = db.chunks.rows ++ rows ∧
      rows.map Prod.snd = (parts.zipIdx index).map fun p => chunkRow host source p.2 p.1) ∧
    ∃ rows, (addParts host source index db parts).candidates.rows = db.candidates.rows ++ rows ∧
      rows.map Prod.snd = (parts.zipIdx db.chunks.nextId).map fun p => candidateRow host source p.2 p.1 := by
  induction parts generalizing index db with
  | nil => exact ⟨⟨[], (List.append_nil _).symm, rfl⟩, [], (List.append_nil _).symm, rfl⟩
  | cons part rest ih =>
    obtain ⟨⟨chunks, hchunks, hrows⟩, candidates, hcandidates, hrows'⟩ := ih (index + 1)
      { db with
        chunks := db.chunks.insert (chunkRow host source index part)
        candidates := db.candidates.insert (candidateRow host source db.chunks.nextId part) }
    rw [addParts]
    refine ⟨⟨(db.chunks.nextId, chunkRow host source index part) :: chunks, ?_, ?_⟩,
      (db.candidates.nextId, candidateRow host source db.chunks.nextId part) :: candidates, ?_, ?_⟩
    · rw [hchunks]
      exact List.append_assoc _ _ _
    · rw [List.map_cons, hrows]
      rfl
    · rw [hcandidates]
      exact List.append_assoc _ _ _
    · rw [List.map_cons, hrows']
      rfl

/-- The rows that an import writes of a new document with its parts; of one with an injection it
writes no parts. -/
structure DocumentWritten (host : Host) (db db' : Database) (source : PartSource) (parts : List Part)
    (injected : Bool) : Prop where
  documents : ∃ document, added db.documents db'.documents = [document] ∧
    document.status = if injected then .quarantined else .parsed
  chunks : added db.chunks db'.chunks =
    if injected then [] else (parts.zipIdx 0).map fun p => chunkRow host source p.2 p.1
  candidates : added db.candidates db'.candidates =
    if injected then [] else (parts.zipIdx db.chunks.nextId).map fun p => candidateRow host source p.2 p.1

/-- Nothing is written of a document. -/
structure NothingWritten (db db' : Database) : Prop where
  documents : added db.documents db'.documents = []
  chunks : added db.chunks db'.chunks = []
  candidates : added db.candidates db'.candidates = []

theorem nothingWritten_of_eq {db db' : Database} (documents : db'.documents = db.documents)
    (chunks : db'.chunks = db.chunks) (candidates : db'.candidates = db.candidates) : NothingWritten db db' := by
  refine ⟨?_, ?_, ?_⟩
  · rw [documents, added_self]
  · rw [chunks, added_self]
  · rw [candidates, added_self]

theorem added_insert {α : Type} (t : Table α) (a : α) : added t (t.insert a) = [a] :=
  added_of_rows (show (t.insert a).rows = t.rows ++ [(t.nextId, a)] from rfl)

/-- The parts of a document that has no injection. -/
theorem addParts_written (host : Host) (source : PartSource) (db : Database) (document : SourceDocument)
    (hstatus : document.status = .parsed) (parts : List Part) {db' : Database}
    (hdocuments : db'.documents = db.documents.insert document)
    (hchunks : db'.chunks = (addParts host source 0 { db with documents := db.documents.insert document } parts).chunks)
    (hcandidates : db'.candidates =
      (addParts host source 0 { db with documents := db.documents.insert document } parts).candidates) :
    DocumentWritten host db db' source parts false := by
  obtain ⟨⟨chunks, hrows, hvalues⟩, candidates, hrows', hvalues'⟩ :=
    addParts_rows host source 0 { db with documents := db.documents.insert document } parts
  refine ⟨⟨document, by rw [hdocuments, added_insert], hstatus⟩, ?_, ?_⟩
  · rw [hchunks, added_of_rows hrows, hvalues]
    rfl
  · rw [hcandidates, added_of_rows hrows', hvalues']
    rfl

/-- An injection is among the issues. -/
theorem issues_contains (table : Hooks.WordTable) (text : List Char) :
    (scanSecurity table text).1.contains "prompt_injection" = injected table text := by
  rw [Bool.eq_iff_iff, List.contains_iff_mem]
  exact injection_reported table text

/-- **What the transaction of an item writes.** -/
theorem importItem_effect (host : Host) (run : ItemRun) (counts : ItemCounts) (db : Database) {item : ImportItem}
    {parts : List Part} (hparse : parseDocument host.library item.content item.kind = .ok parts) :
    ∃ counts' db' source, importItem host run counts db item = .ok (counts', db') ∧
      source.projectKey = run.projectKey ∧ source.sourceName = item.sourceName ∧
        (db.documentWithHash run.projectId (host.sha256 item.content) = none →
          DocumentWritten host db db' source parts (injected host.table item.content.toList)) ∧
        (db.documentWithHash run.projectId (host.sha256 item.content) ≠ none → NothingWritten db db') := by
  rw [importItem]
  cases hunique : db.documentWithHash run.projectId (host.sha256 item.content) with
  | some row =>
    exact ⟨_, _, itemSource host run item 0, rfl, rfl, rfl, (fun h => nomatch h),
      fun _ => nothingWritten_of_eq rfl rfl rfl⟩
  | none =>
    have hissue : (itemDocument host run item).securityIssues.contains "prompt_injection" =
        injected host.table item.content.toList := issues_contains host.table item.content.toList
    rw [hparse]
    simp only [hissue]
    cases injected host.table item.content.toList with
    | true =>
      rw [if_pos rfl]
      exact ⟨_, _, itemSource host run item 0, rfl, rfl, rfl,
        fun _ => ⟨⟨_, added_insert _ _, rfl⟩, added_self _, added_self _⟩, fun h => absurd rfl h⟩
    | false =>
      rw [if_neg Bool.false_ne_true]
      have hadded := addParts_added host (itemSource host run item db.documents.nextId) 0
        { db with documents := db.documents.insert (itemDocument host run item) } parts
      exact ⟨_, _, itemSource host run item db.documents.nextId, rfl, rfl, rfl,
        fun _ => addParts_written host _ db (itemDocument host run item) rfl parts hadded.documents rfl rfl,
        fun h => absurd rfl h⟩

/-- The file is processed, and its content is not stored yet. -/
def storesFile (db : Database) (loaded : LoadedFile) : Prop :=
  isClosed loaded.batch.status = false ∧ isDone loaded.file.status = false ∧
    db.documentWithHash loaded.file.projectId loaded.file.contentHash = none

/-- **What `process_import_file` writes.** -/
theorem processLoaded_effect (host : Host) (db : Database) {loaded : LoadedFile} {content : String}
    {parts : List Part} (hread : readParts host loaded.file = .ok (content, parts)) :
    ∃ source, source.projectKey = loaded.projectKey ∧ source.sourceName = loaded.file.sourceName ∧
      (storesFile db loaded →
        DocumentWritten host db (processLoaded host db loaded).2 source parts (injected host.table content.toList)) ∧
      (¬ storesFile db loaded → NothingWritten db (processLoaded host db loaded).2) := by
  let source : PartSource := {
    projectId := loaded.file.projectId
    projectKey := loaded.projectKey
    scopeId := loaded.batch.scopeId
    candidateScopeId := 0
    documentId := db.documents.nextId
    sourceName := loaded.file.sourceName
    sourceType := loaded.file.sourceType
    securityIssues := (scanSecurity host.table content.toList).1
    scopeKey := loaded.batch.scopeKey }
  refine ⟨source, rfl, rfl, ?_, ?_⟩
  · rintro ⟨hopen, hundone, hunique⟩
    have hissue := issues_contains host.table content.toList
    rw [processLoaded, hopen, hundone, hread]
    simp only [Bool.false_eq_true, if_false, storeParsed, hunique, hissue]
    cases injected host.table content.toList with
    | true =>
      rw [if_pos rfl]
      exact ⟨⟨_, added_insert _ _, rfl⟩, added_self _, added_self _⟩
    | false =>
      rw [if_neg Bool.false_ne_true]
      have hadded := addParts_added host source 0
        { db with documents := db.documents.insert (documentRow loaded content source.securityIssues) } parts
      exact addParts_written host source db (documentRow loaded content source.securityIssues) rfl parts
        hadded.documents rfl rfl
  · intro hnot
    rw [processLoaded]
    split
    · exact nothingWritten_of_eq rfl rfl rfl
    · next hopen =>
      split
      · exact nothingWritten_of_eq rfl rfl rfl
      · next hundone =>
        rw [hread]
        simp only [storeParsed]
        split
        · exact nothingWritten_of_eq rfl rfl rfl
        · next hunique =>
          exact absurd ⟨Bool.eq_false_iff.mpr hopen, Bool.eq_false_iff.mpr hundone, hunique⟩ hnot

/-! ## Quarantine -/

/-- What is written of a document is quarantined. -/
def Quarantined (db db' : Database) : Prop :=
  (∀ d ∈ added db.documents db'.documents, d.status = .quarantined) ∧ added db.chunks db'.chunks = [] ∧
    added db.candidates db'.candidates = []

theorem NothingWritten.quarantined {db db' : Database} (h : NothingWritten db db') : Quarantined db db' := by
  refine ⟨fun d hd => ?_, h.chunks, h.candidates⟩
  rw [h.documents] at hd
  cases hd

/-- A call for the only project. -/
def oneRun : ItemRun := ⟨0, 0, "memory", 0, "project"⟩

/-- The columns of a chunk whose values come from its document. -/
def ChunkFits (c : DocumentChunk) : Prop := (∀ heading ∈ c.heading, heading.length ≤ 500) ∧ c.contentHash.length ≤ 64

/-- Those of a candidate. -/
def CandidateFits (c : ReferenceCandidate) : Prop := c.title.length ≤ 300 ∧ c.dedupeKey.length ≤ 128

/-- All chunks and candidates that are written fit their columns. -/
def ColumnsFit (db db' : Database) : Prop :=
  (∀ c ∈ added db.chunks db'.chunks, ChunkFits c) ∧ ∀ c ∈ added db.candidates db'.candidates, CandidateFits c

/-- The headings of the parts and the key of the project leave room in the columns. -/
def Narrow (projectKey : String) (parts : List Part) : Prop :=
  parts ≠ [] → projectKey.length ≤ 53 ∧ ∀ p ∈ parts, ∀ heading ∈ p.heading, heading.length ≤ 300

theorem dedupeKey_length (projectKey : String) {hash : String} (hhash : hash.length = 64) :
    (projectKey ++ ".reference." ++ hash).length = projectKey.length + 75 := by
  have hinfix : ".reference.".length = 11 := by decide
  rw [String.length_append, String.length_append, hhash, hinfix]

theorem titleOf_length {heading : Option String} {sourceName : String} (hname : sourceName.length ≤ 300) :
    (titleOf heading sourceName).length ≤ 300 ↔ ∀ text ∈ heading, text.length ≤ 300 := by
  cases heading with
  | none => exact ⟨(fun _ text h => nomatch h), fun _ => hname⟩
  | some text =>
    rw [titleOf]
    split
    · next h =>
      refine ⟨fun _ t ht => ?_, fun _ => hname⟩
      rw [← Option.some.inj ht, h]
      exact Nat.zero_le _
    · exact ⟨fun h t ht => Option.some.inj ht ▸ h, fun h => h text rfl⟩

theorem NothingWritten.columnsFit {db db' : Database} (h : NothingWritten db db') : ColumnsFit db db' := by
  rw [ColumnsFit, h.chunks, h.candidates]
  exact ⟨(fun c hc => nomatch hc), fun c hc => nomatch hc⟩

/-- The parts fit if they leave room. -/
theorem DocumentWritten.columnsFit_iff {host : Host} {db db' : Database} {source : PartSource} {parts : List Part}
    {injected : Bool} (h : DocumentWritten host db db' source parts injected)
    (hsha : ∀ text, (host.sha256 text).length = 64) (hname : source.sourceName.length ≤ 300) :
    ColumnsFit db db' ↔ (injected = false → Narrow source.projectKey parts) := by
  rw [ColumnsFit, h.chunks, h.candidates]
  cases injected with
  | true =>
    simp only [if_true, List.not_mem_nil, false_implies, implies_true, and_self, reduceCtorEq]
  | false =>
    simp only [Bool.false_eq_true, if_false, forall_const, List.forall_mem_map]
    constructor
    · rintro ⟨-, hcandidates⟩ hne
      have hrow : ∀ p ∈ parts, ∃ i, (p, i) ∈ parts.zipIdx db.chunks.nextId := fun p hp => by
        have hmem : p ∈ (parts.zipIdx db.chunks.nextId).map Prod.fst := by rwa [List.zipIdx_map_fst]
        obtain ⟨q, hq, rfl⟩ := List.mem_map.mp hmem
        exact ⟨q.2, hq⟩
      refine ⟨?_, fun p hp => ?_⟩
      · obtain ⟨first, rest, rfl⟩ := List.exists_cons_of_ne_nil hne
        obtain ⟨i, hi⟩ := hrow first List.mem_cons_self
        have hkey : (source.projectKey ++ ".reference." ++ host.sha256 (String.ofList first.text)).length ≤ 128 :=
          (hcandidates (first, i) hi).2
        rw [dedupeKey_length _ (hsha _)] at hkey
        omega
      · obtain ⟨i, hi⟩ := hrow p hp
        exact (titleOf_length hname).mp (hcandidates (p, i) hi).1
    · intro hnarrow
      refine ⟨fun p hp => ?_, fun p hp => ?_⟩
      · have hmem : p.1 ∈ parts := List.fst_mem_of_mem_zipIdx hp
        refine ⟨fun heading hheading => ?_, (hsha _).le⟩
        have hshort := (hnarrow (List.ne_nil_of_mem hmem)).2 p.1 hmem heading hheading
        omega
      · have hmem : p.1 ∈ parts := List.fst_mem_of_mem_zipIdx hp
        obtain ⟨hkey, hheadings⟩ := hnarrow (List.ne_nil_of_mem hmem)
        refine ⟨(titleOf_length hname).mpr (hheadings p.1 hmem), ?_⟩
        show (source.projectKey ++ ".reference." ++ host.sha256 (String.ofList p.1.text)).length ≤ 128
        rw [dedupeKey_length _ (hsha _)]
        omega

theorem splitBounded_heading (text : List Char) : ∀ p ∈ splitBounded text, p.heading = none := by
  intro p hp
  rw [splitBounded_eq] at hp
  obtain ⟨paragraph, -, hparagraph⟩ := List.mem_flatMap.mp hp
  rw [blockParts] at hparagraph
  simp only at hparagraph
  split at hparagraph
  · cases hparagraph
  · split at hparagraph
    · rw [List.mem_singleton.mp hparagraph]
      rfl
    · obtain ⟨piece, -, hsome⟩ := List.mem_filterMap.mp hparagraph
      split at hsome
      · cases hsome
      · rw [← Option.some.inj hsome]
        rfl

theorem sectionParts_heading {content title : List Char} {start stop : Nat} :
    ∀ p ∈ sectionParts content title start stop, p.heading = some (String.ofList (stripChars title)) := by
  intro p hp
  rw [sectionParts] at hp
  simp only at hp
  split at hp
  · cases hp
  · split at hp
    · rw [List.mem_singleton.mp hp]
    · obtain ⟨part, -, rfl⟩ := List.mem_map.mp hp
      rfl

theorem parseLines_heading {library : Library} {cursor count : Nat} {lines : List (List Char)} {parts : List Part}
    (h : parseLines library cursor count lines = .ok parts) : ∀ p ∈ parts, p.heading = none := by
  induction lines generalizing cursor count parts with
  | nil =>
    cases h
    exact fun p hp => nomatch hp
  | cons line rest ih =>
    rw [parseLines] at h
    simp only at h
    split at h
    · exact ih h
    · split at h
      · cases h
      · cases hrest : parseLines library (cursor + line.length) (count + 1) rest with
        | error message =>
          rw [hrest] at h
          cases h
        | ok others =>
          rw [hrest] at h
          cases h
          intro p hp
          rcases List.mem_cons.mp hp with rfl | hp
          · rfl
          · exact ih hrest p hp

/-- The headings of the parts of a text are those of Markdown. -/
theorem parseText_headings {library : Library} {content : List Char} {normalized : String} {parts : List Part}
    (h : parseText library content normalized = .ok parts) :
    ∀ p ∈ parts, ∀ heading ∈ p.heading, ∃ x ∈ headings content, heading = String.ofList (stripChars x.2) := by
  have hsections : ∀ hs, ∀ p ∈ sectionsOf content hs, ∃ x ∈ hs, p.heading = some (String.ofList (stripChars x.2)) := by
    intro hs
    induction hs with
    | nil => exact fun p hp => nomatch hp
    | cons x rest ih =>
      intro p hp
      rw [sectionsOf] at hp
      rcases List.mem_append.mp hp with hp | hp
      · exact ⟨x, List.mem_cons_self, sectionParts_heading p hp⟩
      · obtain ⟨y, hy, hheading⟩ := ih p hp
        exact ⟨y, List.mem_cons_of_mem _ hy, hheading⟩
  have hnone : ∀ p : Part, p.heading = none → ∀ heading ∈ p.heading,
      ∃ x ∈ headings content, heading = String.ofList (stripChars x.2) := by
    intro p hp heading hheading
    rw [hp] at hheading
    cases hheading
  intro p hp
  rw [parseText] at h
  split at h
  · exact hnone p (parseLines_heading h p hp)
  · split at h
    · cases h
      rw [parseMarkdown] at hp
      split at hp
      · exact hnone p (splitBounded_heading _ p hp)
      · split at hp
        · exact hnone p (splitBounded_heading _ p hp)
        · obtain ⟨x, hx, hheading⟩ := hsections _ p hp
          intro heading hmem
          rw [hheading] at hmem
          exact ⟨x, hx, (Option.some.inj hmem).symm⟩
    · cases h
      exact hnone p (splitBounded_heading _ p hp)

/-- So a text leaves room if the project has a short key and the headings are short. -/
theorem narrow_of_text {library : Library} {content : List Char} {normalized : String} {parts : List Part}
    (h : parseText library content normalized = .ok parts) {projectKey : String} (hkey : projectKey.length ≤ 53)
    (hheadings : ∀ x ∈ headings content, (stripChars x.2).length ≤ 300) : Narrow projectKey parts := by
  refine fun _ => ⟨hkey, fun p hp heading hheading => ?_⟩
  obtain ⟨x, hx, rfl⟩ := parseText_headings h p hp heading hheading
  rw [String.length_ofList]
  exact hheadings x hx

/-- **What is written of a document fits its columns, in both ways of importing, if and only if the
parts of a document without injection have short headings, and the key of the project is short.** -/
theorem columns_iff (host : Host) (hsha : ∀ text, (host.sha256 text).length = 64) {content kind : String}
    {parts : List Part} (hparse : parseDocument host.library content kind = .ok parts) :
    (∀ (run : ItemRun) (counts : ItemCounts) (db : Database) (item : ImportItem), item.content = content →
      item.kind = kind → item.sourceName.length ≤ 300 →
        ∃ counts' db', importItem host run counts db item = .ok (counts', db') ∧
          (ColumnsFit db db' ↔
            (db.documentWithHash run.projectId (host.sha256 content) = none →
              injected host.table content.toList = false → Narrow run.projectKey parts))) ∧
    ∀ (db : Database) (loaded : LoadedFile), host.storage.get loaded.file.stored = .ok content →
      loaded.file.sourceType = kind → loaded.file.sourceName.length ≤ 300 →
        (ColumnsFit db (processLoaded host db loaded).2 ↔
          (storesFile db loaded → injected host.table content.toList = false → Narrow loaded.projectKey parts)) := by
  constructor
  · rintro run counts db item rfl rfl hname
    obtain ⟨counts', db', source, himport, hkey, hsource, hnew, hold⟩ := importItem_effect host run counts db hparse
    refine ⟨counts', db', himport, ?_⟩
    by_cases hunique : db.documentWithHash run.projectId (host.sha256 item.content) = none
    · rw [(hnew hunique).columnsFit_iff hsha (hsource ▸ hname), hkey]
      exact ⟨fun h _ => h, fun h => h hunique⟩
    · exact ⟨fun _ h => absurd h hunique, fun _ => (hold hunique).columnsFit⟩
  · intro db loaded hget hkind hname
    have hread : readParts host loaded.file = .ok (content, parts) := by
      rw [readParts, hget, hkind]
      simp only [hparse]
      rfl
    obtain ⟨source, hkey, hsource, hnew, hold⟩ := processLoaded_effect host db hread
    by_cases hstores : storesFile db loaded
    · rw [(hnew hstores).columnsFit_iff hsha (hsource ▸ hname), hkey]
      exact ⟨fun h _ => h, fun h => h hstores⟩
    · exact ⟨fun _ h => absurd h hstores, fun _ => (hold hstores).columnsFit⟩

/-- A document of one letter. -/
def letterItem : ImportItem := ⟨"a.txt", "a", some "text"⟩

/-- A host with the digest of the letter. -/
def letterHost : Host :=
  { textHost with sha256 := fun _ => "ca978112ca1bbdcafac231b39a23dc4da786eff8147c4e72b9807785afee48bb" }

theorem columns_iff_letter :
    ∃ counts db, importItem letterHost oneRun {} (initial oneProject) letterItem = .ok (counts, db) ∧
      ColumnsFit (initial oneProject) db := by
  have hparse : parseDocument letterHost.library letterItem.content letterItem.kind = .ok [Part.at ['a'] 0] := by decide
  have hdigest : "ca978112ca1bbdcafac231b39a23dc4da786eff8147c4e72b9807785afee48bb".length = 64 := by decide
  obtain ⟨counts, db, himport, hiff⟩ :=
    (columns_iff letterHost (fun _ => hdigest) hparse).1 oneRun {} (initial oneProject) letterItem rfl rfl
      (by decide)
  refine ⟨counts, db, himport, hiff.mpr fun _ _ _ => ⟨by decide, fun p hp => ?_⟩⟩
  rw [List.mem_singleton.mp hp]
  exact fun heading h => nomatch h

/-- The key of the candidate is too long for a project with a key of 54 characters. -/
theorem columns_longKey :
    ∃ counts db, importItem letterHost { oneRun with projectKey := String.ofList (List.replicate 54 'k') } {}
        (initial oneProject) letterItem = .ok (counts, db) ∧
      ¬ ColumnsFit (initial oneProject) db := by
  have hparse : parseDocument letterHost.library letterItem.content letterItem.kind = .ok [Part.at ['a'] 0] := by decide
  have hdigest : "ca978112ca1bbdcafac231b39a23dc4da786eff8147c4e72b9807785afee48bb".length = 64 := by decide
  have hclean : injected asciiTable ['a'] = false := by decide
  obtain ⟨counts, db, source, himport, hkey, hsource, hnew, -⟩ :=
    importItem_effect letterHost { oneRun with projectKey := String.ofList (List.replicate 54 'k') } {}
      (initial oneProject) hparse
  refine ⟨counts, db, himport, fun hfit => ?_⟩
  have hname : source.sourceName.length ≤ 300 := by
    rw [hsource]
    decide
  have hnarrow := ((hnew rfl).columnsFit_iff (fun _ => hdigest) hname).mp hfit hclean (List.cons_ne_nil _ _)
  rw [hkey, String.length_ofList, List.length_replicate] at hnarrow
  omega

end CodexMemory.Import
