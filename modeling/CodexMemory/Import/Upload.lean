import CodexMemory.Import.Effects
import CodexMemory.Sorting
import Mathlib

/-!
# Uploads in parts, of `pipelines/v131_import.py`

`put_upload_part` stores the parts of a file in any order and as often as they are sent;
`complete_upload` puts them together and adds the file.  Base64 is a parameter, of which only the
encoding of the parts at hand is used.

* `put_part`, `put_refused`: what a part does that is sent first, again, or with another content;
* `complete_missing`, `complete_whole`: what `complete_upload` does while parts are missing, and then;
* `reached_run`: the state that any run of such calls reaches;
* `upload_direct`: an upload in parts is a direct upload.
-/

namespace CodexMemory.Import

/-! ## Calls -/

inductive PartStatus
  | uploaded | completed
  deriving DecidableEq, Repr

/-- `ImportUploadPartRow` -/
structure UploadPart where
  projectId : Nat
  scopeId : Nat
  importBatchId : Nat
  uploadId : String
  sourceName : String
  sourceType : String
  partNumber : Nat
  totalParts : Nat
  sizeBytes : Nat
  contentHash : String
  content : String
  status : PartStatus := .uploaded
  deriving DecidableEq

/-- The tables with that of the parts. -/
structure Uploads where
  db : Database
  parts : Table UploadPart

/-- The arguments of `put_upload_part`; a negative part number is refused before. -/
structure PartRequest where
  batchId : Nat
  uploadId : String
  partNumber : Nat
  totalParts : Nat
  sourceName : String
  sourceType : Option String
  content : String

/-- `(source_type or source_type_for_name(source_name)).lower()` -/
def PartRequest.kind (r : PartRequest) : String := ImportItem.kind ⟨r.sourceName, r.content, r.sourceType⟩

def maxPartBytes : Nat := 4 * 1024 * 1024
def maxUploadBytes : Nat := 64 * 1024 * 1024

/-- The parts of an upload. -/
def Uploads.partsOf (state : Uploads) (batchId : Nat) (uploadId : String) : List UploadPart :=
  (state.parts.select fun p => p.importBatchId = batchId && p.uploadId = uploadId).map Prod.snd

/-- The row of a part. -/
def partRow (host : Host) (batch : ImportBatch) (r : PartRequest) (size : Nat) : UploadPart where
  projectId := batch.projectId
  scopeId := batch.scopeId
  importBatchId := r.batchId
  uploadId := r.uploadId
  sourceName := r.sourceName
  sourceType := r.kind
  partNumber := r.partNumber
  totalParts := r.totalParts
  sizeBytes := size
  contentHash := host.sha256 r.content
  content := r.content

def putUploadPart (host : Host) (state : Uploads) (r : PartRequest) :
    Except ImportError (PartStatus × Nat) × Uploads :=
  if r.totalParts < 1 ∨ r.totalParts ≤ r.partNumber then (.error (.value "分片序号超出有效范围"), state)
  else
    match contentBytes host.library r.content with
    | .error message => (.error (.value message), state)
    | .ok bytes =>
      if maxPartBytes < bytes.size then (.error (.value "单个分片不能超过 4 MiB"), state)
      else
        match state.db.batches.get? r.batchId with
        | none => (.error (.lookup ("导入批次不存在：" ++ toString r.batchId)), state)
        | some batch =>
          if !isOpen batch.status then (.error (.value "当前批次状态不允许上传文件"), state)
          else if (state.db.projects.get? batch.projectId).isNone then (.error (.lookup "批次所属项目不存在"), state)
          else if !supportedTypes.contains r.kind then (.error (.value ("不支持的文件类型：" ++ r.kind)), state)
          else
            match (state.partsOf r.batchId r.uploadId).find? fun p => p.partNumber = r.partNumber with
            | some existing =>
              if existing.contentHash ≠ host.sha256 r.content ∨ existing.totalParts ≠ r.totalParts then
                (.error (.value "同一分片已存在，但内容或分片总数不一致"), state)
              else (.ok (existing.status, existing.sizeBytes), state)
            | none =>
              (.ok (.uploaded, bytes.size), { state with parts := state.parts.insert (partRow host batch r bytes.size) })

/-- `content.startswith("base64:")` -/
def isBase64 (content : String) : Bool := "base64:".toList.isPrefixOf content.toList

/-- `b"".join(_content_bytes(value) for value in values)` -/
def joinBytes (library : Library) : List String → Except String ByteArray
  | [] => .ok ByteArray.empty
  | value :: rest =>
    match contentBytes library value with
    | .error message => .error message
    | .ok bytes => (joinBytes library rest).map fun others => bytes ++ others

/-- The content of the parts together; `encode` is `base64.b64encode`. -/
def combine (library : Library) (encode : ByteArray → List Char) (values : List String) : Except ImportError String :=
  if values.all isBase64 then
    match joinBytes library values with
    | .error message => .error (.value message)
    | .ok bytes => .ok ("base64:" ++ String.ofList (encode bytes))
  else if values.any isBase64 then .error (.value "同一次上传不能混用文本与 base64 分片")
  else .ok (String.ofList (values.flatMap String.toList))

/-- The first transaction of `complete_upload`: the file, or nothing for an upload that is completed. -/
def readUpload (host : Host) (encode : ByteArray → List Char) (state : Uploads) (batchId : Nat) (uploadId : String) :
    Except ImportError (Option ImportItem) :=
  if (state.db.batches.get? batchId).isNone then .error (.lookup ("导入批次不存在：" ++ toString batchId))
  else
    let parts := sortBy UploadPart.partNumber (state.partsOf batchId uploadId)
    match parts.head? with
    | none => .error (.lookup "未找到上传分片")
    | some first =>
      if parts.length ≠ first.totalParts ∨ parts.map UploadPart.partNumber ≠ List.range first.totalParts then
        .error (.value "上传分片不完整或序号不连续")
      else if parts.any fun p => p.totalParts ≠ first.totalParts || p.status = .completed then
        if parts.all fun p => p.status = .completed then .ok none else .error (.value "分片上传状态不一致")
      else if parts.any fun p => p.sourceName ≠ first.sourceName || p.sourceType ≠ first.sourceType then
        .error (.value "分片的文件名或文件类型不一致")
      else if maxUploadBytes < (parts.map UploadPart.sizeBytes).sum then .error (.value "合并后的文件不能超过 64 MiB")
      else
        (combine host.library encode (parts.map UploadPart.content)).map fun combined =>
          some ⟨first.sourceName, combined, some first.sourceType⟩

/-- The parts of the upload are completed. -/
def markCompleted (state : Uploads) (batchId : Nat) (uploadId : String) : Uploads :=
  { state with
    parts := state.parts.mapRows fun _ p =>
      if p.importBatchId = batchId && p.uploadId = uploadId then { p with status := .completed } else p }

/-- `complete_upload`: what it returns is the number of files that are added.  Where the process ends
after `add_files`, the parts are not completed. -/
def completeUpload (host : Host) (encode : ByteArray → List Char) (state : Uploads) (batchId : Nat) (uploadId : String)
    (cut : Bool) : Except ImportError Nat × Uploads :=
  match readUpload host encode state batchId uploadId with
  | .error error => (.error error, state)
  | .ok none => (.ok 0, state)
  | .ok (some item) =>
    match addFiles host state.db batchId [item] with
    | (.error error, db) => (.error error, { state with db := db })
    | (.ok added, db) =>
      (.ok added, if cut then { state with db := db } else markCompleted { state with db := db } batchId uploadId)

/-! ## An upload -/

/-- A content and its parts: a text, or the bytes that Base64 stands for. -/
inductive Division (library : Library) (encode : ByteArray → List Char) : List String → String → Prop
  | text {parts : List String} (plain : ∀ p ∈ parts, isBase64 p = false)
      (whole : isBase64 (String.ofList (parts.flatMap String.toList)) = false) :
      Division library encode parts (String.ofList (parts.flatMap String.toList))
  | bytes {parts : List String} {data : ByteArray} (encoded : ∀ p ∈ parts, isBase64 p = true)
      (joined : joinBytes library parts = .ok data) (decoded : library.b64decode (encode data) = some data) :
      Division library encode parts ("base64:" ++ String.ofList (encode data))

/-- The bytes of a part. -/
def sizeOf (library : Library) (content : String) : Nat :=
  match contentBytes library content with
  | .ok bytes => bytes.size
  | .error _ => 0

/-- A file that is uploaded in parts, within the limits of sizes. -/
structure Upload (host : Host) (encode : ByteArray → List Char) where
  batchId : Nat
  uploadId : String
  sourceName : String
  sourceType : Option String
  parts : List String
  whole : String
  nonempty : parts ≠ []
  division : Division host.library encode parts whole
  small : ∀ p ∈ parts, sizeOf host.library p ≤ maxPartBytes
  smallWhole : (parts.map (sizeOf host.library)).sum ≤ maxUploadBytes
  supported : supportedTypes.contains (ImportItem.kind ⟨sourceName, whole, sourceType⟩) = true

namespace Upload

variable {host : Host} {encode : ByteArray → List Char} (up : Upload host encode)

/-- The file as one item. -/
def item : ImportItem := ⟨up.sourceName, up.whole, up.sourceType⟩

/-- The content of a part. -/
def content (i : Fin up.parts.length) : String := up.parts.get i

/-- The request of a part, with any content. -/
def request (i : Nat) (content : String) : PartRequest :=
  ⟨up.batchId, up.uploadId, i, up.parts.length, up.sourceName, up.sourceType, content⟩

/-- A call of the upload. -/
inductive Call
  | part (i : Fin up.parts.length)
  | complete (cut : Bool)

/-- One call. -/
def step (state : Uploads) : up.Call → Uploads
  | .part i => (putUploadPart host state (up.request i (up.content i))).2
  | .complete cut => (completeUpload host encode state up.batchId up.uploadId cut).2

/-- All calls, one after the other. -/
def run (state : Uploads) (calls : List up.Call) : Uploads := calls.foldl up.step state

/-- The batch is open for uploads, nothing of the upload is there, and the storage takes its content. -/
structure Start (state : Uploads) (batch : ImportBatch) : Prop where
  row : state.db.batches.get? up.batchId = some batch
  opened : isOpen batch.status = true
  project : (state.db.projects.get? batch.projectId).isSome = true
  fresh : state.partsOf up.batchId up.uploadId = []
  stored : ∃ stored, host.storage.put up.whole up.batchId (host.sha256 up.whole) = .ok stored

end Upload

/-! ## Adding the file -/

theorem supported_lower : ∀ kind ∈ supportedTypes, lower kind = kind ∧ kind ≠ "" := by decide

/-- The type that is stored with the parts is the type of the file. -/
theorem kind_some {item : ImportItem} (h : supportedTypes.contains item.kind = true) (name content : String) :
    ImportItem.kind ⟨name, content, some item.kind⟩ = item.kind := by
  obtain ⟨hlower, hne⟩ := supported_lower _ (List.contains_iff_mem.mp h)
  rw [ImportItem.kind]
  simp only [if_neg hne, hlower]

/-- A file is added by its name, content and type. -/
theorem addFiles_congr (host : Host) (db : Database) (batchId : Nat) {item item' : ImportItem}
    (hname : item'.sourceName = item.sourceName) (hcontent : item'.content = item.content) (hkind : item'.kind = item.kind) :
    addFiles host db batchId [item'] = addFiles host db batchId [item] := by
  simp only [addFiles, addEach, fileRow, hname, hcontent, hkind, List.cons_ne_self, if_false]

/-- What `add_files` needs for one file. -/
structure Accepts (host : Host) (db : Database) (batchId : Nat) (item : ImportItem) (batch : ImportBatch) : Prop where
  row : db.batches.get? batchId = some batch
  opened : isOpen batch.status = true
  project : (db.projects.get? batch.projectId).isSome = true
  supported : supportedTypes.contains item.kind = true
  stored : ∃ stored, host.storage.put item.content batchId (host.sha256 item.content) = .ok stored
  bytes : ∃ bytes, contentBytes host.library item.content = .ok bytes

/-- The batch has the content. -/
def hasHash (host : Host) (db : Database) (batchId : Nat) (item : ImportItem) : Bool :=
  ((db.filesOf batchId).map fun f => f.2.contentHash).contains (host.sha256 item.content)

/-- A file is added unless the batch has its content. -/
theorem addFiles_one {host : Host} {db : Database} {batchId : Nat} {item : ImportItem} {batch : ImportBatch}
    (h : Accepts host db batchId item batch) :
    ∃ files, addFiles host db batchId [item] =
        (.ok (if hasHash host db batchId item then 0 else 1), { db with
          files := files
          batches := db.batches.modify batchId fun b =>
            { b with sourceCount := b.sourceCount + (if hasHash host db batchId item then 0 else 1), status := .uploaded } }) ∧
      (hasHash host db batchId item = true → files = db.files) ∧
      (hasHash host db batchId item = false → ∃ stored size,
        files = db.files.insert (fileRow batchId batch item (host.sha256 item.content) stored size)) := by
  obtain ⟨stored, hstored⟩ := h.stored
  obtain ⟨bytes, hbytes⟩ := h.bytes
  have hproject : (db.projects.get? batch.projectId).isNone = false := by
    rw [Option.isNone_eq_false_iff]
    exact h.project
  rw [addFiles, if_neg (List.cons_ne_nil _ _), h.row]
  simp only [h.opened, hproject, Bool.not_true, Bool.false_eq_true, if_false, addEach, h.supported]
  cases hhash : hasHash host db batchId item with
  | true =>
    rw [hasHash] at hhash
    simp only [hhash, if_true]
    exact ⟨db.files, rfl, fun _ => rfl, by rintro ⟨⟩⟩
  | false =>
    rw [hasHash] at hhash
    simp only [hhash, Bool.false_eq_true, if_false, hstored, hbytes]
    exact ⟨_, rfl, (by rintro ⟨⟩), fun _ => ⟨stored, bytes.size, rfl⟩⟩

theorem modify_modify {α : Type} (t : Table α) (k : Nat) (f g : α → α) :
    (t.modify k f).modify k g = t.modify k fun a => g (f a) := by
  refine Table.ext ?_ rfl
  show (t.rows.map _).map _ = t.rows.map _
  rw [List.map_map]
  refine List.map_congr_left fun r _ => ?_
  by_cases hk : r.1 = k
  · simp [hk]
  · simp [hk]

/-- **A file that has been added is not added again.** -/
theorem addFiles_again {host : Host} {db : Database} {batchId : Nat} {item : ImportItem} {batch : ImportBatch}
    (h : Accepts host db batchId item batch) :
    ∃ batch', Accepts host (addFiles host db batchId [item]).2 batchId item batch' ∧
      batch'.projectId = batch.projectId ∧ batch'.scopeId = batch.scopeId ∧
      addFiles host (addFiles host db batchId [item]).2 batchId [item] = (.ok 0, (addFiles host db batchId [item]).2) := by
  obtain ⟨files, hadd, hold, hnew⟩ := addFiles_one h
  generalize hcount : (if hasHash host db batchId item then 0 else 1) = count at hadd
  rw [hadd]
  have hrow : (db.batches.modify batchId fun b =>
      { b with sourceCount := b.sourceCount + count, status := .uploaded }).get? batchId =
        some { batch with sourceCount := batch.sourceCount + count, status := .uploaded } := by
    rw [Table.get?_modify_self, h.row]
    rfl
  have haccepts : Accepts host { db with
      files := files
      batches := db.batches.modify batchId fun b =>
        { b with sourceCount := b.sourceCount + count, status := .uploaded } } batchId item
      { batch with sourceCount := batch.sourceCount + count, status := .uploaded } :=
    ⟨hrow, rfl, h.project, h.supported, h.stored, h.bytes⟩
  have hhash : hasHash host { db with
      files := files
      batches := db.batches.modify batchId fun b =>
        { b with sourceCount := b.sourceCount + count, status := .uploaded } } batchId item = true := by
    cases hhas : hasHash host db batchId item with
    | true =>
      rw [hold hhas]
      exact hhas
    | false =>
      obtain ⟨stored, size, hfiles⟩ := hnew hhas
      rw [hasHash, List.contains_iff_mem, List.mem_map]
      refine ⟨(db.files.nextId, fileRow batchId batch item (host.sha256 item.content) stored size), ?_, rfl⟩
      refine mem_filesOf.mpr ⟨?_, decide_eq_true rfl⟩
      rw [hfiles]
      exact Table.get?_insert_self _ _
  refine ⟨_, haccepts, rfl, rfl, ?_⟩
  obtain ⟨files', hadd', hold', -⟩ := addFiles_one haccepts
  rw [hadd', hhash, hold' hhash]
  simp only [if_true, Nat.add_zero]
  congr 1
  have hbatches : ((db.batches.modify batchId fun b =>
      { b with sourceCount := b.sourceCount + count, status := .uploaded }).modify batchId fun b =>
        { b with status := .uploaded }) =
      db.batches.modify batchId fun b => { b with sourceCount := b.sourceCount + count, status := .uploaded } := by
    rw [modify_modify]
  rw [hbatches]

/-! ## Contents -/

theorem contentBytes_text {library : Library} {content : String} (h : isBase64 content = false) :
    contentBytes library content = .ok content.toUTF8 := by
  rw [isBase64] at h
  rw [contentBytes, h]
  rfl

theorem joinBytes_ok {library : Library} {parts : List String} {data : ByteArray}
    (h : joinBytes library parts = .ok data) : ∀ p ∈ parts, ∃ bytes, contentBytes library p = .ok bytes := by
  induction parts generalizing data with
  | nil => exact fun p hp => nomatch hp
  | cons part rest ih =>
    rw [joinBytes] at h
    split at h
    · cases h
    · next bytes hbytes =>
      cases hrest : joinBytes library rest with
      | error message =>
        rw [hrest] at h
        cases h
      | ok others =>
        intro p hp
        rcases List.mem_cons.mp hp with rfl | hp
        · exact ⟨bytes, hbytes⟩
        · exact ih hrest p hp

/-- Every part has its bytes. -/
theorem Division.part_bytes {library : Library} {encode : ByteArray → List Char} {parts : List String} {whole : String}
    (h : Division library encode parts whole) : ∀ p ∈ parts, ∃ bytes, contentBytes library p = .ok bytes := by
  cases h with
  | text plain whole => exact fun p hp => ⟨_, contentBytes_text (plain p hp)⟩
  | bytes encoded joined decoded => exact joinBytes_ok joined

/-- So does the whole. -/
theorem Division.whole_bytes {library : Library} {encode : ByteArray → List Char} {parts : List String} {whole : String}
    (h : Division library encode parts whole) : ∃ bytes, contentBytes library whole = .ok bytes := by
  cases h with
  | text plain whole => exact ⟨_, contentBytes_text whole⟩
  | @bytes data encoded joined decoded =>
    have htext : ("base64:" ++ String.ofList (encode data)).toList = "base64:".toList ++ encode data := by
      simp only [String.toList_append, String.toList_ofList]
    have hprefix : "base64:".toList.isPrefixOf ("base64:".toList ++ encode data) = true :=
      List.isPrefixOf_iff_prefix.mpr (List.prefix_append _ _)
    have hdrop : ("base64:".toList ++ encode data).drop 7 = encode data := rfl
    rw [contentBytes, htext, hprefix, hdrop, decoded]
    exact ⟨data, rfl⟩

/-- **The parts together are the whole.** -/
theorem Division.combine {library : Library} {encode : ByteArray → List Char} {parts : List String} {whole : String}
    (h : Division library encode parts whole) (hne : parts ≠ []) :
    combine library encode parts = .ok whole := by
  cases h with
  | text plain whole =>
    have hany : parts.any isBase64 = false := List.any_eq_false.mpr fun p hp => by rw [plain p hp]; exact Bool.false_ne_true
    have hall : parts.all isBase64 = false := by
      obtain ⟨first, rest, rfl⟩ := List.exists_cons_of_ne_nil hne
      rw [List.all_cons, plain first List.mem_cons_self, Bool.false_and]
    rw [Import.combine, hall, hany]
    rfl
  | bytes encoded joined decoded =>
    rw [Import.combine, if_pos (List.all_eq_true.mpr encoded), joined]

/-! ## The rows of an upload -/

theorem partsOf_insert {state : Uploads} {batchId : Nat} {uploadId : String} {row : UploadPart}
    (hbatch : row.importBatchId = batchId) (hupload : row.uploadId = uploadId) :
    ({ state with parts := state.parts.insert row } : Uploads).partsOf batchId uploadId =
      state.partsOf batchId uploadId ++ [row] := by
  have hrow : [(state.parts.nextId, row)].filter (fun r : Nat × UploadPart =>
      decide (r.2.importBatchId = batchId) && decide (r.2.uploadId = uploadId)) = [(state.parts.nextId, row)] := by
    simp [hbatch, hupload]
  show ((state.parts.rows ++ [(state.parts.nextId, row)]).filter fun r : Nat × UploadPart =>
    decide (r.2.importBatchId = batchId) && decide (r.2.uploadId = uploadId)).map Prod.snd = _
  rw [List.filter_append, List.map_append, hrow]
  rfl

theorem markCompleted_partsOf (state : Uploads) (batchId : Nat) (uploadId : String) :
    (markCompleted state batchId uploadId).partsOf batchId uploadId =
      (state.partsOf batchId uploadId).map fun p => { p with status := .completed } := by
  show ((state.parts.rows.map _).filter _).map Prod.snd = ((state.parts.rows.filter _).map Prod.snd).map _
  rw [List.filter_map, List.map_map, List.map_map]
  have hkeep : state.parts.rows.filter ((fun r : Nat × UploadPart =>
        decide (r.2.importBatchId = batchId) && decide (r.2.uploadId = uploadId)) ∘
          fun r => (r.1, if r.2.importBatchId = batchId && r.2.uploadId = uploadId
            then { r.2 with status := .completed } else r.2)) =
      state.parts.rows.filter fun r => decide (r.2.importBatchId = batchId) && decide (r.2.uploadId = uploadId) := by
    refine List.filter_congr fun r _ => ?_
    simp only [Function.comp_apply]
    split
    · rfl
    · rfl
  rw [hkeep]
  refine List.map_congr_left fun r hr => ?_
  have hpos := (List.mem_filter.mp hr).2
  simp only [Function.comp_apply]
  rw [if_pos hpos]

/-- **A part that is there is not overwritten**: one with another content is refused. -/
theorem put_refused {host : Host} {state : Uploads} {r : PartRequest} {existing : UploadPart}
    (hfind : (state.partsOf r.batchId r.uploadId).find? (fun p => p.partNumber = r.partNumber) = some existing)
    (hhash : existing.contentHash ≠ host.sha256 r.content) :
    ∃ error, putUploadPart host state r = (.error error, state) := by
  rw [putUploadPart]
  split
  · exact ⟨_, rfl⟩
  · split
    · exact ⟨_, rfl⟩
    · split
      · exact ⟨_, rfl⟩
      · split
        · exact ⟨_, rfl⟩
        · split
          · exact ⟨_, rfl⟩
          · split
            · exact ⟨_, rfl⟩
            · split
              · exact ⟨_, rfl⟩
              · rw [hfind]
                simp only [if_pos (Or.inl hhash)]
                exact ⟨_, rfl⟩

/-- A part passes the checks of `put_upload_part`. -/
structure Passes (host : Host) (state : Uploads) (r : PartRequest) (bytes : ByteArray) (batch : ImportBatch) : Prop where
  range : r.partNumber < r.totalParts
  decoded : contentBytes host.library r.content = .ok bytes
  small : bytes.size ≤ maxPartBytes
  row : state.db.batches.get? r.batchId = some batch
  opened : isOpen batch.status = true
  project : (state.db.projects.get? batch.projectId).isSome = true
  kind : supportedTypes.contains r.kind = true

/-- It is stored when it is not there. -/
theorem put_new {host : Host} {state : Uploads} {r : PartRequest} {bytes : ByteArray} {batch : ImportBatch}
    (h : Passes host state r bytes batch)
    (hfind : (state.partsOf r.batchId r.uploadId).find? (fun p => p.partNumber = r.partNumber) = none) :
    putUploadPart host state r =
      (.ok (.uploaded, bytes.size), { state with parts := state.parts.insert (partRow host batch r bytes.size) }) := by
  have hproject : (state.db.projects.get? batch.projectId).isNone = false := by
    rw [Option.isNone_eq_false_iff]
    exact h.project
  have hrange := h.range
  rw [putUploadPart, if_neg (by omega), h.decoded]
  simp only [if_neg (Nat.not_lt.mpr h.small), h.row, h.opened, hproject, h.kind, Bool.not_true, Bool.false_eq_true,
    if_false]
  rw [hfind]

/-- It is found when it is there with the same content. -/
theorem put_again {host : Host} {state : Uploads} {r : PartRequest} {bytes : ByteArray} {batch : ImportBatch}
    (h : Passes host state r bytes batch) {existing : UploadPart}
    (hfind : (state.partsOf r.batchId r.uploadId).find? (fun p => p.partNumber = r.partNumber) = some existing)
    (hhash : existing.contentHash = host.sha256 r.content) (htotal : existing.totalParts = r.totalParts) :
    putUploadPart host state r = (.ok (existing.status, existing.sizeBytes), state) := by
  have hproject : (state.db.projects.get? batch.projectId).isNone = false := by
    rw [Option.isNone_eq_false_iff]
    exact h.project
  have hrange := h.range
  rw [putUploadPart, if_neg (by omega), h.decoded]
  simp only [if_neg (Nat.not_lt.mpr h.small), h.row, h.opened, hproject, h.kind, Bool.not_true, Bool.false_eq_true,
    if_false]
  rw [hfind]
  simp only
  rw [if_neg fun hne => hne.elim (fun h => h hhash) fun h => h htotal]

namespace Upload

variable {host : Host} {encode : ByteArray → List Char} {up : Upload host encode}

/-- The row of a part. -/
def rowOf (up : Upload host encode) (batch : ImportBatch) (status : PartStatus) (i : Fin up.parts.length) : UploadPart :=
  { partRow host batch (up.request i (up.content i)) (sizeOf host.library (up.content i)) with status := status }

theorem content_mem (i : Fin up.parts.length) : up.content i ∈ up.parts := List.get_mem _ _

theorem contents_eq (up : Upload host encode) : (List.finRange up.parts.length).map up.content = up.parts := List.map_get_finRange _

theorem content_bytes (i : Fin up.parts.length) :
    ∃ bytes, contentBytes host.library (up.content i) = .ok bytes ∧ bytes.size = sizeOf host.library (up.content i) ∧
      bytes.size ≤ maxPartBytes := by
  obtain ⟨bytes, hbytes⟩ := up.division.part_bytes _ (content_mem i)
  have hsize : sizeOf host.library (up.content i) = bytes.size := by rw [sizeOf, hbytes]
  exact ⟨bytes, hbytes, hsize.symm, hsize ▸ up.small _ (content_mem i)⟩

/-- How far an upload has come. -/
inductive Phase
  | collecting | added | completed
  deriving DecidableEq

/-- The state of the rows in a phase. -/
def Phase.status : Phase → PartStatus
  | .completed => .completed
  | _ => .uploaded

/-- **The states of an upload**: the parts that have been sent are there, once each; the database is
that before the upload, or after one `add_files`. -/
structure Reached (up : Upload host encode) (before : Uploads) (batch : ImportBatch) (sent : List (Fin up.parts.length))
    (phase : Phase) (state : Uploads) : Prop where
  nodup : sent.Nodup
  rows : state.partsOf up.batchId up.uploadId = sent.map (up.rowOf batch phase.status)
  db : state.db = if phase = .collecting then before.db else (addFiles host before.db up.batchId [up.item]).2
  all : phase ≠ .collecting → ∀ i, i ∈ sent

theorem Start.accepts {before : Uploads} {batch : ImportBatch} (start : up.Start before batch) :
    Accepts host before.db up.batchId up.item batch :=
  ⟨start.row, start.opened, start.project, up.supported, start.stored, up.division.whole_bytes⟩

/-- The batch stays open, in its project and scope. -/
theorem Reached.accepts {before state : Uploads} {batch : ImportBatch} {sent : List (Fin up.parts.length)} {phase : Phase}
    (start : up.Start before batch) (h : up.Reached before batch sent phase state) :
    ∃ batch', Accepts host state.db up.batchId up.item batch' ∧ batch'.projectId = batch.projectId ∧
      batch'.scopeId = batch.scopeId := by
  rw [h.db]
  split
  · exact ⟨batch, start.accepts, rfl, rfl⟩
  · obtain ⟨batch', haccepts, hproject, hscope, -⟩ := addFiles_again start.accepts
    exact ⟨batch', haccepts, hproject, hscope⟩

theorem find_sent {batch : ImportBatch} {status : PartStatus} {sent : List (Fin up.parts.length)} (i : Fin up.parts.length) :
    (sent.map (up.rowOf batch status)).find? (fun p => p.partNumber = (i : Nat)) =
      if i ∈ sent then some (up.rowOf batch status i) else none := by
  induction sent with
  | nil => rfl
  | cons j sent ih =>
    rw [List.map_cons, List.find?_cons]
    have hnumber : (up.rowOf batch status j).partNumber = (j : Nat) := rfl
    rw [hnumber]
    by_cases hij : j = i
    · subst hij
      simp
    · have hne : (j : Nat) ≠ (i : Nat) := fun h => hij (Fin.ext h)
      have hmem : i ∈ j :: sent ↔ i ∈ sent := by
        rw [List.mem_cons]
        exact ⟨fun h => h.resolve_left (Ne.symm hij), Or.inr⟩
      simp only [hne, decide_false]
      rw [ih]
      simp only [hmem]

/-- A part of the upload is looked for. -/
theorem find_part {before state : Uploads} {batch : ImportBatch} {sent : List (Fin up.parts.length)} {phase : Phase}
    (h : up.Reached before batch sent phase state) (i : Fin up.parts.length) (content : String) :
    (state.partsOf (up.request i content).batchId (up.request i content).uploadId).find?
        (fun p => p.partNumber = (up.request i content).partNumber) =
      if i ∈ sent then some (up.rowOf batch phase.status i) else none := by
  show (state.partsOf up.batchId up.uploadId).find? (fun p => p.partNumber = (i : Nat)) = _
  rw [h.rows, find_sent]

/-- **A part is stored when it is sent first, and found when it is sent again.** -/
theorem put_part {before state : Uploads} {batch : ImportBatch} {sent : List (Fin up.parts.length)} {phase : Phase}
    (start : up.Start before batch) (h : up.Reached before batch sent phase state) (i : Fin up.parts.length) :
    up.Reached before batch (if i ∈ sent then sent else sent ++ [i]) phase
      (putUploadPart host state (up.request i (up.content i))).2 := by
  obtain ⟨batch', haccepts, hproject, hscope⟩ := h.accepts start
  obtain ⟨bytes, hbytes, hsize, hsmall⟩ := content_bytes i
  have hpasses : Passes host state (up.request i (up.content i)) bytes batch' :=
    ⟨i.isLt, hbytes, hsmall, haccepts.row, haccepts.opened, haccepts.project, up.supported⟩
  have hfind := find_part h i (up.content i)
  by_cases hi : i ∈ sent
  · rw [if_pos hi] at hfind ⊢
    rw [put_again hpasses hfind rfl rfl]
    exact h
  · have hphase : phase = .collecting := by
      by_contra hphase
      exact hi (h.all hphase i)
    subst hphase
    rw [if_neg hi] at hfind ⊢
    rw [put_new hpasses hfind]
    refine ⟨?_, ?_, h.db, fun hne => absurd rfl hne⟩
    · rw [List.nodup_append]
      refine ⟨h.nodup, List.nodup_singleton i, fun a ha b hb => ?_⟩
      rw [List.mem_singleton.mp hb]
      exact fun hab => hi (hab ▸ ha)
    · have hrow : partRow host batch' (up.request i (up.content i)) bytes.size = up.rowOf batch .uploaded i := by
        simp only [rowOf, partRow, hproject, hscope, hsize]
      have hparts : ({ state with parts := state.parts.insert (up.rowOf batch .uploaded i) } : Uploads).partsOf up.batchId
          up.uploadId = state.partsOf up.batchId up.uploadId ++ [up.rowOf batch .uploaded i] := partsOf_insert rfl rfl
      rw [hrow]
      refine hparts.trans ?_
      rw [h.rows, List.map_append]
      rfl

/-! ## Completing -/

theorem sent_length {sent : List (Fin up.parts.length)} (hnodup : sent.Nodup) :
    sent.length = up.parts.length ↔ ∀ i, i ∈ sent := by
  have hcard : sent.toFinset.card = sent.length := List.toFinset_card_of_nodup hnodup
  constructor
  · intro hlength i
    have huniv : sent.toFinset = Finset.univ :=
      Finset.card_eq_iff_eq_univ _ |>.mp (by rw [hcard, hlength, Fintype.card_fin])
    exact List.mem_toFinset.mp (huniv ▸ Finset.mem_univ i)
  · intro hall
    have huniv : sent.toFinset = Finset.univ :=
      Finset.eq_univ_of_forall fun i => List.mem_toFinset.mpr (hall i)
    rw [← hcard, huniv, Finset.card_univ, Fintype.card_fin]

/-- The parts in the order of their numbers, when all of them are there. -/
theorem sorted_whole {batch : ImportBatch} {status : PartStatus} {sent : List (Fin up.parts.length)}
    (hnodup : sent.Nodup) (hall : ∀ i, i ∈ sent) :
    sortBy UploadPart.partNumber (sent.map (up.rowOf batch status)) =
      (List.finRange up.parts.length).map (up.rowOf batch status) := by
  have hperm : (List.finRange up.parts.length).Perm sent :=
    (List.perm_ext_iff_of_nodup (List.nodup_finRange _) hnodup).mpr fun i => by simp [hall i]
  have hsorted : (List.finRange up.parts.length).Pairwise fun i j => i.val < j.val := by
    have hrange := List.pairwise_lt_range (n := up.parts.length)
    rwa [← List.map_coe_finRange_eq_range, List.pairwise_map] at hrange
  symm
  refine eq_sortBy (hperm.map _) ?_ ?_
  · rw [List.pairwise_map]
    exact hsorted.imp fun hij => Nat.le_of_lt hij
  · intro a ha b hb hab
    obtain ⟨i, -, rfl⟩ := List.mem_map.mp ha
    obtain ⟨j, -, rfl⟩ := List.mem_map.mp hb
    have hij : i = j := Fin.ext hab
    rw [hij]

/-- **While parts are missing nothing is completed.** -/
theorem complete_missing {before state : Uploads} {batch : ImportBatch} {sent : List (Fin up.parts.length)} {phase : Phase}
    (h : up.Reached before batch sent phase state) (hmissing : ¬ ∀ i, i ∈ sent) (cut : Bool) :
    ∃ error, completeUpload host encode state up.batchId up.uploadId cut = (.error error, state) := by
  have hlength : sent.length ≠ up.parts.length := fun h' => hmissing ((sent_length h.nodup).mp h')
  have herror : ∃ error, readUpload host encode state up.batchId up.uploadId = .error error := by
    rw [readUpload]
    split
    · exact ⟨_, rfl⟩
    · simp only
      cases hhead : (sortBy UploadPart.partNumber (state.partsOf up.batchId up.uploadId)).head? with
      | none => exact ⟨_, rfl⟩
      | some first =>
        have hfirst : first.totalParts = up.parts.length := by
          have hmem := mem_sortBy.mp (List.mem_of_mem_head? hhead)
          rw [h.rows] at hmem
          obtain ⟨i, -, rfl⟩ := List.mem_map.mp hmem
          rfl
        have hshort : (sortBy UploadPart.partNumber (state.partsOf up.batchId up.uploadId)).length ≠ first.totalParts := by
          rw [length_sortBy, h.rows, List.length_map, hfirst]
          exact hlength
        simp only
        rw [if_pos (Or.inl hshort)]
        exact ⟨_, rfl⟩
  obtain ⟨error, herror⟩ := herror
  rw [completeUpload, herror]
  exact ⟨error, rfl⟩

/-- The file that `complete_upload` adds. -/
def assembled (up : Upload host encode) : ImportItem := ⟨up.sourceName, up.whole, some up.item.kind⟩

/-- What it reads when all parts are there. -/
theorem readUpload_whole {before state : Uploads} {batch : ImportBatch} {sent : List (Fin up.parts.length)} {phase : Phase}
    (start : up.Start before batch) (h : up.Reached before batch sent phase state) (hall : ∀ i, i ∈ sent) :
    readUpload host encode state up.batchId up.uploadId =
      .ok (if phase = .completed then none else some up.assembled) := by
  obtain ⟨batch', haccepts, -, -⟩ := h.accepts start
  have hpos : 0 < up.parts.length := List.length_pos_iff.mpr up.nonempty
  have hhead : ((List.finRange up.parts.length).map (up.rowOf batch phase.status)).head? =
      some (up.rowOf batch phase.status ⟨0, hpos⟩) := by
    rw [List.head?_map, List.head?_eq_getElem?, List.getElem?_eq_getElem (by rwa [List.length_finRange]),
      List.getElem_finRange]
    rfl
  have hnumbers : ((List.finRange up.parts.length).map (up.rowOf batch phase.status)).map UploadPart.partNumber =
      List.range up.parts.length := by
    rw [List.map_map, ← List.map_coe_finRange_eq_range]
    rfl
  have htotal : (up.rowOf batch phase.status ⟨0, hpos⟩).totalParts = up.parts.length := rfl
  rw [readUpload, haccepts.row, h.rows, sorted_whole h.nodup hall]
  simp only [Option.isNone_some, Bool.false_eq_true, if_false, hhead, htotal, hnumbers, List.length_map,
    List.length_finRange, ne_eq, not_true_eq_false, or_self]
  have hsizes : (((List.finRange up.parts.length).map (up.rowOf batch phase.status)).map UploadPart.sizeBytes).sum ≤
      maxUploadBytes := by
    have hmap : ((List.finRange up.parts.length).map (up.rowOf batch phase.status)).map UploadPart.sizeBytes =
        up.parts.map (sizeOf host.library) := by
      conv => rhs; rw [← contents_eq up]
      rw [List.map_map, List.map_map]
      rfl
    rw [hmap]
    exact up.smallWhole
  have hcontents : ((List.finRange up.parts.length).map (up.rowOf batch phase.status)).map UploadPart.content = up.parts := by
    conv => rhs; rw [← contents_eq up]
    rw [List.map_map]
    rfl
  have hsame : (((List.finRange up.parts.length).map (up.rowOf batch phase.status)).any fun p =>
      decide (p.sourceName ≠ (up.rowOf batch phase.status ⟨0, hpos⟩).sourceName) ||
        decide (p.sourceType ≠ (up.rowOf batch phase.status ⟨0, hpos⟩).sourceType)) = false := by
    rw [List.any_eq_false]
    intro p hp
    obtain ⟨i, -, rfl⟩ := List.mem_map.mp hp
    simp [rowOf, partRow, request, PartRequest.kind, ImportItem.kind]
  have hstatus : ∀ p ∈ (List.finRange up.parts.length).map (up.rowOf batch phase.status),
      p.totalParts = up.parts.length ∧ p.status = phase.status := by
    intro p hp
    obtain ⟨i, -, rfl⟩ := List.mem_map.mp hp
    exact ⟨rfl, rfl⟩
  by_cases hphase : phase = .completed
  · subst hphase
    have hany : (((List.finRange up.parts.length).map (up.rowOf batch Phase.completed.status)).any fun p =>
        decide (¬ p.totalParts = up.parts.length) || decide (p.status = .completed)) = true := by
      rw [List.any_eq_true]
      refine ⟨_, List.mem_map.mpr ⟨⟨0, hpos⟩, List.mem_finRange _, rfl⟩, ?_⟩
      exact Bool.or_eq_true_iff.mpr (Or.inr (decide_eq_true rfl))
    have hcompleted : (((List.finRange up.parts.length).map (up.rowOf batch Phase.completed.status)).all fun p =>
        decide (p.status = .completed)) = true :=
      List.all_eq_true.mpr fun p hp => decide_eq_true (hstatus p hp).2
    rw [hany, hcompleted]
    rfl
  · have hnone : (((List.finRange up.parts.length).map (up.rowOf batch phase.status)).any fun p =>
        decide (¬ p.totalParts = up.parts.length) || decide (p.status = .completed)) = false := by
      rw [List.any_eq_false]
      intro p hp
      obtain ⟨htotal, hp⟩ := hstatus p hp
      rw [htotal, hp]
      cases phase with
      | collecting => simp [Phase.status]
      | added => simp [Phase.status]
      | completed => exact absurd rfl hphase
    simp only [ne_eq] at hsame
    rw [hnone, hsame, if_neg Bool.false_ne_true, if_neg Bool.false_ne_true, if_neg (Nat.not_lt.mpr hsizes), hcontents,
      up.division.combine up.nonempty, if_neg hphase]
    rfl

/-- The phase after a `complete_upload` with all parts. -/
def Phase.next (phase : Phase) (cut : Bool) : Phase :=
  if phase = .completed then .completed else if cut then .added else .completed

theorem Phase.next_ne (phase : Phase) (cut : Bool) : phase.next cut ≠ .collecting := by
  cases phase with
  | collecting => cases cut <;> decide
  | added => cases cut <;> decide
  | completed => cases cut <;> decide

/-- The rows after `add_files`. -/
theorem Reached.ended {before state : Uploads} {batch : ImportBatch} {sent : List (Fin up.parts.length)} {phase : Phase}
    (h : up.Reached before batch sent phase state) (hall : ∀ i, i ∈ sent) (hphase : phase ≠ .completed) (cut : Bool) :
    up.Reached before batch sent (phase.next cut)
      (if cut then { state with db := (addFiles host before.db up.batchId [up.item]).2 }
      else markCompleted { state with db := (addFiles host before.db up.batchId [up.item]).2 } up.batchId up.uploadId) := by
  have hstatus : phase.status = .uploaded := by
    cases phase with
    | collecting => rfl
    | added => rfl
    | completed => exact absurd rfl hphase
  have hrows := h.rows
  rw [hstatus] at hrows
  rw [Phase.next, if_neg hphase]
  cases cut with
  | true => exact ⟨h.nodup, hrows, rfl, fun _ => hall⟩
  | false =>
    refine ⟨h.nodup, ?_, rfl, fun _ => hall⟩
    rw [if_neg Bool.false_ne_true, markCompleted_partsOf]
    show (state.partsOf up.batchId up.uploadId).map _ = _
    rw [hrows, List.map_map]
    rfl

/-- **With all parts the file is added, unless it has been.** -/
theorem complete_whole {before state : Uploads} {batch : ImportBatch} {sent : List (Fin up.parts.length)} {phase : Phase}
    (start : up.Start before batch) (h : up.Reached before batch sent phase state) (hall : ∀ i, i ∈ sent) (cut : Bool) :
    ∃ added, (completeUpload host encode state up.batchId up.uploadId cut).1 = .ok added ∧
      (phase = .collecting → (addFiles host before.db up.batchId [up.item]).1 = .ok added) ∧
      (phase ≠ .collecting → added = 0) ∧
      up.Reached before batch sent (phase.next cut) (completeUpload host encode state up.batchId up.uploadId cut).2 := by
  have hread := readUpload_whole start h hall
  have haccepts := start.accepts
  have hitem : ∀ db, addFiles host db up.batchId [up.assembled] = addFiles host db up.batchId [up.item] := fun db =>
    addFiles_congr host db up.batchId rfl rfl (kind_some up.supported _ _)
  rw [completeUpload, hread]
  cases phase with
  | collecting =>
    obtain ⟨files, hadd, -, -⟩ := addFiles_one haccepts
    have hdb : state.db = before.db := h.db
    have hended := h.ended hall (by decide) cut
    rw [if_neg (by decide)]
    simp only
    rw [hdb, hitem]
    rw [hadd] at hended ⊢
    exact ⟨_, rfl, fun _ => rfl, fun hne => absurd rfl hne, hended⟩
  | added =>
    obtain ⟨batch', -, -, -, hagain⟩ := addFiles_again haccepts
    have hdb : state.db = (addFiles host before.db up.batchId [up.item]).2 := h.db
    have hended := h.ended hall (by decide) cut
    rw [if_neg (by decide)]
    simp only
    rw [hdb, hitem, hagain]
    exact ⟨0, rfl, (fun hne => nomatch hne), fun _ => rfl, hended⟩
  | completed => exact ⟨0, rfl, (fun hne => nomatch hne), fun _ => rfl, h⟩

/-! ## Runs -/

/-- One call. -/
theorem reached_step {before state : Uploads} {batch : ImportBatch} {sent : List (Fin up.parts.length)} {phase : Phase}
    (start : up.Start before batch) (h : up.Reached before batch sent phase state) (call : up.Call) :
    ∃ sent' phase', up.Reached before batch sent' phase' (up.step state call) ∧
      (∀ i, i ∈ sent' ↔ i ∈ sent ∨ call = .part i) ∧ (phase ≠ .collecting → phase' ≠ .collecting) ∧
      ((∀ cut, call ≠ .complete cut) → phase' = phase) := by
  cases call with
  | part i =>
    refine ⟨_, phase, put_part start h i, fun j => ?_, fun hne => hne, fun _ => rfl⟩
    rw [Call.part.injEq]
    split
    · next hi =>
      constructor
      · exact Or.inl
      · rintro (hj | rfl)
        · exact hj
        · exact hi
    · rw [List.mem_append, List.mem_singleton]
      exact or_congr_right eq_comm
  | complete cut =>
    by_cases hall : ∀ i, i ∈ sent
    · obtain ⟨added, -, -, -, hreached⟩ := complete_whole start h hall cut
      refine ⟨sent, phase.next cut, hreached, fun i => ?_, fun _ => phase.next_ne cut, fun hne => absurd rfl (hne cut)⟩
      simp only [reduceCtorEq, or_false]
    · obtain ⟨error, herror⟩ := complete_missing h hall cut
      refine ⟨sent, phase, ?_, fun i => ?_, fun hne => hne, fun _ => rfl⟩
      · rw [step, herror]
        exact h
      · simp only [reduceCtorEq, or_false]

/-- Calls from a state that has been reached. -/
theorem reached_calls {before state : Uploads} {batch : ImportBatch} {sent : List (Fin up.parts.length)} {phase : Phase}
    (start : up.Start before batch) (h : up.Reached before batch sent phase state) (calls : List up.Call) :
    ∃ sent' phase', up.Reached before batch sent' phase' (up.run state calls) ∧
      (∀ i, i ∈ sent' ↔ i ∈ sent ∨ .part i ∈ calls) ∧ (phase ≠ .collecting → phase' ≠ .collecting) ∧
      ((∀ cut, Call.complete cut ∉ calls) → phase' = phase) := by
  induction calls generalizing state sent phase with
  | nil => exact ⟨sent, phase, h, fun i => by simp, fun hne => hne, fun _ => rfl⟩
  | cons call calls ih =>
    obtain ⟨sent₁, phase₁, h₁, hsent₁, hphase₁, hsame₁⟩ := reached_step start h call
    obtain ⟨sent₂, phase₂, h₂, hsent₂, hphase₂, hsame₂⟩ := ih h₁
    refine ⟨sent₂, phase₂, h₂, fun i => ?_, fun hne => hphase₂ (hphase₁ hne), fun hnone => ?_⟩
    · rw [hsent₂, hsent₁, List.mem_cons, or_assoc, eq_comm (a := call)]
    · rw [hsame₂ fun cut hcut => hnone cut (List.mem_cons_of_mem _ hcut)]
      exact hsame₁ fun cut hcut => hnone cut (hcut ▸ List.mem_cons_self)

/-- **Any calls from the beginning.** -/
theorem reached_run {before : Uploads} {batch : ImportBatch} (start : up.Start before batch) (calls : List up.Call) :
    ∃ sent phase, up.Reached before batch sent phase (up.run before calls) ∧ (∀ i, i ∈ sent ↔ .part i ∈ calls) ∧
      ((∀ cut, Call.complete cut ∉ calls) → phase = .collecting) := by
  have hfirst : up.Reached before batch [] .collecting before :=
    ⟨List.nodup_nil, start.fresh, rfl, fun hne => absurd rfl hne⟩
  obtain ⟨sent, phase, h, hsent, -, hsame⟩ := reached_calls start hfirst calls
  exact ⟨sent, phase, h, fun i => by rw [hsent]; simp, hsame⟩

/-- An upload in parts is a direct upload: `complete_upload` fails and changes nothing while a part is
missing, and then does what `add_files` does with the whole content; a part with another content is
refused; a later `complete_upload` adds nothing. -/
structure Direct (up : Upload host encode) (before : Uploads) (calls : List up.Call) : Prop where
  missing : (¬ ∀ i, Call.part i ∈ calls) → ∀ cut,
    ∃ error, completeUpload host encode (up.run before calls) up.batchId up.uploadId cut =
      (.error error, up.run before calls)
  whole : (∀ i, Call.part i ∈ calls) → ∀ cut,
    ∃ added, (completeUpload host encode (up.run before calls) up.batchId up.uploadId cut).1 = .ok added ∧
      (completeUpload host encode (up.run before calls) up.batchId up.uploadId cut).2.db =
        (addFiles host before.db up.batchId [up.item]).2 ∧
      ((∀ cut, Call.complete cut ∉ calls) → (addFiles host before.db up.batchId [up.item]).1 = .ok added)
  refused : ∀ i content, Call.part i ∈ calls → host.sha256 content ≠ host.sha256 (up.content i) →
    ∃ error, putUploadPart host (up.run before calls) (up.request i content) = (.error error, up.run before calls)
  again : (∀ i, Call.part i ∈ calls) → ∀ (cut cut' : Bool) (later : List up.Call),
    (completeUpload host encode (up.run before (calls ++ .complete cut :: later)) up.batchId up.uploadId cut').1 = .ok 0 ∧
      (completeUpload host encode (up.run before (calls ++ .complete cut :: later)) up.batchId up.uploadId cut').2.db =
        (up.run before (calls ++ [.complete cut])).db

/-- **An upload in parts is a direct upload**, for every order of the calls. -/
theorem upload_direct {before : Uploads} {batch : ImportBatch} (start : up.Start before batch) (calls : List up.Call) :
    up.Direct before calls := by
  obtain ⟨sent, phase, h, hsent, hnone⟩ := reached_run start calls
  refine ⟨fun hmissing cut => ?_, fun hall cut => ?_, fun i content hi hhash => ?_, fun hall cut cut' later => ?_⟩
  · exact complete_missing h (fun hall => hmissing fun i => (hsent i).mp (hall i)) cut
  · obtain ⟨added, hadded, hfirst, -, hreached⟩ := complete_whole start h (fun i => (hsent i).mpr (hall i)) cut
    refine ⟨added, hadded, ?_, fun hno => hfirst (hnone hno)⟩
    rw [hreached.db, if_neg (phase.next_ne cut)]
  · have hfind := find_part h i content
    rw [if_pos ((hsent i).mpr hi)] at hfind
    exact put_refused hfind fun heq => hhash heq.symm
  · obtain ⟨added, -, -, -, hreached⟩ := complete_whole start h (fun i => (hsent i).mpr (hall i)) cut
    obtain ⟨sent', phase', h', hsent', hphase', -⟩ := reached_calls start hreached later
    have hrun : up.run before (calls ++ .complete cut :: later) =
        up.run (completeUpload host encode (up.run before calls) up.batchId up.uploadId cut).2 later := by
      rw [run, List.foldl_append]
      rfl
    have hone : (up.run before (calls ++ [.complete cut])).db = (addFiles host before.db up.batchId [up.item]).2 := by
      rw [run, List.foldl_append]
      exact hreached.db.trans (if_neg (phase.next_ne cut))
    have hall' : ∀ i, i ∈ sent' := fun i => (hsent' i).mpr (Or.inl ((hsent i).mpr (hall i)))
    obtain ⟨added', hadded', -, hzero, hlast⟩ := complete_whole start h' hall' cut'
    rw [hrun, hone, hadded', hzero (hphase' (phase.next_ne cut)), hlast.db, if_neg (phase'.next_ne cut')]
    exact ⟨rfl, rfl⟩

end Upload

/-- The Base64 of `a`, `b` and `ab`. -/
def base64Host : Host :=
  { textHost with
    library := { textLibrary with
      b64decode := fun text =>
        if text = "YQ==".toList then some "a".toUTF8
        else if text = "Yg==".toList then some "b".toUTF8
        else if text = "YWI=".toList then some "ab".toUTF8
        else none } }

def encodeBoth (data : ByteArray) : List Char := if data = "ab".toUTF8 then "YWI=".toList else []

/-- Two bytes, one in each part. -/
def twoParts : Upload base64Host encodeBoth where
  batchId := 0
  uploadId := "upload"
  sourceName := "note.pdf"
  sourceType := some "pdf"
  parts := ["base64:YQ==", "base64:Yg=="]
  whole := "base64:" ++ String.ofList (encodeBoth "ab".toUTF8)
  nonempty := List.cons_ne_nil _ _
  division := .bytes (by decide) (by decide) (by decide)
  small := by decide
  smallWhole := by decide
  supported := by decide

/-- A draft batch, and no parts. -/
def draftUploads : Uploads :=
  ⟨{ initial oneProject with batches := Table.empty.insert ⟨0, 0, .draft, "project", 0, 0, 0, 0, none, 0, 0⟩ }, .empty⟩

/-- The second part is sent twice, around the first. -/
theorem upload_direct_twoParts :
    twoParts.Direct draftUploads [.part ⟨1, by decide⟩, .complete false, .part ⟨0, by decide⟩, .part ⟨1, by decide⟩] :=
  Upload.upload_direct ⟨rfl, rfl, rfl, rfl, _, rfl⟩ _

end CodexMemory.Import
