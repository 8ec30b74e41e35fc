import CodexMemory.Import.Model

/-!
# The storages of `pipelines/import_storage.py`

The database keeps the content of a file in its row, the filesystem in a payload file
below its root.  The payload file is written without newline translation and read with
it.

* `filesAfter_lookup`: a payload file holds what was put under its path;
* `readText_iff`: it is read back as it was written unless it has a carriage return;
* `storage_iff`: so the two storages are interchangeable for just these contents.
-/

namespace CodexMemory.Import

/-! ## The filesystem -/

/-- The payload files, each under the parts of its path below the root. -/
abbrev Files := List (List (List Char) × ByteArray)

/-- `FilesystemImportStorage._path` -/
def payloadPath (key : String) : Except String (List (List Char)) :=
  if !"fs://import-files/".toList.isPrefixOf key.toList then .error "无效的导入存储键"
  else
    let relative := key.toList.drop 18
    let parts := (relative.splitOn '/').filter fun part => part ≠ [] && part ≠ ['.']
    if relative.head? = some '/' || parts.contains ['.', '.'] then .error "导入存储路径不安全" else .ok parts

def payloadKey (batchId : Nat) (contentHash : String) : String :=
  "fs://import-files/" ++ toString batchId ++ "/" ++ contentHash ++ ".payload"

/-- `FilesystemImportStorage.put`; a file that exists is left as it is. -/
def filesystemPut (files : Files) (content : String) (batchId : Nat) (contentHash : String) :
    Except String StoredImport × Files :=
  let key := payloadKey batchId contentHash
  match payloadPath key with
  | .error message => (.error message, files)
  | .ok path =>
    (.ok ⟨"filesystem", key, none⟩,
      if (files.lookup path).isSome then files else (path, content.toUTF8) :: files)

/-- `read_text(encoding="utf-8")`, which translates newlines. -/
def readText (data : ByteArray) : Except String String :=
  match String.fromUTF8? data with
  | none => .error "invalid utf-8"
  | some text => .ok (String.ofList (universalNewlines false text.toList))

/-- `FilesystemImportStorage.get` -/
def filesystemGet (files : Files) (stored : StoredImport) : Except String String :=
  match payloadPath stored.key with
  | .error message => .error message
  | .ok path =>
    match files.lookup path with
    | none => .error "No such file or directory"
    | some data => readText data

/-- `FilesystemImportStorage` with its files at one moment. -/
def filesystemStorage (files : Files) : Storage where
  backend := "filesystem"
  put content batchId contentHash := (filesystemPut files content batchId contentHash).1
  get := filesystemGet files

/-! ## Newlines -/

theorem universalNewlines_no_return (afterReturn : Bool) (s : List Char) : '\r' ∉ universalNewlines afterReturn s := by
  induction s generalizing afterReturn with
  | nil => exact List.not_mem_nil
  | cons c s ih =>
    rw [universalNewlines]
    split
    · exact ih false
    · split
      · simp [ih true]
      · next hreturn => simp [ih false, Ne.symm hreturn]

theorem universalNewlines_eq_self {s : List Char} (h : '\r' ∉ s) : universalNewlines false s = s := by
  induction s with
  | nil => rfl
  | cons c s ih =>
    rw [List.mem_cons, not_or] at h
    rw [universalNewlines, if_neg (by simp), if_neg (Ne.symm h.1), ih h.2]

/-- **A text is read back as it was written exactly when it has no carriage return.** -/
theorem readText_iff (content : String) : readText content.toUTF8 = .ok content ↔ '\r' ∉ content.toList := by
  have hdecode : String.fromUTF8? content.toUTF8 = some content := by
    rw [String.fromUTF8?, String.toUTF8_eq_toByteArray, dif_pos content.isValidUTF8]
    rfl
  simp only [readText, hdecode]
  constructor
  · intro h
    have hsame := congrArg String.toList (Except.ok.inj h)
    rw [String.toList_ofList] at hsame
    rw [← hsame]
    exact universalNewlines_no_return false _
  · intro h
    rw [universalNewlines_eq_self h, String.ofList_toList]

/-! ## Many puts -/

/-- The arguments of a `put`. -/
structure Put where
  content : String
  batchId : Nat
  contentHash : String

def Put.path (p : Put) : Except String (List (List Char)) := payloadPath (payloadKey p.batchId p.contentHash)

/-- What `put` refers to. -/
def Put.stored (p : Put) : StoredImport := ⟨"filesystem", payloadKey p.batchId p.contentHash, none⟩

def filesAfter (files : Files) (puts : List Put) : Files :=
  puts.foldl (fun files p => (filesystemPut files p.content p.batchId p.contentHash).2) files

/-- Under one path one content is put, as the hash of a content names it. -/
def Addressed (puts : List Put) : Prop :=
  ∀ p ∈ puts, ∀ q ∈ puts, ∀ path, p.path = .ok path → q.path = .ok path → p.content = q.content

theorem put_files (files : Files) (p : Put) {path : List (List Char)} (h : p.path = .ok path) :
    (filesystemPut files p.content p.batchId p.contentHash).2 =
      if (files.lookup path).isSome then files else (path, p.content.toUTF8) :: files := by
  simp only [filesystemPut, show payloadPath (payloadKey p.batchId p.contentHash) = .ok path from h]

/-- A put keeps the files that are there. -/
theorem put_keeps (files : Files) (p : Put) {path : List (List Char)} {data : ByteArray}
    (h : files.lookup path = some data) :
    (filesystemPut files p.content p.batchId p.contentHash).2.lookup path = some data := by
  cases hpath : p.path with
  | error message =>
    simp only [filesystemPut, show payloadPath (payloadKey p.batchId p.contentHash) = .error message from hpath]
    exact h
  | ok other =>
    rw [put_files files p hpath]
    split
    · exact h
    · next hnone =>
      have hne : path ≠ other := by
        rintro rfl
        rw [h] at hnone
        exact hnone rfl
      rw [List.lookup_cons, beq_false_of_ne hne]
      exact h

theorem filesAfter_keeps (puts : List Put) {files : Files} {path : List (List Char)} {data : ByteArray}
    (h : files.lookup path = some data) : (filesAfter files puts).lookup path = some data := by
  induction puts generalizing files with
  | nil => exact h
  | cons p puts ih => exact ih (put_keeps files p h)

/-- A put leaves in a file what was there, or what it puts there. -/
theorem put_lookup {files : Files} {p : Put} {path : List (List Char)} {data : ByteArray}
    (h : (filesystemPut files p.content p.batchId p.contentHash).2.lookup path = some data) :
    files.lookup path = some data ∨ p.path = .ok path ∧ data = p.content.toUTF8 := by
  cases hpath : p.path with
  | error message =>
    simp only [filesystemPut, show payloadPath (payloadKey p.batchId p.contentHash) = .error message from hpath] at h
    exact .inl h
  | ok other =>
    rw [put_files files p hpath] at h
    split at h
    · exact .inl h
    · by_cases heq : path = other
      · subst heq
        rw [List.lookup_cons, beq_self_eq_true] at h
        exact .inr ⟨rfl, (Option.some.inj h).symm⟩
      · rw [List.lookup_cons, beq_false_of_ne heq] at h
        exact .inl h

/-- After a put there is a file under its path. -/
theorem put_isSome (files : Files) {p : Put} {path : List (List Char)} (h : p.path = .ok path) :
    ((filesystemPut files p.content p.batchId p.contentHash).2.lookup path).isSome = true := by
  rw [put_files files p h]
  split
  · assumption
  · rw [List.lookup_cons, beq_self_eq_true]
    rfl

/-- **The payload file of a put holds its content**, whatever was put before it or after it. -/
theorem filesAfter_lookup {puts : List Put} (haddressed : Addressed puts) {p : Put} (hp : p ∈ puts)
    {path : List (List Char)} (hpath : p.path = .ok path) :
    (filesAfter [] puts).lookup path = some p.content.toUTF8 := by
  -- induction on the puts that are left, from files with nothing else under the path
  have hrun : ∀ (rest : List Put) (files : Files), (∀ q ∈ rest, q ∈ puts) →
      (∀ data, files.lookup path = some data → data = p.content.toUTF8) →
      p ∈ rest ∨ files.lookup path = some p.content.toUTF8 →
      (filesAfter files rest).lookup path = some p.content.toUTF8 := by
    intro rest
    induction rest with
    | nil => exact fun files _ _ hstored => hstored.resolve_left List.not_mem_nil
    | cons q rest ih =>
      intro files hmem hfiles hstored
      have hclean : ∀ data, (filesystemPut files q.content q.batchId q.contentHash).2.lookup path = some data →
          data = p.content.toUTF8 := by
        intro data hdata
        rcases put_lookup hdata with hold | ⟨hqpath, rfl⟩
        · exact hfiles data hold
        · rw [haddressed q (hmem q List.mem_cons_self) p hp path hqpath hpath]
      refine ih _ (fun r hr => hmem r (List.mem_cons_of_mem _ hr)) hclean ?_
      rcases hstored with hin | hheld
      · rcases List.mem_cons.mp hin with rfl | hin
        · obtain ⟨data, hdata⟩ := Option.isSome_iff_exists.mp (put_isSome files hpath)
          exact .inr (hclean data hdata ▸ hdata)
        · exact .inl hin
      · exact .inr (put_keeps files q hheld)
  exact hrun puts [] (fun _ hq => hq) (fun _ h => nomatch h) (.inl hp)

/-! ## Both storages -/

/-- The content of a put comes back from its payload file. -/
def ReadBack (puts : List Put) (p : Put) : Prop := filesystemGet (filesAfter [] puts) p.stored = .ok p.content

theorem readBack_iff {puts : List Put} (haddressed : Addressed puts) {p : Put} (hp : p ∈ puts)
    {path : List (List Char)} (hpath : p.path = .ok path) : ReadBack puts p ↔ '\r' ∉ p.content.toList := by
  have hget : filesystemGet (filesAfter [] puts) p.stored = readText p.content.toUTF8 := by
    simp only [filesystemGet, Put.stored, show payloadPath (payloadKey p.batchId p.contentHash) = .ok path from hpath,
      filesAfter_lookup haddressed hp hpath]
  rw [ReadBack, hget]
  exact readText_iff p.content

/-- What the database keeps comes back. -/
theorem database_get (content : String) (batchId : Nat) (contentHash : String) :
    ∃ stored, databaseStorage.put content batchId contentHash = .ok stored ∧ databaseStorage.get stored = .ok content :=
  ⟨_, rfl, rfl⟩

/-- The file with its content in another place. -/
def LoadedFile.on (loaded : LoadedFile) (stored : StoredImport) : LoadedFile :=
  { loaded with file := { loaded.file with stored := stored } }

/-- What processing a file writes for its content: the document, the chunks and the candidates. -/
def written (out : Processed × Database) :
    Processed × Table SourceDocument × Table DocumentChunk × Table ReferenceCandidate :=
  (out.1, out.2.documents, out.2.chunks, out.2.candidates)

theorem addParts_on (host : Host) (storage : Storage) (source : PartSource) (parts : List Part) (index : Nat) (db : Database) :
    addParts { host with storage := storage } source index db parts = addParts host source index db parts := by
  induction parts generalizing index db with
  | nil => rfl
  | cons part parts ih => exact ih _ _

theorem storeParsed_on (host : Host) (db : Database) (loaded : LoadedFile) (first second : Storage)
    (stored stored' : StoredImport) (content : String) (parts : List Part) :
    written (storeParsed { host with storage := first } db (loaded.on stored) content parts) =
      written (storeParsed { host with storage := second } db (loaded.on stored') content parts) := by
  have hdocument : ∀ stored, db.documentWithHash (loaded.on stored).file.projectId (loaded.on stored).file.contentHash =
      db.documentWithHash loaded.file.projectId loaded.file.contentHash := fun _ => rfl
  rw [storeParsed, storeParsed, hdocument, hdocument]
  cases db.documentWithHash loaded.file.projectId loaded.file.contentHash with
  | some existing => rfl
  | none =>
    simp only
    by_cases hinjected : (scanSecurity host.table content.toList).1.contains "prompt_injection" = true
    · rw [if_pos hinjected, if_pos hinjected]
      rfl
    · rw [if_neg hinjected, if_neg hinjected, addParts_on host first, addParts_on host second]
      rfl

/-- The same content is processed alike from any storage. -/
theorem processLoaded_on (host : Host) (db : Database) (loaded : LoadedFile) {first second : Storage}
    {stored stored' : StoredImport} (hsame : first.get stored = second.get stored') :
    written (processLoaded { host with storage := first } db (loaded.on stored)) =
      written (processLoaded { host with storage := second } db (loaded.on stored')) := by
  have hparts : readParts { host with storage := first } (loaded.on stored).file =
      readParts { host with storage := second } (loaded.on stored').file := by
    simp only [readParts, LoadedFile.on, hsame]
  have hbatch : ∀ stored, (loaded.on stored).batch = loaded.batch := fun _ => rfl
  have hstatus : ∀ stored, (loaded.on stored).file.status = loaded.file.status := fun _ => rfl
  rw [processLoaded, processLoaded, hparts, hbatch, hbatch, hstatus, hstatus]
  by_cases hclosed : isClosed loaded.batch.status = true
  · rw [if_pos hclosed, if_pos hclosed]
    rfl
  · rw [if_neg hclosed, if_neg hclosed]
    by_cases hdone : isDone loaded.file.status = true
    · rw [if_pos hdone, if_pos hdone]
    · rw [if_neg hdone, if_neg hdone]
      cases readParts { host with storage := second } (loaded.on stored').file with
      | error message => rfl
      | ok read => exact storeParsed_on host db loaded first second stored stored' read.1 read.2

/-- The storages are interchangeable for a content: both give it back, and a file that keeps it in either is
processed alike. -/
structure Interchangeable (host : Host) (puts : List Put) (p : Put) : Prop where
  database : ∃ stored, databaseStorage.put p.content p.batchId p.contentHash = .ok stored ∧
    databaseStorage.get stored = .ok p.content
  filesystem : ReadBack puts p
  processed : ∀ db (loaded : LoadedFile) stored, databaseStorage.put p.content p.batchId p.contentHash = .ok stored →
    written (processLoaded { host with storage := filesystemStorage (filesAfter [] puts) } db (loaded.on p.stored)) =
      written (processLoaded { host with storage := databaseStorage } db (loaded.on stored))

/-- **The storages are interchangeable exactly for the contents without a carriage return.** -/
theorem storage_iff (host : Host) {puts : List Put} (haddressed : Addressed puts) {p : Put} (hp : p ∈ puts)
    {path : List (List Char)} (hpath : p.path = .ok path) : Interchangeable host puts p ↔ '\r' ∉ p.content.toList := by
  rw [← readBack_iff haddressed hp hpath]
  refine ⟨Interchangeable.filesystem, fun h => ⟨database_get _ _ _, h, fun db loaded stored hstored => ?_⟩⟩
  refine processLoaded_on host db loaded (h.trans ?_)
  cases hstored
  rfl

/-- A text of two lines. -/
def twoLines : Put := ⟨"a\nb", 1, "0a"⟩

def twoLines_path : List (List Char) := ["1".toList, "0a.payload".toList]

theorem storage_twoLines : Interchangeable textHost [twoLines] twoLines := by
  have haddressed : Addressed [twoLines] := by
    intro p hp q hq path _ _
    rw [List.mem_singleton.mp hp, List.mem_singleton.mp hq]
  have hpath : twoLines.path = .ok twoLines_path := by decide
  exact (storage_iff textHost haddressed List.mem_cons_self hpath).mpr (by decide)

/-- A text whose lines end in a carriage return and a newline. -/
def windowsLines : Put := ⟨"a\r\nb", 1, "0b"⟩

/-- **It comes back without its carriage return.** -/
theorem windowsLines_changed :
    filesystemGet (filesAfter [] [windowsLines]) windowsLines.stored = .ok "a\nb" ∧
      ¬ Interchangeable textHost [windowsLines] windowsLines := by
  have hget : filesystemGet (filesAfter [] [windowsLines]) windowsLines.stored = .ok "a\nb" := by decide
  refine ⟨hget, fun h => ?_⟩
  have hsame := Except.ok.inj (hget.symm.trans h.filesystem)
  revert hsame
  decide

end CodexMemory.Import
