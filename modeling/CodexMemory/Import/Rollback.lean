import CodexMemory.Import.Cancellation

/-!
# Rolling a batch back

`rollback_batch` reads the published candidates of the batch, rolls them back one
transaction after the other, and then writes the status of the batch.
`rollback_final`: once it has returned no memory of the batch is ever live again, in
every run in which no candidate of the batch is approved after the candidates have
been read.
-/

namespace CodexMemory.Import.Rollback

open Worker (BatchStatus FileStatus)
open Cancellation (documentOf)

/-! ## The system -/

/-- A `rollback_batch` that has read its candidates. -/
structure Active where
  batchId : Nat
  remaining : List Nat
  reason : Option String

/-- The database with the open transactions of files, the rollbacks under way, and the batches whose
rollback has returned. -/
structure System where
  base : Cancellation.System
  active : List Active
  returned : List Nat

def System.db (s : System) : Database := s.base.db

def System.withDb (s : System) (db : Database) : System := { s with base := { s.base with db := db } }

inductive Step
  | run (i : Cancellation.Step)
  | review (candidateId : Nat) (decision : Decision) (reviewer reason : Option String)
  | rollback (candidateId : Nat) (reason : Option String)
  | rollbackBatch (batchId : Nat) (reason : Option String)
  | next (position : Nat)

/-- The candidates of the batch that have been published. -/
def publishedOf (db : Database) (batchId : Nat) : List Nat :=
  ((db.candidatesOf batchId).filter fun c => c.2.publishedMemoryId.isSome).map Prod.fst

/-- The last transaction of `rollback_batch`. -/
def markRolledBack (db : Database) (batchId : Nat) : Database :=
  { db with batches := db.batches.modify batchId fun b => { b with status := .rolledBack } }

/-- The next transaction of a rollback; an error ends it. -/
def advance (s : System) (position : Nat) (r : Active) : System :=
  match r.remaining with
  | [] =>
    { s.withDb (markRolledBack s.db r.batchId) with
      active := s.active.eraseIdx position
      returned := r.batchId :: s.returned }
  | candidateId :: rest =>
    match rollbackCandidate s.db candidateId r.reason with
    | (.error _, _) => { s with active := s.active.eraseIdx position }
    | (.ok _, db) => { s.withDb db with active := s.active.set position { r with remaining := rest } }

def step (host : Host) (s : System) : Step → Unit × System
  | .run i => ((), { s with base := (Cancellation.step host s.base i).2 })
  | .review candidateId decision reviewer reason =>
    ((), s.withDb (reviewCandidate s.db candidateId decision reviewer reason).2)
  | .rollback candidateId reason => ((), s.withDb (rollbackCandidate s.db candidateId reason).2)
  | .rollbackBatch batchId reason =>
    if (s.db.batches.get? batchId).isNone then ((), s)
    else ((), { s with active := s.active ++ [⟨batchId, publishedOf s.db batchId, reason⟩] })
  | .next position =>
    match s.active[position]? with
    | none => ((), s)
    | some r => ((), advance s position r)

def start (projects : Table String) : System := ⟨Cancellation.start projects, [], []⟩

/-! ## What is claimed -/

/-- Published and not deprecated. -/
def live (memory : Memory) : Bool := memory.status = .published && !memory.deprecated

/-- A candidate of the batch has become a memory that is live. -/
def LiveFrom (db : Database) (batchId candidateId : Nat) : Prop :=
  ∃ candidate memoryId memory, db.candidates.get? candidateId = some candidate ∧
    documentOf db batchId candidate.documentId ∧ candidate.publishedMemoryId = some memoryId ∧
      db.memories.get? memoryId = some memory ∧ live memory = true

/-- No memory of a batch that has been rolled back is live. -/
def Final (s : System) : Prop := ∀ batchId ∈ s.returned, ∀ candidateId, ¬LiveFrom s.db batchId candidateId

/-- A candidate is approved only where its batch has not been rolled back and no rollback of it is under
way. -/
def Undisturbed (s : System) : Step → Prop
  | .review candidateId .approve _ _ => ∀ candidate, s.db.candidates.get? candidateId = some candidate →
      ¬(candidate.status = .published ∨ candidate.status = .rolledBack) →
        ∀ batchId, documentOf s.db batchId candidate.documentId →
          batchId ∉ s.returned ∧ ∀ r ∈ s.active, r.batchId ≠ batchId
  | _ => True

/-! ## The invariant -/

/-- Every candidate has a document, and a memory if it has the key of one. -/
structure Linked (db : Database) : Prop where
  documents : ∀ k candidate, db.candidates.get? k = some candidate → candidate.documentId < db.documents.nextId
  memories : ∀ k candidate memoryId, db.candidates.get? k = some candidate →
    candidate.publishedMemoryId = some memoryId → memoryId < db.memories.nextId

structure Inv (s : System) : Prop where
  linked : Linked s.db
  final : Final s
  left : ∀ r ∈ s.active, ∀ candidateId, LiveFrom s.db r.batchId candidateId → candidateId ∈ r.remaining

theorem inv_start (projects : Table String) : Inv (start projects) := by
  refine ⟨⟨fun k candidate h => ?_, fun k candidate memoryId h => ?_⟩, fun b h => ?_, fun r h => ?_⟩ <;> cases h

/-- What makes no memory live: the candidates that are new have not been published. -/
structure Frame (db db' : Database) : Prop where
  memories : db'.memories = db.memories
  documents : ∀ k, k < db.documents.nextId → db'.documents.get? k = db.documents.get? k
  next : db.documents.nextId ≤ db'.documents.nextId
  candidates : ∀ k candidate, db'.candidates.get? k = some candidate → db.candidates.get? k = some candidate ∨
    candidate.publishedMemoryId = none ∧ candidate.documentId < db'.documents.nextId

section

variable {host : Host} {db db' : Database} {s : System}

theorem Frame.refl (db : Database) : Frame db db := ⟨rfl, fun _ _ => rfl, le_rfl, fun _ _ h => Or.inl h⟩

theorem Frame.trans {db'' : Database} (h : Frame db db') (h' : Frame db' db'') : Frame db db'' := by
  refine ⟨h'.memories.trans h.memories, fun k hk => ?_, h.next.trans h'.next, fun k candidate hc => ?_⟩
  · exact (h'.documents k (hk.trans_le h.next)).trans (h.documents k hk)
  · rcases h'.candidates k candidate hc with hc | hnew
    · exact (h.candidates k candidate hc).imp_right fun hnew => ⟨hnew.1, hnew.2.trans_le h'.next⟩
    · exact Or.inr hnew

theorem frame_of_contents (h : SameContents db db') : Frame db db' := by
  refine ⟨h.memories, fun k _ => by rw [h.documents], by rw [h.documents], fun k candidate hc => Or.inl ?_⟩
  rw [← h.candidates]
  exact hc

theorem Frame.linked (h : Frame db db') (hlinked : Linked db) : Linked db' := by
  refine ⟨fun k candidate hc => ?_, fun k candidate memoryId hc hm => ?_⟩
  · rcases h.candidates k candidate hc with hc | ⟨-, hnew⟩
    · exact (hlinked.documents k candidate hc).trans_le h.next
    · exact hnew
  · rw [h.memories]
    rcases h.candidates k candidate hc with hc | ⟨hnone, -⟩
    · exact hlinked.memories k candidate memoryId hc hm
    · rw [hnone] at hm
      cases hm

/-- What is live was live before. -/
theorem Frame.liveFrom (h : Frame db db') (hlinked : Linked db) {batchId candidateId : Nat}
    (hlive : LiveFrom db' batchId candidateId) : LiveFrom db batchId candidateId := by
  obtain ⟨candidate, memoryId, memory, hc, ⟨document, hd, howner⟩, hm, hmemory, hlive⟩ := hlive
  rcases h.candidates candidateId candidate hc with hc | ⟨hnone, -⟩
  · rw [h.documents _ (hlinked.documents _ _ hc)] at hd
    rw [h.memories] at hmemory
    exact ⟨candidate, memoryId, memory, hc, ⟨document, hd, howner⟩, hm, hmemory, hlive⟩
  · rw [hnone] at hm
    cases hm

/-- The invariant after a step that makes nothing live. -/
theorem Inv.keep {s' : System} (hinv : Inv s) (hlinked : Linked s'.db)
    (hlive : ∀ batchId candidateId, LiveFrom s'.db batchId candidateId → LiveFrom s.db batchId candidateId)
    (hactive : s'.active = s.active) (hreturned : s'.returned = s.returned) : Inv s' := by
  refine ⟨hlinked, fun batchId hmem candidateId h => ?_, fun r hr candidateId h => ?_⟩
  · rw [hreturned] at hmem
    exact hinv.final batchId hmem candidateId (hlive _ _ h)
  · rw [hactive] at hr
    exact hinv.left r hr candidateId (hlive _ _ h)

/-! ## The steps of the import -/

theorem addParts_unpublished (host : Host) (source : PartSource) (index : Nat) (db : Database) (parts : List Part) :
    ∀ k candidate, (addParts host source index db parts).candidates.get? k = some candidate →
      db.candidates.get? k = some candidate ∨
        candidate.publishedMemoryId = none ∧ candidate.documentId = source.documentId := by
  induction parts generalizing index db with
  | nil => exact fun _ _ h => Or.inl h
  | cons part rest ih =>
    intro k candidate h
    rcases ih (index + 1) _ k candidate h with h | h
    · rcases Table.get?_insert_cases h with ⟨-, rfl⟩ | ⟨-, h⟩
      · exact Or.inr ⟨rfl, rfl⟩
      · exact Or.inl h
    · exact Or.inr h

theorem frame_of_process {loaded : LoadedFile} (h : ProcessChange host db loaded db') : Frame db db' := by
  have hinsert : ∀ document, db'.documents = db.documents.insert document →
      (∀ k, k < db.documents.nextId → db'.documents.get? k = db.documents.get? k) ∧
        db'.documents.nextId = db.documents.nextId + 1 := by
    intro document hdocuments
    rw [hdocuments]
    exact ⟨fun k hk => Table.get?_insert_ne _ _ hk.ne, rfl⟩
  cases h with
  | closed hclosed => exact frame_of_contents ⟨rfl, rfl, rfl, rfl, rfl⟩
  | done hopen hdone => exact .refl db
  | failed file hopen hundone hstatus hsaved hdocuments hchunks hcandidates
  | duplicate file hopen hundone hstatus hsaved hdocuments hchunks hcandidates =>
    exact frame_of_contents ⟨hsaved.projects, hdocuments, hchunks, hcandidates, hsaved.memories⟩
  | quarantined file content parts document hopen hundone hread hinjected hunique hstatus hsaved howner hdocuments
      hchunks hcandidates =>
    obtain ⟨hold, hnext⟩ := hinsert document hdocuments
    exact ⟨hsaved.memories, hold, hnext ▸ Nat.le_succ _, fun _ _ h => Or.inl (hcandidates ▸ h)⟩
  | parsed file content parts document source hopen hundone hread hclean hunique hstatus hsaved howner hdocuments
      hdocumentId hchunks hcandidates =>
    obtain ⟨hold, hnext⟩ := hinsert document hdocuments
    refine ⟨hsaved.memories, hold, hnext ▸ Nat.le_succ _, fun k candidate h => ?_⟩
    rw [hcandidates] at h
    refine (addParts_unpublished host source 0 db parts k candidate h).imp_right fun hnew => ⟨hnew.1, ?_⟩
    rw [hnew.2, hdocumentId, hnext]
    exact Nat.lt_succ_self _

theorem frame_of_start (now b : Nat) : Frame db (startBatch db now b).2 := by
  rcases startBatch_effect db now b with h | ⟨batch, h⟩
  · rw [h]
    exact .refl db
  · exact frame_of_contents h.contents

theorem frame_of_call (call : Call) : Frame db (Import.step host db call).2 := by
  cases call with
  | createBatch projectId scopeId scopeKey =>
    simp only [Import.step, createBatch]
    split
    · exact .refl db
    · split
      · exact .refl db
      · exact frame_of_contents ⟨rfl, rfl, rfl, rfl, rfl⟩
  | addFiles b items =>
    rcases addFiles_effect host db b items with h | ⟨batch, added, h⟩
    · rw [show (Import.step host db (.addFiles b items)).2 = db from h]
      exact .refl db
    · exact frame_of_contents h.contents
  | startBatch now b => exact frame_of_start now b
  | retryBatch now b =>
    rcases retryBatch_effect db now b with h | ⟨batch, db₁, hreopened, h⟩
    · rw [show (Import.step host db (.retryBatch now b)).2 = db from h]
      exact .refl db
    · rw [show (Import.step host db (.retryBatch now b)).2 = (startBatch db₁ now b).2 from h]
      exact (frame_of_contents hreopened.contents).trans (frame_of_start now b)
  | cancelImportBatch now b =>
    rcases cancelImportBatch_effect db now b with h | ⟨batch, h⟩
    · rw [show (Import.step host db (.cancelImportBatch now b)).2 = db from h]
      exact .refl db
    · exact frame_of_contents h.contents
  | processImportFile fileId =>
    rcases processImportFile_effect host db fileId with h | ⟨loaded, hload, h⟩
    · rw [show (Import.step host db (.processImportFile fileId)).2 = db from h]
      exact .refl db
    · exact frame_of_process h

theorem frame_of_run (host : Host) (s : System) (i : Cancellation.Step) : Frame s.base.db (Cancellation.step host s.base i).2.db := by
  cases i with
  | call call => exact frame_of_call call
  | read fileId =>
    simp only [Cancellation.step]
    split <;> exact .refl _
  | commit position =>
    simp only [Cancellation.step]
    split
    · exact .refl _
    · next loaded hloaded => exact frame_of_process (processLoaded_change host s.base.db loaded)

/-! ## Reviews and rollbacks -/

/-- The row of a candidate is rewritten, with the keys of its document and of its memory. -/
structure Rewritten (db : Database) (db' : Database) : Prop where
  documents : db'.documents = db.documents
  candidate : ∀ k candidate', db'.candidates.get? k = some candidate' →
    ∃ candidate, db.candidates.get? k = some candidate ∧ candidate'.documentId = candidate.documentId ∧
      candidate'.publishedMemoryId = candidate.publishedMemoryId

theorem modify_keys {candidates : Table ReferenceCandidate} {candidateId : Nat}
    {f : ReferenceCandidate → ReferenceCandidate}
    (hf : ∀ c, (f c).documentId = c.documentId ∧ (f c).publishedMemoryId = c.publishedMemoryId) :
    ∀ k candidate', (candidates.modify candidateId f).get? k = some candidate' →
      ∃ candidate, candidates.get? k = some candidate ∧ candidate'.documentId = candidate.documentId ∧
        candidate'.publishedMemoryId = candidate.publishedMemoryId := by
  intro k candidate' hc
  rw [Table.get?_modify] at hc
  obtain ⟨candidate, hcandidate, rfl⟩ := Option.map_eq_some_iff.mp hc
  refine ⟨candidate, hcandidate, ?_⟩
  split
  · exact hf candidate
  · exact ⟨rfl, rfl⟩

theorem Rewritten.linked (h : Rewritten db db') (hlinked : Linked db)
    (hnext : db.memories.nextId ≤ db'.memories.nextId) : Linked db' := by
  refine ⟨fun k candidate' hc => ?_, fun k candidate' memoryId hc hm => ?_⟩
  · obtain ⟨candidate, hcandidate, hdocument, -⟩ := h.candidate k candidate' hc
    rw [hdocument, h.documents]
    exact hlinked.documents k candidate hcandidate
  · obtain ⟨candidate, hcandidate, -, hmemory⟩ := h.candidate k candidate' hc
    rw [hmemory] at hm
    exact (hlinked.memories k candidate memoryId hcandidate hm).trans_le hnext

theorem Rewritten.liveFrom (h : Rewritten db db')
    (hmemories : ∀ memoryId memory', db'.memories.get? memoryId = some memory' → live memory' = true →
      db.memories.get? memoryId = some memory') {batchId k : Nat} (hlive : LiveFrom db' batchId k) :
    LiveFrom db batchId k := by
  obtain ⟨candidate', memoryId, memory, hc, hdocument, hm, hmemory, hlive⟩ := hlive
  obtain ⟨candidate, hcandidate, hdocumentId, hmemoryId⟩ := h.candidate k candidate' hc
  rw [hdocumentId] at hdocument
  obtain ⟨document, hd, howner⟩ := hdocument
  rw [h.documents] at hd
  exact ⟨candidate, memoryId, memory, hcandidate, ⟨document, hd, howner⟩, hmemoryId.symm.trans hm,
    hmemories memoryId memory hmemory hlive, hlive⟩

/-- What `rollback_candidate` does. -/
structure RolledBack (db : Database) (candidateId : Nat) (db' : Database) : Prop where
  rewritten : Rewritten db db'
  memories : ∃ candidate memoryId, db.candidates.get? candidateId = some candidate ∧
    candidate.publishedMemoryId = some memoryId ∧ db'.memories = db.memories.modify memoryId fun m =>
      { m with status := .deprecated, deprecated := true, reviewStatus := "rolled_back" }

theorem rollbackCandidate_effect (db : Database) (candidateId : Nat) (reason : Option String) :
    (∃ error, rollbackCandidate db candidateId reason = (.error error, db)) ∨
      ∃ memoryId, (rollbackCandidate db candidateId reason).1 = .ok memoryId ∧
        RolledBack db candidateId (rollbackCandidate db candidateId reason).2 := by
  rw [rollbackCandidate]
  split
  · exact Or.inl ⟨_, rfl⟩
  · next candidate hcandidate =>
    split
    · exact Or.inl ⟨_, rfl⟩
    · next memoryId hmemoryId =>
      refine Or.inr ⟨memoryId, rfl, ⟨rfl, modify_keys ?_⟩, candidate, memoryId, hcandidate, hmemoryId, rfl⟩
      exact fun _ => ⟨rfl, rfl⟩

theorem RolledBack.linked {candidateId : Nat} (h : RolledBack db candidateId db') (hlinked : Linked db) : Linked db' := by
  obtain ⟨candidate, memoryId, -, -, hmemories⟩ := h.memories
  refine h.rewritten.linked hlinked ?_
  rw [hmemories]
  exact le_rfl

/-- A memory that is live after a rollback has not been rolled back. -/
theorem RolledBack.memory {candidateId : Nat} (h : RolledBack db candidateId db') {memoryId : Nat} {memory' : Memory}
    (hmemory : db'.memories.get? memoryId = some memory') (hlive : live memory' = true) :
    db.memories.get? memoryId = some memory' ∧
      ∀ candidate, db.candidates.get? candidateId = some candidate → candidate.publishedMemoryId ≠ some memoryId := by
  obtain ⟨candidate, rolledId, hcandidate, hrolled, hmemories⟩ := h.memories
  by_cases hid : memoryId = rolledId
  · subst hid
    rw [hmemories, Table.get?_modify_self] at hmemory
    obtain ⟨memory, -, rfl⟩ := Option.map_eq_some_iff.mp hmemory
    cases hlive
  · rw [hmemories, Table.get?_modify_ne _ _ hid] at hmemory
    refine ⟨hmemory, fun other hother hpublished => ?_⟩
    obtain rfl := Option.some.inj (hcandidate.symm.trans hother)
    exact hid (Option.some.inj (hpublished.symm.trans hrolled))

theorem RolledBack.liveFrom {candidateId batchId k : Nat} (h : RolledBack db candidateId db')
    (hlive : LiveFrom db' batchId k) : LiveFrom db batchId k ∧ k ≠ candidateId := by
  refine ⟨h.rewritten.liveFrom (fun _ _ hmemory hl => (h.memory hmemory hl).1) hlive, ?_⟩
  rintro rfl
  obtain ⟨candidate', memoryId, memory, hc, -, hm, hmemory, hlive⟩ := hlive
  obtain ⟨candidate, hcandidate, -, hmemoryId⟩ := h.rewritten.candidate k candidate' hc
  exact (h.memory hmemory hlive).2 candidate hcandidate (hmemoryId.symm.trans hm)

/-- What an approval does. -/
structure Approved (db : Database) (candidateId : Nat) (candidate : ReferenceCandidate) (db' : Database) : Prop where
  row : db.candidates.get? candidateId = some candidate
  unreviewed : ¬(candidate.status = .published ∨ candidate.status = .rolledBack)
  documents : db'.documents = db.documents
  memories : db'.memories = db.memories.insert (memoryRow candidate)
  candidate : ∀ k candidate', db'.candidates.get? k = some candidate' →
    (candidate'.documentId = candidate.documentId ∧ candidate'.publishedMemoryId = some db.memories.nextId) ∨
      db.candidates.get? k = some candidate'

theorem publish_keys {candidates : Table ReferenceCandidate} {candidateId memoryId : Nat}
    {candidate : ReferenceCandidate} {f : ReferenceCandidate → ReferenceCandidate}
    (hrow : candidates.get? candidateId = some candidate)
    (hf : ∀ c, (f c).documentId = c.documentId ∧ (f c).publishedMemoryId = some memoryId) :
    ∀ k candidate', (candidates.modify candidateId f).get? k = some candidate' →
      (candidate'.documentId = candidate.documentId ∧ candidate'.publishedMemoryId = some memoryId) ∨
        candidates.get? k = some candidate' := by
  intro k candidate' hc
  by_cases hk : k = candidateId
  · rw [hk, Table.get?_modify_self, hrow, Option.map_some] at hc
    obtain rfl := Option.some.inj hc
    exact Or.inl (hf candidate)
  · rw [Table.get?_modify_ne _ _ hk] at hc
    exact Or.inr hc

theorem reviewCandidate_effect (db : Database) (candidateId : Nat) (decision : Decision) (reviewer reason : Option String) :
    (reviewCandidate db candidateId decision reviewer reason).2 = db ∨
      (decision = .reject ∧ Rewritten db (reviewCandidate db candidateId decision reviewer reason).2 ∧
        (reviewCandidate db candidateId decision reviewer reason).2.memories = db.memories) ∨
      (decision = .approve ∧ ∃ candidate,
        Approved db candidateId candidate (reviewCandidate db candidateId decision reviewer reason).2) := by
  rw [reviewCandidate]
  split
  · exact Or.inl rfl
  · next candidate hcandidate =>
    split
    · exact Or.inl rfl
    · next hunreviewed =>
      cases decision with
      | reject =>
        refine Or.inr (Or.inl ⟨rfl, ⟨rfl, modify_keys ?_⟩, rfl⟩)
        exact fun _ => ⟨rfl, rfl⟩
      | approve =>
        refine Or.inr (Or.inr ⟨rfl, candidate, hcandidate, hunreviewed, rfl, rfl, publish_keys hcandidate ?_⟩)
        exact fun _ => ⟨rfl, rfl⟩

theorem Approved.linked {candidateId : Nat} {candidate : ReferenceCandidate} (h : Approved db candidateId candidate db')
    (hlinked : Linked db) : Linked db' := by
  have hnext : db'.memories.nextId = db.memories.nextId + 1 := by rw [h.memories]; rfl
  refine ⟨fun k candidate' hc => ?_, fun k candidate' memoryId hc hm => ?_⟩
  · rw [h.documents]
    rcases h.candidate k candidate' hc with ⟨hdocument, -⟩ | hold
    · rw [hdocument]
      exact hlinked.documents _ _ h.row
    · exact hlinked.documents k candidate' hold
  · rw [hnext]
    rcases h.candidate k candidate' hc with ⟨-, hpublished⟩ | hold
    · rw [hpublished] at hm
      rw [← Option.some.inj hm]
      exact Nat.lt_succ_self _
    · exact (hlinked.memories k candidate' memoryId hold hm).trans (Nat.lt_succ_self _)

/-- An approval makes a memory live only for the batch of its candidate. -/
theorem Approved.liveFrom {candidateId batchId k : Nat} {candidate : ReferenceCandidate}
    (h : Approved db candidateId candidate db') (hlinked : Linked db) (hlive : LiveFrom db' batchId k) :
    documentOf db batchId candidate.documentId ∨ LiveFrom db batchId k := by
  obtain ⟨candidate', memoryId, memory, hc, hdocument, hm, hmemory, hlive⟩ := hlive
  obtain ⟨document, hd, howner⟩ := hdocument
  rw [h.documents] at hd
  rcases h.candidate k candidate' hc with ⟨hdocumentId, -⟩ | hold
  · rw [hdocumentId] at hd
    exact Or.inl ⟨document, hd, howner⟩
  · have hlt := hlinked.memories k candidate' memoryId hold hm
    rw [h.memories, Table.get?_insert_ne _ _ hlt.ne] at hmemory
    exact Or.inr ⟨candidate', memoryId, memory, hold, ⟨document, hd, howner⟩, hm, hmemory, hlive⟩

/-! ## Every step keeps the invariant -/

theorem mem_publishedOf {batchId candidateId : Nat} (h : LiveFrom db batchId candidateId) :
    candidateId ∈ publishedOf db batchId := by
  obtain ⟨candidate, memoryId, memory, hc, ⟨document, hd, howner⟩, hm, -, -⟩ := h
  refine List.mem_map.mpr ⟨(candidateId, candidate), List.mem_filter.mpr ⟨?_, by rw [hm]; rfl⟩, rfl⟩
  refine (Table.mem_select _ _ _ _).mpr ⟨hc, ?_⟩
  rw [hd, Option.any_some, howner]
  exact decide_eq_true rfl

/-- The transactions of a rollback leave fewer candidates. -/
theorem advance_inv (hinv : Inv s) {position : Nat} {r : Active} (hr : s.active[position]? = some r) :
    Inv (advance s position r) := by
  have hmem : r ∈ s.active := List.mem_of_getElem? hr
  rw [advance]
  split
  · next hnone =>
    -- the last transaction: no candidate is left
    refine ⟨⟨hinv.linked.documents, hinv.linked.memories⟩, fun batchId hb candidateId h => ?_, fun other ho => ?_⟩
    · rcases List.mem_cons.mp hb with rfl | hb
      · have hleft := hinv.left r hmem candidateId h
        rw [hnone] at hleft
        cases hleft
      · exact hinv.final batchId hb candidateId h
    · exact hinv.left other (List.mem_of_mem_eraseIdx ho)
  · next candidateId rest hremaining =>
    rcases rollbackCandidate_effect s.db candidateId r.reason with ⟨error, h⟩ | ⟨memoryId, hok, h⟩
    · rw [h]
      exact ⟨hinv.linked, hinv.final, fun other ho => hinv.left other (List.mem_of_mem_eraseIdx ho)⟩
    · rw [show rollbackCandidate s.db candidateId r.reason = (.ok memoryId, _) from Prod.ext hok rfl]
      refine ⟨h.linked hinv.linked, fun batchId hb k hlive => ?_, fun other ho k hlive => ?_⟩
      · exact hinv.final batchId hb k (h.liveFrom hlive).1
      · obtain ⟨hbefore, hne⟩ := h.liveFrom hlive
        rcases List.mem_or_eq_of_mem_set ho with ho | rfl
        · exact hinv.left other ho k hbefore
        · have hleft := hinv.left r hmem k hbefore
          rw [hremaining] at hleft
          exact (List.mem_cons.mp hleft).resolve_left hne

theorem step_inv (host : Host) (hinv : Inv s) (i : Step) (hguard : Undisturbed s i) : Inv (step host s i).2 := by
  cases i with
  | run i =>
    have hframe := frame_of_run host s i
    exact hinv.keep (hframe.linked hinv.linked) (fun _ _ => hframe.liveFrom hinv.linked) rfl rfl
  | review candidateId decision reviewer reason =>
    rcases reviewCandidate_effect s.db candidateId decision reviewer reason with
      h | ⟨-, h, hmemories⟩ | ⟨rfl, candidate, h⟩
    · rw [step, h]
      exact hinv
    · refine hinv.keep (h.linked hinv.linked (by rw [hmemories])) (fun _ _ => h.liveFrom fun _ _ hmemory _ => ?_) rfl rfl
      rw [← hmemories]
      exact hmemory
    · have hnot := hguard candidate h.row h.unreviewed
      refine ⟨h.linked hinv.linked, fun batchId hb k hlive => ?_, fun r hr k hlive => ?_⟩
      · rcases h.liveFrom hinv.linked hlive with hdocument | hbefore
        · exact (hnot batchId hdocument).1 hb
        · exact hinv.final batchId hb k hbefore
      · rcases h.liveFrom hinv.linked hlive with hdocument | hbefore
        · exact absurd rfl ((hnot r.batchId hdocument).2 r hr)
        · exact hinv.left r hr k hbefore
  | rollback candidateId reason =>
    rcases rollbackCandidate_effect s.db candidateId reason with ⟨error, h⟩ | ⟨memoryId, -, h⟩
    · have hsame : (rollbackCandidate s.db candidateId reason).2 = s.db := by rw [h]
      rw [step, hsame]
      exact hinv
    · exact hinv.keep (h.linked hinv.linked) (fun _ _ hlive => (h.liveFrom hlive).1) rfl rfl
  | rollbackBatch batchId reason =>
    simp only [step]
    split
    · exact hinv
    · refine ⟨hinv.linked, hinv.final, fun r hr candidateId hlive => ?_⟩
      rcases List.mem_append.mp hr with hr | hr
      · exact hinv.left r hr candidateId hlive
      · obtain rfl := List.mem_singleton.mp hr
        exact mem_publishedOf hlive
  | next position =>
    simp only [step]
    split
    · exact hinv
    · next r hr => exact advance_inv hinv hr

end

/-! ## Runs -/

/-- **A rollback that has returned is final in every run that approves no candidate of its batch after
the rollback has begun.** -/
theorem rollback_final (host : Host) (projects : Table String) (steps : List Step)
    (hundisturbed : Trace.Always (step host) Undisturbed (start projects) steps) :
    Trace.Always (step host) (fun s i => Final (step host s i).2) (start projects) steps := by
  have hstep : ∀ s i, Inv s → Undisturbed s i → Inv (step host s i).2 := fun s i h hguard => step_inv host h i hguard
  exact Trace.always_of_invariant hstep (fun s i h hguard => (step_inv host h i hguard).final) (inv_start projects)
    hundisturbed

/-- A batch with one text is processed. -/
def oneCandidate : List Step :=
  [.run (.call (.createBatch 0 0 "project")), .run (.call (.addFiles 0 [⟨"notes.txt", "text", none⟩])),
    .run (.call (.startBatch 0 0)), .run (.call (.processImportFile 0))]

/-- Its candidate is approved and the batch rolled back. -/
theorem approved_then_rolledBack :
    Trace.Always (step textHost) (fun s i => Final (step textHost s i).2) (start oneProject)
      (oneCandidate ++ [.review 0 .approve none none, .rollbackBatch 0 none, .next 0, .next 0]) := by
  refine rollback_final textHost oneProject _
    ⟨trivial, trivial, trivial, trivial, fun candidate _ _ batchId _ => ?_, trivial, trivial, trivial, trivial⟩
  exact ⟨by simp [step, start], by simp [step, start]⟩

/-- The rollback of the batch returns, and the candidate is approved. -/
def approvedLate : List Step := oneCandidate ++ [.rollbackBatch 0 none, .next 0, .review 0 .approve none none]

/-- Its memory is live. -/
theorem approvedLate_live :
    ¬Trace.Always (step textHost) (fun s i => Final (step textHost s i).2) (start oneProject) approvedLate := by
  intro h
  have hfinal := ((Trace.always_snoc _ _ (oneCandidate ++ [.rollbackBatch 0 none, .next 0]) _).mp h).2
  rw [← Trace.exec_snoc] at hfinal
  generalize hs : Trace.exec _ _ _ = s at hfinal
  have hreturned : s.returned = [0] := by rw [← hs]; decide
  have hcandidate : (s.db.candidates.get? 0).map (fun c => (c.documentId, c.publishedMemoryId)) = some (0, some 0) := by
    rw [← hs]; decide
  have hdocument : (s.db.documents.get? 0).map SourceDocument.importBatchId = some 0 := by rw [← hs]; decide
  have hmemory : (s.db.memories.get? 0).map live = some true := by rw [← hs]; decide
  obtain ⟨candidate, hc, hkeys⟩ := Option.map_eq_some_iff.mp hcandidate
  obtain ⟨document, hd, howner⟩ := Option.map_eq_some_iff.mp hdocument
  obtain ⟨memory, hm, hlive⟩ := Option.map_eq_some_iff.mp hmemory
  obtain ⟨hdocumentId, hpublished⟩ := Prod.mk.inj hkeys
  refine hfinal 0 (by rw [hreturned]; exact List.mem_singleton.mpr rfl) 0
    ⟨candidate, 0, memory, hc, ⟨document, ?_, howner⟩, hpublished, hm, hlive⟩
  rw [hdocumentId]
  exact hd

end CodexMemory.Import.Rollback
