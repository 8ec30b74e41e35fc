import CodexMemory.Candidates.Gate

/-!
# The sources of a published memory

`publish` writes one source for each evidence row of its candidate, while a memory may
have only one source for each message.

* `addSources_of_memory`: the sources that `publish` writes;
* `publish_keeps_provenance_iff`: a publication whose checks pass succeeds, with the messages
  of the evidence as its sources, exactly when no message is cited twice;
* `two_ranges_not_published`: a candidate with two ranges in one message.
-/

namespace CodexMemory.Candidates

open CodexMemory.Trace

variable {F : Type}

/-! ## Sources -/

/-- The messages of a memory's sources. -/
def sourcesOf (sources : Table MemorySource) (memoryId : Nat) : List Nat :=
  (sources.select fun source => source.memoryId = memoryId).map fun r => r.2.messageId

/-- The foreign key of `memory_sources`: every source is of a memory that is there. -/
def SourcesExist (db : Db F) : Prop :=
  ∀ i source, db.memorySources.get? i = some source → (db.memories.get? source.memoryId).isSome

theorem sourcesOf_insert (sources : Table MemorySource) (memoryId messageId : Nat) :
    sourcesOf (sources.insert ⟨memoryId, messageId⟩) memoryId = sourcesOf sources memoryId ++ [messageId] := by
  simp [sourcesOf, Table.select, Table.insert, List.filter_append]

/-- **The sources that are written for a memory come behind those it has.** -/
theorem addSources_of_memory (memoryId : Nat) (messageIds : List Nat) (sources : Table MemorySource) :
    sourcesOf (addSources memoryId messageIds sources) memoryId = sourcesOf sources memoryId ++ messageIds := by
  induction messageIds generalizing sources with
  | nil => simp [addSources]
  | cons messageId rest ih => rw [addSources, ih, sourcesOf_insert, List.append_assoc, List.singleton_append]

/-- A memory that is yet to come has no sources. -/
theorem sourcesOf_nextId {db : Db F} (h : SourcesExist db) : sourcesOf db.memorySources db.memories.nextId = [] := by
  have hnone : (db.memorySources.rows.filter fun r => decide (r.2.memoryId = db.memories.nextId)) = [] := by
    refine List.filter_eq_nil_iff.mpr fun ⟨i, source⟩ hmem => ?_
    have hsome := h i source ((Table.get?_eq_some_iff _ _ _).mpr hmem)
    have hne : source.memoryId ≠ db.memories.nextId := by
      intro heq
      rw [heq, Table.get?_nextId] at hsome
      cases hsome
    simpa using hne
  rw [sourcesOf, Table.select, hnone]
  rfl

/-! ## Publication -/

section Publication

variable [Json.PyFloat F] (host : Host F) (svc : Service)

/-- `publish` returns a new memory whose sources are the messages of the evidence, each once. -/
def KeepsProvenance (db : Db F) (k : Nat) (automatic : Bool) : Prop :=
  ∃ memoryId db', publish host svc db k automatic = (.ok memoryId, db') ∧ db.memories.get? memoryId = none ∧
    (db'.memories.get? memoryId).isSome ∧ (sourcesOf db'.memorySources memoryId).Nodup ∧
    ∀ messageId, messageId ∈ sourcesOf db'.memorySources memoryId ↔ messageId ∈ evidenceMessages db k

/-- The unique constraint of the sources stops a publication that cites a message twice. -/
theorem publish_of_repeated {db : Db F} {k : Nat} {candidate : Candidate F} {automatic : Bool}
    (hrow : db.candidates.get? k = some candidate)
    (hchecks : (publishChecks host svc db k candidate automatic).passed = true)
    (hrepeated : ¬ (evidenceMessages db k).Nodup) :
    publish host svc db k automatic = (.error (.integrity "uq_memory_sources_memory_message"), db) := by
  have hnone : publishedMemory db candidate = none := by
    rw [publishedMemory, (unpublished_of_passed host hchecks).1]
    rfl
  simp only [publish, hrow, publishPlan_eq, hnone, hchecks, hrepeated, if_true, if_false, commitPublish]

/-- **A publication whose checks pass keeps the provenance of its candidate exactly when the
evidence lies in different messages.** -/
theorem publish_keeps_provenance_iff (db : Db F) (k : Nat) (candidate : Candidate F) (automatic : Bool)
    (hforeign : SourcesExist db) (hrow : db.candidates.get? k = some candidate)
    (hchecks : (publishChecks host svc db k candidate automatic).passed = true) :
    KeepsProvenance host svc db k automatic ↔ (evidenceMessages db k).Nodup := by
  constructor
  · rintro ⟨memoryId, db', hpublish, -⟩
    by_contra hrepeated
    rw [publish_of_repeated host svc hrow hchecks hrepeated] at hpublish
    cases (Prod.mk.inj hpublish).1
  · intro hnodup
    have hsources : sourcesOf (addSources db.memories.nextId (evidenceMessages db k) db.memorySources)
        db.memories.nextId = evidenceMessages db k := by
      rw [addSources_of_memory, sourcesOf_nextId hforeign, List.nil_append]
    refine ⟨db.memories.nextId, (publish host svc db k automatic).2, ?_, Table.get?_nextId _, ?_⟩
    · simp only [publish, hrow, publishPlan_of_passed host hchecks hnodup, commitPublish]
    · simp only [publish, hrow, publishPlan_of_passed host hchecks hnodup, commitPublish, addPolicyResult, hsources]
      exact ⟨by rw [Table.get?_insert_self]; rfl, hnodup, fun _ => trivial⟩

end Publication

/-! ## Two ranges in one message -/

/-- A candidate that cites both words of the message. -/
def twoRangesRun : List (Call Empty) :=
  [.createCandidate 0 { sampleCandidate with evidence := [(0, 0, 3), (0, 4, 8)] }]

theorem sourcesExist_of_none {db : Db Empty} (h : db.memorySources.rows = []) : SourcesExist db := by
  intro i source hsource
  have hmem := (Table.get?_eq_some_iff _ _ _).mp hsource
  rw [h] at hmem
  cases hmem

/-- The candidate that cites the whole message keeps its provenance. -/
theorem one_range_published : KeepsProvenance sampleHost {} (exec (step sampleHost) sampleDb (decidedRun.take 1)) 0
    false := by
  have hpassed : ((exec (step sampleHost) sampleDb (decidedRun.take 1)).candidates.get? 0).map (fun candidate =>
      (publishChecks sampleHost {} (exec (step sampleHost) sampleDb (decidedRun.take 1)) 0 candidate false).passed) =
        some true := by decide
  obtain ⟨candidate, hrow, hchecks⟩ := Option.map_eq_some_iff.mp hpassed
  exact (publish_keeps_provenance_iff sampleHost {} (exec (step sampleHost) sampleDb (decidedRun.take 1)) 0 candidate
    false (sourcesExist_of_none (by decide)) hrow hchecks).mpr (by decide)

/-- **A candidate with two ranges in one message passes every check and cannot be published.** -/
theorem two_ranges_not_published : ¬ ∀ (db : Db Empty) (k : Nat) (candidate : Candidate Empty) (automatic : Bool),
    SourcesExist db → db.candidates.get? k = some candidate →
    (publishChecks sampleHost {} db k candidate automatic).passed = true →
    KeepsProvenance sampleHost {} db k automatic := by
  intro h
  have hpassed : ((exec (step sampleHost) sampleDb twoRangesRun).candidates.get? 0).map (fun candidate =>
      (publishChecks sampleHost {} (exec (step sampleHost) sampleDb twoRangesRun) 0 candidate false).passed) =
        some true := by decide
  obtain ⟨candidate, hrow, hchecks⟩ := Option.map_eq_some_iff.mp hpassed
  obtain ⟨memoryId, db', hpublish, -⟩ := h (exec (step sampleHost) sampleDb twoRangesRun) 0 candidate false
    (sourcesExist_of_none (by decide)) hrow hchecks
  have hrepeated : ¬ (evidenceMessages (exec (step sampleHost) sampleDb twoRangesRun) 0).Nodup := by decide
  rw [publish_of_repeated sampleHost {} hrow hchecks hrepeated] at hpublish
  cases (Prod.mk.inj hpublish).1

end CodexMemory.Candidates
