import CodexMemory.Retrieval.Model

/-!
# Retrieval depends on the project alone

Two databases that agree on the rows of a project and on the memories that its scope
shows, with their vectors, give the same answers for it (`isolated`).  The candidates
are the same list (`candidates_eq`), although they are filtered out of all memories;
the vectors come in no particular order, and neither the best scores
(`denseScores_perm`) nor their ranks depend on it.
-/

namespace CodexMemory.Retrieval

variable {F S : Type}

/-! ## The relation -/

/-- The memories that a project may see: its own and, unless it asks for its own alone, the global ones. -/
def Visible (projectId : Nat) (scopeMode : String) (row : Memory F) : Prop :=
  row.projectId = some projectId ∨ scopeMode ≠ "project_only" ∧ row.projectId = none

/-- The two databases agree on what belongs to the project: its row, its flags, its retrieval profile with
the embedding profile, and the memories that it may see with their vectors. -/
structure Agree (projectId : Nat) (project : Project) (scopeMode : String) (db db' : Database F S) : Prop where
  project : (projectId, project) ∈ db.projects.rows ∧ (projectId, project) ∈ db'.projects.rows
  flags : db.flags.get? projectId = db'.flags.get? projectId
  retrievalProfile : db.retrievalProfiles.get? projectId = db'.retrievalProfiles.get? projectId
  embeddingProfile : ∀ id, profileIdOf db projectId = some id →
    db.embeddingProfiles.get? id = db'.embeddingProfiles.get? id
  memories : ∀ id row, Visible projectId scopeMode row → ((id, row) ∈ db.memories.rows ↔ (id, row) ∈ db'.memories.rows)
  vectors : ∀ id row, Visible projectId scopeMode row → (id, row) ∈ db.memories.rows →
    ∀ key v, v.memoryId = id → ((key, v) ∈ db.vectors.rows ↔ (key, v) ∈ db'.vectors.rows)

/-! ## The candidates -/

theorem admitted_visible {filters : Filters} {projectId : Nat} {row : Memory F}
    (h : admitted filters projectId row = true) : Visible projectId filters.scopeMode row := by
  simp only [admitted, Bool.and_eq_true] at h
  have hscope := h.1.1.2
  unfold scopeMatches at hscope
  by_cases honly : filters.scopeMode = "project_only"
  · rw [if_pos honly, Bool.and_eq_true] at hscope
    exact .inl (of_decide_eq_true hscope.1)
  · rw [if_neg honly] at hscope
    split at hscope
    · rw [Bool.and_eq_true] at hscope
      exact .inr ⟨honly, of_decide_eq_true hscope.1⟩
    · rw [Bool.or_eq_true, Bool.and_eq_true, Bool.and_eq_true] at hscope
      rcases hscope with hown | hglobal
      · exact .inl (of_decide_eq_true hown.1)
      · exact .inr ⟨honly, of_decide_eq_true hglobal.1⟩

theorem mem_candidates {db : Database F S} {filters : Filters} {projectId : Nat} {row : Nat × Memory F} :
    row ∈ candidates db filters projectId ↔ row ∈ db.memories.rows ∧ admitted filters projectId row.2 = true := by
  rw [candidates, List.mem_filter, mem_sortBy]

theorem candidates_keys_nodup (db : Database F S) (filters : Filters) (projectId : Nat) :
    ((candidates db filters projectId).map Prod.fst).Nodup := by
  have hperm := (sortBy_perm Prod.fst db.memories.rows).map Prod.fst
  exact (hperm.nodup_iff.mpr db.memories.nodup).sublist (List.filter_sublist.map Prod.fst)

/-- The candidates are the admitted rows in the order of their ids. -/
theorem candidates_eq_sortBy (db : Database F S) (filters : Filters) (projectId : Nat) :
    candidates db filters projectId =
      sortBy Prod.fst (db.memories.rows.filter fun row => admitted filters projectId row.2) := by
  refine eq_sortBy ((sortBy_perm _ _).filter _) ((sortBy_pairwise _ _).filter _) ?_
  intro a ha b hb hab
  exact List.inj_on_of_nodup_map db.memories.nodup (List.mem_of_mem_filter ha) (List.mem_of_mem_filter hb) hab

section

variable {projectId : Nat} {project : Project} {db db' : Database F S} {filters : Filters}

/-- **The candidates are the same list.** -/
theorem candidates_eq (h : Agree projectId project filters.scopeMode db db') :
    candidates db filters projectId = candidates db' filters projectId := by
  rw [candidates_eq_sortBy, candidates_eq_sortBy]
  refine sortBy_eq_of_perm ((List.perm_ext_iff_of_nodup ?_ ?_).mpr ?_) ?_
  · exact (List.Nodup.of_map _ db.memories.nodup).filter _
  · exact (List.Nodup.of_map _ db'.memories.nodup).filter _
  · rintro ⟨id, row⟩
    simp only [List.mem_filter]
    refine and_congr_left fun hadmitted => ?_
    exact h.memories id row (admitted_visible hadmitted)
  · intro a ha b hb hab
    exact List.inj_on_of_nodup_map db'.memories.nodup (List.mem_of_mem_filter ha) (List.mem_of_mem_filter hb) hab

theorem mem_vectorRows {profileId : Nat} {ids : List Nat} {v : Vector S} :
    v ∈ vectorRows db profileId ids ↔
      (∃ key, (key, v) ∈ db.vectors.rows) ∧ v.embeddingProfileId = profileId ∧ v.memoryId ∈ ids := by
  simp [vectorRows]

/-- The vectors of the candidates are the same ones, in some order. -/
theorem vectorRows_perm (h : Agree projectId project filters.scopeMode db db') {ids : List Nat}
    (hids : ∀ id ∈ ids, ∃ row, (id, row) ∈ candidates db filters projectId) (profileId : Nat) :
    (vectorRows db profileId ids).Perm (vectorRows db' profileId ids) := by
  have hrows (d : Database F S) : vectorRows d profileId ids =
      (d.vectors.rows.filter fun r => r.2.embeddingProfileId = profileId && ids.contains r.2.memoryId).map Prod.snd := by
    rw [vectorRows, List.filter_map]
    rfl
  rw [hrows, hrows]
  refine ((List.perm_ext_iff_of_nodup ?_ ?_).mpr ?_).map Prod.snd
  · exact (List.Nodup.of_map _ db.vectors.nodup).filter _
  · exact (List.Nodup.of_map _ db'.vectors.nodup).filter _
  · rintro ⟨key, v⟩
    simp only [List.mem_filter]
    refine and_congr_left fun hwanted => ?_
    simp only [Bool.and_eq_true, List.contains_iff_mem] at hwanted
    obtain ⟨row, hrow⟩ := hids v.memoryId hwanted.2
    obtain ⟨hmem, hadmitted⟩ := mem_candidates.mp hrow
    exact h.vectors v.memoryId row (admitted_visible hadmitted) hmem key v rfl

/-! ## The project and its profile -/

/-- The project is found under its key. -/
theorem find_project {db : Database F S} {projectId : Nat} {project : Project}
    (h : (projectId, project) ∈ db.projects.rows) :
    (db.projects.rows.find? fun p => p.2.projectKey = project.projectKey) = some (projectId, project) := by
  cases hfind : db.projects.rows.find? fun p => p.2.projectKey = project.projectKey with
  | none =>
    have hno := List.find?_eq_none.mp hfind _ h
    simp at hno
  | some other =>
    have hkey : other.2.projectKey = project.projectKey := by simpa using List.find?_some hfind
    rw [List.inj_on_of_nodup_map db.keys_nodup (List.mem_of_find?_eq_some hfind) h hkey]

theorem profileOf_eq (h : Agree projectId project filters.scopeMode db db') :
    profileIdOf db projectId = profileIdOf db' projectId ∧ profileOf db projectId = profileOf db' projectId := by
  have hid : profileIdOf db projectId = profileIdOf db' projectId := by
    rw [profileIdOf, profileIdOf, h.retrievalProfile]
  refine ⟨hid, ?_⟩
  rw [profileOf, profileOf, ← hid]
  cases hprofile : profileIdOf db projectId with
  | none => rfl
  | some id => rw [Option.bind_some, Option.bind_some, h.embeddingProfile id hprofile]

end

/-! ## The dense scores -/

section

variable [LinearOrder S] {arith : Arith S}

/-- What `putScore` does to the score of one memory. -/
def bestScore (arith : Arith S) (id : Nat) (best : Option S) (row : Nat × S) : Option S :=
  if row.1 = id then some (max (best.getD arith.minusOne) row.2) else best

theorem lookup_putScore (scores : List (Nat × S)) (row : Nat × S) (id : Nat) :
    (putScore arith scores row).lookup id = bestScore arith id (scores.lookup id) row := by
  unfold putScore bestScore
  by_cases hany : (scores.any fun s => s.1 = row.1) = true
  · have hmap : (scores.map fun s => if s.1 = row.1 then (s.1, max s.2 row.2) else s) =
        scores.map fun s => (s.1, if s.1 = row.1 then max s.2 row.2 else s.2) := by
      refine List.map_congr_left fun s _ => ?_
      split <;> rfl
    rw [if_pos hany, hmap, Table.lookup_map (fun i x => if i = row.1 then max x row.2 else x)]
    by_cases hid : row.1 = id
    · subst hid
      have hsome : (scores.lookup row.1).isSome := by
        rw [List.lookup_isSome_iff]
        obtain ⟨s, hs, hkey⟩ := List.any_eq_true.mp hany
        exact ⟨s, hs, by simpa using (of_decide_eq_true hkey).symm⟩
      obtain ⟨x, hx⟩ := Option.isSome_iff_exists.mp hsome
      simp [hx]
    · have hne : ¬id = row.1 := fun h => hid h.symm
      simp [hid, hne]
  · rw [if_neg hany, List.lookup_append]
    by_cases hid : row.1 = id
    · subst hid
      have hnone : scores.lookup row.1 = none := by
        rw [List.lookup_eq_none_iff]
        intro s hs
        have hkey : ¬s.1 = row.1 := fun h => hany (List.any_eq_true.mpr ⟨s, hs, decide_eq_true h⟩)
        simpa [bne_iff_ne] using fun h : row.1 = s.1 => hkey h.symm
      simp [hnone]
    · have hne : (id == row.1) = false := by simpa using fun h : id = row.1 => hid h.symm
      rw [if_neg hid, List.lookup_cons, hne, List.lookup_nil, Option.or_none]

theorem lookup_foldl_putScore (rows scores : List (Nat × S)) (id : Nat) :
    (rows.foldl (putScore arith) scores).lookup id = rows.foldl (bestScore arith id) (scores.lookup id) := by
  induction rows generalizing scores with
  | nil => rfl
  | cons row rows ih => rw [List.foldl_cons, List.foldl_cons, ih, lookup_putScore]

theorem putScore_nodup {scores : List (Nat × S)} (h : (scores.map Prod.fst).Nodup) (row : Nat × S) :
    ((putScore arith scores row).map Prod.fst).Nodup := by
  unfold putScore
  split
  case isTrue =>
    have hkeys : (scores.map fun s => if s.1 = row.1 then (s.1, max s.2 row.2) else s).map Prod.fst =
        scores.map Prod.fst := by
      rw [List.map_map]
      refine List.map_congr_left fun s _ => ?_
      rw [Function.comp_apply]
      split <;> rfl
    rwa [hkeys]
  case isFalse hany =>
    rw [List.map_append, List.nodup_append]
    refine ⟨h, List.nodup_singleton _, ?_⟩
    intro a ha b hb hab
    obtain ⟨s, hs, rfl⟩ := List.mem_map.mp ha
    rw [List.map_singleton, List.mem_singleton] at hb
    exact hany (List.any_eq_true.mpr ⟨s, hs, decide_eq_true (hab.trans hb)⟩)

theorem foldl_putScore_nodup (rows : List (Nat × S)) {scores : List (Nat × S)} (h : (scores.map Prod.fst).Nodup) :
    ((rows.foldl (putScore arith) scores).map Prod.fst).Nodup := by
  induction rows generalizing scores with
  | nil => exact h
  | cons row rows ih => exact ih (putScore_nodup h row)

theorem bestScore_comm (id : Nat) (best : Option S) (row row' : Nat × S) :
    bestScore arith id (bestScore arith id best row) row' = bestScore arith id (bestScore arith id best row') row := by
  unfold bestScore
  split
  · split
    · rw [Option.getD_some, Option.getD_some, max_right_comm]
    · rfl
  · rfl

/-- **The order of the vectors does not matter.** -/
theorem denseScores_perm (arith : Arith S) (queryVector : List S) {rows rows' : List (Vector S)} (h : rows.Perm rows') :
    (denseScores arith queryVector rows).Perm (denseScores arith queryVector rows') := by
  have hnodup (vs : List (Vector S)) : ((denseScores arith queryVector vs).map Prod.fst).Nodup :=
    foldl_putScore_nodup _ List.nodup_nil
  refine (List.perm_ext_iff_of_nodup (.of_map _ (hnodup _)) (.of_map _ (hnodup _))).mpr ?_
  rintro ⟨id, score⟩
  rw [← Table.lookup_eq_some_iff _ (hnodup _), ← Table.lookup_eq_some_iff _ (hnodup _), denseScores, denseScores,
    lookup_foldl_putScore, lookup_foldl_putScore]
  have hfold := (h.map fun v => (v.memoryId, dot arith queryVector v.embedding)).foldl_eq' (f := bestScore arith id)
    (fun row _ row' _ best => bestScore_comm id best row row') none
  rw [List.lookup_nil, hfold]

theorem denseSorted_perm {scores scores' : List (Nat × S)} (h : scores.Perm scores') :
    denseSorted scores = denseSorted scores' := by
  refine sortBy_eq_of_perm h fun a _ b _ hab => ?_
  have hpair := toLex.injective hab
  rw [Prod.mk.injEq, OrderDual.toDual_inj] at hpair
  exact Prod.ext hpair.2 hpair.1

/-! ## The responses -/

section

variable {projectId : Nat} {project : Project} {db db' : Database F S} {filters : Filters}

theorem ranked_eq (arith : Arith S) {items : List (Scored F)} {ids : List Nat} (hids : items.map Scored.id = ids) (query : String)
    (limit : Nat) (dense : Bool) (profile : Option (Nat × EmbeddingProfile))
    (hvectors : ∀ profileId, (vectorRows db profileId ids).Perm (vectorRows db' profileId ids)) :
    ranked arith db query items limit dense profile = ranked arith db' query items limit dense profile := by
  unfold ranked
  cases dense with
  | false => rfl
  | true =>
    cases profile with
    | none => rfl
    | some profile =>
      obtain ⟨profileId, profile⟩ := profile
      have hperm := denseScores_perm arith (vector arith query profile.dimension profile.normalization)
        (hvectors profileId)
      simp only [hids, hperm.isEmpty_eq, denseSorted_perm hperm]

variable [Json.PyFloat F]

/-- The ids of the ranked rows are ids of candidates. -/
theorem scored_ids (queryTokens : List (List Char)) (dense : Bool) (rows : List (Nat × Memory F)) :
    ∀ id ∈ (scored queryTokens dense rows).map Scored.id, ∃ row, (id, row) ∈ rows := by
  intro id hid
  obtain ⟨item, hitem, rfl⟩ := List.mem_map.mp hid
  obtain ⟨row, hrow, rfl⟩ := List.mem_map.mp (List.mem_of_mem_filter hitem)
  exact ⟨row.2, hrow⟩

theorem response_eq (h : Agree projectId project filters.scopeMode db db') (query : String) (limit : Nat) :
    response arith db projectId query filters limit = response arith db' projectId query filters limit := by
  obtain ⟨hid, hprofile⟩ := profileOf_eq h
  have hdense : denseEnabled db projectId = denseEnabled db' projectId := by rw [denseEnabled, denseEnabled, h.flags]
  have hranked := ranked_eq arith rfl query limit (denseEnabled db projectId) (profileOf db projectId)
    fun profileId => vectorRows_perm h (scored_ids (tokens query.toList) (denseEnabled db projectId)
      (candidates db filters projectId)) profileId
  simp only [response, ← candidates_eq h, ← hprofile, ← hid, ← hdense, hranked]

theorem search_eq (host : Host F S) (h : Agree projectId project filters.scopeMode db db') (query : String)
    (limit : Int) :
    (search host db project.projectKey query filters limit false).1 =
      (search host db' project.projectKey query filters limit false).1 := by
  unfold search
  rw [find_project h.project.1, find_project h.project.2]
  split
  · rfl
  · simp only [response_eq h, Bool.false_eq_true, if_false]

/-- **Retrieval is isolated.**  Databases that agree on what belongs to a project give the same results and the
same context for it. -/
theorem isolated (host : Host F S) (h : Agree projectId project filters.scopeMode db db') (query : String)
    (limit budget : Int) :
    (search host db project.projectKey query filters limit false).1 =
        (search host db' project.projectKey query filters limit false).1 ∧
      buildContext host db project.projectKey query filters limit budget =
        buildContext host db' project.projectKey query filters limit budget := by
  refine ⟨search_eq host h query limit, ?_⟩
  rw [buildContext, buildContext, search_eq host h query limit]

/-- The same projects, where the second one has a memory too. -/
def withForeignMemory : Database Empty Rat :=
  { twoProjects with
    memories := twoProjects.memories.insert (published (some 1) "project" "Deploy" "Deploy the migration now") }

theorem isolated_foreignMemory :
    (search rationalHost twoProjects "alpha" "deploy migration" {} 8 false).1 =
        (search rationalHost withForeignMemory "alpha" "deploy migration" {} 8 false).1 ∧
      buildContext rationalHost twoProjects "alpha" "deploy migration" {} 8 4000 =
        buildContext rationalHost withForeignMemory "alpha" "deploy migration" {} 8 4000 := by
  have hagree : Agree 0 ⟨"alpha"⟩ ({} : Filters).scopeMode twoProjects withForeignMemory := by
    refine ⟨⟨by decide, by decide⟩, rfl, rfl, fun _ _ => rfl, fun id row hvisible => ?_, fun _ _ _ _ _ _ _ => .rfl⟩
    refine ⟨List.mem_append_left _, fun hmem => ?_⟩
    rcases List.mem_append.mp hmem with hold | hnew
    · exact hold
    · obtain ⟨rfl, rfl⟩ := Prod.mk.injEq .. ▸ List.mem_singleton.mp hnew
      simp [Visible, published] at hvisible
  exact isolated rationalHost hagree "deploy migration" 8 4000

end

end

end CodexMemory.Retrieval
