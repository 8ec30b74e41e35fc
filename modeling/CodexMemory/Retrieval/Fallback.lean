import CodexMemory.Retrieval.Isolation

/-!
# The lexical fallback

With dense retrieval on, every candidate is ranked, also those that share no token
with the query; with it off, only those that do.  The fallback therefore returns the
results of the lexical search exactly when the rows that match nothing do not reach
the results (`fallback_iff`): they are behind all others (`lexicalSorted_dense`), so
this is a matter of the limit.
-/

namespace CodexMemory.Retrieval

variable {F S : Type}

/-! ## The order of the ranked rows -/

section

variable [Json.PyFloat F] {queryTokens : List (List Char)} {rows : List (Nat × Memory F)}

/-- The row is ranked by a lexical search. -/
def matching (queryTokens : List (List Char)) (row : Nat × Memory F) : Bool :=
  0 < (scoreOf queryTokens row).score || queryTokens.isEmpty

theorem scored_dense : scored queryTokens true rows = rows.map (scoreOf queryTokens) := by simp [scored]

theorem scored_lexical :
    scored queryTokens false rows = (rows.filter (matching queryTokens)).map (scoreOf queryTokens) := by
  rw [scored, List.filter_map]
  congr 1
  refine List.filter_congr fun row _ => ?_
  simp [matching]

/-- Two ranked rows are not tied. -/
theorem lexicalKey_inj (hnodup : (rows.map Prod.fst).Nodup) {a b : Scored F} (ha : a ∈ rows.map (scoreOf queryTokens))
    (hb : b ∈ rows.map (scoreOf queryTokens)) (h : lexicalKey a = lexicalKey b) : a = b := by
  obtain ⟨row, hrow, rfl⟩ := List.mem_map.mp ha
  obtain ⟨row', hrow', rfl⟩ := List.mem_map.mp hb
  have hkey := toLex.injective h
  rw [Prod.mk.injEq] at hkey
  have hid := toLex.injective hkey.2
  rw [Prod.mk.injEq] at hid
  rw [List.inj_on_of_nodup_map hnodup hrow hrow' hid.2]

/-- A row that matches is ranked before one that does not. -/
theorem lexicalKey_le {a b : Nat × Memory F} (ha : matching queryTokens a = true) (hb : matching queryTokens b = false) :
    lexicalKey (scoreOf queryTokens a) ≤ lexicalKey (scoreOf queryTokens b) := by
  simp only [matching, Bool.or_eq_true, decide_eq_true_eq, Bool.or_eq_false_iff, decide_eq_false_iff_not] at ha hb
  have hpos : 0 < (scoreOf queryTokens a).score := by
    rcases ha with ha | hempty
    · exact ha
    · rw [hempty] at hb
      cases hb.2
  rw [lexicalKey, lexicalKey, Prod.Lex.toLex_le_toLex]
  left
  show -((scoreOf queryTokens a).score : Int) < -((scoreOf queryTokens b).score : Int)
  omega

/-- **The rows that match nothing come last.** -/
theorem lexicalSorted_dense (hnodup : (rows.map Prod.fst).Nodup) :
    lexicalSorted (scored queryTokens true rows) =
      lexicalSorted (scored queryTokens false rows) ++
        lexicalSorted ((rows.filter fun row => !matching queryTokens row).map (scoreOf queryTokens)) := by
  have hperm := List.filter_append_perm (matching queryTokens) rows
  rw [scored_dense, scored_lexical, lexicalSorted, lexicalSorted, lexicalSorted, ← sortBy_append, ← List.map_append]
  · refine (sortBy_eq_of_perm (hperm.map _) ?_).symm
    exact fun a ha b hb => lexicalKey_inj hnodup ha hb
  · intro a ha b hb
    obtain ⟨row, hrow, rfl⟩ := List.mem_map.mp ha
    obtain ⟨row', hrow', rfl⟩ := List.mem_map.mp hb
    refine lexicalKey_le (List.mem_filter.mp hrow).2 ?_
    simpa using (List.mem_filter.mp hrow').2
  · rw [← List.map_append]
    intro a ha b hb
    exact lexicalKey_inj hnodup ((hperm.map _).mem_iff.mp ha) ((hperm.map _).mem_iff.mp hb)

end

/-! ## The payloads -/

theorem payloads_length (arith : Arith S) (items : List (Scored F)) : (payloads arith items).length = items.length := by
  rw [payloads, List.length_map, List.length_zipIdx]

/-- Cutting a list with more rows behind it changes the payloads unless the limit is in the front or the back is empty. -/
theorem payloads_take_append (arith : Arith S) (front back : List (Scored F)) (limit : Nat) :
    payloads arith ((front ++ back).take limit) = payloads arith (front.take limit) ↔
      limit ≤ front.length ∨ back = [] := by
  constructor
  · intro h
    have hlength := congrArg List.length h
    rw [payloads_length, payloads_length, List.length_take, List.length_take, List.length_append] at hlength
    by_cases hlimit : limit ≤ front.length
    · exact .inl hlimit
    · right
      rw [← List.length_eq_zero_iff]
      omega
  · rintro (hlimit | rfl)
    · rw [List.take_append_of_le_length hlimit]
    · rw [List.append_nil]

/-! ## The fallback -/

section

variable [LinearOrder S]

theorem putScore_ne_nil (arith : Arith S) (scores : List (Nat × S)) (row : Nat × S) : putScore arith scores row ≠ [] := by
  unfold putScore
  split
  case isTrue hany =>
    intro h
    rw [List.map_eq_nil_iff] at h
    rw [h] at hany
    cases hany
  case isFalse => simp

/-- There are dense scores as soon as there is a vector. -/
theorem denseScores_eq_nil (arith : Arith S) (queryVector : List S) {rows : List (Vector S)} :
    denseScores arith queryVector rows = [] ↔ rows = [] := by
  constructor
  · intro h
    rcases rows.eq_nil_or_concat with rfl | ⟨front, v, rfl⟩
    · rfl
    · rw [denseScores, List.concat_eq_append, List.map_append, List.map_singleton, List.foldl_append, List.foldl_cons, List.foldl_nil] at h
      exact absurd h (putScore_ne_nil arith _ _)
  · rintro rfl
    rfl

end

/-- The database with dense retrieval switched off for the project. -/
def switchedOff (db : Database F S) (projectId : Nat) : Database F S :=
  { db with flags := db.flags.modify projectId fun flags => { flags with denseRetrievalEnabled := false } }

theorem denseEnabled_switchedOff (db : Database F S) (projectId : Nat) :
    denseEnabled (switchedOff db projectId) projectId = false := by
  rw [denseEnabled, switchedOff, Table.get?_modify_self]
  cases db.flags.get? projectId <;> rfl

/-- The vectors of the profile that the candidates have. -/
def candidateVectors (db : Database F S) (filters : Filters) (projectId profileId : Nat) : List (Vector S) :=
  vectorRows db profileId ((candidates db filters projectId).map Prod.fst)

/-- The vector can be compared with the one of the query. -/
def usable (arith : Arith S) (query : String) (profile : EmbeddingProfile) (v : Vector S) : Bool :=
  v.embedding.length = (vector arith query profile.dimension profile.normalization).length && !v.embedding.isEmpty

/-- Dense retrieval is on for the project and cannot be had: the profile is missing, or no candidate has a
vector that can be compared with the one of the query. -/
def Unavailable (arith : Arith S) (db : Database F S) (projectId : Nat) (query : String) (filters : Filters) : Prop :=
  denseEnabled db projectId = true ∧
    ∀ profileId profile, profileOf db projectId = some (profileId, profile) →
      ∀ v ∈ candidateVectors db filters projectId profileId, usable arith query profile v = false

/-- The candidates that match the query. -/
def matchingRows [Json.PyFloat F] (db : Database F S) (projectId : Nat) (query : String) (filters : Filters) : List (Nat × Memory F) :=
  (candidates db filters projectId).filter (matching (tokens query.toList))

/-- The results with dense retrieval on and off are the same. -/
theorem lexical_results_iff [Json.PyFloat F] (db : Database F S) (filters : Filters) (projectId : Nat) (query : String)
    (arith : Arith S) (limit : Nat) :
    payloads arith ((lexicalSorted (scored (tokens query.toList) true (candidates db filters projectId))).take limit) =
        payloads arith
          ((lexicalSorted (scored (tokens query.toList) false (candidates db filters projectId))).take limit) ↔
      limit ≤ (matchingRows db projectId query filters).length ∨
        ∀ row ∈ candidates db filters projectId, matching (tokens query.toList) row = true := by
  rw [lexicalSorted_dense (candidates_keys_nodup db filters projectId), payloads_take_append]
  refine or_congr ?_ ?_
  · rw [lexicalSorted, length_sortBy, scored_lexical, List.length_map, matchingRows]
  · rw [lexicalSorted, ← List.length_eq_zero_iff, length_sortBy, List.length_map, List.length_eq_zero_iff,
      List.filter_eq_nil_iff]
    simp

section

variable [Json.PyFloat F] [LinearOrder S]

/-- The search returns what it returns with dense retrieval off, and says that it is degraded. -/
def FallsBack (host : Host F S) (db : Database F S) (projectId : Nat) (projectKey query : String) (filters : Filters)
    (limit : Int) : Prop :=
  ∃ found lexical, (search host db projectKey query filters limit false).1 = .ok found ∧
    (search host (switchedOff db projectId) projectKey query filters limit false).1 = .ok lexical ∧
    found.results = lexical.results ∧ found.degraded = true ∧ found.degradedReason.isSome = true

/-- The profile is missing or the candidates have no vector of it, and no candidate without a match reaches
the results. -/
def Lexical (db : Database F S) (projectId : Nat) (query : String) (filters : Filters) (limit : Int) : Prop :=
  (∀ profileId profile, profileOf db projectId = some (profileId, profile) →
      candidateVectors db filters projectId profileId = []) ∧
    (clamp 50 limit ≤ (matchingRows db projectId query filters).length ∨
      ∀ row ∈ candidates db filters projectId, matching (tokens query.toList) row = true)

variable {db : Database F S} {projectId : Nat} {project : Project} {filters : Filters} {query : String}

theorem search_ok (host : Host F S) (h : (projectId, project) ∈ db.projects.rows)
    (hmode : filters.scopeMode ∈ validScopeModes) (query : String) (limit : Int) :
    (search host db project.projectKey query filters limit false).1 =
      .ok (response host.arith db projectId query filters (clamp 50 limit)) := by
  unfold search
  rw [find_project h, if_neg]
  · rfl
  · simpa using hmode

/-- The results with dense retrieval off. -/
theorem lexical_results (arith : Arith S) (limit : Nat) :
    (response arith (switchedOff db projectId) projectId query filters limit).results =
      payloads arith ((lexicalSorted (scored (tokens query.toList) false (candidates db filters projectId))).take limit) := by
  have hrows : candidates (switchedOff db projectId) filters projectId = candidates db filters projectId := rfl
  simp only [response, denseEnabled_switchedOff, hrows, ranked, Bool.not_false, if_true, lexicalResults]

theorem scored_dense_ids (queryTokens : List (List Char)) (rows : List (Nat × Memory F)) :
    (scored queryTokens true rows).map Scored.id = rows.map Prod.fst := by
  rw [scored_dense, List.map_map]
  rfl

/-- **The answer with dense retrieval on**: all candidates by their lexical scores, or a hybrid answer that is not
degraded. -/
theorem dense_cases (arith : Arith S) (query : String) (filters : Filters) (limit : Nat)
    (hdense : denseEnabled db projectId = true) :
    ((∀ profileId profile, profileOf db projectId = some (profileId, profile) →
        candidateVectors db filters projectId profileId = []) ∧
      ∃ reason, (response arith db projectId query filters limit).degradedReason = some reason ∧
        (response arith db projectId query filters limit).results = payloads arith
          ((lexicalSorted (scored (tokens query.toList) true (candidates db filters projectId))).take limit)) ∨
    ((∃ profileId profile, profileOf db projectId = some (profileId, profile) ∧
        candidateVectors db filters projectId profileId ≠ []) ∧
      (response arith db projectId query filters limit).degradedReason = none) := by
  simp only [response, hdense, ranked, Bool.not_true, Bool.false_eq_true, if_false, scored_dense_ids]
  cases hprofile : profileOf db projectId with
  | none => exact .inl ⟨by rintro _ _ ⟨⟩, _, rfl, rfl⟩
  | some found =>
    obtain ⟨profileId, profile⟩ := found
    by_cases hvectors : candidateVectors db filters projectId profileId = []
    · have hscores := (denseScores_eq_nil arith
        (vector arith query profile.dimension profile.normalization)).mpr hvectors
      rw [candidateVectors] at hscores
      simp only [hscores, List.isEmpty_nil, if_true]
      refine .inl ⟨?_, _, rfl, rfl⟩
      rintro profileId' profile' ⟨⟩
      exact hvectors
    · have hscores : (denseScores arith (vector arith query profile.dimension profile.normalization)
          (vectorRows db profileId ((candidates db filters projectId).map Prod.fst))).isEmpty = false := by
        rw [List.isEmpty_eq_false_iff]
        exact fun h => hvectors ((denseScores_eq_nil arith _).mp h)
      simp only [hscores, Bool.false_eq_true, if_false]
      exact .inr ⟨⟨profileId, profile, rfl, hvectors⟩, rfl⟩

/-- **The fallback is the lexical search** exactly when the candidates have no vectors at all and the rows that match
nothing do not reach the results. -/
theorem fallback_iff (host : Host F S) (hproject : (projectId, project) ∈ db.projects.rows)
    (hmode : filters.scopeMode ∈ validScopeModes) (limit : Int)
    (hunavailable : Unavailable host.arith db projectId query filters) :
    FallsBack host db projectId project.projectKey query filters limit ↔ Lexical db projectId query filters limit := by
  have hproject' : (projectId, project) ∈ (switchedOff db projectId).projects.rows := hproject
  have hfound := search_ok host hproject hmode query limit
  have hlexical := search_ok host hproject' hmode query limit
  have hcases := dense_cases host.arith query filters (clamp 50 limit) hunavailable.1
  constructor
  · rintro ⟨found, lexical, hsearch, hoff, hresults, -, hreason⟩
    rw [hfound, Except.ok.injEq] at hsearch
    rw [hlexical, Except.ok.injEq] at hoff
    subst hsearch hoff
    rcases hcases with ⟨hnone, reason, -, hdense⟩ | ⟨-, hnoReason⟩
    · rw [hdense, lexical_results] at hresults
      exact ⟨hnone, (lexical_results_iff db filters projectId query host.arith (clamp 50 limit)).mp hresults⟩
    · rw [hnoReason] at hreason
      cases hreason
  · rintro ⟨hnone, hreach⟩
    rcases hcases with ⟨-, reason, hreason, hdense⟩ | ⟨⟨profileId, profile, hprofile, hvectors⟩, -⟩
    · refine ⟨_, _, hfound, hlexical, ?_, ?_, ?_⟩
      · rw [hdense, lexical_results]
        exact (lexical_results_iff db filters projectId query host.arith (clamp 50 limit)).mpr hreach
      · show (response host.arith db projectId query filters (clamp 50 limit)).degradedReason.isSome = true
        rw [hreason]
        rfl
      · rw [hreason]
        rfl
    · exact absurd (hnone profileId profile hprofile) hvectors

end

theorem twoProjects_unavailable (query : String) (filters : Filters) :
    Unavailable rationalHost.arith twoProjects 0 query filters :=
  ⟨rfl, fun _ _ h => nomatch h⟩

theorem fallback_deploy : FallsBack rationalHost twoProjects 0 "alpha" "deploy" {} 8 := by
  have hproject : (0, ⟨"alpha"⟩) ∈ twoProjects.projects.rows := by decide
  refine (fallback_iff rationalHost hproject (by decide) 8 (twoProjects_unavailable "deploy" {})).mpr ⟨nofun, ?_⟩
  exact .inr (by decide)

/-- The fallback returns a memory that shares nothing with the query. -/
theorem fallback_weather :
    Unavailable rationalHost.arith twoProjects 0 "weather" {} ∧
      ¬FallsBack rationalHost twoProjects 0 "alpha" "weather" {} 8 := by
  refine ⟨twoProjects_unavailable "weather" {}, ?_⟩
  rintro ⟨found, lexical, hfound, hlexical, hresults, -⟩
  have hproject : (0, ⟨"alpha"⟩) ∈ twoProjects.projects.rows := by decide
  have hproject' : (0, ⟨"alpha"⟩) ∈ (switchedOff twoProjects 0).projects.rows := hproject
  have hmode : ({} : Filters).scopeMode ∈ validScopeModes := by decide
  cases (search_ok rationalHost hproject hmode "weather" 8).symm.trans hfound
  cases (search_ok rationalHost hproject' hmode "weather" 8).symm.trans hlexical
  have hlength := congrArg List.length hresults
  revert hlength
  decide

end CodexMemory.Retrieval
