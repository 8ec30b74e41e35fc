import CodexMemory.Retrieval.Fallback
import Mathlib.Algebra.Order.Field.Basic

/-!
# The ranking of a hybrid search

The lexical and the dense ranks of a memory are fused by their reciprocals, here those of
an ordered field.

* `position_lt`: of two items of a sorted list the one with the smaller key stands first;
* `fused_lt`: a memory that is before another one by both orders has the larger score;
* `hybrid_ranking`: the results of a hybrid search, for all items, vectors and limits;
* `search_hybrid`: `search` returns such results.
-/

namespace CodexMemory.Retrieval

/-! ## Positions -/

section Positions

variable {α κ : Type} [LinearOrder κ]

/-- **Of two items of a sorted list the one with the smaller key stands first.** -/
theorem position_lt {key : α → κ} {l : List α} (hsorted : l.Pairwise fun a b => key a ≤ key b) {i j : Nat} {a b : α}
    (ha : l[i]? = some a) (hb : l[j]? = some b) (hlt : key a < key b) : i < j := by
  by_contra hge
  obtain ⟨hi, rfl⟩ := List.getElem?_eq_some_iff.mp ha
  obtain ⟨hj, rfl⟩ := List.getElem?_eq_some_iff.mp hb
  rcases Nat.lt_or_eq_of_le (Nat.not_lt.mp hge) with hji | rfl
  · exact absurd hlt (not_lt.mpr (List.pairwise_iff_getElem.mp hsorted j i hj hi hji))
  · exact lt_irrefl _ hlt

/-- The rank of an id is its position, counted from one. -/
theorem rankIn_eq_some {ids : List Nat} (hnodup : ids.Nodup) {id i : Nat} (h : ids[i]? = some id) :
    rankIn ids id = some (i + 1) := by
  obtain ⟨hi, rfl⟩ := List.getElem?_eq_some_iff.mp h
  rw [rankIn, List.idxOf?_eq_some_iff.mpr]
  · rfl
  · refine ⟨hi, rfl, fun j hj heq => ?_⟩
    exact absurd ((List.Nodup.getElem_inj_iff hnodup).mp heq) (Nat.ne_of_lt hj)

theorem rankIn_eq_none {ids : List Nat} {id : Nat} (h : id ∉ ids) : rankIn ids id = none := by
  rw [rankIn, List.idxOf?_eq_none_iff.mpr h]
  rfl

end Positions

section

variable {F S : Type} [LinearOrder S]

/-! ## The two orders -/

/-- The dense score of a memory: the best of its vectors, `none` without one. -/
def memoryScore (arith : Arith S) (queryVector : List S) (rows : List (Vector S)) (id : Nat) : Option S :=
  match rows.filter fun v => v.memoryId = id with
  | [] => none
  | vectors => some ((vectors.map fun v => dot arith queryVector v.embedding).foldl max arith.minusOne)

/-- `a` is strictly before `b` in the lexical order: by the score, the layer and the id. -/
def LexicallyBefore (a b : Scored F) : Prop := lexicalKey a < lexicalKey b

/-- `a` is strictly before `b` in the dense order: by the score and the id, and after all memories with a vector
come those without. -/
def DenselyBefore (scoreOf : Nat → Option S) (a b : Scored F) : Prop :=
  ∃ x, scoreOf a.id = some x ∧ ∀ y, scoreOf b.id = some y → y < x ∨ (y = x ∧ a.id < b.id)

theorem foldl_bestScore (arith : Arith S) (queryVector : List S) (id : Nat) (rows : List (Vector S)) (best : Option S) :
    (rows.map fun v => (v.memoryId, dot arith queryVector v.embedding)).foldl (bestScore arith id) best =
      match rows.filter fun v => v.memoryId = id with
      | [] => best
      | vectors => some ((vectors.map fun v => dot arith queryVector v.embedding).foldl max
          (best.getD arith.minusOne)) := by
  induction rows generalizing best with
  | nil => rfl
  | cons v rest ih =>
    rw [List.map_cons, List.foldl_cons, ih, bestScore]
    by_cases hid : v.memoryId = id
    · rw [if_pos hid, List.filter_cons_of_pos (by simpa using hid)]
      cases rest.filter fun v => v.memoryId = id with
      | nil => rfl
      | cons w others => rfl
    · rw [if_neg hid, List.filter_cons_of_neg (by simpa using hid)]

/-- The scores that are computed are those of the memories. -/
theorem lookup_denseScores (arith : Arith S) (queryVector : List S) (rows : List (Vector S)) (id : Nat) :
    (denseScores arith queryVector rows).lookup id = memoryScore arith queryVector rows id := by
  rw [denseScores, lookup_foldl_putScore, List.lookup_nil, foldl_bestScore]
  rfl

theorem denseScores_nodup (arith : Arith S) (queryVector : List S) (rows : List (Vector S)) :
    ((denseScores arith queryVector rows).map Prod.fst).Nodup := foldl_putScore_nodup _ List.nodup_nil

/-- Only memories with a vector have a score. -/
theorem denseScores_ids {arith : Arith S} {queryVector : List S} {rows : List (Vector S)} {s : Nat × S}
    (h : s ∈ denseScores arith queryVector rows) : ∃ v ∈ rows, v.memoryId = s.1 := by
  have hlookup := (Table.lookup_eq_some_iff _ (denseScores_nodup arith queryVector rows) s.1 s.2).mpr h
  rw [lookup_denseScores, memoryScore] at hlookup
  split at hlookup
  · cases hlookup
  · next hne =>
    obtain ⟨v, hv⟩ := List.exists_mem_of_ne_nil _ hne
    obtain ⟨hmem, hid⟩ := List.mem_filter.mp hv
    exact ⟨v, hmem, by simpa using hid⟩

/-! ## Ranks -/

/-- The rank in a sorted list of items. -/
theorem rankIn_sorted {α κ : Type} [LinearOrder κ] (key : α → κ) (id : α → Nat) {items : List α}
    (hids : (items.map id).Nodup) {a : α} (ha : a ∈ items) :
    ∃ i, (sortBy key items)[i]? = some a ∧ rankIn ((sortBy key items).map id) (id a) = some (i + 1) := by
  obtain ⟨i, hi⟩ := List.mem_iff_getElem?.mp (mem_sortBy.mpr ha : a ∈ sortBy key items)
  have hnodup : ((sortBy key items).map id).Nodup := ((sortBy_perm key items).map id).nodup_iff.mpr hids
  refine ⟨i, hi, rankIn_eq_some hnodup ?_⟩
  rw [List.getElem?_map, hi]
  rfl

/-- **By a smaller key comes a smaller rank.** -/
theorem rank_lt {α κ : Type} [LinearOrder κ] (key : α → κ) (id : α → Nat) {items : List α}
    (hids : (items.map id).Nodup) {a b : α} (ha : a ∈ items) (hb : b ∈ items) (hlt : key a < key b) (default : Nat) :
    (rankIn ((sortBy key items).map id) (id a)).getD default < (rankIn ((sortBy key items).map id) (id b)).getD default := by
  obtain ⟨i, hi, hrank⟩ := rankIn_sorted key id hids ha
  obtain ⟨j, hj, hrank'⟩ := rankIn_sorted key id hids hb
  have hij := position_lt (sortBy_pairwise key items) hi hj hlt
  rw [hrank, hrank', Option.getD_some, Option.getD_some]
  omega

/-- **The dense ranks follow the dense order**, where a memory without a vector has the rank behind all. -/
theorem denseRank_lt {arith : Arith S} {queryVector : List S} {rows : List (Vector S)} {items : List (Scored F)}
    (hrows : ∀ v ∈ rows, v.memoryId ∈ items.map Scored.id) {a b : Scored F}
    (hbefore : DenselyBefore (memoryScore arith queryVector rows) a b) :
    (rankIn ((denseSorted (denseScores arith queryVector rows)).map Prod.fst) a.id).getD (items.length + 1) <
      (rankIn ((denseSorted (denseScores arith queryVector rows)).map Prod.fst) b.id).getD (items.length + 1) := by
  have hnodup := denseScores_nodup arith queryVector rows
  have hmem : ∀ {id x}, memoryScore arith queryVector rows id = some x →
      (id, x) ∈ denseScores arith queryVector rows := by
    intro id x hscore
    rw [← lookup_denseScores] at hscore
    exact (Table.lookup_eq_some_iff _ hnodup id x).mp hscore
  obtain ⟨x, hx, hafter⟩ := hbefore
  cases hy : memoryScore arith queryVector rows b.id with
  | some y =>
    have hlt : (toLex (OrderDual.toDual x, a.id) : Sᵒᵈ ×ₗ Nat) < toLex (OrderDual.toDual y, b.id) := by
      rcases hafter y hy with hlt | ⟨rfl, hid⟩
      · exact Prod.Lex.toLex_lt_toLex.mpr (Or.inl (OrderDual.toDual_lt_toDual.mpr hlt))
      · exact Prod.Lex.toLex_lt_toLex.mpr (Or.inr ⟨rfl, hid⟩)
    exact rank_lt (fun s : Nat × S => (toLex (OrderDual.toDual s.2, s.1) : Sᵒᵈ ×ₗ Nat)) Prod.fst hnodup (hmem hx)
      (hmem hy) hlt _
  | none =>
    obtain ⟨i, hi, hrank⟩ := rankIn_sorted (fun s : Nat × S => (toLex (OrderDual.toDual s.2, s.1) : Sᵒᵈ ×ₗ Nat))
      Prod.fst hnodup (hmem hx)
    have hnone : b.id ∉ (denseSorted (denseScores arith queryVector rows)).map Prod.fst := by
      intro hb
      obtain ⟨s, hs, hid⟩ := List.mem_map.mp hb
      have hlookup := (Table.lookup_eq_some_iff _ hnodup s.1 s.2).mpr (mem_sortBy.mp hs)
      rw [lookup_denseScores, hid, hy] at hlookup
      cases hlookup
    have hcount : (denseScores arith queryVector rows).length ≤ items.length := by
      have hsub : (denseScores arith queryVector rows).map Prod.fst ⊆ items.map Scored.id := by
        intro id hid
        obtain ⟨s, hs, rfl⟩ := List.mem_map.mp hid
        obtain ⟨v, hv, hsame⟩ := denseScores_ids hs
        rw [← hsame]
        exact hrows v hv
      simpa using (List.subperm_of_subset hnodup hsub).length_le
    have hbound : i < (denseScores arith queryVector rows).length := by
      obtain ⟨hlt, -⟩ := List.getElem?_eq_some_iff.mp hi
      simpa using hlt
    rw [show rankIn ((denseSorted (denseScores arith queryVector rows)).map Prod.fst) a.id = some (i + 1) from hrank,
      rankIn_eq_none hnone, Option.getD_some, Option.getD_none]
    omega

end

section

variable {F S : Type} [Field S] [LinearOrder S] [IsStrictOrderedRing S]

/-- The reciprocals and the sum of the scores are exact. -/
structure Exact (arith : Arith S) : Prop where
  reciprocal : ∀ n, arith.reciprocal n = 1 / (n : S)
  add : ∀ x y, arith.add x y = x + y

omit [LinearOrder S] [IsStrictOrderedRing S] in
theorem fused_eq {arith : Arith S} (h : Exact arith) (lexicalIds denseIds : List Nat) (count id : Nat) :
    fused arith lexicalIds denseIds count id =
      1 / ((rrfK + (rankIn lexicalIds id).getD (count + 1) : Nat) : S) +
        1 / ((rrfK + (rankIn denseIds id).getD (count + 1) : Nat) : S) := by
  rw [fused, h.add, h.reciprocal, h.reciprocal]

theorem reciprocal_lt {m n : Nat} (h : m < n) : 1 / ((rrfK + n : Nat) : S) < 1 / ((rrfK + m : Nat) : S) := by
  have hpos : (0 : S) < ((rrfK + m : Nat) : S) := Nat.cast_pos.mpr (Nat.add_pos_left (by decide) m)
  exact one_div_lt_one_div_of_lt hpos (Nat.cast_lt.mpr (Nat.add_lt_add_left h rrfK))

/-- **A memory that is before another one by both ranks has the larger score.** -/
theorem fused_lt {arith : Arith S} (h : Exact arith) {lexicalIds denseIds : List Nat} {count a b : Nat}
    (hlexical : (rankIn lexicalIds a).getD (count + 1) < (rankIn lexicalIds b).getD (count + 1))
    (hdense : (rankIn denseIds a).getD (count + 1) < (rankIn denseIds b).getD (count + 1)) :
    fused arith lexicalIds denseIds count b < fused arith lexicalIds denseIds count a := by
  rw [fused_eq h, fused_eq h]
  exact add_lt_add (reciprocal_lt hlexical) (reciprocal_lt hdense)

/-! ## The results -/

/-- **What is claimed of the results of a hybrid search** for the items, with the dense scores of the memories. -/
structure HybridRanked (items : List (Scored F)) (scoreOf : Nat → Option S) (limit : Nat)
    (results : List (Result F S)) : Prop where
  count : results.length = min limit items.length
  distinct : (results.map Result.memoryId).Nodup
  admitted : ∀ result ∈ results, ∃ item ∈ items, result.memoryId = item.id
  scores : results.Pairwise fun a b => b.rrfScore ≤ a.rrfScore
  ranks : results.map Result.rank = List.range' 1 results.length
  consistent : ∀ a ∈ items, ∀ b ∈ items, LexicallyBefore a b → DenselyBefore scoreOf a b →
    ∀ j : Nat, (results.map Result.memoryId)[j]? = some b.id →
      ∃ i : Nat, i < j ∧ (results.map Result.memoryId)[i]? = some a.id

omit [Field S] [LinearOrder S] [IsStrictOrderedRing S] in
/-- The columns of the results, before the scores are written over them. -/
theorem payloads_columns (arith : Arith S) (items : List (Scored F)) :
    (payloads arith items).map Result.memoryId = items.map Scored.id ∧
      (payloads arith items).map Result.rank = List.range' 1 items.length := by
  constructor
  · rw [payloads, List.map_map]
    calc (items.zipIdx 1).map (Result.memoryId ∘ fun item => resultPayload arith item.1 item.2)
        = ((items.zipIdx 1).map Prod.fst).map Scored.id := by rw [List.map_map]; rfl
      _ = items.map Scored.id := by rw [List.zipIdx_map_fst]
  · rw [payloads, List.map_map]
    calc (items.zipIdx 1).map (Result.rank ∘ fun item => resultPayload arith item.1 item.2)
        = (items.zipIdx 1).map Prod.snd := rfl
      _ = List.range' 1 items.length := List.zipIdx_map_snd 1 items

/-- **The fusion ranks any items, with any vectors, up to any limit.** -/
theorem hybridResults_ranked {arith : Arith S} (h : Exact arith) (queryVector : List S) (rows : List (Vector S))
    {items : List (Scored F)} (hids : (items.map Scored.id).Nodup)
    (hrows : ∀ v ∈ rows, v.memoryId ∈ items.map Scored.id) (limit : Nat) :
    HybridRanked items (memoryScore arith queryVector rows) limit
      (hybridResults arith items ((denseSorted (denseScores arith queryVector rows)).map Prod.fst) limit).results := by
  generalize hdense : (denseSorted (denseScores arith queryVector rows)).map Prod.fst = denseIds
  generalize hlexical : (lexicalSorted items).map Scored.id = lexicalIds
  generalize hsorted : hybridSorted arith lexicalIds denseIds items = sorted
  have hperm : sorted.Perm items := by
    rw [← hsorted]
    exact sortBy_perm _ items
  have hresults : (hybridResults arith items denseIds limit).results =
      (payloads arith (sorted.take limit)).map fun payload =>
        { payload with rrfScore := fused arith lexicalIds denseIds items.length payload.memoryId } := by
    rw [hybridResults, hlexical, hsorted]
  have hmemoryIds : ((hybridResults arith items denseIds limit).results).map Result.memoryId =
      (sorted.take limit).map Scored.id := by
    rw [hresults, List.map_map, ← (payloads_columns arith (sorted.take limit)).1]
    rfl
  have hlength : ((hybridResults arith items denseIds limit).results).length = (sorted.take limit).length := by
    have hsame := congrArg List.length hmemoryIds
    rwa [List.length_map, List.length_map] at hsame
  have hnodup : (sorted.map Scored.id).Nodup := (hperm.map Scored.id).nodup_iff.mpr hids
  -- along the sorted items the scores never increase
  have hkeys : sorted.Pairwise fun a b => fused arith lexicalIds denseIds items.length b.id ≤
      fused arith lexicalIds denseIds items.length a.id := by
    rw [← hsorted]
    refine (sortBy_pairwise _ items).imp fun hle => ?_
    exact OrderDual.toDual_le_toDual.mp (Prod.Lex.monotone_fst _ _ hle)
  refine ⟨?_, ?_, ?_, ?_, ?_, ?_⟩
  · rw [hlength, List.length_take, hperm.length_eq]
  · rw [hmemoryIds]
    exact hnodup.sublist ((List.take_sublist limit sorted).map Scored.id)
  · intro result hresult
    have hid : result.memoryId ∈ (sorted.take limit).map Scored.id := by
      rw [← hmemoryIds]
      exact List.mem_map_of_mem hresult
    obtain ⟨item, hitem, hsame⟩ := List.mem_map.mp hid
    exact ⟨item, hperm.mem_iff.mp (List.mem_of_mem_take hitem), hsame.symm⟩
  · have hscores : ((hybridResults arith items denseIds limit).results).map Result.rrfScore =
        (sorted.take limit).map fun item => fused arith lexicalIds denseIds items.length item.id := by
      have hcolumns := congrArg (List.map (fused arith lexicalIds denseIds items.length))
        (payloads_columns arith (sorted.take limit)).1
      rw [List.map_map, List.map_map] at hcolumns
      rw [hresults, List.map_map]
      exact hcolumns
    have hpairwise := (hkeys.sublist (List.take_sublist limit sorted))
    have hcolumn : (((hybridResults arith items denseIds limit).results).map Result.rrfScore).Pairwise fun x y => y ≤ x := by
      rw [hscores]
      exact List.pairwise_map.mpr hpairwise
    exact List.pairwise_map.mp hcolumn
  · rw [hlength, hresults, List.map_map]
    exact (payloads_columns arith (sorted.take limit)).2
  · intro a ha b hb hlexicalBefore hdenseBefore j hj
    have hlt : fused arith lexicalIds denseIds items.length b.id < fused arith lexicalIds denseIds items.length a.id := by
      refine fused_lt h ?_ ?_
      · rw [← hlexical]
        exact rank_lt lexicalKey Scored.id hids ha hb hlexicalBefore _
      · rw [← hdense]
        exact denseRank_lt hrows hdenseBefore
    obtain ⟨i, hi⟩ := List.mem_iff_getElem?.mp (hperm.mem_iff.mpr ha)
    rw [hmemoryIds, List.getElem?_map] at hj
    obtain ⟨b', hb', hid⟩ := Option.map_eq_some_iff.mp hj
    rw [List.getElem?_take] at hb'
    split at hb'
    case isFalse => cases hb'
    case isTrue hjlimit =>
      obtain rfl := List.inj_on_of_nodup_map hids (hperm.mem_iff.mp (List.mem_of_getElem? hb')) hb hid
      have hij : i < j := by
        rw [← hsorted] at hi hb'
        exact position_lt (sortBy_pairwise _ items) hi hb'
          (Prod.Lex.toLex_lt_toLex.mpr (Or.inl (OrderDual.toDual_lt_toDual.mpr hlt)))
      refine ⟨i, hij, ?_⟩
      rw [hmemoryIds, List.getElem?_map, List.getElem?_take, if_pos (hij.trans hjlimit), hi]
      rfl

/-! ## Searches -/

/-- The dense scores of the items with a profile. -/
def scoreIn (arith : Arith S) (db : Database F S) (query : String) (items : List (Scored F)) (profileId : Nat)
    (profile : EmbeddingProfile) : Nat → Option S :=
  memoryScore arith (vector arith query profile.dimension profile.normalization)
    (vectorRows db profileId (items.map Scored.id))

theorem lexical_ne_hybrid : "lexical" ≠ "hybrid" := by decide

/-- A ranking in the mode `hybrid` is the fusion with a profile. -/
theorem ranked_hybrid {arith : Arith S} (h : Exact arith) {db : Database F S} {query : String}
    {items : List (Scored F)} (hids : (items.map Scored.id).Nodup) {limit : Nat} {dense : Bool}
    {profile : Option (Nat × EmbeddingProfile)}
    (hmode : (ranked arith db query items limit dense profile).mode = "hybrid") :
    ∃ profileId active, profile = some (profileId, active) ∧
      HybridRanked items (scoreIn arith db query items profileId active) limit
        (ranked arith db query items limit dense profile).results := by
  have hlexical : ∀ reason, (lexicalResults arith items limit reason).mode ≠ "hybrid" := fun _ => lexical_ne_hybrid
  unfold ranked at hmode ⊢
  split at hmode
  · exact absurd hmode (hlexical _)
  · next hdense =>
    cases profile with
    | none => exact absurd hmode (hlexical _)
    | some found =>
      obtain ⟨profileId, active⟩ := found
      refine ⟨profileId, active, rfl, ?_⟩
      dsimp only at hmode ⊢
      split at hmode
      · exact absurd hmode (hlexical _)
      · next hscores =>
        rw [if_neg hdense, if_neg hscores]
        refine hybridResults_ranked h _ _ hids (fun v hv => ?_) limit
        exact (mem_vectorRows.mp hv).2.2

/-- **The results of a hybrid search**: for all items with their lexical scores, all vectors and all limits. -/
theorem hybrid_ranking (arith : Arith S) (hexact : Exact arith) (db : Database F S) (query : String)
    (items : List (Scored F)) (hids : (items.map Scored.id).Nodup) (limit : Nat) (dense : Bool)
    (profile : Option (Nat × EmbeddingProfile))
    (hmode : (ranked arith db query items limit dense profile).mode = "hybrid") :
    ∃ profileId active, profile = some (profileId, active) ∧
      HybridRanked items (scoreIn arith db query items profileId active) limit
        (ranked arith db query items limit dense profile).results := by
  obtain ⟨profileId, active, hprofile, hranked⟩ := ranked_hybrid hexact hids hmode
  exact ⟨profileId, active, hprofile, hranked⟩

/-- **`search` in the mode `hybrid`** ranks the admitted memories, up to the limit that it reports. -/
theorem search_hybrid [Json.PyFloat F] (host : Host F S) (hexact : Exact host.arith) (db : Database F S)
    (projectKey query : String) (filters : Filters) (limit : Int) (includeAudit : Bool) (found : Response F S)
    (hfound : (search host db projectKey query filters limit includeAudit).1 = .ok found)
    (hmode : found.retrievalMode = "hybrid") :
    ∃ projectId profileId active, profileOf db projectId = some (profileId, active) ∧
      HybridRanked (scored (tokens query.toList) (denseEnabled db projectId) (candidates db filters projectId))
        (scoreIn host.arith db query
          (scored (tokens query.toList) (denseEnabled db projectId) (candidates db filters projectId)) profileId active)
        found.parameters.limit found.results := by
  have hresponse : ∃ projectId, found.retrievalMode =
      (response host.arith db projectId query filters (clamp 50 limit)).retrievalMode ∧
      found.parameters.limit = clamp 50 limit ∧
      found.results = (response host.arith db projectId query filters (clamp 50 limit)).results := by
    unfold search at hfound
    split at hfound
    · cases hfound
    · split at hfound
      · cases hfound
      · next projectId _ _ =>
        cases includeAudit with
        | true =>
          cases hfound
          exact ⟨projectId, rfl, rfl, rfl⟩
        | false =>
          cases hfound
          exact ⟨projectId, rfl, rfl, rfl⟩
  obtain ⟨projectId, hsame, hlimit, hresults⟩ := hresponse
  have hids : ((scored (tokens query.toList) (denseEnabled db projectId) (candidates db filters projectId)).map
      Scored.id).Nodup := by
    have hkeys := candidates_keys_nodup db filters projectId
    have hmap : ((candidates db filters projectId).map (scoreOf (tokens query.toList))).map Scored.id =
        (candidates db filters projectId).map Prod.fst := by
      rw [List.map_map]
      rfl
    rw [← hmap] at hkeys
    exact hkeys.sublist (List.filter_sublist.map Scored.id)
  rw [hsame] at hmode
  obtain ⟨profileId, active, hprofile, hranked⟩ := ranked_hybrid hexact hids hmode
  exact ⟨projectId, profileId, active, hprofile, by rw [hlimit, hresults]; exact hranked⟩

end

/-! ## One vector -/

/-- The second of two memories has a vector, of the dimension zero. -/
def oneVector : Database Empty Rat :=
  { twoProjects with vectors := Table.empty.insert ⟨1, 0, []⟩ }

def twoItems : List (Scored Empty) :=
  [⟨0, published (some 0) "project" "Deploy" "Run the migration first", 1⟩,
    ⟨1, published (some 0) "project" "Release" "Tag the commit", 0⟩]

theorem rational_exact : Exact rationalHost.arith := ⟨fun _ => rfl, fun _ _ => rfl⟩

/-- The two memories are ranked. -/
theorem two_memories_ranked : ∃ profileId active,
    (some (0, ⟨0, "none"⟩) : Option (Nat × EmbeddingProfile)) = some (profileId, active) ∧
      HybridRanked twoItems (scoreIn rationalHost.arith oneVector "deploy" twoItems profileId active) 5
        (ranked rationalHost.arith oneVector "deploy" twoItems 5 true (some (0, ⟨0, "none"⟩))).results :=
  hybrid_ranking rationalHost.arith rational_exact oneVector "deploy" twoItems (by decide) 5 true (some (0, ⟨0, "none"⟩))
    (by decide)

end CodexMemory.Retrieval
