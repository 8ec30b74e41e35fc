import CodexMemory.Packing
import CodexMemory.Retrieval.Isolation

/-!
# The budget of a context

`build_context` adds the lines of each level by first fit, counting the section of the
task and not the headings of the levels that follow.

* `foldl_addItem`: what one level adds;
* `packed_reported_iff`: the context is within the budget and reported as it is exactly when
  the headings of the later levels fit;
* `buildContext_reported_iff`: the same for every project, task, filter and budget;
* `heading_over_budget`: a line fills the budget, and the last heading comes on top.
-/

namespace CodexMemory.Retrieval

open Packing

section

variable {F S : Type}

/-! ## Lines -/

/-- The line of a memory. -/
def lineOf (host : Host F S) (item : Result F S) : String :=
  "- " ++ item.title ++ " (type=" ++ item.memoryType ++ ")\n  " ++ host.str item.content ++ "\n"

def lines (host : Host F S) : List (Result F S) → String
  | [] => ""
  | item :: rest => lineOf host item ++ lines host rest

/-- The length of a line. -/
def lineSize (host : Host F S) (item : Result F S) : Nat := (lineOf host item).length

theorem length_lines (host : Host F S) (items : List (Result F S)) :
    (lines host items).length = (items.map (lineSize host)).sum := by
  induction items with
  | nil => rfl
  | cons item rest ih => rw [lines, String.length_append, ih, List.map_cons, List.sum_cons, lineSize]

/-- An estimate within the budget, in characters. -/
theorem estimateTokens_le {budget : Nat} (hbudget : 1 ≤ budget) (text : String) :
    estimateTokens text ≤ budget ↔ text.length ≤ 6 * budget := by
  rw [estimateTokens]
  omega

/-! ## One level -/

/-- The draft with the lines of some memories. -/
def Draft.add (host : Host F S) (draft : Draft) (items : List (Result F S)) (truncated : Bool) : Draft :=
  ⟨draft.text ++ lines host items, draft.sourceIds ++ items.map Result.memoryId, draft.truncated || truncated⟩

/-- The memories that fit behind a text, with the section of the task. -/
def admittedItems (host : Host F S) (budget : Nat) (task text : String) (items : List (Result F S)) :
    List (Result F S) :=
  firstFit (lineSize host) (6 * budget) (text.length + (taskHeading task).length) items

theorem admittedItems_sublist (host : Host F S) (budget : Nat) (task text : String) (items : List (Result F S)) :
    (admittedItems host budget task text items).Sublist items := firstFit_sublist _ items

theorem addItem_eq (host : Host F S) {budget : Nat} (hbudget : 1 ≤ budget) (task : String) (draft : Draft)
    (item : Result F S) :
    addItem host budget task draft item =
      if draft.text.length + (taskHeading task).length + lineSize host item ≤ 6 * budget then
        ⟨draft.text ++ lineOf host item, draft.sourceIds ++ [item.memoryId], draft.truncated⟩
      else { draft with truncated := true } := by
  have hfits : budget < estimateTokens (draft.text ++ lineOf host item ++ taskHeading task) ↔
      ¬ draft.text.length + (taskHeading task).length + lineSize host item ≤ 6 * budget := by
    rw [← Nat.not_le, estimateTokens_le hbudget, String.length_append, String.length_append, lineSize]
    omega
  rw [lineOf] at hfits
  rw [addItem]
  by_cases h : draft.text.length + (taskHeading task).length + lineSize host item ≤ 6 * budget
  · rw [if_neg (fun hover => hfits.mp hover h), if_pos h]
    rfl
  · rw [if_pos (hfits.mpr h), if_neg h]

/-- **The lines of a level are added by first fit.** -/
theorem foldl_addItem (host : Host F S) {budget : Nat} (hbudget : 1 ≤ budget) (task : String)
    (items : List (Result F S)) (draft : Draft) :
    ∃ truncated, items.foldl (addItem host budget task) draft =
      draft.add host (admittedItems host budget task draft.text items) truncated := by
  induction items generalizing draft with
  | nil =>
    refine ⟨false, ?_⟩
    simp [Draft.add, admittedItems, firstFit, lines]
  | cons item rest ih =>
    rw [List.foldl_cons, addItem_eq host hbudget]
    by_cases h : draft.text.length + (taskHeading task).length + lineSize host item ≤ 6 * budget
    · rw [if_pos h]
      obtain ⟨truncated, hrest⟩ := ih ⟨draft.text ++ lineOf host item, draft.sourceIds ++ [item.memoryId], draft.truncated⟩
      have hroom : (draft.text ++ lineOf host item).length + (taskHeading task).length =
          draft.text.length + (taskHeading task).length + lineSize host item := by
        rw [String.length_append, lineSize]
        omega
      refine ⟨truncated, ?_⟩
      rw [hrest, Draft.add, Draft.add, admittedItems, admittedItems, firstFit_cons_pos h, hroom, lines, List.map_cons,
        String.append_assoc, List.append_assoc, List.singleton_append]
    · rw [if_neg h]
      obtain ⟨truncated, hrest⟩ := ih { draft with truncated := true }
      refine ⟨true, ?_⟩
      rw [hrest, Draft.add, Draft.add, admittedItems, admittedItems, firstFit_cons_neg h, Bool.or_true, Bool.true_or]

/-- The memories of a level. -/
def ofLevel (results : List (Result F S)) (level : String) : List (Result F S) :=
  results.filter fun item => item.level = level

/-! ## The whole text -/

def prefixText (projectKey : String) : String :=
  "[Project Context]\nproject_id: " ++ projectKey ++ "\n\n[Error Memory - L3]\n"

def knowledgeHeading : String := "\n\n[Knowledge Base - L2]\n"

def workingHeading : String := "\n\n[Working Memory - L1]\n"

/-- The context without memories. -/
def emptyContext (projectKey task : String) : String :=
  prefixText projectKey ++ knowledgeHeading ++ workingHeading ++ taskHeading task

/-- The text and the ids are those of some memories of each level. -/
structure Listed (host : Host F S) (projectKey task : String) (results : List (Result F S)) (context : Context)
    (errors knowledge working : List (Result F S)) : Prop where
  fromErrors : errors.Sublist (ofLevel results "L3")
  fromKnowledge : knowledge.Sublist (ofLevel results "L2")
  fromWorking : working.Sublist (ofLevel results "L1")
  text : context.context = prefixText projectKey ++ lines host errors ++ knowledgeHeading ++ lines host knowledge ++
    workingHeading ++ lines host working ++ taskHeading task
  ids : context.sourceIds = (errors ++ knowledge ++ working).map Result.memoryId

/-- **What is claimed of a context.** -/
structure Reported (host : Host F S) (projectKey task : String) (results : List (Result F S)) (context : Context) :
    Prop where
  within : estimateTokens (emptyContext projectKey task) ≤ context.limitTokens →
    estimateTokens context.context ≤ context.limitTokens
  used : context.usedTokens = estimateTokens context.context
  listed : ∃ errors knowledge working, Listed host projectKey task results context errors knowledge working
  complete : context.truncated = false → ∀ item ∈ results, item.memoryId ∈ context.sourceIds

/-- The headings of L2 and L1 fit behind the lines that are taken before them, with the section of the task. -/
def HeadingsFit (host : Host F S) (projectKey task : String) (budget : Nat) (results : List (Result F S)) : Prop :=
  filled (lineSize host) (6 * budget)
    (filled (lineSize host) (6 * budget) ((prefixText projectKey).length + (taskHeading task).length)
      (ofLevel results "L3") + knowledgeHeading.length) (ofLevel results "L2") + workingHeading.length ≤ 6 * budget

theorem length_add_admitted (host : Host F S) (budget : Nat) (task text : String) (items : List (Result F S)) :
    (text ++ lines host (admittedItems host budget task text items)).length + (taskHeading task).length =
      filled (lineSize host) (6 * budget) (text.length + (taskHeading task).length) items := by
  rw [String.length_append, length_lines, filled, admittedItems]
  omega

theorem addLevel_eq (host : Host F S) {budget : Nat} (hbudget : 1 ≤ budget) (task : String)
    (results : List (Result F S)) (draft : Draft) (level heading : String) :
    ∃ truncated, addLevel host budget task results draft level heading =
      Draft.add host ⟨draft.text ++ heading, draft.sourceIds, draft.truncated⟩
        (admittedItems host budget task (draft.text ++ heading) (ofLevel results level)) truncated :=
  foldl_addItem host hbudget task (ofLevel results level) { draft with text := draft.text ++ heading }

/-- The context lists the memories that are taken, and its text is within the budget exactly when the headings
fit. -/
theorem packed_listed (host : Host F S) (projectKey task : String) {budget : Nat} (hbudget : 1 ≤ budget)
    (found : Response F S) :
    ∃ errors knowledge working,
      Listed host projectKey task found.results (packed host projectKey task budget found) errors knowledge working ∧
      ((packed host projectKey task budget found).context.length ≤ 6 * budget ↔
        HeadingsFit host projectKey task budget found.results) := by
  obtain ⟨cut₃, h₃⟩ := addLevel_eq host hbudget task found.results ⟨prefixText projectKey, [], false⟩ "L3" ""
  obtain ⟨cut₂, h₂⟩ := addLevel_eq host hbudget task found.results
    (addLevel host budget task found.results ⟨prefixText projectKey, [], false⟩ "L3" "") "L2" knowledgeHeading
  obtain ⟨cut₁, h₁⟩ := addLevel_eq host hbudget task found.results
    (addLevel host budget task found.results
      (addLevel host budget task found.results ⟨prefixText projectKey, [], false⟩ "L3" "") "L2" knowledgeHeading)
    "L1" workingHeading
  have hpacked : (packed host projectKey task budget found).context =
        (addLevel host budget task found.results (addLevel host budget task found.results
          (addLevel host budget task found.results ⟨prefixText projectKey, [], false⟩ "L3" "") "L2" knowledgeHeading)
          "L1" workingHeading).text ++ taskHeading task ∧
      (packed host projectKey task budget found).sourceIds =
        (addLevel host budget task found.results (addLevel host budget task found.results
          (addLevel host budget task found.results ⟨prefixText projectKey, [], false⟩ "L3" "") "L2" knowledgeHeading)
          "L1" workingHeading).sourceIds := ⟨rfl, rfl⟩
  rw [h₁, h₂, h₃] at hpacked
  simp only [Draft.add, String.append_empty, List.nil_append] at hpacked
  obtain ⟨htext, hids⟩ := hpacked
  refine ⟨_, _, _, ⟨admittedItems_sublist host budget task _ _, admittedItems_sublist host budget task _ _,
    admittedItems_sublist host budget task _ _, htext, ?_⟩, ?_⟩
  · rw [hids, List.map_append, List.map_append]
  · have hlength := fun text : String => @String.length_append text (taskHeading task)
    rw [htext, hlength, length_add_admitted, filled_le_iff, String.length_append, Nat.add_right_comm,
      length_add_admitted, String.length_append, Nat.add_right_comm _ knowledgeHeading.length, length_add_admitted]
    exact Iff.rfl

/-- The retrieved memories have the three levels. -/
def Layered (results : List (Result F S)) : Prop := ∀ item ∈ results, item.level ∈ ["L3", "L2", "L1"]

/-- A context that lists as many memories as are retrieved lists all of them. -/
theorem Listed.complete {host : Host F S} {projectKey task : String} {results : List (Result F S)} {context : Context}
    {errors knowledge working : List (Result F S)}
    (h : Listed host projectKey task results context errors knowledge working) (hlayered : Layered results)
    (hall : (["L3", "L2", "L1"].flatMap (ofLevel results)).length ≤ context.sourceIds.length) :
    ∀ item ∈ results, item.memoryId ∈ context.sourceIds := by
  have herrors := h.fromErrors.length_le
  have hknowledge := h.fromKnowledge.length_le
  have hworking := h.fromWorking.length_le
  rw [h.ids, List.length_map, List.length_append, List.length_append] at hall
  simp only [List.flatMap_cons, List.flatMap_nil, List.length_append, List.length_nil] at hall
  have hL3 := h.fromErrors.eq_of_length (by omega)
  have hL2 := h.fromKnowledge.eq_of_length (by omega)
  have hL1 := h.fromWorking.eq_of_length (by omega)
  intro item hitem
  have hlevel : ∀ level, item.level = level → item ∈ ofLevel results level := fun level heq =>
    List.mem_filter.mpr ⟨hitem, by simpa using heq⟩
  rw [h.ids, hL3, hL2, hL1]
  refine List.mem_map_of_mem ?_
  have hlevels := hlayered item hitem
  simp only [List.mem_cons, List.not_mem_nil, or_false] at hlevels
  rcases hlevels with heq | heq | heq
  · exact List.mem_append_left _ (List.mem_append_left _ (hlevel _ heq))
  · exact List.mem_append_left _ (List.mem_append_right _ (hlevel _ heq))
  · exact List.mem_append_right _ (hlevel _ heq)

/-- **A context is within the budget and reported as it is exactly when the headings fit.** -/
theorem packed_reported_iff (host : Host F S) (projectKey task : String) {budget : Nat} (hbudget : 1 ≤ budget)
    (found : Response F S) (hlayered : Layered found.results) :
    Reported host projectKey task found.results (packed host projectKey task budget found) ↔
      HeadingsFit host projectKey task budget found.results := by
  obtain ⟨errors, knowledge, working, hlisted, hfits⟩ := packed_listed host projectKey task hbudget found
  have hestimate := estimateTokens_le hbudget (packed host projectKey task budget found).context
  have hused : (packed host projectKey task budget found).usedTokens =
      min (estimateTokens (packed host projectKey task budget found).context) budget := rfl
  constructor
  · intro h
    have hmin := hused.symm.trans h.used
    exact hfits.mp (hestimate.mp (min_eq_left_iff.mp hmin))
  · intro h
    have hwithin := hestimate.mpr (hfits.mpr h)
    refine ⟨fun _ => hwithin, hused.trans (min_eq_left hwithin), ⟨errors, knowledge, working, hlisted⟩, ?_⟩
    intro hwhole
    have hcount : (["L3", "L2", "L1"].flatMap (ofLevel found.results)).length ≤
        (packed host projectKey task budget found).sourceIds.length := by
      have hboth := (Bool.or_eq_false_iff.mp hwhole).2
      exact Nat.not_lt.mp (of_decide_eq_false hboth)
    exact hlisted.complete hlayered hcount

/-! ## What is retrieved -/

/-- A result has the level of a memory. -/
theorem level_of_payloads {arith : Arith S} {items : List (Scored F)} {item : Result F S}
    (h : item ∈ payloads arith items) : ∃ scored ∈ items, item.level = scored.row.level := by
  obtain ⟨⟨scored, rank⟩, hmem, rfl⟩ := List.mem_map.mp h
  exact ⟨scored, List.fst_mem_of_mem_zipIdx hmem, rfl⟩

end

section

variable {F S : Type} [LinearOrder S] [Json.PyFloat F]

omit [Json.PyFloat F] in
theorem level_of_ranked {arith : Arith S} {db : Database F S} {query : String} {items : List (Scored F)} {limit : Nat}
    {dense : Bool} {profile : Option (Nat × EmbeddingProfile)} {item : Result F S}
    (h : item ∈ (ranked arith db query items limit dense profile).results) :
    ∃ scored ∈ items, item.level = scored.row.level := by
  have hlexical : ∀ reason, item ∈ (lexicalResults arith items limit reason).results →
      ∃ scored ∈ items, item.level = scored.row.level := by
    intro reason hmem
    obtain ⟨scored, hscored, hlevel⟩ := level_of_payloads hmem
    exact ⟨scored, mem_sortBy.mp (List.mem_of_mem_take hscored), hlevel⟩
  unfold ranked at h
  split at h
  · exact hlexical _ h
  · split at h
    · exact hlexical _ h
    · dsimp only at h
      split at h
      · exact hlexical _ h
      · obtain ⟨payload, hpayload, rfl⟩ := List.mem_map.mp h
        obtain ⟨scored, hscored, hlevel⟩ := level_of_payloads hpayload
        exact ⟨scored, mem_sortBy.mp (List.mem_of_mem_take hscored), hlevel⟩

/-- Every retrieved memory is one of the table. -/
theorem level_of_search {host : Host F S} {db : Database F S} {projectKey query : String} {filters : Filters}
    {limit : Int} {found : Response F S} (h : (search host db projectKey query filters limit false).1 = .ok found) :
    ∀ item ∈ found.results, ∃ r ∈ db.memories.rows, item.level = r.2.level := by
  intro item hitem
  unfold search at h
  split at h
  · cases h
  · split at h
    · cases h
    · cases h
      obtain ⟨scored, hscored, hlevel⟩ := level_of_ranked hitem
      obtain ⟨r, hr, rfl⟩ := List.mem_map.mp (List.mem_of_mem_filter hscored)
      exact ⟨r, (mem_candidates.mp hr).1, hlevel⟩

/-- **Every context is within its budget and reported as it is exactly when the headings fit**, for the memories that
the search retrieves. -/
theorem buildContext_reported_iff (host : Host F S) (db : Database F S)
    (hlevels : ∀ r ∈ db.memories.rows, r.2.level ∈ ["L3", "L2", "L1"]) (projectKey task : String) (filters : Filters)
    (limit budget : Int) (found : Response F S)
    (hfound : (search host db projectKey task filters limit false).1 = .ok found) :
    (∃ context, buildContext host db projectKey task filters limit budget = .ok context ∧
      Reported host projectKey task found.results context) ↔
    HeadingsFit host projectKey task (clamp 12000 budget) found.results := by
  have hlayered : Layered found.results := by
    intro item hitem
    obtain ⟨r, hr, hlevel⟩ := level_of_search hfound item hitem
    rw [hlevel]
    exact hlevels r hr
  have hbudget : 1 ≤ clamp 12000 budget := by
    rw [clamp]
    omega
  have hcontext : buildContext host db projectKey task filters limit budget =
      .ok (packed host projectKey task (clamp 12000 budget) found) := by
    rw [buildContext, hfound]
    rfl
  rw [← packed_reported_iff host projectKey task hbudget found hlayered, hcontext]
  constructor
  · rintro ⟨context, hok, hreported⟩
    cases hok
    exact hreported
  · exact fun h => ⟨_, rfl, h⟩

end

/-! ## A line that fills the budget -/

instance {F S : Type} (host : Host F S) (projectKey task : String) (budget : Nat) (results : List (Result F S)) :
    Decidable (HeadingsFit host projectKey task budget results) := inferInstanceAs (Decidable (_ ≤ _))

theorem twoProjects_levels : ∀ r ∈ twoProjects.memories.rows, r.2.level ∈ ["L3", "L2", "L1"] := by decide

/-- With the usual budget the context of the memory is reported as it is. -/
theorem usual_budget_reported : ∃ found,
    (search rationalHost twoProjects "alpha" "deploy" {} 8 false).1 = .ok found ∧
      ∃ context, buildContext rationalHost twoProjects "alpha" "deploy" {} 8 4000 = .ok context ∧
        Reported rationalHost "alpha" "deploy" found.results context := by
  have hfits : (search rationalHost twoProjects "alpha" "deploy" {} 8 false).1.toOption.map (fun found =>
      decide (HeadingsFit rationalHost "alpha" "deploy" (clamp 12000 4000) found.results)) = some true := by
    decide
  cases hfound : (search rationalHost twoProjects "alpha" "deploy" {} 8 false).1 with
  | error e =>
    rw [hfound] at hfits
    cases hfits
  | ok found =>
    rw [hfound] at hfits
    refine ⟨found, rfl, (buildContext_reported_iff rationalHost twoProjects twoProjects_levels "alpha" "deploy" {} 8 4000
      found hfound).mpr ?_⟩
    exact of_decide_eq_true (Option.some.inj hfits)

/-- **With a budget of 25 tokens the line is taken and the last heading makes 29 of them, reported as 25.** -/
theorem heading_over_budget : ¬ ∀ (db : Database Empty Rat) (projectKey task : String) (filters : Filters)
    (limit budget : Int) (context : Context) (found : Response Empty Rat),
    (∀ r ∈ db.memories.rows, r.2.level ∈ ["L3", "L2", "L1"]) →
    (search rationalHost db projectKey task filters limit false).1 = .ok found →
    buildContext rationalHost db projectKey task filters limit budget = .ok context →
    Reported rationalHost projectKey task found.results context := by
  intro h
  have hover : (buildContext rationalHost twoProjects "alpha" "deploy" {} 8 25).toOption.map (fun context =>
      (estimateTokens context.context, context.limitTokens, context.usedTokens)) = some (29, 25, 25) := by
    decide +kernel
  cases hfound : (search rationalHost twoProjects "alpha" "deploy" {} 8 false).1 with
  | error e =>
    rw [buildContext, hfound] at hover
    cases hover
  | ok found =>
    cases hcontext : buildContext rationalHost twoProjects "alpha" "deploy" {} 8 25 with
    | error e =>
      rw [hcontext] at hover
      cases hover
    | ok context =>
      rw [hcontext] at hover
      obtain ⟨hestimate, hrest⟩ := Prod.mk.inj (Option.some.inj hover)
      have hused := (h twoProjects "alpha" "deploy" {} 8 25 context found twoProjects_levels hfound hcontext).used
      rw [hestimate, (Prod.mk.inj hrest).2] at hused
      cases hused

end CodexMemory.Retrieval
