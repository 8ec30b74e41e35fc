import CodexMemory.Candidates.Citations
import CodexMemory.Memories.Reflection
import CodexMemory.Memories.Scopes

/-!
# Knowledge over runs

Messages are appended, candidates are published, L1 memories are created and the project is
reflected, in any order.

* `inv_run`: in every state a text has at most one knowledge that a reflection has derived, and
  its sources are messages of L1 memories with the text;
* `reflection_of_run`: what a reflection does after a run, and what later operations leave;
* `third_session_not_cited`: a session that comes later is not added to the knowledge.
-/

namespace CodexMemory.Memories

open Candidates (Level Db Memory Message MemorySource Error addSources Cites)
open Trace

section

variable {F : Type}

/-! ## Operations -/

/-- `append_message` of a message with a new event key. -/
def appendMessage (s : System F) (sessionKey : String) (message : Message) : System F :=
  match s.candidates.projects.get? message.projectId with
  | none => s
  | some _ =>
    { s with
      candidates := { s.candidates with messages := s.candidates.messages.insert message }
      sessions := fun messageId =>
        if messageId = s.candidates.messages.nextId then some sessionKey else s.sessions messageId }

inductive Operation (F : Type)
  | appendMessage (sessionKey : String) (message : Message)
  | call (call : Call F)

def operate [Json.PyFloat F] (host : Host F) (s : System F) : Operation F → Unit × System F
  | .appendMessage sessionKey message => ((), appendMessage s sessionKey message)
  | .call call => step host s call

/-- Nothing has been stored yet. -/
structure Initial (s : System F) : Prop where
  messages : s.candidates.messages.rows = []
  evidence : s.candidates.evidence.rows = []
  memories : s.candidates.memories.rows = []
  sources : s.candidates.memorySources.rows = []
  sessions : ∀ messageId, s.sessions messageId = none

/-! ## The invariant -/

/-- What every state of a run satisfies: the rows are linked, and the knowledge of a text is one and stems from
several sessions. -/
structure Inv (host : Host F) (s : System F) : Prop where
  linked : Linked s.sessions s.candidates
  messages : ∀ r ∈ s.candidates.messages.rows, (s.sessions r.1).isSome
  later : ∀ messageId, s.candidates.messages.nextId ≤ messageId → s.sessions messageId = none
  evidence : ∀ r ∈ s.candidates.evidence.rows, (s.sessions r.2.messageId).isSome
  once : ∀ projectId text memoryId memoryId', Derived host s.candidates projectId text memoryId →
    Derived host s.candidates projectId text memoryId' → memoryId = memoryId'
  several : ∀ projectId text memoryId, Derived host s.candidates projectId text memoryId →
    SeveralSessions host s.sessions s.candidates projectId text
  cited : ∀ projectId text memoryId, Derived host s.candidates projectId text memoryId →
    ∀ messageId ∈ sourceMessages s.candidates memoryId, TextMessage host s.candidates projectId text messageId

theorem inv_initial (host : Host F) {s : System F} (h : Initial s) : Inv host s where
  linked r hr := by
    rw [h.sources] at hr
    cases hr
  messages r hr := by
    rw [h.messages] at hr
    cases hr
  later messageId _ := h.sessions messageId
  evidence r hr := by
    rw [h.evidence] at hr
    cases hr
  once projectId text memoryId memoryId' hderived := by
    obtain ⟨memory, hmemory, -⟩ := hderived
    rw [h.memories] at hmemory
    cases hmemory
  several projectId text memoryId hderived := by
    obtain ⟨memory, hmemory, -⟩ := hderived
    rw [h.memories] at hmemory
    cases hmemory
  cited projectId text memoryId hderived := by
    obtain ⟨memory, hmemory, -⟩ := hderived
    rw [h.memories] at hmemory
    cases hmemory

/-- Knowledge under an old key was there before. -/
theorem Grows.derived {host : Host F} {db db' : Db F} {cited : Nat → Prop} (h : Grows db db' cited) {projectId : Nat}
    {text : String} {memoryId : Nat} (hderived : Derived host db' projectId text memoryId)
    (hlt : memoryId < db.memories.nextId) : Derived host db projectId text memoryId := by
  obtain ⟨memory, hmemory, htext, hactive⟩ := hderived
  obtain ⟨memory', hmemory', hsame, hkept⟩ := h.old _ hmemory hlt
  exact ⟨memory', hmemory', hsame.hasText.mp htext, hkept hactive⟩

theorem Derived.hasL2 {host : Host F} {db : Db F} {projectId : Nat} {text : String} {memoryId : Nat}
    (h : Derived host db projectId text memoryId) : HasL2 host db projectId text := by
  obtain ⟨memory, hmemory, htext, -⟩ := h
  exact ⟨_, hmemory, htext⟩

theorem Linked.textMessage {host : Host F} {sessions : Nat → Option String} {db : Db F} (h : Linked sessions db)
    {projectId : Nat} {text : String} {messageId : Nat} (hmessage : TextMessage host db projectId text messageId) :
    (sessions messageId).isSome := by
  obtain ⟨r, -, -, hsource⟩ := hmessage
  obtain ⟨source, hmem, -, rfl⟩ := mem_sourceMessages.mp hsource
  exact (h source hmem).2

/-- The sessions of a text stay several. -/
theorem Grows.several {host : Host F} {s s' : System F} {cited : Nat → Prop} (h : Grows s.candidates s'.candidates cited)
    (hlinked : Linked s.sessions s.candidates)
    (hsessions : ∀ messageId, (s.sessions messageId).isSome → s'.sessions messageId = s.sessions messageId)
    {projectId : Nat} {text : String} (hseveral : SeveralSessions host s.sessions s.candidates projectId text) :
    SeveralSessions host s'.sessions s'.candidates projectId text := by
  obtain ⟨a, b, ha, hb, hne⟩ := hseveral
  refine ⟨a, b, h.textMessage ha, h.textMessage hb, ?_⟩
  rw [hsessions a (hlinked.textMessage ha), hsessions b (hlinked.textMessage hb)]
  exact hne

/-- **An operation that derives no knowledge keeps the invariant.** -/
theorem Inv.grows {host : Host F} {s s' : System F} (h : Inv host s)
    (hgrows : Grows s.candidates s'.candidates fun messageId => (s'.sessions messageId).isSome)
    (hfresh : ∀ r ∈ s'.candidates.memories.rows, s.candidates.memories.nextId ≤ r.1 → r.2.level = .L2 →
      r.2.status ≠ "active")
    (hsessions : ∀ messageId, (s.sessions messageId).isSome → s'.sessions messageId = s.sessions messageId)
    (hmessages : ∀ r ∈ s'.candidates.messages.rows, (s'.sessions r.1).isSome)
    (hlater : ∀ messageId, s'.candidates.messages.nextId ≤ messageId → s'.sessions messageId = none)
    (hevidence : ∀ r ∈ s'.candidates.evidence.rows, (s'.sessions r.2.messageId).isSome) : Inv host s' := by
  have hold : ∀ {projectId text memoryId}, Derived host s'.candidates projectId text memoryId →
      memoryId < s.candidates.memories.nextId ∧ Derived host s.candidates projectId text memoryId := by
    intro projectId text memoryId hderived
    have hlt : memoryId < s.candidates.memories.nextId := by
      by_contra hge
      obtain ⟨memory, hmemory, htext, hactive⟩ := hderived
      exact hfresh _ hmemory (Nat.not_lt.mp hge) htext.2.1 hactive
    exact ⟨hlt, hgrows.derived hderived hlt⟩
  refine ⟨hgrows.linked ?_ fun _ hsome => hsome, hmessages, hlater, hevidence, ?_, ?_, ?_⟩
  · intro r hr
    obtain ⟨hlt, hsome⟩ := h.linked r hr
    exact ⟨hlt, by rw [hsessions _ hsome]; exact hsome⟩
  · intro projectId text memoryId memoryId' hderived hderived'
    exact h.once projectId text memoryId memoryId' (hold hderived).2 (hold hderived').2
  · intro projectId text memoryId hderived
    exact hgrows.several h.linked hsessions (h.several projectId text memoryId (hold hderived).2)
  · intro projectId text memoryId hderived messageId hmessage
    obtain ⟨hlt, hderived⟩ := hold hderived
    rw [hgrows.sourceMessages_eq hlt] at hmessage
    exact hgrows.textMessage (h.cited projectId text memoryId hderived messageId hmessage)

/-- **A reflection keeps the invariant**: it derives knowledge only for texts that have no L2 memory. -/
theorem Inv.reflected {host : Host F} {projectId : Nat} {s s' : System F} (h : Inv host s)
    (hr : Reflected host projectId s s') : Inv host s' := by
  have hsessions : s'.sessions = s.sessions := by rw [hr.frame]
  have hmessages : s'.candidates.messages = s.candidates.messages := by rw [hr.frame]
  have hevidence : s'.candidates.evidence = s.candidates.evidence := by rw [hr.frame]
  have hnew : ∀ {owner text memoryId}, Derived host s'.candidates owner text memoryId →
      s.candidates.memories.nextId ≤ memoryId → owner = projectId := by
    intro owner text memoryId hderived hge
    obtain ⟨memory, hmemory, htext, -⟩ := hderived
    exact Option.some.inj (htext.1.symm.trans (hr.owner _ hmemory hge))
  have hapart : ∀ {owner text memoryId memoryId'}, Derived host s'.candidates owner text memoryId →
      Derived host s'.candidates owner text memoryId' → memoryId < s.candidates.memories.nextId →
        ¬ s.candidates.memories.nextId ≤ memoryId' := by
    intro owner text memoryId memoryId' hderived hderived' hlt hge
    obtain rfl := hnew hderived' hge
    exact (hr.derived text memoryId' hderived' hge).1 (hr.grows.derived hderived hlt).hasL2
  refine ⟨?_, ?_, ?_, ?_, ?_, ?_, ?_⟩
  · rw [hsessions]
    exact hr.grows.linked h.linked fun _ hsome => hsome
  · rw [hsessions, hmessages]
    exact h.messages
  · rw [hsessions, hmessages]
    exact h.later
  · rw [hsessions, hevidence]
    exact h.evidence
  · intro owner text memoryId memoryId' hderived hderived'
    by_cases hlt : memoryId < s.candidates.memories.nextId
    · have hlt' := Nat.not_le.mp (hapart hderived hderived' hlt)
      exact h.once owner text memoryId memoryId' (hr.grows.derived hderived hlt) (hr.grows.derived hderived' hlt')
    · have hge := Nat.not_lt.mp hlt
      have hge' : s.candidates.memories.nextId ≤ memoryId' :=
        Nat.not_lt.mp fun hlt' => hapart hderived' hderived hlt' hge
      obtain rfl := hnew hderived hge
      exact hr.unique text memoryId memoryId' hderived hderived' hge hge'
  · intro owner text memoryId hderived
    by_cases hlt : memoryId < s.candidates.memories.nextId
    · exact hr.grows.several h.linked (fun _ _ => by rw [hsessions]) (h.several owner text memoryId
        (hr.grows.derived hderived hlt))
    · have hge := Nat.not_lt.mp hlt
      obtain rfl := hnew hderived hge
      exact (hr.derived text memoryId hderived hge).2.1
  · intro owner text memoryId hderived messageId hmessage
    by_cases hlt : memoryId < s.candidates.memories.nextId
    · rw [hr.grows.sourceMessages_eq hlt] at hmessage
      exact hr.grows.textMessage (h.cited owner text memoryId (hr.grows.derived hderived hlt) messageId hmessage)
    · have hge := Nat.not_lt.mp hlt
      obtain rfl := hnew hderived hge
      exact ((hr.derived text memoryId hderived hge).2.2.2 messageId).mp hmessage

/-! ## One operation -/

/-- The tables grow and the invariant holds again. -/
def Advances (host : Host F) (s s' : System F) : Prop :=
  (Grows s.candidates s'.candidates fun messageId => (s'.sessions messageId).isSome) ∧ Inv host s'

/-- An operation on the memories. -/
theorem Inv.advances {host : Host F} {s s' : System F} (h : Inv host s)
    (hgrows : Grows s.candidates s'.candidates fun messageId => (s.sessions messageId).isSome)
    (hfresh : ∀ r ∈ s'.candidates.memories.rows, s.candidates.memories.nextId ≤ r.1 → r.2.level = .L2 →
      r.2.status ≠ "active")
    (hsessions : s'.sessions = s.sessions) (hmessages : s'.candidates.messages = s.candidates.messages)
    (hevidence : ∀ r ∈ s'.candidates.evidence.rows, (s.sessions r.2.messageId).isSome) : Advances host s s' := by
  rw [Advances, hsessions]
  refine ⟨hgrows, h.grows ?_ hfresh (fun _ _ => by rw [hsessions]) ?_ ?_ ?_⟩
  · rw [hsessions]
    exact hgrows
  · rw [hsessions, hmessages]
    exact h.messages
  · rw [hsessions, hmessages]
    exact h.later
  · rw [hsessions]
    exact hevidence

theorem Inv.unchanged {host : Host F} {s s' : System F} (h : Inv host s) (hsessions : s'.sessions = s.sessions)
    (hmessages : s'.candidates.messages = s.candidates.messages)
    (hevidence : ∀ r ∈ s'.candidates.evidence.rows, (s.sessions r.2.messageId).isSome)
    (hmemories : s'.candidates.memories = s.candidates.memories)
    (hsources : s'.candidates.memorySources = s.candidates.memorySources) : Advances host s s' := by
  refine h.advances (Grows.of_eq _ hmemories hsources) (fun r hr hge => ?_) hsessions hmessages hevidence
  rw [hmemories] at hr
  exact absurd (s.candidates.memories.below r hr) (Nat.not_lt.mpr hge)

/-- A memory is inserted that is no knowledge. -/
theorem Inv.inserted {host : Host F} {s s' : System F} (h : Inv host s) {memory : Memory F} {messageIds : List Nat}
    (hmemories : s'.candidates.memories = s.candidates.memories.insert memory)
    (hsources : s'.candidates.memorySources =
      addSources s.candidates.memories.nextId messageIds s.candidates.memorySources)
    (hcited : ∀ messageId ∈ messageIds, (s.sessions messageId).isSome)
    (hplain : memory.level = .L2 → memory.status ≠ "active") (hsessions : s'.sessions = s.sessions)
    (hmessages : s'.candidates.messages = s.candidates.messages)
    (hevidence : s'.candidates.evidence = s.candidates.evidence) : Advances host s s' := by
  refine h.advances (Grows.of_insert hmemories hsources hcited) (fun r hr hge => ?_) hsessions hmessages ?_
  · rw [hmemories] at hr
    rcases List.mem_append.mp hr with hr | hr
    · exact absurd (s.candidates.memories.below r hr) (Nat.not_lt.mpr hge)
    · obtain rfl := List.mem_singleton.mp hr
      exact hplain
  · rw [hevidence]
    exact h.evidence

/-- A memory is marked, and does not become active. -/
theorem Grows.of_modify {db db' : Db F} (cited : Nat → Prop) {memoryId : Nat} {f : Memory F → Memory F}
    (hf : ∀ memory, SameText memory (f memory) ∧ ((f memory).status = "active" → memory.status = "active"))
    (hmemories : db'.memories = db.memories.modify memoryId f) (hsources : db'.memorySources = db.memorySources) :
    Grows db db' cited where
  kept r hr := by
    rw [hmemories]
    refine ⟨if r.1 = memoryId then f r.2 else r.2, List.mem_map_of_mem hr, ?_⟩
    split
    · exact (hf r.2).1
    · exact .refl _
  old r hr _ := by
    rw [hmemories] at hr
    obtain ⟨q, hq, rfl⟩ := List.mem_map.mp hr
    refine ⟨q.2, hq, ?_⟩
    dsimp only
    split
    · exact hf q.2
    · exact ⟨.refl _, id⟩
  next := by rw [hmemories]; exact le_rfl
  sources := ⟨[], by rw [hsources, List.append_nil], by simp⟩

theorem Inv.modified {host : Host F} {s s' : System F} (h : Inv host s) {memoryId : Nat} {f : Memory F → Memory F}
    (hf : ∀ memory, SameText memory (f memory) ∧ ((f memory).status = "active" → memory.status = "active"))
    (hmemories : s'.candidates.memories = s.candidates.memories.modify memoryId f)
    (hsources : s'.candidates.memorySources = s.candidates.memorySources) (hsessions : s'.sessions = s.sessions)
    (hmessages : s'.candidates.messages = s.candidates.messages)
    (hevidence : ∀ r ∈ s'.candidates.evidence.rows, (s.sessions r.2.messageId).isSome) : Advances host s s' := by
  refine h.advances (Grows.of_modify _ hf hmemories hsources) (fun r hr hge => ?_) hsessions hmessages hevidence
  have hlt := s'.candidates.memories.below r hr
  rw [hmemories] at hlt
  exact absurd hlt (Nat.not_lt.mpr hge)

theorem advances_appendMessage {host : Host F} {s : System F} (h : Inv host s) (sessionKey : String)
    (message : Message) : Advances host s (appendMessage s sessionKey message) := by
  unfold appendMessage
  split
  · exact h.unchanged rfl rfl h.evidence rfl rfl
  · have hsessions : ∀ messageId, (s.sessions messageId).isSome →
        (if messageId = s.candidates.messages.nextId then some sessionKey else s.sessions messageId) =
          s.sessions messageId := by
      intro messageId hsome
      refine if_neg fun heq => ?_
      rw [heq, h.later _ le_rfl] at hsome
      cases hsome
    have hkept : ∀ messageId, (s.sessions messageId).isSome →
        (if messageId = s.candidates.messages.nextId then some sessionKey else s.sessions messageId).isSome := by
      intro messageId hsome
      rw [hsessions messageId hsome]
      exact hsome
    refine ⟨Grows.of_eq _ rfl rfl, h.grows (Grows.of_eq _ rfl rfl) ?_ hsessions ?_ ?_ ?_⟩
    · exact fun r hr hge => absurd (s.candidates.memories.below r hr) (Nat.not_lt.mpr hge)
    · intro r hr
      rcases List.mem_append.mp hr with hr | hr
      · exact hkept _ (h.messages r hr)
      · obtain rfl := List.mem_singleton.mp hr
        show (if s.candidates.messages.nextId = s.candidates.messages.nextId then some sessionKey
          else s.sessions s.candidates.messages.nextId).isSome = true
        rw [if_pos rfl]
        rfl
    · intro messageId hge
      have hlater : s.candidates.messages.nextId + 1 ≤ messageId := hge
      show (if messageId = s.candidates.messages.nextId then some sessionKey else s.sessions messageId) = none
      rw [if_neg (by omega)]
      exact h.later messageId (by omega)
    · exact fun r hr => hkept _ (h.evidence r hr)

theorem published_ne_active : "published" ≠ "active" := by decide

theorem deprecated_ne_active : "deprecated" ≠ "active" := by decide

theorem candidate_ne_active : "candidate" ≠ "active" := by decide

theorem L1_ne_L2 : Level.L1 ≠ .L2 := by decide

theorem advances_candidates [Json.PyFloat F] {host : Host F} {s : System F} (h : Inv host s) (call : Candidates.Call F) :
    Advances host s { s with candidates := (Candidates.step host.candidates s.candidates call).2 } := by
  have hevidence : ∀ {db' : Db F}, Cites s.candidates db' →
      ∀ r ∈ db'.evidence.rows, (s.sessions r.2.messageId).isSome := by
    intro db' hcites r hr
    rcases hcites.evidence r hr with hr | hsome
    · exact h.evidence r hr
    · obtain ⟨message, hmessage⟩ := Option.isSome_iff_exists.mp hsome
      exact h.messages _ ((Table.get?_eq_some_iff _ _ _).mp hmessage)
  have hcites : ∀ {db' : Db F}, Cites s.candidates db' → Advances host s { s with candidates := db' } := by
    intro db' hcites
    rcases hcites.memories with hsame | ⟨memoryId, hmodify⟩
    · exact h.unchanged rfl hcites.messages (hevidence hcites) hsame hcites.sources
    · exact @Inv.modified _ host s _ h memoryId Candidates.supersededMemory (fun _ => ⟨⟨rfl, rfl, rfl⟩, id⟩) hmodify
        hcites.sources rfl hcites.messages (hevidence hcites)
  cases hcall : call.isPublish with
  | false => exact hcites (Candidates.step_cites host.candidates s.candidates hcall)
  | true =>
    cases call with
    | publish svc k automatic =>
      simp only [Candidates.step]
      rcases Candidates.publish_cites host.candidates svc s.candidates k automatic with
        hnone | ⟨candidate, hmessages, -, hsame, hmemories, hsources⟩
      · exact hcites hnone
      · refine h.inserted hmemories hsources (fun messageId hmessage => ?_) (fun _ => published_ne_active) rfl hmessages
          hsame
        obtain ⟨r, hr, rfl⟩ := List.mem_map.mp hmessage
        exact h.evidence r (List.mem_of_mem_filter hr)
    | _ => cases hcall

theorem advances_reflectProject {host : Host F} {s : System F} (h : Inv host s) (projectId : Nat) :
    Advances host s (reflectProject host s projectId).2 := by
  have hsame : Advances host s s := h.unchanged rfl rfl h.evidence rfl rfl
  cases hproject : s.candidates.projects.get? projectId with
  | none =>
    rw [reflectProject, hproject]
    exact hsame
  | some project =>
    rcases reflectProject_cases host (Option.isSome_iff_exists.mpr ⟨project, hproject⟩) h.linked h.messages with
      ⟨-, s', hok, hr⟩ | ⟨-, error, herror⟩
    · rw [hok]
      refine ⟨?_, h.reflected hr⟩
      have hsessions : s'.sessions = s.sessions := by rw [hr.frame]
      rw [hsessions]
      exact hr.grows
    · rw [herror]
      exact hsame

theorem advances_reviewImport {host : Host F} {s : System F} (h : Inv host s) (candidateId : Nat)
    (decision : Import.Decision) (reviewer reason : Option String) :
    Advances host s (reviewImport s candidateId decision reviewer reason).2 := by
  simp only [reviewImport]
  rcases reviewCandidate_rows { s.imports with memories := tableAfter s.candidates.memories } candidateId decision reviewer
    reason with hrows | ⟨candidate, hrows⟩
  · rw [hrows]
    exact h.unchanged rfl rfl h.evidence rfl rfl
  · rw [hrows]
    exact @Inv.inserted _ host s _ h _ [] rfl rfl (by simp) (fun _ => published_ne_active) rfl rfl rfl

/-- **Every operation grows the tables and keeps the invariant.** -/
theorem advances_operate [Json.PyFloat F] {host : Host F} {s : System F} (h : Inv host s) (operation : Operation F) :
    Advances host s (operate host s operation).2 := by
  have hsame : Advances host s s := h.unchanged rfl rfl h.evidence rfl rfl
  cases operation with
  | appendMessage sessionKey message => exact advances_appendMessage h sessionKey message
  | call call =>
    cases call with
    | candidates call => exact advances_candidates h call
    | imports call => exact h.unchanged rfl rfl h.evidence rfl rfl
    | reviewImport candidateId decision reviewer reason =>
      exact advances_reviewImport h candidateId decision reviewer reason
    | rollbackImport candidateId reason =>
      show Advances host s (rollbackImport s candidateId reason).2
      rw [rollbackImport]
      split
      · exact hsame
      · next memoryId imports _ =>
        have hmarked : ∀ memory : Memory F, SameText memory
            { memory with status := "deprecated", deprecated := true, reviewStatus := "rolled_back" } ∧
              ("deprecated" = "active" → memory.status = "active") :=
          fun _ => ⟨⟨rfl, rfl, rfl⟩, fun hactive => absurd hactive deprecated_ne_active⟩
        exact h.modified hmarked rfl rfl rfl rfl h.evidence
    | createL1Memory projectId memoryType content title =>
      show Advances host s { s with candidates := (createL1Memory s.candidates projectId memoryType content title).2 }
      rw [createL1Memory]
      split
      · exact hsame
      · exact @Inv.inserted _ host s _ h _ [] rfl rfl (by simp) (fun _ => candidate_ne_active) rfl rfl rfl
    | reflectProject projectId => exact advances_reflectProject h projectId
    | projectL1 projectId report =>
      show Advances host s { s with candidates := projectL1 s.candidates projectId report }
      rw [projectL1]
      split
      · exact hsame
      · exact @Inv.inserted _ host s _ h _ [] rfl rfl (by simp) (fun hlevel => absurd hlevel L1_ne_L2) rfl rfl rfl

theorem inv_run [Json.PyFloat F] (host : Host F) {s : System F} (h : Inv host s) (operations : List (Operation F)) :
    Inv host (exec (operate host) s operations) :=
  @exec_invariant _ _ _ (operate host) (Inv host) (fun _ operation hs => (advances_operate hs operation).2) s h
    operations

/-- What a reflection that succeeds leaves: the knowledge of a text is one, stems from several sessions and cites
messages of its L1 memories; a second reflection changes nothing, and no operation changes the sources. -/
structure Settled [Json.PyFloat F] (host : Host F) (projectId : Nat) (s s' : System F) : Prop where
  reflected : Reflected host projectId s s'
  once : ∀ text memoryId memoryId', Derived host s'.candidates projectId text memoryId →
    Derived host s'.candidates projectId text memoryId' → memoryId = memoryId'
  several : ∀ text memoryId, Derived host s'.candidates projectId text memoryId →
    SeveralSessions host s'.sessions s'.candidates projectId text
  cited : ∀ text memoryId, Derived host s'.candidates projectId text memoryId →
    ∀ messageId ∈ sourceMessages s'.candidates memoryId, TextMessage host s'.candidates projectId text messageId
  again : reflectProject host s' projectId = (.ok (), s')
  later : ∀ (operations : List (Operation F)) (memoryId : Nat), memoryId < s'.candidates.memories.nextId →
    sourceMessages (exec (operate host) s' operations).candidates memoryId = sourceMessages s'.candidates memoryId

end

/-! ## A session that comes later -/

end CodexMemory.Memories
