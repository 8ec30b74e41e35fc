import CodexMemory.Memories.Groups

/-!
# One reflection

* `reflectMessages_classified`: the first half classifies each message without a memory once;
* `reflectProject_cases`: a reflection fails, when the sources of a text repeat a message, or
  does what `Reflected` says;
* `reflectProject_again`: a second reflection changes nothing.
-/

namespace CodexMemory.Memories

open Candidates (Level Db Memory Message MemorySource Error addSources)

section

variable {F : Type}

/-! ## The messages -/

theorem mem_processedIds {db : Db F} {projectId messageId : Nat} :
    messageId ∈ processedIds db projectId ↔ ∃ r ∈ db.memorySources.rows, r.2.messageId = messageId ∧
      ∃ memory, (r.2.memoryId, memory) ∈ db.memories.rows ∧ memory.projectId = some projectId := by
  simp only [processedIds, List.mem_map, List.mem_filter]
  constructor
  · rintro ⟨r, ⟨hr, hmemory⟩, hmessage⟩
    cases hget : db.memories.get? r.2.memoryId with
    | none =>
      rw [hget] at hmemory
      cases hmemory
    | some memory =>
      rw [hget] at hmemory
      exact ⟨r, hr, hmessage, memory, (Table.get?_eq_some_iff _ _ _).mp hget, by simpa using hmemory⟩
  · rintro ⟨r, hr, hmessage, memory, hmemory, hproject⟩
    refine ⟨r, ⟨hr, ?_⟩, hmessage⟩
    rw [(Table.get?_eq_some_iff _ _ _).mpr hmemory]
    simpa using hproject

/-- A message that has a memory of the project keeps it. -/
theorem Grows.processed {db db' : Db F} {cited : Nat → Prop} (h : Grows db db' cited) {projectId messageId : Nat}
    (hmessage : messageId ∈ processedIds db projectId) : messageId ∈ processedIds db' projectId := by
  obtain ⟨r, hr, hid, memory, hmemory, hproject⟩ := mem_processedIds.mp hmessage
  obtain ⟨new, hnew, -⟩ := h.sources
  obtain ⟨memory', hmemory', hsame⟩ := h.kept _ hmemory
  refine mem_processedIds.mpr ⟨r, ?_, hid, memory', hmemory', hsame.1.trans hproject⟩
  rw [hnew]
  exact List.mem_append_left _ hr

/-- An L2 item becomes an L1 memory. -/
theorem reflectedLevel_ne (layer : Level) : reflectedLevel layer ≠ .L2 := by
  cases layer <;> decide

/-- What the classification of messages writes. -/
structure Classified (host : Host F) (projectId : Nat) (db db' : Db F) (messages : List (Nat × Message))
    (new : List (Nat × Memory F)) : Prop where
  rows : db'.memories.rows = db.memories.rows ++ new
  fresh : ∀ r ∈ new, db.memories.nextId ≤ r.1
  items : new.map Prod.snd = messages.flatMap fun m => (host.classify m.1 m.2).map (reflectedMemory projectId)
  grows : Grows db db' fun messageId => ∃ m ∈ messages, messageId = m.1
  sourced : ∀ m ∈ messages, m.1 ∈ processedIds db' projectId ∨ host.classify m.1 m.2 = []
  rest : db' = { db with memories := db'.memories, memorySources := db'.memorySources }

theorem Classified.level {host : Host F} {projectId : Nat} {db db' : Db F} {messages : List (Nat × Message)}
    {new : List (Nat × Memory F)} (h : Classified host projectId db db' messages new) :
    ∀ r ∈ new, r.2.projectId = some projectId ∧ r.2.level ≠ .L2 := by
  intro r hr
  have hmem : r.2 ∈ new.map Prod.snd := List.mem_map_of_mem hr
  rw [h.items] at hmem
  obtain ⟨m, -, hitem⟩ := List.mem_flatMap.mp hmem
  obtain ⟨item, -, hmemory⟩ := List.mem_map.mp hitem
  rw [← hmemory]
  exact ⟨rfl, reflectedLevel_ne item.layer⟩

/-- The items of one message. -/
theorem addClassified_rows (projectId messageId : Nat) (items : List (ClassifiedMemory F)) (db : Db F) :
    ∃ new, (addClassified projectId messageId db items).memories.rows = db.memories.rows ++ new ∧
      (∀ r ∈ new, db.memories.nextId ≤ r.1) ∧ new.map Prod.snd = items.map (reflectedMemory projectId) ∧
      Grows db (addClassified projectId messageId db items) (fun id => id = messageId) ∧
      (messageId ∈ processedIds (addClassified projectId messageId db items) projectId ∨ items = []) ∧
      addClassified projectId messageId db items = { db with
        memories := (addClassified projectId messageId db items).memories
        memorySources := (addClassified projectId messageId db items).memorySources } := by
  induction items generalizing db with
  | nil => exact ⟨[], (List.append_nil _).symm, by simp, rfl, Grows.of_eq _ rfl rfl, Or.inr rfl, rfl⟩
  | cons item rest ih =>
    have hfirst : Grows db { db with
        memories := db.memories.insert (reflectedMemory projectId item)
        memorySources := db.memorySources.insert ⟨db.memories.nextId, messageId⟩ } (fun id => id = messageId) :=
      @Grows.of_insert _ db _ _ (reflectedMemory projectId item) [messageId] rfl rfl (by simp)
    obtain ⟨new, hrows, hfresh, hitems, hgrows, -, hrest⟩ := ih { db with
        memories := db.memories.insert (reflectedMemory projectId item)
        memorySources := db.memorySources.insert ⟨db.memories.nextId, messageId⟩ }
    refine ⟨(db.memories.nextId, reflectedMemory projectId item) :: new, ?_, ?_, ?_, hfirst.trans hgrows, Or.inl ?_, ?_⟩
    · rw [addClassified, hrows]
      simp [Table.insert]
    · refine List.forall_mem_cons.mpr ⟨le_rfl, fun r hr => (Nat.le_succ _).trans (hfresh r hr)⟩
    · rw [List.map_cons, List.map_cons, hitems]
    · refine hgrows.processed (mem_processedIds.mpr ⟨(db.memorySources.nextId, ⟨db.memories.nextId, messageId⟩), ?_, rfl,
        reflectedMemory projectId item, ?_, rfl⟩)
      · exact List.mem_append_right _ (List.mem_singleton_self _)
      · exact List.mem_append_right _ (List.mem_singleton_self _)
    · rw [addClassified]
      exact hrest

/-- The messages without a memory. -/
def unprocessed (processed : List Nat) (messages : List (Nat × Message)) : List (Nat × Message) :=
  messages.filter fun m => !processed.contains m.1

/-- **The first half classifies each message without a memory once.** -/
theorem reflectMessages_classified (host : Host F) (projectId : Nat) (processed : List Nat)
    (messages : List (Nat × Message)) (db : Db F) :
    ∃ new, Classified host projectId db (reflectMessages host projectId processed db messages)
      (unprocessed processed messages) new := by
  induction messages generalizing db with
  | nil => exact ⟨[], (List.append_nil _).symm, by simp, rfl, Grows.of_eq _ rfl rfl, by simp [unprocessed], rfl⟩
  | cons message rest ih =>
    obtain ⟨messageId, message⟩ := message
    cases hprocessed : processed.contains messageId with
    | true =>
      have hskip : unprocessed processed ((messageId, message) :: rest) = unprocessed processed rest :=
        List.filter_cons_of_neg (by simpa using hprocessed)
      rw [reflectMessages, if_pos hprocessed, hskip]
      exact ih db
    | false =>
      have hkeep : unprocessed processed ((messageId, message) :: rest) =
          (messageId, message) :: unprocessed processed rest :=
        List.filter_cons_of_pos (by simpa using hprocessed)
      rw [reflectMessages, if_neg (by rw [hprocessed]; exact Bool.false_ne_true), hkeep]
      obtain ⟨first, hrows, hfresh, hitems, hgrows, hsourced, hrest⟩ :=
        addClassified_rows projectId messageId (host.classify messageId message) db
      obtain ⟨new, hnew⟩ := ih (addClassified projectId messageId db (host.classify messageId message))
      refine ⟨first ++ new, ?_, ?_, ?_, ?_, ?_, ?_⟩
      · rw [hnew.rows, hrows, List.append_assoc]
      · intro r hr
        rcases List.mem_append.mp hr with hr | hr
        · exact hfresh r hr
        · exact hgrows.next.trans (hnew.fresh r hr)
      · rw [List.map_append, hitems, hnew.items, List.flatMap_cons]
      · refine (hgrows.mono ?_).trans (hnew.grows.mono ?_)
        · rintro _ rfl
          exact ⟨_, List.mem_cons_self, rfl⟩
        · rintro _ ⟨m, hm, rfl⟩
          exact ⟨m, List.mem_cons_of_mem _ hm, rfl⟩
      · refine List.forall_mem_cons.mpr ⟨?_, hnew.sourced⟩
        exact hsourced.imp (fun h => hnew.grows.processed h) id
      · have hrest' := hnew.rest
        rw [hrest', hrest]

/-- The messages of the project without a memory of it. -/
def unprocessedMessages (db : Db F) (projectId : Nat) : List (Nat × Message) :=
  unprocessed (processedIds db projectId) (db.messages.select fun m => m.projectId = projectId)

/-- The database between the two halves. -/
def classified (host : Host F) (s : System F) (projectId : Nat) : Db F :=
  reflectMessages host projectId (processedIds s.candidates projectId) s.candidates
    (s.candidates.messages.select fun m => m.projectId = projectId)

/-- No text that is to be promoted would get a message twice. -/
def Unrepeated (host : Host F) (s : System F) (projectId : Nat) : Prop :=
  ∀ text, SeveralSessions host s.sessions (classified host s projectId) projectId text →
    ¬ HasL2 host s.candidates projectId text →
      (groupMessages host (sourced s (classified host s projectId) projectId)
        (sourceMessages (classified host s projectId)) text).Nodup

/-- **What a reflection does.** -/
structure Reflected (host : Host F) (projectId : Nat) (s s' : System F) : Prop where
  frame : s' = { s with candidates := { s.candidates with
    memories := s'.candidates.memories, memorySources := s'.candidates.memorySources } }
  grows : Grows s.candidates s'.candidates fun messageId => (s.sessions messageId).isSome
  owner : ∀ r ∈ s'.candidates.memories.rows, s.candidates.memories.nextId ≤ r.1 → r.2.projectId = some projectId
  once : ((s'.candidates.memories.rows.filter fun r =>
      decide (s.candidates.memories.nextId ≤ r.1) && decide (r.2.level ≠ .L2)).map Prod.snd) =
    (unprocessedMessages s.candidates projectId).flatMap fun m =>
      (host.classify m.1 m.2).map (reflectedMemory projectId)
  considered : ∀ r ∈ s'.candidates.messages.rows, r.2.projectId = projectId →
    r.1 ∈ processedIds s'.candidates projectId ∨ host.classify r.1 r.2 = []
  derived : ∀ text memoryId, Derived host s'.candidates projectId text memoryId →
    s.candidates.memories.nextId ≤ memoryId →
      ¬ HasL2 host s.candidates projectId text ∧ SeveralSessions host s'.sessions s'.candidates projectId text ∧
        (sourceMessages s'.candidates memoryId).Nodup ∧
          ∀ messageId, messageId ∈ sourceMessages s'.candidates memoryId ↔
            TextMessage host s'.candidates projectId text messageId
  unique : ∀ text memoryId memoryId', Derived host s'.candidates projectId text memoryId →
    Derived host s'.candidates projectId text memoryId' → s.candidates.memories.nextId ≤ memoryId →
      s.candidates.memories.nextId ≤ memoryId' → memoryId = memoryId'
  every : ∀ text, SeveralSessions host s'.sessions s'.candidates projectId text →
    HasL2 host s'.candidates projectId text ∧ (¬ HasL2 host s.candidates projectId text →
      ∃ memoryId, s.candidates.memories.nextId ≤ memoryId ∧ Derived host s'.candidates projectId text memoryId)

/-- The first half creates no L2 memory. -/
theorem Classified.hasL2_iff {host : Host F} {projectId : Nat} {db db' : Db F} {messages : List (Nat × Message)}
    {new : List (Nat × Memory F)} (h : Classified host projectId db db' messages new) (text : String) :
    HasL2 host db' projectId text ↔ HasL2 host db projectId text := by
  refine ⟨fun ⟨r, hr, htext⟩ => ?_, h.grows.hasL2⟩
  rw [h.rows] at hr
  rcases List.mem_append.mp hr with hr | hr
  · exact ⟨r, hr, htext⟩
  · exact absurd htext.2.1 (h.level r hr).2

section Halves

variable {host : Host F} {projectId : Nat} {messagesOf : String → List Nat} {db db' : Db F} {texts : List String}
  {new : List (Nat × Memory F)}

/-- The second half creates no L1 memory. -/
theorem Promoted.textMessage_iff (h : Promoted host projectId messagesOf db db' texts new) (text : String)
    (messageId : Nat) : TextMessage host db' projectId text messageId ↔ TextMessage host db projectId text messageId := by
  refine ⟨fun ⟨r, hr, htext, hmessage⟩ => ?_, h.grows.textMessage⟩
  rw [h.rows] at hr
  rcases List.mem_append.mp hr with hr | hr
  · rw [h.grows.sourceMessages_eq (db.memories.below r hr)] at hmessage
    exact ⟨r, hr, htext, hmessage⟩
  · have hlevel := (h.knowledge r hr).2.2.1
    exact absurd (htext.2.1.symm.trans hlevel) (by decide)

theorem Promoted.several_iff (h : Promoted host projectId messagesOf db db' texts new)
    (sessions : Nat → Option String) (text : String) :
    SeveralSessions host sessions db' projectId text ↔ SeveralSessions host sessions db projectId text := by
  simp only [SeveralSessions, h.textMessage_iff]

/-- The knowledge that is new is that of the promoted texts. -/
theorem Promoted.mem_texts (h : Promoted host projectId messagesOf db db' texts new) {r : Nat × Memory F}
    (hr : r ∈ new) : textKey host r.2 ∈ texts := by
  rw [← h.promoted]
  exact List.mem_map_of_mem hr

theorem Promoted.exists_row (h : Promoted host projectId messagesOf db db' texts new) {text : String}
    (htext : text ∈ texts) : ∃ r ∈ new, HasText host projectId .L2 text r.2 := by
  rw [← h.promoted] at htext
  obtain ⟨r, hr, rfl⟩ := List.mem_map.mp htext
  obtain ⟨-, hproject, hlevel, -⟩ := h.knowledge r hr
  exact ⟨r, hr, hproject, hlevel, rfl⟩

end Halves

/-- A row of the new table whose key is new is one of the new rows. -/
theorem mem_new_of_le {rows new : List (Nat × Memory F)} {memories : Table (Memory F)} (hrows : rows = memories.rows ++ new)
    {r : Nat × Memory F} (hr : r ∈ rows) (hge : memories.nextId ≤ r.1) : r ∈ new := by
  rw [hrows] at hr
  rcases List.mem_append.mp hr with hr | hr
  · exact absurd (memories.below r hr) (Nat.not_lt.mpr hge)
  · exact hr

section Reflected

variable {host : Host F} {projectId : Nat} {messagesOf : String → List Nat} {s : System F} {db₁ db' : Db F}
  {texts : List String} {first second : List (Nat × Memory F)}

/-- The L2 memories that are new are the knowledge of the promoted texts. -/
theorem mem_second (hc : Classified host projectId s.candidates db₁ (unprocessedMessages s.candidates projectId) first)
    (hp : Promoted host projectId messagesOf db₁ db' texts second) {r : Nat × Memory F} (hr : r ∈ db'.memories.rows)
    (hge : s.candidates.memories.nextId ≤ r.1) (hlevel : r.2.level = .L2) : r ∈ second := by
  have hrows : db'.memories.rows = s.candidates.memories.rows ++ (first ++ second) := by
    rw [hp.rows, hc.rows, List.append_assoc]
  rcases List.mem_append.mp (mem_new_of_le hrows hr hge) with hr | hr
  · exact absurd hlevel (hc.level r hr).2
  · exact hr

/-- **The two halves together.** -/
theorem reflected_of_halves
    (hc : Classified host projectId s.candidates db₁ (unprocessedMessages s.candidates projectId) first)
    (hp : Promoted host projectId messagesOf db₁ db' texts second) (htexts : texts.Nodup)
    (hmem : ∀ text, text ∈ texts ↔ SeveralSessions host s.sessions db₁ projectId text ∧
      ¬ HasL2 host s.candidates projectId text)
    (hnodup : ∀ text ∈ texts, (messagesOf text).Nodup)
    (hmessagesOf : ∀ text messageId, messageId ∈ messagesOf text ↔ TextMessage host db₁ projectId text messageId)
    (hmessages : ∀ r ∈ s.candidates.messages.rows, (s.sessions r.1).isSome) (hlinked : Linked s.sessions db₁) :
    Reflected host projectId s { s with candidates := db' } where
  frame := by
    have hfirst := hc.rest
    have hsecond := hp.rest
    show _ = { s with candidates := { s.candidates with
      memories := db'.memories, memorySources := db'.memorySources } }
    rw [hsecond, hfirst]
  grows := by
    refine (hc.grows.mono ?_).trans (hp.grows.mono ?_)
    · rintro _ ⟨m, hm, rfl⟩
      exact hmessages m (List.mem_of_mem_filter (List.mem_of_mem_filter hm))
    · rintro messageId ⟨text, -, hmessage⟩
      obtain ⟨r, -, -, hsource⟩ := (hmessagesOf text messageId).mp hmessage
      obtain ⟨source, hmem, -, rfl⟩ := mem_sourceMessages.mp hsource
      exact (hlinked source hmem).2
  owner r hr hge := by
    have hrows : db'.memories.rows = s.candidates.memories.rows ++ (first ++ second) := by
      rw [hp.rows, hc.rows, List.append_assoc]
    rcases List.mem_append.mp (mem_new_of_le hrows hr hge) with hr | hr
    · exact (hc.level r hr).1
    · exact (hp.knowledge r hr).2.1
  once := by
    have hold : (s.candidates.memories.rows.filter fun r =>
        decide (s.candidates.memories.nextId ≤ r.1) && decide (r.2.level ≠ .L2)) = [] := by
      refine List.filter_eq_nil_iff.mpr fun r hr => ?_
      have hlt := s.candidates.memories.below r hr
      simp [Nat.not_le.mpr hlt]
    have hfirst : (first.filter fun r =>
        decide (s.candidates.memories.nextId ≤ r.1) && decide (r.2.level ≠ .L2)) = first :=
      List.filter_eq_self.mpr fun r hr => by simpa using ⟨hc.fresh r hr, (hc.level r hr).2⟩
    have hsecond : (second.filter fun r =>
        decide (s.candidates.memories.nextId ≤ r.1) && decide (r.2.level ≠ .L2)) = [] :=
      List.filter_eq_nil_iff.mpr fun r hr => by simp [(hp.knowledge r hr).2.2.1]
    show ((db'.memories.rows.filter _).map Prod.snd) = _
    rw [hp.rows, hc.rows, List.filter_append, List.filter_append, hold, hfirst, hsecond, List.nil_append,
      List.append_nil, hc.items]
  considered r hr hproject := by
    have hsame : db'.messages = s.candidates.messages := by
      have hfirst := hc.rest
      have hsecond := hp.rest
      rw [hsecond, hfirst]
    have hr : r ∈ s.candidates.messages.rows := by
      rw [← hsame]
      exact hr
    by_cases hprocessed : r.1 ∈ processedIds s.candidates projectId
    · exact Or.inl (hp.grows.processed (hc.grows.processed hprocessed))
    · have hmem : r ∈ unprocessedMessages s.candidates projectId := by
        refine List.mem_filter.mpr ⟨List.mem_filter.mpr ⟨hr, by simpa using hproject⟩, ?_⟩
        simpa using hprocessed
      exact (hc.sourced r hmem).imp (fun h => hp.grows.processed h) id
  derived text memoryId hderived hge := by
    obtain ⟨memory, hr, htext, -⟩ := hderived
    have hsecond := mem_second hc hp hr hge htext.2.1
    have hmemText : text ∈ texts := by
      rw [← htext.2.2]
      exact hp.mem_texts hsecond
    obtain ⟨hseveral, hnone⟩ := (hmem text).mp hmemText
    have hsources := (hp.knowledge _ hsecond).2.2.2.2
    rw [htext.2.2] at hsources
    refine ⟨hnone, (hp.several_iff s.sessions text).mpr hseveral, ?_, fun messageId => ?_⟩
    · show (sourceMessages db' memoryId).Nodup
      rw [hsources]
      exact hnodup text hmemText
    · show messageId ∈ sourceMessages db' memoryId ↔ TextMessage host db' projectId text messageId
      rw [hsources, hmessagesOf, hp.textMessage_iff]
  unique text memoryId memoryId' hderived hderived' hge hge' := by
    obtain ⟨memory, hr, htext, -⟩ := hderived
    obtain ⟨memory', hr', htext', -⟩ := hderived'
    have hkeys : (second.map fun r => textKey host r.2).Nodup := by
      rw [hp.promoted]
      exact htexts
    have hsame := List.inj_on_of_nodup_map hkeys (mem_second hc hp hr hge htext.2.1)
      (mem_second hc hp hr' hge' htext'.2.1) (htext.2.2.trans htext'.2.2.symm)
    exact (Prod.mk.inj hsame).1
  every text hseveral := by
    have hseveral₁ := (hp.several_iff s.sessions text).mp hseveral
    have hpromoted : ¬ HasL2 host s.candidates projectId text → ∃ r ∈ second, HasText host projectId .L2 text r.2 :=
      fun hnone => hp.exists_row ((hmem text).mpr ⟨hseveral₁, hnone⟩)
    have hrow : ∀ r ∈ second, r ∈ db'.memories.rows := fun r hr => by
      rw [hp.rows]
      exact List.mem_append_right _ hr
    constructor
    · by_cases hL2 : HasL2 host s.candidates projectId text
      · exact hp.grows.hasL2 (hc.grows.hasL2 hL2)
      · obtain ⟨r, hr, htext⟩ := hpromoted hL2
        exact ⟨r, hrow r hr, htext⟩
    · intro hnone
      obtain ⟨r, hr, htext⟩ := hpromoted hnone
      obtain ⟨hge, -, -, hactive, -⟩ := hp.knowledge r hr
      exact ⟨r.1, hc.grows.next.trans hge, r.2, hrow r hr, htext, hactive⟩

end Reflected

/-- The texts of the rows that are promoted. -/
theorem mem_promotedTexts {host : Host F} {s : System F} {db : Db F} {projectId : Nat}
    (hlinked : Linked s.sessions db) (text : String) :
    text ∈ (((sourced s db projectId).map fun row => textKey host row.memory).eraseDups.filter fun text =>
      Promotes host (existingL2 host db projectId) (sourced s db projectId) text) ↔
        SeveralSessions host s.sessions db projectId text ∧ ¬ HasL2 host db projectId text := by
  rw [List.mem_filter, decide_eq_true_eq, Promotes, sessions_several hlinked, mem_existingL2, and_iff_right_iff_imp]
  rintro ⟨⟨messageId, -, ⟨r, hr, htext, hmessage⟩, -⟩, -⟩
  obtain ⟨session, -, hrow⟩ := exists_row hlinked hmessage
  refine List.mem_eraseDups.mpr (List.mem_map.mpr ⟨_, mem_sourced.mpr ⟨r, hr, ⟨htext.1, htext.2.1⟩, hrow⟩, htext.2.2⟩)

theorem memoryId_lt {s : System F} {db : Db F} {projectId : Nat} {row : Sourced F}
    (hrow : row ∈ sourced s db projectId) : row.memoryId < db.memories.nextId := by
  obtain ⟨r, hr, -, hmem⟩ := mem_sourced.mp hrow
  rw [(mem_rowsOf.mp hmem).1]
  exact db.memories.below r hr

/-- **A reflection of a project does what `Reflected` says, or fails because the messages of a text repeat.** -/
theorem reflectProject_cases (host : Host F) {s : System F} {projectId : Nat}
    (hproject : (s.candidates.projects.get? projectId).isSome) (hlinked : Linked s.sessions s.candidates)
    (hmessages : ∀ r ∈ s.candidates.messages.rows, (s.sessions r.1).isSome) :
    (Unrepeated host s projectId ∧
      ∃ s', reflectProject host s projectId = (.ok (), s') ∧ Reflected host projectId s s') ∨
    (¬ Unrepeated host s projectId ∧ ∃ error, reflectProject host s projectId = (.error error, s)) := by
  obtain ⟨project, hproject⟩ := Option.isSome_iff_exists.mp hproject
  obtain ⟨first, hc⟩ := reflectMessages_classified host projectId (processedIds s.candidates projectId)
    (s.candidates.messages.select fun m => m.projectId = projectId) s.candidates
  rw [show reflectMessages host projectId (processedIds s.candidates projectId) s.candidates
    (s.candidates.messages.select fun m => m.projectId = projectId) = classified host s projectId from rfl] at hc
  have hlinked₁ : Linked s.sessions (classified host s projectId) := hc.grows.linked hlinked fun messageId h => by
    obtain ⟨m, hm, rfl⟩ := h
    exact hmessages m (List.mem_of_mem_filter (List.mem_of_mem_filter hm))
  have hmem := fun text => (@mem_promotedTexts _ host s _ projectId hlinked₁ text).trans
    (and_congr_right fun _ => not_congr (hc.hasL2_iff text))
  have hmessagesOf := fun text messageId =>
    @mem_groupMessages _ host s (classified host s projectId) projectId text hlinked₁ messageId
  -- the groups, as far as their texts are promoted
  have hcases := @reflectGroups_cases _ host projectId (existingL2 host (classified host s projectId) projectId)
    (sourced s (classified host s projectId) projectId) s.sessions
    (groupMessages host (sourced s (classified host s projectId) projectId) (sourceMessages (classified host s projectId)))
    (((sourced s (classified host s projectId) projectId).map fun row => textKey host row.memory).eraseDups.filter
      fun text => Promotes host (existingL2 host (classified host s projectId) projectId)
        (sourced s (classified host s projectId) projectId) text) (classified host s projectId) hlinked₁
    (fun row hrow => memoryId_lt hrow) (fun _ _ => rfl)
    (fun text _ messageId hmessage => by
      obtain ⟨r, -, -, hsource⟩ := (hmessagesOf text messageId).mp hmessage
      obtain ⟨source, hrow, -, rfl⟩ := mem_sourceMessages.mp hsource
      exact (hlinked₁ source hrow).2)
    (fun text htext => by simpa using (List.mem_filter.mp htext).2)
  rw [← reflectGroups_filter] at hcases
  have hunrepeated : Unrepeated host s projectId ↔ ∀ text ∈
      (((sourced s (classified host s projectId) projectId).map fun row => textKey host row.memory).eraseDups.filter
        fun text => Promotes host (existingL2 host (classified host s projectId) projectId)
          (sourced s (classified host s projectId) projectId) text),
      (groupMessages host (sourced s (classified host s projectId) projectId)
        (sourceMessages (classified host s projectId)) text).Nodup := by
    simp only [hmem, and_imp]
    exact Iff.rfl
  rw [hunrepeated]
  rcases hcases with ⟨hnodup, db', second, hok, hp⟩ | ⟨hrepeated, error, herror⟩
  · refine Or.inl ⟨hnodup, { s with candidates := db' }, ?_, ?_⟩
    · rw [reflectProject, hproject]
      simp only [classified] at hok
      simp only [hok]
    · exact reflected_of_halves hc hp ((eraseDups_nodup _).filter _) hmem hnodup hmessagesOf hmessages hlinked₁
  · refine Or.inr ⟨hrepeated, error, ?_⟩
    rw [reflectProject, hproject]
    simp only [classified] at herror
    simp only [herror]

end

end CodexMemory.Memories
