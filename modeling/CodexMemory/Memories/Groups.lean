import CodexMemory.Candidates.Provenance
import CodexMemory.Memories.Model

/-!
# The groups of a reflection

The second half of `reflect_project` groups the L1 memories of the project by their
texts and promotes a text that has several sessions and no knowledge yet.

* `sessions_several`: a group has several sessions when its memories stem from messages of
  different sessions;
* `groupMessages_nodup`: the messages that are copied for a text are different when each of its
  memories has one source and no two memories share it;
* `reflectGroups_cases`: what the promotion of a list of texts writes, and when it fails.
-/

namespace CodexMemory.Memories

open Candidates (Level Db Memory Message MemorySource Error addSources sourcesOf)

section

variable {F : Type}

/-! ## Memories with a text -/

/-- The memory is the project's and has the level and the text. -/
def HasText (host : Host F) (projectId : Nat) (level : Level) (text : String) (memory : Memory F) : Prop :=
  memory.projectId = some projectId ∧ memory.level = level ∧ textKey host memory = text

instance (host : Host F) (projectId : Nat) (level : Level) (text : String) (memory : Memory F) :
    Decidable (HasText host projectId level text memory) := inferInstanceAs (Decidable (_ ∧ _ ∧ _))

/-- An L1 memory with the text stems from the message. -/
def TextMessage (host : Host F) (db : Db F) (projectId : Nat) (text : String) (messageId : Nat) : Prop :=
  ∃ r ∈ db.memories.rows, HasText host projectId .L1 text r.2 ∧ messageId ∈ sourceMessages db r.1

/-- The L1 memories with the text stem from messages of at least two sessions. -/
def SeveralSessions (host : Host F) (sessions : Nat → Option String) (db : Db F) (projectId : Nat) (text : String) :
    Prop :=
  ∃ a b, TextMessage host db projectId text a ∧ TextMessage host db projectId text b ∧ sessions a ≠ sessions b

/-- An L2 memory has the text. -/
def HasL2 (host : Host F) (db : Db F) (projectId : Nat) (text : String) : Prop :=
  ∃ r ∈ db.memories.rows, HasText host projectId .L2 text r.2

/-- The memory is the knowledge with the text that a reflection has derived: no other L2 memory is `active`. -/
def Derived (host : Host F) (db : Db F) (projectId : Nat) (text : String) (memoryId : Nat) : Prop :=
  ∃ memory, (memoryId, memory) ∈ db.memories.rows ∧ HasText host projectId .L2 text memory ∧ memory.status = "active"

/-- Every source is of a memory that has been created, and its message has a session. -/
def Linked (sessions : Nat → Option String) (db : Db F) : Prop :=
  ∀ r ∈ db.memorySources.rows, r.2.memoryId < db.memories.nextId ∧ (sessions r.2.messageId).isSome

/-! ## Lists without repetitions -/

theorem eraseDups_nodup (l : List String) : l.eraseDups.Nodup := by
  match l with
  | [] => simp
  | a :: as =>
    have hlt : (as.filter fun b => !b == a).length < as.length + 1 := Nat.lt_succ_of_le (List.length_filter_le _ _)
    rw [List.eraseDups_cons, List.nodup_cons]
    refine ⟨?_, eraseDups_nodup _⟩
    simp
termination_by l.length

/-- There are at least two different elements. -/
theorem two_le_eraseDups (l : List String) : 2 ≤ l.eraseDups.length ↔ ∃ a ∈ l, ∃ b ∈ l, a ≠ b := by
  cases l with
  | nil => simp
  | cons a as =>
    have hrest : 2 ≤ ((a :: as).eraseDups).length ↔ ∃ b ∈ as, b ≠ a := by
      rw [List.eraseDups_cons, List.length_cons]
      have hpos : 1 ≤ (as.filter fun b => !b == a).eraseDups.length ↔
          ∃ b, b ∈ (as.filter fun b => !b == a).eraseDups := List.length_pos_iff_exists_mem
      rw [show 2 ≤ (as.filter fun b => !b == a).eraseDups.length + 1 ↔
        1 ≤ (as.filter fun b => !b == a).eraseDups.length by omega, hpos]
      simp
    rw [hrest]
    constructor
    · rintro ⟨b, hb, hne⟩
      exact ⟨b, List.mem_cons_of_mem _ hb, a, List.mem_cons_self, hne⟩
    · rintro ⟨b, hb, c, hc, hne⟩
      rcases List.mem_cons.mp hb with rfl | hb
      · rcases List.mem_cons.mp hc with rfl | hc
        · exact absurd rfl hne
        · exact ⟨c, hc, hne.symm⟩
      · by_cases hba : b = a
        · subst hba
          rcases List.mem_cons.mp hc with rfl | hc
          · exact absurd rfl hne
          · exact ⟨c, hc, hne.symm⟩
        · exact ⟨b, hb, hba⟩

/-! ## The rows of the groups -/

theorem mem_sourceMessages {db : Db F} {memoryId messageId : Nat} :
    messageId ∈ sourceMessages db memoryId ↔
      ∃ r ∈ db.memorySources.rows, r.2.memoryId = memoryId ∧ r.2.messageId = messageId := by
  simp only [sourceMessages, List.mem_map, List.mem_filter, decide_eq_true_eq]
  constructor
  · rintro ⟨r, ⟨hr, hid⟩, hmessage⟩
    exact ⟨r, hr, hid, hmessage⟩
  · rintro ⟨r, hr, hid, hmessage⟩
    exact ⟨r, ⟨hr, hid⟩, hmessage⟩

/-- The rows of one memory. -/
def rowsOf (s : System F) (db : Db F) (r : Nat × Memory F) : List (Sourced F) :=
  db.memorySources.rows.filterMap fun source =>
    if source.2.memoryId = r.1 then (s.sessions source.2.messageId).map fun session => ⟨r.1, r.2, session⟩ else none

theorem mem_rowsOf {s : System F} {db : Db F} {r : Nat × Memory F} {row : Sourced F} :
    row ∈ rowsOf s db r ↔ row.memoryId = r.1 ∧ row.memory = r.2 ∧
      ∃ messageId ∈ sourceMessages db r.1, s.sessions messageId = some row.session := by
  simp only [rowsOf, List.mem_filterMap, mem_sourceMessages]
  constructor
  · rintro ⟨source, hsource, hrow⟩
    split at hrow
    · next hid =>
      obtain ⟨session, hsession, rfl⟩ := Option.map_eq_some_iff.mp hrow
      exact ⟨rfl, rfl, _, ⟨source, hsource, hid, rfl⟩, hsession⟩
    · cases hrow
  · rintro ⟨hid, hmemory, messageId, ⟨source, hsource, hsourceId, rfl⟩, hsession⟩
    refine ⟨source, hsource, ?_⟩
    rw [if_pos hsourceId, hsession, Option.map_some, ← hid, ← hmemory]

theorem mem_sourced {s : System F} {db : Db F} {projectId : Nat} {row : Sourced F} :
    row ∈ sourced s db projectId ↔ ∃ r ∈ db.memories.rows, (r.2.projectId = some projectId ∧ r.2.level = .L1) ∧
      row ∈ rowsOf s db r := by
  simp only [sourced, List.mem_flatMap]
  constructor
  · rintro ⟨r, hr, hrow⟩
    split at hrow
    · next h => exact ⟨r, hr, by simpa using h, hrow⟩
    · cases hrow
  · rintro ⟨r, hr, h, hrow⟩
    refine ⟨r, hr, ?_⟩
    rw [if_pos (by simpa using h)]
    exact hrow

/-- The rows with a text. -/
def groupOf (host : Host F) (rows : List (Sourced F)) (text : String) : List (Sourced F) :=
  rows.filter fun row => textKey host row.memory = text

theorem mem_groupOf {host : Host F} {s : System F} {db : Db F} {projectId : Nat} {text : String} {row : Sourced F} :
    row ∈ groupOf host (sourced s db projectId) text ↔
      ∃ r ∈ db.memories.rows, HasText host projectId .L1 text r.2 ∧ row ∈ rowsOf s db r := by
  simp only [groupOf, List.mem_filter, mem_sourced, decide_eq_true_eq]
  constructor
  · rintro ⟨⟨r, hr, h, hrow⟩, htext⟩
    rw [(mem_rowsOf.mp hrow).2.1] at htext
    exact ⟨r, hr, ⟨h.1, h.2, htext⟩, hrow⟩
  · rintro ⟨r, hr, ⟨hproject, hlevel, htext⟩, hrow⟩
    refine ⟨⟨r, hr, ⟨hproject, hlevel⟩, hrow⟩, ?_⟩
    rw [(mem_rowsOf.mp hrow).2.1]
    exact htext

/-- The messages that are copied for a text: those of each memory once for each row of it. -/
def groupMessages (host : Host F) (rows : List (Sourced F)) (sources : Nat → List Nat) (text : String) : List Nat :=
  (groupOf host rows text).flatMap fun row => sources row.memoryId

theorem exists_row {s : System F} {db : Db F} (hlinked : Linked s.sessions db) {r : Nat × Memory F} {messageId : Nat}
    (hmessage : messageId ∈ sourceMessages db r.1) :
    ∃ session, s.sessions messageId = some session ∧ ⟨r.1, r.2, session⟩ ∈ rowsOf s db r := by
  obtain ⟨source, hsource, -, rfl⟩ := mem_sourceMessages.mp hmessage
  obtain ⟨session, hsession⟩ := Option.isSome_iff_exists.mp (hlinked source hsource).2
  exact ⟨session, hsession, mem_rowsOf.mpr ⟨rfl, rfl, _, hmessage, hsession⟩⟩

/-- **A group has several sessions when its memories stem from messages of different sessions.** -/
theorem sessions_several {host : Host F} {s : System F} {db : Db F} {projectId : Nat} {text : String}
    (hlinked : Linked s.sessions db) :
    2 ≤ ((groupOf host (sourced s db projectId) text).map Sourced.session).eraseDups.length ↔
      SeveralSessions host s.sessions db projectId text := by
  rw [two_le_eraseDups]
  constructor
  · rintro ⟨a, ha, b, hb, hne⟩
    obtain ⟨row, hrow, rfl⟩ := List.mem_map.mp ha
    obtain ⟨row', hrow', rfl⟩ := List.mem_map.mp hb
    obtain ⟨r, hr, htext, hmem⟩ := mem_groupOf.mp hrow
    obtain ⟨r', hr', htext', hmem'⟩ := mem_groupOf.mp hrow'
    obtain ⟨-, -, messageId, hmessage, hsession⟩ := mem_rowsOf.mp hmem
    obtain ⟨-, -, messageId', hmessage', hsession'⟩ := mem_rowsOf.mp hmem'
    refine ⟨messageId, messageId', ⟨r, hr, htext, hmessage⟩, ⟨r', hr', htext', hmessage'⟩, ?_⟩
    rw [hsession, hsession']
    exact fun h => hne (Option.some.inj h)
  · rintro ⟨messageId, messageId', ⟨r, hr, htext, hmessage⟩, ⟨r', hr', htext', hmessage'⟩, hne⟩
    obtain ⟨session, hsession, hrow⟩ := exists_row hlinked hmessage
    obtain ⟨session', hsession', hrow'⟩ := exists_row hlinked hmessage'
    refine ⟨session, List.mem_map.mpr ⟨_, mem_groupOf.mpr ⟨r, hr, htext, hrow⟩, rfl⟩, session',
      List.mem_map.mpr ⟨_, mem_groupOf.mpr ⟨r', hr', htext', hrow'⟩, rfl⟩, ?_⟩
    rintro rfl
    exact hne (hsession.trans hsession'.symm)

theorem mem_existingL2 {host : Host F} {db : Db F} {projectId : Nat} {text : String} :
    text ∈ existingL2 host db projectId ↔ HasL2 host db projectId text := by
  simp only [existingL2, List.mem_map, List.mem_filter, Bool.and_eq_true, decide_eq_true_eq, HasL2, HasText]
  constructor
  · rintro ⟨r, ⟨hr, hproject, hlevel⟩, htext⟩
    exact ⟨r, hr, hproject, hlevel, htext⟩
  · rintro ⟨r, hr, hproject, hlevel, htext⟩
    exact ⟨r, ⟨hr, hproject, hlevel⟩, htext⟩

theorem mem_groupMessages {host : Host F} {s : System F} {db : Db F} {projectId : Nat} {text : String}
    (hlinked : Linked s.sessions db) {messageId : Nat} :
    messageId ∈ groupMessages host (sourced s db projectId) (sourceMessages db) text ↔
      TextMessage host db projectId text messageId := by
  simp only [groupMessages, List.mem_flatMap]
  constructor
  · rintro ⟨row, hrow, hmessage⟩
    obtain ⟨r, hr, htext, hmem⟩ := mem_groupOf.mp hrow
    rw [(mem_rowsOf.mp hmem).1] at hmessage
    exact ⟨r, hr, htext, hmessage⟩
  · rintro ⟨r, hr, htext, hmessage⟩
    obtain ⟨session, -, hrow⟩ := exists_row hlinked hmessage
    exact ⟨_, mem_groupOf.mpr ⟨r, hr, htext, hrow⟩, hmessage⟩

/-- What two versions of a memory have in common. -/
def SameText (memory memory' : Memory F) : Prop :=
  memory'.projectId = memory.projectId ∧ memory'.level = memory.level ∧ memory'.content = memory.content

/-- From `db` to `db'` the memories keep their texts, none becomes `active`, and all new sources are of new
memories and cite messages of `cited`. -/
structure Grows (db db' : Db F) (cited : Nat → Prop) : Prop where
  kept : ∀ r ∈ db.memories.rows, ∃ memory, (r.1, memory) ∈ db'.memories.rows ∧ SameText r.2 memory
  old : ∀ r ∈ db'.memories.rows, r.1 < db.memories.nextId →
    ∃ memory, (r.1, memory) ∈ db.memories.rows ∧ SameText memory r.2 ∧ (r.2.status = "active" → memory.status = "active")
  next : db.memories.nextId ≤ db'.memories.nextId
  sources : ∃ new, db'.memorySources.rows = db.memorySources.rows ++ new ∧ ∀ r ∈ new,
    db.memories.nextId ≤ r.2.memoryId ∧ r.2.memoryId < db'.memories.nextId ∧ cited r.2.messageId

theorem SameText.hasText {host : Host F} {projectId : Nat} {level : Level} {text : String} {memory memory' : Memory F}
    (h : SameText memory memory') :
    HasText host projectId level text memory' ↔ HasText host projectId level text memory := by
  obtain ⟨hproject, hlevel, hcontent⟩ := h
  rw [HasText, HasText, hproject, hlevel, textKey, textKey, hcontent]

theorem SameText.refl (memory : Memory F) : SameText memory memory := ⟨rfl, rfl, rfl⟩

theorem SameText.trans {memory memory' memory'' : Memory F} (h : SameText memory memory')
    (h' : SameText memory' memory'') : SameText memory memory'' :=
  ⟨h'.1.trans h.1, h'.2.1.trans h.2.1, h'.2.2.trans h.2.2⟩

/-- Rows are appended to both tables. -/
theorem Grows.of_append {db db' : Db F} {cited : Nat → Prop} (rows : List (Nat × Memory F))
    (sources : List (Nat × MemorySource)) (hrows : db'.memories.rows = db.memories.rows ++ rows)
    (hnew : ∀ r ∈ rows, db.memories.nextId ≤ r.1) (hnext : db.memories.nextId ≤ db'.memories.nextId)
    (hsources : db'.memorySources.rows = db.memorySources.rows ++ sources)
    (hcited : ∀ r ∈ sources, db.memories.nextId ≤ r.2.memoryId ∧ r.2.memoryId < db'.memories.nextId ∧
      cited r.2.messageId) : Grows db db' cited where
  kept r hr := ⟨r.2, by rw [hrows]; exact List.mem_append_left _ hr, .refl _⟩
  old r hr hlt := by
    rw [hrows] at hr
    rcases List.mem_append.mp hr with hr | hr
    · exact ⟨r.2, hr, .refl _, id⟩
    · exact absurd (hnew r hr) (Nat.not_le.mpr hlt)
  next := hnext
  sources := ⟨sources, hsources, hcited⟩

/-- Only the two tables matter. -/
theorem Grows.of_eq {db db' : Db F} (cited : Nat → Prop) (hmemories : db'.memories = db.memories)
    (hsources : db'.memorySources = db.memorySources) : Grows db db' cited := by
  refine Grows.of_append [] [] ?_ (by simp) ?_ ?_ (by simp)
  · rw [hmemories, List.append_nil]
  · rw [hmemories]
  · rw [hsources, List.append_nil]

theorem Grows.trans {db db' db'' : Db F} {cited : Nat → Prop} (h : Grows db db' cited) (h' : Grows db' db'' cited) :
    Grows db db'' cited where
  kept r hr := by
    obtain ⟨memory, hmemory, hsame⟩ := h.kept r hr
    obtain ⟨memory', hmemory', hsame'⟩ := h'.kept _ hmemory
    exact ⟨memory', hmemory', hsame.trans hsame'⟩
  old r hr hlt := by
    obtain ⟨memory, hmemory, hsame, hactive⟩ := h'.old r hr (Nat.lt_of_lt_of_le hlt h.next)
    obtain ⟨memory', hmemory', hsame', hactive'⟩ := h.old _ hmemory hlt
    exact ⟨memory', hmemory', hsame'.trans hsame, fun ha => hactive' (hactive ha)⟩
  next := h.next.trans h'.next
  sources := by
    obtain ⟨new, hnew, hcited⟩ := h.sources
    obtain ⟨new', hnew', hcited'⟩ := h'.sources
    refine ⟨new ++ new', by rw [hnew', hnew, List.append_assoc], fun r hr => ?_⟩
    rcases List.mem_append.mp hr with hr | hr
    · obtain ⟨hge, hlt, hmessage⟩ := hcited r hr
      exact ⟨hge, Nat.lt_of_lt_of_le hlt h'.next, hmessage⟩
    · obtain ⟨hge, hlt, hmessage⟩ := hcited' r hr
      exact ⟨h.next.trans hge, hlt, hmessage⟩

/-- The sources of a memory stay as they are. -/
theorem Grows.sourceMessages_eq {db db' : Db F} {cited : Nat → Prop} (h : Grows db db' cited) {memoryId : Nat}
    (hlt : memoryId < db.memories.nextId) : sourceMessages db' memoryId = sourceMessages db memoryId := by
  obtain ⟨new, hnew, hcited⟩ := h.sources
  have hnone : (new.filter fun r => r.2.memoryId = memoryId) = [] := by
    refine List.filter_eq_nil_iff.mpr fun r hr => ?_
    have hge := (hcited r hr).1
    have hne : r.2.memoryId ≠ memoryId := by omega
    simpa using hne
  rw [sourceMessages, hnew, List.filter_append, hnone, List.append_nil]
  rfl

theorem Grows.textMessage {host : Host F} {db db' : Db F} {cited : Nat → Prop} (h : Grows db db' cited)
    {projectId : Nat} {text : String} {messageId : Nat} (hmessage : TextMessage host db projectId text messageId) :
    TextMessage host db' projectId text messageId := by
  obtain ⟨r, hr, htext, hsource⟩ := hmessage
  obtain ⟨memory, hmemory, hsame⟩ := h.kept r hr
  refine ⟨_, hmemory, hsame.hasText.mpr htext, ?_⟩
  rw [h.sourceMessages_eq (db.memories.below r hr)]
  exact hsource

theorem Grows.hasL2 {host : Host F} {db db' : Db F} {cited : Nat → Prop} (h : Grows db db' cited)
    {projectId : Nat} {text : String} (hL2 : HasL2 host db projectId text) : HasL2 host db' projectId text := by
  obtain ⟨r, hr, htext⟩ := hL2
  obtain ⟨memory, hmemory, hsame⟩ := h.kept r hr
  exact ⟨_, hmemory, hsame.hasText.mpr htext⟩

theorem Grows.linked {sessions : Nat → Option String} {db db' : Db F} {cited : Nat → Prop} (h : Grows db db' cited)
    (hlinked : Linked sessions db) (hcited : ∀ messageId, cited messageId → (sessions messageId).isSome) :
    Linked sessions db' := by
  intro r hr
  obtain ⟨new, hnew, hnewCited⟩ := h.sources
  rw [hnew] at hr
  rcases List.mem_append.mp hr with hr | hr
  · obtain ⟨hlt, hsession⟩ := hlinked r hr
    exact ⟨Nat.lt_of_lt_of_le hlt h.next, hsession⟩
  · obtain ⟨-, hlt, hmessage⟩ := hnewCited r hr
    exact ⟨hlt, hcited _ hmessage⟩

theorem addSources_rows (memoryId : Nat) (messageIds : List Nat) (sources : Table MemorySource) :
    ∃ new, (addSources memoryId messageIds sources).rows = sources.rows ++ new ∧
      ∀ r ∈ new, r.2.memoryId = memoryId ∧ r.2.messageId ∈ messageIds := by
  induction messageIds generalizing sources with
  | nil => exact ⟨[], by simp [addSources], by simp⟩
  | cons messageId rest ih =>
    obtain ⟨new, hnew, hall⟩ := ih (sources.insert ⟨memoryId, messageId⟩)
    refine ⟨(sources.nextId, ⟨memoryId, messageId⟩) :: new, ?_, fun r hr => ?_⟩
    · rw [addSources, hnew]
      simp [Table.insert]
    · rcases List.mem_cons.mp hr with rfl | hr
      · exact ⟨rfl, List.mem_cons_self⟩
      · exact ⟨(hall r hr).1, List.mem_cons_of_mem _ (hall r hr).2⟩

/-- One memory with its sources. -/
theorem Grows.of_insert {db db' : Db F} {cited : Nat → Prop} {memory : Memory F} {messageIds : List Nat}
    (hmemories : db'.memories = db.memories.insert memory)
    (hsources : db'.memorySources = addSources db.memories.nextId messageIds db.memorySources)
    (hcited : ∀ messageId ∈ messageIds, cited messageId) : Grows db db' cited := by
  obtain ⟨new, hnew, hall⟩ := addSources_rows db.memories.nextId messageIds db.memorySources
  refine Grows.of_append [(db.memories.nextId, memory)] new (by rw [hmemories]; rfl) (by simp)
    (by rw [hmemories]; simp) (by rw [hsources, hnew]) fun r hr => ?_
  obtain ⟨hid, hmessage⟩ := hall r hr
  rw [hid, hmemories]
  exact ⟨le_rfl, Nat.lt_succ_self _, hcited _ hmessage⟩

/-! ## Promotion -/

/-- The text is promoted. -/
def Promotes (host : Host F) (known : List String) (rows : List (Sourced F)) (text : String) : Prop :=
  2 ≤ ((groupOf host rows text).map Sourced.session).eraseDups.length ∧ text ∉ known

instance (host : Host F) (known : List String) (rows : List (Sourced F)) (text : String) :
    Decidable (Promotes host known rows text) := inferInstanceAs (Decidable (_ ∧ _))

/-- A group that is not promoted changes nothing. -/
theorem reflectGroup_of_not {host : Host F} {projectId : Nat} {known : List String} {rows : List (Sourced F)}
    (db : Db F) {text : String} (hnot : ¬ Promotes host known rows text) :
    reflectGroup projectId known db text (groupOf host rows text) = .ok db := by
  unfold reflectGroup
  split
  · rfl
  · next first rest hgroup =>
    have hkept : (((first :: rest).map Sourced.session).eraseDups.length < 2 || known.contains text) = true := by
      rw [Promotes, hgroup] at hnot
      by_cases hknown : text ∈ known
      · simp [hknown]
      · have hlt : ((first :: rest).map Sourced.session).eraseDups.length < 2 :=
          Nat.lt_of_not_le fun h => hnot ⟨h, hknown⟩
        simpa using Or.inl hlt
    rw [hgroup]
    exact if_pos hkept

/-- Only the promoted texts matter. -/
theorem reflectGroups_filter (host : Host F) (projectId : Nat) (known : List String) (rows : List (Sourced F))
    (texts : List String) (db : Db F) :
    reflectGroups host projectId known rows db texts =
      reflectGroups host projectId known rows db (texts.filter fun text => Promotes host known rows text) := by
  induction texts generalizing db with
  | nil => rfl
  | cons text rest ih =>
    by_cases hpromotes : Promotes host known rows text
    · rw [List.filter_cons_of_pos (by simpa using hpromotes), reflectGroups, reflectGroups]
      split
      · rfl
      · next db' _ => exact ih db'
    · rw [List.filter_cons_of_neg (by simpa using hpromotes), reflectGroups]
      have hsame := @reflectGroup_of_not _ _ projectId _ _ db _ hpromotes
      rw [groupOf] at hsame
      rw [hsame]
      exact ih db

theorem lookup_append_ne {key other : String} (hne : other ≠ key) (fields : List (String × Json F)) (value : Json F) :
    (fields ++ [(other, value)]).lookup key = fields.lookup key := by
  induction fields with
  | nil => simp [List.lookup, show (key == other) = false by simpa using hne.symm]
  | cons f rest ih => simp [List.lookup, ih]

theorem lookup_map_ne {key other : String} (hne : other ≠ key) (fields : List (String × Json F)) (value : Json F) :
    (fields.map fun f => if f.1 = other then (other, value) else f).lookup key = fields.lookup key := by
  induction fields with
  | nil => rfl
  | cons f rest ih =>
    obtain ⟨name, content⟩ := f
    by_cases hname : name = other
    · subst hname
      have hkey : (key == name) = false := by simpa using hne.symm
      simp [List.lookup, hkey, ih]
    · simp [List.lookup, hname, ih]

/-- A field that is added changes no other field. -/
theorem get?_withField {key other : String} (hne : other ≠ key) (value content : Json F) :
    (withField other value content).get? key = content.get? key := by
  cases content with
  | obj fields =>
    rw [withField]
    split
    · exact lookup_map_ne hne fields value
    · exact lookup_append_ne hne fields value
  | _ => rfl

/-- The knowledge of a text has the text. -/
theorem knowledgeMemory_hasText {host : Host F} {projectId : Nat} {text : String} {source : Memory F}
    (htext : textKey host source = text) (sessions : List String) :
    HasText host projectId .L2 text (knowledgeMemory projectId source sessions) := by
  refine ⟨rfl, rfl, ?_⟩
  rw [← htext, textKey, textKey, knowledgeMemory, get?_withField (by decide)]

/-- What the promotion of `texts` writes: for each text one knowledge, with the messages of the text as its
sources. -/
structure Promoted (host : Host F) (projectId : Nat) (messagesOf : String → List Nat) (db db' : Db F)
    (texts : List String) (new : List (Nat × Memory F)) : Prop where
  rows : db'.memories.rows = db.memories.rows ++ new
  promoted : (new.map fun r => textKey host r.2) = texts
  knowledge : ∀ r ∈ new, db.memories.nextId ≤ r.1 ∧ r.2.projectId = some projectId ∧ r.2.level = .L2 ∧
    r.2.status = "active" ∧ sourceMessages db' r.1 = messagesOf (textKey host r.2)
  grows : Grows db db' fun messageId => ∃ text ∈ texts, messageId ∈ messagesOf text
  rest : db' = { db with memories := db'.memories, memorySources := db'.memorySources }

theorem sourceMessages_nextId {sessions : Nat → Option String} {db : Db F} (hlinked : Linked sessions db) :
    sourceMessages db db.memories.nextId = [] := by
  have hnone : (db.memorySources.rows.filter fun r => r.2.memoryId = db.memories.nextId) = [] := by
    refine List.filter_eq_nil_iff.mpr fun r hr => ?_
    have hlt := (hlinked r hr).1
    have hne : r.2.memoryId ≠ db.memories.nextId := by omega
    simpa using hne
  rw [sourceMessages, hnone]
  rfl

theorem Grows.mono {db db' : Db F} {cited cited' : Nat → Prop} (h : Grows db db' cited)
    (hmono : ∀ messageId, cited messageId → cited' messageId) : Grows db db' cited' where
  kept := h.kept
  old := h.old
  next := h.next
  sources := by
    obtain ⟨new, hnew, hcited⟩ := h.sources
    exact ⟨new, hnew, fun r hr => ⟨(hcited r hr).1, (hcited r hr).2.1, hmono _ (hcited r hr).2.2⟩⟩

/-- A promoted group whose messages are different gets its knowledge. -/
theorem reflectGroup_promoted {host : Host F} {projectId : Nat} {known : List String} {rows : List (Sourced F)}
    {sessions : Nat → Option String} {db : Db F} {text : String} {messageIds : List Nat} (hlinked : Linked sessions db)
    (hpromotes : Promotes host known rows text) (hmessages : groupMessages host rows (sourceMessages db) text = messageIds)
    (hnodup : messageIds.Nodup) :
    ∃ db' r, reflectGroup projectId known db text (groupOf host rows text) = .ok db' ∧
      Promoted host projectId (fun _ => messageIds) db db' [text] [r] := by
  cases hgroup : groupOf host rows text with
  | nil =>
    rw [Promotes, hgroup] at hpromotes
    simp at hpromotes
  | cons first rest =>
    have htext : textKey host first.memory = text := by
      have hmem : first ∈ groupOf host rows text := by
        rw [hgroup]
        exact List.mem_cons_self
      simpa using (List.mem_filter.mp hmem).2
    have hopen : ¬ (((first :: rest).map Sourced.session).eraseDups.length < 2 || known.contains text) = true := by
      rw [Promotes, hgroup] at hpromotes
      simpa only [Bool.or_eq_true, decide_eq_true_eq, List.contains_iff_mem, not_or, Nat.not_lt] using hpromotes
    rw [groupMessages, hgroup] at hmessages
    have hok : reflectGroup projectId known db text (first :: rest) = .ok { db with
        memories := db.memories.insert
          (knowledgeMemory projectId first.memory ((first :: rest).map Sourced.session).eraseDups)
        memorySources := addSources db.memories.nextId messageIds db.memorySources } := by
      rw [reflectGroup]
      simp only [hopen, hmessages, hnodup, if_true]
      rfl
    have hknowledge := @knowledgeMemory_hasText _ host projectId text first.memory htext
      ((first :: rest).map Sourced.session).eraseDups
    refine ⟨_, (db.memories.nextId, _), hok, rfl, ?_, ?_, ?_, rfl⟩
    · simpa using hknowledge.2.2
    · intro r hr
      obtain rfl := List.mem_singleton.mp hr
      refine ⟨le_rfl, hknowledge.1, hknowledge.2.1, rfl, ?_⟩
      show sourcesOf (addSources db.memories.nextId messageIds db.memorySources) db.memories.nextId = messageIds
      rw [Candidates.addSources_of_memory]
      show sourceMessages db db.memories.nextId ++ messageIds = messageIds
      rw [sourceMessages_nextId hlinked, List.nil_append]
    · exact Grows.of_insert rfl rfl fun messageId hmessage => ⟨text, List.mem_singleton_self text, hmessage⟩

/-- A promoted group that would copy a message twice violates the unique constraint. -/
theorem reflectGroup_repeated {host : Host F} {projectId : Nat} {known : List String} {rows : List (Sourced F)}
    {db : Db F} {text : String} (hpromotes : Promotes host known rows text)
    (hrepeated : ¬ (groupMessages host rows (sourceMessages db) text).Nodup) :
    reflectGroup projectId known db text (groupOf host rows text) =
      .error (.integrity "uq_memory_sources_memory_message") := by
  cases hgroup : groupOf host rows text with
  | nil =>
    rw [Promotes, hgroup] at hpromotes
    simp at hpromotes
  | cons first rest =>
    have hopen : ¬ (((first :: rest).map Sourced.session).eraseDups.length < 2 || known.contains text) = true := by
      rw [Promotes, hgroup] at hpromotes
      simpa only [Bool.or_eq_true, decide_eq_true_eq, List.contains_iff_mem, not_or, Nat.not_lt] using hpromotes
    rw [groupMessages, hgroup] at hrepeated
    rw [reflectGroup]
    simp only [hopen, hrepeated]
    rfl

/-- **The promotion of a list of texts** succeeds exactly when no message would be copied twice for a text.  By
induction on the list: the sources of the memories in the groups stay as they are. -/
theorem reflectGroups_cases {host : Host F} {projectId : Nat} {known : List String} {rows : List (Sourced F)}
    {sessions : Nat → Option String} {messagesOf : String → List Nat} (texts : List String) {db : Db F}
    (hlinked : Linked sessions db) (hrows : ∀ row ∈ rows, row.memoryId < db.memories.nextId)
    (hmessages : ∀ text ∈ texts, groupMessages host rows (sourceMessages db) text = messagesOf text)
    (hsessions : ∀ text ∈ texts, ∀ messageId ∈ messagesOf text, (sessions messageId).isSome)
    (hpromotes : ∀ text ∈ texts, Promotes host known rows text) :
    ((∀ text ∈ texts, (messagesOf text).Nodup) ∧
      ∃ db' new, reflectGroups host projectId known rows db texts = .ok db' ∧
        Promoted host projectId messagesOf db db' texts new) ∨
    ((¬ ∀ text ∈ texts, (messagesOf text).Nodup) ∧
      ∃ error, reflectGroups host projectId known rows db texts = .error error) := by
  induction texts generalizing db with
  | nil =>
    exact Or.inl ⟨by simp, db, [], rfl, (List.append_nil _).symm, rfl, by simp, Grows.of_eq _ rfl rfl, rfl⟩
  | cons text rest ih =>
    have hself : text ∈ text :: rest := List.mem_cons_self
    have hlater : ∀ {other}, other ∈ rest → other ∈ text :: rest := fun h => List.mem_cons_of_mem _ h
    by_cases hnodup : (messagesOf text).Nodup
    case neg =>
      have hrepeated : ¬ (groupMessages host rows (sourceMessages db) text).Nodup := by
        rw [hmessages text hself]
        exact hnodup
      have hfirst := @reflectGroup_repeated _ host projectId known rows db text (hpromotes text hself) hrepeated
      rw [groupOf] at hfirst
      refine Or.inr ⟨fun h => hnodup (h text hself), .integrity "uq_memory_sources_memory_message", ?_⟩
      rw [reflectGroups, hfirst]
    obtain ⟨db₁, r, hfirst, hpromoted⟩ := @reflectGroup_promoted _ host projectId known rows sessions db text _ hlinked
      (hpromotes text hself) (hmessages text hself) hnodup
    have hgrows := hpromoted.grows.mono fun messageId h =>
      show ∃ other ∈ text :: rest, messageId ∈ messagesOf other from
        h.elim fun other h => ⟨text, hself, h.2⟩
    have hlinked₁ : Linked sessions db₁ := hgrows.linked hlinked fun messageId h =>
      h.elim fun other h => hsessions other h.1 messageId h.2
    have hmessages₁ : ∀ other ∈ rest, groupMessages host rows (sourceMessages db₁) other = messagesOf other := by
      intro other hother
      rw [← hmessages other (hlater hother)]
      exact List.flatMap_congr fun row hrow => hgrows.sourceMessages_eq (hrows row (List.mem_of_mem_filter hrow))
    have hunfold : reflectGroups host projectId known rows db (text :: rest) =
        reflectGroups host projectId known rows db₁ rest := by
      rw [groupOf] at hfirst
      rw [reflectGroups, hfirst]
    rw [hunfold]
    rcases ih hlinked₁ (fun row hrow => Nat.lt_of_lt_of_le (hrows row hrow) hgrows.next) hmessages₁
      (fun other h => hsessions other (hlater h)) (fun other h => hpromotes other (hlater h)) with
      ⟨hnodups, db', new, hrest, hnew⟩ | ⟨hrepeated, hrest⟩
    case inr => exact Or.inr ⟨fun h => hrepeated fun other hother => h other (hlater hother), hrest⟩
    refine Or.inl ⟨List.forall_mem_cons.mpr ⟨hnodup, hnodups⟩, db', r :: new, hrest, ?_, ?_, ?_, ?_, ?_⟩
    · rw [hnew.rows, hpromoted.rows, List.append_assoc, List.singleton_append]
    · have htext := hpromoted.promoted
      simp only [List.map_cons, List.map_nil, List.cons.injEq, and_true] at htext
      rw [List.map_cons, htext, hnew.promoted]
    · intro row hrow
      rcases List.mem_cons.mp hrow with rfl | hrow
      · obtain ⟨hge, hproject, hlevel, hactive, hsources⟩ := hpromoted.knowledge row (List.mem_singleton_self row)
        have hlt : row.1 < db₁.memories.nextId := db₁.memories.below row (by
          rw [hpromoted.rows]
          exact List.mem_append_right _ (List.mem_singleton_self row))
        have htext := hpromoted.promoted
        simp only [List.map_cons, List.map_nil, List.cons.injEq, and_true] at htext
        rw [hnew.grows.sourceMessages_eq hlt, hsources, htext]
        exact ⟨hge, hproject, hlevel, hactive, rfl⟩
      · obtain ⟨hge, hknowledge⟩ := hnew.knowledge row hrow
        exact ⟨hgrows.next.trans hge, hknowledge⟩
    · exact hgrows.trans (hnew.grows.mono fun messageId h =>
        h.elim fun other h => ⟨other, hlater h.1, h.2⟩)
    · have hrest₁ := hpromoted.rest
      have hrest₂ := hnew.rest
      rw [hrest₂, hrest₁]

end

end CodexMemory.Memories
