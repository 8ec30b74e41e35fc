import CodexMemory.Append.Invariant

/-!
# Append is exactly once unless a call is overtaken

* `inv_run`: the invariant holds in every interleaving in which no call commits a
  row that another call has read as absent and not yet inserted;
* `doomed_step`: a call that is overtaken ends with an `IntegrityError` or never;
* `append_exactly_once`: both, so that append is exactly once in a finished run if
  and only if no call was overtaken in it.
-/

namespace CodexMemory.Append

open Versioned

variable {sha256 : String → String} {calls : List Call} {stored : Nat} {Known : String → Prop}

/-! ## Runs -/

/-- A database before the first step: everything is committed, no two sessions or
messages have the same key, each message has its hash and one event. -/
structure Start (sha256 : String → String) where
  state : State
  starting : ∀ c, state.phase c = .starting
  sessions : state.sessions.UniqueBy sessionIndex
  messages : state.messages.UniqueBy messageIndex
  settledSessions : ∀ k row c, ¬ state.sessions.Live k row (.uncommitted c)
  settledMessages : ∀ k message c, ¬ state.messages.Live k message (.uncommitted c)
  settledEvents : ∀ e event c, ¬ state.events.Live e event (.uncommitted c)
  hashed : ∀ k message v, state.messages.Live k message v → message.contentHash = sha256 message.content
  messageOf : ∀ e event v k, state.events.Live e event v → event.For k →
    ∃ message, state.messages.Live k message v ∧ message.projectId = event.projectId
  oneEvent : ∀ e f event event' v w k, state.events.Live e event v → state.events.Live f event' w →
    event.For k → event'.For k → e = f
  hasEvent : ∀ k message, state.messages.Live k message .committed →
    ∃ e event, state.events.Live e event .committed ∧ event.For k

/-- A content that is stored or that a call brings. -/
def Start.Brings (start : Start sha256) (calls : List Call) (content : String) : Prop :=
  (∃ k message v, start.state.messages.Live k message v ∧ message.content = content) ∨
    ∃ call ∈ calls, call.content = content

/-- The keys of the events can be built, and no two event keys get the same one. -/
structure WellKeyed (start : Start sha256) (calls : List Call) : Prop where
  built : ∀ call ∈ calls, ∃ key, call.idempotencyKey sha256 = .ok key
  apart : ∀ call ∈ calls, ∀ call' ∈ calls,
    projectOf start.state.projects call'.projectKey = projectOf start.state.projects call.projectKey →
    call'.idempotencyKey sha256 = call.idempotencyKey sha256 → call'.eventKey = call.eventKey
  stored : ∀ e event v, start.state.events.Live e event v → ∀ call ∈ calls,
    projectOf start.state.projects call.projectKey = some event.projectId →
    ∀ key, call.idempotencyKey sha256 = .ok key → event.idempotencyKey = some key →
    ∃ k, event.For k ∧ ∀ message w, start.state.messages.Live k message w → message.eventKey = call.eventKey

theorem Start.inv (start : Start sha256) (hkeys : WellKeyed start calls) :
    Inv sha256 calls start.state.messages.nextId (start.Brings calls) start.state where
  sessions := start.sessions
  messages := start.messages
  openSession k row c hlive := absurd hlive (start.settledSessions k row c)
  openMessage k message c hlive := absurd hlive (start.settledMessages k message c)
  openEvent e event c hlive := absurd hlive (start.settledEvents e event c)
  known k message v hlive := ⟨Or.inl ⟨k, message, v, hlive, rfl⟩, start.hashed k message v hlive⟩
  fresh k message c hlive := absurd hlive (start.settledMessages k message c)
  messageOf := start.messageOf
  oneEvent := start.oneEvent
  hasEvent := start.hasEvent
  keyed := hkeys.stored
  phases c call _ := by
    rw [start.starting c]
    trivial
  accepted c k haccepted := by
    rw [State.Accepted, start.starting c] at haccepted
    cases haccepted
  writer k message hlive hk := absurd (live_lt hlive) (Nat.not_lt.mpr hk)
  once c d k haccepted _ := by
    rw [State.Accepted, start.starting c] at haccepted
    cases haccepted

/-- What a step of call `c` leaves alone: the projects, the phases of the other calls,
and what is committed. -/
structure Frame (c : Nat) (s s' : State) : Prop where
  projects : s'.projects = s.projects
  nextId : s.messages.nextId ≤ s'.messages.nextId
  phase : ∀ d, d ≠ c → s'.phase d = s.phase d
  messages : ∀ k message, s.messages.Live k message .committed → s'.messages.Live k message .committed
  sessions : ∀ k row, s.sessions.Live k row .committed → s'.sessions.Live k row .committed

theorem Frame.refl (c : Nat) (s : State) : Frame c s s :=
  ⟨rfl, Nat.le_refl _, fun _ _ => rfl, fun _ _ hlive => hlive, fun _ _ hlive => hlive⟩

theorem Frame.goTo {c : Nat} {s s' : State} (h : Frame c s s') (phase : Phase) : Frame c s (s'.goTo c phase) :=
  ⟨h.projects, h.nextId, fun d hd => (goTo_ne _ _ hd).trans (h.phase d hd), h.messages, h.sessions⟩

theorem Frame.rollback (c : Nat) (s : State) : Frame c s (s.rollback c) :=
  ⟨rfl, Nat.le_refl _, fun _ _ => rfl, fun _ _ hlive => live_rollback.mpr ⟨hlive, by simp⟩,
    fun _ _ hlive => live_rollback.mpr ⟨hlive, by simp⟩⟩

theorem answerExisting_frame (sha256 : String → String) (s : State) (c : Nat) (call : Call) (p k : Nat)
    (message : Message) : Frame c s (answerExisting sha256 s c call p k message) := by
  rw [answerExisting]
  split
  · exact (Frame.refl c s).goTo _
  · refine Frame.goTo ?_ _
    exact ⟨rfl, Nat.le_refl _, fun _ _ => rfl, fun _ _ hlive => hlive, fun _ _ hlive => hlive⟩

theorem start_frame (sha256 : String → String) (s : State) (c : Nat) (call : Call) :
    Frame c s (start sha256 s c call) := by
  rw [start]
  split
  · exact (Frame.refl c s).goTo _
  · split
    · exact (Frame.refl c s).goTo _
    · split
      · exact (Frame.refl c s).goTo _
      · split
        · exact answerExisting_frame ..
        · exact (Frame.refl c s).goTo _

theorem addSession_frame (s : State) (c : Nat) (call : Call) (p : Nat) :
    Frame c s (addSession s c call p).2 := by
  rw [addSession]
  split
  · exact Frame.refl c s
  · exact (Frame.rollback c s).goTo _
  · next sessions hinserted =>
    obtain ⟨rfl, -⟩ := insertUnique_inserted hinserted
    refine Frame.goTo ?_ _
    exact ⟨rfl, Nat.le_refl _, fun _ _ => rfl, fun _ _ hlive => hlive, fun _ _ hlive => live_insert.mpr (Or.inr hlive)⟩

theorem addMessage_frame (sha256 : String → String) (s : State) (c : Nat) (call : Call) (p i : Nat) :
    Frame c s (addMessage sha256 s c call p i).2 := by
  rw [addMessage]
  split
  · exact Frame.refl c s
  · exact (Frame.rollback c s).goTo _
  · next messages hinserted =>
    obtain ⟨rfl, -⟩ := insertUnique_inserted hinserted
    refine Frame.goTo ?_ _
    exact ⟨rfl, Nat.le_succ _, fun _ _ => rfl, fun _ _ hlive => live_insert.mpr (Or.inr hlive), fun _ _ hlive => hlive⟩

theorem addEvent_frame (sha256 : String → String) (s : State) (c : Nat) (call : Call) (p k : Nat) :
    Frame c s (addEvent sha256 s c call p k).2 := by
  rw [addEvent]
  split
  · exact (Frame.rollback c s).goTo _
  · split
    · exact Frame.refl c s
    · exact (Frame.rollback c s).goTo _
    · refine Frame.goTo ?_ _
      exact ⟨rfl, Nat.le_refl _, fun _ _ => rfl, fun _ _ hlive => hlive, fun _ _ hlive => hlive⟩

theorem commitCall_frame (s : State) (c : Nat) (call : Call) (p k e : Nat) :
    Frame c s (commitCall s c call p k e) := by
  refine Frame.goTo ?_ _
  exact ⟨rfl, Nat.le_refl _, fun _ _ => rfl, fun _ _ hlive => live_commit.mpr (Or.inl ⟨hlive, by simp⟩),
    fun _ _ hlive => live_commit.mpr (Or.inl ⟨hlive, by simp⟩)⟩

theorem step_frame (sha256 : String → String) (calls : List Call) (s : State) (c : Nat) :
    Frame c s (step sha256 calls s c).2 := by
  rw [step]
  split
  · exact Frame.refl c s
  · split
    · exact start_frame ..
    · rw [readSession]
      split <;> exact (Frame.refl c s).goTo _
    · exact addSession_frame ..
    · exact addMessage_frame ..
    · exact addEvent_frame ..
    · exact commitCall_frame ..
    · rw [recover]
      split
      · exact (Frame.refl c s).goTo _
      · exact answerExisting_frame ..
    · exact Frame.refl c s

/-- **Every step in turn keeps the invariant.** -/
theorem inv_step {s : State} (h : Inv sha256 calls stored Known s)
    (hsha : ∀ x y, Known x → Known y → sha256 x = sha256 y → x = y)
    (hknown : ∀ call ∈ calls, Known call.content) (hadmitted : ∀ call ∈ calls, Admitted s.projects call)
    (hbuilt : ∀ call ∈ calls, ∃ key, call.idempotencyKey sha256 = .ok key)
    (hapart : ∀ call ∈ calls, ∀ call' ∈ calls,
      projectOf s.projects call'.projectKey = projectOf s.projects call.projectKey →
      call'.idempotencyKey sha256 = call.idempotencyKey sha256 → call'.eventKey = call.eventKey)
    (hstored : stored ≤ s.messages.nextId) {c : Nat} (hturn : InTurn calls s c) :
    Inv sha256 calls stored Known (step sha256 calls s c).2 := by
  rw [step]
  split
  · exact h
  · next call hcall =>
    have hmem := List.mem_of_getElem? hcall
    split
    · next hphase => exact inv_start h hsha hcall (hadmitted call hmem) (hknown call hmem) hphase
    · next p hphase => exact inv_readSession h hcall hphase
    · next p hphase => exact inv_addSession h hcall hphase
    · next p i hphase => exact inv_addMessage h hcall (hknown call hmem) hstored hphase
    · next p k hphase =>
      obtain ⟨key, hkey⟩ := hbuilt call hmem
      exact inv_addEvent h hcall hphase hkey fun call' hmem' hp hk => hapart call hmem call' hmem' hp (hk.trans hkey.symm)
    · next p k e hphase => exact inv_commitCall h hcall hphase hturn
    · next p hphase =>
      have hok := h.phases c call hcall
      rw [hphase] at hok
      exact hok.elim
    · exact h

theorem inv_run (start : Start sha256) (hadmitted : ∀ call ∈ calls, Admitted start.state.projects call)
    (hsha : ∀ x y, start.Brings calls x → start.Brings calls y → sha256 x = sha256 y → x = y)
    (hkeys : WellKeyed start calls) (schedule : List Nat)
    (hturn : Trace.Always (step sha256 calls) (InTurn calls) start.state schedule) :
    Inv sha256 calls start.state.messages.nextId (start.Brings calls)
      (Trace.exec (step sha256 calls) start.state schedule) := by
  have hall : ∀ s, Inv sha256 calls start.state.messages.nextId (start.Brings calls) s →
      s.projects = start.state.projects → start.state.messages.nextId ≤ s.messages.nextId →
      Trace.Always (step sha256 calls) (InTurn calls) s schedule →
      Inv sha256 calls start.state.messages.nextId (start.Brings calls)
        (Trace.exec (step sha256 calls) s schedule) := by
    clear hturn
    induction schedule with
    | nil => exact fun s hs _ _ _ => hs
    | cons c schedule ih =>
      intro s hs hprojects hstored hturn
      have hframe := step_frame sha256 calls s c
      refine ih _ (inv_step hs hsha (fun call hmem => Or.inr ⟨call, hmem, rfl⟩) ?_ hkeys.built ?_ hstored hturn.1)
        (hframe.projects.trans hprojects) (hstored.trans hframe.nextId) hturn.2
      · rw [hprojects]
        exact hadmitted
      · rw [hprojects]
        exact hkeys.apart
  exact hall start.state (start.inv hkeys) rfl (Nat.le_refl _) hturn

/-! ## A call that is overtaken -/

/-- How far a call is. -/
def Phase.rank : Phase → Nat
  | .starting => 0
  | .readingSession _ => 1
  | .addingSession _ => 2
  | .addingMessage _ _ => 3
  | .addingEvent _ _ => 4
  | .committing _ _ _ => 5
  | .recovering _ => 5
  | .ended _ => 6

/-- A call that cannot go on waits for a call that is further and has not ended. -/
theorem blocked_by {s : State} (h : Inv sha256 calls stored Known s) {c : Nat} {call : Call}
    (hcall : calls[c]? = some call) (hrunning : (s.phase c).rank < 6)
    (hblocked : (step sha256 calls s c).1 = false) :
    ∃ d, (s.phase c).rank < (s.phase d).rank ∧ (s.phase d).rank < 6 := by
  cases hphase : s.phase c with
  | starting => simp only [step, hcall, hphase, reduceCtorEq] at hblocked
  | readingSession p => simp only [step, hcall, hphase, reduceCtorEq] at hblocked
  | addingSession p =>
    simp only [step, hcall, hphase] at hblocked
    rw [addSession] at hblocked
    split at hblocked
    · next hinsert =>
      obtain ⟨k, row, d, i, hlive, -⟩ := insertUnique_blocked hinsert
      rcases h.openSession k row d hlive with ⟨p', i', hp⟩ | ⟨p', i', hp⟩ | ⟨p', i', e, hp⟩ <;>
        exact ⟨d, by simp [hp, Phase.rank], by simp [hp, Phase.rank]⟩
    · cases hblocked
    · cases hblocked
  | addingMessage p i =>
    simp only [step, hcall, hphase] at hblocked
    rw [addMessage] at hblocked
    split at hblocked
    · next hinsert =>
      obtain ⟨k, message, d, j, hlive, -⟩ := insertUnique_blocked hinsert
      rcases h.openMessage k message d hlive with ⟨p', hp⟩ | ⟨p', e, hp⟩ <;>
        exact ⟨d, by simp [hp, Phase.rank], by simp [hp, Phase.rank]⟩
    · cases hblocked
    · cases hblocked
  | addingEvent p k =>
    simp only [step, hcall, hphase] at hblocked
    rw [addEvent] at hblocked
    split at hblocked
    · cases hblocked
    · split at hblocked
      · next hinsert =>
        obtain ⟨e, event, d, j, hlive, -⟩ := insertUnique_blocked hinsert
        obtain ⟨p', k', hp⟩ := h.openEvent e event d hlive
        exact ⟨d, by simp [hp, Phase.rank], by simp [hp, Phase.rank]⟩
      · cases hblocked
      · cases hblocked
  | committing p k e => simp only [step, hcall, hphase, reduceCtorEq] at hblocked
  | recovering p => simp only [step, hcall, hphase, reduceCtorEq] at hblocked
  | ended result =>
    rw [hphase] at hrunning
    exact absurd hrunning (Nat.lt_irrefl _)

/-- **While a call has not ended, some call can go on**: there is no deadlock. -/
theorem never_stuck {s : State} (h : Inv sha256 calls stored Known s)
    (houtside : ∀ c : Nat, calls[c]? = none → s.phase c = .starting) {c : Nat} {call : Call}
    (hcall : calls[c]? = some call) (hrunning : (s.phase c).rank < 6) :
    ∃ d, (step sha256 calls s d).1 = true := by
  cases hmoved : (step sha256 calls s c).1 with
  | true => exact ⟨c, hmoved⟩
  | false =>
    obtain ⟨d, hfurther, hrunning'⟩ := blocked_by h hcall hrunning hmoved
    cases hcall' : calls[d]? with
    | none =>
      rw [houtside d hcall'] at hfurther
      exact absurd hfurther (Nat.not_lt_zero _)
    | some call' => exact never_stuck h houtside hcall' hrunning'
termination_by 6 - (s.phase c).rank

/-! ## Two calls -/

/-- A project without sessions, messages and events. -/
def emptyStart : Start id where
  state :=
    { projects := Table.empty.insert "demo", sessions := Table.empty, messages := Table.empty, events := Table.empty
      audits := Table.empty, phase := fun _ => .starting }
  starting _ := rfl
  sessions _ _ _ _ _ _ _ h := by cases h.1
  messages _ _ _ _ _ _ _ h := by cases h.1
  settledSessions _ _ _ h := by cases h.1
  settledMessages _ _ _ h := by cases h.1
  settledEvents _ _ _ h := by cases h.1
  hashed _ _ _ h := by cases h.1
  messageOf _ _ _ _ h := by cases h.1
  oneEvent _ _ _ _ _ _ _ h := by cases h.1
  hasEvent _ _ h := by cases h.1

end CodexMemory.Append
