import CodexMemory.Append.Model

/-!
# What every statement of a call keeps

* `ExactlyOnce`: every call that has ended found one stored message under its
  event key, and stored it or agreed or conflicted with it; each stored message
  was accepted once and has one event;
* `Inv`: the invariant behind it, with one lemma for each statement of a call; the
  commit keeps it when it overtakes no other call (`InTurn`).
-/

namespace CodexMemory.Append

open Versioned

variable {sha256 : String → String} {calls : List Call}

/-! ## What is claimed -/

/-- The event was made for message `k`. -/
def OutboxEvent.For (event : OutboxEvent) (k : Nat) : Prop :=
  event.eventType = "message.appended.v1" ∧ event.aggregateType = "message" ∧ event.aggregateId = k

/-- The message of a call that has returned `accepted`. -/
def Phase.accepted : Phase → Option Nat
  | .ended (.returned result) => if result.status = .accepted then some result.messageId else none
  | _ => none

/-- Call `c` was accepted and stored message `k`. -/
def State.Accepted (s : State) (c k : Nat) : Prop := (s.phase c).accepted = some k

/-- A call has ended as it must: with `accepted` or `duplicate` for a stored message
of its content, or with a conflict with a stored message of another content. -/
def State.EndedWell (s : State) (call : Call) (ended : Ended) : Prop :=
  ∃ k message, s.messages.Live k message .committed ∧
    projectOf s.projects call.projectKey = some message.projectId ∧ message.eventKey = call.eventKey ∧
    match ended with
    | .returned result => message.content = call.content ∧ result.messageId = k ∧
        (result.status = .accepted ∨ result.status = .duplicate)
    | .conflict _ => message.content ≠ call.content
    | _ => False

/-- No message is stored under the event key. -/
def State.NoMessage (s : State) (projectId : Nat) (eventKey : String) : Prop :=
  ∀ k message, s.messages.Live k message .committed → message.projectId = projectId → message.eventKey ≠ eventKey

/-- No session is stored under the session key. -/
def State.NoSession (s : State) (projectId : Nat) (sessionKey : String) : Prop :=
  ∀ k row, s.sessions.Live k row .committed → row.projectId = projectId → row.sessionKey ≠ sessionKey

/-- The project in which a call has found no message and not yet added one. -/
def Phase.awaitsMessage : Phase → Option Nat
  | .readingSession p | .addingSession p | .addingMessage p _ => some p
  | _ => none

/-- The project in which a call has found no session and not yet added one. -/
def Phase.awaitsSession : Phase → Option Nat
  | .addingSession p => some p
  | _ => none

/-- The message of call `c` is in its transaction under key `k`. -/
def State.HasAdded (sha256 : String → String) (s : State) (c : Nat) (call : Call) (p k : Nat) : Prop :=
  ∃ sessionId, s.messages.Live k (call.message sha256 p sessionId) (.uncommitted c)

/-- What holds of a call in its phase. -/
def State.PhaseOk (sha256 : String → String) (s : State) (c : Nat) (call : Call) : Phase → Prop
  | .starting => True
  | .readingSession p | .addingMessage p _ =>
    projectOf s.projects call.projectKey = some p ∧ s.NoMessage p call.eventKey
  | .addingSession p => projectOf s.projects call.projectKey = some p ∧ s.NoMessage p call.eventKey ∧
      s.NoSession p call.sessionKey
  | .addingEvent p k => projectOf s.projects call.projectKey = some p ∧ s.HasAdded sha256 c call p k
  | .committing p k e => projectOf s.projects call.projectKey = some p ∧ s.HasAdded sha256 c call p k ∧
      ∃ key, s.events.Live e (call.event p k key) (.uncommitted c)
  | .recovering _ => False
  | .ended result => s.EndedWell call result

/-- The uncommitted rows are those of the calls that have added them, and the
committed ones belong together. -/
structure Inv (sha256 : String → String) (calls : List Call) (stored : Nat) (Known : String → Prop) (s : State) :
    Prop where
  sessions : s.sessions.UniqueBy sessionIndex
  messages : s.messages.UniqueBy messageIndex
  openSession : ∀ k row c, s.sessions.Live k row (.uncommitted c) →
    (∃ p i, s.phase c = .addingMessage p i) ∨ (∃ p i, s.phase c = .addingEvent p i) ∨
      ∃ p i e, s.phase c = .committing p i e
  openMessage : ∀ k message c, s.messages.Live k message (.uncommitted c) →
    (∃ p, s.phase c = .addingEvent p k) ∨ ∃ p e, s.phase c = .committing p k e
  openEvent : ∀ e event c, s.events.Live e event (.uncommitted c) → ∃ p k, s.phase c = .committing p k e
  known : ∀ k message v, s.messages.Live k message v →
    Known message.content ∧ message.contentHash = sha256 message.content
  fresh : ∀ k message c, s.messages.Live k message (.uncommitted c) → stored ≤ k
  messageOf : ∀ e event v k, s.events.Live e event v → event.For k →
    ∃ message, s.messages.Live k message v ∧ message.projectId = event.projectId
  oneEvent : ∀ e f event event' v w k, s.events.Live e event v → s.events.Live f event' w →
    event.For k → event'.For k → e = f
  hasEvent : ∀ k message, s.messages.Live k message .committed →
    ∃ e event, s.events.Live e event .committed ∧ event.For k
  keyed : ∀ e event v, s.events.Live e event v → ∀ call ∈ calls,
    projectOf s.projects call.projectKey = some event.projectId →
    ∀ key, call.idempotencyKey sha256 = .ok key → event.idempotencyKey = some key →
    ∃ k, event.For k ∧ ∀ message w, s.messages.Live k message w → message.eventKey = call.eventKey
  phases : ∀ (c : Nat) call, calls[c]? = some call → s.PhaseOk sha256 c call (s.phase c)
  accepted : ∀ c k, s.Accepted c k → stored ≤ k ∧ ∃ message, s.messages.Live k message .committed
  writer : ∀ k message, s.messages.Live k message .committed → stored ≤ k → ∃ c, s.Accepted c k
  once : ∀ c d k, s.Accepted c k → s.Accepted d k → c = d

/-- What holds of a call in its phase survives when its rows stay and no row that it
awaits is stored. -/
theorem phaseOk_mono {s s' : State} {c : Nat} {call : Call} {phase : Phase}
    (hprojects : s'.projects = s.projects)
    (hmessages : ∀ k message v, s.messages.Live k message v → v = .committed ∨ v = .uncommitted c →
      s'.messages.Live k message v)
    (hevents : ∀ e event, s.events.Live e event (.uncommitted c) → s'.events.Live e event (.uncommitted c))
    (hmessage : ∀ p, phase.awaitsMessage = some p → s.NoMessage p call.eventKey → s'.NoMessage p call.eventKey)
    (hsession : ∀ p, phase.awaitsSession = some p → s.NoSession p call.sessionKey → s'.NoSession p call.sessionKey)
    (h : s.PhaseOk sha256 c call phase) : s'.PhaseOk sha256 c call phase := by
  have hadded : ∀ {p k}, s.HasAdded sha256 c call p k → s'.HasAdded sha256 c call p k :=
    fun ⟨sessionId, hlive⟩ => ⟨sessionId, hmessages _ _ _ hlive (Or.inr rfl)⟩
  cases phase with
  | starting => trivial
  | readingSession p => exact ⟨hprojects ▸ h.1, hmessage p rfl h.2⟩
  | addingSession p => exact ⟨hprojects ▸ h.1, hmessage p rfl h.2.1, hsession p rfl h.2.2⟩
  | addingMessage p i => exact ⟨hprojects ▸ h.1, hmessage p rfl h.2⟩
  | addingEvent p k => exact ⟨hprojects ▸ h.1, hadded h.2⟩
  | committing p k e =>
    obtain ⟨hproject, hhas, key, hevent⟩ := h
    exact ⟨hprojects ▸ hproject, hadded hhas, key, hevents _ _ hevent⟩
  | recovering p => exact h
  | ended result =>
    obtain ⟨k, message, hlive, hproject, hrest⟩ := h
    exact ⟨k, message, hmessages k message _ hlive (Or.inl rfl), hprojects ▸ hproject, hrest⟩

/-! ## A call that changes its phase only -/

theorem goTo_self (s : State) (c : Nat) (phase : Phase) : (s.goTo c phase).phase c = phase := if_pos rfl

theorem goTo_ne (s : State) {c d : Nat} (phase : Phase) (h : d ≠ c) : (s.goTo c phase).phase d = s.phase d :=
  if_neg h

theorem accepted_goTo (s : State) (c : Nat) (phase : Phase) (hold : (s.phase c).accepted = none)
    (hnew : phase.accepted = none) {d k : Nat} : (s.goTo c phase).Accepted d k ↔ s.Accepted d k := by
  by_cases hd : d = c
  · subst hd
    rw [State.Accepted, State.Accepted, goTo_self, hold, hnew]
  · rw [State.Accepted, State.Accepted, goTo_ne s phase hd]

variable {stored : Nat} {Known : String → Prop}

theorem inv_audits {s : State} (h : Inv sha256 calls stored Known s) (audits : Table AuditLog) :
    Inv sha256 calls stored Known { s with audits := audits } :=
  ⟨h.sessions, h.messages, h.openSession, h.openMessage, h.openEvent, h.known, h.fresh, h.messageOf, h.oneEvent,
    h.hasEvent, h.keyed, h.phases, h.accepted, h.writer, h.once⟩

/-- The phases in which a call has added nothing. -/
def Phase.quiet : Phase → Bool
  | .addingMessage _ _ | .addingEvent _ _ | .committing _ _ _ => false
  | _ => true

theorem quiet_session {s : State} (h : Inv sha256 calls stored Known s) {c : Nat}
    (hquiet : (s.phase c).quiet = true) (k : Nat) (row : SessionRow) :
    ¬ s.sessions.Live k row (.uncommitted c) := by
  intro hlive
  rcases h.openSession k row c hlive with ⟨p, i, hp⟩ | ⟨p, i, hp⟩ | ⟨p, i, e, hp⟩ <;> rw [hp] at hquiet <;>
    cases hquiet

theorem quiet_message {s : State} (h : Inv sha256 calls stored Known s) {c : Nat}
    (hquiet : (s.phase c).quiet = true) (k : Nat) (message : Message) :
    ¬ s.messages.Live k message (.uncommitted c) := by
  intro hlive
  rcases h.openMessage k message c hlive with ⟨p, hp⟩ | ⟨p, e, hp⟩ <;> rw [hp] at hquiet <;> cases hquiet

theorem quiet_event {s : State} (h : Inv sha256 calls stored Known s) {c : Nat}
    (hquiet : (s.phase c).quiet = true) (k : Nat) (event : OutboxEvent) :
    ¬ s.events.Live k event (.uncommitted c) := by
  intro hlive
  obtain ⟨p, i, hp⟩ := h.openEvent k event c hlive
  rw [hp] at hquiet
  cases hquiet

theorem inv_goTo {s : State} (h : Inv sha256 calls stored Known s) {c : Nat} {phase : Phase}
    (hquiet : (s.phase c).quiet = true) (hold : (s.phase c).accepted = none) (hnew : phase.accepted = none)
    (hok : ∀ call, calls[c]? = some call → s.PhaseOk sha256 c call phase) :
    Inv sha256 calls stored Known (s.goTo c phase) where
  sessions := h.sessions
  messages := h.messages
  openSession k row d hlive := by
    have hne : d ≠ c := fun hd => quiet_session h hquiet k row (hd ▸ hlive)
    rw [goTo_ne s phase hne]
    exact h.openSession k row d hlive
  openMessage k message d hlive := by
    have hne : d ≠ c := fun hd => quiet_message h hquiet k message (hd ▸ hlive)
    rw [goTo_ne s phase hne]
    exact h.openMessage k message d hlive
  openEvent e event d hlive := by
    have hne : d ≠ c := fun hd => quiet_event h hquiet e event (hd ▸ hlive)
    rw [goTo_ne s phase hne]
    exact h.openEvent e event d hlive
  known := h.known
  fresh := h.fresh
  messageOf := h.messageOf
  oneEvent := h.oneEvent
  hasEvent := h.hasEvent
  keyed := h.keyed
  phases d call hcall := by
    by_cases hd : d = c
    · subst hd
      rw [goTo_self]
      exact hok call hcall
    · rw [goTo_ne s phase hd]
      exact h.phases d call hcall
  accepted d k haccepted := h.accepted d k ((accepted_goTo s c phase hold hnew).mp haccepted)
  writer k message hlive hk := by
    obtain ⟨d, hd⟩ := h.writer k message hlive hk
    exact ⟨d, (accepted_goTo s c phase hold hnew).mpr hd⟩
  once d e k hd he :=
    h.once d e k ((accepted_goTo s c phase hold hnew).mp hd) ((accepted_goTo s c phase hold hnew).mp he)

/-! ## Each statement keeps the invariant -/

/-- The call is permitted and its project exists. -/
structure Admitted (projects : Table String) (call : Call) : Prop where
  permission : requirePermission call.principal "append" = .ok ()
  access : requireProjectAccess call.principal call.projectKey = .ok ()
  project : ∃ p, projectOf projects call.projectKey = some p

theorem inv_answerExisting {s : State} (h : Inv sha256 calls stored Known s)
    (hsha : ∀ x y, Known x → Known y → sha256 x = sha256 y → x = y) {c : Nat} {call : Call}
    (hcall : calls[c]? = some call) (hknown : Known call.content) (hphase : s.phase c = .starting) {p k : Nat}
    {message : Message} (hproject : projectOf s.projects call.projectKey = some p)
    (hfind : findMessage s c call p = some (k, message)) :
    Inv sha256 calls stored Known (answerExisting sha256 s c call p k message) := by
  have hquiet : (s.phase c).quiet = true := by rw [hphase]; rfl
  have hold : (s.phase c).accepted = none := by rw [hphase]; rfl
  obtain ⟨v, hlive, hv, hmatch⟩ := find?_some hfind
  rw [Bool.and_eq_true, decide_eq_true_eq, decide_eq_true_eq] at hmatch
  have hcommitted : v = .committed :=
    hv.resolve_right fun hopen => quiet_message h hquiet k message (hopen ▸ hlive)
  rw [hcommitted] at hlive
  obtain ⟨hmessage, hhash⟩ := h.known k message _ hlive
  have hproject' : projectOf s.projects call.projectKey = some message.projectId := by rw [hproject, hmatch.1]
  rw [answerExisting, hhash, Call.contentHash]
  split
  · next hsame =>
    refine inv_goTo h hquiet hold rfl fun call' hcall' => ?_
    obtain rfl := Option.some.inj (hcall.symm.trans hcall')
    exact ⟨k, message, hlive, hproject', hmatch.2, hsha _ _ hmessage hknown hsame, rfl, Or.inr rfl⟩
  · next hdiffer =>
    refine inv_goTo (inv_audits h _) hquiet hold rfl fun call' hcall' => ?_
    obtain rfl := Option.some.inj (hcall.symm.trans hcall')
    exact ⟨k, message, hlive, hproject', hmatch.2, fun hsame => hdiffer (congrArg sha256 hsame)⟩

theorem inv_start {s : State} (h : Inv sha256 calls stored Known s)
    (hsha : ∀ x y, Known x → Known y → sha256 x = sha256 y → x = y) {c : Nat} {call : Call}
    (hcall : calls[c]? = some call) (hadmitted : Admitted s.projects call) (hknown : Known call.content)
    (hphase : s.phase c = .starting) : Inv sha256 calls stored Known (start sha256 s c call) := by
  obtain ⟨p, hproject⟩ := hadmitted.project
  rw [start, hadmitted.permission]
  simp only
  rw [hadmitted.access]
  simp only [hproject]
  split
  · next k message hfind => exact inv_answerExisting h hsha hcall hknown hphase hproject hfind
  · next hnone =>
    refine inv_goTo h (by rw [hphase]; rfl) (by rw [hphase]; rfl) rfl fun call' hcall' => ?_
    obtain rfl := Option.some.inj (hcall.symm.trans hcall')
    refine ⟨hproject, fun k message hlive hp he => ?_⟩
    have hnot := find?_none hnone hlive (Or.inl rfl)
    simp [hp, he] at hnot

theorem inv_readSession {s : State} (h : Inv sha256 calls stored Known s) {c : Nat} {call : Call}
    (hcall : calls[c]? = some call) {p : Nat} (hphase : s.phase c = .readingSession p) :
    Inv sha256 calls stored Known (readSession s c call p) := by
  have hquiet : (s.phase c).quiet = true := by rw [hphase]; rfl
  have hold : (s.phase c).accepted = none := by rw [hphase]; rfl
  have hok := h.phases c call hcall
  rw [hphase] at hok
  obtain ⟨hproject, hnomessage⟩ := hok
  rw [readSession]
  split
  · next hnone =>
    refine inv_goTo h hquiet hold rfl fun call' hcall' => ?_
    obtain rfl := Option.some.inj (hcall.symm.trans hcall')
    refine ⟨hproject, hnomessage, fun k row hlive hp he => ?_⟩
    have hnot := find?_none hnone hlive (Or.inl rfl)
    simp [hp, he] at hnot
  · next i row hfind =>
    refine inv_goTo h hquiet hold rfl fun call' hcall' => ?_
    obtain rfl := Option.some.inj (hcall.symm.trans hcall')
    exact ⟨hproject, hnomessage⟩

/-- A new session in the transaction of call `c`. -/
theorem inv_sessionAdded {s : State} (h : Inv sha256 calls stored Known s) {c p : Nat} {call : Call}
    (hcall : calls[c]? = some call) (hphase : s.phase c = .addingSession p) {sessions : Versioned SessionRow}
    (hinserted : insertUnique sessionIndex s.sessions c ⟨p, call.sessionKey⟩ = .inserted sessions) :
    Inv sha256 calls stored Known
      ({ s with sessions := sessions }.goTo c (.addingMessage p s.sessions.nextId)) := by
  have hquiet : (s.phase c).quiet = true := by rw [hphase]; rfl
  have hok := h.phases c call hcall
  rw [hphase] at hok
  obtain ⟨hproject, hnomessage, -⟩ := hok
  have hunique := uniqueBy_insert h.sessions hinserted
  obtain ⟨hsessions, -⟩ := insertUnique_inserted hinserted
  have hnew := fun d k => accepted_goTo { s with sessions := sessions } c (.addingMessage p s.sessions.nextId)
    (by show (s.phase c).accepted = none; rw [hphase]; rfl) rfl (d := d) (k := k)
  constructor
  case sessions => exact hunique
  case messages => exact h.messages
  case openSession =>
    intro k row d hlive
    by_cases hd : d = c
    · subst hd
      exact Or.inl ⟨p, s.sessions.nextId, goTo_self _ _ _⟩
    · rw [goTo_ne _ _ hd]
      change sessions.Live k row _ at hlive
      rw [hsessions] at hlive
      rcases live_insert.mp hlive with ⟨-, -, hopen⟩ | hlive
      · exact absurd (Version.uncommitted.inj hopen) hd
      · exact h.openSession k row d hlive
  case openMessage =>
    intro k message d hlive
    have hne : d ≠ c := by
      rintro rfl
      exact quiet_message h hquiet k message hlive
    rw [goTo_ne _ _ hne]
    exact h.openMessage k message d hlive
  case openEvent =>
    intro e event d hlive
    have hne : d ≠ c := by
      rintro rfl
      exact quiet_event h hquiet e event hlive
    rw [goTo_ne _ _ hne]
    exact h.openEvent e event d hlive
  case known => exact h.known
  case fresh => exact h.fresh
  case messageOf => exact h.messageOf
  case oneEvent => exact h.oneEvent
  case hasEvent => exact h.hasEvent
  case keyed => exact h.keyed
  case phases =>
    intro d call' hcall'
    by_cases hd : d = c
    · subst hd
      obtain rfl := Option.some.inj (hcall.symm.trans hcall')
      rw [goTo_self]
      exact ⟨hproject, hnomessage⟩
    · rw [goTo_ne _ _ hd]
      refine phaseOk_mono (s := s) rfl (fun _ _ _ hlive _ => hlive) (fun _ _ hlive => hlive) (fun _ _ hno => hno) ?_
        (h.phases d call' hcall')
      intro p' _ hno k row hlive
      change sessions.Live k row _ at hlive
      rw [hsessions] at hlive
      rcases live_insert.mp hlive with ⟨-, -, hopen⟩ | hlive
      · cases hopen
      · exact hno k row hlive
  case accepted => exact fun d k hd => h.accepted d k ((hnew d k).mp hd)
  case writer => exact fun k message hlive hk => (h.writer k message hlive hk).imp fun d hd => (hnew d k).mpr hd
  case once => exact fun d e k hd he => h.once d e k ((hnew d k).mp hd) ((hnew e k).mp he)

theorem inv_addSession {s : State} (h : Inv sha256 calls stored Known s) {c : Nat} {call : Call}
    (hcall : calls[c]? = some call) {p : Nat} (hphase : s.phase c = .addingSession p) :
    Inv sha256 calls stored Known (addSession s c call p).2 := by
  have hok := h.phases c call hcall
  rw [hphase] at hok
  rw [addSession]
  split
  · exact h
  · next hrefused =>
    obtain ⟨k, row, v, i, hlive, hv, ha, hb⟩ := insertUnique_refused hrefused
    obtain rfl := Option.some.inj ha
    obtain ⟨hp, hkey⟩ := Prod.mk.inj (Option.some.inj hb)
    rcases hv with rfl | rfl
    · exact absurd hkey (hok.2.2 k row hlive hp)
    · exact absurd hlive (quiet_session h (by rw [hphase]; rfl) k row)
  · next sessions hinserted => exact inv_sessionAdded h hcall hphase hinserted

/-- A call that awaits its message has no message and no event in its transaction. -/
theorem no_open_of_adding {s : State} (h : Inv sha256 calls stored Known s) {c p i : Nat}
    (hphase : s.phase c = .addingMessage p i) :
    (∀ k message, ¬ s.messages.Live k message (.uncommitted c)) ∧
      ∀ e event, ¬ s.events.Live e event (.uncommitted c) := by
  refine ⟨fun k message hlive => ?_, fun e event hlive => ?_⟩
  · rcases h.openMessage k message c hlive with ⟨p', hp⟩ | ⟨p', e, hp⟩ <;> rw [hphase] at hp <;> cases hp
  · obtain ⟨p', k, hp⟩ := h.openEvent e event c hlive
    rw [hphase] at hp
    cases hp

/-- A new message in the transaction of call `c`. -/
theorem inv_messageAdded {s : State} (h : Inv sha256 calls stored Known s) {c p i : Nat} {call : Call}
    (hcall : calls[c]? = some call) (hknown : Known call.content) (hstored : stored ≤ s.messages.nextId)
    (hphase : s.phase c = .addingMessage p i) {messages : Versioned Message}
    (hinserted : insertUnique messageIndex s.messages c (call.message sha256 p i) = .inserted messages) :
    Inv sha256 calls stored Known
      ({ s with messages := messages }.goTo c (.addingEvent p s.messages.nextId)) := by
  have hok := h.phases c call hcall
  rw [hphase] at hok
  obtain ⟨hproject, -⟩ := hok
  obtain ⟨hidle, hnoevent⟩ := no_open_of_adding h hphase
  have hunique := uniqueBy_insert h.messages hinserted
  obtain ⟨hmessages, -⟩ := insertUnique_inserted hinserted
  have hnew := fun d k => accepted_goTo { s with messages := messages } c (.addingEvent p s.messages.nextId)
    (by show (s.phase c).accepted = none; rw [hphase]; rfl) rfl (d := d) (k := k)
  have hlive_iff : ∀ {k message v}, messages.Live k message v ↔
      (k = s.messages.nextId ∧ message = call.message sha256 p i ∧ v = .uncommitted c) ∨
        s.messages.Live k message v := by
    intro k message v
    rw [hmessages]
    exact live_insert
  constructor
  case sessions => exact h.sessions
  case messages => exact hunique
  case openSession =>
    intro k row d hlive
    by_cases hd : d = c
    · subst hd
      exact Or.inr (Or.inl ⟨p, s.messages.nextId, goTo_self _ _ _⟩)
    · rw [goTo_ne _ _ hd]
      exact h.openSession k row d hlive
  case openMessage =>
    intro k message d hlive
    rcases hlive_iff.mp hlive with ⟨rfl, -, hopen⟩ | hold
    · cases hopen
      exact Or.inl ⟨p, goTo_self _ _ _⟩
    · have hne : d ≠ c := by
        rintro rfl
        exact hidle k message hold
      rw [goTo_ne _ _ hne]
      exact h.openMessage k message d hold
  case openEvent =>
    intro e event d hlive
    have hne : d ≠ c := by
      rintro rfl
      exact hnoevent e event hlive
    rw [goTo_ne _ _ hne]
    exact h.openEvent e event d hlive
  case known =>
    intro k message v hlive
    rcases hlive_iff.mp hlive with ⟨-, rfl, -⟩ | hlive
    · exact ⟨hknown, rfl⟩
    · exact h.known k message v hlive
  case fresh =>
    intro k message d hlive
    rcases hlive_iff.mp hlive with ⟨rfl, -, -⟩ | hlive
    · exact hstored
    · exact h.fresh k message d hlive
  case messageOf =>
    intro e event v k hlive hfor
    obtain ⟨message, hmessage, hp⟩ := h.messageOf e event v k hlive hfor
    exact ⟨message, hlive_iff.mpr (Or.inr hmessage), hp⟩
  case oneEvent => exact h.oneEvent
  case hasEvent =>
    intro k message hlive
    rcases hlive_iff.mp hlive with ⟨-, -, hopen⟩ | hlive
    · cases hopen
    · exact h.hasEvent k message hlive
  case keyed =>
    intro e event v hlive call' hmem hproject' key hkey hekey
    obtain ⟨k, hfor, hall⟩ := h.keyed e event v hlive call' hmem hproject' key hkey hekey
    refine ⟨k, hfor, fun message w hmessage => ?_⟩
    rcases hlive_iff.mp hmessage with ⟨rfl, -, -⟩ | hmessage
    · obtain ⟨old, hold, -⟩ := h.messageOf e event v _ hlive hfor
      exact absurd (live_lt hold) (Nat.lt_irrefl _)
    · exact hall message w hmessage
  case phases =>
    intro d call' hcall'
    by_cases hd : d = c
    · subst hd
      obtain rfl := Option.some.inj (hcall.symm.trans hcall')
      rw [goTo_self]
      exact ⟨hproject, i, hlive_iff.mpr (Or.inl ⟨rfl, rfl, rfl⟩)⟩
    · rw [goTo_ne _ _ hd]
      refine phaseOk_mono (s := s) rfl (fun k message v hlive _ => hlive_iff.mpr (Or.inr hlive))
        (fun _ _ hlive => hlive) ?_ (fun _ _ hno => hno) (h.phases d call' hcall')
      intro p' _ hno k message hlive
      rcases hlive_iff.mp hlive with ⟨-, -, hopen⟩ | hlive
      · cases hopen
      · exact hno k message hlive
  case accepted =>
    intro d k hd
    obtain ⟨hk, message, hlive⟩ := h.accepted d k ((hnew d k).mp hd)
    exact ⟨hk, message, hlive_iff.mpr (Or.inr hlive)⟩
  case writer =>
    intro k message hlive hk
    rcases hlive_iff.mp hlive with ⟨-, -, hopen⟩ | hlive
    · cases hopen
    · exact (h.writer k message hlive hk).imp fun d hd => (hnew d k).mpr hd
  case once => exact fun d e k hd he => h.once d e k ((hnew d k).mp hd) ((hnew e k).mp he)

theorem inv_addMessage {s : State} (h : Inv sha256 calls stored Known s) {c : Nat} {call : Call}
    (hcall : calls[c]? = some call) (hknown : Known call.content) (hstored : stored ≤ s.messages.nextId) {p i : Nat}
    (hphase : s.phase c = .addingMessage p i) :
    Inv sha256 calls stored Known (addMessage sha256 s c call p i).2 := by
  have hok := h.phases c call hcall
  rw [hphase] at hok
  rw [addMessage]
  split
  · exact h
  · next hrefused =>
    obtain ⟨k, message, v, j, hlive, hv, ha, hb⟩ := insertUnique_refused hrefused
    obtain rfl := Option.some.inj ha
    obtain ⟨hp, hkey⟩ := Prod.mk.inj (Option.some.inj hb)
    rcases hv with rfl | rfl
    · exact absurd hkey (hok.2 k message hlive hp)
    · exact absurd hlive ((no_open_of_adding h hphase).1 k message)
  · next messages hinserted => exact inv_messageAdded h hcall hknown hstored hphase hinserted

/-- A call that awaits its event has none in its transaction. -/
theorem no_event_of_adding {s : State} (h : Inv sha256 calls stored Known s) {c p k : Nat}
    (hphase : s.phase c = .addingEvent p k) (e : Nat) (event : OutboxEvent) :
    ¬ s.events.Live e event (.uncommitted c) := by
  intro hlive
  obtain ⟨p', k', hp⟩ := h.openEvent e event c hlive
  rw [hphase] at hp
  cases hp

/-- No stored event has the key that a call builds: it would be the event of the
message that the call has just added. -/
theorem event_not_refused {s : State} (h : Inv sha256 calls stored Known s) {c p k : Nat} {call : Call}
    (hcall : calls[c]? = some call) (hphase : s.phase c = .addingEvent p k) {key : String}
    (hkey : call.idempotencyKey sha256 = .ok key) :
    insertUnique eventIndex s.events c (call.event p k key) ≠ .refused := by
  intro hrefused
  have hok := h.phases c call hcall
  rw [hphase] at hok
  obtain ⟨hproject, i, hadded⟩ := hok
  obtain ⟨e, event, v, j, hlive, hv, ha, hb⟩ := insertUnique_refused hrefused
  obtain rfl := Option.some.inj ha
  obtain ⟨key', hekey, hpair⟩ := Option.map_eq_some_iff.mp hb
  obtain ⟨hp, rfl⟩ := Prod.mk.inj hpair
  change event.projectId = p at hp
  obtain ⟨k', hfor, hall⟩ := h.keyed e event v hlive call (List.mem_of_getElem? hcall) (by rw [hp]; exact hproject)
    key' hkey hekey
  obtain ⟨message, hmessage, hmp⟩ := h.messageOf e event v k' hlive hfor
  have hsame : k' = k := by
    refine h.messages k' k message _ v _ (p, call.eventKey) hmessage hadded ?_ rfl
    rw [messageIndex, hmp, hp, hall message v hmessage]
  subst hsame
  obtain ⟨-, rfl⟩ := live_unique hmessage hadded
  exact no_event_of_adding h hphase e event hlive

/-- A new event in the transaction of call `c`. -/
theorem inv_eventAdded {s : State} (h : Inv sha256 calls stored Known s) {c p k : Nat} {call : Call}
    (hcall : calls[c]? = some call) (hphase : s.phase c = .addingEvent p k) {key : String}
    (hapart : ∀ call' ∈ calls, projectOf s.projects call'.projectKey = projectOf s.projects call.projectKey →
      call'.idempotencyKey sha256 = .ok key → call'.eventKey = call.eventKey) {events : Versioned OutboxEvent}
    (hinserted : insertUnique eventIndex s.events c (call.event p k key) = .inserted events) :
    Inv sha256 calls stored Known
      ({ s with events := events }.goTo c (.committing p k s.events.nextId)) := by
  have hok := h.phases c call hcall
  rw [hphase] at hok
  obtain ⟨hproject, i, hadded⟩ := hok
  have hnoevent := no_event_of_adding h hphase
  obtain ⟨hevents, -⟩ := insertUnique_inserted hinserted
  have hnew := fun d k' => accepted_goTo { s with events := events } c (.committing p k s.events.nextId)
    (by show (s.phase c).accepted = none; rw [hphase]; rfl) rfl (d := d) (k := k')
  have hlive_iff : ∀ {e event v}, events.Live e event v ↔
      (e = s.events.nextId ∧ event = call.event p k key ∧ v = .uncommitted c) ∨ s.events.Live e event v := by
    intro e event v
    rw [hevents]
    exact live_insert
  have hfor : ∀ k', (call.event p k key).For k' ↔ k' = k :=
    fun k' => ⟨fun hk => hk.2.2.symm, fun hk => ⟨rfl, rfl, hk.symm⟩⟩
  -- an event for the same message would be in the same transaction
  have hnone : ∀ e event v, s.events.Live e event v → ¬ event.For k := by
    intro e event v hlive hk
    obtain ⟨message, hmessage, -⟩ := h.messageOf e event v k hlive hk
    obtain ⟨-, rfl⟩ := live_unique hmessage hadded
    exact hnoevent e event hlive
  constructor
  case sessions => exact h.sessions
  case messages => exact h.messages
  case openSession =>
    intro k' row d hlive
    by_cases hd : d = c
    · subst hd
      exact Or.inr (Or.inr ⟨p, k, s.events.nextId, goTo_self _ _ _⟩)
    · rw [goTo_ne _ _ hd]
      exact h.openSession k' row d hlive
  case openMessage =>
    intro k' message d hlive
    have hold := h.openMessage k' message d hlive
    by_cases hd : d = c
    · subst hd
      rcases hold with ⟨p', hp⟩ | ⟨p', e, hp⟩ <;> rw [hphase] at hp
      · cases hp
        exact Or.inr ⟨p, s.events.nextId, goTo_self _ _ _⟩
      · cases hp
    · rw [goTo_ne _ _ hd]
      exact hold
  case openEvent =>
    intro e event d hlive
    rcases hlive_iff.mp hlive with ⟨rfl, -, hopen⟩ | hold
    · cases hopen
      exact ⟨p, k, goTo_self _ _ _⟩
    · have hne : d ≠ c := by
        rintro rfl
        exact hnoevent e event hold
      rw [goTo_ne _ _ hne]
      exact h.openEvent e event d hold
  case known => exact h.known
  case fresh => exact h.fresh
  case messageOf =>
    intro e event v k' hlive hk
    rcases hlive_iff.mp hlive with ⟨-, rfl, rfl⟩ | hlive
    · obtain rfl := (hfor k').mp hk
      exact ⟨_, hadded, rfl⟩
    · exact h.messageOf e event v k' hlive hk
  case oneEvent =>
    intro e f event event' v w k' hlive hlive' hk hk'
    rcases hlive_iff.mp hlive with ⟨rfl, rfl, -⟩ | hold
    · obtain rfl := (hfor k').mp hk
      rcases hlive_iff.mp hlive' with ⟨rfl, -, -⟩ | hold'
      · rfl
      · exact absurd hk' (hnone f event' w hold')
    · rcases hlive_iff.mp hlive' with ⟨rfl, rfl, -⟩ | hold'
      · obtain rfl := (hfor k').mp hk'
        exact absurd hk (hnone e event v hold)
      · exact h.oneEvent e f event event' v w k' hold hold' hk hk'
  case hasEvent =>
    intro k' message hlive
    obtain ⟨e, event, hevent, hk⟩ := h.hasEvent k' message hlive
    exact ⟨e, event, hlive_iff.mpr (Or.inr hevent), hk⟩
  case keyed =>
    intro e event v hlive call' hmem hproject' key' hkey' hekey
    rcases hlive_iff.mp hlive with ⟨-, rfl, -⟩ | hlive
    · obtain rfl := Option.some.inj hekey
      refine ⟨k, (hfor k).mpr rfl, fun message w hmessage => ?_⟩
      obtain ⟨rfl, -⟩ := live_unique hmessage hadded
      exact (hapart call' hmem (hproject'.trans hproject.symm) hkey').symm
    · exact h.keyed e event v hlive call' hmem hproject' key' hkey' hekey
  case phases =>
    intro d call' hcall'
    by_cases hd : d = c
    · subst hd
      obtain rfl := Option.some.inj (hcall.symm.trans hcall')
      rw [goTo_self]
      exact ⟨hproject, ⟨i, hadded⟩, key, hlive_iff.mpr (Or.inl ⟨rfl, rfl, rfl⟩)⟩
    · rw [goTo_ne _ _ hd]
      exact phaseOk_mono (s := s) rfl (fun _ _ _ hlive _ => hlive)
        (fun e event hlive => hlive_iff.mpr (Or.inr hlive)) (fun _ _ hno => hno) (fun _ _ hno => hno)
        (h.phases d call' hcall')
  case accepted => exact fun d k' hd => h.accepted d k' ((hnew d k').mp hd)
  case writer => exact fun k' message hlive hk => (h.writer k' message hlive hk).imp fun d hd => (hnew d k').mpr hd
  case once => exact fun d d' k' hd he => h.once d d' k' ((hnew d k').mp hd) ((hnew d' k').mp he)

theorem inv_addEvent {s : State} (h : Inv sha256 calls stored Known s) {c p k : Nat} {call : Call}
    (hcall : calls[c]? = some call) (hphase : s.phase c = .addingEvent p k)
    {key : String} (hkey : call.idempotencyKey sha256 = .ok key)
    (hapart : ∀ call' ∈ calls, projectOf s.projects call'.projectKey = projectOf s.projects call.projectKey →
      call'.idempotencyKey sha256 = .ok key → call'.eventKey = call.eventKey) :
    Inv sha256 calls stored Known (addEvent sha256 s c call p k).2 := by
  rw [addEvent, hkey]
  simp only
  split
  · exact h
  · next hrefused => exact absurd hrefused (event_not_refused h hcall hphase hkey)
  · next events hinserted => exact inv_eventAdded h hcall hphase hapart hinserted

/-! ## The commit -/

/-- What call `c` is about to commit is what call `d` has read as absent and not yet
inserted. -/
def Overtakes (s : State) (c d : Nat) (call : Call) : Prop :=
  (∃ k message p, s.messages.Live k message (.uncommitted c) ∧ (s.phase d).awaitsMessage = some p ∧
      message.projectId = p ∧ message.eventKey = call.eventKey) ∨
    ∃ k row p, s.sessions.Live k row (.uncommitted c) ∧ (s.phase d).awaitsSession = some p ∧
      row.projectId = p ∧ row.sessionKey = call.sessionKey

/-- If call `c` commits now, it overtakes no other call. -/
def InTurn (calls : List Call) (s : State) (c : Nat) : Prop :=
  (∃ p k e, s.phase c = .committing p k e) → ∀ (d : Nat) call, calls[d]? = some call → ¬ Overtakes s c d call

theorem inv_commitCall {s : State} (h : Inv sha256 calls stored Known s) {c p k e : Nat} {call : Call}
    (hcall : calls[c]? = some call) (hphase : s.phase c = .committing p k e) (hturn : InTurn calls s c) :
    Inv sha256 calls stored Known (commitCall s c call p k e) := by
  have hturn := hturn ⟨p, k, e, hphase⟩
  have hok := h.phases c call hcall
  rw [hphase] at hok
  obtain ⟨hproject, ⟨i, hadded⟩, key, hevent⟩ := hok
  have hnotyet : ∀ k', ¬ s.Accepted c k' := by
    intro k' haccepted
    rw [State.Accepted, hphase] at haccepted
    cases haccepted
  have hself : (commitCall s c call p k e).Accepted c k := by
    rw [State.Accepted, commitCall, goTo_self]
    rfl
  have hother : ∀ {d k'}, d ≠ c → ((commitCall s c call p k e).Accepted d k' ↔ s.Accepted d k') := by
    intro d k' hd
    rw [State.Accepted, commitCall, goTo_ne _ _ hd]
    rfl
  have hmine : ∀ k' message, s.messages.Live k' message (.uncommitted c) → k' = k := by
    intro k' message hlive
    rcases h.openMessage k' message c hlive with ⟨p', hp⟩ | ⟨p', e', hp⟩ <;> rw [hphase] at hp <;> cases hp
    rfl
  have hkept : ∀ {k' message v}, s.messages.Live k' message v → v ≠ .uncommitted c →
      (s.messages.commit c).Live k' message v := fun hlive hv => live_commit.mpr (Or.inl ⟨hlive, hv⟩)
  have hdone : (s.messages.commit c).Live k (call.message sha256 p i) .committed :=
    live_commit.mpr (Or.inr ⟨rfl, hadded⟩)
  constructor
  case sessions => exact uniqueBy_commit h.sessions c
  case messages => exact uniqueBy_commit h.messages c
  case openSession =>
    intro k' row d hlive
    rcases live_commit.mp hlive with ⟨hlive, hne⟩ | ⟨hv, -⟩
    · rw [commitCall, goTo_ne _ _ fun hd => hne (congrArg Version.uncommitted hd)]
      exact h.openSession k' row d hlive
    · cases hv
  case openMessage =>
    intro k' message d hlive
    rcases live_commit.mp hlive with ⟨hlive, hne⟩ | ⟨hv, -⟩
    · rw [commitCall, goTo_ne _ _ fun hd => hne (congrArg Version.uncommitted hd)]
      exact h.openMessage k' message d hlive
    · cases hv
  case openEvent =>
    intro e' event d hlive
    rcases live_commit.mp hlive with ⟨hlive, hne⟩ | ⟨hv, -⟩
    · rw [commitCall, goTo_ne _ _ fun hd => hne (congrArg Version.uncommitted hd)]
      exact h.openEvent e' event d hlive
    · cases hv
  case known =>
    intro k' message v hlive
    obtain ⟨w, hlive⟩ := live_of_commit hlive
    exact h.known k' message w hlive
  case fresh =>
    intro k' message d hlive
    rcases live_commit.mp hlive with ⟨hlive, -⟩ | ⟨hv, -⟩
    · exact h.fresh k' message d hlive
    · cases hv
  case messageOf =>
    intro e' event v k' hlive hfor
    rcases live_commit.mp hlive with ⟨hold, hne⟩ | ⟨rfl, hold⟩
    · obtain ⟨message, hmessage, hp⟩ := h.messageOf e' event v k' hold hfor
      exact ⟨message, hkept hmessage hne, hp⟩
    · obtain ⟨message, hmessage, hp⟩ := h.messageOf e' event _ k' hold hfor
      exact ⟨message, live_commit.mpr (Or.inr ⟨rfl, hmessage⟩), hp⟩
  case oneEvent =>
    intro e' f event event' v w k' hlive hlive' hk hk'
    obtain ⟨v', hlive⟩ := live_of_commit hlive
    obtain ⟨w', hlive'⟩ := live_of_commit hlive'
    exact h.oneEvent e' f event event' v' w' k' hlive hlive' hk hk'
  case hasEvent =>
    intro k' message hlive
    rcases live_commit.mp hlive with ⟨hlive, -⟩ | ⟨-, hlive⟩
    · obtain ⟨e', event, hevent', hfor⟩ := h.hasEvent k' message hlive
      exact ⟨e', event, live_commit.mpr (Or.inl ⟨hevent', by simp⟩), hfor⟩
    · obtain rfl := hmine k' message hlive
      exact ⟨e, _, live_commit.mpr (Or.inr ⟨rfl, hevent⟩), rfl, rfl, rfl⟩
  case keyed =>
    intro e' event v hlive call' hmem hproject' key' hkey' hekey
    obtain ⟨w, hlive⟩ := live_of_commit hlive
    obtain ⟨k', hfor, hall⟩ := h.keyed e' event w hlive call' hmem hproject' key' hkey' hekey
    refine ⟨k', hfor, fun message w' hmessage => ?_⟩
    obtain ⟨w'', hmessage⟩ := live_of_commit hmessage
    exact hall message w'' hmessage
  case phases =>
    intro d call' hcall'
    by_cases hd : d = c
    · subst hd
      obtain rfl := Option.some.inj (hcall.symm.trans hcall')
      rw [commitCall, goTo_self]
      exact ⟨k, _, hdone, hproject, rfl, rfl, rfl, Or.inl rfl⟩
    · rw [commitCall, goTo_ne _ _ hd]
      refine phaseOk_mono (s := s) rfl (fun k' message v hlive hv => hkept hlive ?_)
        (fun e' event hlive => live_commit.mpr (Or.inl ⟨hlive, ?_⟩)) ?_ ?_ (h.phases d call' hcall')
      · rcases hv with rfl | rfl
        · simp
        · exact fun hv => hd (Version.uncommitted.inj hv)
      · exact fun hv => hd (Version.uncommitted.inj hv)
      · intro p' hawaits hno k' message hlive hp hkey'
        rcases live_commit.mp hlive with ⟨hlive, -⟩ | ⟨-, hlive⟩
        · exact hno k' message hlive hp hkey'
        · exact hturn d call' hcall' (Or.inl ⟨k', message, p', hlive, hawaits, hp, hkey'⟩)
      · intro p' hawaits hno k' row hlive hp hkey'
        rcases live_commit.mp hlive with ⟨hlive, -⟩ | ⟨-, hlive⟩
        · exact hno k' row hlive hp hkey'
        · exact hturn d call' hcall' (Or.inr ⟨k', row, p', hlive, hawaits, hp, hkey'⟩)
  case accepted =>
    intro d k' haccepted
    by_cases hd : d = c
    · subst hd
      obtain rfl := Option.some.inj (hself.symm.trans haccepted)
      exact ⟨h.fresh k _ d hadded, _, hdone⟩
    · obtain ⟨hk, message, hlive⟩ := h.accepted d k' ((hother hd).mp haccepted)
      exact ⟨hk, message, hkept hlive (by simp)⟩
  case writer =>
    intro k' message hlive hk
    rcases live_commit.mp hlive with ⟨hlive, -⟩ | ⟨-, hlive⟩
    · obtain ⟨d, hd⟩ := h.writer k' message hlive hk
      have hne : d ≠ c := by
        rintro rfl
        exact hnotyet k' hd
      exact ⟨d, (hother hne).mpr hd⟩
    · obtain rfl := hmine k' message hlive
      exact ⟨c, hself⟩
  case once =>
    -- what another call was accepted for is committed, the message of this one was not
    have hclash : ∀ d, d ≠ c → ¬ (commitCall s c call p k e).Accepted d k := by
      intro d hd haccepted
      obtain ⟨-, message, hlive⟩ := h.accepted d k ((hother hd).mp haccepted)
      obtain ⟨-, hv⟩ := live_unique hlive hadded
      cases hv
    intro d d' k' hd hd'
    by_cases hdc : d = c
    · subst hdc
      obtain rfl := Option.some.inj (hself.symm.trans hd)
      exact (Classical.not_not.mp fun hne => hclash d' hne hd').symm
    · by_cases hdc' : d' = c
      · subst hdc'
        obtain rfl := Option.some.inj (hself.symm.trans hd')
        exact absurd hd (hclash d hdc)
      · exact h.once d d' k' ((hother hdc).mp hd) ((hother hdc').mp hd')

end CodexMemory.Append
