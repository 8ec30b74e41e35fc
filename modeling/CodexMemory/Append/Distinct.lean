import CodexMemory.Append.ExactlyOnce
import Mathlib.Data.Set.Insert

/-!
# Messages under different event keys

Calls of one project run one after the other, under pairwise different event
keys.  `distinct_messages_accepted_iff`: all are accepted exactly when the key
builder takes every event key and makes a different part of each;
`distinct_messages_refused` shows both ways in which it fails.
-/

namespace CodexMemory.Append

open Versioned
open CodexMemory.Trace (exec exec_append)

variable {sha256 : String → String} {calls : List Call}

/-- The first `n` calls run one after the other, each to its end. -/
def oneByOne (n : Nat) : List Nat := (List.range n).flatMap fun c => List.replicate 6 c

theorem oneByOne_succ (n : Nat) : oneByOne (n + 1) = oneByOne n ++ List.replicate 6 n := by
  rw [oneByOne, List.range_succ, List.flatMap_append]
  simp [oneByOne]

/-- No transaction is open and no call has started, and nothing of the project has the
event key or the idempotency key of a call yet. -/
structure Fresh (sha256 : String → String) (calls : List Call) (s : State) (p : Nat) : Prop where
  starting : ∀ c, s.phase c = .starting
  sessions : ∀ k row v, s.sessions.Live k row v → v = .committed
  messages : ∀ k message v, s.messages.Live k message v →
    v = .committed ∧ (message.projectId = p → ∀ call ∈ calls, call.eventKey ≠ message.eventKey)
  events : ∀ e event v, s.events.Live e event v →
    v = .committed ∧ ∀ key, eventIndex event = some (p, key) → ∀ call ∈ calls, call.idempotencyKey sha256 ≠ .ok key

/-- No transaction is open, the messages of the project have the event keys `ms`
at most and its events have the idempotency keys `es`. -/
structure Ready (s : State) (p : Nat) (ms es : Set String) : Prop where
  sessions : ∀ k row v, s.sessions.Live k row v → v = .committed
  messages : ∀ k message v, s.messages.Live k message v →
    v = .committed ∧ (message.projectId = p → message.eventKey ∈ ms)
  events : ∀ e event v, s.events.Live e event v →
    v = .committed ∧ ∀ key, eventIndex event = some (p, key) → key ∈ es
  hasEvent : ∀ key ∈ es, ∃ e event, s.events.Live e event .committed ∧ eventIndex event = some (p, key)

/-- The event keys of the project's messages. -/
def messageKeys (s : State) (p : Nat) : Set String :=
  {key | ∃ k message v, s.messages.Live k message v ∧ message.projectId = p ∧ message.eventKey = key}

/-- The idempotency keys of the project's events. -/
def eventKeys (s : State) (p : Nat) : Set String :=
  {key | ∃ e event v, s.events.Live e event v ∧ eventIndex event = some (p, key)}

theorem Fresh.ready {s : State} {p : Nat} (h : Fresh sha256 calls s p) :
    Ready s p (messageKeys s p) (eventKeys s p) where
  sessions := h.sessions
  messages k message v hlive :=
    ⟨(h.messages k message v hlive).1, fun hp => ⟨k, message, v, hlive, hp, rfl⟩⟩
  events e event v hlive := ⟨(h.events e event v hlive).1, fun key hkey => ⟨e, event, v, hlive, hkey⟩⟩
  hasEvent := by
    rintro key ⟨e, event, v, hlive, hkey⟩
    obtain rfl := (h.events e event v hlive).1
    exact ⟨e, event, hlive, hkey⟩

/-! ## One call -/

theorem exec_frame (s : State) (c : Nat) (n : Nat) :
    Frame c s (exec (step sha256 calls) s (List.replicate n c)) := by
  induction n generalizing s with
  | zero => exact Frame.refl c s
  | succ n ih =>
    have hstep := step_frame sha256 calls s c
    have hrest := ih (step sha256 calls s c).2
    exact ⟨hrest.projects.trans hstep.projects, Nat.le_trans hstep.nextId hrest.nextId,
      fun d hd => (hrest.phase d hd).trans (hstep.phase d hd),
      fun k message hlive => hrest.messages k message (hstep.messages k message hlive),
      fun k row hlive => hrest.sessions k row (hstep.sessions k row hlive)⟩

/-- A call that has ended stays as it is. -/
theorem exec_ended {s : State} {c : Nat} {result : Ended} (h : s.phase c = .ended result) (n : Nat) :
    exec (step sha256 calls) s (List.replicate n c) = s := by
  induction n with
  | zero => rfl
  | succ n ih =>
    have hstep : (step sha256 calls s c).2 = s := by
      rw [step]
      cases calls[c]? with
      | none => rfl
      | some call => simp only [h]
    rw [List.replicate_succ, CodexMemory.Trace.exec_cons, hstep]
    exact ih

/-- What is written when no transaction but `c` is open goes in unless a committed row
has the key. -/
theorem insertUnique_alone {α κ : Type} [DecidableEq κ] {key : α → Option κ} {t : Versioned α} {c : Nat} {a : α}
    (hopen : ∀ k b v, t.Live k b v → v = .committed ∨ v = .uncommitted c)
    (hfree : ∀ k b v i, t.Live k b v → key b = some i → key a ≠ some i) :
    insertUnique key t c a = .inserted (t.insert ⟨a, .uncommitted c⟩) := by
  cases hinsert : insertUnique key t c a with
  | refused =>
    obtain ⟨k, b, v, i, hlive, -, ha, hb⟩ := insertUnique_refused hinsert
    exact absurd ha (hfree k b v i hlive hb)
  | blocked =>
    obtain ⟨k, b, tx, i, hlive, hne, -⟩ := insertUnique_blocked hinsert
    rcases hopen k b _ hlive with h | h
    · cases h
    · exact absurd (Version.uncommitted.inj h) hne
  | inserted t' => rw [(insertUnique_inserted hinsert).1]

/-- The state of a call that is about to add its message. -/
structure AtMessage (s s' : State) (c p : Nat) : Prop where
  phase : ∃ i, s'.phase c = .addingMessage p i
  messages : s'.messages = s.messages
  events : s'.events = s.events
  sessions : ∀ k row v, s'.sessions.Live k row v → v = .committed ∨ v = .uncommitted c

/-- A call under a new event key comes as far as its message. -/
theorem reach_message {s : State} {c p : Nat} {call : Call} {ms es : Set String} (hready : Ready s p ms es)
    (hcall : calls[c]? = some call) (hadmitted : Admitted s.projects call)
    (hproject : projectOf s.projects call.projectKey = some p) (hphase : s.phase c = .starting)
    (hkey : call.eventKey ∉ ms) :
    ∃ n ≤ 3, AtMessage s (exec (step sha256 calls) s (List.replicate n c)) c p := by
  have hnone : findMessage s c call p = none := by
    cases hfind : findMessage s c call p with
    | none => rfl
    | some found =>
      obtain ⟨v, hlive, -, hmatch⟩ := find?_some (k := found.1) (a := found.2) hfind
      rw [Bool.and_eq_true, decide_eq_true_eq, decide_eq_true_eq] at hmatch
      exact absurd ((hready.messages _ _ _ hlive).2 hmatch.1) (hmatch.2 ▸ hkey)
  have hfirst : (step sha256 calls s c).2 = s.goTo c (.readingSession p) := by
    simp only [step, hcall, hphase, start, hadmitted.permission, hadmitted.access, hproject, hnone]
  have hread : (step sha256 calls (s.goTo c (.readingSession p)) c).2 =
      readSession (s.goTo c (.readingSession p)) c call p := by
    simp only [step, hcall, goTo_self]
  cases hfind : s.sessions.find? c fun row => row.projectId = p && row.sessionKey = call.sessionKey with
  | some found =>
    have hsecond : readSession (s.goTo c (.readingSession p)) c call p =
        (s.goTo c (.readingSession p)).goTo c (.addingMessage p found.1) := by
      rw [readSession, show (s.goTo c (.readingSession p)).sessions = s.sessions from rfl, hfind]
    refine ⟨2, by omega, ?_⟩
    show AtMessage s (step sha256 calls (step sha256 calls s c).2 c).2 c p
    rw [hfirst, hread, hsecond]
    exact ⟨⟨found.1, goTo_self _ _ _⟩, rfl, rfl, fun k row v hlive => Or.inl (hready.sessions k row v hlive)⟩
  | none =>
    have hsecond : readSession (s.goTo c (.readingSession p)) c call p =
        (s.goTo c (.readingSession p)).goTo c (.addingSession p) := by
      rw [readSession, show (s.goTo c (.readingSession p)).sessions = s.sessions from rfl, hfind]
    have hinsert : insertUnique sessionIndex s.sessions c ⟨p, call.sessionKey⟩ =
        .inserted (s.sessions.insert ⟨⟨p, call.sessionKey⟩, .uncommitted c⟩) := by
      refine insertUnique_alone (fun k row v hlive => Or.inl (hready.sessions k row v hlive)) ?_
      intro k row v i hlive hrow hnew
      have hcommitted := hready.sessions k row v hlive
      have hnot := find?_none hfind hlive (Or.inl hcommitted)
      have hsame := hrow.trans hnew.symm
      simp only [sessionIndex, Option.some.injEq, Prod.mk.injEq] at hsame
      simp [hsame.1, hsame.2] at hnot
    refine ⟨3, by omega, ?_⟩
    show AtMessage s (step sha256 calls (step sha256 calls (step sha256 calls s c).2 c).2 c).2 c p
    rw [hfirst, hread, hsecond]
    simp only [step, hcall, goTo_self, addSession]
    rw [show ((s.goTo c (.readingSession p)).goTo c (.addingSession p)).sessions = s.sessions from rfl, hinsert]
    refine ⟨⟨_, goTo_self _ _ _⟩, rfl, rfl, fun k row v hlive => ?_⟩
    rcases live_insert.mp hlive with ⟨-, -, hv⟩ | hold
    · exact Or.inr hv
    · exact Or.inl (hready.sessions k row v hold)

/-- The commit of a call that has added its message and its event under `key`. -/
theorem ready_commit {s s' : State} {c p : Nat} {call : Call} {ms es : Set String} {key : String} {i k : Nat}
    (hready : Ready s p ms es) (hat : AtMessage s s' c p) {t : State} (hsessions : t.sessions = s'.sessions)
    (hmessages : t.messages = s'.messages.insert ⟨call.message sha256 p i, .uncommitted c⟩)
    (hevents : t.events = s'.events.insert ⟨call.event p k key, .uncommitted c⟩) :
    Ready (t.commit c) p (insert call.eventKey ms) (insert key es) where
  sessions j row v hlive := by
    rw [State.commit, hsessions] at hlive
    rcases live_commit.mp hlive with ⟨hold, hne⟩ | ⟨hv, -⟩
    · exact (hat.sessions j row v hold).resolve_right hne
    · exact hv
  messages j message v hlive := by
    rw [State.commit, hmessages, hat.messages] at hlive
    rcases live_commit.mp hlive with ⟨hold, hne⟩ | ⟨hv, hnew⟩
    · rcases live_insert.mp hold with ⟨-, -, hv⟩ | hold
      · exact absurd hv hne
      · obtain ⟨hv, hkey⟩ := hready.messages j message v hold
        exact ⟨hv, fun hp => Set.mem_insert_of_mem _ (hkey hp)⟩
    · rcases live_insert.mp hnew with ⟨-, rfl, -⟩ | hold
      · exact ⟨hv, fun _ => Set.mem_insert _ _⟩
      · cases (hready.messages j message _ hold).1
  events e event v hlive := by
    rw [State.commit, hevents, hat.events] at hlive
    rcases live_commit.mp hlive with ⟨hold, hne⟩ | ⟨hv, hnew⟩
    · rcases live_insert.mp hold with ⟨-, -, hv⟩ | hold
      · exact absurd hv hne
      · obtain ⟨hv, hkey⟩ := hready.events e event v hold
        exact ⟨hv, fun key' hkey' => Set.mem_insert_of_mem _ (hkey key' hkey')⟩
    · rcases live_insert.mp hnew with ⟨-, rfl, -⟩ | hold
      · refine ⟨hv, fun key' hkey' => ?_⟩
        obtain rfl : key = key' := (Prod.mk.inj (Option.some.inj hkey')).2
        exact Set.mem_insert _ _
      · cases (hready.events e event _ hold).1
  hasEvent key' hkey' := by
    rw [State.commit, hevents, hat.events]
    rcases hkey' with rfl | hold
    · exact ⟨s.events.nextId, _, live_commit.mpr (Or.inr ⟨rfl, live_insert.mpr (Or.inl ⟨rfl, rfl, rfl⟩)⟩), rfl⟩
    · obtain ⟨e, event, hlive, hkey⟩ := hready.hasEvent key' hold
      exact ⟨e, event, live_commit.mpr (Or.inl ⟨live_insert.mpr (Or.inr hlive), nofun⟩), hkey⟩

/-- What becomes of a call: its key is new and it is accepted, or not. -/
inductive Fate (sha256 : String → String) (p : Nat) (ms es : Set String) (c : Nat) (call : Call) (s : State) : Prop
  | accepted (key : String) (built : call.idempotencyKey sha256 = .ok key) (new : key ∉ es)
      (accepted : ∃ k, s.Accepted c k) (ready : Ready s p (insert call.eventKey ms) (insert key es))
  | refused (known : ∀ key, call.idempotencyKey sha256 = .ok key → key ∈ es) (refused : ∀ k, ¬ s.Accepted c k)
      (ended : ∃ result, s.phase c = .ended result)

/-- From its message a call comes to its end in three statements. -/
theorem finish {s s' : State} {c p : Nat} {call : Call} {ms es : Set String} (hready : Ready s p ms es)
    (hcall : calls[c]? = some call) (hkey : call.eventKey ∉ ms) (hat : AtMessage s s' c p) :
    Fate sha256 p ms es c call (exec (step sha256 calls) s' (List.replicate 3 c)) := by
  obtain ⟨i, hphase⟩ := hat.phase
  have hinsert : insertUnique messageIndex s'.messages c (call.message sha256 p i) =
      .inserted (s'.messages.insert ⟨call.message sha256 p i, .uncommitted c⟩) := by
    rw [hat.messages]
    refine insertUnique_alone (fun k m v hlive => Or.inl (hready.messages k m v hlive).1) ?_
    intro k m v j hlive hm hnew
    obtain ⟨hp, he⟩ := Prod.mk.inj (Option.some.inj (hm.trans hnew.symm))
    exact hkey ((show m.eventKey = call.eventKey from he) ▸ (hready.messages k m v hlive).2 hp)
  obtain ⟨u, hfirst, huphase, husessions, humessages, huevents⟩ : ∃ u, (step sha256 calls s' c).2 = u ∧
      u.phase c = .addingEvent p s'.messages.nextId ∧ u.sessions = s'.sessions ∧
      u.messages = s'.messages.insert ⟨call.message sha256 p i, .uncommitted c⟩ ∧ u.events = s'.events := by
    refine ⟨{ s' with
        messages := s'.messages.insert ⟨call.message sha256 p i, .uncommitted c⟩ }.goTo c
          (.addingEvent p s'.messages.nextId), ?_, goTo_self _ _ _, rfl, rfl, rfl⟩
    simp only [step, hcall, hphase, addMessage, hinsert]
  -- the rows of the project after a rollback are those from before
  have hgone : ∀ t : State, t.messages = Versioned.rollback u.messages c → findMessage t c call p = none := by
    intro t ht
    cases hfind : findMessage t c call p with
    | none => rfl
    | some found =>
      obtain ⟨v, hlive, -, hmatch⟩ := find?_some (k := found.1) (a := found.2) hfind
      rw [Bool.and_eq_true, decide_eq_true_eq, decide_eq_true_eq] at hmatch
      rw [ht, humessages] at hlive
      obtain ⟨hlive, hne⟩ := live_rollback.mp hlive
      rcases live_insert.mp hlive with ⟨-, -, hv⟩ | hold
      · exact absurd hv hne
      · rw [hat.messages] at hold
        exact absurd ((hready.messages _ _ _ hold).2 hmatch.1) (hmatch.2 ▸ hkey)
  show Fate sha256 p ms es c call (step sha256 calls (step sha256 calls (step sha256 calls s' c).2 c).2 c).2
  rw [hfirst]
  cases hbuilt : call.idempotencyKey sha256 with
  | error message =>
    simp only [step, hcall, huphase, addEvent, hbuilt, goTo_self]
    refine .refused (fun key h => by cases hbuilt.symm.trans h) (fun k h => ?_) ⟨_, goTo_self _ _ _⟩
    rw [State.Accepted, goTo_self] at h
    cases h
  | ok key =>
    by_cases hknown : key ∈ es
    · obtain ⟨e, event, hlive, hindex⟩ := hready.hasEvent key hknown
      have hrefused : insertUnique eventIndex u.events c (call.event p s'.messages.nextId key) = .refused := by
        rw [huevents, hat.events]
        exact insertUnique_of_committed hlive rfl hindex
      simp only [step, hcall, huphase, addEvent, hbuilt, hrefused, goTo_self, recover]
      rw [hgone _ rfl]
      refine .refused (fun key' h => ?_) (fun k h => ?_) ⟨_, goTo_self _ _ _⟩
      · obtain rfl := Except.ok.inj (hbuilt.symm.trans h)
        exact hknown
      · rw [State.Accepted, goTo_self] at h
        cases h
    · have hevent : insertUnique eventIndex u.events c (call.event p s'.messages.nextId key) =
          .inserted (u.events.insert ⟨call.event p s'.messages.nextId key, .uncommitted c⟩) := by
        rw [huevents, hat.events]
        refine insertUnique_alone (fun k e v hlive => Or.inl (hready.events k e v hlive).1) ?_
        intro k e v j hlive he hnew
        exact hknown ((hready.events k e v hlive).2 key (he.trans hnew.symm))
      simp only [step, hcall, huphase, addEvent, hbuilt, hevent, goTo_self, commitCall]
      refine .accepted key hbuilt hknown ⟨s'.messages.nextId, ?_⟩ ?_
      · rw [State.Accepted, goTo_self]
        rfl
      · have hcommit : Ready (State.commit ({ u with
            events := u.events.insert ⟨call.event p s'.messages.nextId key, .uncommitted c⟩ }.goTo c
              (.committing p s'.messages.nextId u.events.nextId)) c) p (insert call.eventKey ms) (insert key es) :=
          ready_commit hready hat husessions humessages (by rw [← huevents]; rfl)
        exact ⟨hcommit.sessions, hcommit.messages, hcommit.events, hcommit.hasEvent⟩

theorem ended_of_accepted {s : State} {c k : Nat} (h : s.Accepted c k) : ∃ result, s.phase c = .ended result := by
  rw [State.Accepted] at h
  cases hphase : s.phase c with
  | ended result => exact ⟨result, rfl⟩
  | _ =>
    rw [hphase] at h
    cases h

/-- **A call alone.**  Under a new event key a call comes to its end in six
statements, whatever its session is. -/
theorem run_call {s : State} {c p : Nat} {call : Call} {ms es : Set String} (hready : Ready s p ms es)
    (hcall : calls[c]? = some call) (hadmitted : Admitted s.projects call)
    (hproject : projectOf s.projects call.projectKey = some p) (hphase : s.phase c = .starting)
    (hkey : call.eventKey ∉ ms) :
    Fate sha256 p ms es c call (exec (step sha256 calls) s (List.replicate 6 c)) := by
  obtain ⟨n, hn, hat⟩ : ∃ n ≤ 3, AtMessage s (exec (step sha256 calls) s (List.replicate n c)) c p :=
    reach_message hready hcall hadmitted hproject hphase hkey
  have hfate : Fate sha256 p ms es c call
      (exec (step sha256 calls) (exec (step sha256 calls) s (List.replicate n c)) (List.replicate 3 c)) :=
    finish hready hcall hkey hat
  have hended : ∃ result, (exec (step sha256 calls)
      (exec (step sha256 calls) s (List.replicate n c)) (List.replicate 3 c)).phase c = .ended result := by
    cases hfate with
    | accepted key built new accepted ready =>
      obtain ⟨k, haccepted⟩ := accepted
      exact ended_of_accepted haccepted
    | refused known refused ended => exact ended
  obtain ⟨result, hresult⟩ := hended
  have hsplit : List.replicate 6 c = List.replicate n c ++ (List.replicate 3 c ++ List.replicate (3 - n) c) := by
    rw [← List.replicate_add, ← List.replicate_add, show n + (3 + (3 - n)) = 6 by omega]
  rw [hsplit, exec_append, exec_append, exec_ended hresult]
  exact hfate

/-! ## Idempotency keys -/

/-- The key of a call before it is cut. -/
def Call.dottedKey (call : Call) : String :=
  ".".intercalate [(normalisePart call.projectKey).getD "", "message.appended", "message",
    (normalisePart call.eventKey).getD "", "v1"]

/-- The digest is written in hexadecimal and tells the long keys of the calls apart. -/
structure Digests (sha256 : String → String) (calls : List Call) : Prop where
  hex : ∀ text, HexDigest (sha256 text)
  collision : ∀ call ∈ calls, ∀ call' ∈ calls, 255 < call.dottedKey.length → 255 < call'.dottedKey.length →
    sha256 call.dottedKey = sha256 call'.dottedKey → call.dottedKey = call'.dottedKey

theorem idempotencyKey_of_part {call : Call} (hproject : (normalisePart call.projectKey).isSome)
    (hevent : (normalisePart call.eventKey).isSome) :
    call.idempotencyKey sha256 = .ok (boundedKey sha256 call.dottedKey) := by
  obtain ⟨projectPart, hproject⟩ := Option.isSome_iff_exists.mp hproject
  obtain ⟨part, hevent⟩ := Option.isSome_iff_exists.mp hevent
  rw [Call.dottedKey, hproject, hevent]
  exact buildIdempotencyKey_of_parts sha256 hproject (by decide) (by decide) hevent
    (by decide)

theorem part_of_idempotencyKey {call : Call} {key : String} (h : call.idempotencyKey sha256 = .ok key) :
    (normalisePart call.eventKey).isSome := by
  rw [Option.isSome_iff_ne_none]
  intro hnone
  exact buildIdempotencyKey_refuses sha256 hnone key h

/-- Calls of one project have the same idempotency key only if the builder makes the
same part of their event keys. -/
theorem part_eq_of_key_eq {call call' : Call} {key : String} (hdigests : Digests sha256 calls) (hmem : call ∈ calls)
    (hmem' : call' ∈ calls) (hproject : (normalisePart call.projectKey).isSome)
    (hsame : call'.projectKey = call.projectKey) (hkey : call.idempotencyKey sha256 = .ok key)
    (hkey' : call'.idempotencyKey sha256 = .ok key) :
    normalisePart call'.eventKey = normalisePart call.eventKey := by
  have hevent := part_of_idempotencyKey hkey
  have hevent' := part_of_idempotencyKey hkey'
  have hbounded : boundedKey sha256 call'.dottedKey = boundedKey sha256 call.dottedKey := by
    rw [idempotencyKey_of_part hproject hevent] at hkey
    rw [idempotencyKey_of_part (hsame ▸ hproject) hevent'] at hkey'
    exact Except.ok.inj (hkey'.trans hkey.symm)
  obtain ⟨front, hfront⟩ := intercalate_parts_end ((normalisePart call.projectKey).getD "") "message.appended" "message"
    ((normalisePart call.eventKey).getD "")
  obtain ⟨front', hfront'⟩ := intercalate_parts_end ((normalisePart call'.projectKey).getD "") "message.appended"
    "message" ((normalisePart call'.eventKey).getD "")
  have hdotted := boundedKey_inj hdigests.hex hfront' hfront (hdigests.collision call' hmem' call hmem) hbounded
  obtain ⟨part, hpart⟩ := Option.isSome_iff_exists.mp hevent
  obtain ⟨part', hpart'⟩ := Option.isSome_iff_exists.mp hevent'
  simp only [hsame, hpart, hpart', Option.getD_some] at hdotted
  rw [hpart, hpart', show part' = part from intercalate_parts_inj hdotted]

/-- The part decides the idempotency key. -/
theorem key_eq_of_part_eq {call call' : Call} {key : String} (hproject : (normalisePart call.projectKey).isSome)
    (hsame : call'.projectKey = call.projectKey) (hpart : normalisePart call'.eventKey = normalisePart call.eventKey)
    (hkey : call.idempotencyKey sha256 = .ok key) : call'.idempotencyKey sha256 = .ok key := by
  have hevent := part_of_idempotencyKey hkey
  have hevent' : (normalisePart call'.eventKey).isSome := by rw [hpart, hevent]
  have hdotted : call'.dottedKey = call.dottedKey := by simp only [Call.dottedKey, hsame, hpart]
  rw [idempotencyKey_of_part (hsame ▸ hproject) hevent', hdotted]
  exact (idempotencyKey_of_part hproject hevent).symm.trans hkey

/-! ## All calls -/

/-- The builder takes every event key and makes a different part of each. -/
def TellsApart (calls : List Call) : Prop :=
  (∀ call ∈ calls, (normalisePart call.eventKey).isSome) ∧
    (calls.map fun call => normalisePart call.eventKey).Nodup

theorem tellsApart_snoc (calls : List Call) (call : Call) :
    TellsApart (calls ++ [call]) ↔ TellsApart calls ∧ (normalisePart call.eventKey).isSome ∧
      ∀ call' ∈ calls, normalisePart call'.eventKey ≠ normalisePart call.eventKey := by
  simp only [TellsApart, List.mem_append, List.mem_singleton, List.map_append, List.map_cons, List.map_nil,
    List.nodup_append', List.disjoint_singleton, List.nodup_singleton, List.mem_map, not_exists, not_and]
  constructor
  · rintro ⟨hsome, hnodup, -, hnew⟩
    exact ⟨⟨fun call' h => hsome call' (Or.inl h), hnodup⟩, hsome call (Or.inr rfl), hnew⟩
  · rintro ⟨⟨hsome, hnodup⟩, hcall, hnew⟩
    refine ⟨?_, hnodup, trivial, hnew⟩
    rintro call' (h | rfl)
    · exact hsome call' h
    · exact hcall

/-- The calls of a sequence: of one project, whose key the builder takes, with rights to it
and under pairwise different event keys. -/
structure Sequence (s : State) (p : Nat) (projectKey : String) (calls : List Call) : Prop where
  builder : (normalisePart projectKey).isSome
  project : projectOf s.projects projectKey = some p
  keys : ∀ call ∈ calls, call.projectKey = projectKey
  admitted : ∀ call ∈ calls, Admitted s.projects call
  distinct : (calls.map Call.eventKey).Nodup

/-- What holds when the first `n` calls have ended. -/
structure Progress (sha256 : String → String) (calls : List Call) (s : State) (p : Nat) (n : Nat) (t : State) :
    Prop where
  projects : t.projects = s.projects
  starting : ∀ c, n ≤ c → t.phase c = .starting
  accepted : (∀ c < n, ∃ k, t.Accepted c k) ↔ TellsApart (calls.take n)
  ready : TellsApart (calls.take n) → Ready t p
    {key | key ∈ messageKeys s p ∨ ∃ call ∈ calls.take n, call.eventKey = key}
    {key | key ∈ eventKeys s p ∨ ∃ call ∈ calls.take n, call.idempotencyKey sha256 = .ok key}

theorem progress_zero {s : State} {p : Nat} (hfresh : Fresh sha256 calls s p) : Progress sha256 calls s p 0 s where
  projects := rfl
  starting c _ := hfresh.starting c
  accepted := by
    refine iff_of_true (fun c hc => absurd hc (Nat.not_lt_zero c)) ⟨?_, ?_⟩
    · intro call h
      cases h
    · exact List.nodup_nil
  ready _ := by
    have hready := hfresh.ready
    have hm : {key | key ∈ messageKeys s p ∨ ∃ call ∈ calls.take 0, call.eventKey = key} = messageKeys s p := by
      ext key
      simp
    have he : {key | key ∈ eventKeys s p ∨ ∃ call ∈ calls.take 0, call.idempotencyKey sha256 = .ok key} =
        eventKeys s p := by
      ext key
      simp
    rw [hm, he]
    exact hready

/-- What becomes of the next call, when all before it are told apart. -/
theorem fateOf {s t : State} {p n : Nat} {projectKey : String} (hsequence : Sequence s p projectKey calls)
    (hfresh : Fresh sha256 calls s p) {call : Call} (hcall : calls[n]? = some call) {es : Set String}
    (hready : Ready t p {key | key ∈ messageKeys s p ∨ ∃ call ∈ calls.take n, call.eventKey = key} es)
    (hprojects : t.projects = s.projects) (hstarting : t.phase n = .starting) :
    Fate sha256 p {key | key ∈ messageKeys s p ∨ ∃ call ∈ calls.take n, call.eventKey = key} es n call
      (exec (step sha256 calls) t (List.replicate 6 n)) := by
  have hmem : call ∈ calls := List.mem_of_getElem? hcall
  refine run_call hready hcall ?_ ?_ hstarting ?_
  · rw [hprojects]
    exact hsequence.admitted call hmem
  · rw [hprojects, hsequence.keys call hmem]
    exact hsequence.project
  · rintro (⟨k, message, v, hlive, hp, hkey⟩ | ⟨call', hmem', hkey⟩)
    · exact (hfresh.messages k message v hlive).2 hp call hmem hkey.symm
    · obtain ⟨i, hi, hget⟩ := List.mem_take_iff_getElem.mp hmem'
      have hnodup := hsequence.distinct
      have hi' : (calls.map Call.eventKey)[i]? = some call.eventKey := by
        rw [List.getElem?_map, List.getElem?_eq_getElem (by omega), hget, Option.map_some, hkey]
      have hn' : (calls.map Call.eventKey)[n]? = some call.eventKey := by
        rw [List.getElem?_map, hcall, Option.map_some]
      have hsame := (List.getElem?_inj (by rw [List.length_map]; omega) hnodup).mp (hi'.trans hn'.symm)
      omega

/-- The keys of one more call. -/
theorem insert_snoc (base : Set String) (of : Call → String → Prop) {old : List Call} {call : Call} {key : String}
    (hkey : ∀ key', of call key' ↔ key' = key) :
    insert key {key' | key' ∈ base ∨ ∃ call ∈ old, of call key'} =
      {key' | key' ∈ base ∨ ∃ call' ∈ old ++ [call], of call' key'} := by
  ext key'
  constructor
  · rintro (rfl | hbase | ⟨call', hmem, h⟩)
    · exact Or.inr ⟨call, List.mem_append_right _ List.mem_cons_self, (hkey _).mpr rfl⟩
    · exact Or.inl hbase
    · exact Or.inr ⟨call', List.mem_append_left _ hmem, h⟩
  · rintro (hbase | ⟨call', hmem, h⟩)
    · exact Or.inr (Or.inl hbase)
    · rcases List.mem_append.mp hmem with hold | hlast
      · exact Or.inr (Or.inr ⟨call', hold, h⟩)
      · rw [List.mem_singleton] at hlast
        subst hlast
        exact Or.inl ((hkey key').mp h)

/-- One more call. -/
theorem progress_succ {s t : State} {p n : Nat} {projectKey : String} (hdigests : Digests sha256 calls)
    (hfresh : Fresh sha256 calls s p) (hsequence : Sequence s p projectKey calls) (hn : n < calls.length)
    (h : Progress sha256 calls s p n t) :
    Progress sha256 calls s p (n + 1) (exec (step sha256 calls) t (List.replicate 6 n)) := by
  obtain ⟨call, hcall⟩ : ∃ call, calls[n]? = some call := ⟨calls[n], List.getElem?_eq_getElem hn⟩
  have hmem : call ∈ calls := List.mem_of_getElem? hcall
  have htake : calls.take (n + 1) = calls.take n ++ [call] := by
    rw [List.take_add_one, hcall]
    rfl
  have hsame : ∀ call' ∈ calls, call'.projectKey = call.projectKey := fun call' hmem' =>
    (hsequence.keys call' hmem').trans (hsequence.keys call hmem).symm
  have hproject : (normalisePart call.projectKey).isSome := by
    rw [hsequence.keys call hmem]
    exact hsequence.builder
  have hframe : Frame n t (exec (step sha256 calls) t (List.replicate 6 n)) := exec_frame t n 6
  -- whether an earlier call is accepted does not change any more
  have hearlier : (∀ c < n, ∃ k, (exec (step sha256 calls) t (List.replicate 6 n)).Accepted c k) ↔
      ∀ c < n, ∃ k, t.Accepted c k := by
    refine forall₂_congr fun c hc => exists_congr fun k => ?_
    rw [State.Accepted, State.Accepted, hframe.phase c (Nat.ne_of_lt hc)]
  have hsplit : (∀ c < n + 1, ∃ k, (exec (step sha256 calls) t (List.replicate 6 n)).Accepted c k) ↔
      (∀ c < n, ∃ k, t.Accepted c k) ∧ ∃ k, (exec (step sha256 calls) t (List.replicate 6 n)).Accepted n k := by
    rw [← hearlier]
    constructor
    · intro hall
      exact ⟨fun c hc => hall c (by omega), hall n (by omega)⟩
    · rintro ⟨hbefore, hlast⟩ c hc
      rcases Nat.lt_succ_iff_lt_or_eq.mp hc with hlt | rfl
      · exact hbefore c hlt
      · exact hlast
  refine ⟨hframe.projects.trans h.projects, fun c hc => ?_, ?_, ?_⟩
  · rw [hframe.phase c (by omega)]
    exact h.starting c (by omega)
  · rw [hsplit, h.accepted, htake, tellsApart_snoc]
    refine and_congr_right fun happart => ?_
    cases fateOf hsequence hfresh hcall (h.ready happart) h.projects (h.starting n (Nat.le_refl n)) with
    | accepted key built new accepted ready =>
      refine iff_of_true accepted ⟨part_of_idempotencyKey built, fun call' hmem' hpart => new (Or.inr ⟨call', hmem', ?_⟩)⟩
      exact key_eq_of_part_eq hproject (hsame call' (List.mem_of_mem_take hmem')) hpart built
    | refused known refused ended =>
      refine iff_of_false (not_exists.mpr refused) ?_
      rintro ⟨hsome, hnew⟩
      have hbuilt : call.idempotencyKey sha256 = .ok (boundedKey sha256 call.dottedKey) :=
        idempotencyKey_of_part hproject hsome
      rcases known _ hbuilt with ⟨e, event, v, hlive, hindex⟩ | ⟨call', hmem', hkey⟩
      · exact (hfresh.events e event v hlive).2 _ hindex call hmem hbuilt
      · have hmem'' := List.mem_of_mem_take hmem'
        exact hnew call' hmem' (part_eq_of_key_eq hdigests hmem hmem'' hproject (hsame call' hmem'') hbuilt hkey)
  · intro happart
    rw [htake] at happart
    obtain ⟨hbefore, hsome, hnew⟩ := (tellsApart_snoc _ _).mp happart
    cases fateOf hsequence hfresh hcall (h.ready hbefore) h.projects (h.starting n (Nat.le_refl n)) with
    | refused known refused ended =>
      have hbuilt : call.idempotencyKey sha256 = .ok (boundedKey sha256 call.dottedKey) :=
        idempotencyKey_of_part hproject hsome
      rcases known _ hbuilt with ⟨e, event, v, hlive, hindex⟩ | ⟨call', hmem', hkey⟩
      · exact absurd hbuilt ((hfresh.events e event v hlive).2 _ hindex call hmem)
      · have hmem'' := List.mem_of_mem_take hmem'
        exact absurd (part_eq_of_key_eq hdigests hmem hmem'' hproject (hsame call' hmem'') hbuilt hkey)
          (hnew call' hmem')
    | accepted key built new accepted ready =>
      rw [htake, ← insert_snoc _ (fun call key => call.eventKey = key) (fun _ => eq_comm),
        ← insert_snoc _ (fun call key => call.idempotencyKey sha256 = .ok key) (fun key' => ?_)]
      · exact ready
      · rw [built, Except.ok.injEq]
        exact eq_comm

theorem progress (hdigests : Digests sha256 calls) {s : State} {p : Nat} {projectKey : String}
    (hfresh : Fresh sha256 calls s p) (hsequence : Sequence s p projectKey calls) (n : Nat) (hn : n ≤ calls.length) :
    Progress sha256 calls s p n (exec (step sha256 calls) s (oneByOne n)) := by
  induction n with
  | zero => exact progress_zero hfresh
  | succ n ih =>
    rw [oneByOne_succ, exec_append]
    exact progress_succ hdigests hfresh hsequence (by omega) (ih (by omega))

end CodexMemory.Append
