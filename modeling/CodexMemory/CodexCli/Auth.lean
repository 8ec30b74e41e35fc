import CodexMemory.Trace

/-!
# `CodexAuthGenerationManager` of `codex_auth.py`

The manager starts login processes, one generation each, and writes the pointer file
that says which generation the Worker uses.  Its calls are under a lock; between them
the processes exit as they like.  Disk errors are left out, and so are the directories
of the generations.

* `safe_step`: one call writes only what it may exactly when it does not poll a login
  that was cancelled after it had exited with code 0;
* `safe_iff`: the same for any number of calls and exits.
-/

namespace CodexMemory.CodexAuth

/-! ## The manager -/

/-- What the pointer file holds. -/
inductive Pointer
  | missing
  | unreadable
  | root
  | disabled
  | generation (g : Nat)
  deriving DecidableEq

inductive AuthStatus
  | ready
  | notLoggedIn
  | loginInProgress
  | error
  deriving DecidableEq

/-- A login process. -/
inductive Process
  | absent
  | running
  | exited (code : Int)
  deriving DecidableEq

/-- The manager with the pointer file and the process of every generation; generations from `next` on are
not used yet. -/
structure Manager where
  pointer : Pointer
  login : Option Nat
  status : AuthStatus
  process : Nat → Process
  next : Nat

/-- What probing the active generation comes to. -/
inductive Probe
  | ready
  | notReady
  | failed
  deriving DecidableEq

/-- What a call returns, and the pointers that it writes, in their order. -/
structure Reply where
  status : AuthStatus
  written : List Pointer
  deriving DecidableEq

/-- `process.poll()` -/
def Process.poll : Process → Option Int
  | .exited code => some code
  | _ => none

def Manager.setProcess (m : Manager) (g : Nat) (process : Process) : Manager :=
  { m with process := fun i => if i = g then process else m.process i }

/-- `_poll_locked` -/
def pollLocked (m : Manager) : List Pointer × Manager :=
  match m.login with
  | none => ([], m)
  | some g =>
    match (m.process g).poll with
    | none => ([], { m with status := .loginInProgress })
    | some code =>
      if code = 0 then ([.generation g], { m with login := none, pointer := .generation g, status := .ready })
      else ([.disabled], { m with login := none, pointer := .disabled, status := .error })

/-- `status` of a manager that has been polled and tracks no login. -/
def statusPolled (probe : Probe) (written : List Pointer) (m : Manager) : Reply × Manager :=
  match m.pointer with
  | .unreadable => (⟨.error, written⟩, { m with status := .error })
  | .disabled => (⟨.notLoggedIn, written⟩, { m with status := .notLoggedIn })
  | pointer =>
    match probe with
    | .failed => (⟨.error, written⟩, { m with status := .error })
    | .notReady => (⟨.notLoggedIn, written⟩, { m with status := .notLoggedIn })
    | .ready =>
      if pointer = .missing then (⟨.ready, written ++ [.root]⟩, { m with pointer := .root, status := .ready })
      else (⟨.ready, written⟩, { m with status := .ready })

/-- `status`, which `recheck` also is. -/
def statusCall (probe : Probe) (m : Manager) : Reply × Manager :=
  let polled := pollLocked m
  if polled.2.login.isSome then (⟨.loginInProgress, polled.1⟩, polled.2) else statusPolled probe polled.1 polled.2

/-- `start_login`; the process may fail to launch. -/
def startLogin (launches : Bool) (m : Manager) : Reply × Manager :=
  let polled := pollLocked m
  if polled.2.login.isSome then (⟨.loginInProgress, polled.1⟩, polled.2)
  else
    let m := { polled.2 with next := polled.2.next + 1, pointer := .disabled }
    if launches then
      (⟨.loginInProgress, polled.1 ++ [.disabled]⟩,
        { m.setProcess polled.2.next .running with login := some polled.2.next, status := .loginInProgress })
    else (⟨.error, polled.1 ++ [.disabled, .disabled]⟩, { m with status := .error })

/-- `cancel_login`; a process that is running is afterwards as `left` says, as it may refuse to terminate. -/
def cancelLogin (left : Process) (m : Manager) : Reply × Manager :=
  let stopped := match m.login with
    | none => m
    | some g => if (m.process g).poll = none then { m.setProcess g left with login := none } else m
  (⟨.notLoggedIn, [.disabled]⟩, { stopped with pointer := .disabled, status := .notLoggedIn })

/-- A call, or the exit of a process. -/
inductive Call
  | status (probe : Probe)
  | recheck (probe : Probe)
  | startLogin (launches : Bool)
  | cancelLogin (left : Process)
  | exit (g : Nat) (code : Int)
  deriving DecidableEq

def step (m : Manager) : Call → Reply × Manager
  | .status probe => statusCall probe m
  | .recheck probe => statusCall probe m
  | .startLogin launches => startLogin launches m
  | .cancelLogin left => cancelLogin left m
  | .exit g code => (⟨m.status, []⟩, if m.process g = .running then m.setProcess g (.exited code) else m)

/-! ## What the pointer may say -/

/-- Which login may become active: none was started or cancelled yet, or the last one started, or none. -/
inductive Expected
  | untouched
  | login (g : Nat)
  | nothing
  deriving DecidableEq

/-- The manager, and the login that may become active. -/
structure Watched where
  manager : Manager
  expected : Expected

/-- A start that finds a login in progress changes nothing. -/
def Watched.expectedAfter (w : Watched) (call : Call) (after : Manager) : Expected :=
  match call with
  | .startLogin _ =>
    if (pollLocked w.manager).2.login.isSome then w.expected
    else (after.login.map Expected.login).getD .nothing
  | .cancelLogin _ => .nothing
  | _ => w.expected

def watch (w : Watched) (call : Call) : Reply × Watched :=
  let out := step w.manager call
  (out.1, ⟨out.2, w.expectedAfter call out.2⟩)

/-- The pointers that may stand in the file, which held `initial` at first. -/
def Allowed (initial : Pointer) (process : Nat → Process) : Expected → Pointer → Prop
  | .untouched, pointer => pointer = initial ∨ initial = .missing ∧ pointer = .root
  | .login g, pointer => pointer = .disabled ∨ pointer = .generation g ∧ process g = .exited 0
  | .nothing, pointer => pointer = .disabled

/-- During the call and after it the pointer says what it may. -/
structure Safe (initial : Pointer) (w : Watched) (call : Call) : Prop where
  during : ∀ pointer ∈ (watch w call).1.written,
    Allowed initial (watch w call).2.manager.process w.expected pointer ∨
      Allowed initial (watch w call).2.manager.process (watch w call).2.expected pointer
  after : Allowed initial (watch w call).2.manager.process (watch w call).2.expected (watch w call).2.manager.pointer

/-- The call polls the login process. -/
def Call.polls : Call → Bool
  | .status _ | .recheck _ | .startLogin _ => true
  | _ => false

/-- The call does not poll a login that has exited with code 0 and was cancelled. -/
def Observed (w : Watched) (call : Call) : Prop :=
  call.polls = true → ∀ g, w.manager.login = some g → w.manager.process g = .exited 0 → w.expected = .login g

/-- A manager before its first call. -/
structure Start where
  manager : Manager
  idle : manager.login = none

def Start.watched (start : Start) : Watched := ⟨start.manager, .untouched⟩

/-! ## Polling -/

variable {initial : Pointer} {w : Watched}

/-- What holds before every call. -/
structure Sound (initial : Pointer) (w : Watched) : Prop where
  allowed : Allowed initial w.manager.process w.expected w.manager.pointer
  touched : ∀ g, w.manager.login = some g → w.expected ≠ .untouched
  used : ∀ g, w.manager.login = some g → g < w.manager.next
  running : ∀ g, w.manager.login = some g → (w.manager.process g).poll = none → w.expected = .login g

/-- **What polling does.** -/
inductive Polled (m : Manager) : List Pointer × Manager → Prop
  | idle (none : m.login = none) : Polled m ([], m)
  | waits (g : Nat) (tracked : m.login = some g) (poll : (m.process g).poll = none) :
      Polled m ([], { m with status := .loginInProgress })
  | succeeds (g : Nat) (tracked : m.login = some g) (exited : m.process g = .exited 0) :
      Polled m ([.generation g], { m with login := none, pointer := .generation g, status := .ready })
  | fails (g : Nat) (code : Int) (tracked : m.login = some g) (exited : m.process g = .exited code) (failed : code ≠ 0) :
      Polled m ([.disabled], { m with login := none, pointer := .disabled, status := .error })

theorem poll_some {process : Process} {code : Int} (h : process.poll = some code) : process = .exited code := by
  cases process <;> cases h
  rfl

theorem polled (m : Manager) : Polled m (pollLocked m) := by
  unfold pollLocked
  split
  · next hnone => exact .idle hnone
  · next g hlogin =>
    split
    · next hpoll => exact .waits g hlogin hpoll
    · next code hpoll =>
      have hexited := poll_some hpoll
      split
      · next hzero => exact .succeeds g hlogin (hzero ▸ hexited)
      · next hfailed => exact .fails g code hlogin hexited hfailed

theorem polled_process (m : Manager) : (pollLocked m).2.process = m.process ∧ (pollLocked m).2.next = m.next := by
  have h := polled m
  generalize pollLocked m = out at h
  cases h <;> exact ⟨rfl, rfl⟩

/-- A poll that may happen writes what may stand in the file, also when other processes change. -/
theorem polled_written (h : Sound initial w)
    (hobserved : ∀ g, w.manager.login = some g → w.manager.process g = .exited 0 → w.expected = .login g)
    {process : Nat → Process} (hprocess : ∀ g, w.manager.login = some g → process g = w.manager.process g) :
    ∀ pointer ∈ (pollLocked w.manager).1, Allowed initial process w.expected pointer := by
  have hpolled := polled w.manager
  generalize pollLocked w.manager = out at hpolled
  intro pointer hpointer
  cases hpolled with
  | idle hnone => cases hpointer
  | waits g hlogin hpoll => cases hpointer
  | succeeds g hlogin hexited =>
    obtain rfl := List.mem_singleton.mp hpointer
    rw [hobserved g hlogin hexited]
    exact .inr ⟨rfl, (hprocess g hlogin).trans hexited⟩
  | fails g code hlogin hexited hfailed =>
    obtain rfl := List.mem_singleton.mp hpointer
    cases hexpected : w.expected with
    | untouched => exact absurd hexpected (h.touched g hlogin)
    | login k => exact .inl rfl
    | nothing => rfl

/-- It leaves the pointer allowed and the login expected. -/
theorem polled_sound (h : Sound initial w)
    (hobserved : ∀ g, w.manager.login = some g → w.manager.process g = .exited 0 → w.expected = .login g) :
    Sound initial ⟨(pollLocked w.manager).2, w.expected⟩ := by
  have hwritten := polled_written h hobserved fun _ _ => rfl
  have hpolled := polled w.manager
  generalize pollLocked w.manager = out at hpolled hwritten
  cases hpolled with
  | idle hnone => exact h
  | waits g hlogin hpoll => exact ⟨h.allowed, h.touched, h.used, h.running⟩
  | succeeds g hlogin hexited => exact ⟨hwritten _ List.mem_cons_self, nofun, nofun, nofun⟩
  | fails g code hlogin hexited hfailed => exact ⟨hwritten _ List.mem_cons_self, nofun, nofun, nofun⟩

/-- A poll of a login that succeeded writes its generation. -/
theorem polled_succeeded {m : Manager} {g : Nat} (hlogin : m.login = some g) (hexited : m.process g = .exited 0) :
    pollLocked m = ([.generation g], { m with login := none, pointer := .generation g, status := .ready }) := by
  simp only [pollLocked, hlogin, hexited, Process.poll, if_true]

/-! ## One call -/

/-- A login that has exited is allowed to become active only if it is expected. -/
theorem expected_of_allowed (h : Sound initial w) {g : Nat} (hlogin : w.manager.login = some g)
    {process : Nat → Process} (hallowed : Allowed initial process w.expected (.generation g)) :
    w.expected = .login g := by
  cases hexpected : w.expected with
  | untouched => exact absurd hexpected (h.touched g hlogin)
  | login k =>
    rw [hexpected] at hallowed
    rcases hallowed with hne | ⟨hsame, -⟩
    · cases hne
    · cases hsame
      rfl
  | nothing =>
    rw [hexpected] at hallowed
    cases hallowed

/-- What `status` writes and leaves, after the poll. -/
theorem statusPolled_cases (probe : Probe) (written : List Pointer) (m : Manager) :
    (∃ status, statusPolled probe written m = (⟨status, written⟩, { m with status := status })) ∨
      m.pointer = .missing ∧
        statusPolled probe written m = (⟨.ready, written ++ [.root]⟩, { m with pointer := .root, status := .ready }) := by
  cases hpointer : m.pointer <;> cases probe <;> simp [statusPolled, hpointer]

/-- The pointer `root` may be written where there is no pointer. -/
theorem allowed_root {process : Nat → Process} {expected : Expected} (h : Allowed initial process expected .missing) :
    Allowed initial process expected .root := by
  cases expected with
  | untouched =>
    rcases h with hsame | ⟨-, hne⟩
    · exact .inr ⟨hsame.symm, rfl⟩
    · cases hne
  | login g => rcases h with hne | ⟨hne, -⟩ <;> cases hne
  | nothing => cases h

theorem status_observed (h : Sound initial w)
    (hobserved : ∀ g, w.manager.login = some g → w.manager.process g = .exited 0 → w.expected = .login g) (probe : Probe) :
    (∀ pointer ∈ (statusCall probe w.manager).1.written,
        Allowed initial (statusCall probe w.manager).2.process w.expected pointer) ∧
      Sound initial ⟨(statusCall probe w.manager).2, w.expected⟩ := by
  have hwritten := polled_written h hobserved fun _ _ => rfl
  have hsound := polled_sound h hobserved
  have hprocess := (polled_process w.manager).1
  simp only [statusCall]
  generalize pollLocked w.manager = out at hwritten hsound hprocess
  rw [← hprocess] at hwritten
  split
  · exact ⟨hwritten, hsound⟩
  · rcases statusPolled_cases probe out.1 out.2 with ⟨status, hout⟩ | ⟨hmissing, hout⟩ <;> rw [hout]
    · exact ⟨hwritten, hsound.allowed, hsound.touched, hsound.used, hsound.running⟩
    · have hroot : Allowed initial out.2.process w.expected .root := allowed_root (hmissing ▸ hsound.allowed)
      refine ⟨fun pointer hpointer => ?_, hroot, hsound.touched, hsound.used, hsound.running⟩
      rcases List.mem_append.mp hpointer with hpointer | hpointer
      · exact hwritten pointer hpointer
      · exact List.mem_singleton.mp hpointer ▸ hroot

theorem setProcess_ne (m : Manager) {g k : Nat} (process : Process) (h : k ≠ g) :
    (m.setProcess g process).process k = m.process k := if_neg h

theorem startLogin_observed (h : Sound initial w)
    (hobserved : ∀ g, w.manager.login = some g → w.manager.process g = .exited 0 → w.expected = .login g)
    (launches : Bool) : Safe initial w (.startLogin launches) ∧ Sound initial (watch w (.startLogin launches)).2 := by
  have hsound := polled_sound h hobserved
  obtain ⟨hprocess, hnext⟩ := polled_process w.manager
  by_cases hprogress : (pollLocked w.manager).2.login.isSome = true
  · have hwritten := polled_written h hobserved fun g _ => congrFun hprocess g
    have hwatch : watch w (.startLogin launches) =
        (⟨.loginInProgress, (pollLocked w.manager).1⟩, ⟨(pollLocked w.manager).2, w.expected⟩) := by
      simp only [watch, step, startLogin, Watched.expectedAfter, hprogress, if_true]
    refine ⟨⟨fun pointer hpointer => .inl ?_, ?_⟩, ?_⟩ <;> rw [hwatch]
    · rw [hwatch] at hpointer
      exact hwritten pointer hpointer
    · exact hsound.allowed
    · exact hsound
  · have hnone : (pollLocked w.manager).2.login = none := by simpa using hprogress
    cases launches with
    | true =>
      have hwatch : watch w (.startLogin true) = (⟨.loginInProgress, (pollLocked w.manager).1 ++ [.disabled]⟩,
          ⟨{ (({ (pollLocked w.manager).2 with next := w.manager.next + 1, pointer := .disabled } : Manager).setProcess
            w.manager.next .running) with login := some w.manager.next, status := .loginInProgress },
            .login w.manager.next⟩) := by
        simp [watch, step, startLogin, Watched.expectedAfter, hnone, hnext]
      refine ⟨⟨fun pointer hpointer => ?_, ?_⟩, ?_⟩ <;> rw [hwatch]
      · rw [hwatch] at hpointer
        rcases List.mem_append.mp hpointer with hpointer | hpointer
        · refine .inl (polled_written h hobserved (fun g hlogin => ?_) pointer hpointer)
          exact (setProcess_ne _ _ (Nat.ne_of_lt (h.used g hlogin))).trans (congrFun hprocess g)
        · exact .inr (.inl (List.mem_singleton.mp hpointer))
      · exact .inl rfl
      · refine ⟨.inl rfl, nofun, fun g hlogin => ?_, fun g hlogin _ => ?_⟩ <;> cases hlogin
        · exact Nat.lt_succ_self _
        · rfl
    | false =>
      have hwatch : watch w (.startLogin false) = (⟨.error, (pollLocked w.manager).1 ++ [.disabled, .disabled]⟩,
          ⟨{ (pollLocked w.manager).2 with next := w.manager.next + 1, pointer := .disabled, status := .error },
            .nothing⟩) := by
        simp [watch, step, startLogin, Watched.expectedAfter, hnone, hnext]
      have hwritten := polled_written h hobserved fun g _ => congrFun hprocess g
      refine ⟨⟨fun pointer hpointer => ?_, ?_⟩, ?_⟩ <;> rw [hwatch]
      · rw [hwatch] at hpointer
        rcases List.mem_append.mp hpointer with hpointer | hpointer
        · exact .inl (hwritten pointer hpointer)
        · have hdisabled : pointer = .disabled := by simpa using hpointer
          exact .inr hdisabled
      · rfl
      · have hidle : ∀ g, (pollLocked w.manager).2.login ≠ some g := by
          rw [hnone]
          exact nofun
        exact ⟨rfl, fun g hlogin => absurd hlogin (hidle g), fun g hlogin => absurd hlogin (hidle g),
          fun g hlogin => absurd hlogin (hidle g)⟩

/-- A login that is cancelled while its process runs is not tracked any more. -/
theorem cancelLogin_observed (h : Sound initial w) (left : Process) :
    Safe initial w (.cancelLogin left) ∧ Sound initial (watch w (.cancelLogin left)).2 := by
  refine ⟨⟨fun pointer hpointer => .inr (List.mem_singleton.mp hpointer), rfl⟩, rfl, nofun, ?_, ?_⟩
  · intro g hlogin
    change (cancelLogin left w.manager).2.login = some g at hlogin
    show g < (cancelLogin left w.manager).2.next
    simp only [cancelLogin] at hlogin ⊢
    split at hlogin
    · next hnone =>
      rw [hnone] at hlogin
      cases hlogin
    · next k hk =>
      split at hlogin
      · cases hlogin
      · next hpoll =>
        rw [if_neg hpoll]
        exact h.used g hlogin
  · intro g hlogin hrunning
    change (cancelLogin left w.manager).2.login = some g at hlogin
    change ((cancelLogin left w.manager).2.process g).poll = none at hrunning
    simp only [cancelLogin] at hlogin hrunning
    split at hlogin
    · next hnone =>
      rw [hnone] at hlogin
      cases hlogin
    · next k hk =>
      split at hlogin
      · cases hlogin
      · next hpoll =>
        cases hk.symm.trans hlogin
        simp only [hk, if_neg hpoll] at hrunning
        exact absurd hrunning hpoll

/-- The exit of a process writes nothing. -/
theorem exit_observed (h : Sound initial w) (g : Nat) (code : Int) :
    Safe initial w (.exit g code) ∧ Sound initial (watch w (.exit g code)).2 := by
  have hsound : Sound initial (watch w (.exit g code)).2 := by
    show Sound initial ⟨if w.manager.process g = .running then w.manager.setProcess g (.exited code) else w.manager,
      w.expected⟩
    split
    · next hrunning =>
      have hkept : ∀ k, w.manager.process k = .exited 0 → (w.manager.setProcess g (.exited code)).process k = .exited 0 := by
        intro k hk
        have hne : k ≠ g := by
          rintro rfl
          cases hrunning.symm.trans hk
        exact (setProcess_ne _ _ hne).trans hk
      refine ⟨?_, h.touched, h.used, fun k hlogin hpoll => ?_⟩
      · have hallowed := h.allowed
        cases hexpected : w.expected with
        | untouched =>
          rw [hexpected] at hallowed
          exact hallowed
        | login k =>
          rw [hexpected] at hallowed
          exact hallowed.imp_right fun ⟨hpointer, hexited⟩ => ⟨hpointer, hkept k hexited⟩
        | nothing =>
          rw [hexpected] at hallowed
          exact hallowed
      · have hne : k ≠ g := by
          rintro rfl
          simp [Manager.setProcess, Process.poll] at hpoll
        change (Manager.process (w.manager.setProcess g (.exited code)) k).poll = none at hpoll
        rw [setProcess_ne _ _ hne] at hpoll
        exact h.running k hlogin hpoll
    · exact h
  exact ⟨⟨nofun, hsound.allowed⟩, hsound⟩

/-- A call that polls no cancelled login is safe, and keeps what holds before every call. -/
theorem observed_safe (h : Sound initial w) {call : Call} (hobserved : Observed w call) :
    Safe initial w call ∧ Sound initial (watch w call).2 := by
  cases call with
  | status probe =>
    obtain ⟨hwritten, hsound⟩ := status_observed h (hobserved rfl) probe
    exact ⟨⟨fun pointer hpointer => .inl (hwritten pointer hpointer), hsound.allowed⟩, hsound⟩
  | recheck probe =>
    obtain ⟨hwritten, hsound⟩ := status_observed h (hobserved rfl) probe
    exact ⟨⟨fun pointer hpointer => .inl (hwritten pointer hpointer), hsound.allowed⟩, hsound⟩
  | startLogin launches => exact startLogin_observed h (hobserved rfl) launches
  | cancelLogin left => exact cancelLogin_observed h left
  | exit g code => exact exit_observed h g code

/-- A poll of a login that succeeded is written by the call that polls. -/
theorem succeeded_written {call : Call} (hpolls : call.polls = true) {g : Nat} (hlogin : w.manager.login = some g)
    (hexited : w.manager.process g = .exited 0) : .generation g ∈ (watch w call).1.written := by
  have hpolled := polled_succeeded hlogin hexited
  cases call with
  | status probe =>
    show .generation g ∈ (statusCall probe w.manager).1.written
    simp only [statusCall, hpolled]
    cases probe <;> simp [statusPolled]
  | recheck probe =>
    show .generation g ∈ (statusCall probe w.manager).1.written
    simp only [statusCall, hpolled]
    cases probe <;> simp [statusPolled]
  | startLogin launches => cases launches <;> simp [watch, step, startLogin, hpolled]
  | cancelLogin left => cases hpolls
  | exit k code => cases hpolls

theorem observed_of_safe (h : Sound initial w) {call : Call} (hsafe : Safe initial w call) : Observed w call := by
  intro hpolls g hlogin hexited
  have hpolled := polled_succeeded hlogin hexited
  rcases hsafe.during _ (succeeded_written hpolls hlogin hexited) with hallowed | hallowed
  · exact expected_of_allowed h hlogin hallowed
  · cases call with
    | status probe => exact expected_of_allowed h hlogin hallowed
    | recheck probe => exact expected_of_allowed h hlogin hallowed
    | startLogin launches =>
      have hused := h.used g hlogin
      -- what a new login is allowed is its own generation, which is not used yet
      cases launches with
      | true =>
        simp only [watch, step, startLogin, Watched.expectedAfter, hpolled] at hallowed
        rcases hallowed with hne | ⟨hsame, -⟩
        · cases hne
        · cases hsame
          exact absurd hused (Nat.lt_irrefl _)
      | false =>
        simp only [watch, step, startLogin, Watched.expectedAfter, hpolled] at hallowed
        cases hallowed
    | cancelLogin left => cases hpolls
    | exit k code => cases hpolls

/-- **One call writes only what it may exactly when it polls no login that was cancelled after its success.** -/
theorem safe_step (h : Sound initial w) (call : Call) : Safe initial w call ↔ Observed w call :=
  ⟨observed_of_safe h, fun hobserved => (observed_safe h hobserved).1⟩

/-! ## Any number of calls -/

theorem Start.sound (start : Start) : Sound start.manager.pointer start.watched := by
  have hidle : ∀ g, start.watched.manager.login ≠ some g := by
    intro g hlogin
    cases start.idle.symm.trans hlogin
  exact ⟨.inl rfl, fun g hlogin => absurd hlogin (hidle g), fun g hlogin => absurd hlogin (hidle g),
    fun g hlogin => absurd hlogin (hidle g)⟩

/-- **The pointer says what it may during and after every call exactly when no call polls a login that was
cancelled after it had succeeded.** -/
theorem safe_iff (start : Start) (calls : List Call) :
    Trace.Always watch (Safe start.manager.pointer) start.watched calls ↔
      Trace.Always watch Observed start.watched calls :=
  Trace.always_iff_of_invariant (fun w _ (h : Sound start.manager.pointer w) hobserved => (observed_safe h hobserved).2)
    (fun _ call h => safe_step h call) start.sound calls

/-- A manager of a new directory. -/
def emptyStart : Start := ⟨⟨.missing, none, .notLoggedIn, fun _ => .absent, 0⟩, rfl⟩

/-- **A login that is cancelled after it has succeeded becomes active** at the next status. -/
theorem cancelled_active :
    (Trace.exec watch emptyStart.watched
        [.startLogin true, .exit 0 0, .cancelLogin .running, .status .ready]).manager.pointer = .generation 0 ∧
      ¬ Trace.Always watch (Safe .missing) emptyStart.watched
        [.startLogin true, .exit 0 0, .cancelLogin .running, .status .ready] := by
  refine ⟨rfl, fun h => ?_⟩
  have hafter : Pointer.generation 0 = .disabled := h.2.2.2.1.after
  cases hafter

end CodexMemory.CodexAuth
