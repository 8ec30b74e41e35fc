import CodexMemory.Trace
import Mathlib.Data.Int.Order.Basic
import Mathlib.Data.List.Infix
import Mathlib.Logic.Function.Basic

/-!
# `_OutputQuota` and `_OutputCollector` of `codex_cli_runner.py`

Two threads read the standard output and the standard error of the CLI.  The `add` of a
collector first takes bytes from the quota that both share, then stores them in the
collector's own buffer: two steps under two locks, between which the other thread may
take any number of its own.

* `shared_step`: one step keeps what the quota counts and what the collectors hold alike;
* `output_within`: what that says of the buffers and the flag after any steps.
-/

namespace CodexMemory.CodexCli.Output

open Trace

/-! ## The code -/

/-- An `_OutputQuota`. -/
structure OutputQuota where
  limit : Int
  used : Int
  exceeded : Bool
  deriving DecidableEq

namespace OutputQuota

/-- `__init__` -/
def create (limit : Int) : OutputQuota := ⟨limit, 0, false⟩

def take (q : OutputQuota) (size : Nat) : Int × OutputQuota :=
  let remaining := q.limit - q.used
  let allowed := max 0 (min (size : Int) remaining)
  (allowed, { q with used := q.used + allowed, exceeded := if allowed < size then true else q.exceeded })

end OutputQuota

/-- An `_OutputCollector` with its thread: in the middle of an `add` the chunk and what the quota allowed of it.
The bytes given to `add` so far are kept for reference. -/
structure OutputCollector where
  buffer : List UInt8
  adding : Option (List UInt8 × Int)
  offered : List UInt8
  deriving DecidableEq

/-- The two streams of the process. -/
inductive Stream
  | stdout
  | stderr
  deriving DecidableEq

/-- The quota and the collector of each stream. -/
structure State where
  quota : OutputQuota
  collector : Stream → OutputCollector

/-- The first and the second half of an `add`. -/
inductive Action
  | take (stream : Stream) (chunk : List UInt8)
  | store (stream : Stream)
  deriving DecidableEq

/-- The collector of a stream becomes `c`. -/
def State.put (s : State) (stream : Stream) (c : OutputCollector) : State :=
  { s with collector := Function.update s.collector stream c }

@[simp] theorem put_quota (s : State) (stream : Stream) (c : OutputCollector) : (s.put stream c).quota = s.quota := rfl

@[simp] theorem put_collector_self (s : State) (stream : Stream) (c : OutputCollector) :
    (s.put stream c).collector stream = c := Function.update_self ..

theorem put_collector_of_ne (s : State) {stream w : Stream} (h : w ≠ stream) (c : OutputCollector) :
    (s.put stream c).collector w = s.collector w := Function.update_of_ne h ..

/-- A thread takes only when its last `add` has returned, and stores only after it has taken. -/
def step (s : State) : Action → Unit × State
  | .take stream chunk =>
    let c := s.collector stream
    match c.adding with
    | some _ => ((), s)
    | none =>
      let (allowed, quota) := s.quota.take chunk.length
      ((), { s with quota := quota }.put stream
        { c with adding := some (chunk, allowed), offered := c.offered ++ chunk })
  | .store stream =>
    let c := s.collector stream
    match c.adding with
    | none => ((), s)
    | some (chunk, allowed) =>
      ((), s.put stream { c with buffer := c.buffer ++ chunk.take allowed.toNat, adding := none })

/-- Before the first `add`. -/
def start (limit : Int) : State := ⟨.create limit, fun _ => ⟨[], none, []⟩⟩

/-! ## What the buffers should hold -/

/-- A number for each stream, in all. -/
def both (f : Stream → Nat) : Nat := f .stdout + f .stderr

/-- The bytes offered in all. -/
def State.offered (s : State) : Nat := both fun stream => (s.collector stream).offered.length

/-- The bytes in the buffers. -/
def State.stored (s : State) : Nat := both fun stream => (s.collector stream).buffer.length

/-- Neither thread is in an `add`. -/
def State.Quiet (s : State) : Prop := ∀ stream, (s.collector stream).adding = none

/-- The output is within the limit and complete up to it.  A negative limit counts as none at all. -/
structure Within (limit : Int) (s : State) : Prop where
  within : (s.stored : Int) ≤ max 0 limit
  isPrefix : ∀ stream, (s.collector stream).buffer <+: (s.collector stream).offered
  complete : s.Quiet → (s.stored : Int) = min (max 0 limit) s.offered
  exceeded : s.quota.exceeded = true ↔ max 0 limit < s.offered

/-! ## The quota -/

/-- The quota has been asked for so many bytes. -/
structure Counted (limit : Int) (q : OutputQuota) (asked : Nat) : Prop where
  limit_eq : q.limit = limit
  used_eq : q.used = min (max 0 limit) asked
  exceeded_iff : q.exceeded = true ↔ max 0 limit < asked

theorem counted_create (limit : Int) : Counted limit (.create limit) 0 where
  limit_eq := rfl
  used_eq := by
    show (0 : Int) = _
    omega
  exceeded_iff := iff_of_false nofun (by omega)

namespace Counted

variable {limit : Int} {q : OutputQuota} {asked : Nat} (h : Counted limit q asked) (size : Nat)

include h

/-- What is allowed is what the counter goes up by. -/
theorem allowed_eq : (q.take size).1 = min (max 0 limit) (asked + size) - q.used := by
  have hused := h.used_eq
  have hlimit := h.limit_eq
  show max 0 (min (size : Int) (q.limit - q.used)) = _
  omega

theorem take : Counted limit (q.take size).2 (asked + size) where
  limit_eq := h.limit_eq
  used_eq := by
    have hallowed := h.allowed_eq size
    show q.used + (q.take size).1 = _
    push_cast
    omega
  exceeded_iff := by
    have hallowed := h.allowed_eq size
    have hused := h.used_eq
    have hbefore := h.exceeded_iff
    show (if (q.take size).1 < size then true else q.exceeded) = true ↔ _
    push_cast
    split
    · exact iff_of_true rfl (by omega)
    · rw [hbefore]
      omega

end Counted

/-! ## The invariant -/

/-- The bytes that the collector has stored or is about to store. -/
def OutputCollector.kept (c : OutputCollector) : List UInt8 :=
  c.buffer ++ match c.adding with
    | none => []
    | some (chunk, allowed) => chunk.take allowed.toNat

/-- The quota has counted what the collectors were offered, and has used up what they keep. -/
structure Shared (limit : Int) (s : State) : Prop where
  counted : Counted limit s.quota s.offered
  isPrefix : ∀ stream, (s.collector stream).kept <+: (s.collector stream).offered
  used : s.quota.used = both fun stream => (s.collector stream).kept.length

theorem shared_start (limit : Int) : Shared limit (start limit) where
  counted := counted_create limit
  isPrefix _ := List.prefix_rfl
  used := rfl

/-- A number for each stream, in all, where one of them changes. -/
theorem both_put (s : State) (f : OutputCollector → Nat) (stream : Stream) (c : OutputCollector) :
    (both fun w => f ((s.put stream c).collector w)) + f (s.collector stream) =
      (both fun w => f (s.collector w)) + f c := by
  cases stream with
  | stdout =>
    have hother := put_collector_of_ne s (show Stream.stderr ≠ .stdout by decide) c
    simp only [both, put_collector_self, hother]
    omega
  | stderr =>
    have hother := put_collector_of_ne s (show Stream.stdout ≠ .stderr by decide) c
    simp only [both, put_collector_self, hother]
    omega

theorem kept_of_quiet {c : OutputCollector} (h : c.adding = none) : c.kept = c.buffer := by
  rw [OutputCollector.kept, h, List.append_nil]

theorem kept_of_adding {c : OutputCollector} {chunk : List UInt8} {allowed : Int}
    (h : c.adding = some (chunk, allowed)) : c.kept = c.buffer ++ chunk.take allowed.toNat := by
  rw [OutputCollector.kept, h]

/-- Until the quota is used up, all that is offered is kept. -/
theorem Shared.kept_eq {limit : Int} {s : State} (h : Shared limit s) (hleft : s.quota.used < max 0 limit)
    (stream : Stream) : (s.collector stream).kept = (s.collector stream).offered := by
  have hcounted := h.counted.used_eq
  have hused := h.used
  have hout := (h.isPrefix .stdout).length_le
  have herr := (h.isPrefix .stderr).length_le
  have hoffered : s.quota.used = s.offered := by omega
  unfold State.offered at hoffered
  simp only [both] at hused hoffered
  apply (h.isPrefix stream).eq_of_length
  cases stream with
  | stdout => omega
  | stderr => omega

/-- One collector changes with the quota. -/
theorem Shared.put {limit : Int} {s : State} (h : Shared limit s) {stream : Stream} {quota : OutputQuota}
    {c : OutputCollector} {size : Nat} (hcounted : Counted limit quota (s.offered + size))
    (hoffered : c.offered.length = (s.collector stream).offered.length + size) (hkeeps : c.kept <+: c.offered)
    (hused : quota.used + (s.collector stream).kept.length = s.quota.used + c.kept.length) :
    Shared limit ({ s with quota := quota }.put stream c) where
  counted := by
    have hall := both_put { s with quota := quota } (fun c => c.offered.length) stream c
    have hsame : ({ s with quota := quota }.put stream c).offered = s.offered + size := by
      unfold State.offered
      dsimp only at hall ⊢
      omega
    rwa [hsame]
  isPrefix w := by
    by_cases hw : w = stream
    · subst hw
      rw [put_collector_self]
      exact hkeeps
    · rw [put_collector_of_ne _ hw]
      exact h.isPrefix w
  used := by
    have hall := both_put { s with quota := quota } (fun c => c.kept.length) stream c
    have hbefore := h.used
    show quota.used = _
    dsimp only at hall
    omega

/-- **One half of an `add`** keeps the quota and the collectors alike. -/
theorem shared_step {limit : Int} (s : State) (a : Action) (h : Shared limit s) : Shared limit (step s a).2 := by
  cases a with
  | take stream chunk =>
    rw [step]
    dsimp only
    split
    · exact h
    · next hquiet =>
      have hallowed := h.counted.allowed_eq chunk.length
      have hused := h.counted.used_eq
      have hkept := kept_of_quiet hquiet
      refine h.put (h.counted.take chunk.length) (List.length_append ..) ?_ ?_
      · show (s.collector stream).buffer ++ chunk.take (s.quota.take chunk.length).1.toNat <+:
          (s.collector stream).offered ++ chunk
        rw [← hkept]
        by_cases hleft : s.quota.used < max 0 limit
        · rw [h.kept_eq hleft]
          exact (List.prefix_append_right_inj _).mpr (List.take_prefix _ _)
        · -- nothing is left, and nothing is allowed
          have hnone : (s.quota.take chunk.length).1.toNat = 0 := by omega
          rw [hnone, List.take_zero, List.append_nil]
          exact (h.isPrefix stream).trans (List.prefix_append _ _)
      · show s.quota.used + (s.quota.take chunk.length).1 + ((s.collector stream).kept.length : Int) =
          s.quota.used + ((s.collector stream).buffer ++ chunk.take (s.quota.take chunk.length).1.toNat).length
        rw [hkept, List.length_append, List.length_take]
        push_cast
        omega
  | store stream =>
    rw [step]
    split
    · exact h
    · next chunk allowed hadding =>
      have hcounted : Counted limit s.quota (s.offered + 0) := h.counted
      have hkept : OutputCollector.kept { s.collector stream with
          buffer := (s.collector stream).buffer ++ chunk.take allowed.toNat, adding := none } =
          (s.collector stream).kept := by
        rw [kept_of_adding hadding]
        exact List.append_nil _
      refine h.put hcounted rfl ?_ ?_
      · rw [hkept]
        exact h.isPrefix stream
      · rw [hkept]

/-! ## The buffers -/

theorem Shared.within {limit : Int} {s : State} (h : Shared limit s) : Within limit s := by
  have hused := h.used
  have hcounted := h.counted.used_eq
  have hbuffer : ∀ stream, (s.collector stream).buffer <+: (s.collector stream).kept :=
    fun stream => List.prefix_append _ _
  have hout := (hbuffer .stdout).length_le
  have herr := (hbuffer .stderr).length_le
  simp only [both] at hused
  refine ⟨?_, fun stream => (hbuffer stream).trans (h.isPrefix stream), fun hquiet => ?_, h.counted.exceeded_iff⟩
  · simp only [State.stored, both]
    omega
  · rw [kept_of_quiet (hquiet .stdout), kept_of_quiet (hquiet .stderr)] at hused
    rw [← hcounted, hused]
    rfl

/-- **The two streams share one limit.**  However the threads take turns and whatever their chunks, the buffers are
within the limit and prefixes of what was offered; they hold all that fits when no `add` is under way, and the flag
says whether more was offered. -/
theorem output_within (limit : Int) (actions : List Action) : Within limit (exec step (start limit) actions) :=
  (exec_invariant (fun s a => shared_step s a) (shared_start limit) actions).within

/-- Eight bytes for five: the second chunk is cut, and the third comes too late. -/
def overrun : List Action :=
  [.take .stdout [1, 2, 3], .take .stderr [4, 5, 6, 7], .store .stderr, .take .stderr [8], .store .stdout,
    .store .stderr]

theorem overrun_five : (exec step (start 5) overrun).stored = 5 ∧
    (exec step (start 5) overrun).quota.exceeded = true ∧ ∀ stream,
      ((exec step (start 5) overrun).collector stream).buffer <+:
        ((exec step (start 5) overrun).collector stream).offered := by
  have h := output_within 5 overrun
  have hquiet : (exec step (start 5) overrun).Quiet := by
    intro stream
    cases stream <;> rfl
  have hoffered : (exec step (start 5) overrun).offered = 8 := by decide
  have hstored := h.complete hquiet
  have hexceeded := h.exceeded
  rw [hoffered] at hstored hexceeded
  exact ⟨by omega, hexceeded.mpr (by decide), h.isPrefix⟩

end CodexMemory.CodexCli.Output
