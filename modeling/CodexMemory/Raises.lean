import Mathlib.Data.List.Forall2

/-!
# Calls that may raise

`Except` for calls that return or raise: what a sequence of calls, and a loop, has
returned, and what has stopped them (`StoppedBy`).
-/

namespace CodexMemory

variable {ε α β σ : Type}

/-! ## What is returned -/

/-- A sequence of two calls returns where both do. -/
theorem bind_ok {x : Except ε α} {f : α → Except ε β} {b : β} (h : x >>= f = .ok b) :
    ∃ a, x = .ok a ∧ f a = .ok b := by
  cases x with
  | error e => cases h
  | ok a => exact ⟨a, rfl, h⟩

theorem map_ok {x : Except ε α} {f : α → β} {b : β} (h : x.map f = .ok b) : ∃ a, x = .ok a ∧ f a = b := by
  cases x with
  | error e => cases h
  | ok a => exact ⟨a, rfl, Except.ok.inj h⟩

/-- What every round of a loop keeps, the loop keeps. -/
theorem foldlM_ok {f : β → α → Except ε β} {P : β → Prop} {items : List α}
    (hf : ∀ b b', ∀ a ∈ items, P b → f b a = .ok b' → P b') {b b' : β} (hb : P b) (h : items.foldlM f b = .ok b') :
    P b' := by
  induction items generalizing b with
  | nil =>
    cases h
    exact hb
  | cons a rest ih =>
    rw [List.foldlM_cons] at h
    obtain ⟨b₁, hb₁, h⟩ := bind_ok h
    exact ih (fun b b' a ha => hf b b' a (List.mem_cons_of_mem _ ha)) (hf b b₁ a List.mem_cons_self hb hb₁) h

/-- A loop that adds a group of results in every round. -/
theorem foldlM_groups {f : List β → α → Except ε (List β)} {P : α → List β → Prop} {items : List α}
    (hf : ∀ b b' a, f b a = .ok b' → ∃ group, b' = b ++ group ∧ P a group) {b b' : List β}
    (h : items.foldlM f b = .ok b') : ∃ groups : List (List β), b' = b ++ groups.flatten ∧ List.Forall₂ P items groups := by
  induction items generalizing b with
  | nil =>
    cases h
    exact ⟨[], by simp, .nil⟩
  | cons a rest ih =>
    rw [List.foldlM_cons] at h
    obtain ⟨b₁, hb₁, h⟩ := bind_ok h
    obtain ⟨group, rfl, hgroup⟩ := hf b b₁ a hb₁
    obtain ⟨groups, rfl, hgroups⟩ := ih h
    exact ⟨group :: groups, by simp, .cons hgroup hgroups⟩

/-- What a loop raises, one of its rounds raises. -/
theorem foldlM_error {f : β → α → Except ε β} {P : ε → Prop} {items : List α}
    (hf : ∀ b a e, f b a = .error e → P e) {b : β} {e : ε} (h : items.foldlM f b = .error e) : P e := by
  induction items generalizing b with
  | nil => cases h
  | cons a rest ih =>
    rw [List.foldlM_cons] at h
    cases hstep : f b a with
    | error e' =>
      rw [hstep] at h
      cases h
      exact hf b a e hstep
    | ok b' =>
      rw [hstep] at h
      exact ih h

/-! ## What stops a call -/

/-- A call returns where nothing stops it, and raises what belongs to the first of its stops. -/
def StoppedBy (R : ε → σ → Prop) (x : Except ε α) : List σ → Prop
  | [] => ∃ a, x = .ok a
  | stop :: _ => ∃ e, x = .error e ∧ R e stop

/-- The stops behind a call, which count where it returns. -/
def after (x : Except ε α) (stops : α → List σ) : List σ :=
  match x with
  | .ok a => stops a
  | .error _ => []

section

variable {R : ε → σ → Prop}

theorem stopped_ok (a : α) : StoppedBy R (.ok a) [] := ⟨a, rfl⟩

theorem stopped_error {e : ε} {stop : σ} (h : R e stop) : StoppedBy R (.error e : Except ε α) [stop] := ⟨e, rfl, h⟩

/-- Calls one after the other. -/
theorem StoppedBy.bind {x : Except ε α} {f : α → Except ε β} {xs ys : List σ} (hx : StoppedBy R x xs)
    (hf : ∀ a, x = .ok a → StoppedBy R (f a) ys) : StoppedBy R (x >>= f) (xs ++ ys) := by
  cases xs with
  | nil =>
    obtain ⟨a, rfl⟩ := hx
    exact hf a rfl
  | cons stop rest =>
    obtain ⟨e, rfl, he⟩ := hx
    exact ⟨e, rfl, he⟩

theorem StoppedBy.map {x : Except ε α} {xs : List σ} (hx : StoppedBy R x xs) (f : α → β) :
    StoppedBy R (x >>= fun a => .ok (f a)) xs := by
  have hbind : StoppedBy R (x >>= fun a => Except.ok (f a)) (xs ++ []) := hx.bind fun a _ => stopped_ok (f a)
  rw [List.append_nil] at hbind
  exact hbind

end

end CodexMemory
