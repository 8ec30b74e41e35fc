import Mathlib

/-!
# Tables keyed by an integer primary key

A table is the list of its rows in insertion order, each with its key.  Two
facts are part of the structure: no key occurs twice, and every key is below
the next value of the key sequence.  Every update is `mapRows` (which keeps
the keys) or `insert` (which takes the next key), so both facts survive.
-/

namespace CodexMemory

/-- Rows under pairwise different keys, all below the sequence value `nextId`. -/
structure Table (α : Type) where
  rows : List (Nat × α)
  nextId : Nat
  nodup : (rows.map Prod.fst).Nodup
  below : ∀ r ∈ rows, r.1 < nextId

namespace Table

variable {α : Type}

def empty : Table α := ⟨[], 0, List.nodup_nil, by simp⟩

/-- The row under key `k`. -/
def get? (t : Table α) (k : Nat) : Option α := t.rows.lookup k

/-- Rewrite every row, keys unchanged. -/
def mapRows (t : Table α) (f : Nat → α → α) : Table α where
  rows := t.rows.map fun r => (r.1, f r.1 r.2)
  nextId := t.nextId
  nodup := by simpa [List.map_map, Function.comp_def] using t.nodup
  below := by
    intro r hr
    obtain ⟨q, hq, rfl⟩ := List.mem_map.mp hr
    exact t.below q hq

/-- Rewrite the row under key `k`, if there is one. -/
def modify (t : Table α) (k : Nat) (f : α → α) : Table α :=
  t.mapRows fun i a => if i = k then f a else a

/-- Append a row under the next key. -/
def insert (t : Table α) (a : α) : Table α where
  rows := t.rows ++ [(t.nextId, a)]
  nextId := t.nextId + 1
  nodup := by
    rw [List.map_append, List.nodup_append]
    refine ⟨t.nodup, by simp, ?_⟩
    intro i hi j hj
    obtain ⟨r, hr, rfl⟩ := List.mem_map.mp hi
    have := t.below r hr
    simp at hj
    omega
  below := by
    intro r hr
    rcases List.mem_append.mp hr with h | h
    · exact Nat.lt_succ_of_lt (t.below r h)
    · simp at h
      simp [h]

/-- The keys and rows that satisfy `p`, in insertion order. -/
def select (t : Table α) (p : α → Bool) : List (Nat × α) := t.rows.filter fun r => p r.2

theorem ext {t u : Table α} (hrows : t.rows = u.rows) (hnext : t.nextId = u.nextId) : t = u := by
  cases t
  cases u
  cases hrows
  cases hnext
  rfl

/-! ## Reading after an update -/

theorem lookup_map (f : Nat → α → α) (rows : List (Nat × α)) (k : Nat) :
    (rows.map fun r => (r.1, f r.1 r.2)).lookup k = (rows.lookup k).map (f k) := by
  induction rows with
  | nil => rfl
  | cons r rows ih =>
    by_cases h : k = r.1
    · subst h; simp [List.lookup]
    · have hb : (k == r.1) = false := by simpa using h
      simp only [List.map_cons, List.lookup, hb, ih]

@[simp] theorem get?_empty (k : Nat) : (empty : Table α).get? k = none := rfl

@[simp] theorem get?_mapRows (t : Table α) (f : Nat → α → α) (k : Nat) :
    (t.mapRows f).get? k = (t.get? k).map (f k) := lookup_map f t.rows k

@[simp] theorem get?_modify_self (t : Table α) (k : Nat) (f : α → α) :
    (t.modify k f).get? k = (t.get? k).map f := by
  simp [modify]

theorem get?_modify (t : Table α) (k i : Nat) (f : α → α) :
    (t.modify k f).get? i = (t.get? i).map fun a => if i = k then f a else a := by
  simp [modify]

theorem get?_modify_ne (t : Table α) {k i : Nat} (f : α → α) (h : i ≠ k) :
    (t.modify k f).get? i = t.get? i := by
  simp [modify, h]

theorem lookup_eq_some_iff (rows : List (Nat × α)) (hn : (rows.map Prod.fst).Nodup)
    (k : Nat) (a : α) : rows.lookup k = some a ↔ (k, a) ∈ rows := by
  induction rows with
  | nil => simp
  | cons r rows ih =>
    simp only [List.map_cons, List.nodup_cons] at hn
    by_cases h : k = r.1
    · subst h
      have hnot : ∀ b, (r.1, b) ∉ rows := fun b hb =>
        hn.1 (List.mem_map.mpr ⟨(r.1, b), hb, rfl⟩)
      simp only [List.lookup, beq_self_eq_true, Option.some.injEq, List.mem_cons, hnot a, or_false]
      constructor
      · rintro rfl; rfl
      · intro e; rw [← e]
    · have hb : (k == r.1) = false := by simpa using h
      simp only [List.lookup, hb, ih hn.2, List.mem_cons]
      constructor
      · exact Or.inr
      · rintro (e | e)
        · exact absurd (congrArg Prod.fst e) h
        · exact e

theorem get?_eq_some_iff (t : Table α) (k : Nat) (a : α) :
    t.get? k = some a ↔ (k, a) ∈ t.rows := lookup_eq_some_iff t.rows t.nodup k a

/-- Writing a row made from the row that is there. -/
theorem modify_const (t : Table α) {k : Nat} {a : α} (h : t.get? k = some a) (f : α → α) :
    (t.modify k fun _ => f a) = t.modify k f := by
  refine ext (List.map_congr_left fun r hr => ?_) rfl
  show (r.1, if r.1 = k then f a else r.2) = (r.1, if r.1 = k then f r.2 else r.2)
  by_cases hk : r.1 = k
  · have ha : r.2 = a := by
      have hmem := (t.get?_eq_some_iff r.1 r.2).mpr hr
      rw [hk, h] at hmem
      exact (Option.some.inj hmem).symm
    rw [ha]
  · rw [if_neg hk, if_neg hk]

theorem get?_nextId (t : Table α) : t.get? t.nextId = none := by
  cases h : t.get? t.nextId with
  | none => rfl
  | some a => exact absurd (t.below _ ((t.get?_eq_some_iff _ _).mp h)) (Nat.lt_irrefl _)

theorem lt_nextId (t : Table α) {k : Nat} {a : α} (h : t.get? k = some a) : k < t.nextId :=
  t.below _ ((t.get?_eq_some_iff _ _).mp h)

@[simp] theorem get?_insert_self (t : Table α) (a : α) :
    (t.insert a).get? t.nextId = some a := by
  rw [get?_eq_some_iff]
  simp [insert]

theorem get?_insert_ne (t : Table α) (a : α) {k : Nat} (h : k ≠ t.nextId) :
    (t.insert a).get? k = t.get? k := by
  apply Option.ext
  intro b
  rw [get?_eq_some_iff, get?_eq_some_iff]
  simp [insert, h]

/-- A row of the table after an insertion is the new one or an old one. -/
theorem get?_insert_cases {t : Table α} {a b : α} {k : Nat} (h : (t.insert a).get? k = some b) :
    (k = t.nextId ∧ b = a) ∨ (k ≠ t.nextId ∧ t.get? k = some b) := by
  by_cases hk : k = t.nextId
  · subst hk
    rw [get?_insert_self] at h
    exact Or.inl ⟨rfl, (Option.some.inj h).symm⟩
  · rw [get?_insert_ne _ _ hk] at h
    exact Or.inr ⟨hk, h⟩

@[simp] theorem nextId_mapRows (t : Table α) (f : Nat → α → α) :
    (t.mapRows f).nextId = t.nextId := rfl

@[simp] theorem nextId_insert (t : Table α) (a : α) : (t.insert a).nextId = t.nextId + 1 := rfl

theorem mem_select (t : Table α) (p : α → Bool) (k : Nat) (a : α) :
    (k, a) ∈ t.select p ↔ t.get? k = some a ∧ p a = true := by
  simp [select, get?_eq_some_iff]

theorem select_keys_nodup (t : Table α) (p : α → Bool) : ((t.select p).map Prod.fst).Nodup :=
  List.Nodup.sublist ((List.filter_sublist).map _) t.nodup

end Table

end CodexMemory
