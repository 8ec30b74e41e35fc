import CodexMemory.Table

/-!
# Row versions under concurrent transactions

A row is committed, or written by a transaction that is still open, or gone with
a transaction that was rolled back.  A transaction sees what is committed and what
it wrote itself.  A unique index refuses a row whose key a visible row has, and
makes the writer wait while another open transaction holds a row with that key.

* `live_insert`, `live_settle`: the live rows after an insertion and at the end of
  a transaction;
* `UniqueBy`: no two live rows have the same key; kept by `insertUnique` and by
  the end of a transaction.
-/

namespace CodexMemory

/-- Who can see a row. -/
inductive Version
  | committed
  | uncommitted (tx : Nat)
  | gone
  deriving DecidableEq

structure Row (α : Type) where
  data : α
  version : Version
  deriving DecidableEq

/-- The table of the versions of rows. -/
abbrev Versioned (α : Type) := Table (Row α)

/-- What an insertion into a table with a unique index comes to. -/
inductive Insertion (α : Type)
  | refused
  | blocked
  | inserted (table : Versioned α)

namespace Versioned

variable {α κ : Type}

/-- Row `k` holds `a` and was not rolled back. -/
def Live (t : Versioned α) (k : Nat) (a : α) (v : Version) : Prop := t.get? k = some ⟨a, v⟩ ∧ v ≠ .gone

def visible (tx : Nat) : Version → Bool
  | .committed => true
  | .uncommitted tx' => tx' = tx
  | .gone => false

/-- The first row that transaction `tx` sees with the property. -/
def find? (t : Versioned α) (tx : Nat) (p : α → Bool) : Option (Nat × α) :=
  (t.rows.find? fun r => visible tx r.2.version && p r.2.data).map fun r => (r.1, r.2.data)

/-- The row has a key, and it is this one; `NULL` is the key of no row. -/
def hasKey [DecidableEq κ] (key : α → Option κ) (a : α) (b : α) : Bool := (key b).isSome && key b = key a

/-- The row keeps the transaction from inserting `a` for good. -/
def refuses [DecidableEq κ] (key : α → Option κ) (tx : Nat) (a : α) (r : Row α) : Bool :=
  visible tx r.version && hasKey key a r.data

/-- The row keeps every transaction from inserting `a` for now. -/
def holds [DecidableEq κ] (key : α → Option κ) (a : α) (r : Row α) : Bool :=
  r.version ≠ .gone && hasKey key a r.data

def insertUnique [DecidableEq κ] (key : α → Option κ) (t : Versioned α) (tx : Nat) (a : α) : Insertion α :=
  if t.rows.any fun r => refuses key tx a r.2 then .refused
  else if t.rows.any fun r => holds key a r.2 then .blocked
  else .inserted (t.insert ⟨a, .uncommitted tx⟩)

/-- The end of a transaction, for one row. -/
def settle (tx : Nat) (outcome : Version) (r : Row α) : Row α :=
  if r.version = .uncommitted tx then { r with version := outcome } else r

def commit (t : Versioned α) (tx : Nat) : Versioned α := t.mapRows fun _ => settle tx .committed

def rollback (t : Versioned α) (tx : Nat) : Versioned α := t.mapRows fun _ => settle tx .gone

/-! ## Reading -/

theorem visible_iff {tx : Nat} {v : Version} : visible tx v = true ↔ v = .committed ∨ v = .uncommitted tx := by
  cases v <;> simp [visible]

theorem find?_some {t : Versioned α} {tx k : Nat} {p : α → Bool} {a : α} (h : t.find? tx p = some (k, a)) :
    ∃ v, t.Live k a v ∧ (v = .committed ∨ v = .uncommitted tx) ∧ p a = true := by
  obtain ⟨r, hr, hka⟩ := Option.map_eq_some_iff.mp h
  obtain ⟨rfl, rfl⟩ := Prod.mk.inj hka
  have hp := List.find?_some hr
  rw [Bool.and_eq_true, visible_iff] at hp
  refine ⟨r.2.version, ⟨(t.get?_eq_some_iff r.1 r.2).mpr (List.mem_of_find?_eq_some hr), ?_⟩, hp⟩
  rcases hp.1 with hv | hv <;> rw [hv] <;> simp

theorem find?_none {t : Versioned α} {tx k : Nat} {p : α → Bool} {a : α} {v : Version}
    (h : t.find? tx p = none) (hlive : t.Live k a v) (hv : v = .committed ∨ v = .uncommitted tx) : p a = false := by
  have hnot := List.find?_eq_none.mp (Option.map_eq_none_iff.mp h) (k, ⟨a, v⟩)
    ((t.get?_eq_some_iff k ⟨a, v⟩).mp hlive.1)
  rw [Bool.and_eq_true, visible_iff, not_and] at hnot
  exact Bool.eq_false_iff.mpr (hnot hv)

/-! ## Inserting -/

theorem hasKey_iff [DecidableEq κ] {key : α → Option κ} {a b : α} : hasKey key a b = true ↔ ∃ i, key a = some i ∧ key b = some i := by
  rw [hasKey]
  cases hb : key b with
  | none => simp
  | some i => simp [eq_comm]

theorem any_live (t : Versioned α) (p : Row α → Bool) :
    (t.rows.any fun r => p r.2) = true ↔ ∃ k r, t.get? k = some r ∧ p r = true := by
  rw [List.any_eq_true]
  constructor
  · rintro ⟨r, hr, hp⟩
    exact ⟨r.1, r.2, (t.get?_eq_some_iff r.1 r.2).mpr hr, hp⟩
  · rintro ⟨k, r, hr, hp⟩
    exact ⟨(k, r), (t.get?_eq_some_iff k r).mp hr, hp⟩

/-- An insertion that is refused meets a row that the writer sees. -/
theorem insertUnique_refused [DecidableEq κ] {key : α → Option κ} {t : Versioned α} {tx : Nat} {a : α}
    (h : insertUnique key t tx a = .refused) :
    ∃ k b v i, t.Live k b v ∧ (v = .committed ∨ v = .uncommitted tx) ∧ key a = some i ∧ key b = some i := by
  rw [insertUnique] at h
  split at h
  · next hany =>
    obtain ⟨k, r, hr, hp⟩ := (any_live t (refuses key tx a)).mp hany
    rw [refuses, Bool.and_eq_true, visible_iff, hasKey_iff] at hp
    obtain ⟨hv, i, ha, hb⟩ := hp
    refine ⟨k, r.data, r.version, i, ⟨hr, ?_⟩, hv, ha, hb⟩
    rcases hv with hv | hv <;> rw [hv] <;> simp
  · split at h <;> cases h

/-- An insertion that waits meets a row of another open transaction. -/
theorem insertUnique_blocked [DecidableEq κ] {key : α → Option κ} {t : Versioned α} {tx : Nat} {a : α}
    (h : insertUnique key t tx a = .blocked) :
    ∃ k b tx' i, t.Live k b (.uncommitted tx') ∧ tx' ≠ tx ∧ key a = some i ∧ key b = some i := by
  rw [insertUnique] at h
  split at h
  · cases h
  · next hnone =>
    split at h
    · next hany =>
      obtain ⟨k, ⟨b, v⟩, hr, hp⟩ := (any_live t (holds key a)).mp hany
      rw [holds, Bool.and_eq_true, decide_eq_true_eq, hasKey_iff] at hp
      obtain ⟨hv, i, ha, hb⟩ := hp
      have hhidden : visible tx v ≠ true := fun hvis => hnone ((any_live t (refuses key tx a)).mpr
        ⟨k, ⟨b, v⟩, hr, by rw [refuses, Bool.and_eq_true, hasKey_iff]; exact ⟨hvis, i, ha, hb⟩⟩)
      cases v with
      | committed => exact absurd rfl hhidden
      | uncommitted tx' => exact ⟨k, b, tx', i, ⟨hr, hv⟩, fun he => hhidden (decide_eq_true he), ha, hb⟩
      | gone => exact absurd rfl hv
    · cases h

/-- An insertion that succeeds adds one open row, whose key no live row has. -/
theorem insertUnique_inserted [DecidableEq κ] {key : α → Option κ} {t t' : Versioned α} {tx : Nat} {a : α}
    (h : insertUnique key t tx a = .inserted t') :
    t' = t.insert ⟨a, .uncommitted tx⟩ ∧ ∀ k b v i, t.Live k b v → key b = some i → key a ≠ some i := by
  rw [insertUnique] at h
  split at h
  · cases h
  · split at h
    · cases h
    · next hnone =>
      refine ⟨(Insertion.inserted.inj h).symm, fun k b v i hlive hb ha => hnone ?_⟩
      refine (any_live t (holds key a)).mpr ⟨k, ⟨b, v⟩, hlive.1, ?_⟩
      rw [holds, Bool.and_eq_true, decide_eq_true_eq, hasKey_iff]
      exact ⟨hlive.2, i, ha, hb⟩

/-- A committed row with the same key refuses an insertion. -/
theorem insertUnique_of_committed [DecidableEq κ] {key : α → Option κ} {t : Versioned α} {tx k : Nat} {a b : α} {i : κ}
    (hlive : t.Live k b .committed) (ha : key a = some i) (hb : key b = some i) : insertUnique key t tx a = .refused := by
  rw [insertUnique, if_pos]
  refine (any_live t (refuses key tx a)).mpr ⟨k, ⟨b, .committed⟩, hlive.1, ?_⟩
  rw [refuses, Bool.and_eq_true, hasKey_iff]
  exact ⟨rfl, i, ha, hb⟩

/-! ## Live rows -/

theorem live_lt {t : Versioned α} {k : Nat} {a : α} {v : Version} (h : t.Live k a v) : k < t.nextId :=
  t.lt_nextId h.1

theorem live_unique {t : Versioned α} {k : Nat} {a b : α} {v w : Version} (h : t.Live k a v) (h' : t.Live k b w) :
    a = b ∧ v = w := by
  have heq := Option.some.inj (h.1.symm.trans h'.1)
  exact ⟨congrArg Row.data heq, congrArg Row.version heq⟩

theorem live_insert {t : Versioned α} {tx k : Nat} {a b : α} {v : Version} :
    Live (t.insert ⟨a, .uncommitted tx⟩) k b v ↔ (k = t.nextId ∧ b = a ∧ v = .uncommitted tx) ∨ t.Live k b v := by
  by_cases hk : k = t.nextId
  · subst hk
    rw [Live, Table.get?_insert_self]
    constructor
    · rintro ⟨h, -⟩
      have heq := Option.some.inj h
      exact Or.inl ⟨rfl, (congrArg Row.data heq).symm, (congrArg Row.version heq).symm⟩
    · rintro (⟨-, rfl, rfl⟩ | h)
      · exact ⟨rfl, by simp⟩
      · exact absurd (live_lt h) (Nat.lt_irrefl _)
  · rw [Live, Table.get?_insert_ne _ _ hk]
    constructor
    · exact Or.inr
    · rintro (⟨h, -⟩ | h)
      · exact absurd h hk
      · exact h

/-- After a commit the rows of the transaction are committed. -/
theorem live_commit {t : Versioned α} {tx k : Nat} {a : α} {v : Version} :
    (t.commit tx).Live k a v ↔
      (t.Live k a v ∧ v ≠ .uncommitted tx) ∨ (v = .committed ∧ t.Live k a (.uncommitted tx)) := by
  rw [Live, commit, Table.get?_mapRows]
  constructor
  · rintro ⟨h, hv⟩
    obtain ⟨r, hr, hs⟩ := Option.map_eq_some_iff.mp h
    rw [settle] at hs
    split at hs
    · next hopen =>
      have hdata := congrArg Row.data hs
      have hversion := congrArg Row.version hs
      refine Or.inr ⟨hversion.symm, ?_, by simp⟩
      rw [hr, ← hopen]
      exact congrArg some (by cases r; cases hdata; rfl)
    · next hopen =>
      subst hs
      exact Or.inl ⟨⟨hr, hv⟩, hopen⟩
  · rintro (⟨⟨hr, hv⟩, hopen⟩ | ⟨rfl, hr, -⟩)
    · rw [hr, Option.map_some, settle, if_neg hopen]
      exact ⟨rfl, hv⟩
    · rw [hr, Option.map_some, settle, if_pos rfl]
      exact ⟨rfl, by simp⟩

/-- After a rollback the rows of the transaction are gone. -/
theorem live_rollback {t : Versioned α} {tx k : Nat} {a : α} {v : Version} :
    (t.rollback tx).Live k a v ↔ t.Live k a v ∧ v ≠ .uncommitted tx := by
  rw [Live, rollback, Table.get?_mapRows]
  constructor
  · rintro ⟨h, hv⟩
    obtain ⟨r, hr, hs⟩ := Option.map_eq_some_iff.mp h
    rw [settle] at hs
    split at hs
    · exact absurd (congrArg Row.version hs).symm hv
    · next hopen =>
      subst hs
      exact ⟨⟨hr, hv⟩, hopen⟩
  · rintro ⟨⟨hr, hv⟩, hopen⟩
    rw [hr, Option.map_some, settle, if_neg hopen]
    exact ⟨rfl, hv⟩

/-! ## The unique index -/

/-- No two live rows have the same key. -/
def UniqueBy (key : α → Option κ) (t : Versioned α) : Prop :=
  ∀ k l a b v w i, t.Live k a v → t.Live l b w → key a = some i → key b = some i → k = l

variable {key : α → Option κ}

theorem uniqueBy_insert [DecidableEq κ] {t t' : Versioned α} {tx : Nat} {a : α} (h : t.UniqueBy key)
    (hinsert : insertUnique key t tx a = .inserted t') : t'.UniqueBy key := by
  obtain ⟨rfl, hfresh⟩ := insertUnique_inserted hinsert
  intro k l b c v w i hk hl hb hc
  rcases live_insert.mp hk with ⟨rfl, rfl, rfl⟩ | hk'
  · rcases live_insert.mp hl with ⟨rfl, rfl, rfl⟩ | hl
    · rfl
    · exact absurd hb (hfresh l c w i hl hc)
  · rcases live_insert.mp hl with ⟨rfl, rfl, rfl⟩ | hl
    · exact absurd hc (hfresh k b v i hk' hb)
    · exact h k l b c v w i hk' hl hb hc

theorem live_of_commit {t : Versioned α} {tx k : Nat} {a : α} {v : Version} (h : (t.commit tx).Live k a v) :
    ∃ w, t.Live k a w := by
  rcases live_commit.mp h with ⟨h, -⟩ | ⟨-, h⟩
  · exact ⟨v, h⟩
  · exact ⟨_, h⟩

theorem uniqueBy_commit {t : Versioned α} (h : t.UniqueBy key) (tx : Nat) : (t.commit tx).UniqueBy key := by
  intro k l a b v w i hk hl ha hb
  obtain ⟨v', hk'⟩ := live_of_commit hk
  obtain ⟨w', hl'⟩ := live_of_commit hl
  exact h k l a b v' w' i hk' hl' ha hb

theorem uniqueBy_rollback {t : Versioned α} (h : t.UniqueBy key) (tx : Nat) : (t.rollback tx).UniqueBy key :=
  fun k l a b v w i hk hl ha hb => h k l a b v w i (live_rollback.mp hk).1 (live_rollback.mp hl).1 ha hb

end Versioned

end CodexMemory
