import CodexMemory.Table

/-!
# Write-back of a transaction by primary key

A session reads rows, changes its copies and at commit writes the changed
columns of the changed rows, addressed by primary key.  `loaded` is the table
the session read, `changed` its copy after the changes, `current` the table
at the moment of the commit.  Without a lock or a version check `current` may
have moved on; the two rules say what is written when it has not
(`get?_writeBack_of_fresh`) and where the session changed nothing
(`get?_writeBack_of_unchanged`).
-/

namespace CodexMemory

/-- One column: written only if the session changed it. -/
def writeColumn {β : Type} [DecidableEq β] (loaded changed current : β) : β :=
  if changed = loaded then current else changed

@[simp] theorem writeColumn_unchanged {β : Type} [DecidableEq β] (loaded current : β) :
    writeColumn loaded loaded current = current := by
  simp [writeColumn]

@[simp] theorem writeColumn_fresh {β : Type} [DecidableEq β] (loaded changed : β) :
    writeColumn loaded changed loaded = changed := by
  unfold writeColumn
  split
  · next h => exact h.symm
  · rfl

namespace Table

variable {α : Type}

/-- One row of the commit: a row that the session did not hold stays. -/
def writeBackRow (writeRow : α → α → α → α) : Option α → Option α → α → α
  | some l, some c, row => writeRow l c row
  | _, _, row => row

/-- The table after a commit; `writeRow` writes the columns of one row. -/
def writeBack (writeRow : α → α → α → α) (loaded changed current : Table α) : Table α :=
  current.mapRows fun k => writeBackRow writeRow (loaded.get? k) (changed.get? k)

theorem get?_writeBack (writeRow : α → α → α → α) (loaded changed current : Table α) (k : Nat) :
    (writeBack writeRow loaded changed current).get? k =
      (current.get? k).map (writeBackRow writeRow (loaded.get? k) (changed.get? k)) :=
  get?_mapRows _ _ _

theorem writeBackRow_unchanged {writeRow : α → α → α → α} (hsame : ∀ l row, writeRow l l row = row)
    (l : Option α) (row : α) : writeBackRow writeRow l l row = row := by
  cases l with
  | none => rfl
  | some l => exact hsame l row

/-- A row that the session left alone stays as it is now. -/
theorem get?_writeBack_of_unchanged {writeRow : α → α → α → α}
    (hsame : ∀ l row, writeRow l l row = row) {loaded changed : Table α} (current : Table α) {k : Nat}
    (h : changed.get? k = loaded.get? k) :
    (writeBack writeRow loaded changed current).get? k = current.get? k := by
  rw [get?_writeBack, h]
  cases current.get? k with
  | none => rfl
  | some row => exact congrArg some (writeBackRow_unchanged hsame _ row)

/-- A row that is still as the session read it becomes the session's copy. -/
theorem get?_writeBack_of_fresh {writeRow : α → α → α → α} {loaded changed current : Table α}
    {k : Nat} {l c : α} (hl : loaded.get? k = some l) (hc : changed.get? k = some c)
    (hrow : writeRow l c l = c) (h : current.get? k = some l) :
    (writeBack writeRow loaded changed current).get? k = some c := by
  rw [get?_writeBack, h, hl, hc]
  exact congrArg some hrow

end Table

end CodexMemory
