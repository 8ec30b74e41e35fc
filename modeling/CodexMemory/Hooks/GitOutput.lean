import CodexMemory.Hooks.Manifest
import Mathlib.Data.List.Dedup

/-!
# What Git prints, and how it is read

`git status --porcelain=v1 -z` and `git diff --name-status -z` print texts that end in NUL; most records
are one or two texts long, renames and copies one more.  `_status_entries` and `_diff_name_status` walk
over the texts and decide at each whether it begins a record.

* `readStatus_iff`: the entries of `git status` are read back exactly where every entry with a source is
  renamed in the index;
* `readDiff_iff`: the records of `git diff` are read back exactly where none is a copy;
* `reads_iff`: both.
-/

namespace CodexMemory.Hooks.GitOutput

def nul : Char := '\x00'

/-- A path: some characters, none of them NUL. -/
structure Path where
  chars : List Char
  nonempty : chars ≠ []
  noNul : nul ∉ chars

def Path.text (path : Path) : String := String.ofList path.chars

/-- Each text with a NUL behind it. -/
def terminated (texts : List (List Char)) : List Char := texts.flatMap fun text => text ++ [nul]

/-! ## `git status --porcelain=v1 -z` -/

/-- What one column of a status says. -/
inductive Column
  | unmodified | modified | typeChanged | added | deleted | renamed | copied | unmerged | untracked | ignored
  deriving DecidableEq

def Column.letter : Column → Char
  | .unmodified => ' '
  | .modified => 'M'
  | .typeChanged => 'T'
  | .added => 'A'
  | .deleted => 'D'
  | .renamed => 'R'
  | .copied => 'C'
  | .unmerged => 'U'
  | .untracked => '?'
  | .ignored => '!'

/-- The path comes from another one. -/
def Column.moves : Column → Bool
  | .renamed | .copied => true
  | _ => false

/-- An entry: the columns of the index and of the working tree, the path, and the path it comes from. -/
structure StatusEntry where
  index : Column
  worktree : Column
  path : Path
  source : Option Path
  moved : source.isSome = (index.moves || worktree.moves)

def StatusEntry.first (entry : StatusEntry) : List Char :=
  entry.index.letter :: entry.worktree.letter :: ' ' :: entry.path.chars

/-- The texts of an entry: the status with the path, and the source. -/
def StatusEntry.tokens (entry : StatusEntry) : List (List Char) := entry.first :: (entry.source.map Path.chars).toList

def arrow : List Char := " -> ".toList

/-- The string of an entry. -/
def StatusEntry.line (entry : StatusEntry) : List Char :=
  match entry.source with
  | none => entry.first
  | some source => entry.first ++ arrow ++ source.chars

def printStatus (entries : List StatusEntry) : List Char := terminated (entries.flatMap StatusEntry.tokens)

/-! ## `git diff --name-status -z` -/

inductive Change | added | modified | deleted | typeChanged
  deriving DecidableEq

def Change.letter : Change → Char
  | .added => 'A'
  | .modified => 'M'
  | .deleted => 'D'
  | .typeChanged => 'T'

/-- A record; the score of a rename or a copy is a percentage. -/
inductive DiffRecord
  | simple (change : Change) (path : Path)
  | renamed (score : Fin 101) (oldPath newPath : Path)
  | copied (score : Fin 101) (oldPath newPath : Path)

/-- `%03d` -/
def scoreDigits (score : Fin 101) : List Char :=
  [Nat.digitChar (score.val / 100), Nat.digitChar (score.val / 10 % 10), Nat.digitChar (score.val % 10)]

def DiffRecord.status : DiffRecord → List Char
  | .simple change _ => [change.letter]
  | .renamed score _ _ => 'R' :: scoreDigits score
  | .copied score _ _ => 'C' :: scoreDigits score

def DiffRecord.tokens : DiffRecord → List (List Char)
  | .simple change path => [[change.letter], path.chars]
  | .renamed score oldPath newPath => ['R' :: scoreDigits score, oldPath.chars, newPath.chars]
  | .copied score oldPath newPath => ['C' :: scoreDigits score, oldPath.chars, newPath.chars]

/-- The record with its old path and its new one. -/
def DiffRecord.line : DiffRecord → DiffLine
  | .simple change path => ⟨String.ofList [change.letter], path.text, path.text⟩
  | .renamed score oldPath newPath => ⟨String.ofList ('R' :: scoreDigits score), oldPath.text, newPath.text⟩
  | .copied score oldPath newPath => ⟨String.ofList ('C' :: scoreDigits score), oldPath.text, newPath.text⟩

def printDiff (records : List DiffRecord) : List Char := terminated (records.flatMap DiffRecord.tokens)

/-! ## `_status_entries` -/

/-- The loop of `_status_entries`: each entry with the index of the text that is taken for its status. -/
def scanStatus : Nat → List (List Char) → List (Nat × List Char)
  | _, [] => []
  | index, ('R' :: second :: ' ' :: path) :: next :: rest =>
    (index, 'R' :: second :: ' ' :: path ++ arrow ++ next) :: scanStatus (index + 2) rest
  | index, token :: rest => (index, token) :: scanStatus (index + 1) rest

/-- `[token for token in raw.split("\0") if token]` -/
def statusTokens (raw : List Char) : List (List Char) := (raw.splitOn nul).filter fun token => token ≠ []

/-- `_status_entries` -/
def statusEntries (raw : List Char) : List String :=
  sortBy id ((scanStatus 0 (statusTokens raw)).map fun entry => String.ofList entry.2)

/-- The texts that `_status_entries` takes for statuses. -/
def statusReads (raw : List Char) : List Nat := (scanStatus 0 (statusTokens raw)).map Prod.fst

/-! ## `_diff_name_status` -/

/-- The loop of `_diff_name_status` over the texts of one diff: each record with the index of its status. -/
def scanDiff : Nat → List (List Char) → List (Nat × DiffLine)
  | _, [] => []
  | index, [] :: rest => scanDiff (index + 1) rest
  | index, ('R' :: score) :: oldPath :: newPath :: rest =>
    (index, ⟨String.ofList ('R' :: score), String.ofList oldPath, String.ofList newPath⟩) :: scanDiff (index + 3) rest
  | index, status :: path :: rest =>
    (index, ⟨String.ofList status, String.ofList path, String.ofList path⟩) :: scanDiff (index + 2) rest
  | _, [_] => []

/-- The records of a diff; none where Git failed. -/
def diffValues (output : Option (List Char)) : List DiffLine :=
  match output with
  | none => []
  | some raw => (scanDiff 0 (raw.splitOn nul)).map Prod.snd

/-- `_diff_name_status` of the diff against `HEAD` and of the one of the index. -/
def diffNameStatus (headOutput indexOutput : Option (List Char)) : List DiffLine :=
  sortBy (fun line => (toLex (line.newPath, toLex (line.oldPath, line.status)) : String ×ₗ String ×ₗ String))
    (diffValues headOutput ++ diffValues indexOutput).dedup

/-- The texts that `_diff_name_status` takes for statuses. -/
def diffReads (raw : List Char) : List Nat := (scanDiff 0 (raw.splitOn nul)).map Prod.fst

/-! ## Reading back -/

/-- The index of the first text of each record. -/
def starts (index : Nat) : List (List (List Char)) → List Nat
  | [] => []
  | record :: rest => index :: starts (index + record.length) rest

/-- **The entries are read back**: one string for each, and no path is taken for a status. -/
structure ReadsStatus (entries : List StatusEntry) : Prop where
  strings : (statusEntries (printStatus entries)).Perm (entries.map fun entry => String.ofList entry.line)
  statuses : statusReads (printStatus entries) = starts 0 (entries.map StatusEntry.tokens)

/-- **The records of two diffs are read back**: each once, and no path is taken for a status. -/
structure ReadsDiff (head index : List DiffRecord) : Prop where
  once : (diffNameStatus (some (printDiff head)) (some (printDiff index))).Nodup
  records : ∀ line, line ∈ diffNameStatus (some (printDiff head)) (some (printDiff index)) ↔
    ∃ record ∈ head ++ index, record.line = line
  headStatuses : diffReads (printDiff head) = starts 0 (head.map DiffRecord.tokens)
  indexStatuses : diffReads (printDiff index) = starts 0 (index.map DiffRecord.tokens)

theorem le_of_mem_starts {records : List (List (List Char))} {index n : Nat} (h : n ∈ starts index records) : index ≤ n := by
  induction records generalizing index with
  | nil => cases h
  | cons record rest ih =>
    rcases List.mem_cons.mp h with rfl | hrest
    · exact Nat.le_refl _
    · exact Nat.le_trans (Nat.le_add_right _ _) (ih hrest)

/-! ## Texts -/

theorem splitOn_terminated {texts : List (List Char)} (h : ∀ text ∈ texts, nul ∉ text) :
    (terminated texts).splitOn nul = texts ++ [[]] := by
  induction texts with
  | nil => rfl
  | cons text rest ih =>
    have hcons : terminated (text :: rest) = text ++ nul :: terminated rest := by simp [terminated]
    rw [hcons, List.splitOn_append_cons_self_of_not_mem (h text List.mem_cons_self),
      ih fun other hother => h other (List.mem_cons_of_mem _ hother), List.cons_append]

theorem Column.letter_ne_nul (column : Column) : column.letter ≠ nul := by cases column <;> decide

theorem StatusEntry.noNul (entry : StatusEntry) : ∀ token ∈ entry.tokens, nul ∉ token := by
  intro token htoken
  rcases List.mem_cons.mp htoken with rfl | hsource
  · have hblank : nul ≠ ' ' := by decide
    simp [StatusEntry.first, (entry.index.letter_ne_nul).symm, (entry.worktree.letter_ne_nul).symm, hblank, entry.path.noNul]
  · rw [Option.mem_toList, Option.map_eq_some_iff] at hsource
    obtain ⟨source, -, rfl⟩ := hsource
    exact source.noNul

theorem StatusEntry.nonempty (entry : StatusEntry) : ∀ token ∈ entry.tokens, token ≠ [] := by
  intro token htoken
  rcases List.mem_cons.mp htoken with rfl | hsource
  · exact List.cons_ne_nil _ _
  · rw [Option.mem_toList, Option.map_eq_some_iff] at hsource
    obtain ⟨source, -, rfl⟩ := hsource
    exact source.nonempty

theorem statusTokens_print (entries : List StatusEntry) :
    statusTokens (printStatus entries) = entries.flatMap StatusEntry.tokens := by
  rw [statusTokens, printStatus, splitOn_terminated, List.filter_append]
  · have hempty : ([[]] : List (List Char)).filter (fun token => token ≠ []) = [] := by simp
    rw [hempty, List.append_nil, List.filter_eq_self]
    intro token htoken
    obtain ⟨entry, -, hof⟩ := List.mem_flatMap.mp htoken
    exact decide_eq_true (entry.nonempty token hof)
  · intro token htoken
    obtain ⟨entry, -, hof⟩ := List.mem_flatMap.mp htoken
    exact entry.noNul token hof

/-! ## Entries -/

/-- The scanner knows the kind: without a source, or renamed in the index. -/
def StatusEntry.Known (entry : StatusEntry) : Prop := entry.source.isSome → entry.index = .renamed

/-- A text that does not begin with `R` is an entry. -/
theorem scanStatus_plain {token : List Char} (h : token.head? ≠ some 'R') (index : Nat) (rest : List (List Char)) :
    scanStatus index (token :: rest) = (index, token) :: scanStatus (index + 1) rest := by
  rw [scanStatus]
  rintro second path next tail rfl -
  exact h rfl

/-- The first text is always taken for a status. -/
theorem scanStatus_cons (index : Nat) (token : List Char) (rest : List (List Char)) :
    ∃ text tail, scanStatus index (token :: rest) = (index, text) :: tail := by
  unfold scanStatus
  split
  · next heq => cases heq
  · next heq =>
    cases heq
    exact ⟨_, _, rfl⟩
  · next heq =>
    cases heq
    exact ⟨_, _, rfl⟩

theorem head_ne {column : Column} (h : column ≠ .renamed) (rest : List Char) : (column.letter :: rest).head? ≠ some 'R' := by
  cases column <;> first | exact absurd rfl h | (simp only [List.head?_cons]; decide)

/-- **A known entry is one step of the scanner.** -/
theorem scanStatus_known {entry : StatusEntry} (h : entry.Known) (index : Nat) (rest : List (List Char)) :
    scanStatus index (entry.tokens ++ rest) = (index, entry.line) :: scanStatus (index + entry.tokens.length) rest := by
  obtain ⟨column, worktree, path, source, moved⟩ := entry
  cases source with
  | some source =>
    obtain rfl : column = .renamed := h rfl
    rfl
  | none =>
    have hcolumn : column ≠ .renamed := by
      rintro rfl
      cases moved
    exact scanStatus_plain (head_ne hcolumn _) index rest

/-- Another one is more: its source is taken for a status. -/
theorem scanStatus_unknown {entry : StatusEntry} (h : ¬ entry.Known) (index : Nat) (rest : List (List Char)) :
    entry.tokens.length = 2 ∧
      ∃ text tail, scanStatus index (entry.tokens ++ rest) = (index, entry.first) :: (index + 1, text) :: tail := by
  obtain ⟨column, worktree, path, source, moved⟩ := entry
  rw [StatusEntry.Known, Classical.not_imp] at h
  obtain ⟨hsome, hcolumn⟩ := h
  obtain ⟨source, rfl⟩ := Option.isSome_iff_exists.mp hsome
  obtain ⟨text, tail, hsource⟩ := scanStatus_cons (index + 1) source.chars rest
  exact ⟨rfl, text, tail, (scanStatus_plain (head_ne hcolumn _) index _).trans (congrArg _ hsource)⟩

theorem scan_known {entries : List StatusEntry} (h : ∀ entry ∈ entries, entry.Known) (index : Nat) :
    (scanStatus index (entries.flatMap StatusEntry.tokens)).map Prod.fst = starts index (entries.map StatusEntry.tokens) ∧
      (scanStatus index (entries.flatMap StatusEntry.tokens)).map Prod.snd = entries.map StatusEntry.line := by
  induction entries generalizing index with
  | nil => exact ⟨rfl, rfl⟩
  | cons entry rest ih =>
    obtain ⟨hstarts, hlines⟩ := ih (fun other hother => h other (List.mem_cons_of_mem _ hother)) (index + entry.tokens.length)
    rw [List.flatMap_cons, scanStatus_known (h entry List.mem_cons_self)]
    exact ⟨congrArg (index :: ·) hstarts, congrArg (entry.line :: ·) hlines⟩

theorem known_of_scan {entries : List StatusEntry} {index : Nat}
    (h : (scanStatus index (entries.flatMap StatusEntry.tokens)).map Prod.fst = starts index (entries.map StatusEntry.tokens)) :
    ∀ entry ∈ entries, entry.Known := by
  induction entries generalizing index with
  | nil => simp
  | cons entry rest ih =>
    rw [List.flatMap_cons] at h
    by_cases hknown : entry.Known
    · rw [scanStatus_known hknown] at h
      exact List.forall_mem_cons.mpr ⟨hknown, ih (List.cons.inj h).2⟩
    · obtain ⟨hlength, text, tail, hscan⟩ := scanStatus_unknown hknown index (rest.flatMap StatusEntry.tokens)
      rw [hscan] at h
      have hnext : index + 1 ∈ starts (index + entry.tokens.length) (rest.map StatusEntry.tokens) := by
        rw [← (List.cons.inj h).2]
        exact List.mem_cons_self
      have hle := le_of_mem_starts hnext
      omega

/-- **The entries are read back if and only if** each that has a source is renamed in the index. -/
theorem readStatus_iff (entries : List StatusEntry) : ReadsStatus entries ↔ ∀ entry ∈ entries, entry.Known := by
  constructor
  · intro h
    have hstatuses := h.statuses
    rw [statusReads, statusTokens_print] at hstatuses
    exact known_of_scan hstatuses
  · intro h
    obtain ⟨hstarts, hlines⟩ := scan_known h 0
    constructor
    · rw [statusEntries, statusTokens_print]
      refine (sortBy_perm _ _).trans ?_
      have hmap : (scanStatus 0 (entries.flatMap StatusEntry.tokens)).map (fun entry => String.ofList entry.2) =
          ((scanStatus 0 (entries.flatMap StatusEntry.tokens)).map Prod.snd).map String.ofList := by
        rw [List.map_map]
        rfl
      rw [hmap, hlines, List.map_map]
      exact List.Perm.refl _
    · rw [statusReads, statusTokens_print]
      exact hstarts

/-! ## Records -/

theorem scoreDigits_noNul : ∀ score : Fin 101, nul ∉ scoreDigits score := by decide

theorem DiffRecord.noNul (record : DiffRecord) : ∀ token ∈ record.tokens, nul ∉ token := by
  have hscore : ∀ (letter : Char) (score : Fin 101), letter ≠ nul → nul ∉ letter :: scoreDigits score := by
    intro letter score hletter hmem
    rcases List.mem_cons.mp hmem with heq | hdigits
    · exact hletter heq.symm
    · exact scoreDigits_noNul score hdigits
  cases record with
  | simple change path =>
    have hletter : nul ∉ [change.letter] := by cases change <;> decide
    simpa [DiffRecord.tokens, path.noNul] using hletter
  | renamed score oldPath newPath =>
    have hstatus := hscore 'R' score (by decide)
    simpa [DiffRecord.tokens, oldPath.noNul, newPath.noNul] using hstatus
  | copied score oldPath newPath =>
    have hstatus := hscore 'C' score (by decide)
    simpa [DiffRecord.tokens, oldPath.noNul, newPath.noNul] using hstatus

theorem splitOn_printDiff (records : List DiffRecord) :
    (printDiff records).splitOn nul = records.flatMap DiffRecord.tokens ++ [[]] := by
  refine splitOn_terminated fun token htoken => ?_
  obtain ⟨record, -, hof⟩ := List.mem_flatMap.mp htoken
  exact record.noNul token hof

/-- The scanner knows every kind but copies. -/
def DiffRecord.Known : DiffRecord → Prop
  | .copied _ _ _ => False
  | _ => True

theorem scanDiff_simple {letter : Char} (hletter : letter ≠ 'R') (status path : List Char) (index : Nat)
    (rest : List (List Char)) : scanDiff index ((letter :: status) :: path :: rest) =
      (index, ⟨String.ofList (letter :: status), String.ofList path, String.ofList path⟩) :: scanDiff (index + 2) rest := by
  rw [scanDiff]
  · rintro heq
    cases heq
  · rintro score oldPath newPath heq -
    exact hletter (List.cons.inj heq).1

/-- **A known record is one step of the scanner.** -/
theorem scanDiff_known {record : DiffRecord} (h : record.Known) (index : Nat) (rest : List (List Char)) :
    scanDiff index (record.tokens ++ rest) = (index, record.line) :: scanDiff (index + record.tokens.length) rest := by
  cases record with
  | simple change path =>
    have hletter : change.letter ≠ 'R' := by cases change <;> decide
    exact scanDiff_simple hletter [] path.chars index rest
  | renamed score oldPath newPath => rfl
  | copied score oldPath newPath => cases h

/-- A text that is not empty is taken for a status, if another one follows. -/
theorem scanDiff_cons (index : Nat) {status : List Char} (hstatus : status ≠ []) (path : List Char) (rest : List (List Char)) :
    ∃ line tail, scanDiff index (status :: path :: rest) = (index, line) :: tail := by
  unfold scanDiff
  split
  · next heq => cases heq
  · next heq =>
    cases heq
    exact absurd rfl hstatus
  · next heq =>
    cases heq
    exact ⟨_, _, rfl⟩
  · next heq =>
    cases heq
    exact ⟨_, _, rfl⟩
  · next heq => cases heq

/-- A copy is more: its new path is taken for a status. -/
theorem scanDiff_copied (score : Fin 101) (oldPath newPath : Path) (index : Nat) (next : List Char) (rest : List (List Char)) :
    ∃ line line' tail, scanDiff index ((DiffRecord.copied score oldPath newPath).tokens ++ next :: rest) =
      (index, line) :: (index + 2, line') :: tail := by
  obtain ⟨line, tail, hscan⟩ := scanDiff_cons (index + 2) newPath.nonempty next rest
  exact ⟨_, line, tail, (scanDiff_simple (by decide) _ _ index _).trans (congrArg _ hscan)⟩

theorem scan_records {records : List DiffRecord} (h : ∀ record ∈ records, record.Known) (index : Nat) :
    (scanDiff index (records.flatMap DiffRecord.tokens ++ [[]])).map Prod.fst = starts index (records.map DiffRecord.tokens) ∧
      (scanDiff index (records.flatMap DiffRecord.tokens ++ [[]])).map Prod.snd = records.map DiffRecord.line := by
  induction records generalizing index with
  | nil => exact ⟨rfl, rfl⟩
  | cons record rest ih =>
    obtain ⟨hstarts, hlines⟩ := ih (fun other hother => h other (List.mem_cons_of_mem _ hother)) (index + record.tokens.length)
    rw [List.flatMap_cons, List.append_assoc, scanDiff_known (h record List.mem_cons_self)]
    exact ⟨congrArg (index :: ·) hstarts, congrArg (record.line :: ·) hlines⟩

theorem known_of_records {records : List DiffRecord} {index : Nat}
    (h : (scanDiff index (records.flatMap DiffRecord.tokens ++ [[]])).map Prod.fst =
      starts index (records.map DiffRecord.tokens)) : ∀ record ∈ records, record.Known := by
  induction records generalizing index with
  | nil => simp
  | cons record rest ih =>
    rw [List.flatMap_cons, List.append_assoc] at h
    by_cases hknown : record.Known
    · rw [scanDiff_known hknown] at h
      exact List.forall_mem_cons.mpr ⟨hknown, ih (List.cons.inj h).2⟩
    · cases record with
      | simple => exact absurd trivial hknown
      | renamed => exact absurd trivial hknown
      | copied score oldPath newPath =>
        obtain ⟨next, others, hrest⟩ := List.exists_cons_of_ne_nil
          (List.append_ne_nil_of_right_ne_nil (rest.flatMap DiffRecord.tokens) (List.cons_ne_nil ([] : List Char) []))
        obtain ⟨line, line', tail, hscan⟩ := scanDiff_copied score oldPath newPath index next others
        rw [hrest, hscan] at h
        have hnext : index + 2 ∈ starts (index + 3) (rest.map DiffRecord.tokens) := by
          have htail := (List.cons.inj h).2
          change (index + 2) :: tail.map Prod.fst = starts (index + 3) (rest.map DiffRecord.tokens) at htail
          rw [← htail]
          exact List.mem_cons_self
        have hle := le_of_mem_starts hnext
        omega

/-- **The records are read back if and only if** none of them is a copy. -/
theorem readDiff_iff (head index : List DiffRecord) : ReadsDiff head index ↔ ∀ record ∈ head ++ index, record.Known := by
  constructor
  · intro h
    have hhead := h.headStatuses
    have hindex := h.indexStatuses
    rw [diffReads, splitOn_printDiff] at hhead hindex
    intro record hrecord
    rcases List.mem_append.mp hrecord with hof | hof
    · exact known_of_records hhead record hof
    · exact known_of_records hindex record hof
  · intro h
    obtain ⟨hheadStarts, hheadLines⟩ := scan_records (fun record hof => h record (List.mem_append_left _ hof)) 0
    obtain ⟨hindexStarts, hindexLines⟩ := scan_records (fun record hof => h record (List.mem_append_right _ hof)) 0
    constructor
    case once => exact (sortBy_perm _ _).nodup_iff.mpr (List.nodup_dedup _)
    case records =>
      intro line
      rw [diffNameStatus, mem_sortBy, List.mem_dedup, diffValues, diffValues, splitOn_printDiff, splitOn_printDiff,
        hheadLines, hindexLines, ← List.map_append, List.mem_map]
    case headStatuses =>
      rw [diffReads, splitOn_printDiff]
      exact hheadStarts
    case indexStatuses =>
      rw [diffReads, splitOn_printDiff]
      exact hindexStarts

/-- **What Git prints is read back if and only if** no path comes from another one but by a rename in the index. -/
theorem reads_iff (entries : List StatusEntry) (head index : List DiffRecord) :
    (ReadsStatus entries ↔ ∀ entry ∈ entries, entry.Known) ∧
      (ReadsDiff head index ↔ ∀ record ∈ head ++ index, record.Known) :=
  ⟨readStatus_iff entries, readDiff_iff head index⟩

/-- A file that is copied in the index. -/
def copiedEntry : StatusEntry where
  index := .copied
  worktree := .unmodified
  path := ⟨['b'], by decide, by decide⟩
  source := some ⟨['a'], by decide, by decide⟩
  moved := rfl

/-- The copy of a file. -/
def copy : DiffRecord := .copied 100 ⟨['a'], by decide, by decide⟩ ⟨['b'], by decide, by decide⟩

/-- **The path of a copy is taken for a status**, by both. -/
theorem reads_copy : ¬ ReadsStatus [copiedEntry] ∧ ¬ ReadsDiff [copy] [] := by
  constructor
  · intro h
    have hlength := h.strings.length_eq
    rw [statusEntries, length_sortBy] at hlength
    revert hlength
    decide
  · intro h
    have hrecord : (⟨"C100", "a", "a"⟩ : DiffLine) ∈ diffNameStatus (some (printDiff [copy])) (some (printDiff [])) := by
      rw [diffNameStatus, mem_sortBy]
      decide
    obtain ⟨record, hof, hline⟩ := (h.records _).mp hrecord
    obtain rfl := List.mem_singleton.mp hof
    exact absurd hline (by decide)

end CodexMemory.Hooks.GitOutput
