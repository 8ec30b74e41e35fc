import CodexMemory.Hooks.GitOutput
import Mathlib

/-!
# The files of a change manifest

`build_change_manifest` puts the records of two diffs together, the one against `HEAD` and the one of the
index, and the untracked files.  A record of both diffs is taken once; two different records of one path
are both taken.

* `listsOnce_iff`: every path is listed once exactly where the diffs agree about each path that both name,
  and no untracked file has the old path of a rename.
-/

namespace CodexMemory.Hooks.ChangeManifest

open GitOutput

variable {F : Type}

/-! ## What differs -/

def newPath : DiffRecord → String
  | .simple _ path => path.text
  | .renamed _ _ newPath => newPath.text
  | .copied _ _ newPath => newPath.text

/-- The paths of a record; the old one of a rename is among them or not. -/
def recordPaths (old : Bool) : DiffRecord → List String
  | .renamed _ oldPath newPath => newPath.text :: if old then [oldPath.text] else []
  | record => [newPath record]

/-- What Git reports of a diff with renames: each path once. -/
structure Report where
  records : List DiffRecord
  noCopies : ∀ record ∈ records, record.Known
  once : (records.flatMap (recordPaths true)).Nodup

/-- A clean baseline, and the repository now: its snapshot, the diff against `HEAD` and the one of the index. -/
structure Comparison (F : Type) where
  baseline : GitSnapshot F
  available : baseline.available = true
  clean : baseline.dirty = false
  current : GitSnapshot F
  currentAvailable : current.available = true
  root : current.root.getD "" ≠ ""
  untracked : List String
  metadata : current.untracked.map (textAt · "path") = untracked.map some
  untrackedOnce : untracked.Nodup
  head : Report
  index : Report

/-- The two outputs of `git diff --name-status -z`. -/
def Comparison.diff (c : Comparison F) : List DiffLine :=
  diffNameStatus (some (printDiff c.head.records)) (some (printDiff c.index.records))

/-- The files of `build_change_manifest`. -/
def Comparison.files (str : Json F → String) (c : Comparison F) : List (ManifestFile F) :=
  (buildChangeManifest str c.baseline c.current c.diff).files

def Comparison.records (c : Comparison F) : List DiffRecord := c.head.records ++ c.index.records

/-- The paths of a file of a manifest, as those of a record. -/
def filePaths (old : Bool) (file : ManifestFile F) : List String :=
  file.path :: if old then file.oldPath.toList else []

/-- **Every path that differs is listed once**, no other one is, and the renames are listed with their old
paths.  The old path of a rename counts as listed by it or not. -/
structure ListsOnce (str : Json F → String) (c : Comparison F) (old : Bool) : Prop where
  once : ((c.files str).flatMap (filePaths old)).Nodup
  exact : ∀ path, path ∈ (c.files str).flatMap (filePaths old) ↔
    path ∈ c.records.flatMap (recordPaths old) ∨ path ∈ c.untracked
  renames : ∀ score oldPath newPath, DiffRecord.renamed score oldPath newPath ∈ c.records →
    ∃ file ∈ c.files str, file.path = newPath.text ∧ file.oldPath = some oldPath.text ∧ file.change = "renamed"

/-- Records of one path are the same, and no untracked file has a path that a rename has left. -/
structure Agree (c : Comparison F) (old : Bool) : Prop where
  same : ∀ record ∈ c.head.records, ∀ other ∈ c.index.records, ∀ path ∈ recordPaths old record,
    path ∈ recordPaths old other → record.line = other.line
  left : ∀ record ∈ c.records, ∀ path ∈ recordPaths old record, path ≠ newPath record → path ∉ c.untracked

/-! ## Records and files -/

/-- Members that are not the same have nothing in common. -/
theorem apart {α β : Type} {f : α → List β} {l : List α} (h : (l.flatMap f).Nodup) {a b : α} (ha : a ∈ l) (hb : b ∈ l)
    (hne : a ≠ b) {x : β} (hx : x ∈ f a) : x ∉ f b := by
  have hsymm : Std.Symm (Function.onFun List.Disjoint f) := ⟨fun _ _ h => List.Disjoint.symm h⟩
  have hdisjoint := (List.nodup_flatMap.mp h).2.forall ha hb hne
  exact fun hmem => hdisjoint hx hmem

theorem filePaths_line {record : DiffRecord} (h : record.Known) (old : Bool) :
    filePaths old (diffFile (F := F) record.line) = recordPaths old record := by
  cases record with
  | simple change path =>
    cases change <;> cases old <;> simp [diffFile, DiffRecord.line, filePaths, recordPaths, newPath, Change.letter]
  | renamed score oldPath newPath =>
    cases old <;> simp [diffFile, DiffRecord.line, filePaths, recordPaths]
  | copied => cases h

theorem newPath_mem (old : Bool) (record : DiffRecord) : newPath record ∈ recordPaths old record := by
  cases record <;> exact List.mem_cons_self

theorem recordPaths_subset {old : Bool} {record : DiffRecord} {path : String} (h : path ∈ recordPaths old record) :
    path ∈ recordPaths true record := by
  cases old with
  | true => exact h
  | false =>
    cases record with
    | renamed => exact List.mem_cons.mpr (.inl (List.mem_singleton.mp h))
    | simple => exact h
    | copied => exact h

theorem recordPaths_sublist (old : Bool) (record : DiffRecord) : (recordPaths old record).Sublist (recordPaths true record) := by
  cases old with
  | true => exact List.Sublist.refl _
  | false => cases record <;> simp [recordPaths]

/-- Two records of one report have no path in common. -/
theorem Report.apart (report : Report) {record other : DiffRecord} (hrecord : record ∈ report.records)
    (hother : other ∈ report.records) (hne : record ≠ other) {old : Bool} {path : String} (hpath : path ∈ recordPaths old record) :
    path ∉ recordPaths old other := fun hmem =>
  ChangeManifest.apart report.once hrecord hother hne (recordPaths_subset hpath) (recordPaths_subset hmem)

theorem Report.nodup (report : Report) {record : DiffRecord} (hrecord : record ∈ report.records) (old : Bool) :
    (recordPaths old record).Nodup :=
  ((List.nodup_flatMap.mp report.once).1 record hrecord).sublist (recordPaths_sublist old record)

section

variable {str : Json F → String} {c : Comparison F} {old : Bool}

theorem Comparison.known (c : Comparison F) : ∀ record ∈ c.records, record.Known := by
  intro record hrecord
  rcases List.mem_append.mp hrecord with hof | hof
  · exact c.head.noCopies record hof
  · exact c.index.noCopies record hof

theorem Comparison.reads (c : Comparison F) : ReadsDiff c.head.records c.index.records := (readDiff_iff _ _).mpr c.known

theorem Comparison.mem_diff {line : DiffLine} : line ∈ c.diff ↔ ∃ record ∈ c.records, record.line = line :=
  c.reads.records line

/-- The untracked files that no record has the path of. -/
def Comparison.extra (c : Comparison F) : List String :=
  c.untracked.filter fun path => !(c.diff.map fun line => (diffFile (F := F) line).path).contains path

/-- The path of an item of a snapshot. -/
theorem map_path {items : List (List (String × Json F))} {paths : List String} {path : List (String × Json F) → String}
    (hpath : ∀ item text, textAt item "path" = some text → path item = text)
    (h : items.map (textAt · "path") = paths.map some) : items.map path = paths := by
  induction items generalizing paths with
  | nil =>
    cases paths with
    | nil => rfl
    | cons => cases h
  | cons item rest ih =>
    cases paths with
    | nil => cases h
    | cons text paths =>
      rw [List.map_cons, List.map_cons, List.cons.injEq] at h
      rw [List.map_cons, hpath item text h.1, ih h.2]

theorem Comparison.files_manifest (str : Json F → String) (c : Comparison F) :
    (c.files str).Perm (manifestFiles str c.current c.diff) := by
  have hcertain : (!c.baseline.available || !c.current.available || c.baseline.dirty) = false := by
    rw [c.available, c.currentAvailable, c.clean]
    rfl
  simp only [Comparison.files, buildChangeManifest, hcertain]
  exact sortBy_perm _ _

theorem Comparison.mem_files (str : Json F → String) {line : DiffLine} (h : line ∈ c.diff) : diffFile line ∈ c.files str := by
  rw [(c.files_manifest str).mem_iff, manifestFiles, if_neg c.root]
  exact List.mem_append_left _ (List.mem_map.mpr ⟨line, h, rfl⟩)

theorem Comparison.files_perm (str : Json F → String) (c : Comparison F) (old : Bool) :
    ((c.files str).flatMap (filePaths old)).Perm
      (c.diff.flatMap (fun line => filePaths old (diffFile (F := F) line)) ++ c.extra) := by
  refine ((c.files_manifest str).flatMap_right (filePaths old)).trans (List.Perm.of_eq ?_)
  have hpath : ∀ item text, textAt item "path" = some text →
      (textAt item "path").getD (str ((item.lookup "path").getD .null)) = text := by
    intro item text htext
    rw [htext]
    rfl
  have hitems := map_path hpath c.metadata
  rw [manifestFiles, if_neg c.root]
  simp only
  rw [List.flatMap_append, List.flatMap_map, List.flatMap_map, List.map_map, Comparison.extra]
  congr 1
  rw [← hitems, List.filter_map]
  have hsingle : ∀ items : List (List (String × Json F)), items.flatMap (fun item => filePaths old
      { path := (textAt item "path").getD (str ((item.lookup "path").getD .null)), change := "untracked",
        metadata := some item }) = items.map fun item => (textAt item "path").getD (str ((item.lookup "path").getD .null)) := by
    intro items
    induction items with
    | nil => rfl
    | cons item rest ih =>
      rw [List.flatMap_cons, ih]
      cases old <;> rfl
  exact hsingle _

/-! ## Every path once -/

theorem Comparison.mem_paths {path : String} :
    path ∈ c.diff.flatMap (fun line => filePaths old (diffFile (F := F) line)) ↔ path ∈ c.records.flatMap (recordPaths old) := by
  rw [List.mem_flatMap, List.mem_flatMap]
  constructor
  · rintro ⟨line, hline, hpath⟩
    obtain ⟨record, hrecord, rfl⟩ := c.mem_diff.mp hline
    rw [filePaths_line (c.known record hrecord)] at hpath
    exact ⟨record, hrecord, hpath⟩
  · rintro ⟨record, hrecord, hpath⟩
    refine ⟨record.line, c.mem_diff.mpr ⟨record, hrecord, rfl⟩, ?_⟩
    rw [filePaths_line (c.known record hrecord)]
    exact hpath

/-- The path of an untracked file is a new path of a record, or the file is taken. -/
theorem Comparison.mem_extra {path : String} :
    path ∈ c.extra ↔ path ∈ c.untracked ∧ ∀ record ∈ c.records, newPath record ≠ path := by
  have hfile : ∀ record ∈ c.records, (diffFile (F := F) record.line).path = newPath record := by
    intro record hrecord
    have hpaths := filePaths_line (F := F) (c.known record hrecord) false
    cases record <;> exact (List.cons.inj hpaths).1
  rw [Comparison.extra, List.mem_filter, Bool.not_eq_true', List.contains_eq_mem, decide_eq_false_iff_not, List.mem_map]
  refine and_congr_right fun _ => ?_
  constructor
  · intro h record hrecord heq
    exact h ⟨record.line, c.mem_diff.mpr ⟨record, hrecord, rfl⟩, (hfile record hrecord).trans heq⟩
  · rintro h ⟨line, hline, heq⟩
    obtain ⟨record, hrecord, rfl⟩ := c.mem_diff.mp hline
    exact h record hrecord ((hfile record hrecord).symm.trans heq)

theorem nodup_extra (c : Comparison F) : c.extra.Nodup := c.untrackedOnce.filter _

/-- The lines have no path in common where the two diffs agree. -/
theorem nodup_lines (h : Agree c old) : (c.diff.flatMap fun line => filePaths old (diffFile (F := F) line)).Nodup := by
  rw [List.nodup_flatMap]
  constructor
  · intro line hline
    obtain ⟨record, hrecord, rfl⟩ := c.mem_diff.mp hline
    rw [filePaths_line (c.known record hrecord)]
    rcases List.mem_append.mp hrecord with hof | hof
    · exact c.head.nodup hof old
    · exact c.index.nodup hof old
  · refine c.reads.once.pairwise_of_forall_ne fun line hline line' hline' hne => ?_
    obtain ⟨record, hrecord, rfl⟩ := c.mem_diff.mp hline
    obtain ⟨other, hother, rfl⟩ := c.mem_diff.mp hline'
    rw [Function.onFun, filePaths_line (c.known record hrecord), filePaths_line (c.known other hother)]
    have hdifferent : record ≠ other := fun heq => hne (congrArg DiffRecord.line heq)
    intro path hpath hpath'
    rcases List.mem_append.mp hrecord with hof | hof
    · rcases List.mem_append.mp hother with hof' | hof'
      · exact c.head.apart hof hof' hdifferent hpath hpath'
      · exact hne (h.same record hof other hof' path hpath hpath')
    · rcases List.mem_append.mp hother with hof' | hof'
      · exact hne (h.same other hof' record hof path hpath' hpath).symm
      · exact c.index.apart hof hof' hdifferent hpath hpath'

/-- Records of one path are one line. -/
theorem same_line (h : (c.diff.flatMap fun line => filePaths old (diffFile (F := F) line)).Nodup) {record other : DiffRecord}
    (hrecord : record ∈ c.records) (hother : other ∈ c.records) {path : String} (hpath : path ∈ recordPaths old record)
    (hpath' : path ∈ recordPaths old other) : record.line = other.line := by
  by_contra hne
  rw [← filePaths_line (F := F) (c.known record hrecord)] at hpath
  rw [← filePaths_line (F := F) (c.known other hother)] at hpath'
  exact apart h (c.mem_diff.mpr ⟨record, hrecord, rfl⟩) (c.mem_diff.mpr ⟨other, hother, rfl⟩) hne hpath hpath'

theorem newPath_line (record : DiffRecord) : record.line.newPath = newPath record := by cases record <;> rfl

/-- **Every path is listed once if and only if** the two diffs agree about it, and no untracked file has a path
that a rename has left. -/
theorem listsOnce_iff (str : Json F → String) (c : Comparison F) (old : Bool) : ListsOnce str c old ↔ Agree c old := by
  have hperm := c.files_perm str old
  constructor
  · intro h
    have honce := hperm.nodup_iff.mp h.once
    rw [List.nodup_append] at honce
    obtain ⟨hlines, -, hdisjoint⟩ := honce
    constructor
    case same =>
      intro record hrecord other hother path hpath hpath'
      exact same_line hlines (List.mem_append_left _ hrecord) (List.mem_append_right _ hother) hpath hpath'
    case left =>
      intro record hrecord path hpath hleft huntracked
      by_cases hextra : path ∈ c.extra
      · exact hdisjoint path (Comparison.mem_paths.mpr (List.mem_flatMap.mpr ⟨record, hrecord, hpath⟩)) path hextra rfl
      · -- another record is about the path itself
        rw [Comparison.mem_extra, not_and] at hextra
        have hother := hextra huntracked
        push Not at hother
        obtain ⟨other, hother, rfl⟩ := hother
        have hline := same_line hlines hrecord hother hpath (newPath_mem old other)
        rw [← newPath_line, ← newPath_line, hline] at hleft
        exact hleft rfl
  · intro h
    constructor
    case once =>
      refine hperm.nodup_iff.mpr (List.nodup_append.mpr ⟨nodup_lines h, nodup_extra c, ?_⟩)
      rintro path hpath _ hextra rfl
      obtain ⟨record, hrecord, hof⟩ := List.mem_flatMap.mp (Comparison.mem_paths.mp hpath)
      obtain ⟨huntracked, hnew⟩ := Comparison.mem_extra.mp hextra
      exact h.left record hrecord path hof (hnew record hrecord).symm huntracked
    case exact =>
      intro path
      rw [hperm.mem_iff, List.mem_append, Comparison.mem_paths, Comparison.mem_extra]
      constructor
      · rintro (hpath | ⟨huntracked, -⟩)
        · exact .inl hpath
        · exact .inr huntracked
      · rintro (hpath | huntracked)
        · exact .inl hpath
        · by_cases hnew : ∀ record ∈ c.records, newPath record ≠ path
          · exact .inr ⟨huntracked, hnew⟩
          · push Not at hnew
            obtain ⟨record, hrecord, rfl⟩ := hnew
            exact .inl (List.mem_flatMap.mpr ⟨record, hrecord, newPath_mem old record⟩)
    case renames =>
      intro score oldPath newPath hrecord
      refine ⟨_, Comparison.mem_files str (c.mem_diff.mpr ⟨_, hrecord, rfl⟩), ?_⟩
      simp [diffFile, DiffRecord.line]

end

/-! ## A staged edit of a file that is then removed -/

def changed : Path := ⟨['f'], by decide, by decide⟩

/-- The diff against `HEAD` says that the file is deleted, the one of the index that it is modified. -/
def removedEdit : Comparison Empty where
  baseline := { available := true }
  available := rfl
  clean := by decide
  current := { available := true, root := some "/demo", porcelain := "MD f" }
  currentAvailable := rfl
  root := by decide
  untracked := []
  metadata := rfl
  untrackedOnce := List.nodup_nil
  head := ⟨[.simple .deleted changed], by simp [DiffRecord.Known], by decide⟩
  index := ⟨[.simple .modified changed], by simp [DiffRecord.Known], by decide⟩

theorem removedEdit_twice (str : Json Empty → String) (old : Bool) : ¬ ListsOnce str removedEdit old := by
  intro h
  have honce := (removedEdit.files_perm str old).nodup_iff.mp h.once
  have hline := same_line (List.nodup_append.mp honce).1 (List.mem_append_left _ List.mem_cons_self)
    (List.mem_append_right _ List.mem_cons_self) (newPath_mem old _) (newPath_mem old (.simple .modified changed))
  exact absurd hline (by decide)

/-- **The file is listed twice**, as deleted and as modified. -/
theorem listsOnce_removedEdit :
    ¬ ListsOnce (fun _ => "") removedEdit false ∧ ¬ ListsOnce (fun _ => "") removedEdit true :=
  ⟨removedEdit_twice _ _, removedEdit_twice _ _⟩

end CodexMemory.Hooks.ChangeManifest
