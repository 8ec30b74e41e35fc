import CodexMemory.Like
import CodexMemory.Table
import CodexMemory.Text
import Mathlib

/-!
# The lists of `admin/api.py`

`query_rows` selects the rows of a list and returns one page of them.  A keyword is
looked for with `ILIKE`, and the rows are ordered by a column and then by `id`.

* `keyword_found`: a keyword is found in the texts that contain it, whatever characters
  it has;
* `pages_once`: page after page, as long as there is a next one, gives every row that
  matches exactly once and in order.
-/

namespace CodexMemory.Admin

open Like

/-- `_literal_like_pattern` -/
def literalLikePattern (value : String) : List Char :=
  '%' :: (replaceChar '_' ['\\', '_'] (replaceChar '%' ['\\', '%'] (replaceChar '\\' ['\\', '\\'] (strip value).toList)) ++
    ['%'])

/-- What a request asks for.  `keep` stands for the conditions on project, scope, time and fields; a field that is null
has no text. -/
structure Query (R K : Type) where
  keep : R → Bool
  keyword : Option String
  keywordFields : List (R → Option String)
  column : R → K
  ascending : Bool

variable {R K : Type}

/-- The condition on the keyword. -/
def Query.keywordCondition (folding : Folding '\\') (q : Query R K) (row : R) : Bool :=
  match q.keyword with
  | none => true
  | some keyword =>
    if strip keyword = "" || q.keywordFields.isEmpty then true
    else q.keywordFields.any fun field =>
      (field row).any fun text => ilike folding text.toList (literalLikePattern keyword) == some true

/-- The rows that match. -/
def Query.matching (folding : Folding '\\') (q : Query R K) (table : Table R) : List (Nat × R) :=
  table.select fun row => q.keep row && q.keywordCondition folding row

section Order

variable [LinearOrder K]

/-- `order_by(column, id.desc())` -/
def Query.Before (q : Query R K) (a b : Nat × R) : Prop :=
  (if q.ascending then q.column a.2 < q.column b.2 else q.column b.2 < q.column a.2) ∨
    (q.column a.2 = q.column b.2 ∧ b.1 ≤ a.1)

instance (q : Query R K) (a b : Nat × R) : Decidable (q.Before a b) :=
  inferInstanceAs (Decidable (_ ∨ _))

/-- The rows that match, in some order that the database may return them in. -/
structure Answer (folding : Folding '\\') (q : Query R K) (table : Table R) where
  rows : List (Nat × R)
  perm : rows.Perm (q.matching folding table)
  ordered : rows.Pairwise q.Before

/-- One page of an answer, and the number of rows that match. -/
def queryRows {folding : Folding '\\'} {q : Query R K} {table : Table R} (answer : Answer folding q table)
    (page pageSize : Nat) : List (Nat × R) × Nat :=
  ((answer.rows.drop ((page - 1) * pageSize)).take pageSize, (q.matching folding table).length)

/-- `has_next` of `_page` -/
def hasNext (page pageSize total : Nat) : Bool := decide (page * pageSize < total)

/-- The sizes that a request may ask for. -/
abbrev PageSize := {n : Nat // 1 ≤ n ∧ n ≤ 200}

/-- At most `fuel` pages from `page` on, as long as there is a next one.  The database answers each request anew. -/
def walk {folding : Folding '\\'} {q : Query R K} {table : Table R} (answers : Nat → Answer folding q table)
    (pageSize : PageSize) : Nat → Nat → List (Nat × R)
  | 0, _ => []
  | fuel + 1, page =>
    let (rows, total) := queryRows (answers page) page pageSize
    rows ++ if hasNext page pageSize total then walk answers pageSize fuel (page + 1) else []

end Order

/-! ## Keywords -/

/-- The three replacements put a backslash before each character that means something. -/
theorem literalLikePattern_eq (value : String) :
    literalLikePattern value = '%' :: (escapeText '\\' (strip value).toList ++ ['%']) := by
  have hchar : ∀ c, replaceChar '_' ['\\', '_'] (replaceChar '%' ['\\', '%'] (if c = '\\' then ['\\', '\\'] else [c])) =
      escapeChar '\\' c := by
    intro c
    by_cases hback : c = '\\'
    · subst hback
      decide
    by_cases hpercent : c = '%'
    · subst hpercent
      decide
    by_cases hunder : c = '_'
    · subst hunder
      decide
    simp [replaceChar, escapeChar, Like.control, hback, hpercent, hunder]
  have hall := congrArg ((strip value).toList.flatMap ·) (funext hchar)
  have hinner : replaceChar '\\' ['\\', '\\'] (strip value).toList =
      (strip value).toList.flatMap fun c => if c = '\\' then ['\\', '\\'] else [c] := rfl
  rw [literalLikePattern, escapeText, ← hall, hinner, replaceChar_flatMap, replaceChar_flatMap]

/-- The keyword is looked for as it stands, without the white space around it. -/
theorem ilike_literal (folding : Folding '\\') (value : String) (text : List Char) :
    ilike folding text (literalLikePattern value) =
      some (decide ((strip value).toList.map folding.fold <:+: text.map folding.fold)) := by
  rw [literalLikePattern_eq]
  exact ilike_escapeText folding (by decide) text _

/-- The lower case of ASCII is a folding. -/
def asciiFolding : Folding '\\' where
  fold c := if c.isUpper then c.toLower else c
  steady c := by
    have hletters : ∀ n < 91, 65 ≤ n →
        Like.control '\\' (Char.ofNat n) = false ∧ Like.control '\\' (Char.ofNat n).toLower = false := by decide
    split
    · next h =>
      rw [Char.isUpper, decide_eq_true_eq] at h
      have hc := hletters c.toNat (Nat.lt_succ_of_le (UInt32.le_iff_toNat_le.mp h.2)) (UInt32.le_iff_toNat_le.mp h.1)
      rw [Char.ofNat_toNat] at hc
      exact Or.inr hc
    · exact Or.inl rfl

example : ilike asciiFolding "100_B".toList (literalLikePattern " _b ") = some true := by decide

example : ilike asciiFolding "100%".toList (literalLikePattern "_") = some false := by decide

/-- **Keywords are literal.**  A row is found by a keyword exactly if one of the fields has a text that contains it up
to case, also where the keyword has `%`, `_` or a backslash. -/
theorem keyword_found (folding : Folding '\\') (q : Query R K) (table : Table R) (id : Nat) (row : R) :
    (id, row) ∈ q.matching folding table ↔ (id, row) ∈ table.rows ∧ q.keep row = true ∧
      ∀ keyword, q.keyword = some keyword → strip keyword ≠ "" → q.keywordFields ≠ [] →
        ∃ field ∈ q.keywordFields, ∃ text, field row = some text ∧
          (strip keyword).toList.map folding.fold <:+: text.toList.map folding.fold := by
  rw [Query.matching, Table.select, List.mem_filter, Bool.and_eq_true]
  refine and_congr_right' (and_congr_right' ?_)
  rw [Query.keywordCondition]
  cases hkeyword : q.keyword with
  | none => simp
  | some keyword =>
    by_cases hasked : strip keyword = "" ∨ q.keywordFields = []
    · have hskipped : (strip keyword = "" || q.keywordFields.isEmpty) = true := by simpa using hasked
      dsimp only
      rw [if_pos hskipped]
      refine iff_of_true rfl ?_
      rintro _ ⟨⟩ hblank hfields
      exact absurd hasked (not_or.mpr ⟨hblank, hfields⟩)
    · have hlooked : ¬ (strip keyword = "" || q.keywordFields.isEmpty) = true := by simpa using hasked
      rw [not_or] at hasked
      dsimp only
      rw [if_neg hlooked]
      simp only [List.any_eq_true, Option.any_eq_true, ilike_literal, beq_iff_eq, Option.some.injEq, decide_eq_true_eq,
        forall_eq', hasked.1, hasked.2, ne_eq, not_false_eq_true, forall_const]

/-! ## Pages -/

section Pages

variable [LinearOrder K] {folding : Folding '\\'} {q : Query R K} {table : Table R}

/-- Rows with one value in the column are ordered by `id`. -/
theorem before_of_eq {a b : Nat × R} (h : q.column a.2 = q.column b.2) : q.Before a b ↔ b.1 ≤ a.1 := by
  unfold Query.Before
  rw [h]
  simp

theorem column_eq_of_before {a b : Nat × R} (hab : q.Before a b) (hba : q.Before b a) :
    q.column a.2 = q.column b.2 := by
  rcases hab with hab | ⟨heq, -⟩
  · rcases hba with hba | ⟨heq, -⟩
    · split at hab
      · next hasc =>
        rw [if_pos hasc] at hba
        exact absurd hab (lt_asymm hba)
      · next hdesc =>
        rw [if_neg hdesc] at hba
        exact absurd hab (lt_asymm hba)
    · exact heq.symm
  · exact heq

/-- Rows that are each before the other are one row. -/
theorem before_antisymm {a b : Nat × R} (ha : a ∈ q.matching folding table) (hb : b ∈ q.matching folding table)
    (hab : q.Before a b) (hba : q.Before b a) : a = b := by
  have hcolumn := column_eq_of_before hab hba
  have hid : a.1 = b.1 := le_antisymm ((before_of_eq hcolumn.symm).mp hba) ((before_of_eq hcolumn).mp hab)
  exact List.inj_on_of_nodup_map table.nodup (List.mem_of_mem_filter ha) (List.mem_of_mem_filter hb) hid

theorem before_total (a b : Nat × R) : q.Before a b ∨ q.Before b a := by
  unfold Query.Before
  rcases lt_trichotomy (q.column a.2) (q.column b.2) with h | h | h
  · split
    · exact Or.inl (Or.inl h)
    · exact Or.inr (Or.inl h)
  · rcases le_total b.1 a.1 with hid | hid
    · exact Or.inl (Or.inr ⟨h, hid⟩)
    · exact Or.inr (Or.inr ⟨h.symm, hid⟩)
  · split
    · exact Or.inr (Or.inl h)
    · exact Or.inl (Or.inl h)

theorem before_trans {a b c : Nat × R} (hab : q.Before a b) (hbc : q.Before b c) : q.Before a c := by
  unfold Query.Before at *
  rcases hab with hab | ⟨heq, hab⟩
  · refine Or.inl ?_
    rcases hbc with hbc | ⟨heq, -⟩
    · split at hab
      · next hasc =>
        rw [if_pos hasc] at hbc ⊢
        exact hab.trans hbc
      · next hdesc =>
        rw [if_neg hdesc] at hbc ⊢
        exact hbc.trans hab
    · rwa [← heq]
  · rw [heq]
    rcases hbc with hbc | ⟨heq', hbc⟩
    · exact Or.inl hbc
    · exact Or.inr ⟨heq', hbc.trans hab⟩

/-- There is an answer. -/
def sortedAnswer (folding : Folding '\\') (q : Query R K) (table : Table R) : Answer folding q table where
  rows := (q.matching folding table).insertionSort q.Before
  perm := List.perm_insertionSort _ _
  ordered := by
    have : Std.Total q.Before := ⟨before_total⟩
    have : IsTrans (Nat × R) q.Before := ⟨fun _ _ _ => before_trans⟩
    exact List.pairwise_insertionSort _ _

/-- The order leaves the database no choice. -/
theorem answer_unique (x y : Answer folding q table) : x.rows = y.rows := by
  refine (x.perm.trans y.perm.symm).eq_of_pairwise ?_ x.ordered y.ordered
  intro a b ha hb
  exact before_antisymm (x.perm.mem_iff.mp ha) (y.perm.mem_iff.mp hb)

/-- What is left from `page` on. -/
theorem walk_drop (answers : Nat → Answer folding q table) (pageSize : PageSize) (fuel page : Nat)
    (hfuel : (q.matching folding table).length ≤ (page + fuel) * pageSize) :
    walk answers pageSize fuel (page + 1) = (answers 1).rows.drop (page * pageSize) := by
  have hlength := (answers 1).perm.length_eq
  induction fuel generalizing page with
  | zero =>
    rw [walk, List.drop_eq_nil_of_le (by rw [hlength]; exact hfuel)]
  | succ fuel ih =>
    rw [walk, queryRows, answer_unique (answers (page + 1)) (answers 1), Nat.add_sub_cancel]
    dsimp only
    have hsplit : (answers 1).rows.drop (page * pageSize) =
        ((answers 1).rows.drop (page * pageSize)).take pageSize ++ (answers 1).rows.drop ((page + 1) * pageSize) := by
      rw [Nat.succ_mul, ← List.drop_drop, List.take_append_drop]
    conv_rhs => rw [hsplit]
    refine congrArg (((answers 1).rows.drop (page * pageSize)).take pageSize ++ ·) ?_
    by_cases hnext : (page + 1) * pageSize < (q.matching folding table).length
    · rw [hasNext, decide_eq_true hnext, if_pos rfl]
      exact ih (page + 1) (by rw [Nat.succ_add]; exact hfuel)
    · rw [hasNext, decide_eq_false hnext, if_neg Bool.false_ne_true]
      exact (List.drop_eq_nil_of_le (by rw [hlength]; exact Nat.le_of_not_lt hnext)).symm

/-- **Page after page.**  However the database answers the single requests, the pages together have every row that
matches exactly once, and in order; as many pages as there are rows are enough. -/
theorem pages_once (answers : Nat → Answer folding q table) (pageSize : PageSize) (more : Nat) :
    (walk answers pageSize ((q.matching folding table).length + more) 1).Perm (q.matching folding table) ∧
      (walk answers pageSize ((q.matching folding table).length + more) 1).Pairwise q.Before ∧
      (walk answers pageSize ((q.matching folding table).length + more) 1).Nodup := by
  have hfuel : (q.matching folding table).length ≤ (0 + ((q.matching folding table).length + more)) * pageSize := by
    have hsize := pageSize.property.1
    calc (q.matching folding table).length
        ≤ 0 + ((q.matching folding table).length + more) := by omega
      _ ≤ (0 + ((q.matching folding table).length + more)) * pageSize := Nat.le_mul_of_pos_right _ hsize
  have hwalk := walk_drop answers pageSize _ 0 hfuel
  rw [Nat.zero_mul, List.drop_zero] at hwalk
  rw [show (1 : Nat) = 0 + 1 from rfl, hwalk]
  refine ⟨(answers 1).perm, (answers 1).ordered, ?_⟩
  rw [(answers 1).perm.nodup_iff]
  exact (List.Nodup.of_map _ table.nodup).filter _

end Pages

end CodexMemory.Admin
